import MyJQL.BufferPool.Coherence

/-!
# Replacement is least recently used

* `lruEntries pool`: the entries of `lru` that are not `-1`; `HasFrame pool a`, `pinned pool`: the
  pages with a frame, and with a reference count other than `0`;
* `LruReach pool log`: the states reached by requests and releases, with the addresses requested so
  far, the last one first;
* `Recent log L`: `L` is ordered by the last request; `LruReach.recent`: so is `lru`;
* **`lru_exact`**: `lru` lists exactly the cached pages in order of recency, and a request that must
  evict a page evicts the least recently requested unreferenced one.
-/

set_option linter.unusedSimpArgs false

namespace MyJQL

namespace BufferPool

variable {P : Type} {pool pool' : BufferPool P} {log L L' : List Int} {a : Int} {i : ℕ}

/-- The entries of `lru` that are not `-1`. -/
def lruEntries (pool : BufferPool P) : List Int :=
  ((List.range cachePage).map pool.lru).filter fun a => a ≠ -1

/-- The page has a frame. -/
def HasFrame (pool : BufferPool P) (a : Int) : Prop := a ≠ -1 ∧ ∃ i < cachePage, pool.addrs i = a

/-- The pages with a reference count other than `0`. -/
def pinned (pool : BufferPool P) : Finset Int :=
  ((Finset.range cachePage).filter fun i => pool.ref i ≠ 0).image pool.addrs

/-- The states reached from a pool just opened by requests that return and by releases, with the
addresses requested so far, the last one first. -/
inductive LruReach : BufferPool P → List Int → Prop
  | init [Inhabited P] (disk : Option (FileInfo P)) (hd : (openFile disk).1 = .success)
      (h0 : 0 ≤ (openFile disk).2.length) : LruReach (initBufferPool disk) []
  | getPage {pool pool' : BufferPool P} {log : List Int} {a : Int} {i : ℕ} (h : LruReach pool log)
      (ha : pool.file.Valid a) (hg : pool.getPage a = some (i, pool')) : LruReach pool' (a :: log)
  | release {pool : BufferPool P} {log : List Int} {a : Int} (h : LruReach pool log)
      (ha : pool.file.Valid a) : LruReach (pool.release a) log

/-! ## Order of recency -/

/-- `L` is ordered by the last request. -/
structure Recent (log L : List Int) : Prop where
  mem : ∀ a ∈ L, a ∈ log
  order : L.Pairwise fun a b => log.idxOf a < log.idxOf b

theorem Recent.sublist (h : Recent log L) (hs : L'.Sublist L) : Recent log L' :=
  ⟨fun b hb => h.mem b (hs.subset hb), h.order.sublist hs⟩

theorem Recent.cons (h : Recent log L) (ha : a ∉ L) : Recent (a :: log) (a :: L) := by
  have hne : ∀ b ∈ L, (a :: log).idxOf b = log.idxOf b + 1 := fun b hb => by
    rw [List.idxOf_cons_ne]
    rintro rfl
    exact ha hb
  refine ⟨fun b hb => ?_, List.pairwise_cons.mpr ⟨fun b hb => ?_, ?_⟩⟩
  · rcases List.mem_cons.mp hb with rfl | hb
    · exact List.mem_cons_self
    · exact List.mem_cons_of_mem _ (h.mem b hb)
  · rw [List.idxOf_cons_self, hne b hb]
    exact Nat.succ_pos _
  · refine h.order.imp_of_mem fun {b c} hb hc hlt => ?_
    rw [hne b hb, hne c hc]
    exact Nat.succ_lt_succ hlt

theorem Touched.recent (ht : Touched pool L a L') (hnd : L.Nodup) (h : Recent log L) :
    Recent (a :: log) L' := by
  rcases ht with ⟨rfl, -⟩ | ⟨v, haL, -, -, rfl⟩
  · exact (h.sublist List.erase_sublist).cons hnd.not_mem_erase
  · exact (h.sublist List.erase_sublist).cons fun hm => haL (List.mem_of_mem_erase hm)

/-- **Every state reached** lists its cached pages in order of recency. -/
theorem LruReach.recent (h : LruReach pool log) : ∃ L, Wf pool L ∧ Recent log L := by
  induction h with
  | init disk hd h0 =>
    refine ⟨[], wf_init h0 ?_, ⟨fun _ hb => (List.not_mem_nil hb).elim, List.Pairwise.nil⟩⟩
    unfold openFile
    split
    · split_ifs with hm
      · rfl
      · simpa using hm
    · rfl
  | getPage _ ha hg ih =>
    obtain ⟨L, hw, hr⟩ := ih
    obtain ⟨i', pool', L', hg', got, ht⟩ := hw.getPage ha (hw.room hg ha.ne_null)
    obtain ⟨rfl, rfl⟩ := Prod.mk.inj (Option.some.inj (hg.symm.trans hg'))
    exact ⟨L', got.wf, ht.recent hw.nodup hr⟩
  | release _ ha ih =>
    obtain ⟨L, hw, hr⟩ := ih
    exact ⟨L, hw.release ha.ne_null, hr⟩

/-! ## The array -/

namespace Wf

theorem lruEntries_eq (h : Wf pool L) : lruEntries pool = L := by
  have hmap : (List.range cachePage).map pool.lru = L ++ List.replicate (cachePage - L.length) (-1) := by
    refine List.ext_getElem ?_ fun i hi _ => ?_
    · have := h.length_le
      simp only [List.length_map, List.length_range, List.length_append, List.length_replicate]
      omega
    · rw [List.length_map, List.length_range] at hi
      rw [List.getElem_map, List.getElem_range, h.lru i hi]
      rcases Nat.lt_or_ge i L.length with hl | hl
      · rw [List.getD_eq_getElem _ _ hl, List.getElem_append_left hl]
      · rw [List.getD_eq_default _ _ hl, List.getElem_append_right hl, List.getElem_replicate]
  rw [lruEntries, hmap, List.filter_append, List.filter_eq_self.mpr, List.filter_eq_nil_iff.mpr,
    List.append_nil]
  · intro b hb
    rw [List.eq_of_mem_replicate hb]
    decide
  · intro b hb
    exact decide_eq_true (h.valid b hb).ne_null

theorem hasFrame_iff (h : Wf pool L) : pool.HasFrame a ↔ a ∈ L := by
  constructor
  · rintro ⟨hn, i, hi, rfl⟩
    exact (h.addr i hi).resolve_left hn
  · exact fun ha => ⟨(h.valid a ha).ne_null, h.frame a ha⟩

theorem room_of_pinned (h : Wf pool L) (hcard : (insert a pool.pinned).card ≤ cachePage) :
    a ∈ L ∨ L.length < cachePage ∨ ∃ b ∈ L, pool.refOf b = 0 := by
  by_contra hc
  push Not at hc
  obtain ⟨ha, hl, hr⟩ := hc
  have hsub : insert a L.toFinset ⊆ insert a pool.pinned := by
    refine Finset.insert_subset_insert a fun b hb => ?_
    have hb := List.mem_toFinset.mp hb
    obtain ⟨i, hf, hi, rfl⟩ := h.frameOf_mem hb
    refine Finset.mem_image_of_mem _ (Finset.mem_filter.mpr ⟨Finset.mem_range.mpr hi, ?_⟩)
    have := hr _ hb
    rwa [refOf, hf] at this
  have := Finset.card_le_card hsub
  rw [Finset.card_insert_of_notMem (by simpa using ha), List.toFinset_card_of_nodup h.nodup] at this
  omega

end Wf

/-- **Replacement is exact.** The entries of `lru` are the cached pages, each once, from the most to
the least recently requested. With at most sixteen pages pinned a request returns a frame of its
page; if the page is not cached and no frame is empty, it evicts the unreferenced page whose last
request is the oldest, and no other. -/
theorem lru_exact (h : LruReach pool log) :
    (lruEntries pool).Nodup ∧ (∀ a, a ∈ lruEntries pool ↔ pool.HasFrame a) ∧
    (∀ a ∈ lruEntries pool, a ∈ log) ∧
    (lruEntries pool).Pairwise (fun a b => log.idxOf a < log.idxOf b) ∧
    ∀ a, pool.file.Valid a → (insert a pool.pinned).card ≤ cachePage →
      ∃ i pool', pool.getPage a = some (i, pool') ∧ i < cachePage ∧ pool'.addrs i = a ∧
        (¬ pool.HasFrame a → (∀ k < cachePage, pool.addrs k ≠ -1) →
          ∃ v, pool.HasFrame v ∧ pool.refOf v = 0 ∧
            (∀ w, pool.HasFrame w → pool.refOf w = 0 → w ≠ v → log.idxOf w < log.idxOf v) ∧
            ∀ b, pool'.HasFrame b ↔ b = a ∨ pool.HasFrame b ∧ b ≠ v) := by
  obtain ⟨L, hw, hr⟩ := h.recent
  rw [hw.lruEntries_eq]
  refine ⟨hw.nodup, fun a => hw.hasFrame_iff.symm, hr.mem, hr.order, fun a ha hcard => ?_⟩
  obtain ⟨i, pool', L', hg, got, ht⟩ := hw.getPage ha (hw.room_of_pinned hcard)
  refine ⟨i, pool', hg, got.lt, got.addr, fun hna hfull => ?_⟩
  have haL : a ∉ L := fun hm => hna (hw.hasFrame_iff.mpr hm)
  rcases ht with ⟨-, hm | hl⟩ | ⟨v, -, -, ⟨A, B, rfl, hv, hB⟩, rfl⟩
  · exact absurd hm haL
  · obtain ⟨k, hk, he⟩ := hw.exists_empty hl
    exact absurd he (hfull k hk)
  refine ⟨v, hw.hasFrame_iff.mpr (by simp), hv, fun w hw' hw0 hne => ?_, fun b => ?_⟩
  · -- an unreferenced page is not behind the evicted one
    have hwA : w ∈ A := by
      rcases List.mem_append.mp (hw.hasFrame_iff.mp hw') with hwA | hwB
      · exact hwA
      · rcases List.mem_cons.mp hwB with rfl | hwB
        · exact absurd rfl hne
        · exact absurd hw0 (hB w hwB)
    exact (List.pairwise_append.mp hr.order).2.2 w hwA v List.mem_cons_self
  · rw [got.wf.hasFrame_iff, hw.hasFrame_iff, List.mem_cons, hw.nodup.mem_erase_iff, and_comm]

/-! ## A run -/

instance (pool : BufferPool P) (a : Int) : Decidable (pool.HasFrame a) := by
  unfold HasFrame; infer_instance

instance (file : FileInfo P) (a : Int) : Decidable (file.Valid a) := by
  unfold FileInfo.Valid; infer_instance

/-- Request the pages `l` one after the other. -/
def requests : List Int → BufferPool P → Option (BufferPool P)
  | [], pool => some pool
  | a :: l, pool =>
    if pool.file.Valid a then (pool.getPage a).bind fun r => requests l r.2 else none

/-- Release the pages `l`. -/
def releases : List Int → BufferPool P → Option (BufferPool P)
  | [], pool => some pool
  | a :: l, pool => if pool.file.Valid a then releases l (pool.release a) else none

theorem LruReach.requests {l : List Int} (h : LruReach pool log)
    (hr : BufferPool.requests l pool = some pool') : LruReach pool' (l.reverse ++ log) := by
  induction l generalizing pool log with
  | nil =>
    cases hr
    exact h
  | cons a l ih =>
    rw [BufferPool.requests] at hr
    split_ifs at hr with ha
    obtain ⟨⟨i, pool₁⟩, hg, hr⟩ := Option.bind_eq_some_iff.mp hr
    simpa using ih (h.getPage ha hg) hr

theorem LruReach.releases {l : List Int} (h : LruReach pool log)
    (hr : BufferPool.releases l pool = some pool') : LruReach pool' log := by
  induction l generalizing pool with
  | nil =>
    cases hr
    exact h
  | cons a l ih =>
    rw [BufferPool.releases] at hr
    split_ifs at hr with ha
    exact ih (h.release ha) hr

/-- The first sixteen pages of a file. -/
def sixteen : List Int := (List.range 16).map fun k => 128 * k

/-- The first sixteen pages of a file of seventeen are requested, all but the first are released, and
the second is requested again: the request of the seventeenth evicts the third. -/
theorem lru_exact_third : ∃ (pool pool' : BufferPool ℕ) (i : ℕ),
    ((requests sixteen (initBufferPool (some ⟨fun _ => 7, 2176⟩))).bind
      (releases sixteen.tail)).bind (requests [128]) = some pool ∧
    pool.getPage 2048 = some (i, pool') ∧ pool.refOf 0 = 1 ∧ pool.refOf 256 = 0 ∧
    (∀ w, pool.HasFrame w → pool.refOf w = 0 → w ≠ 256 →
      ([128] ++ (sixteen.reverse ++ [])).idxOf w < ([128] ++ (sixteen.reverse ++ [])).idxOf 256) ∧
    ∀ b, pool'.HasFrame b ↔ b = 2048 ∨ pool.HasFrame b ∧ b ≠ 256 := by
  have h : (((requests sixteen (initBufferPool (some ⟨fun _ => 7, 2176⟩) : BufferPool ℕ)).bind
      (releases sixteen.tail)).bind (requests [128])).bind (fun pool =>
        (pool.getPage 2048).bind fun r => some (decide (pool.refOf 0 = 1 ∧ pool.refOf 256 = 0 ∧
          pool.HasFrame 256 ∧ ¬ r.2.HasFrame 256 ∧ pool.file.Valid 2048 ∧
          (insert 2048 pool.pinned).card ≤ cachePage ∧ ¬ pool.HasFrame 2048 ∧
          ∀ k < cachePage, pool.addrs k ≠ -1))) = some true := by decide +kernel
  obtain ⟨pool, hp, h⟩ := Option.bind_eq_some_iff.mp h
  obtain ⟨⟨i', pool''⟩, hg', h⟩ := Option.bind_eq_some_iff.mp h
  obtain ⟨h0, h256, hf, hf', hv, hcard, hna, hfull⟩ := of_decide_eq_true (Option.some.inj h)
  obtain ⟨pool₂, h₂, h₃⟩ := Option.bind_eq_some_iff.mp hp
  obtain ⟨pool₁, h₁, h₂⟩ := Option.bind_eq_some_iff.mp h₂
  have hreach := (((LruReach.init (P := ℕ) (some ⟨fun _ => 7, 2176⟩) (by decide)
    (by decide)).requests h₁).releases h₂).requests h₃
  obtain ⟨-, -, -, -, hget⟩ := lru_exact hreach
  obtain ⟨i, pool', hg, -, -, hev⟩ := hget 2048 hv hcard
  obtain ⟨rfl, rfl⟩ := Prod.mk.inj (Option.some.inj (hg.symm.trans hg'))
  obtain ⟨v, -, -, hold, hframes⟩ := hev hna hfull
  obtain rfl : 256 = v := by
    by_contra hne
    exact hf' ((hframes 256).mpr (Or.inr ⟨hf, hne⟩))
  exact ⟨pool, pool', i, hp, hg, h0, h256, hold, hframes⟩

end BufferPool

end MyJQL
