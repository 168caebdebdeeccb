import MyJQL.BufferPool.Coherence

/-!
# Clients of the buffer pool

A client requests and releases pages, changes pages it holds through the pointers it was given, and
appends pages behind the cache (`PoolOp`, `PoolUse.step`); it keeps the contract of
`PoolOp.Allowed`.

* `PoolUse.Inv`: the pool holds the content last given to every page, counts the client's requests,
  and every pointer the client holds still names its page;
* `Inv.step`: one allowed operation succeeds and keeps the invariant;
* **`bufferPool_coherent`**: in every state a client reaches, requests return the last content, no
  page has two frames, and no referenced frame changes its page.
-/

set_option linter.unusedSimpArgs false

namespace MyJQL

variable {P : Type}

/-- What a client does with the pool; `modify` goes through a pointer that the client holds. -/
inductive PoolOp (P : Type)
  | getPage (addr : Int)
  | release (addr : Int)
  | modify (addr : Int) (frame : ℕ) (page : P)
  | append (page : P)

/-- A pool in use: the requests not yet released, with the frame each returned, and the content last
given to each page. -/
structure PoolUse (P : Type) where
  pool : BufferPool P
  held : List (Int × ℕ)
  content : Int → P

namespace PoolUse

/-- The pinned pages, with repetitions. -/
def pins (u : PoolUse P) : List Int := u.held.map Prod.fst

/-- The client's contract. -/
def Allowed (u : PoolUse P) : PoolOp P → Prop
  | .getPage a => u.pool.file.Valid a ∧ (insert a u.pins.toFinset).card ≤ cachePage
  | .release a => a ∈ u.pins
  | .modify a i _ => (a, i) ∈ u.held
  | .append _ => True

/-- One operation. -/
def step (u : PoolUse P) : PoolOp P → Option (PoolUse P)
  | .getPage a =>
    match u.pool.getPage a with
    | some (i, pool) => some { u with pool := pool, held := (a, i) :: u.held }
    | none => none
  | .release a =>
    some { u with pool := u.pool.release a, held := u.held.eraseP fun p => p.1 = a }
  | .modify a i page =>
    some { u with pool := u.pool.setPage i page, content := Function.update u.content a page }
  | .append page =>
    some { u with
      pool := u.pool.append page
      content := Function.update u.content u.pool.file.length page }

/-- The states that clients reach from a pool just opened. -/
inductive Reach : PoolUse P → Prop
  | init [Inhabited P] (disk : Option (FileInfo P)) (hd : (openFile disk).1 = .success)
      (h0 : 0 ≤ (openFile disk).2.length) :
      Reach ⟨initBufferPool disk, [], (openFile disk).2.data⟩
  | step {u u' : PoolUse P} {op : PoolOp P} (hu : Reach u) (ho : u.Allowed op)
      (hs : u.step op = some u') : Reach u'

/-- The invariant, with `L` the cached pages in order of recency. -/
structure Inv (u : PoolUse P) (L : List Int) : Prop where
  wf : u.pool.Wf L
  view : ∀ a, u.pool.file.Valid a → u.pool.view a = u.content a
  ref : ∀ a ≠ -1, u.pool.refOf a = u.pins.count a
  held : ∀ p ∈ u.held, p.2 < cachePage ∧ u.pool.addrs p.2 = p.1 ∧ p.1 ∈ L

theorem openFile_aligned [Inhabited P] {disk : Option (FileInfo P)} :
    (openFile disk).2.length % pageSize = 0 := by
  unfold openFile
  split
  · split_ifs with h
    · rfl
    · simpa using h
  · rfl

theorem Inv.init [Inhabited P] {disk : Option (FileInfo P)} (h0 : 0 ≤ (openFile disk).2.length) :
    Inv ⟨initBufferPool disk, [], (openFile disk).2.data⟩ [] where
  wf := BufferPool.wf_init h0 openFile_aligned
  view a ha := BufferPool.view_init ha.ne_null
  ref a ha := by rw [BufferPool.refOf, BufferPool.frameOf_init ha]; simp [pins]
  held p hp := by cases hp

variable {u u' : PoolUse P} {L : List Int} {a : Int}

theorem pins_eraseP (l : List (Int × ℕ)) (a : Int) :
    (l.eraseP fun p => p.1 = a).map Prod.fst = (l.map Prod.fst).erase a := by
  induction l with
  | nil => rfl
  | cons p l ih =>
    rw [List.eraseP_cons, List.map_cons, List.erase_cons]
    by_cases h : p.1 = a
    · simp [h]
    · simp [h, ih]

theorem Inv.mem_of_pins (h : Inv u L) (ha : a ∈ u.pins) : a ∈ L := by
  obtain ⟨p, hp, rfl⟩ := List.mem_map.mp ha
  exact (h.held p hp).2.2

theorem Inv.room (h : Inv u L) (hcard : (insert a u.pins.toFinset).card ≤ cachePage) :
    a ∈ L ∨ L.length < cachePage ∨ ∃ b ∈ L, u.pool.refOf b = 0 := by
  by_contra hc
  push Not at hc
  obtain ⟨ha, hl, hr⟩ := hc
  have hsub : insert a L.toFinset ⊆ insert a u.pins.toFinset := by
    refine Finset.insert_subset_insert a fun b hb => ?_
    have hb := List.mem_toFinset.mp hb
    have := hr b hb
    rw [h.ref b (h.wf.valid b hb).ne_null] at this
    exact List.mem_toFinset.mpr (List.count_pos_iff.mp (by omega))
  have := Finset.card_le_card hsub
  rw [Finset.card_insert_of_notMem (by simpa using ha), List.toFinset_card_of_nodup h.wf.nodup]
    at this
  omega

end PoolUse

theorem BufferPool.Touched.mem {pool : BufferPool P} {L L' : List Int} {a b : Int}
    (h : Touched pool L a L') (hb : b ∈ L) (hr : pool.refOf b ≠ 0) : b ∈ L' := by
  by_cases e : b = a
  · subst e
    rcases h with ⟨rfl, -⟩ | ⟨v, -, -, -, rfl⟩ <;> exact List.mem_cons_self
  · rcases h with ⟨rfl, -⟩ | ⟨v, -, -, ⟨A, B, -, hv, -⟩, rfl⟩
    · exact List.mem_cons_of_mem _ ((List.mem_erase_of_ne e).mpr hb)
    · have : b ≠ v := by rintro rfl; exact hr hv
      exact List.mem_cons_of_mem _ ((List.mem_erase_of_ne this).mpr hb)

namespace PoolUse

variable {u u' : PoolUse P} {L : List Int} {a : Int}

theorem Inv.getPage (h : Inv u L) (ha : u.pool.file.Valid a)
    (hcard : (insert a u.pins.toFinset).card ≤ cachePage) :
    ∃ i pool' L', u.pool.getPage a = some (i, pool') ∧ BufferPool.Got u.pool L a i pool' L' ∧
      Inv { u with pool := pool', held := (a, i) :: u.held } L' ∧
      ∀ j < cachePage, 0 < u.pool.ref j → pool'.addrs j = u.pool.addrs j := by
  obtain ⟨i, pool', L', hg, got, ht⟩ := h.wf.getPage ha (h.room hcard)
  have hkeep : ∀ b ∈ L, u.pool.refOf b ≠ 0 → ∀ j < cachePage, u.pool.addrs j = b →
      pool'.addrs j = b := fun b hb hr => got.frames b hb (ht.mem hb hr)
  refine ⟨i, pool', L', hg, got, ⟨got.wf, fun b hb => ?_, fun b hb => ?_, fun p hp => ?_⟩,
    fun j hj hr => ?_⟩
  · have hb' : u.pool.file.Valid b := by rwa [FileInfo.Valid, got.length] at hb
    exact (got.view b hb.ne_null).trans (h.view b hb')
  · rw [got.ref b hb, h.ref b hb]
    by_cases e : b = a
    · subst e
      simp [pins]
    · have e' : a ≠ b := fun e' => e e'.symm
      simp [pins, List.count_cons_of_ne e', e]
  · rcases List.mem_cons.mp hp with rfl | hp
    · refine ⟨got.lt, got.addr, ?_⟩
      rcases ht with ⟨rfl, -⟩ | ⟨v, -, -, -, rfl⟩ <;> exact List.mem_cons_self
    · obtain ⟨h1, h2, h3⟩ := h.held p hp
      have hr : u.pool.refOf p.1 ≠ 0 := by
        rw [h.ref _ (h.wf.valid _ h3).ne_null]
        have : 0 < u.pins.count p.1 := List.count_pos_iff.mpr (List.mem_map_of_mem hp)
        omega
      exact ⟨h1, hkeep _ h3 hr _ h1 h2, ht.mem h3 hr⟩
  · have hn : u.pool.addrs j ≠ -1 := fun e => by
      rw [h.wf.ref_empty j hj e] at hr
      exact absurd hr (lt_irrefl _)
    refine hkeep _ ((h.wf.addr j hj).resolve_left hn) ?_ j hj rfl
    rw [h.wf.refOf_mem hj rfl hn]
    exact hr.ne'

/-- **One allowed operation** succeeds, keeps the invariant and keeps the page of every referenced
frame. -/
theorem Inv.step (h : Inv u L) {op : PoolOp P} (ho : u.Allowed op) :
    ∃ u' L', u.step op = some u' ∧ Inv u' L' ∧
      ∀ j < cachePage, 0 < u.pool.ref j → u'.pool.addrs j = u.pool.addrs j := by
  cases op with
  | getPage a =>
    obtain ⟨i, pool', L', hg, -, hi, hf⟩ := h.getPage ho.1 ho.2
    exact ⟨_, L', by rw [PoolUse.step, hg], hi, hf⟩
  | release a =>
    have ha : a ∈ L := h.mem_of_pins ho
    have hn : a ≠ -1 := (h.wf.valid a ha).ne_null
    refine ⟨_, L, rfl, ⟨h.wf.release hn, fun b hb => ?_, fun b hb => ?_, fun p hp => ?_⟩,
      fun j _ _ => ?_⟩
    · rw [BufferPool.view_release]
      exact h.view b (by simpa using hb)
    · rw [h.wf.refOf_release ha, h.ref b hb, pins, pins, pins_eraseP]
      split_ifs with e
      · subst e
        have : 0 < u.pins.count b := List.count_pos_iff.mpr ho
        rw [List.count_erase_self]
        simp only [pins] at this ⊢
        omega
      · rw [List.count_erase_of_ne e]
        simp
    · obtain ⟨h1, h2, h3⟩ := h.held p (List.mem_of_mem_eraseP hp)
      exact ⟨h1, by rw [BufferPool.addrs_release, h2], h3⟩
    · exact congrFun BufferPool.addrs_release j
  | modify a i page =>
    obtain ⟨h1, h2, h3⟩ := h.held _ ho
    have hn : a ≠ -1 := (h.wf.valid a h3).ne_null
    refine ⟨_, L, rfl, ⟨h.wf.setPage i page, fun b hb => ?_, h.ref, h.held⟩, fun _ _ _ => rfl⟩
    simp only [h.wf.view_setPage h1 h2 hn, Function.update_apply]
    exact if_congr Iff.rfl rfl (h.view b hb)
  | append page =>
    have happ := h.wf.append page
    refine ⟨_, L, rfl, ⟨happ.1, fun b hb => ?_, h.ref, h.held⟩, fun _ _ _ => rfl⟩
    simp only [h.wf.view_append page hb.ne_null, Function.update_apply]
    split_ifs with e
    · rfl
    · refine h.view b ⟨hb.1, ?_, hb.2.2⟩
      have h1 := hb.2.1
      have h2 := hb.2.2
      have h3 := h.wf.file_length
      rw [happ.2] at h1
      simp only [pageSize] at h1 h2 h3
      omega

theorem Reach.inv (hu : Reach u) : ∃ L, Inv u L := by
  induction hu with
  | init disk hd h0 => exact ⟨[], Inv.init h0⟩
  | step hu ho hs ih =>
    obtain ⟨L, h⟩ := ih
    obtain ⟨u'', L', hs', h', -⟩ := h.step ho
    obtain rfl := Option.some.inj (hs.symm.trans hs')
    exact ⟨L', h'⟩

/-- **Buffer pool coherence.** A client that requests pages of the file and pins at most sixteen at
once never fails; a request returns a frame with the content last given to the page; no page has two
frames; a frame whose reference count is positive keeps its page. -/
theorem bufferPool_coherent (hu : Reach u) {op : PoolOp P} (ho : u.Allowed op) :
    ∃ u', u.step op = some u' ∧
      (∀ a, op = .getPage a → ∃ i < cachePage, u'.held = (a, i) :: u.held ∧
        u'.pool.addrs i = a ∧ u'.pool.pages i = u.content a) ∧
      (∀ i < cachePage, ∀ j < cachePage, u'.pool.addrs i = u'.pool.addrs j →
        u'.pool.addrs i ≠ -1 → i = j) ∧
      ∀ i < cachePage, 0 < u.pool.ref i → u'.pool.addrs i = u.pool.addrs i := by
  obtain ⟨L, h⟩ := hu.inv
  obtain ⟨u', L', hs, h', hf⟩ := h.step ho
  refine ⟨u', hs, ?_, h'.wf.inj, hf⟩
  rintro a rfl
  obtain ⟨i, pool', L'', hg, got, hi, -⟩ := h.getPage ho.1 ho.2
  rw [PoolUse.step, hg] at hs
  obtain rfl := Option.some.inj hs
  refine ⟨i, got.lt, rfl, got.addr, ?_⟩
  have hn := ho.1.ne_null
  rw [← got.wf.view_mem got.lt got.addr hn, got.view a hn, h.view a ho.1]

/-! ## A run -/

instance (u : PoolUse P) (op : PoolOp P) : Decidable (u.Allowed op) := by
  cases op <;> unfold Allowed
  · unfold FileInfo.Valid; infer_instance
  all_goals infer_instance

/-- Allowed operations, one after the other. -/
def run : List (PoolOp P) → PoolUse P → Option (PoolUse P)
  | [], u => some u
  | op :: ops, u => if u.Allowed op then (u.step op).bind (run ops) else none

theorem Reach.run {ops : List (PoolOp P)} (hu : Reach u) (h : PoolUse.run ops u = some u') :
    Reach u' := by
  induction ops generalizing u with
  | nil =>
    cases h
    exact hu
  | cons op ops ih =>
    rw [PoolUse.run] at h
    split_ifs at h with ho
    obtain ⟨u₁, hs, h⟩ := Option.bind_eq_some_iff.mp h
    exact ih (hu.step ho hs) h

/-- A page is modified and released, and sixteen others are requested and released. -/
def evictOps : List (PoolOp ℕ) :=
  [.getPage 0, .modify 0 0 42, .release 0] ++
    (List.range 16).flatMap fun k => [.getPage (128 * (k + 1)), .release (128 * (k + 1))]

/-- A page that was modified and evicted is read back. -/
theorem bufferPool_coherent_evicted : ∃ u u' : PoolUse ℕ, ∃ i < cachePage,
    run evictOps ⟨initBufferPool (some ⟨fun _ => 7, 2176⟩), [], fun _ => 7⟩ = some u ∧
    u.pool.frameOf 0 = none ∧ u.step (.getPage 0) = some u' ∧ u'.held = [(0, i)] ∧
    u'.pool.pages i = 42 := by
  have h : (run evictOps ⟨initBufferPool (some ⟨fun _ => 7, 2176⟩), [], fun _ => 7⟩).bind
      (fun u => some (decide (u.Allowed (.getPage 0) ∧ u.pool.frameOf 0 = none ∧ u.held = [] ∧
        u.content 0 = 42))) = some true := by decide +kernel
  obtain ⟨u, hu, h⟩ := Option.bind_eq_some_iff.mp h
  obtain ⟨ho, hnone, hheld, hcont⟩ := of_decide_eq_true (Option.some.inj h)
  obtain ⟨u', hs, hg, -⟩ := bufferPool_coherent
    ((Reach.init (some ⟨fun _ => 7, 2176⟩) (by decide) (by decide)).run hu) ho
  obtain ⟨i, hi, hheld', -, hpage⟩ := hg 0 rfl
  exact ⟨u, u', i, hi, hu, hnone, hs, by rw [hheld', hheld], hpage.trans hcont⟩

end PoolUse

end MyJQL
