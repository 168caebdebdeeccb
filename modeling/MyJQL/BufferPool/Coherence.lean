import MyJQL.BufferPool.Model

/-!
# What the buffer pool holds

`Wf pool L`: `L` lists the cached addresses from the most to the least recently requested, each in
exactly one frame. Over it:

* `view`: the current content of every page, cached or not; `refOf`: its reference count;
* **`Wf.getPage`**: a request that finds its page cached, an empty frame or an unreferenced one
  returns a frame holding the current content, and changes no content (`Got`);
* `Wf.release`, `Wf.setPage`, `Wf.append`: releases, in-place changes and appends;
* `Wf.room`: a request fails only when sixteen other pages are referenced;
* **`closeBufferPool_view`**: closing leaves exactly the current contents on disk.
-/

set_option linter.unusedSimpArgs false

namespace MyJQL

variable {P : Type}

/-- An address of a page of the file. -/
def FileInfo.Valid (file : FileInfo P) (a : Int) : Prop :=
  0 ≤ a ∧ a < file.length ∧ a % pageSize = 0

theorem FileInfo.Valid.ne_null {file : FileInfo P} {a : Int} (h : file.Valid a) : a ≠ -1 := by
  rintro rfl
  exact absurd h.1 (by decide)

theorem readPage_valid {file : FileInfo P} {a : Int} (h : file.Valid a) (page : P) :
    readPage page file a = (.success, file.data a) := by
  obtain ⟨h0, h1, h2⟩ := h
  rw [readPage, if_neg (by simpa using h2), if_neg (by omega)]

theorem writePage_valid {file : FileInfo P} {a : Int} (h : file.Valid a) (page : P) :
    writePage page file a = (.success, { file with data := Function.update file.data a page }) := by
  obtain ⟨h0, h1, h2⟩ := h
  rw [writePage, if_neg (by simpa using h2), if_neg (by omega), if_neg (by omega)]

theorem writePage_append {file : FileInfo P} (h0 : 0 ≤ file.length)
    (h : file.length % pageSize = 0) (page : P) :
    writePage page file file.length =
      (.success, ⟨Function.update file.data file.length page, file.length + pageSize⟩) := by
  rw [writePage, if_neg (by simpa using h), if_neg (by omega), if_pos rfl]

theorem writePage_null (file : FileInfo P) (page : P) :
    writePage page file (-1) = (.invalidAddr, file) := by
  rw [writePage, if_pos (by decide)]

namespace BufferPool

variable {pool : BufferPool P} {L : List Int} {a b : Int} {i j : ℕ}

theorem frameOf_some (h : pool.frameOf a = some i) : i < cachePage ∧ pool.addrs i = a := by
  constructor
  · exact List.mem_range.mp (List.mem_of_find?_eq_some h)
  · simpa using List.find?_some h

theorem frameOf_none (h : pool.frameOf a = none) : ∀ i < cachePage, pool.addrs i ≠ a := by
  intro i hi
  simpa using List.find?_eq_none.mp h i (List.mem_range.mpr hi)

/-- The current content of a page: its frame if it is cached, else the file. -/
def view (pool : BufferPool P) (a : Int) : P :=
  match pool.frameOf a with
  | some i => pool.pages i
  | none => pool.file.data a

/-- The reference count of a page. -/
def refOf (pool : BufferPool P) (a : Int) : Int :=
  match pool.frameOf a with
  | some i => pool.ref i
  | none => 0

/-- `L` lists the cached addresses in order of recency, and each has one frame. -/
structure Wf (pool : BufferPool P) (L : List Int) : Prop where
  nodup : L.Nodup
  length_le : L.length ≤ cachePage
  lru : ∀ i < cachePage, pool.lru i = L.getD i (-1)
  frame : ∀ a ∈ L, ∃ i < cachePage, pool.addrs i = a
  addr : ∀ i < cachePage, pool.addrs i = -1 ∨ pool.addrs i ∈ L
  inj : ∀ i < cachePage, ∀ j < cachePage, pool.addrs i = pool.addrs j → pool.addrs i ≠ -1 → i = j
  valid : ∀ a ∈ L, pool.file.Valid a
  ref_empty : ∀ i < cachePage, pool.addrs i = -1 → pool.ref i = 0
  file_length : 0 ≤ pool.file.length ∧ pool.file.length % pageSize = 0

namespace Wf

theorem null_notMem (h : Wf pool L) : (-1 : Int) ∉ L := fun hm => (h.valid _ hm).ne_null rfl

theorem frameOf_addr (h : Wf pool L) (hi : i < cachePage) (ha : pool.addrs i = a) (hn : a ≠ -1) :
    pool.frameOf a = some i := by
  cases hf : pool.frameOf a with
  | none => exact absurd ha (frameOf_none hf i hi)
  | some j =>
    obtain ⟨hj, hja⟩ := frameOf_some hf
    exact congrArg some (h.inj j hj i hi (hja.trans ha.symm) (by rwa [hja]))

theorem frameOf_mem (h : Wf pool L) (ha : a ∈ L) :
    ∃ i, pool.frameOf a = some i ∧ i < cachePage ∧ pool.addrs i = a := by
  obtain ⟨i, hi, he⟩ := h.frame a ha
  exact ⟨i, h.frameOf_addr hi he (h.valid a ha).ne_null, hi, he⟩

theorem mem_of_frameOf (h : Wf pool L) (hn : a ≠ -1) (hf : pool.frameOf a = some i) : a ∈ L := by
  obtain ⟨hi, rfl⟩ := frameOf_some hf
  exact (h.addr i hi).resolve_left hn

theorem frameOf_eq_none (h : Wf pool L) (ha : a ∉ L) (hn : a ≠ -1) : pool.frameOf a = none := by
  cases hf : pool.frameOf a with
  | none => rfl
  | some i => exact absurd (h.mem_of_frameOf hn hf) ha

theorem view_mem (h : Wf pool L) (hi : i < cachePage) (ha : pool.addrs i = a) (hn : a ≠ -1) :
    pool.view a = pool.pages i := by
  rw [view, h.frameOf_addr hi ha hn]

theorem refOf_mem (h : Wf pool L) (hi : i < cachePage) (ha : pool.addrs i = a) (hn : a ≠ -1) :
    pool.refOf a = pool.ref i := by
  rw [refOf, h.frameOf_addr hi ha hn]

theorem view_notMem (h : Wf pool L) (ha : a ∉ L) (hn : a ≠ -1) :
    pool.view a = pool.file.data a := by
  rw [view, h.frameOf_eq_none ha hn]

theorem refOf_notMem (h : Wf pool L) (ha : a ∉ L) (hn : a ≠ -1) : pool.refOf a = 0 := by
  rw [refOf, h.frameOf_eq_none ha hn]

theorem exists_empty (h : Wf pool L) (hl : L.length < cachePage) :
    ∃ i < cachePage, pool.addrs i = -1 := by
  by_contra hc
  push Not at hc
  have hsub : (Finset.range cachePage).image pool.addrs ⊆ L.toFinset := by
    intro x hx
    obtain ⟨i, hi, rfl⟩ := Finset.mem_image.mp hx
    have hi := Finset.mem_range.mp hi
    exact List.mem_toFinset.mpr ((h.addr i hi).resolve_left (hc i hi))
  have hcard := Finset.card_le_card hsub
  rw [Finset.card_image_of_injOn, Finset.card_range] at hcard
  · have := L.toFinset_card_le
    omega
  · intro i hi j hj e
    exact h.inj i (by simpa using hi) j (by simpa using hj) e (hc i (by simpa using hi))

theorem no_empty (h : Wf pool L) (hl : L.length = cachePage) (hi : i < cachePage) :
    pool.addrs i ≠ -1 := by
  intro he
  have hsub : insert (-1) L.toFinset ⊆ (Finset.range cachePage).image pool.addrs := by
    intro x hx
    rcases Finset.mem_insert.mp hx with rfl | hx
    · exact Finset.mem_image.mpr ⟨i, Finset.mem_range.mpr hi, he⟩
    · obtain ⟨j, hj, e⟩ := h.frame x (List.mem_toFinset.mp hx)
      exact Finset.mem_image.mpr ⟨j, Finset.mem_range.mpr hj, e⟩
  have hcard := (Finset.card_le_card hsub).trans Finset.card_image_le
  rw [Finset.card_insert_of_notMem (by simpa using h.null_notMem),
    List.toFinset_card_of_nodup h.nodup, Finset.card_range] at hcard
  omega

end Wf

/-! ## Requests -/

/-- The outcome of a request for `a`: frame `i` now holds it, and no content has changed. -/
structure Got (pool : BufferPool P) (L : List Int) (a : Int) (i : ℕ) (pool' : BufferPool P)
    (L' : List Int) : Prop where
  wf : Wf pool' L'
  lt : i < cachePage
  addr : pool'.addrs i = a
  view : ∀ b ≠ -1, pool'.view b = pool.view b
  length : pool'.file.length = pool.file.length
  ref : ∀ b ≠ -1, pool'.refOf b = pool.refOf b + if b = a then 1 else 0
  frames : ∀ b ∈ L, b ∈ L' → ∀ j < cachePage, pool.addrs j = b → pool'.addrs j = b

/-- The least recently requested unreferenced page. -/
def Unused (pool : BufferPool P) (L : List Int) (v : Int) : Prop :=
  ∃ A B, L = A ++ v :: B ∧ pool.refOf v = 0 ∧ ∀ b ∈ B, pool.refOf b ≠ 0

/-- The list that moves the entry at position `A.length` to the front. -/
theorem rotate_getD (A B : List Int) (v a : Int) (l : ℕ → Int)
    (hl : ∀ i < cachePage, l i = (A ++ v :: B).getD i (-1)) (x : ℕ) (hx : x < cachePage) :
    (if x = 0 then a else if x ≤ A.length then l (x - 1) else l x) =
      (a :: (A ++ B)).getD x (-1) := by
  rcases Nat.eq_zero_or_pos x with rfl | h0
  · rfl
  obtain ⟨y, rfl⟩ : ∃ y, x = y + 1 := ⟨x - 1, by omega⟩
  simp only [Nat.add_eq_zero_iff, one_ne_zero, and_false, if_false, Nat.add_sub_cancel,
    List.getD_cons_succ]
  split_ifs with h
  · rw [hl y (by omega), List.getD_append _ _ _ _ (by omega), List.getD_append _ _ _ _ (by omega)]
  · rw [hl _ hx, List.getD_append_right _ _ _ _ (by omega), List.getD_append_right _ _ _ _ (by omega),
      show y + 1 - A.length = (y - A.length) + 1 by omega, List.getD_cons_succ]

theorem lruIndex_append {A B : List Int} (h : Wf pool (A ++ a :: B)) :
    pool.lruIndex a = some A.length := by
  have hlen : A.length < cachePage := by
    have := h.length_le
    simp only [List.length_append, List.length_cons] at this
    omega
  rw [lruIndex, List.find?_range_eq_some]
  refine ⟨?_, List.mem_range.mpr hlen, fun k hk => ?_⟩
  · simp [h.lru _ hlen]
  · have hn : a ∉ A := fun hm =>
      (List.nodup_append.mp h.nodup).2.2 a hm a List.mem_cons_self rfl
    have : pool.lru k = A[k] := by
      rw [h.lru k (by omega), List.getD_append _ _ _ _ hk, List.getD_eq_getElem _ _ hk]
    simp only [this, Bool.not_eq_true', decide_eq_false_iff_not]
    exact fun e => hn (e ▸ List.getElem_mem hk)

theorem Wf.hit {A B : List Int} (h : Wf pool (A ++ a :: B)) (hf : pool.frameOf a = some i) :
    Got pool (A ++ a :: B) a i (pool.hit a i) (a :: (A ++ B)) := by
  obtain ⟨hi, hia⟩ := frameOf_some hf
  have hn : a ≠ -1 := (h.valid a (by simp)).ne_null
  have hlen : A.length < cachePage := by
    have := h.length_le
    simp only [List.length_append, List.length_cons] at this
    omega
  have hperm : (a :: (A ++ B)).Perm (A ++ a :: B) := List.perm_middle.symm
  have hlru : ∀ x < cachePage, (pool.hit a i).lru x = (a :: (A ++ B)).getD x (-1) := by
    intro x hx
    have he : pool.lru A.length = a := by
      rw [h.lru _ hlen, List.getD_append_right _ _ _ _ le_rfl]; simp
    rw [← rotate_getD A B a a pool.lru h.lru x hx]
    simp only [BufferPool.hit, lruIndex_append h, forDown_pull 1 _ Nat.one_pos,
      Function.update_apply, he]
    split_ifs <;> first | rfl | omega
  have hfr : ∀ b, (pool.hit a i).frameOf b = pool.frameOf b := fun b => rfl
  have hview : ∀ b, (pool.hit a i).view b = pool.view b := fun b => rfl
  refine ⟨⟨hperm.nodup_iff.mpr h.nodup, hperm.length_eq ▸ h.length_le, hlru,
    fun b hb => h.frame b (hperm.mem_iff.mp hb), fun k hk => ?_, h.inj,
    fun b hb => h.valid b (hperm.mem_iff.mp hb), fun k hk he => ?_, h.file_length⟩, hi, hia,
    fun b _ => hview b, rfl, fun b hb => ?_, fun _ _ _ _ _ e => e⟩
  · exact (h.addr k hk).imp_right hperm.mem_iff.mpr
  · have hki : k ≠ i := by rintro rfl; exact hn (hia.symm.trans he)
    simp only [BufferPool.hit, Function.update_of_ne hki]
    exact h.ref_empty k hk he
  · rw [refOf, refOf, hfr]
    split_ifs with e
    · subst e; rw [hf]; simp [BufferPool.hit]
    · cases hb' : pool.frameOf b with
      | none => simp
      | some k =>
        have hki : k ≠ i := by rintro rfl; exact e ((frameOf_some hb').2.symm.trans hia)
        simp [BufferPool.hit, Function.update_of_ne hki]

/-- Frame `i`, empty or unreferenced, takes over page `a`; `L₀` are the other cached pages, and the
file holds the content of every page outside them. -/
theorem Wf.reload {L₀ : List Int} {file : FileInfo P} {lru : ℕ → Int} (h : Wf pool L)
    (ha : pool.file.Valid a) (haL : a ∉ L) (hi : i < cachePage) (hri : pool.ref i = 0)
    (hmem : ∀ b, b ∈ L ↔ b ∈ L₀ ∨ b = pool.addrs i ∧ b ≠ -1) (hiL : pool.addrs i ∉ L₀)
    (hnd : L₀.Nodup) (hlen : L₀.length < cachePage) (hfl : file.length = pool.file.length)
    (hfd : ∀ b ∉ L₀, b ≠ -1 → file.data b = pool.view b)
    (hlru : ∀ x < cachePage, lru x = (a :: L₀).getD x (-1)) :
    Got pool L a i
      { file := file
        pages := Function.update pool.pages i (readPage (pool.pages i) file a).2
        addrs := Function.update pool.addrs i a
        ref := Function.update pool.ref i (pool.ref i + 1)
        lru := lru } (a :: L₀) := by
  have hn : a ≠ -1 := ha.ne_null
  have haL₀ : a ∉ L₀ := fun hm => haL ((hmem a).mpr (Or.inl hm))
  have hvalid : ∀ b, file.Valid b ↔ pool.file.Valid b := fun b => by
    rw [FileInfo.Valid, FileInfo.Valid, hfl]
  rw [readPage_valid ((hvalid a).mpr ha)]
  have hne : ∀ b ∈ L₀, ∀ k, pool.addrs k = b → k ≠ i := by
    rintro b hb k e rfl
    exact hiL (e ▸ hb)
  have hw : Wf (P := P) ⟨file, Function.update pool.pages i (file.data a),
      Function.update pool.addrs i a, lru, Function.update pool.ref i (pool.ref i + 1)⟩
      (a :: L₀) := by
    refine ⟨List.nodup_cons.mpr ⟨haL₀, hnd⟩, hlen, hlru, fun b hb => ?_, fun k hk => ?_,
      fun k hk m hm e hkn => ?_, fun b hb => ?_, fun k hk e => ?_, by rw [hfl]; exact h.file_length⟩
    · rcases List.mem_cons.mp hb with rfl | hb
      · exact ⟨i, hi, Function.update_self ..⟩
      · obtain ⟨k, hk, e⟩ := h.frame b ((hmem b).mpr (Or.inl hb))
        exact ⟨k, hk, by simpa only [Function.update_of_ne (hne b hb k e)] using e⟩
    · by_cases hki : k = i
      · subst hki; right; simp
      · simp only [Function.update_of_ne hki]
        refine (h.addr k hk).imp_right fun hb => List.mem_cons_of_mem _ ?_
        refine ((hmem _).mp hb).resolve_right fun ⟨e, hb'⟩ => hki (h.inj k hk i hi e hb')
    · simp only [Function.update_apply] at e hkn
      by_cases hki : k = i <;> by_cases hmi : m = i
      · rw [hki, hmi]
      · rw [if_pos hki, if_neg hmi] at e
        exact absurd ((h.addr m hm).resolve_left (e ▸ hn)) (e ▸ haL)
      · rw [if_neg hki, if_pos hmi] at e
        exact absurd ((h.addr k hk).resolve_left (e ▸ hn)) (e ▸ haL)
      · rw [if_neg hki, if_neg hmi] at e
        rw [if_neg hki] at hkn
        exact h.inj k hk m hm e hkn
    · rw [hvalid]
      rcases List.mem_cons.mp hb with rfl | hb
      · exact ha
      · exact h.valid b ((hmem b).mpr (Or.inl hb))
    · have hki : k ≠ i := by
        rintro rfl
        exact hn (by simpa using e)
      simp only [Function.update_of_ne hki] at e ⊢
      exact h.ref_empty k hk e
  refine ⟨hw, hi, Function.update_self .., fun b hb => ?_, hfl, fun b hb => ?_,
    fun b hb hb' k _ e => ?_⟩
  · by_cases hbm : b ∈ a :: L₀
    · rcases List.mem_cons.mp hbm with rfl | hbm
      · rw [hw.view_mem hi (Function.update_self ..) hb]
        exact (Function.update_self ..).trans (hfd b haL₀ hb)
      · obtain ⟨k, hk, e⟩ := h.frame b ((hmem b).mpr (Or.inl hbm))
        have hki := hne b hbm k e
        rw [hw.view_mem hk (by simpa only [Function.update_of_ne hki] using e) hb,
          h.view_mem hk e hb]
        exact Function.update_of_ne hki ..
    · rw [hw.view_notMem hbm hb, hfd b (fun hm => hbm (List.mem_cons_of_mem _ hm)) hb]
  · by_cases hba : b = a
    · subst hba
      rw [hw.refOf_mem hi (Function.update_self ..) hb, h.refOf_notMem haL hb, hri]
      simp
    · rw [if_neg hba, add_zero]
      by_cases hbm : b ∈ L₀
      · obtain ⟨k, hk, e⟩ := h.frame b ((hmem b).mpr (Or.inl hbm))
        have hki := hne b hbm k e
        rw [hw.refOf_mem hk (by simpa only [Function.update_of_ne hki] using e) hb,
          h.refOf_mem hk e hb]
        exact Function.update_of_ne hki ..
      · rw [hw.refOf_notMem (by simp [hba, hbm]) hb]
        by_cases hbL : b ∈ L
        · obtain ⟨e, -⟩ := ((hmem b).mp hbL).resolve_left hbm
          rw [h.refOf_mem hi e.symm hb, hri]
        · rw [h.refOf_notMem hbL hb]
  · have hbL₀ : b ∈ L₀ := (List.mem_cons.mp hb').resolve_left (fun e => haL (e ▸ hb))
    simpa only [Function.update_of_ne (hne b hbL₀ k e)] using e

theorem Wf.fill (h : Wf pool L) (ha : pool.file.Valid a) (haL : a ∉ L)
    (hf : pool.frameOf (-1) = some i) : Got pool L a i (pool.fill a i) (a :: L) := by
  obtain ⟨hi, hie⟩ := frameOf_some hf
  have hlen : L.length < cachePage :=
    lt_of_le_of_ne h.length_le fun e => h.no_empty e hi hie
  refine h.reload ha haL hi (h.ref_empty i hi hie) (fun b => ?_) (hie ▸ h.null_notMem) h.nodup hlen
    rfl (fun b hb hn => (h.view_notMem hb hn).symm) (fun x hx => ?_)
  · rw [hie]
    exact ⟨Or.inl, fun hb => hb.resolve_right fun ⟨e, hn⟩ => hn e⟩
  · simp only [forDown_shift 0 _ 1 Nat.one_pos, Function.update_apply]
    rcases Nat.eq_zero_or_pos x with rfl | h0
    · rfl
    · obtain ⟨y, rfl⟩ : ∃ y, x = y + 1 := ⟨x - 1, by omega⟩
      rw [if_neg (by omega), if_pos (by omega), List.getD_cons_succ, Nat.add_sub_cancel,
        h.lru y (by omega)]

theorem Wf.evict {A B : List Int} {v : Int} (h : Wf pool (A ++ v :: B)) (ha : pool.file.Valid a)
    (haL : a ∉ A ++ v :: B) (hj : j < cachePage) (hjv : pool.addrs j = v) (hr : pool.ref j = 0) :
    Got pool (A ++ v :: B) a j (pool.evict a A.length j) (a :: (A ++ B)) := by
  have hv : pool.file.Valid v := h.valid v (by simp)
  have hperm : (A ++ v :: B).Perm (v :: (A ++ B)) := List.perm_middle
  have hnd := List.nodup_cons.mp (hperm.nodup_iff.mp h.nodup)
  have hlen : (A ++ B).length < cachePage := by
    have := hperm.length_eq ▸ h.length_le
    simpa using this
  simp only [BufferPool.evict, hjv, writePage_valid hv]
  refine h.reload ha haL hj hr (fun b => ?_) (hjv ▸ hnd.1) hnd.2 hlen rfl (fun b hb hn => ?_)
    (fun x hx => ?_)
  · rw [hperm.mem_iff, List.mem_cons, hjv]
    constructor
    · rintro (rfl | hb)
      · exact Or.inr ⟨rfl, hv.ne_null⟩
      · exact Or.inl hb
    · rintro (hb | ⟨rfl, -⟩)
      · exact Or.inr hb
      · exact Or.inl rfl
  · by_cases hbv : b = v
    · subst hbv
      exact (Function.update_self ..).trans (h.view_mem hj hjv hn).symm
    · refine (Function.update_of_ne hbv ..).trans (h.view_notMem ?_ hn).symm
      simpa [hperm.mem_iff, hbv] using hb
  · rw [← rotate_getD A B v a pool.lru h.lru x hx]
    simp only [forDown_shift 0 _ 1 Nat.one_pos, Function.update_apply]
    split_ifs <;> first | rfl | omega

/-- The pair found by the eviction loops names the least recently requested unreferenced page. -/
theorem Wf.victim_some (h : Wf pool L) : ∀ n ≤ L.length, pool.victimBelow n = some (i, j) →
    ∃ A v B, L.take n = A ++ v :: B ∧ A.length = i ∧ j < cachePage ∧ pool.addrs j = v ∧
      pool.ref j = 0 ∧ ∀ b ∈ B, pool.refOf b ≠ 0
  | 0, _, hv => by cases hv
  | n + 1, hn, hv => by
    have hn16 : n < cachePage := by have := h.length_le; omega
    have hl : pool.lru n = L[n] := by rw [h.lru n hn16, List.getD_eq_getElem _ _ hn]
    have ht : L.take (n + 1) = L.take n ++ [L[n]] := (List.take_append_getElem hn).symm
    rw [victimBelow] at hv
    split at hv
    · next k hk =>
      obtain ⟨rfl, rfl⟩ := Prod.mk.inj (Option.some.inj hv)
      have hp := List.find?_some hk
      simp only [hl, decide_eq_true_eq] at hp
      exact ⟨L.take n, L[n], [], ht, by simp; omega,
        List.mem_range.mp (List.mem_of_find?_eq_some hk), hp.1, hp.2, by simp⟩
    · next hk =>
      obtain ⟨A, v, B, e, hA, hj, hjv, hr, hB⟩ := h.victim_some n (by omega) hv
      refine ⟨A, v, B ++ [L[n]], by rw [ht, e]; simp, hA, hj, hjv, hr, fun b hb => ?_⟩
      rcases List.mem_append.mp hb with hb | hb
      · exact hB b hb
      · obtain rfl := List.mem_singleton.mp hb
        obtain ⟨k, hkf, hk16, hka⟩ := h.frameOf_mem (List.getElem_mem hn)
        have := List.find?_eq_none.mp hk k (List.mem_range.mpr hk16)
        rw [refOf, hkf]
        simpa [hl, hka] using this

theorem Wf.victim_none (h : Wf pool L) : ∀ n ≤ L.length, pool.victimBelow n = none →
    ∀ b ∈ L.take n, pool.refOf b ≠ 0
  | 0, _, _ => by simp
  | n + 1, hn, hv => by
    have hn16 : n < cachePage := by have := h.length_le; omega
    have hl : pool.lru n = L[n] := by rw [h.lru n hn16, List.getD_eq_getElem _ _ hn]
    rw [victimBelow] at hv
    split at hv
    · cases hv
    · next hk =>
      intro b hb
      rw [← List.take_append_getElem hn] at hb
      rcases List.mem_append.mp hb with hb | hb
      · exact h.victim_none n (by omega) hv b hb
      · obtain rfl := List.mem_singleton.mp hb
        obtain ⟨k, hkf, hk16, hka⟩ := h.frameOf_mem (List.getElem_mem hn)
        have := List.find?_eq_none.mp hk k (List.mem_range.mpr hk16)
        rw [refOf, hkf]
        simpa [hl, hka] using this

/-- The recency list after a request for `a`. -/
def Touched (pool : BufferPool P) (L : List Int) (a : Int) (L' : List Int) : Prop :=
  (L' = a :: L.erase a ∧ (a ∈ L ∨ L.length < cachePage)) ∨
    ∃ v, a ∉ L ∧ L.length = cachePage ∧ Unused pool L v ∧ L' = a :: L.erase v

/-- **A request** returns a frame with the page's current content and keeps every content, as long
as the page is cached, a frame is empty or some page is unreferenced. -/
theorem Wf.getPage (h : Wf pool L) (ha : pool.file.Valid a)
    (hroom : a ∈ L ∨ L.length < cachePage ∨ ∃ b ∈ L, pool.refOf b = 0) :
    ∃ i pool' L', pool.getPage a = some (i, pool') ∧ Got pool L a i pool' L' ∧
      Touched pool L a L' := by
  by_cases haL : a ∈ L
  · obtain ⟨i, hf, -, -⟩ := h.frameOf_mem haL
    obtain ⟨A, B, rfl⟩ := List.append_of_mem haL
    have hnA : a ∉ A := fun hm => (List.nodup_append.mp h.nodup).2.2 a hm a List.mem_cons_self rfl
    refine ⟨i, _, _, by rw [BufferPool.getPage, hf], h.hit hf, Or.inl ⟨?_, Or.inl haL⟩⟩
    rw [List.erase_append_right _ hnA, List.erase_cons_head]
  have hf := h.frameOf_eq_none haL ha.ne_null
  by_cases hl : L.length < cachePage
  · obtain ⟨k, hk, hke⟩ := h.exists_empty hl
    cases hfe : pool.frameOf (-1) with
    | none => exact absurd hke (frameOf_none hfe k hk)
    | some i =>
      refine ⟨i, _, _, by rw [BufferPool.getPage, hf]; simp only [hfe], h.fill ha haL hfe,
        Or.inl ⟨?_, Or.inr hl⟩⟩
      rw [List.erase_of_not_mem haL]
  have hfull : L.length = cachePage := le_antisymm h.length_le (not_lt.mp hl)
  have hfe : pool.frameOf (-1) = none := by
    cases hfe : pool.frameOf (-1) with
    | none => rfl
    | some i => exact absurd (frameOf_some hfe).2 (h.no_empty hfull (frameOf_some hfe).1)
  cases hv : pool.victimBelow cachePage with
  | none =>
    obtain ⟨b, hb, hr⟩ := (hroom.resolve_left haL).resolve_left hl
    refine absurd hr (h.victim_none cachePage hfull.ge hv b ?_)
    rwa [List.take_of_length_le hfull.le]
  | some p =>
    obtain ⟨i, j⟩ := p
    obtain ⟨A, v, B, e, rfl, hj, hjv, hr, hB⟩ := h.victim_some cachePage hfull.ge hv
    rw [List.take_of_length_le hfull.le] at e
    subst e
    have hnA : v ∉ A := fun hm => (List.nodup_append.mp h.nodup).2.2 v hm v List.mem_cons_self rfl
    have hvr : pool.refOf v = 0 := by
      rw [h.refOf_mem hj hjv (h.valid v (by simp)).ne_null, hr]
    refine ⟨j, _, _, by rw [BufferPool.getPage, hf]; simp only [hfe, hv], h.evict ha haL hj hjv hr,
      Or.inr ⟨v, haL, hfull, ⟨A, B, rfl, hvr, hB⟩, ?_⟩⟩
    rw [List.erase_append_right _ hnA, List.erase_cons_head]

theorem Wf.room (h : Wf pool L) {r : ℕ × BufferPool P} (hg : pool.getPage a = some r)
    (hn : a ≠ -1) : a ∈ L ∨ L.length < cachePage ∨ ∃ b ∈ L, pool.refOf b = 0 := by
  by_contra hc
  push Not at hc
  obtain ⟨haL, hl, hr⟩ := hc
  have hfull : L.length = cachePage := le_antisymm h.length_le hl
  rw [BufferPool.getPage, h.frameOf_eq_none haL hn] at hg
  have hfe : pool.frameOf (-1) = none := by
    cases hfe : pool.frameOf (-1) with
    | none => rfl
    | some i => exact absurd (frameOf_some hfe).2 (h.no_empty hfull (frameOf_some hfe).1)
  simp only [hfe] at hg
  cases hv : pool.victimBelow cachePage with
  | none => simp [hv] at hg
  | some p =>
    obtain ⟨i, j⟩ := p
    obtain ⟨A, v, B, e, -, hj, hjv, hr0, -⟩ := h.victim_some cachePage hfull.ge hv
    rw [List.take_of_length_le hfull.le] at e
    have hvL : v ∈ L := by rw [e]; simp
    exact hr v hvL (by rw [h.refOf_mem hj hjv (h.valid v hvL).ne_null, hr0])

/-! ## Releases, in-place changes and appends -/

theorem Wf.release (h : Wf pool L) (hn : a ≠ -1) : Wf (pool.release a) L := by
  unfold BufferPool.release
  cases hf : pool.frameOf a with
  | none => exact h
  | some i =>
    refine ⟨h.nodup, h.length_le, h.lru, h.frame, h.addr, h.inj, h.valid, fun k hk he => ?_,
      h.file_length⟩
    have hki : k ≠ i := by rintro rfl; exact hn ((frameOf_some hf).2.symm.trans he)
    simpa only [Function.update_of_ne hki] using h.ref_empty k hk he

@[simp] theorem addrs_release : (pool.release a).addrs = pool.addrs := by
  unfold BufferPool.release; split <;> rfl

@[simp] theorem file_release : (pool.release a).file = pool.file := by
  unfold BufferPool.release; split <;> rfl

@[simp] theorem pages_release : (pool.release a).pages = pool.pages := by
  unfold BufferPool.release; split <;> rfl

@[simp] theorem frameOf_release : (pool.release a).frameOf b = pool.frameOf b := by
  simp [frameOf]

@[simp] theorem view_release : (pool.release a).view b = pool.view b := by
  simp [view]

theorem Wf.refOf_release (h : Wf pool L) (ha : a ∈ L) (b : Int) :
    (pool.release a).refOf b = pool.refOf b - if b = a then 1 else 0 := by
  obtain ⟨i, hf, -, hia⟩ := h.frameOf_mem ha
  rw [refOf, refOf, frameOf_release]
  split_ifs with e
  · subst e; rw [hf]; simp [BufferPool.release, hf]
  · cases hb : pool.frameOf b with
    | none => simp
    | some k =>
      have hki : k ≠ i := by rintro rfl; exact e ((frameOf_some hb).2.symm.trans hia)
      simp [BufferPool.release, hf, Function.update_of_ne hki]

/-- Write through a pointer to frame `i`. -/
def setPage (pool : BufferPool P) (i : ℕ) (page : P) : BufferPool P :=
  { pool with pages := Function.update pool.pages i page }

theorem Wf.setPage (h : Wf pool L) (i : ℕ) (page : P) : Wf (pool.setPage i page) L :=
  ⟨h.nodup, h.length_le, h.lru, h.frame, h.addr, h.inj, h.valid, h.ref_empty, h.file_length⟩

theorem Wf.view_setPage (h : Wf pool L) (hi : i < cachePage) (hia : pool.addrs i = a) (hn : a ≠ -1)
    (page : P) (b : Int) :
    (pool.setPage i page).view b = if b = a then page else pool.view b := by
  have hf : ∀ b, (pool.setPage i page).frameOf b = pool.frameOf b := fun _ => rfl
  rw [view, view, hf]
  split_ifs with e
  · subst e
    rw [h.frameOf_addr hi hia hn]
    exact Function.update_self ..
  · cases hb : pool.frameOf b with
    | none => rfl
    | some k =>
      have hki : k ≠ i := by rintro rfl; exact e ((frameOf_some hb).2.symm.trans hia)
      exact Function.update_of_ne hki ..

/-- Append a page behind the cache. -/
def append (pool : BufferPool P) (page : P) : BufferPool P :=
  { pool with file := (writePage page pool.file pool.file.length).2 }

theorem Wf.append (h : Wf pool L) (page : P) :
    Wf (pool.append page) L ∧ (pool.append page).file.length = pool.file.length + pageSize := by
  obtain ⟨h0, h1⟩ := h.file_length
  rw [BufferPool.append, writePage_append h0 h1]
  refine ⟨⟨h.nodup, h.length_le, h.lru, h.frame, h.addr, h.inj, fun b hb => ?_, h.ref_empty, ?_⟩, rfl⟩
  · obtain ⟨h2, h3, h4⟩ := h.valid b hb
    exact ⟨h2, h3.trans (lt_add_of_pos_right _ (by decide)), h4⟩
  · constructor
    · exact add_nonneg h0 (by decide)
    · exact (Int.add_emod_right ..).trans h1

theorem Wf.view_append (h : Wf pool L) (page : P) (hn : b ≠ -1) :
    (pool.append page).view b = if b = pool.file.length then page else pool.view b := by
  obtain ⟨h0, h1⟩ := h.file_length
  have hf : (pool.append page).frameOf b = pool.frameOf b := rfl
  rw [view, view, hf, BufferPool.append, writePage_append h0 h1]
  split_ifs with e
  · have : b ∉ L := fun hb => by have := (h.valid b hb).2.1; omega
    rw [h.frameOf_eq_none this hn, e]
    exact Function.update_self ..
  · cases pool.frameOf b with
    | none => exact Function.update_of_ne e ..
    | some k => rfl

/-! ## Opening and closing -/

theorem wf_init [Inhabited P] {disk : Option (FileInfo P)}
    (h0 : 0 ≤ (openFile disk).2.length) (h1 : (openFile disk).2.length % pageSize = 0) :
    Wf (initBufferPool disk) [] :=
  ⟨List.nodup_nil, Nat.zero_le _, fun _ _ => rfl, by simp, fun _ _ => Or.inl rfl,
    fun _ _ _ _ _ hn => absurd rfl hn, by simp, fun _ _ _ => rfl, ⟨h0, h1⟩⟩

theorem frameOf_init [Inhabited P] {disk : Option (FileInfo P)} (hn : a ≠ -1) :
    (initBufferPool disk).frameOf a = none := by
  rw [frameOf, List.find?_eq_none]
  intro i _
  rw [decide_eq_true_eq]
  exact hn.symm

theorem view_init [Inhabited P] {disk : Option (FileInfo P)} (hn : a ≠ -1) :
    (initBufferPool disk).view a = (openFile disk).2.data a := by
  rw [view, frameOf_init hn]
  rfl

/-- **Closing leaves exactly the current contents on disk.** -/
theorem Wf.closeBufferPool (h : Wf pool L) :
    (closeBufferPool pool).length = pool.file.length ∧
      ∀ a ≠ -1, (MyJQL.closeBufferPool pool).data a = pool.view a := by
  -- before frame `i` is written back, the frames below it have been
  have key : ∀ (t : FileInfo P), t = MyJQL.closeBufferPool pool →
      t.length = pool.file.length ∧ ∀ a ≠ -1, t.data a =
        match pool.frameOf a with
        | some k => if k < cachePage then pool.pages k else pool.file.data a
        | none => pool.file.data a := by
    rintro t rfl
    refine forUp_ind (Nat.zero_le _) (fun i (t : FileInfo P) => t.length = pool.file.length ∧
      ∀ a ≠ -1, t.data a =
        match pool.frameOf a with
        | some k => if k < i then pool.pages k else pool.file.data a
        | none => pool.file.data a) ⟨rfl, fun a hn => ?_⟩ ?_
    · split <;> simp
    rintro i t - hi ⟨hlen, hdata⟩
    by_cases he : pool.addrs i = -1
    · rw [he, writePage_null]
      refine ⟨hlen, fun a hn => (hdata a hn).trans ?_⟩
      cases hf : pool.frameOf a with
      | none => rfl
      | some k =>
        have hki : k ≠ i := by rintro rfl; exact hn ((frameOf_some hf).2.symm.trans he)
        exact if_congr (by omega) rfl rfl
    · have hv : t.Valid (pool.addrs i) := by
        have := h.valid _ ((h.addr i hi).resolve_left he)
        rwa [FileInfo.Valid, hlen]
      rw [writePage_valid hv]
      refine ⟨hlen, fun a hn => ?_⟩
      by_cases hai : a = pool.addrs i
      · subst hai
        rw [h.frameOf_addr hi rfl hn]
        simp
      · refine (Function.update_of_ne hai ..).trans ((hdata a hn).trans ?_)
        cases hf : pool.frameOf a with
        | none => rfl
        | some k =>
          have hki : k ≠ i := by rintro rfl; exact hai (frameOf_some hf).2.symm
          exact if_congr (by omega) rfl rfl
  obtain ⟨hlen, hdata⟩ := key _ rfl
  refine ⟨hlen, fun a hn => (hdata a hn).trans ?_⟩
  rw [view]
  cases hf : pool.frameOf a with
  | none => rfl
  | some k => simp [(frameOf_some hf).1]

end BufferPool

end MyJQL
