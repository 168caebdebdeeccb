import MyJQL.Storage.Machine

/-!
# Reasoning about programs on flat pools

* `FlatPool.Held`, `FlatPool.Last`: a pointer to a pinned page, or to the page requested last; what
  requests, releases, writes and appends keep of them;
* `wp_getPage`, `wp_release`, `wp_load`, …: one rule for each effect, on a state of the form
  `Function.update s i f`;
* `wp_cast`: and for reading a page at the structure it holds.
-/

set_option linter.unusedSimpArgs false

namespace MyJQL

namespace FlatPool

variable {f : FlatPool} {t : ℕ} {a b : Int} {page : Page}

@[simp] theorem mem_get : (f.get a).mem = f.mem := rfl
@[simp] theorem length_get : (f.get a).length = f.length := rfl
@[simp] theorem pins_get : (f.get a).pins = a ::ₘ f.pins := rfl
@[simp] theorem recent_get : (f.get a).recent = f.touch a := rfl
@[simp] theorem next_get : (f.get a).next = f.next + 1 := rfl
@[simp] theorem mem_release : (f.release a).mem = f.mem := rfl
@[simp] theorem length_release : (f.release a).length = f.length := rfl
@[simp] theorem pins_release : (f.release a).pins = f.pins.erase a := rfl
@[simp] theorem recent_release : (f.release a).recent = f.recent := rfl
@[simp] theorem mem_put : (f.put a page).mem = Function.update f.mem a page := rfl
@[simp] theorem length_put : (f.put a page).length = f.length := rfl
@[simp] theorem pins_put : (f.put a page).pins = f.pins := rfl
@[simp] theorem recent_put : (f.put a page).recent = f.recent := rfl
@[simp] theorem mem_append : (f.append page).mem = Function.update f.mem f.length page := rfl
@[simp] theorem length_append : (f.append page).length = f.length + pageSize := rfl
@[simp] theorem pins_append : (f.append page).pins = f.pins := rfl
@[simp] theorem recent_append : (f.append page).recent = f.recent := rfl

@[simp] theorem valid_get : (f.get a).Valid b ↔ f.Valid b := Iff.rfl
@[simp] theorem valid_release : (f.release a).Valid b ↔ f.Valid b := Iff.rfl
@[simp] theorem valid_put : (f.put a page).Valid b ↔ f.Valid b := Iff.rfl

theorem Valid.append (h : f.Valid a) : (f.append page).Valid a := by
  obtain ⟨h1, h2, h3⟩ := h
  exact ⟨h1, h2.trans (lt_add_of_pos_right _ (by decide)), h3⟩

theorem Valid.ne_null (h : f.Valid a) : a ≠ -1 := by
  rintro rfl
  exact absurd h.1 (by decide)

theorem fits_of_card {l : List Int} (h : l.length + f.pins.card ≤ cachePage) : f.Fits l := by
  refine (Multiset.toFinset_card_le _).trans ?_
  rwa [Multiset.card_add, Multiset.coe_card]

/-! ## Pointers -/

theorem At.get (h : f.At t b) (hb : b = a → f.Resident a) : (f.get a).At t b := by
  obtain ⟨h1, h2⟩ := h
  refine ⟨Nat.lt_succ_of_lt h1, ?_⟩
  simp only [FlatPool.get]
  rw [if_neg (by omega), if_neg]
  · exact h2
  · rintro ⟨h3, h4⟩
    exact h4 (hb (Option.some.inj (h2.symm.trans h3)))

theorem at_get_self : (f.get a).At f.next a := ⟨Nat.lt_succ_self _, if_pos rfl⟩

theorem At.release (h : f.At t b) : (f.release a).At t b := h

theorem At.put (h : f.At t b) : (f.put a page).At t b := h

theorem At.append (h : f.At t b) : (f.append page).At t b := h

/-- Pointer `t` points to the pinned page `a`. -/
def Held (f : FlatPool) (t : ℕ) (a : Int) : Prop := f.At t a ∧ a ∈ f.pins

theorem Held.live (h : f.Held t a) : f.Live t a := ⟨h.1, Or.inl h.2⟩

theorem held_get_self : (f.get a).Held f.next a := ⟨at_get_self, Multiset.mem_cons_self _ _⟩

theorem Held.get (h : f.Held t b) : (f.get a).Held t b :=
  ⟨h.1.get fun e => e ▸ Or.inl h.2, Multiset.mem_cons_of_mem h.2⟩

theorem Held.release (h : f.Held t b) (hb : b ∈ f.pins.erase a) : (f.release a).Held t b := ⟨h.1, hb⟩

theorem Held.put (h : f.Held t b) : (f.put a page).Held t b := h

theorem Held.append (h : f.Held t b) : (f.append page).Held t b := h

/-- Pointer `t` points to the page requested last. -/
def Last (f : FlatPool) (t : ℕ) (a : Int) : Prop := f.At t a ∧ f.recent.head? = some a

theorem Last.live (h : f.Last t a) : f.Live t a := ⟨h.1, Or.inr (List.mem_of_mem_head? h.2)⟩

theorem last_get_self : (f.get a).Last f.next a := ⟨at_get_self, rfl⟩

theorem Last.release (h : f.Last t b) : (f.release a).Last t b := h

theorem Last.put (h : f.Last t b) : (f.put a page).Last t b := h

theorem Last.append (h : f.Last t b) : (f.append page).Last t b := h

theorem Live.put (h : f.Live t b) : (f.put a page).Live t b := h

theorem Live.append (h : f.Live t b) : (f.append page).Live t b := h

/-- The page requested before the last one may still be used. -/
theorem Last.get (h : f.Last t b) (hf : f.Fits [a, b]) : (f.get a).Live t b := by
  obtain ⟨hat, hhead⟩ := h
  cases hr : f.recent with
  | nil => rw [hr] at hhead; cases hhead
  | cons x r =>
    rw [hr] at hhead
    obtain rfl := Option.some.inj hhead
    refine ⟨hat.get fun e => e ▸ Or.inr (by rw [hr]; exact List.mem_cons_self), Or.inr ?_⟩
    simp only [recent_get, touch, hr]
    by_cases e : x = a
    · exact e ▸ List.mem_cons_self
    · rw [List.erase_cons_tail (by simpa using e)]
      simp [hf]

end FlatPool

/-! ## Effects -/

variable {bd : Bool} {body : Bodies Eff Proc} {α β σ : Type} {s : Flat} {i : PoolId} {f : FlatPool}
  {t : ℕ} {a : Int}

section Rules

theorem wp_getPage {Q : PagePtr → Flat → Prop} (hv : f.Valid a) (hf : bd → f.Fits [a])
    (h : Q ⟨i, f.next⟩ (Function.update s i (f.get a))) :
    wp (flatSem bd) body (getPage i a) Q (Function.update s i f) := by
  refine wp_eff (a := ⟨i, f.next⟩) ?_ h
  simp only [flatSem, Function.update_self, Function.update_idem]
  rw [if_pos ⟨hv, hf⟩]

theorem wp_release {Q : Unit → Flat → Prop} (ha : a ∈ f.pins)
    (h : Q () (Function.update s i (f.release a))) :
    wp (flatSem bd) body (release i a) Q (Function.update s i f) := by
  refine wp_eff (a := ()) ?_ h
  simp only [flatSem, Function.update_self, Function.update_idem]
  rw [if_pos ha]

theorem wp_load {Q : Page → Flat → Prop} (hl : f.Live t a)
    (h : Q (f.mem a) (Function.update s i f)) :
    wp (flatSem bd) body (PagePtr.load ⟨i, t⟩) Q (Function.update s i f) := by
  refine wp_eff ?_ h
  simp only [flatSem, Function.update_self, FlatPool.deref_eq_some.mpr hl]

theorem wp_store {Q : Unit → Flat → Prop} {page : Page} (hl : f.Live t a)
    (h : Q () (Function.update s i (f.put a page))) :
    wp (flatSem bd) body (PagePtr.store ⟨i, t⟩ page) Q (Function.update s i f) := by
  refine wp_eff (a := ()) ?_ h
  simp only [flatSem, Function.update_self, Function.update_idem, FlatPool.deref_eq_some.mpr hl]

theorem wp_fileLength {Q : Int → Flat → Prop} (h : Q f.length (Function.update s i f)) :
    wp (flatSem bd) body (fileLength i) Q (Function.update s i f) := by
  refine wp_eff ?_ h
  simp only [flatSem, Function.update_self]

theorem wp_writePageTo {Q : Unit → Flat → Prop} {page : Page} (hg : f.MayGrow)
    (h : Q () (Function.update s i (f.append page))) :
    wp (flatSem bd) body (writePageTo i page f.length) Q (Function.update s i f) := by
  refine wp_eff (a := ()) ?_ h
  simp only [flatSem, Function.update_self, Function.update_idem]
  rw [if_pos ⟨trivial, hg⟩]

theorem wp_cast {c : Page → β} {x : β} {Q : β → Flat → Prop} (hl : f.Live t a)
    (hm : c (f.mem a) = x) (h : Q x (Function.update s i f)) :
    wp (flatSem bd) body (do return c (← PagePtr.load ⟨i, t⟩)) Q (Function.update s i f) :=
  wp_bind (wp_load hl (wp_pure (hm ▸ h)))

theorem wp_hashCtrl {x : HashMapControlBlock} {Q : HashMapControlBlock → Flat → Prop}
    (hl : f.Live t a) (hm : f.mem a = .hashCtrl x) (h : Q x (Function.update s i f)) :
    wp (flatSem bd) body (PagePtr.hashCtrl ⟨i, t⟩) Q (Function.update s i f) :=
  wp_cast hl (by rw [hm]; rfl) h

theorem wp_setHashCtrl {g : HashMapControlBlock → HashMapControlBlock} {x : HashMapControlBlock}
    {Q : Unit → Flat → Prop} (hl : f.Live t a) (hm : f.mem a = .hashCtrl x)
    (h : Q () (Function.update s i (f.put a (.hashCtrl (g x))))) :
    wp (flatSem bd) body (PagePtr.setHashCtrl ⟨i, t⟩ g) Q (Function.update s i f) :=
  wp_bind (wp_hashCtrl hl hm (wp_store hl h))

theorem wp_hashDir {x : HashMapDirectoryBlock} {Q : HashMapDirectoryBlock → Flat → Prop}
    (hl : f.Live t a) (hm : f.mem a = .hashDir x) (h : Q x (Function.update s i f)) :
    wp (flatSem bd) body (PagePtr.hashDir ⟨i, t⟩) Q (Function.update s i f) :=
  wp_cast hl (by rw [hm]; rfl) h

theorem wp_setHashDir {g : HashMapDirectoryBlock → HashMapDirectoryBlock}
    {x : HashMapDirectoryBlock}
    {Q : Unit → Flat → Prop} (hl : f.Live t a) (hm : f.mem a = .hashDir x)
    (h : Q () (Function.update s i (f.put a (.hashDir (g x))))) :
    wp (flatSem bd) body (PagePtr.setHashDir ⟨i, t⟩ g) Q (Function.update s i f) :=
  wp_bind (wp_hashDir hl hm (wp_store hl h))

theorem wp_hashBlock {x : HashMapBlock} {Q : HashMapBlock → Flat → Prop}
    (hl : f.Live t a) (hm : f.mem a = .hashBlock x) (h : Q x (Function.update s i f)) :
    wp (flatSem bd) body (PagePtr.hashBlock ⟨i, t⟩) Q (Function.update s i f) :=
  wp_cast hl (by rw [hm]; rfl) h

theorem wp_setHashBlock {g : HashMapBlock → HashMapBlock} {x : HashMapBlock}
    {Q : Unit → Flat → Prop} (hl : f.Live t a) (hm : f.mem a = .hashBlock x)
    (h : Q () (Function.update s i (f.put a (.hashBlock (g x))))) :
    wp (flatSem bd) body (PagePtr.setHashBlock ⟨i, t⟩ g) Q (Function.update s i f) :=
  wp_bind (wp_hashBlock hl hm (wp_store hl h))

theorem wp_block {x : Block} {Q : Block → Flat → Prop}
    (hl : f.Live t a) (hm : f.mem a = .block x) (h : Q x (Function.update s i f)) :
    wp (flatSem bd) body (PagePtr.block ⟨i, t⟩) Q (Function.update s i f) :=
  wp_cast hl (by rw [hm]; rfl) h

theorem wp_setBlock {g : Block → Block} {x : Block}
    {Q : Unit → Flat → Prop} (hl : f.Live t a) (hm : f.mem a = .block x)
    (h : Q () (Function.update s i (f.put a (.block (g x))))) :
    wp (flatSem bd) body (PagePtr.setBlock ⟨i, t⟩ g) Q (Function.update s i f) :=
  wp_bind (wp_block hl hm (wp_store hl h))

theorem wp_bNode {x : BNode} {Q : BNode → Flat → Prop}
    (hl : f.Live t a) (hm : f.mem a = .bNode x) (h : Q x (Function.update s i f)) :
    wp (flatSem bd) body (PagePtr.bNode ⟨i, t⟩) Q (Function.update s i f) :=
  wp_cast hl (by rw [hm]; rfl) h

theorem wp_setBNode {g : BNode → BNode} {x : BNode}
    {Q : Unit → Flat → Prop} (hl : f.Live t a) (hm : f.mem a = .bNode x)
    (h : Q () (Function.update s i (f.put a (.bNode (g x))))) :
    wp (flatSem bd) body (PagePtr.setBNode ⟨i, t⟩ g) Q (Function.update s i f) :=
  wp_bind (wp_bNode hl hm (wp_store hl h))

theorem wp_bCtrl {x : BCtrlBlock} {Q : BCtrlBlock → Flat → Prop}
    (hl : f.Live t a) (hm : f.mem a = .bCtrl x) (h : Q x (Function.update s i f)) :
    wp (flatSem bd) body (PagePtr.bCtrl ⟨i, t⟩) Q (Function.update s i f) :=
  wp_cast hl (by rw [hm]; rfl) h

theorem wp_setBCtrl {g : BCtrlBlock → BCtrlBlock} {x : BCtrlBlock}
    {Q : Unit → Flat → Prop} (hl : f.Live t a) (hm : f.mem a = .bCtrl x)
    (h : Q () (Function.update s i (f.put a (.bCtrl (g x))))) :
    wp (flatSem bd) body (PagePtr.setBCtrl ⟨i, t⟩ g) Q (Function.update s i f) :=
  wp_bind (wp_bCtrl hl hm (wp_store hl h))

end Rules

end MyJQL
