import MyJQL.Table.Block
import MyJQL.HashMap.Remove

/-!
# Tables

* `Table.set`: a state with given data and free-space pools;
* **`TableRep fd fm m`**: the pools hold a table whose live items are `m`; every block is well
  formed, and the free-space map lists every block once, under its free space;
* **`wp_tableRead`**, **`wp_tableInsert`**, **`wp_tableDelete`**;
* `Table.At t s₀ m s`: the state is `s₀` but for the table `t`, which holds `m`; `Table.At.read`,
  `Table.At.insert`, `Table.At.delete`: the same specifications on such states.
-/

set_option linter.unusedSimpArgs false

namespace MyJQL

/-! ## States with two pools -/

/-- The two pools of a table are different. -/
class Table.Proper (t : Table) : Prop where
  ne : t.data ≠ t.fsm

instance : tblRec.Proper := ⟨by decide⟩
instance : tblStr.Proper := ⟨by decide⟩

/-- The state with the pools of `t` set. -/
def Table.set (t : Table) (s : Flat) (fd fm : FlatPool) : Flat :=
  Function.update (Function.update s t.data fd) t.fsm fm

section Set

variable (t : Table) (s : Flat) (fd fm fd' fm' : FlatPool)

@[simp] theorem Table.set_fsm : t.set s fd fm t.fsm = fm := Function.update_self ..

@[simp] theorem Table.update_set_fsm : Function.update (t.set s fd fm) t.fsm fm' = t.set s fd fm' :=
  Function.update_idem ..

theorem Table.set_self : t.set s (s t.data) (s t.fsm) = s := by
  rw [Table.set, Function.update_eq_self, Function.update_eq_self]

theorem Table.set_of_ne {i : PoolId} (h : i ≠ t.data) (h' : i ≠ t.fsm) : t.set s fd fm i = s i := by
  rw [Table.set, Function.update_of_ne h', Function.update_of_ne h]

variable [ht : t.Proper]

@[simp] theorem Table.set_data : t.set s fd fm t.data = fd := by
  rw [Table.set, Function.update_of_ne ht.ne, Function.update_self]

@[simp] theorem Table.update_set_data :
    Function.update (t.set s fd fm) t.data fd' = t.set s fd' fm := by
  rw [Table.set, Table.set, Function.update_comm ht.ne.symm, Function.update_idem]

@[simp] theorem Table.set_set : t.set (t.set s fd fm) fd' fm' = t.set s fd' fm' := by
  rw [Table.set, Table.update_set_data, Table.update_set_fsm]

end Set

section Pools

variable {bd : Bool} {body : Bodies Eff Proc} {α : Type} {t : Table} [ht : t.Proper] {s : Flat}
  {fd fm : FlatPool} {p : M α} {Q : α → Flat → Prop}

theorem wp_data (h : wp (flatSem bd) body p Q (Function.update (t.set s fd fm) t.data fd)) :
    wp (flatSem bd) body p Q (t.set s fd fm) := by
  rwa [Table.update_set_data] at h

end Pools

/-! ## What the pools represent -/

/-- The map of a table: the items of the live `RID`s. -/
abbrev ItemMap := RID → Option (List Cell)

/-- The block at an address. -/
def FlatPool.blockAt (f : FlatPool) (a : Int) : Block := (f.mem a).toBlock

/-- The item of an `RID`. -/
def FlatPool.item (f : FlatPool) (rid : RID) : Option (List Cell) :=
  if f.Valid rid.blockAddr ∧ 0 ≤ rid.idx then (f.blockAt rid.blockAddr).content rid.idx.toNat else none

/-- **The pools hold a table** whose live items are `m`. -/
structure TableRep (fd fm : FlatPool) (m : ItemMap) : Prop where
  block : ∀ a, fd.Valid a → ∃ b, fd.mem a = .block b ∧ b.Wf
  item : ∀ rid, m rid = fd.item rid
  fsm : ∃ B, HashRep fm fsmBlocks B ∧ ∀ k a, (B k).count a =
    if fd.Valid a ∧ (fd.blockAt a).freeSpace = (k : ℕ) then 1 else 0
  pins : fd.pins = 0 ∧ fm.pins = 0
  length : 0 ≤ fd.length ∧ fd.length % pageSize = 0

variable {bd : Bool} {D : ℕ} {H : Handlers} {t : Table} [ht : t.Proper] {s : Flat}
  {fd fd' fm : FlatPool} {m : ItemMap} {rid : RID} {l : List Cell}

theorem TableRep.live (h : TableRep fd fm m) (hl : m rid = some l) :
    fd.Valid rid.blockAddr ∧ ∃ b i, fd.mem rid.blockAddr = .block b ∧ b.Wf ∧ rid.idx = (i : ℕ) ∧
      b.content i = some l := by
  have hi := (h.item rid).symm.trans hl
  unfold FlatPool.item at hi
  split_ifs at hi with hc
  obtain ⟨b, hb, hwf⟩ := h.block _ hc.1
  rw [FlatPool.blockAt, hb] at hi
  exact ⟨hc.1, b, rid.idx.toNat, hb, hwf, by omega, hi⟩

/-- The data file has no control page. -/
theorem TableRep.mayGrow (h : TableRep fd fm m) : fd.MayGrow := fun hlen => by
  obtain ⟨b, hb, -⟩ := h.block 0 ⟨le_rfl, hlen, rfl⟩
  rw [hb]
  rfl

theorem TableRep.congr (h : TableRep fd fm m) (hm : fd'.mem = fd.mem) (hl : fd'.length = fd.length)
    (hp : fd'.pins = fd.pins) : TableRep fd' fm m := by
  have hv : ∀ a, fd'.Valid a ↔ fd.Valid a := fun a => by rw [FlatPool.Valid, FlatPool.Valid, hl]
  have hb : ∀ a, fd'.blockAt a = fd.blockAt a := fun a => by
    rw [FlatPool.blockAt, FlatPool.blockAt, hm]
  refine ⟨fun a ha => ?_, fun rid => ?_, ?_, ?_, ?_⟩
  · rw [hm]; exact h.block a ((hv a).mp ha)
  · rw [h.item, FlatPool.item, FlatPool.item, hb]
    exact if_congr (and_congr_left' (hv _).symm) rfl rfl
  · simp only [hv, hb]; exact h.fsm
  · rw [hp]; exact h.pins
  · rw [hl]; exact h.length

/-- The bytes of an item copied to a buffer. -/
def copyTo (l : List Cell) (dest : Cells) : Cells := fun j =>
  if 0 ≤ j ∧ j < l.length then l.getD j.toNat default else dest j

/-- **`table_read`** copies the item. -/
theorem wp_tableRead (h : TableRep fd fm m) (hl : m rid = some l) (dest : Cells) :
    wp (flatSem bd) (procBody D H) (tableRead t rid dest)
      (fun d s' => d = copyTo l dest ∧ ∃ fd', s' = t.set s fd' fm ∧ TableRep fd' fm m)
      (t.set s fd fm) := by
  obtain ⟨hv, b, i, hb, hwf, hidx, hc⟩ := h.live hl
  obtain ⟨hu, hsize, hcell⟩ := Block.content_eq_some hc
  refine wp_data (wp_bind (wp_getPage hv (fun _ => FlatPool.fits_of_card (by simp [h.pins.1])) ?_))
  refine wp_bind (wp_block FlatPool.held_get_self.live hb ?_)
  have hdest : ∀ d, d = forUp 0 l.length
      (fun k m => Function.update m (k : Int) (b.cells (b.offset i + k))) dest → d = copyTo l dest := by
    rintro d rfl
    funext j
    have key : ∀ d : Cells, d = forUp 0 l.length
        (fun k m => Function.update m (k : Int) (b.cells (b.offset i + k))) dest →
        ∀ j, d j = if 0 ≤ j ∧ j < l.length then l.getD j.toNat default else dest j := by
      rintro d rfl
      refine forUp_ind (Nat.zero_le _) (fun n (d : Cells) =>
        ∀ j, d j = if 0 ≤ j ∧ j < n then l.getD j.toNat default else dest j) ?_ ?_
      · intro j
        rw [if_neg (by omega)]
      · intro n d _ hn hd j
        rw [Function.update_apply, hd]
        by_cases e : j = n
        · subst e
          rw [if_pos rfl, if_pos (by omega), hcell n hn, Int.toNat_natCast,
            List.getD_eq_getElem _ _ hn]
        · rw [if_neg e]
          exact if_congr (by omega) rfl rfl
    exact key _ rfl j
  have hsz : itemIDSize (b.itemID rid.idx) = l.length := by rw [hidx]; exact hsize
  have hfin : TableRep ((fd.get rid.blockAddr).release rid.blockAddr) fm m :=
    h.congr rfl rfl (by simp)
  refine wp.seq (R := fun d s' => d = copyTo l dest ∧
      s' = Function.update (t.set s fd fm) t.data (fd.get rid.blockAddr)) ?_ fun d s' hd => ?_
  · rw [hsz]
    refine wp_ite (fun h0 => wp_pure ⟨hdest _ ?_, rfl⟩) fun h0 => ?_
    · rw [h0]; exact (forUp_ge le_rfl _ _).symm
    · rw [hidx, Block.getItem_of_used hu]
      exact wp_pure ⟨hdest _ rfl, rfl⟩
  · obtain ⟨rfl, rfl⟩ := hd
    refine wp_bind (wp_release (by simp) (wp_pure ⟨rfl, _, ?_, hfin⟩))
    rw [Table.update_set_data]

/-! ## Changing one block -/

theorem FlatPool.item_setBlock {a : Int} {b' : Block} {i : ℕ} {x : Option (List Cell)}
    (hv : ∀ y, y ≠ a → (fd'.Valid y ↔ fd.Valid y)) (hva : fd'.Valid a)
    (hm : fd'.mem = Function.update fd.mem a (.block b'))
    (hc : ∀ j : ℕ, b'.content j = if j = i then x else fd.item ⟨a, j⟩) (rid : RID) :
    fd'.item rid = Function.update fd.item ⟨a, i⟩ x rid := by
  obtain ⟨y, k⟩ := rid
  by_cases e : y = a
  · subst e
    have hb : fd'.blockAt y = b' := by
      rw [FlatPool.blockAt, hm, Function.update_self]
      rfl
    by_cases hk : 0 ≤ k
    · obtain ⟨j, rfl⟩ := Int.eq_ofNat_of_zero_le hk
      simp only [FlatPool.item, hb] at hc ⊢
      rw [if_pos ⟨hva, hk⟩, Int.toNat_natCast, hc]
      by_cases ej : j = i
      · rw [if_pos ej, ej, Function.update_self]
      · rw [if_neg ej, Function.update_of_ne (by simpa using ej), FlatPool.item]
    · have hne : (⟨y, k⟩ : RID) ≠ ⟨y, i⟩ := fun e => hk (by rw [(RID.mk.inj e).2]; omega)
      rw [Function.update_of_ne hne, FlatPool.item, FlatPool.item, if_neg fun h => hk h.2,
        if_neg fun h => hk h.2]
  · rw [Function.update_of_ne (fun h => e (RID.mk.inj h).1), FlatPool.item, FlatPool.item,
      show fd'.blockAt y = fd.blockAt y by rw [FlatPool.blockAt, hm, Function.update_of_ne e]; rfl]
    exact if_congr (and_congr_left' (hv y e)) rfl rfl

/-- **Changing one block**, and its entry in the free-space map. -/
theorem TableRep.setBlock {a : Int} {b' : Block} {i : ℕ} {x : Option (List Cell)} {fm' : FlatPool}
    {B : ℕ → Multiset Int} (h : TableRep fd fm m) (hv : ∀ y, y ≠ a → (fd'.Valid y ↔ fd.Valid y))
    (hva : fd'.Valid a) (hm : fd'.mem = Function.update fd.mem a (.block b')) (hwf : b'.Wf)
    (hc : ∀ j : ℕ, b'.content j = if j = i then x else fd.item ⟨a, j⟩)
    (hB : HashRep fm' fsmBlocks B)
    (hcount : ∀ (k : ℕ) y, (B k).count y = if y = a then if b'.freeSpace = k then 1 else 0
      else if fd.Valid y ∧ (fd.blockAt y).freeSpace = k then 1 else 0)
    (hp : fd'.pins = 0 ∧ fm'.pins = 0) (hl : 0 ≤ fd'.length ∧ fd'.length % pageSize = 0) :
    TableRep fd' fm' (Function.update m ⟨a, i⟩ x) := by
  have hb : fd'.blockAt a = b' := by
    rw [FlatPool.blockAt, hm, Function.update_self]
    rfl
  have hb' : ∀ y, y ≠ a → fd'.blockAt y = fd.blockAt y := fun y hy => by
    rw [FlatPool.blockAt, hm, Function.update_of_ne hy]
    rfl
  refine ⟨fun y hy => ?_, fun rid => ?_, ⟨B, hB, fun k y => ?_⟩, hp, hl⟩
  · by_cases e : y = a
    · subst e
      exact ⟨b', by rw [hm, Function.update_self], hwf⟩
    · rw [hm, Function.update_of_ne e]
      exact h.block y ((hv y e).mp hy)
  · rw [FlatPool.item_setBlock hv hva hm hc, show m = fd.item from funext h.item]
  · rw [hcount]
    by_cases e : y = a
    · subst e
      rw [if_pos rfl, hb]
      exact if_congr (by rw [and_iff_right hva]) rfl rfl
    · rw [if_neg e, hb' y e]
      exact if_congr (and_congr_left' (hv y e).symm) rfl rfl

theorem FlatPool.item_of_block {a : Int} {b : Block} (hv : fd.Valid a) (hb : fd.mem a = .block b)
    (j : ℕ) : fd.item ⟨a, j⟩ = b.content j := by
  rw [FlatPool.item, if_pos ⟨hv, Int.natCast_nonneg j⟩, FlatPool.blockAt, hb]
  rfl

theorem FlatPool.not_valid_length : ¬ fd.Valid fd.length := fun h => absurd h.2.1 (lt_irrefl _)

/-- The block that `table_insert` chooses for `size` bytes: a new last one only when no block has
room for them, otherwise one with the least room among those. -/
def FlatPool.Chosen (f : FlatPool) (size : ℕ) (a : Int) (f' : FlatPool) : Prop :=
  (a = f.length ∧ f'.length = f.length + pageSize ∧
    ∀ x, f.Valid x → (f.blockAt x).freeSpace < size) ∨
  (f.Valid a ∧ f'.length = f.length ∧ size ≤ (f.blockAt a).freeSpace ∧
    ∀ x, f.Valid x → size ≤ (f.blockAt x).freeSpace →
      (f.blockAt a).freeSpace ≤ (f.blockAt x).freeSpace)

/-- The state after `table_insert` of `l`. -/
def Inserted (t : Table) (s : Flat) (fd : FlatPool) (m : ItemMap) (l : List Cell)
    (rid : RID) (s' : Flat) : Prop :=
  m rid = none ∧ rid.blockAddr ≠ -1 ∧ ∃ fd' fm', s' = t.set s fd' fm' ∧
    fd.Chosen l.length rid.blockAddr fd' ∧ TableRep fd' fm' (Function.update m rid (some l))

/-! ## The free-space map -/

theorem bucket_lt {k : ℕ} (h : (k : Int) < pageSize) :
    k < hashMapDirBlockSize * fsmBlocks ∧ k < 2 ^ 15 := by
  simp only [pageSize] at h
  simp only [hashMapDirBlockSize, fsmBlocks]
  omega

theorem ofInt_toNat {e : Int} (h : 0 ≤ e) : BitVec.ofInt 16 e = BitVec.ofNat 16 e.toNat := by
  obtain ⟨k, rfl⟩ := Int.eq_ofNat_of_zero_le h
  exact BitVec.ofInt_natCast 16 k

theorem count_bucket_insert (B : ℕ → Multiset Int) (e k : ℕ) (a y : Int) :
    (Function.update B e (a ::ₘ B e) k).count y = (B k).count y + if y = a ∧ k = e then 1 else 0 := by
  by_cases h : k = e
  · subst h
    rw [Function.update_self, Multiset.count_cons]
    simp
  · rw [Function.update_of_ne h, if_neg fun h' => h h'.2, add_zero]

theorem count_bucket_erase (B : ℕ → Multiset Int) (e k : ℕ) (a y : Int) :
    (Function.update B e ((B e).erase a) k).count y =
      (B k).count y - if y = a ∧ k = e then 1 else 0 := by
  by_cases h : k = e
  · subst h
    rw [Function.update_self]
    by_cases hy : y = a
    · subst hy
      simp
    · rw [Multiset.count_erase_of_ne hy, if_neg fun h' => hy h'.1, Nat.sub_zero]
  · rw [Function.update_of_ne h, if_neg fun h' => h h'.2, Nat.sub_zero]

section Fsm

variable {B : ℕ → Multiset Int} {k : ℕ} {a : Int}

omit ht in
theorem wp_fsmInsert {e : Int} {Q : Unit → Flat → Prop} (hB : HashRep fm fsmBlocks B)
    (hp : fm.pins = 0) (he : 0 ≤ e ∧ e < pageSize)
    (hQ : ∀ fm', fm'.pins = 0 →
      HashRep fm' fsmBlocks (Function.update B e.toNat (a ::ₘ B e.toNat)) → Q () (t.set s fd fm')) :
    wp (flatSem bd) (procBody D H) (hashTableInsert t.fsm (BitVec.ofInt 16 e) a) Q
      (t.set s fd fm) := by
  obtain ⟨h1, h2⟩ := bucket_lt (k := e.toNat) (by omega)
  rw [ofInt_toNat he.1]
  refine (wp_hashTableInsert (s := Function.update s t.data fd) (i := t.fsm) hB h1 h2
    (by rw [hp]; decide)).mono ?_
  rintro _ _ ⟨fm', rfl, hp', hB'⟩
  exact hQ fm' (hp'.trans hp) hB'

omit ht in
theorem wp_fsmPop {e : Int} {Q : Unit → Flat → Prop} (hB : HashRep fm fsmBlocks B)
    (hp : fm.pins = 0) (he : 0 ≤ e ∧ e < pageSize) (ha : a ∈ B e.toNat)
    (hQ : ∀ fm', fm'.pins = 0 →
      HashRep fm' fsmBlocks (Function.update B e.toNat ((B e.toNat).erase a)) →
      Q () (t.set s fd fm')) :
    wp (flatSem bd) (procBody D H) (hashTablePop t.fsm (BitVec.ofInt 16 e) a) Q
      (t.set s fd fm) := by
  obtain ⟨h1, h2⟩ := bucket_lt (k := e.toNat) (by omega)
  rw [ofInt_toNat he.1]
  refine (wp_hashTablePop (s := Function.update s t.data fd) (i := t.fsm) hB h1 h2 ha
    (by rw [hp]; decide)).mono ?_
  rintro _ _ ⟨fm', rfl, hp', hB'⟩
  exact hQ fm' (hp'.trans hp) hB'

omit ht in
theorem wp_fsmPopLowerBound {size : ℕ} {Q : Int → Flat → Prop} (hB : HashRep fm fsmBlocks B)
    (hp : fm.pins = 0) (hsize : (size : Int) < pageSize)
    (hsome : ∀ fm' k ans, size ≤ k → (∀ j, size ≤ j → j < k → B j = 0) → ans ∈ B k →
      fm'.pins = 0 → HashRep fm' fsmBlocks (Function.update B k ((B k).erase ans)) →
      Q ans (t.set s fd fm'))
    (hnone : ∀ fm', (∀ k, size ≤ k → B k = 0) → fm'.pins = 0 → HashRep fm' fsmBlocks B →
      Q (-1) (t.set s fd fm')) :
    wp (flatSem bd) (procBody D H) (hashTablePopLowerBound t.fsm (BitVec.ofNat 16 size)) Q
      (t.set s fd fm) := by
  refine (wp_hashTablePopLowerBound (s := Function.update s t.data fd) (i := t.fsm)
    hB (bucket_lt hsize).1 (bucket_lt hsize).2 (by rw [hp]; decide)).mono ?_
  rintro ans _ (⟨k, h1, -, h2, h3, fm', rfl, hp', hB'⟩ | ⟨rfl, h1, fm', rfl, hp', hB'⟩)
  · exact hsome fm' k ans h1 h2 h3 (hp'.trans hp) hB'
  · exact hnone fm' h1 (hp'.trans hp) hB'

end Fsm

/-! ## Insertion and deletion -/

section Insert

variable {B : ℕ → Multiset Int} {a : Int} {b b' : Block} {i k : ℕ} {fm' : FlatPool}

omit ht in
/-- A block of the table has got an item more. -/
theorem TableRep.placed (h : TableRep fd fm m) (hcount : ∀ k a, (B k).count a =
      if fd.Valid a ∧ (fd.blockAt a).freeSpace = (k : ℕ) then 1 else 0)
    (hv : fd.Valid a) (hb : fd.mem a = .block b) (hfs : b.freeSpace = (k : ℕ)) (hwf : b'.Wf)
    (hc : b'.content = Function.update b.content i (some l)) (hp : fm'.pins = 0)
    (hB : HashRep fm' fsmBlocks (Function.update (Function.update B k ((B k).erase a))
      b'.freeSpace.toNat
      (a ::ₘ Function.update B k ((B k).erase a) b'.freeSpace.toNat))) :
    TableRep (((fd.get a).put a (.block b')).release a) fm' (Function.update m ⟨a, i⟩ (some l)) := by
  have hba : fd.blockAt a = b := by rw [FlatPool.blockAt, hb]; rfl
  have hfs' := hwf.freeSpace_mem
  refine h.setBlock (fun y _ => Iff.rfl) hv rfl hwf (fun j => ?_) hB (fun e y => ?_)
    ⟨by simp [h.pins.1], hp⟩ h.length
  · rw [hc, Function.update_apply, FlatPool.item_of_block hv hb]
  · rw [count_bucket_insert, count_bucket_erase, hcount]
    by_cases e : y = a
    · subst e
      simp only [hba, hv, true_and, if_true]
      split_ifs <;> omega
    · simp only [e, false_and, if_false, Nat.sub_zero, add_zero]

omit ht in
/-- The table has got a block more, with one item. -/
theorem TableRep.appended (h : TableRep fd fm m) (hcount : ∀ k a, (B k).count a =
      if fd.Valid a ∧ (fd.blockAt a).freeSpace = (k : ℕ) then 1 else 0)
    (hwf : b'.Wf) (hc : b'.content = Function.update (fun _ => none) i (some l))
    (hp : fm'.pins = 0) (hB : HashRep fm' fsmBlocks (Function.update B b'.freeSpace.toNat
      (fd.length ::ₘ B b'.freeSpace.toNat))) :
    TableRep (fd.append (.block b')) fm' (Function.update m ⟨fd.length, i⟩ (some l)) := by
  have hl := h.length
  have hfs' := hwf.freeSpace_mem
  have hnv : ∀ j : ℕ, fd.item ⟨fd.length, j⟩ = none := fun j => if_neg fun hc =>
    FlatPool.not_valid_length hc.1
  refine h.setBlock (fun y hy => ?_) ?_ rfl hwf (fun j => ?_) hB (fun e y => ?_)
    ⟨by simp [h.pins.1], hp⟩ ⟨by simp; omega, by simp; omega⟩
  · simp only [FlatPool.Valid, FlatPool.length_append, pageSize] at hl ⊢
    omega
  · simp only [FlatPool.Valid, FlatPool.length_append, pageSize] at hl ⊢
    omega
  · rw [hc, hnv, Function.update_apply]
  · rw [count_bucket_insert, hcount]
    by_cases e : y = fd.length
    · subst e
      rw [if_neg fun hc => FlatPool.not_valid_length hc.1, if_pos rfl]
      split_ifs <;> omega
    · simp only [e, false_and, if_false, add_zero]

end Insert

/-- **`table_insert`** puts the item under a fresh `RID`, in the block it should choose. -/
theorem wp_tableInsert {src : Cells} {size : ℕ} (h : TableRep fd fm m) (hpos : 0 < size)
    (hmax : size ≤ 118) :
    wp (flatSem bd) (procBody D H) (tableInsert t src size)
      (fun rid s' => Inserted t s fd m (tabulate (fun k => src k) size) rid s') (t.set s fd fm) := by
  obtain ⟨B, hB, hcount⟩ := h.fsm
  have hmem : ∀ {k : ℕ} {a : Int}, a ∈ B k ↔ fd.Valid a ∧ (fd.blockAt a).freeSpace = k :=
    fun {k a} => by
    rw [← Multiset.count_pos, hcount]
    split_ifs with hc <;> simp [hc]
  refine wp_bind (wp_fsmPopLowerBound hB h.pins.2 (by simp only [pageSize]; omega)
    (fun fm' k a hk hmin ha hp' hB' => ?_)
    fun fm' hnone hp' hB' => ?_)
  · -- a block with room
    obtain ⟨hv, hfs⟩ := hmem.mp ha
    obtain ⟨b, hb, hwf⟩ := h.block a hv
    have hba : fd.blockAt a = b := by rw [FlatPool.blockAt, hb]; rfl
    rw [hba] at hfs
    refine wp_ite (fun e => absurd e hv.ne_null) fun _ => ?_
    refine wp_data (wp_bind (wp_getPage hv (fun _ => FlatPool.fits_of_card (by simp [h.pins.1])) ?_))
    refine wp_bind (wp_block FlatPool.held_get_self.live hb ?_)
    obtain ⟨i, hi, hfree, hwf', hcont⟩ := hwf.newItem (by omega) hpos src
    generalize hnew : b.newItem src size = new at *
    obtain ⟨idx, b'⟩ := new
    simp only at hi hwf' hcont ⊢
    subst hi
    refine wp_bind (wp_store FlatPool.held_get_self.live ?_)
    refine wp_bind (wp_block FlatPool.held_get_self.put.live (x := b') (by simp) ?_)
    rw [Table.update_set_data]
    have hfs' := hwf'.freeSpace_mem
    refine wp_bind (wp_fsmInsert hB' hp' (by omega) fun fm'' hp'' hB'' => ?_)
    refine wp_data (wp_bind (wp_release (by simp) (wp_pure
      ⟨?_, hv.ne_null, ((fd.get a).put a (.block b')).release a, fm'', ?_, ?_, ?_⟩)))
    · rw [h.item, FlatPool.item_of_block hv hb, Block.content_eq_none]
      exact hfree
    · rw [Table.update_set_data]
    · refine Or.inr ⟨hv, rfl, ?_, fun x hx hsx => ?_⟩
      · rw [hba, length_tabulate]
        omega
      · rw [length_tabulate] at hsx
        rw [hba, hfs]
        by_contra hlt
        -- a smaller bucket would have been found first
        have h1 := hmin (fd.blockAt x).freeSpace.toNat (by omega) (by omega)
        have h2 : x ∈ B (fd.blockAt x).freeSpace.toNat := hmem.mpr ⟨hx, by omega⟩
        rw [h1] at h2
        exact Multiset.notMem_zero _ h2
    · exact h.placed hcount hv hb hfs hwf' hcont hp'' hB''
  · -- a new block
    refine wp_ite (fun _ => ?_) fun e => absurd rfl e
    obtain ⟨hwf, hcont₀⟩ := Block.wf_init (Page.toBlock .empty)
    obtain ⟨i, hi, hfree, hwf', hcont⟩ := hwf.newItem
      (by rw [Block.freeSpace_init]; omega) hpos src
    generalize hnew : (Page.toBlock .empty).init.newItem src size = new at *
    obtain ⟨idx, b'⟩ := new
    simp only at hi hwf' hcont ⊢
    subst hi
    have hfs' := hwf'.freeSpace_mem
    have hnv : ∀ j : ℕ, fd.item ⟨fd.length, j⟩ = none := fun j => if_neg fun hc =>
      FlatPool.not_valid_length hc.1
    refine wp_data (wp_bind (wp_fileLength (wp_bind (wp_fileLength ?_))))
    rw [Table.update_set_data]
    refine wp_bind (wp_fsmInsert hB' hp' (by omega) fun fm'' hp'' hB'' => ?_)
    refine wp_data (wp_bind (wp_fileLength (wp_bind (wp_writePageTo h.mayGrow (wp_pure
      ⟨?_, by have := h.length.1; simp only; omega, fd.append (.block b'), fm'', ?_, ?_, ?_⟩)))))
    · rw [h.item, hnv]
    · rw [Table.update_set_data]
    · refine Or.inl ⟨rfl, rfl, fun x hx => ?_⟩
      rw [length_tabulate]
      by_contra hlt
      have h2 : x ∈ B (fd.blockAt x).freeSpace.toNat := hmem.mpr ⟨hx, by omega⟩
      rw [hnone _ (by omega)] at h2
      exact Multiset.notMem_zero _ h2
    · exact h.appended hcount hwf' (hcont.trans (by rw [hcont₀])) hp'' hB''

/-- **`table_delete`** removes the item. -/
theorem wp_tableDelete (h : TableRep fd fm m) (hl : m rid = some l) :
    wp (flatSem bd) (procBody D H) (tableDelete t rid)
      (fun _ s' => ∃ fd' fm', s' = t.set s fd' fm' ∧ fd'.length = fd.length ∧
        TableRep fd' fm' (Function.update m rid none)) (t.set s fd fm) := by
  obtain ⟨B, hB, hcount⟩ := h.fsm
  obtain ⟨hv, b, i, hb, hwf, hidx, hc⟩ := h.live hl
  obtain ⟨a, k⟩ := rid
  simp only at hv hb hidx
  subst hidx
  have hba : fd.blockAt a = b := by rw [FlatPool.blockAt, hb]; rfl
  have hfs := hwf.freeSpace_mem
  obtain ⟨hwf', hcont, -⟩ := hwf.deleteItem (Block.content_eq_some hc).1
  have hfs' := hwf'.freeSpace_mem
  refine wp_data (wp_bind (wp_getPage hv (fun _ => FlatPool.fits_of_card (by simp [h.pins.1])) ?_))
  refine wp_bind (wp_block FlatPool.held_get_self.live hb ?_)
  rw [Table.update_set_data]
  have hmem : a ∈ B b.freeSpace.toNat := by
    rw [← Multiset.count_pos, hcount, if_pos ⟨hv, by rw [hba]; omega⟩]
    exact Nat.one_pos
  refine wp_bind (wp_fsmPop hB h.pins.2 (by omega) hmem fun fm' hp' hB' => ?_)
  refine wp_data (wp_bind (wp_setBlock FlatPool.held_get_self.live hb ?_))
  refine wp_bind (wp_block FlatPool.held_get_self.put.live (x := b.deleteItem i) (by simp) ?_)
  rw [Table.update_set_data]
  refine wp_bind (wp_fsmInsert hB' hp' (by omega) fun fm'' hp'' hB'' => ?_)
  refine wp_data (wp_release (by simp) ⟨((fd.get a).put a (.block (b.deleteItem i))).release a, fm'',
    by rw [Table.update_set_data], rfl, ?_⟩)
  refine h.setBlock (fun y _ => Iff.rfl) hv rfl hwf' (fun j => ?_) hB''
    (fun e y => ?_) ⟨by simp [h.pins.1], hp''⟩ h.length
  · rw [hcont, Function.update_apply, FlatPool.item_of_block hv hb]
  · rw [count_bucket_insert, count_bucket_erase, hcount]
    by_cases ey : y = a
    · subst ey
      simp only [hba, hv, true_and, if_true]
      split_ifs <;> omega
    · simp only [ey, false_and, if_false, Nat.sub_zero, add_zero]

/-! ## States with a table -/

/-- The state is `s₀` but for the table `t`, which holds `m`. -/
structure Table.At (t : Table) (s₀ : Flat) (m : ItemMap) (s : Flat) : Prop where
  rep : TableRep (s t.data) (s t.fsm) m
  only : ∀ i, i ≠ t.data → i ≠ t.fsm → s i = s₀ i

namespace Table.At

variable {s₀ : Flat}

omit ht in
theorem start (h : TableRep (s t.data) (s t.fsm) m) : t.At s m s := ⟨h, fun _ _ _ => rfl⟩

theorem of_set (h : t.At s₀ m s) {m' : ItemMap} (h' : TableRep fd fm m') :
    t.At s₀ m' (t.set s fd fm) :=
  ⟨by rwa [Table.set_data, Table.set_fsm],
    fun i h1 h2 => (Table.set_of_ne t s fd fm h1 h2).trans (h.only i h1 h2)⟩

theorem read (h : t.At s₀ m s) (hl : m rid = some l) (dest : Cells) :
    wp (flatSem bd) (procBody D H) (tableRead t rid dest)
      (fun d s' => d = copyTo l dest ∧ t.At s₀ m s') s := by
  have hw : wp (flatSem bd) (procBody D H) (tableRead t rid dest) _ _ :=
    wp_tableRead (s := s) h.rep hl dest
  rw [Table.set_self] at hw
  refine hw.mono ?_
  rintro d _ ⟨hd, fd', rfl, h'⟩
  exact ⟨hd, h.of_set h'⟩

theorem insert (h : t.At s₀ m s) (src : Cells) {n : ℕ} (hpos : 0 < n) (hmax : n ≤ 118) :
    wp (flatSem bd) (procBody D H) (tableInsert t src n)
      (fun rid s' => m rid = none ∧ rid.blockAddr ≠ -1 ∧
        t.At s₀ (Function.update m rid (some (tabulate (fun k => src k) n))) s') s := by
  have hw : wp (flatSem bd) (procBody D H) (tableInsert t src n) _ _ :=
    wp_tableInsert (s := s) h.rep hpos hmax
  rw [Table.set_self] at hw
  refine hw.mono ?_
  rintro rid _ ⟨h1, h2, fd', fm', rfl, -, h'⟩
  exact ⟨h1, h2, h.of_set h'⟩

theorem delete (h : t.At s₀ m s) (hl : m rid = some l) :
    wp (flatSem bd) (procBody D H) (tableDelete t rid)
      (fun _ s' => t.At s₀ (Function.update m rid none) s') s := by
  have hw : wp (flatSem bd) (procBody D H) (tableDelete t rid) _ _ :=
    wp_tableDelete (s := s) h.rep hl
  rw [Table.set_self] at hw
  refine hw.mono ?_
  rintro _ _ ⟨fd', fm', rfl, -, h'⟩
  exact h.of_set h'

end Table.At

end MyJQL
