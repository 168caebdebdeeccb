import MyJQL.Model.Table

/-!
# Blocks of items

* `itemIDAvailability_compose`, …: the fields of an item identifier; `readScalar_writeScalar`:
  scalars in raw memory;
* `Block.Used`, `Block.Covers`, `Block.content`: the slots in use, the bytes they cover and their
  items; **`Block.Wf`**: the used slots cover exactly the bytes from `tail_ptr` on, each byte once;
* `Wf.insert`, `Wf.remove`: what placing and removing an item amounts to, given the identifiers and
  the bytes afterwards;
* **`Wf.newItem`**, **`Wf.deleteItem`**: the functions of `block.c` do that; `Wf.freeSpace_mem`:
  free space is the number of a bucket;
* **`slotted_block_law`**: together, and `free_space` is the exact bound on the size of an item.
-/

set_option linter.unusedSimpArgs false

namespace MyJQL

/-! ## Item identifiers -/

theorem composeItemID_eq (a o s : Int) : composeItemID a o s =
    ((a % 2).toNat * 2 ^ 15 + (o % 2 ^ 15).toNat) * 2 ^ 15 + (s % 2 ^ 15).toNat := by
  have ho : (o % 2 ^ 15).toNat < 2 ^ 15 := by omega
  have hs : (s % 2 ^ 15).toNat < 2 ^ 15 := by omega
  have h30 : (a % 2).toNat <<< 30 = ((a % 2).toNat <<< 15) <<< 15 := by
    rw [← Nat.shiftLeft_add]
  rw [composeItemID, h30, ← Nat.shiftLeft_or_distrib, ← Nat.shiftLeft_add_eq_or_of_lt ho,
    ← Nat.shiftLeft_add_eq_or_of_lt hs, Nat.shiftLeft_eq, Nat.shiftLeft_eq]

theorem itemIDAvailability_eq (id : ItemID) : itemIDAvailability id = id / 2 ^ 30 % 2 := by
  rw [itemIDAvailability, Nat.shiftRight_eq_div_pow, Nat.and_one_is_mod]

theorem itemIDOffset_eq (id : ItemID) : itemIDOffset id = id / 2 ^ 15 % 2 ^ 15 := by
  rw [itemIDOffset, Nat.shiftRight_eq_div_pow, Nat.and_two_pow_sub_one_eq_mod]

theorem itemIDSize_eq (id : ItemID) : itemIDSize id = id % 2 ^ 15 :=
  Nat.and_two_pow_sub_one_eq_mod ..

@[simp] theorem itemIDAvailability_compose (a o s : Int) :
    itemIDAvailability (composeItemID a o s) = (a % 2).toNat := by
  rw [itemIDAvailability_eq, composeItemID_eq]
  omega

@[simp] theorem itemIDOffset_compose (a o s : Int) :
    itemIDOffset (composeItemID a o s) = (o % 2 ^ 15).toNat := by
  rw [itemIDOffset_eq, composeItemID_eq]
  omega

@[simp] theorem itemIDSize_compose (a o s : Int) :
    itemIDSize (composeItemID a o s) = (s % 2 ^ 15).toNat := by
  rw [itemIDSize_eq, composeItemID_eq]
  omega

theorem itemIDOffset_lt (id : ItemID) : itemIDOffset id < 2 ^ 15 := by
  rw [itemIDOffset_eq]
  omega

theorem itemIDSize_lt (id : ItemID) : itemIDSize id < 2 ^ 15 := by
  rw [itemIDSize_eq]
  omega

/-! ## Scalars -/

theorem readScalar_writeScalar {w : ℕ} (hw : 0 < w) (m : Cells) (o v : Int) :
    readScalar w (writeScalar w m o v) o = v := by
  have h0 : writeScalar w m o v o = .part v 0 := by
    simp only [writeScalar]
    rw [if_pos (by omega)]
    simp
  simp only [readScalar, h0]
  rw [if_pos]
  intro k hk
  simp only [writeScalar]
  rw [if_pos (by omega)]
  simp

theorem readScalar_congr {w : ℕ} {m m' : Cells} {o : Int} (hw : 0 < w)
    (h : ∀ j, o ≤ j → j < o + w → m' j = m j) : readScalar w m' o = readScalar w m o := by
  have h0 : m' o = m o := h o le_rfl (by omega)
  have hk : ∀ k < w, m' (o + k) = m (o + k) := fun k hk => h _ (by omega) (by omega)
  have hbytes : (List.range w).map (fun k : ℕ => (m' (o + k)).toByte) =
      (List.range w).map fun k : ℕ => (m (o + k)).toByte :=
    List.map_congr_left fun k hm => by rw [hk k (List.mem_range.mp hm)]
  simp only [readScalar, h0, hbytes]
  cases m o with
  | byte b => rfl
  | part v k =>
    have : (∀ k < w, m' (o + k) = .part v k) ↔ ∀ k < w, m (o + k) = .part v k :=
      forall₂_congr fun k hkw => by rw [hk k hkw]
    simp only [this]

theorem writeScalar_of_lt {w : ℕ} {m : Cells} {o v j : Int} (h : j < o) :
    writeScalar w m o v j = m j := if_neg (by omega)

theorem writeScalar_of_ge {w : ℕ} {m : Cells} {o v j : Int} (h : o + w ≤ j) :
    writeScalar w m o v j = m j := if_neg (by omega)

theorem readRID_writeRID (m : Cells) (o : Int) (rid : RID) :
    readRID (writeRID m o rid) o = rid := by
  rw [readRID, writeRID, readScalar_writeScalar (by decide)]
  congr 1
  refine (readScalar_congr (by decide) fun j _ h => ?_).trans
    (readScalar_writeScalar (by decide) m o rid.blockAddr)
  exact writeScalar_of_lt (by omega)

theorem readRID_congr {m m' : Cells} {o : Int} (h : ∀ j, o ≤ j → j < o + 10 → m' j = m j) :
    readRID m' o = readRID m o := by
  rw [readRID, readRID]
  congr 1
  · exact readScalar_congr (by decide) fun j h1 h2 => h j h1 (by omega)
  · exact readScalar_congr (by decide) fun j h1 h2 => h j (by omega) (by omega)

namespace Block

variable {b b' : Block} {i j : ℕ} {item : Cells} {len : ℕ}

/-! ## Slots -/

/-- Slot `i` holds an item. -/
def Used (b : Block) (i : ℕ) : Prop := (i : Int) < b.nItems ∧ itemIDAvailability (b.itemID i) = 0

/-- The offset of slot `i`. -/
def offset (b : Block) (i : ℕ) : Int := itemIDOffset (b.itemID i)

/-- The size of slot `i`. -/
def size (b : Block) (i : ℕ) : ℕ := itemIDSize (b.itemID i)

/-- Byte `x` belongs to slot `i`. -/
def Covers (b : Block) (i : ℕ) (x : Int) : Prop := b.offset i ≤ x ∧ x < b.offset i + b.size i

instance (b : Block) (i : ℕ) : Decidable (b.Used i) := by unfold Used; infer_instance

/-- The item in slot `i`. -/
def content (b : Block) (i : ℕ) : Option (List Cell) :=
  if b.Used i then some (tabulate (fun k => b.cells (b.offset i + k)) (b.size i)) else none

/-- **A well-formed block**: the identifiers end at `head_ptr`, and the used slots cover the bytes
from `tail_ptr` on, each exactly once. -/
structure Wf (b : Block) : Prop where
  nItems : 0 ≤ b.nItems
  head : b.headPtr = 6 + 4 * b.nItems
  head_le : b.headPtr ≤ b.tailPtr
  tail_le : b.tailPtr ≤ pageSize
  cover : ∀ x, (b.tailPtr ≤ x ∧ x < pageSize) ↔ ∃ i, b.Used i ∧ b.Covers i x
  disjoint : ∀ x i j, b.Used i → b.Used j → b.Covers i x → b.Covers j x → i = j

theorem content_eq_none : b.content i = none ↔ ¬ b.Used i := by
  unfold content
  split_ifs with h <;> simp [h]

theorem content_eq_some {l : List Cell} (h : b.content i = some l) :
    b.Used i ∧ b.size i = l.length ∧ ∀ k (hk : k < l.length), b.cells (b.offset i + k) = l[k] := by
  unfold content at h
  split_ifs at h with hu
  obtain ⟨h1, h2⟩ := (tabulate_eq_iff _ _ _).mp (Option.some.inj h)
  exact ⟨hu, h1.symm, h2⟩

theorem Wf.range (h : b.Wf) (hu : b.Used i) (hs : b.size i ≠ 0) :
    b.tailPtr ≤ b.offset i ∧ b.offset i + b.size i ≤ pageSize := by
  have h1 := (h.cover (b.offset i)).mpr ⟨i, hu, le_rfl, by omega⟩
  have h2 := (h.cover (b.offset i + b.size i - 1)).mpr ⟨i, hu, by omega, by omega⟩
  omega

/-- **Placing an item** in slot `i`, directly below `tail_ptr`. -/
theorem Wf.insert (h : b.Wf) (hfree : ¬ b.Used i) (hi : (i : Int) < b'.nItems)
    (hnew : ∀ j : ℕ, j ≠ i → ((j : Int) < b'.nItems ↔ (j : Int) < b.nItems))
    (hhead : b'.headPtr = 6 + 4 * b'.nItems) (htail : b'.tailPtr = b.tailPtr - len)
    (hle : b'.headPtr ≤ b'.tailPtr) (hid : b'.itemID i = composeItemID 0 b'.tailPtr len)
    (hids : ∀ j : ℕ, j ≠ i → (j : Int) < b.nItems → b'.itemID j = b.itemID j)
    (hitem : ∀ k < len, b'.cells (b'.tailPtr + k) = item k)
    (hold : ∀ x, b.tailPtr ≤ x → b'.cells x = b.cells x) :
    b'.Wf ∧ b'.content = Function.update b.content i (some (tabulate (fun k => item k) len)) := by
  have ht := h.tail_le
  simp only [pageSize] at ht
  have hoff : b'.offset i = b'.tailPtr := by
    rw [offset, hid, itemIDOffset_compose]
    omega
  have hsize : b'.size i = len := by
    rw [Block.size, hid, itemIDSize_compose]
    omega
  have husedi : b'.Used i := ⟨hi, by rw [hid, itemIDAvailability_compose]; rfl⟩
  have hused : ∀ j, j ≠ i → (b'.Used j ↔ b.Used j) := fun j hj => by
    unfold Used
    rw [hnew j hj]
    exact and_congr_right fun hlt => by rw [hids j hj hlt]
  have hsame : ∀ j, j ≠ i → b.Used j → b'.offset j = b.offset j ∧ b'.size j = b.size j :=
    fun j hj hu => by rw [offset, Block.size, hids j hj hu.1]; exact ⟨rfl, rfl⟩
  have hcov : ∀ j x, j ≠ i → b.Used j → (b'.Covers j x ↔ b.Covers j x) := fun j x hj hu => by
    rw [Covers, Covers, (hsame j hj hu).1, (hsame j hj hu).2]
  have hne : ∀ j, b.Used j → j ≠ i := fun j hu e => hfree (e ▸ hu)
  have hcovi : ∀ x, b'.Covers i x ↔ b'.tailPtr ≤ x ∧ x < b.tailPtr := fun x => by
    rw [Covers, hoff, hsize]
    omega
  refine ⟨⟨by omega, hhead, hle, by simp only [pageSize]; omega, fun x => ⟨fun hx => ?_, ?_⟩,
    fun x j k hj hk hjx hkx => ?_⟩, funext fun j => ?_⟩
  · by_cases hxt : x < b.tailPtr
    · exact ⟨i, husedi, (hcovi x).mpr ⟨hx.1, hxt⟩⟩
    · obtain ⟨j, hu, hc⟩ := (h.cover x).mp ⟨not_lt.mp hxt, hx.2⟩
      exact ⟨j, (hused j (hne j hu)).mpr hu, (hcov j x (hne j hu) hu).mpr hc⟩
  · rintro ⟨j, hu, hc⟩
    by_cases e : j = i
    · subst e
      obtain ⟨h1, h2⟩ := (hcovi x).mp hc
      exact ⟨h1, by simp only [pageSize]; omega⟩
    · have hu' := (hused j e).mp hu
      obtain ⟨h1, h2⟩ := (h.cover x).mpr ⟨j, hu', (hcov j x e hu').mp hc⟩
      exact ⟨by omega, h2⟩
  · -- the new slot lies below the old ones
    have hold' : ∀ l, l ≠ i → b'.Used l → b'.Covers l x → b.tailPtr ≤ x := fun l hl hu hc => by
      have hu' := (hused l hl).mp hu
      exact ((h.cover x).mpr ⟨l, hu', (hcov l x hl hu').mp hc⟩).1
    by_cases e : j = i <;> by_cases e' : k = i
    · rw [e, e']
    · have h1 := ((hcovi x).mp (e ▸ hjx)).2
      have h2 := hold' k e' hk hkx
      omega
    · have h1 := ((hcovi x).mp (e' ▸ hkx)).2
      have h2 := hold' j e hj hjx
      omega
    · have hj' := (hused j e).mp hj
      have hk' := (hused k e').mp hk
      exact h.disjoint x j k hj' hk' ((hcov j x e hj').mp hjx) ((hcov k x e' hk').mp hkx)
  · by_cases e : j = i
    · subst e
      rw [Function.update_self, content, if_pos husedi, hoff, hsize]
      exact congrArg some (tabulate_congr hitem)
    · rw [Function.update_of_ne e, content, content]
      by_cases hu : b.Used j
      · rw [if_pos hu, if_pos ((hused j e).mpr hu), (hsame j e hu).1, (hsame j e hu).2]
        refine congrArg some (tabulate_congr fun k hk => hold _ ?_)
        have := (h.range hu (by omega)).1
        omega
      · rw [if_neg hu, if_neg fun hu' => hu ((hused j e).mp hu')]

theorem Wf.side {x : Int} (h : b.Wf) (hu : b.Used i) (hj : b.Used j) (hji : j ≠ i)
    (hc : b.Covers j x) : b.tailPtr ≤ x ∧ x < pageSize ∧ (b.size i = 0 ∨
      b.offset j < b.offset i ∧ x < b.offset i ∨
        b.offset i ≤ b.offset j ∧ b.offset i + b.size i ≤ x) := by
  obtain ⟨h1, h2⟩ := (h.cover x).mpr ⟨j, hj, hc⟩
  refine ⟨h1, h2, ?_⟩
  by_contra hcon
  push Not at hcon
  obtain ⟨h0, h3, h4⟩ := hcon
  unfold Covers at hc
  -- otherwise the two slots share a byte
  by_cases hlt : b.offset j < b.offset i
  · have := h3 hlt
    exact hji (h.disjoint (b.offset i) j i hj hu ⟨hlt.le, by omega⟩ ⟨le_rfl, by omega⟩)
  · have := h4 (not_lt.mp hlt)
    exact hji (h.disjoint x j i hj hu hc ⟨by omega, this⟩)

/-- `b'` is `b` without the item of slot `i`: the items below it have moved up. -/
structure Removed (b b' : Block) (i : ℕ) : Prop where
  nItems : 0 ≤ b'.nItems
  used : ∀ j, b'.Used j ↔ b.Used j ∧ j ≠ i
  head : b'.headPtr = 6 + 4 * b'.nItems
  head_le : b'.headPtr ≤ b.headPtr
  tail : b'.tailPtr = b.tailPtr + b.size i
  offset : ∀ j, b.Used j → j ≠ i → b'.offset j =
    if b.offset j < b.offset i then b.offset j + b.size i else b.offset j
  size : ∀ j, b.Used j → j ≠ i → b'.size j = b.size j
  moved : ∀ x, b.tailPtr + b.size i ≤ x → x < b.offset i + b.size i →
    b'.cells x = b.cells (x - b.size i)
  kept : ∀ x, b.tailPtr ≤ x → b.offset i + b.size i ≤ x → b'.cells x = b.cells x

section Removed

variable {x : Int}

theorem Removed.covers (hr : b.Removed b' i) (hj : b.Used j) (hji : j ≠ i) : b'.Covers j x ↔
    b.Covers j (if b.offset j < b.offset i then x - b.size i else x) := by
  rw [Covers, Covers, hr.offset j hj hji, hr.size j hj hji]
  split_ifs <;> omega

theorem Removed.exists_covers (hr : b.Removed b' i) (h : b.Wf) (hu : b.Used i)
    (hx : b'.tailPtr ≤ x) (hxp : x < pageSize) : ∃ j, b'.Used j ∧ b'.Covers j x := by
  have ht := hr.tail
  by_cases hx' : x < b.offset i + b.size i
  · obtain ⟨j, hj, hc⟩ := (h.cover (x - b.size i)).mp (by omega)
    have hji : j ≠ i := by
      rintro rfl
      unfold Covers at hc
      omega
    refine ⟨j, (hr.used j).mpr ⟨hj, hji⟩, (hr.covers hj hji).mpr ?_⟩
    rw [if_pos (by unfold Covers at hc; omega)]
    exact hc
  · obtain ⟨j, hj, hc⟩ := (h.cover x).mp (by omega)
    have hji : j ≠ i := by
      rintro rfl
      unfold Covers at hc
      omega
    obtain ⟨-, -, h1⟩ := h.side hu hj hji hc
    refine ⟨j, (hr.used j).mpr ⟨hj, hji⟩, (hr.covers hj hji).mpr ?_⟩
    split_ifs with hlt
    · have h0 : b.size i = 0 := by omega
      rw [h0]
      simpa using hc
    · exact hc

theorem Removed.range (hr : b.Removed b' i) (h : b.Wf) (hu : b.Used i) (hj' : b'.Used j)
    (hc : b'.Covers j x) : b'.tailPtr ≤ x ∧ x < pageSize := by
  have ht := hr.tail
  have hrange : b.size i ≠ 0 → b.tailPtr ≤ b.offset i ∧ b.offset i + b.size i ≤ pageSize :=
    h.range hu
  obtain ⟨hj, hji⟩ := (hr.used j).mp hj'
  obtain ⟨h1, h2, h3⟩ := h.side hu hj hji ((hr.covers hj hji).mp hc)
  by_cases h0 : b.size i = 0
  · split_ifs at h1 h2 <;> omega
  · have := hrange h0
    split_ifs at h1 h2 h3 <;> omega

theorem Removed.disjoint {k : ℕ} (hr : b.Removed b' i) (h : b.Wf) (hu : b.Used i)
    (hj' : b'.Used j) (hk' : b'.Used k) (hjx : b'.Covers j x) (hkx : b'.Covers k x) : j = k := by
  obtain ⟨hj, hji⟩ := (hr.used j).mp hj'
  obtain ⟨hk, hki⟩ := (hr.used k).mp hk'
  have hjc := (hr.covers hj hji).mp hjx
  have hkc := (hr.covers hk hki).mp hkx
  obtain ⟨-, -, h1⟩ := h.side hu hj hji hjc
  obtain ⟨-, -, h2⟩ := h.side hu hk hki hkc
  by_cases h0 : b.size i = 0
  · simp only [h0, Nat.cast_zero, sub_zero, ite_self] at hjc hkc
    exact h.disjoint x j k hj hk hjc hkc
  · split_ifs at hjc hkc h1 h2 with e1 e2 e2
    · exact h.disjoint _ j k hj hk hjc hkc
    · omega
    · omega
    · exact h.disjoint x j k hj hk hjc hkc

theorem Removed.cells (hr : b.Removed b' i) (h : b.Wf) (hu : b.Used i) (hj : b.Used j)
    (hji : j ≠ i) (hc : b.Covers j x) :
    b'.cells (if b.offset j < b.offset i then x + b.size i else x) = b.cells x := by
  obtain ⟨h1, -, h3⟩ := h.side hu hj hji hc
  by_cases h0 : b.size i = 0
  · have hm := hr.moved x
    have hk := hr.kept x
    simp only [h0, Nat.cast_zero, add_zero, sub_zero, ite_self] at hm hk ⊢
    by_cases hx : x < b.offset i
    · exact hm h1 hx
    · exact hk h1 (not_lt.mp hx)
  · split_ifs with hlt
    · rw [hr.moved _ (by omega) (by omega), add_sub_cancel_right]
    · exact hr.kept _ h1 (by omega)

theorem Removed.content (hr : b.Removed b' i) (h : b.Wf) (hu : b.Used i) :
    b'.content = Function.update b.content i none := by
  funext j
  by_cases e : j = i
  · subst e
    rw [Function.update_self, Block.content, if_neg fun h' => ((hr.used j).mp h').2 rfl]
  rw [Function.update_of_ne e, Block.content, Block.content]
  by_cases hj : b.Used j
  · rw [if_pos hj, if_pos ((hr.used j).mpr ⟨hj, e⟩), hr.size j hj e, hr.offset j hj e]
    refine congrArg some (tabulate_congr fun k hk => ?_)
    have hc := hr.cells h hu hj e (x := b.offset j + k) ⟨by omega, by omega⟩
    rw [← hc]
    congr 1
    split_ifs <;> omega
  · rw [if_neg hj, if_neg fun h' => hj ((hr.used j).mp h').1]

end Removed

/-- **Removing the item** of slot `i`. -/
theorem Wf.remove (h : b.Wf) (hu : b.Used i) (hr : b.Removed b' i) :
    b'.Wf ∧ b'.content = Function.update b.content i none := by
  have h1 := hr.tail
  have h2 := hr.head_le
  have h3 := h.tail_le
  have h4 := h.head_le
  refine ⟨⟨hr.nItems, hr.head, by omega, ?_, fun x => ⟨fun hx => hr.exists_covers h hu hx.1 hx.2, ?_⟩,
    fun x j k => hr.disjoint h hu⟩, hr.content h hu⟩
  · by_cases h0 : b.size i = 0
    · omega
    · have := h.range hu h0
      omega
  · rintro ⟨j, hj, hc⟩
    exact hr.range h hu hj hc

/-! ## The header -/

theorem cells_setShort_of_ge {o v x : Int} (h : o + 2 ≤ x) : (b.setShort o v).cells x = b.cells x :=
  writeScalar_of_ge h

theorem toInt_short {v : Int} (h : -2 ^ 15 ≤ v) (h' : v < 2 ^ 15) : (BitVec.ofInt 16 v).toInt = v :=
  BitVec.toInt_ofInt_eq_self (by decide) h h'

theorem readScalar_setShort_of_ne (b : Block) {o p : Int} (v : Int) (h : o + 2 ≤ p ∨ p + 2 ≤ o) :
    readScalar 2 (b.setShort o v).cells p = readScalar 2 b.cells p :=
  readScalar_congr (by decide) fun j h1 h2 =>
    h.elim (fun h => writeScalar_of_ge (by push_cast at h2 ⊢; omega))
      fun h => writeScalar_of_lt (by push_cast at h2; omega)

@[simp] theorem nItems_setHeadPtr (v : Int) : (b.setHeadPtr v).nItems = b.nItems :=
  b.readScalar_setShort_of_ne v (by decide)
@[simp] theorem nItems_setTailPtr (v : Int) : (b.setTailPtr v).nItems = b.nItems :=
  b.readScalar_setShort_of_ne v (by decide)
@[simp] theorem headPtr_setNItems (v : Int) : (b.setNItems v).headPtr = b.headPtr :=
  b.readScalar_setShort_of_ne v (by decide)
@[simp] theorem headPtr_setTailPtr (v : Int) : (b.setTailPtr v).headPtr = b.headPtr :=
  b.readScalar_setShort_of_ne v (by decide)
@[simp] theorem tailPtr_setNItems (v : Int) : (b.setNItems v).tailPtr = b.tailPtr :=
  b.readScalar_setShort_of_ne v (by decide)
@[simp] theorem tailPtr_setHeadPtr (v : Int) : (b.setHeadPtr v).tailPtr = b.tailPtr :=
  b.readScalar_setShort_of_ne v (by decide)

theorem nItems_setNItems (v : Int) : (b.setNItems v).nItems = (BitVec.ofInt 16 v).toInt :=
  readScalar_writeScalar (by decide) _ _ _

theorem headPtr_setHeadPtr (v : Int) : (b.setHeadPtr v).headPtr = (BitVec.ofInt 16 v).toInt :=
  readScalar_writeScalar (by decide) _ _ _

theorem tailPtr_setTailPtr (v : Int) : (b.setTailPtr v).tailPtr = (BitVec.ofInt 16 v).toInt :=
  readScalar_writeScalar (by decide) _ _ _

theorem header_congr {d : Block} (h : ∀ x < 6, d.cells x = b.cells x) :
    d.nItems = b.nItems ∧ d.headPtr = b.headPtr ∧ d.tailPtr = b.tailPtr :=
  ⟨readScalar_congr (by decide) fun x _ h2 => h x (by push_cast at h2; omega),
    readScalar_congr (by decide) fun x _ h2 => h x (by push_cast at h2; omega),
    readScalar_congr (by decide) fun x _ h2 => h x (by push_cast at h2; omega)⟩

/-! ## Identifiers -/

theorem itemID_setItemID_self (b : Block) (i a o s : Int) :
    (b.setItemID i (composeItemID a o s)).itemID i = composeItemID a o s := by
  rw [itemID, setItemID, readScalar_writeScalar (by decide), Int.emod_eq_of_lt (Int.natCast_nonneg _),
    Int.toNat_natCast]
  rw [composeItemID_eq]
  push_cast
  omega

theorem itemID_congr {i : Int}
    (h : ∀ x, 6 + 4 * i ≤ x → x < 6 + 4 * i + 4 → b'.cells x = b.cells x) :
    b'.itemID i = b.itemID i := by
  rw [itemID, itemID, readScalar_congr (by decide) h]

theorem cells_setItemID_of_ne {i : Int} {id : ItemID} {x : Int}
    (h : x < 6 + 4 * i ∨ 6 + 4 * i + 4 ≤ x) : (b.setItemID i id).cells x = b.cells x :=
  h.elim writeScalar_of_lt writeScalar_of_ge

theorem itemID_setItemID_of_ne {i j : Int} {v : ItemID} (h : j ≠ i) :
    (b.setItemID i v).itemID j = b.itemID j :=
  itemID_congr fun x h1 h2 => cells_setItemID_of_ne (by omega)

theorem header_setItemID (b : Block) (i : ℕ) (id : ItemID) : (b.setItemID i id).nItems = b.nItems ∧
    (b.setItemID i id).headPtr = b.headPtr ∧ (b.setItemID i id).tailPtr = b.tailPtr :=
  header_congr fun _ hx => cells_setItemID_of_ne (by omega)

/-- Two blocks with the same bytes after the header have the same identifiers. -/
theorem itemID_eq_of_cells (h : ∀ x, 6 ≤ x → b'.cells x = b.cells x) (i : ℕ) :
    b'.itemID i = b.itemID i :=
  itemID_congr fun x h1 _ => h x (by omega)

theorem firstAvailable_some (h : b.firstAvailable = some i) :
    (i : Int) < b.nItems ∧ itemIDAvailability (b.itemID i) = 1 := by
  have h1 := List.mem_range.mp (List.mem_of_find?_eq_some h)
  exact ⟨by omega, by simpa using List.find?_some h⟩

/-! ## `new_item` -/

theorem cells_putBytes (h : 6 ≤ b.tailPtr) (item : Cells) (len : ℕ) (x : Int) :
    (b.putBytes item len).cells x =
      if b.tailPtr ≤ x ∧ x < b.tailPtr + len then item (x - b.tailPtr) else b.cells x := by
  have key : ∀ c : Block, c = b.putBytes item len → ∀ x, c.cells x =
      if b.tailPtr ≤ x ∧ x < b.tailPtr + len then item (x - b.tailPtr) else b.cells x := by
    rintro c rfl
    refine forUp_ind (Nat.zero_le len) (fun n (c : Block) => ∀ x, c.cells x =
      if b.tailPtr ≤ x ∧ x < b.tailPtr + n then item (x - b.tailPtr) else b.cells x) ?_ ?_
    · intro x
      rw [if_neg (by omega)]
    · intro n c _ _ hc x
      have ht : c.tailPtr = b.tailPtr :=
        (header_congr fun x hx => (hc x).trans (if_neg (by omega))).2.2
      simp only [setByte, Function.update_apply, hc, ht]
      by_cases e : x = b.tailPtr + n
      · subst e
        rw [if_pos rfl, if_pos (by omega)]
        congr 1
        omega
      · rw [if_neg e]
        exact if_congr (by omega) rfl rfl
  exact key _ rfl x

/-- The identifier and the bytes of an item are stored. -/
def place (b : Block) (i : ℕ) (item : Cells) (len : ℕ) : Block :=
  ((b.setTailPtr (b.tailPtr - len)).setItemID i
    (composeItemID 0 (b.setTailPtr (b.tailPtr - len)).tailPtr len)).putBytes item len

/-- What is stored with an item that stays behind the header. -/
theorem place_spec (len : ℕ) (h6 : 6 + len ≤ b.tailPtr) (ht : b.tailPtr ≤ pageSize) (i : ℕ)
    (item : Cells) :
    (b.place i item len).nItems = b.nItems ∧ (b.place i item len).headPtr = b.headPtr ∧
      (b.place i item len).tailPtr = b.tailPtr - len ∧
      (∀ x : Int, 6 ≤ x → (x < 6 + 4 * i ∨ 6 + 4 * i + 4 ≤ x) → (b.place i item len).cells x =
        if b.tailPtr - len ≤ x ∧ x < b.tailPtr then item (x - (b.tailPtr - len)) else b.cells x) ∧
      (10 + 4 * i ≤ b.tailPtr - len →
        (b.place i item len).itemID i = composeItemID 0 (b.tailPtr - len) len) := by
  simp only [pageSize] at ht
  set c := b.setTailPtr (b.tailPtr - len) with hc
  have hct : c.tailPtr = b.tailPtr - len := (tailPtr_setTailPtr _).trans (toInt_short (by omega) (by omega))
  set d := c.setItemID i (composeItemID 0 c.tailPtr len) with hd
  obtain ⟨hd1, hd2, hd3⟩ := header_setItemID c i (composeItemID 0 c.tailPtr len)
  have hp : ∀ x, (b.place i item len).cells x = if b.tailPtr - len ≤ x ∧ x < b.tailPtr then
      item (x - (b.tailPtr - len)) else d.cells x := fun x => by
    refine (cells_putBytes (b := d) (by rw [hd3, hct]; omega) item len x).trans ?_
    rw [hd3, hct]
    exact if_congr (by omega) rfl rfl
  obtain ⟨h1, h2, h3⟩ := header_congr (d := b.place i item len) (b := d)
    fun x hx => (hp x).trans (if_neg (by omega))
  refine ⟨h1.trans (hd1.trans (nItems_setTailPtr _)), h2.trans (hd2.trans (headPtr_setTailPtr _)),
    h3.trans (hd3.trans hct), fun x hx hxi => ?_, fun hle => ?_⟩
  · rw [hp, hd, cells_setItemID_of_ne hxi, hc]
    exact if_congr Iff.rfl rfl (cells_setShort_of_ge (by omega))
  · refine (itemID_congr fun x _ hx => (hp x).trans (if_neg (by omega))).trans ?_
    rw [itemID_setItemID_self, hct]

theorem newItem_some (h : b.firstAvailable = some i) (item : Cells) (len : ℕ) :
    b.newItem item len = ((i : Int), b.place i item len) := by
  rw [Block.newItem, h]
  rfl

/-- The block with `n + 1` slots. -/
def addSlot (b : Block) (n : ℕ) : Block := (b.setHeadPtr (b.headPtr + 4)).setNItems (n + 1)

theorem writeScalar_comm (w w' : ℕ) (m : Cells) {o o' : Int} (v v' : Int)
    (h : o + w ≤ o' ∨ o' + w' ≤ o) :
    writeScalar w (writeScalar w' m o' v') o v = writeScalar w' (writeScalar w m o v) o' v' := by
  funext j
  simp only [writeScalar]
  split_ifs <;> first | rfl | omega

/-- A new slot may be added before its identifier is stored. -/
theorem newItem_none (h : b.firstAvailable = none) {n : ℕ} (hn : b.nItems = n) (item : Cells)
    (len : ℕ) : b.newItem item len =
      (((b.addSlot n).place n item len).nItems - 1, (b.addSlot n).place n item len) := by
  have hc : ∀ (c : Block) (v : Int) (id : ItemID), ((c.setTailPtr v).setItemID n id).setNItems (n + 1) =
      ((c.setNItems (n + 1)).setTailPtr v).setItemID n id := fun c v id => by
    simp only [setNItems, setTailPtr, setShort, setItemID]
    rw [writeScalar_comm 2 4 _ _ _ (Or.inl (by push_cast; omega)),
      writeScalar_comm 2 2 _ _ _ (Or.inl (by decide))]
  rw [Block.newItem, h]
  simp only [addSlot, place, nItems_setTailPtr, nItems_setHeadPtr, hn, tailPtr_setNItems,
    (header_setItemID _ n _).1, hc, tailPtr_setHeadPtr, tailPtr_setTailPtr]

/-- `free_space` on a well-formed block, whose pointers leave no room to wrap. -/
theorem Wf.freeSpace_eq (h : b.Wf) : b.freeSpace = match b.firstAvailable with
    | some _ => b.tailPtr - b.headPtr
    | none => max 0 (b.tailPtr - b.headPtr - 4) := by
  have h1 := h.nItems
  have h2 := h.head
  have h3 := h.head_le
  have h4 := h.tail_le
  simp only [pageSize] at h4
  rw [freeSpace, toInt_short (by omega) (by omega), toInt_short (by omega) (by omega)]
  cases b.firstAvailable with
  | some i => rfl
  | none =>
    simp only
    split_ifs <;> omega

theorem Wf.addSlot_spec (h : b.Wf) {n : ℕ} (hn : b.nItems = n) :
    (b.addSlot n).nItems = n + 1 ∧ (b.addSlot n).headPtr = b.headPtr + 4 ∧
      (b.addSlot n).tailPtr = b.tailPtr ∧ ∀ x, 6 ≤ x → (b.addSlot n).cells x = b.cells x := by
  have h2 := h.head
  have h3 := h.head_le
  have h4 := h.tail_le
  simp only [pageSize] at h4
  refine ⟨?_, ?_, ?_, fun x hx => ?_⟩
  · rw [addSlot, nItems_setNItems, toInt_short (by omega) (by omega)]
  · rw [addSlot, headPtr_setNItems, headPtr_setHeadPtr, toInt_short (by omega) (by omega)]
  · rw [addSlot, tailPtr_setNItems, tailPtr_setHeadPtr]
  · exact (cells_setShort_of_ge (by omega)).trans (cells_setShort_of_ge (by omega))

/-- **`new_item`** places the item in a slot not in use. -/
theorem Wf.newItem (h : b.Wf) (hlen : (len : Int) ≤ b.freeSpace) (hpos : 0 < len) (item : Cells) :
    ∃ i : ℕ, (b.newItem item len).1 = i ∧ ¬ b.Used i ∧ (b.newItem item len).2.Wf ∧
      (b.newItem item len).2.content =
        Function.update b.content i (some (tabulate (fun k => item k) len)) := by
  have hhead := h.head
  have hle := h.head_le
  have htail := h.tail_le
  obtain ⟨n, hn⟩ := Int.eq_ofNat_of_zero_le h.nItems
  rw [h.freeSpace_eq] at hlen
  cases hf : b.firstAvailable with
  | some i =>
    rw [hf] at hlen
    simp only at hlen
    obtain ⟨hi, hav⟩ := firstAvailable_some hf
    have hu : ¬ b.Used i := fun hu => by rw [hu.2] at hav; exact absurd hav (by decide)
    obtain ⟨p1, p2, p3, p4, p5⟩ := place_spec len (by omega) htail i item (b := b)
    rw [newItem_some hf]
    refine ⟨i, rfl, hu, h.insert hu (p1 ▸ hi) (fun j _ => by rw [p1]) (by rw [p1, p2, hhead]) p3
      (by rw [p2, p3]; omega) (p3 ▸ p5 (by omega)) (fun j hj hjn => ?_) (fun k hk => ?_) fun x hx => ?_⟩
    · exact itemID_congr fun x h1 h2 => (p4 x (by omega) (by omega)).trans (if_neg (by omega))
    · rw [p3, p4 _ (by omega) (by omega), if_pos (by omega)]
      congr 1
      omega
    · exact (p4 x (by omega) (by omega)).trans (if_neg (by omega))
  | none =>
    rw [hf] at hlen
    simp only at hlen
    obtain ⟨a1, a2, a3, a4⟩ := h.addSlot_spec hn
    have hu : ¬ b.Used n := fun hu => by have := hu.1; omega
    obtain ⟨p1, p2, p3, p4, p5⟩ := place_spec len (by omega) (by omega) n item
      (b := b.addSlot n)
    rw [newItem_none hf hn]
    refine ⟨n, by simp only [p1, a1]; omega, hu, h.insert hu (by rw [p1, a1]; omega)
      (fun j hj => by rw [p1, a1]; omega) (by rw [p1, p2, a1, a2]; omega) (p3.trans (by rw [a3]))
      (by rw [p2, p3, a2, a3]; omega) (p3 ▸ p5 (by omega)) (fun j hj hjn => ?_) (fun k hk => ?_)
      fun x hx => ?_⟩
    · exact itemID_congr fun x h1 h2 => (p4 x (by omega) (by omega)).trans
        ((if_neg (by omega)).trans (a4 x (by omega)))
    · rw [p3, p4 _ (by omega) (by omega), if_pos (by omega)]
      congr 1
      omega
    · exact (p4 x (by omega) (by omega)).trans ((if_neg (by omega)).trans (a4 x (by omega)))

/-! ## `delete_item` -/

/-- The sliding loop does not reach the header of a well-formed block. -/
theorem slide_eq (h : 6 ≤ b.tailPtr) {off : Int} (ho : off < 2 ^ 15) (len : ℕ) :
    b.slide off len = forUp 0 (off - b.tailPtr).toNat
      (fun i b => b.setByte (off + len - 1 - i) (b.cells (off - 1 - i))) b := by
  refine forWhile_eq_forUp (fun c => ∀ x < 6, c.cells x = b.cells x) (fun i c hc => ?_)
    (fun i c _ hi hc x hx => ?_) (fun _ _ => rfl) (by omega)
  · rw [decide_eq_true_eq, (header_congr hc).2.2]
    omega
  · exact (Function.update_of_ne (by omega) _ _).trans (hc x hx)

theorem cells_slide (h : 6 ≤ b.tailPtr) {off : Int} (ho : off < 2 ^ 15) (len : ℕ) (x : Int) :
    (b.slide off len).cells x =
      if b.tailPtr + len ≤ x ∧ x < off + len then b.cells (x - len) else b.cells x := by
  rw [slide_eq h ho]
  have key : ∀ c : Block, c = forUp 0 (off - b.tailPtr).toNat
      (fun i b => b.setByte (off + len - 1 - i) (b.cells (off - 1 - i))) b → ∀ x, c.cells x =
      if off + len - (off - b.tailPtr).toNat ≤ x ∧ x < off + len then b.cells (x - len)
      else b.cells x := by
    rintro c rfl
    refine forUp_ind (Nat.zero_le _) (fun n (c : Block) => ∀ x, c.cells x =
      if off + len - n ≤ x ∧ x < off + len then b.cells (x - len) else b.cells x) ?_ ?_
    · intro x
      rw [if_neg (by omega)]
    · intro n c _ _ hc x
      simp only [setByte, Function.update_apply, hc]
      by_cases e : x = off + len - 1 - n
      · subst e
        rw [if_pos rfl, if_neg (by omega), if_pos (by omega)]
        congr 1
        omega
      · rw [if_neg e]
        exact if_congr (by omega) rfl rfl
  rw [key _ rfl x]
  by_cases h : b.tailPtr ≤ off
  · exact if_congr (by omega) rfl rfl
  · rw [if_neg (by omega), if_neg (by omega)]

/-- What the offset loop does: the used items below `off` move up by `len`. -/
theorem shiftOffsets_spec (hn : b.nItems < 2 ^ 15) (off : Int) (len : ℕ) :
    (∀ j : ℕ, (j : Int) < b.nItems → (b.shiftOffsets off len).itemID j =
      if b.offset j < off ∧ itemIDAvailability (b.itemID j) = 0 then
        composeItemID 0 (b.offset j + len) (b.size j)
      else b.itemID j) ∧
    ∀ x, x < 6 ∨ 6 + 4 * b.nItems ≤ x → (b.shiftOffsets off len).cells x = b.cells x := by
  have heq : b.shiftOffsets off len = forUp 0 b.nItems.toNat (fun i b =>
      if (itemIDOffset (b.itemID i) : Int) < off ∧ itemIDAvailability (b.itemID i) = 0 then
        b.setItemID i (composeItemID (itemIDAvailability (b.itemID i))
          (itemIDOffset (b.itemID i) + len) (itemIDSize (b.itemID i)))
      else b) b := by
    refine forWhile_eq_forUp (fun c => ∀ x < 6, c.cells x = b.cells x) (fun i c hc => ?_)
      (fun i c _ hi hc x hx => ?_) (fun _ _ => rfl) (by omega)
    · rw [decide_eq_true_eq, (header_congr hc).1]
      omega
    · simp only
      split_ifs
      · exact (cells_setItemID_of_ne (by omega)).trans (hc x hx)
      · exact hc x hx
  rw [heq]
  have key : ∀ c : Block, c = forUp 0 b.nItems.toNat (fun i b =>
      if (itemIDOffset (b.itemID i) : Int) < off ∧ itemIDAvailability (b.itemID i) = 0 then
        b.setItemID i (composeItemID (itemIDAvailability (b.itemID i))
          (itemIDOffset (b.itemID i) + len) (itemIDSize (b.itemID i)))
      else b) b →
      (∀ j : ℕ, (j : Int) < b.nItems → c.itemID j =
        if j < b.nItems.toNat ∧ b.offset j < off ∧ itemIDAvailability (b.itemID j) = 0 then
          composeItemID 0 (b.offset j + len) (b.size j)
        else b.itemID j) ∧
      ∀ x, x < 6 ∨ 6 + 4 * b.nItems ≤ x → c.cells x = b.cells x := by
    rintro c rfl
    refine forUp_ind (Nat.zero_le _) (fun m (c : Block) =>
      (∀ j : ℕ, (j : Int) < b.nItems → c.itemID j =
        if j < m ∧ b.offset j < off ∧ itemIDAvailability (b.itemID j) = 0 then
          composeItemID 0 (b.offset j + len) (b.size j)
        else b.itemID j) ∧
      ∀ x, x < 6 ∨ 6 + 4 * b.nItems ≤ x → c.cells x = b.cells x) ⟨fun j _ => ?_, fun _ _ => rfl⟩ ?_
    · rw [if_neg (by omega)]
    · rintro m c - hm ⟨h4, h5⟩
      have hmid : c.itemID m = b.itemID m := by rw [h4 m (by omega), if_neg (by omega)]
      by_cases hc : (itemIDOffset (c.itemID m) : Int) < off ∧ itemIDAvailability (c.itemID m) = 0
      · rw [if_pos hc]
        rw [hmid] at hc ⊢
        refine ⟨fun j hj => ?_, fun x hx => ?_⟩
        · by_cases e : j = m
          · subst e
            rw [itemID_setItemID_self, if_pos ⟨Nat.lt_succ_self _, hc⟩, hc.2]
            rfl
          · rw [itemID_setItemID_of_ne (by exact_mod_cast e), h4 j hj]
            exact if_congr (by omega) rfl rfl
        · rw [cells_setItemID_of_ne (by omega), h5 x hx]
      · rw [if_neg hc]
        rw [hmid] at hc
        refine ⟨fun j hj => ?_, h5⟩
        rw [h4 j hj]
        by_cases e : j = m
        · subst e
          rw [if_neg (by omega), if_neg fun h => hc h.2]
        · exact if_congr (by omega) rfl rfl
  obtain ⟨h4, h5⟩ := key _ rfl
  refine ⟨fun j hj => ?_, h5⟩
  rw [h4 j hj]
  exact if_congr (by rw [and_iff_right]; omega) rfl rfl

/-- The block whose slot `i` has been given up, before any byte moves. -/
def vacate (b : Block) (i : ℕ) : Block :=
  if (i : Int) = b.nItems - 1 then
    (b.setNItems (b.nItems - 1)).setHeadPtr ((b.setNItems (b.nItems - 1)).headPtr - 4)
  else b.setItemID i (composeItemID 1 0 0)

/-- The block whose items below slot `i` have moved up. -/
def closeGap (b : Block) (i : ℕ) : Block :=
  ((b.vacate i).slide (b.offset i) (b.size i)).shiftOffsets (b.offset i) (b.size i)

theorem deleteItem_eq (b : Block) (i : ℕ) :
    b.deleteItem i = (b.closeGap i).setTailPtr ((b.closeGap i).tailPtr + b.size i) := rfl

theorem Wf.vacate (h : b.Wf) (hu : b.Used i) :
    0 ≤ (b.vacate i).nItems ∧ (b.vacate i).headPtr = 6 + 4 * (b.vacate i).nItems ∧
      (b.vacate i).nItems ≤ b.nItems ∧ (b.vacate i).tailPtr = b.tailPtr ∧
      (∀ j : ℕ, j ≠ i → ((j : Int) < (b.vacate i).nItems ↔ (j : Int) < b.nItems)) ∧
      (∀ j : ℕ, j ≠ i → (b.vacate i).itemID j = b.itemID j) ∧ ¬ (b.vacate i).Used i ∧
      ∀ x, 6 + 4 * b.nItems ≤ x → (b.vacate i).cells x = b.cells x := by
  have hi := hu.1
  have hhead := h.head
  have hle := h.head_le
  have htl := h.tail_le
  have hn0 := h.nItems
  simp only [pageSize] at htl
  unfold Block.vacate
  split_ifs with hlast
  · have hn : ((b.setNItems (b.nItems - 1)).setHeadPtr
        ((b.setNItems (b.nItems - 1)).headPtr - 4)).nItems = b.nItems - 1 := by
      rw [nItems_setHeadPtr, nItems_setNItems, toInt_short (by omega) (by omega)]
    have hc : ∀ x, 6 ≤ x → ((b.setNItems (b.nItems - 1)).setHeadPtr
        ((b.setNItems (b.nItems - 1)).headPtr - 4)).cells x = b.cells x := fun x hx =>
      (cells_setShort_of_ge (by omega)).trans (cells_setShort_of_ge (by omega))
    refine ⟨by omega, ?_, by omega, by rw [tailPtr_setHeadPtr, tailPtr_setNItems], fun j hj => by omega,
      fun j _ => itemID_eq_of_cells hc j, fun hu' => by have := hu'.1; omega, fun x hx => hc x (by omega)⟩
    rw [hn, headPtr_setHeadPtr, headPtr_setNItems, toInt_short (by omega) (by omega)]
    omega
  · obtain ⟨h1, h2, h3⟩ := header_setItemID b i (composeItemID 1 0 0)
    refine ⟨h1 ▸ hn0, by rw [h1, h2, hhead], h1.le, h3, fun j _ => by rw [h1],
      fun j hj => itemID_setItemID_of_ne (by exact_mod_cast hj), fun hu' => ?_,
      fun x hx => cells_setItemID_of_ne (by omega)⟩
    have := hu'.2
    rw [itemID_setItemID_self, itemIDAvailability_compose] at this
    exact absurd this (by decide)

theorem Wf.slide_spec (h : b.Wf) (hu : b.Used i) :
    ((b.vacate i).slide (b.offset i) (b.size i)).nItems = (b.vacate i).nItems ∧
      ((b.vacate i).slide (b.offset i) (b.size i)).headPtr = (b.vacate i).headPtr ∧
      ((b.vacate i).slide (b.offset i) (b.size i)).tailPtr = b.tailPtr ∧
      (∀ j : ℕ, (j : Int) < b.nItems →
        ((b.vacate i).slide (b.offset i) (b.size i)).itemID j = (b.vacate i).itemID j) ∧
      ∀ x, 6 + 4 * b.nItems ≤ x → ((b.vacate i).slide (b.offset i) (b.size i)).cells x =
        if b.tailPtr + b.size i ≤ x ∧ x < b.offset i + b.size i then b.cells (x - b.size i)
        else b.cells x := by
  obtain ⟨v1, v2, v3, v4, v5, v6, v7, v8⟩ := h.vacate hu
  have hn := h.nItems
  have hhead := h.head
  have hle := h.head_le
  have ho : b.offset i < 2 ^ 15 := by
    have := itemIDOffset_lt (b.itemID i)
    simp only [offset]
    omega
  have hcells := cells_slide (b := b.vacate i) (by omega) ho (b.size i)
  rw [v4] at hcells
  obtain ⟨h1, h2, h3⟩ := header_congr (d := (b.vacate i).slide (b.offset i) (b.size i))
    (b := b.vacate i) fun x hx => (hcells x).trans (if_neg (by omega))
  refine ⟨h1, h2, h3.trans v4, fun j hj => itemID_congr fun x _ h2 =>
    (hcells x).trans (if_neg (by omega)), fun x hx => ?_⟩
  rw [hcells]
  split_ifs with hc
  · exact v8 _ (by omega)
  · exact v8 _ hx

/-- What `delete_item` leaves before `tail_ptr` is set. -/
theorem Wf.closeGap_spec (h : b.Wf) (hu : b.Used i) :
    (b.closeGap i).nItems = (b.vacate i).nItems ∧ (b.closeGap i).headPtr = (b.vacate i).headPtr ∧
      (b.closeGap i).tailPtr = b.tailPtr ∧
      (∀ j : ℕ, (j : Int) < (b.vacate i).nItems → j ≠ i → (b.closeGap i).itemID j =
        if b.offset j < b.offset i ∧ itemIDAvailability (b.itemID j) = 0 then
          composeItemID 0 (b.offset j + b.size i) (b.size j)
        else b.itemID j) ∧ ¬ (b.closeGap i).Used i ∧
      ∀ x, 6 + 4 * b.nItems ≤ x → (b.closeGap i).cells x =
        if b.tailPtr + b.size i ≤ x ∧ x < b.offset i + b.size i then b.cells (x - b.size i)
        else b.cells x := by
  obtain ⟨v1, v2, v3, v4, v5, v6, v7, v8⟩ := h.vacate hu
  obtain ⟨d1, d2, d3, d4, d5⟩ := h.slide_spec hu
  have hhead := h.head
  have hle := h.head_le
  have htl := h.tail_le
  simp only [pageSize] at htl
  obtain ⟨s4, s5⟩ := shiftOffsets_spec (b := (b.vacate i).slide (b.offset i) (b.size i)) (by omega)
    (b.offset i) (b.size i)
  obtain ⟨h1, h2, h3⟩ := header_congr (d := b.closeGap i) fun x hx => s5 x (Or.inl hx)
  refine ⟨h1.trans d1, h2.trans d2, h3.trans d3, fun j hj hji => ?_, fun hu' => ?_, fun x hx => ?_⟩
  · have e := (d4 j (by omega)).trans (v6 j hji)
    have eo : ((b.vacate i).slide (b.offset i) (b.size i)).offset j = b.offset j :=
      congrArg (fun id => (itemIDOffset id : Int)) e
    have es : ((b.vacate i).slide (b.offset i) (b.size i)).size j = b.size j :=
      congrArg itemIDSize e
    refine (s4 j (by omega)).trans ?_
    rw [eo, es, e]
  · -- the vacated slot is not used, and the loop leaves it alone
    have hi : (i : Int) < (b.vacate i).nItems := by
      have := hu'.1
      omega
    have h4 := s4 i (by omega)
    rw [d4 i hu.1] at h4
    have hav : itemIDAvailability ((b.vacate i).itemID i) ≠ 0 := fun h0 => v7 ⟨hi, h0⟩
    rw [if_neg fun hc => hav hc.2] at h4
    exact hav ((congrArg itemIDAvailability h4.symm).trans hu'.2)
  · exact (s5 x (Or.inr (by omega))).trans (d5 x hx)

theorem Wf.used_closeGap (h : b.Wf) (hu : b.Used i) (j : ℕ) :
    (b.closeGap i).Used j ↔ b.Used j ∧ j ≠ i := by
  obtain ⟨-, -, -, -, v5, -⟩ := h.vacate hu
  obtain ⟨c1, -, -, c4, c5, -⟩ := h.closeGap_spec hu
  by_cases hji : j = i
  · subst hji
    exact iff_of_false c5 fun hc => hc.2 rfl
  · rw [and_iff_left hji, Used, Used, c1, v5 j hji]
    refine and_congr_right fun hj => ?_
    rw [c4 j ((v5 j hji).mpr hj) hji]
    split_ifs with hc
    · simp [hc.2]
    · rfl

theorem Wf.offset_closeGap (h : b.Wf) (hu : b.Used i) {j : ℕ} (hj : b.Used j) (hji : j ≠ i) :
    (b.closeGap i).offset j =
      (if b.offset j < b.offset i then b.offset j + b.size i else b.offset j) ∧
    (b.closeGap i).size j = b.size j := by
  obtain ⟨-, -, -, -, v5, -⟩ := h.vacate hu
  obtain ⟨-, -, -, c4, -⟩ := h.closeGap_spec hu
  have hsz := itemIDSize_lt (b.itemID j)
  have hof := itemIDOffset_lt (b.itemID j)
  change (itemIDOffset ((b.closeGap i).itemID j) : Int) = _ ∧
    itemIDSize ((b.closeGap i).itemID j) = _
  rw [c4 j ((v5 j hji).mpr hj.1) hji]
  by_cases hc : b.offset j < b.offset i
  · have hb : b.offset j + b.size i < 2 ^ 15 := by
      by_cases h0 : b.size i = 0
      · simp only [offset, h0]
        omega
      · have := (h.range hu h0).2
        simp only [pageSize] at this
        omega
    have h0 : 0 ≤ b.offset j := Int.natCast_nonneg _
    rw [if_pos ⟨hc, hj.2⟩, if_pos hc, itemIDOffset_compose, itemIDSize_compose]
    refine ⟨by omega, ?_⟩
    simp only [size]
    omega
  · rw [if_neg fun hc' => hc hc'.1, if_neg hc]
    exact ⟨rfl, rfl⟩

/-- **`delete_item`** removes the item and keeps the others. -/
theorem Wf.deleteItem (h : b.Wf) (hu : b.Used i) :
    (b.deleteItem i).Wf ∧ (b.deleteItem i).content = Function.update b.content i none ∧
      (b.deleteItem i).tailPtr = b.tailPtr + b.size i ∧ (b.deleteItem i).nItems ≤ b.nItems := by
  obtain ⟨v1, v2, v3, -⟩ := h.vacate hu
  obtain ⟨c1, c2, c3, -, -, c6⟩ := h.closeGap_spec hu
  have hhead := h.head
  have hle := h.head_le
  have hn := h.nItems
  have hroom : b.tailPtr + b.size i ≤ pageSize := by
    by_cases h0 : b.size i = 0
    · have := h.tail_le
      omega
    · have := h.range hu h0
      omega
  simp only [pageSize] at hroom
  -- setting `tail_ptr` changes no slot
  have hcells : ∀ x, 6 ≤ x → (b.deleteItem i).cells x = (b.closeGap i).cells x := fun x hx =>
    cells_setShort_of_ge (by omega)
  have hid : ∀ j : ℕ, (b.deleteItem i).itemID j = (b.closeGap i).itemID j :=
    itemID_eq_of_cells hcells
  have hni : (b.deleteItem i).nItems = (b.vacate i).nItems :=
    (nItems_setTailPtr _).trans c1
  have hhd : (b.deleteItem i).headPtr = (b.vacate i).headPtr :=
    (headPtr_setTailPtr _).trans c2
  have htail : (b.deleteItem i).tailPtr = b.tailPtr + b.size i := by
    rw [deleteItem_eq, tailPtr_setTailPtr, c3, toInt_short (by omega) (by omega)]
  have hused : ∀ j, (b.deleteItem i).Used j ↔ b.Used j ∧ j ≠ i := fun j => by
    rw [← h.used_closeGap hu, Used, Used, hid, hni, c1]
  have hoff : ∀ j, (b.deleteItem i).offset j = (b.closeGap i).offset j := fun j => by
    rw [offset, offset, hid]
  have hsize : ∀ j, (b.deleteItem i).size j = (b.closeGap i).size j := fun j => by
    rw [size, size, hid]
  obtain ⟨hwf, hcont⟩ := h.remove hu ⟨hni ▸ v1, hused, by rw [hhd, hni]; exact v2,
    by rw [hhd]; omega, htail, fun j hj hji => (hoff j).trans (h.offset_closeGap hu hj hji).1,
    fun j hj hji => (hsize j).trans (h.offset_closeGap hu hj hji).2,
    fun x h1 h2 => by rw [hcells x (by omega), c6 x (by omega), if_pos ⟨h1, h2⟩],
    fun x h1 h2 => by rw [hcells x (by omega), c6 x (by omega), if_neg (by omega)]⟩
  exact ⟨hwf, hcont, htail, hni.trans_le v3⟩

/-! ## Free space -/

theorem Wf.freeSpace_mem (h : b.Wf) : 0 ≤ b.freeSpace ∧ b.freeSpace < pageSize := by
  have h1 := h.nItems
  have h2 := h.head
  have h3 := h.head_le
  have h4 := h.tail_le
  simp only [pageSize] at h4 ⊢
  rw [h.freeSpace_eq]
  split <;> omega

theorem init_spec (b : Block) : b.init.nItems = 0 ∧ b.init.headPtr = 6 ∧ b.init.tailPtr = pageSize := by
  refine ⟨?_, ?_, ?_⟩
  · rw [init, nItems_setTailPtr, nItems_setHeadPtr, nItems_setNItems]
    rfl
  · rw [init, headPtr_setTailPtr, headPtr_setHeadPtr]
    rfl
  · rw [init, tailPtr_setTailPtr]
    rfl

theorem wf_init (b : Block) : b.init.Wf ∧ b.init.content = fun _ => none := by
  obtain ⟨h1, h2, h3⟩ := b.init_spec
  have hu : ∀ i, ¬ b.init.Used i := fun i hu => by
    have := hu.1
    omega
  refine ⟨⟨h1.ge, by rw [h1, h2]; rfl, by rw [h2, h3]; decide, h3.le,
    fun x => ⟨fun hx => ?_, fun ⟨i, hi, _⟩ => absurd hi (hu i)⟩,
    fun _ i _ hi => absurd hi (hu i)⟩, funext fun i => content_eq_none.mpr (hu i)⟩
  exact absurd hx.2 (not_lt.mpr (h3 ▸ hx.1))

theorem freeSpace_init (b : Block) : b.init.freeSpace = 118 := by
  obtain ⟨h1, h2, h3⟩ := b.init_spec
  have hf : b.init.firstAvailable = none := by
    rw [firstAvailable, h1]
    rfl
  rw [(wf_init b).1.freeSpace_eq, hf, h2, h3]
  rfl

theorem getItem_of_used (hu : b.Used i) : b.getItem i = some (b.offset i) := by
  rw [getItem, if_neg (by have := hu.1; omega), if_neg (by rw [hu.2]; decide)]
  rfl

theorem getItem_of_not_used (hu : ¬ b.Used i) : b.getItem i = none := by
  unfold getItem
  split_ifs with h1 h2
  · rfl
  · rfl
  · exact absurd ⟨by omega, not_not.mp h2⟩ hu

/-- The bytes that `get_item` finds in slot `i`. -/
def found (b : Block) (i : ℕ) : Option (List Cell) :=
  (b.getItem i).map fun offset => tabulate (fun k => b.cells (offset + k)) (b.size i)

theorem found_eq_content (b : Block) (i : ℕ) : b.found i = b.content i := by
  unfold found content
  split_ifs with hu
  · rw [getItem_of_used hu]
    rfl
  · rw [getItem_of_not_used hu]
    rfl

/-! ## The law of slotted blocks -/

/-- `free_space` is the largest size for which `new_item` keeps the pointers apart, among the items
that stay behind the header. -/
theorem Wf.le_freeSpace_iff (h : b.Wf) (item : Cells) (hpos : 1 ≤ len) (hlen : len ≤ b.tailPtr - 6) :
    (len : Int) ≤ b.freeSpace ↔ (b.newItem item len).2.headPtr ≤ (b.newItem item len).2.tailPtr := by
  have hle := h.head_le
  have htail := h.tail_le
  obtain ⟨n, hn⟩ := Int.eq_ofNat_of_zero_le h.nItems
  rw [h.freeSpace_eq]
  cases hf : b.firstAvailable with
  | some i =>
    obtain ⟨-, p2, p3, -⟩ := place_spec len (by omega) htail i item
    rw [newItem_some hf, p2, p3]
    simp only
    omega
  | none =>
    obtain ⟨-, a2, a3, -⟩ := h.addSlot_spec hn
    obtain ⟨-, p2, p3, -⟩ := place_spec len (by omega) (by omega) n item
      (b := b.addSlot n)
    rw [newItem_none hf hn, p2, p3, a2, a3]
    simp only
    omega

/-- **The law of slotted blocks.** `init_block` makes a well-formed block. On a well-formed block,
`new_item` of an item that fits in the free space returns a slot not in use, which then holds the
item; `delete_item` of a used slot ends its use; both leave a well-formed block, and what `get_item`
finds for every other slot. An item whose bytes stay behind the header fits exactly when `new_item`
keeps `head_ptr` below `tail_ptr`. -/
theorem slotted_block_law (b : Block) :
    b.init.Wf ∧
    (b.Wf → ∀ (item : Cells) (size : ℕ), 1 ≤ size →
      ((size : Int) ≤ b.freeSpace → ∃ i : ℕ, (b.newItem item size).1 = i ∧ ¬ b.Used i ∧
        (b.newItem item size).2.Wf ∧ (b.newItem item size).2.Used i ∧
        (b.newItem item size).2.found i = some (tabulate (fun k => item k) size) ∧
        ∀ j, j ≠ i → (b.newItem item size).2.found j = b.found j) ∧
      ((size : Int) ≤ b.tailPtr - 6 → ((size : Int) ≤ b.freeSpace ↔
        (b.newItem item size).2.headPtr ≤ (b.newItem item size).2.tailPtr))) ∧
    (b.Wf → ∀ i, b.Used i → (b.deleteItem i).Wf ∧ ¬ (b.deleteItem i).Used i ∧
      ∀ j, j ≠ i → (b.deleteItem i).found j = b.found j) := by
  refine ⟨(wf_init b).1, fun h item size hpos => ⟨fun hlen => ?_, h.le_freeSpace_iff item hpos⟩,
    fun h i hu => ?_⟩
  · obtain ⟨i, h1, h2, h3, h4⟩ := h.newItem hlen hpos item
    have hi : (b.newItem item size).2.content i = some (tabulate (fun k => item k) size) := by
      rw [h4, Function.update_self]
    refine ⟨i, h1, h2, h3, (content_eq_some hi).1, (found_eq_content _ i).trans hi, fun j hj => ?_⟩
    rw [found_eq_content, found_eq_content, h4, Function.update_of_ne hj]
  · obtain ⟨h1, h2, -⟩ := h.deleteItem hu
    refine ⟨h1, content_eq_none.mp ?_, fun j hj => ?_⟩
    · rw [h2, Function.update_self]
    · rw [found_eq_content, found_eq_content, h2, Function.update_of_ne hj]

/-- Slot `0` of a block with two items is given up and taken again: the new item is found there, and
the second item is still found. -/
theorem slotted_block_law_recycled :
    let b₁ := ((Page.toBlock .empty).init.newItem (fun _ => .byte 7) 3).2
    let b₂ := ((b₁.newItem (fun _ => .byte 8) 5).2).deleteItem 0
    let b₃ := (b₂.newItem (fun _ => .byte 9) 60).2
    b₃.Wf ∧ b₃.found 0 = some (tabulate (fun _ => .byte 9) 60) ∧
      b₃.found 1 = some (tabulate (fun _ => .byte 8) 5) := by
  intro b₁ b₂ b₃
  obtain ⟨h₀, h₁, -⟩ := slotted_block_law (Page.toBlock .empty)
  obtain ⟨-, -, -, hwf₁, -⟩ := ((slotted_block_law _).2.1 h₀ (fun _ => .byte 7) 3 (by decide)).1
    (by decide +kernel)
  obtain ⟨-, -, -, hwf, -⟩ := ((slotted_block_law _).2.1 hwf₁ (fun _ => .byte 8) 5 (by decide)).1
    (by decide +kernel)
  obtain ⟨hwf₂, -, -⟩ := (slotted_block_law _).2.2 hwf 0 (by decide +kernel)
  obtain ⟨i, hi, -, hwf₃, -, hfound, hothers⟩ :=
    ((slotted_block_law _).2.1 hwf₂ (fun _ => .byte 9) 60 (by decide)).1 (by decide +kernel)
  obtain rfl : i = 0 := Int.ofNat.inj (hi.symm.trans (by decide +kernel))
  exact ⟨hwf₃, hfound, (hothers 1 (by decide)).trans (by decide +kernel)⟩

/-- **An item over the header.** `126` zero bytes do not fit in a new block, and overwrite `head_ptr`
and `tail_ptr` with the same value. -/
theorem not_le_freeSpace_iff_over : ∃ (b : Block) (item : Cells) (size : ℕ), b.Wf ∧ 1 ≤ size ∧
    ¬ ((size : Int) ≤ b.freeSpace ↔
      (b.newItem item size).2.headPtr ≤ (b.newItem item size).2.tailPtr) :=
  ⟨(Page.toBlock .empty).init, fun _ => .byte 0, 126, (wf_init _).1, by decide, by decide +kernel⟩

end Block

end MyJQL
