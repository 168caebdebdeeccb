import MyJQL.Model.Store

/-!
# The arrays of a node

* `BNode.rows`, `BNode.kids`: the entries and the children of a node, as lists;
* `shiftLeft_apply`, …: the arrays left by the loops of `b_tree.c`; `tabulate_append`, …: their
  first entries, as lists;
* `rows_insertRow`, `rows_leafSplit`, …: what is done to a node, on its lists.
  **`rows_innerSplit`**, **`kids_innerSplit`**: the three cases of an inner split are one, with the
  new entry in place.
-/

set_option linter.unusedSimpArgs false

namespace MyJQL

variable {α : Type}

theorem getElem?_tabulate (f : ℕ → α) (n i : ℕ) :
    (tabulate f n)[i]? = if i < n then some (f i) else none := by
  split_ifs with h
  · rw [List.getElem?_eq_getElem (by simpa using h), getElem_tabulate]
  · exact List.getElem?_eq_none (by simpa using h)

/-! ## Loops -/

theorem shiftLeft_apply (index last : ℕ) (a : ℕ → α) (j : ℕ) :
    shiftLeft index last a j = if 0 < index ∧ index ≤ j + 1 ∧ j < last then a (j + 1) else a j := by
  unfold shiftLeft
  split_ifs with h0 h
  · omega
  · rfl
  · rw [forUp_shift _ _ 1 Nat.one_pos]
    exact if_pos (by omega)
  · rw [forUp_shift _ _ 1 Nat.one_pos]
    exact if_neg (by omega)

theorem shiftRight_apply (index n : ℕ) (a : ℕ → α) (j : ℕ) :
    shiftRight index n a j = if index < j ∧ j ≤ n then a (j - 1) else a j := by
  rw [shiftRight, forDown_shift _ _ 1 Nat.one_pos]
  exact if_congr (by omega) rfl rfl

theorem pullRight_apply (index n : ℕ) (a : ℕ → α) (j : ℕ) :
    pullRight index n a j = if index < j ∧ j < n then a (j - 1) else a j := by
  rw [pullRight, forDown_pull _ _ index.succ_pos]
  exact if_congr (by omega) rfl rfl

theorem fill_apply (lo hi : ℕ) (f a : ℕ → α) (j : ℕ) :
    fill lo hi f a j = if lo ≤ j ∧ j < hi then f j else a j := by
  rw [fill, forUp_set]

theorem moveOut_eq (n d : ℕ) (c : α) (a b : ℕ → α) :
    moveOut n d c a b =
      (fun j => if j < n then b (j + d) else a j, fun j => if d ≤ j ∧ j < n + d then c else b j) :=
  forUp_move n d c a b

theorem shiftOne_apply (lo hi : ℕ) (a : ℕ → α) (j : ℕ) :
    forUp lo hi (fun i a => Function.update a i (a (i + 1))) a j =
      if lo ≤ j ∧ j < hi then a (j + 1) else a j := by
  rw [forUp_shift _ _ 1 Nat.one_pos]

/-! ## Arrays with entries added, removed and appended -/

section Arrays

variable (a b : ℕ → α) (x : α) {m n D j : ℕ}

theorem tabulate_push : tabulate (Function.update a n x) (n + 1) = tabulate a n ++ [x] := by
  refine List.ext_getElem? fun i => ?_
  simp only [List.getElem?_append, List.getElem?_singleton, getElem?_tabulate, length_tabulate,
    Function.update_apply]
  split_ifs <;> first | rfl | omega

theorem tabulate_append {f : ℕ → α} (k : ℕ) (hf : ∀ i < k, f (m + i) = b i) (hn : n = m + k) :
    tabulate (fill m n f a) n = tabulate a m ++ tabulate b k := by
  refine List.ext_getElem? fun i => ?_
  simp only [List.getElem?_append, getElem?_tabulate, length_tabulate, fill_apply]
  split_ifs with h1 h2 h3 h4 <;> first | rfl | omega | skip
  rw [← hf _ h4, Nat.add_sub_cancel' h2.1]

theorem tabulate_unshift :
    tabulate (Function.update (pullRight 0 (n + 1) a) 0 x) (n + 1) = x :: tabulate a n := by
  refine List.ext_getElem? fun i => ?_
  simp only [List.getElem?_cons, getElem?_tabulate, Function.update_apply, pullRight_apply]
  split_ifs <;> first | rfl | omega

theorem tabulate_shiftLeft (hj : j < D) :
    tabulate (shiftLeft (j + 1) (D - 1) a) (D - 1) = (tabulate a D).eraseIdx j := by
  refine List.ext_getElem? fun i => ?_
  simp only [List.getElem?_eraseIdx, getElem?_tabulate, shiftLeft_apply]
  split_ifs <;> first | rfl | omega

theorem tabulate_pullRight (hj : j < D) :
    tabulate (Function.update (pullRight 0 (j + 1) a) 0 x) D = x :: (tabulate a D).eraseIdx j := by
  refine List.ext_getElem? fun i => ?_
  simp only [List.getElem?_cons, List.getElem?_eraseIdx, getElem?_tabulate, Function.update_apply,
    pullRight_apply]
  split_ifs <;> first | rfl | omega | (congr 2; omega)

theorem tabulate_pullRight_succ (hj : j < D) :
    tabulate (fun i => pullRight 0 (j + 1) a (i + 1)) (D - 1) = (tabulate a D).eraseIdx j := by
  refine List.ext_getElem? fun i => ?_
  simp only [List.getElem?_eraseIdx, getElem?_tabulate, pullRight_apply]
  split_ifs <;> first | rfl | omega

end Arrays

namespace BNode

/-- The entries. -/
def rows (b : BNode) : List RID := tabulate b.rowPtr b.n

/-- The children of an inner node. -/
def kids (b : BNode) : List Int := tabulate b.child (b.n + 1)

variable {D index : ℕ} {rid : RID} {entry : ChildEntry} {b node : BNode}

@[simp] theorem length_rows : b.rows.length = b.n := length_tabulate _ _
@[simp] theorem length_kids : b.kids.length = b.n + 1 := length_tabulate _ _

theorem getElem?_rows (i : ℕ) : b.rows[i]? = if i < b.n then some (b.rowPtr i) else none :=
  getElem?_tabulate _ _ _

theorem getElem?_kids (i : ℕ) : b.kids[i]? = if i < b.n + 1 then some (b.child i) else none :=
  getElem?_tabulate _ _ _

theorem rowPtr_eq {l : List RID} {j : ℕ} (hl : b.rows = l) (hj : l[j]? = some rid) :
    b.rowPtr j = rid := by
  subst hl
  rw [getElem?_rows] at hj
  split_ifs at hj
  exact Option.some.inj hj

theorem child_eq {l : List Int} {j : ℕ} {x : Int} (hl : b.kids = l) (hj : l[j]? = some x) :
    b.child j = x := by
  subst hl
  rw [getElem?_kids] at hj
  split_ifs at hj
  exact Option.some.inj hj

/-! ## Insertion -/

/-- The entries with a new one. -/
def withRow (b : BNode) (index : ℕ) (rid : RID) : List RID :=
  b.rows.take index ++ rid :: b.rows.drop index

/-- The children with a new one. -/
def withKid (b : BNode) (index : ℕ) (addr : Int) : List Int :=
  b.kids.take (index + 1) ++ addr :: b.kids.drop (index + 1)

theorem getElem?_withRow (hi : index ≤ b.n) (j : ℕ) : (b.withRow index rid)[j]? =
    if j < index then some (b.rowPtr j) else if j = index then some rid
    else if j ≤ b.n then some (b.rowPtr (j - 1)) else none := by
  simp only [withRow, List.getElem?_append, List.length_take, length_rows, min_eq_left hi,
    List.getElem?_take, List.getElem?_cons, List.getElem?_drop, getElem?_rows]
  split_ifs <;> first | rfl | omega | (congr 2; omega)

theorem getElem?_withKid {addr : Int} (hi : index ≤ b.n) (j : ℕ) : (b.withKid index addr)[j]? =
    if j ≤ index then some (b.child j) else if j = index + 1 then some addr
    else if j ≤ b.n + 1 then some (b.child (j - 1)) else none := by
  simp only [withKid, List.getElem?_append, List.length_take, length_kids,
    min_eq_left (Nat.succ_le_succ hi), List.getElem?_take, List.getElem?_cons, List.getElem?_drop,
    getElem?_kids]
  split_ifs <;> first | rfl | omega | (congr 2; omega)

theorem rows_insertRow (hi : index ≤ b.n) : (b.insertRow index rid).rows = b.withRow index rid := by
  refine List.ext_getElem? fun j => ?_
  rw [getElem?_withRow hi, getElem?_rows]
  simp only [insertRow, Function.update_apply, shiftRight_apply]
  split_ifs <;> first | rfl | omega

theorem rows_insertChild (hi : index ≤ b.n) :
    (b.insertChild index entry).rows = b.withRow index entry.rid := by
  refine List.ext_getElem? fun j => ?_
  rw [getElem?_withRow hi, getElem?_rows]
  simp only [insertChild, Function.update_apply, shiftRight_apply]
  split_ifs <;> first | rfl | omega

theorem kids_insertChild (hi : index ≤ b.n) :
    (b.insertChild index entry).kids = b.withKid index entry.addr := by
  refine List.ext_getElem? fun j => ?_
  rw [getElem?_withKid hi, getElem?_kids]
  simp only [insertChild, Function.update_apply, shiftRight_apply]
  split_ifs <;> first | rfl | omega

variable (rid node) in
theorem rows_leafSplit (hn : b.n = 2 * D) (hi : index ≤ b.n) :
    (b.leafSplit D index rid node).2.rows = (b.withRow index rid).take D ∧
      (b.leafSplit D index rid node).1.rows = (b.withRow index rid).drop D := by
  constructor <;> refine List.ext_getElem? fun j => ?_ <;>
    simp only [List.getElem?_take, List.getElem?_drop, getElem?_withRow hi, getElem?_rows,
      leafSplit] <;>
    by_cases hD : index ≥ D <;>
    simp only [hD, if_true, if_false, clear, moveOut_eq, Function.update_apply, fill_apply,
      shiftRight_apply] <;>
    split_ifs <;> first | rfl | omega | (congr 2; omega)

variable (entry node) in
/-- **The entries after an inner split.** -/
theorem rows_innerSplit (hn : b.n = 2 * D) (hi : index ≤ b.n) :
    (b.innerSplit D index entry node).2.1.rows = (b.withRow index entry.rid).take D ∧
      (b.withRow index entry.rid)[D]? = some (b.innerSplit D index entry node).2.2 ∧
      (b.innerSplit D index entry node).1.rows = (b.withRow index entry.rid).drop (D + 1) := by
  simp only [innerSplit]
  split_ifs with h1 h2 <;>
    refine ⟨List.ext_getElem? fun j => ?_, ?_, List.ext_getElem? fun j => ?_⟩ <;>
    simp only [List.getElem?_take, List.getElem?_drop, getElem?_withRow hi, getElem?_rows, clear,
      moveOut_eq, Function.update_apply, fill_apply, pullRight_apply] <;>
    split_ifs <;> first | rfl | omega | (congr 2; omega)

variable (entry node) in
/-- **The children after an inner split.** -/
theorem kids_innerSplit (hn : b.n = 2 * D) (hi : index ≤ b.n) :
    (b.innerSplit D index entry node).2.1.kids = (b.withKid index entry.addr).take (D + 1) ∧
      (b.innerSplit D index entry node).1.kids = (b.withKid index entry.addr).drop (D + 1) := by
  simp only [innerSplit]
  split_ifs with h1 h2 <;>
    refine ⟨List.ext_getElem? fun j => ?_, List.ext_getElem? fun j => ?_⟩ <;>
    simp only [List.getElem?_take, List.getElem?_drop, getElem?_withKid hi, getElem?_kids, clear,
      moveOut_eq, Function.update_apply, fill_apply, pullRight_apply] <;>
    split_ifs <;> first | rfl | omega | (congr 2; omega)

variable (D index rid b node) in
theorem leafSplit_fields : (b.leafSplit D index rid node).1.leaf = true ∧
    (b.leafSplit D index rid node).2.leaf = b.leaf ∧
    (b.leafSplit D index rid node).2.next = b.next := by
  simp only [leafSplit]
  split_ifs <;> exact ⟨rfl, rfl, rfl⟩

variable (D index entry b node) in
theorem innerSplit_fields : (b.innerSplit D index entry node).1.leaf = false ∧
    (b.innerSplit D index entry node).2.1.leaf = b.leaf ∧
    (b.innerSplit D index entry node).1.next = node.next := by
  simp only [innerSplit]
  split_ifs <;> exact ⟨rfl, rfl, rfl⟩

theorem rows_newRoot (root : Int) : (newRoot D root entry node).rows = [entry.rid] := rfl

theorem kids_newRoot (root : Int) : (newRoot D root entry node).kids = [root, entry.addr] := rfl

/-! ## Deletion -/

theorem rows_removeRow {j : ℕ} (hj : j < b.n) : (b.removeRow (j + 1)).rows = b.rows.eraseIdx j := by
  refine List.ext_getElem? fun i => ?_
  simp only [List.getElem?_eraseIdx, getElem?_rows, removeRow, Function.update_apply,
    shiftLeft_apply]
  split_ifs <;> first | rfl | omega

theorem rows_removeChild {j : ℕ} (hj : j < b.n) :
    (b.removeChild (j + 1)).rows = b.rows.eraseIdx j := by
  refine List.ext_getElem? fun i => ?_
  simp only [List.getElem?_eraseIdx, getElem?_rows, removeChild, Function.update_apply,
    shiftLeft_apply]
  split_ifs <;> first | rfl | omega

theorem kids_removeChild {j : ℕ} (hj : j < b.n) :
    (b.removeChild (j + 1)).kids = b.kids.eraseIdx (j + 1) := by
  refine List.ext_getElem? fun i => ?_
  simp only [List.getElem?_eraseIdx, getElem?_kids, removeChild, Function.update_apply,
    shiftOne_apply]
  split_ifs <;> first | rfl | omega

theorem rows_dropFirstRow : b.dropFirstRow.rows = b.rows.tail := by
  refine List.ext_getElem? fun i => ?_
  simp only [List.getElem?_tail, getElem?_rows, dropFirstRow, Function.update_apply, shiftOne_apply]
  split_ifs <;> first | rfl | omega

theorem rows_dropFirstChild : b.dropFirstChild.rows = b.rows.tail := rows_dropFirstRow

theorem kids_dropFirstChild (hn : 0 < b.n) : b.dropFirstChild.kids = b.kids.tail := by
  refine List.ext_getElem? fun i => ?_
  simp only [List.getElem?_tail, getElem?_kids, dropFirstChild, Function.update_apply,
    shiftOne_apply]
  split_ifs <;> first | rfl | omega

theorem rows_dropLastRow : b.dropLastRow.rows = b.rows.dropLast := by
  refine List.ext_getElem? fun i => ?_
  simp only [List.getElem?_dropLast, getElem?_rows, dropLastRow, Function.update_apply, length_rows]
  split_ifs <;> first | rfl | omega

theorem rows_dropLastChild : b.dropLastChild.rows = b.rows.dropLast := rows_dropLastRow

theorem kids_dropLastChild (hn : 0 < b.n) : b.dropLastChild.kids = b.kids.dropLast := by
  refine List.ext_getElem? fun i => ?_
  simp only [List.getElem?_dropLast, getElem?_kids, dropLastChild, Function.update_apply,
    length_kids]
  split_ifs <;> first | rfl | omega

theorem rowPtr_setRow : (b.setRow index rid).rowPtr index = rid := by simp [setRow]

theorem rows_setRow : (b.setRow index rid).rows = b.rows.set index rid := by
  refine List.ext_getElem? fun i => ?_
  simp only [List.getElem?_set, getElem?_rows, setRow, Function.update_apply, length_rows]
  split_ifs <;> first | rfl | omega

/-! ## Siblings

A node with a row too few (`b`) and a sibling of it (`s`). -/

section Siblings

variable {s : BNode} {m : ℕ}

theorem rows_leafPush (hn : b.n = D + 1) (hm : m < D + 1) : rows
    { b with rowPtr := Function.update (shiftLeft (m + 1) D b.rowPtr) D rid } =
      b.rows.eraseIdx m ++ [rid] := by
  simp only [rows, hn]
  rw [tabulate_push]
  exact congrArg (· ++ _) (tabulate_shiftLeft b.rowPtr hm)

theorem rows_leafAppend {next : Int} (hn : b.n = D + 1) (hs : s.n = D + 1) (hm : m < D + 1) : rows
    { b with
      rowPtr := fill D (2 * (D + 1) - 1) (fun i => s.rowPtr (i + 1 - (D + 1)))
        (shiftLeft (m + 1) D b.rowPtr)
      next := next
      n := 2 * (D + 1) - 1 } = b.rows.eraseIdx m ++ s.rows := by
  simp only [rows, hn, hs]
  rw [tabulate_append _ s.rowPtr (D + 1) (fun i _ => by exact congrArg s.rowPtr (by omega))
    (by omega)]
  exact congrArg (· ++ _) (tabulate_shiftLeft b.rowPtr hm)

theorem rows_leafUnshift (hn : b.n = D) (hm : m < D) : rows
    { b with rowPtr := Function.update (pullRight 0 (m + 1) b.rowPtr) 0 rid } =
      rid :: b.rows.eraseIdx m := by
  simp only [rows, hn]
  exact tabulate_pullRight b.rowPtr rid hm

theorem rows_leafMerge {next : Int} (hn : b.n = D) (hs : s.n = D) (hm : m < D) : rows
    { s with
      rowPtr := fill D (2 * D - 1) (fun i => pullRight 0 (m + 1) b.rowPtr (i - D + 1)) s.rowPtr
      next := next
      n := 2 * D - 1 } = s.rows ++ b.rows.eraseIdx m := by
  simp only [rows, hn, hs]
  rw [tabulate_append _ (fun i => pullRight 0 (m + 1) b.rowPtr (i + 1)) (D - 1)
    (fun i _ => by simp) (by omega), tabulate_pullRight_succ b.rowPtr hm]

theorem innerPush {addr : Int} :
    rows { b with
      rowPtr := Function.update b.rowPtr b.n rid
      child := Function.update b.child (b.n + 1) addr
      n := b.n + 1 } = b.rows ++ [rid] ∧
    kids { b with
      rowPtr := Function.update b.rowPtr b.n rid
      child := Function.update b.child (b.n + 1) addr
      n := b.n + 1 } = b.kids ++ [addr] :=
  ⟨tabulate_push _ _, tabulate_push _ _⟩

theorem innerUnshift {addr : Int} (hn : b.n + 1 = D) :
    rows { b with
      rowPtr := Function.update (pullRight 0 D b.rowPtr) 0 rid
      child := Function.update (pullRight 0 (D + 1) b.child) 0 addr
      n := b.n + 1 } = rid :: b.rows ∧
    kids { b with
      rowPtr := Function.update (pullRight 0 D b.rowPtr) 0 rid
      child := Function.update (pullRight 0 (D + 1) b.child) 0 addr
      n := b.n + 1 } = addr :: b.kids := by
  subst hn
  exact ⟨tabulate_unshift _ _, tabulate_unshift _ _⟩

theorem innerAppend {next : Int} (hn : b.n + 1 = D) (hs : s.n = D) :
    rows { b with
      rowPtr := fill D (2 * D) (fun i => s.rowPtr (i - D)) (Function.update b.rowPtr b.n rid)
      child := fill D (2 * D + 1) (fun i => s.child (i - D)) b.child
      next := next
      n := 2 * D } = b.rows ++ rid :: s.rows ∧
    kids { b with
      rowPtr := fill D (2 * D) (fun i => s.rowPtr (i - D)) (Function.update b.rowPtr b.n rid)
      child := fill D (2 * D + 1) (fun i => s.child (i - D)) b.child
      next := next
      n := 2 * D } = b.kids ++ s.kids := by
  subst hn
  simp only [rows, kids, hs]
  rw [tabulate_append _ s.rowPtr (b.n + 1) (fun i _ => by simp) (by omega), tabulate_push,
    tabulate_append _ s.child (b.n + 2) (fun i _ => by simp) (by omega)]
  exact ⟨List.append_assoc .., rfl⟩

theorem innerMerge {next : Int} (hn : b.n + 1 = D) (hs : s.n = D) :
    rows { s with
      rowPtr := fill (D + 1) (2 * D) (fun i => b.rowPtr (i - D - 1)) (Function.update s.rowPtr D rid)
      child := fill (D + 1) (2 * D + 1) (fun i => b.child (i - D - 1)) s.child
      next := next
      n := 2 * D } = s.rows ++ rid :: b.rows ∧
    kids { s with
      rowPtr := fill (D + 1) (2 * D) (fun i => b.rowPtr (i - D - 1)) (Function.update s.rowPtr D rid)
      child := fill (D + 1) (2 * D + 1) (fun i => b.child (i - D - 1)) s.child
      next := next
      n := 2 * D } = s.kids ++ b.kids := by
  subst hn
  simp only [rows, kids, hs]
  rw [tabulate_append _ b.rowPtr b.n (fun i _ => by exact congrArg b.rowPtr (by omega)) (by omega),
    tabulate_push, tabulate_append _ b.child (b.n + 1)
      (fun i _ => by exact congrArg b.child (by omega)) (by omega)]
  exact ⟨List.append_assoc .., rfl⟩

end Siblings

end BNode

end MyJQL
