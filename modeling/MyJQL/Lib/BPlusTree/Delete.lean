import MyJQL.Lib.BPlusTree.Insert

/-!
# Deletion from a B+ tree

* `Tree.merge`, `Tree.fromRight`, `Tree.fromLeft`: two neighbours become one, or one takes a row
  from the other; `Tree.merge_flat`, …: what this does to their items;
* `Inner.rebalance`: repair subtree `i` of a node; `Inner.Deficient.rebalance`: what this leaves;
* `Tree.delete D k sep t`: delete the row with key `k`; a copied separator of height `h` is named
  `sep h`;
* **`Tree.delete_flat`**: the row goes, and separators change as they may; **`Tree.delete_occ`**:
  occupancy, up to one row in the root; **`Tree.delete_pages`**: the nodes are the old ones without
  the freed.
-/

set_option linter.unusedSimpArgs false

namespace MyJQL

variable {A R K : Type} {h : ℕ}

/-! ## Definitions -/

namespace Tree

/-- `a` absorbs its right neighbour `b`; between inner nodes the separator `s` comes down, under the
name `sep`. -/
def merge (sep : R) : ∀ {h : ℕ}, Tree A R K h → R × K → Tree A R K h → Tree A R K h
  | 0, a, _, b => (⟨Leaf.addr a, Leaf.next b, Leaf.rows a ++ Leaf.rows b⟩ : Leaf A R K)
  | _ + 1, a, s, b => (⟨Inner.addr a, Inner.rows a ++ (sep, s.2) :: Inner.rows b,
      Inner.kids a ++ Inner.kids b⟩ : Inner A R K _)

/-- `a` takes the first row of its right neighbour `b`; the new separator of leaves is `sep`. -/
def fromRight (sep : R) : ∀ {h : ℕ}, Tree A R K h → R × K → Tree A R K h →
    Tree A R K h × (R × K) × Tree A R K h
  | 0, a, s, b =>
    match Leaf.rows b with
    | x :: y :: rows =>
      ((⟨Leaf.addr a, Leaf.next a, Leaf.rows a ++ [x]⟩ : Leaf A R K), (sep, y.2),
        (⟨Leaf.addr b, Leaf.next b, y :: rows⟩ : Leaf A R K))
    | _ => (a, s, b)
  | _ + 1, a, s, b =>
    match Inner.rows b, Inner.kids b with
    | x :: rows, c :: kids =>
      ((⟨Inner.addr a, Inner.rows a ++ [s], Inner.kids a ++ [c]⟩ : Inner A R K _), x,
        (⟨Inner.addr b, rows, kids⟩ : Inner A R K _))
    | _, _ => (a, s, b)

/-- `b` takes the last row of its left neighbour `a`; the new separator of leaves is `sep`. -/
def fromLeft (sep : R) : ∀ {h : ℕ}, Tree A R K h → R × K → Tree A R K h →
    Tree A R K h × (R × K) × Tree A R K h
  | 0, a, s, b =>
    match (Leaf.rows a).getLast? with
    | some x =>
      ((⟨Leaf.addr a, Leaf.next a, (Leaf.rows a).dropLast⟩ : Leaf A R K), (sep, x.2),
        (⟨Leaf.addr b, Leaf.next b, x :: Leaf.rows b⟩ : Leaf A R K))
    | none => (a, s, b)
  | _ + 1, a, s, b =>
    match (Inner.rows a).getLast?, (Inner.kids a).getLast? with
    | some x, some c =>
      ((⟨Inner.addr a, (Inner.rows a).dropLast, (Inner.kids a).dropLast⟩ : Inner A R K _), x,
        (⟨Inner.addr b, s :: Inner.rows b, c :: Inner.kids b⟩ : Inner A R K _))
    | _, _ => (a, s, b)

end Tree

namespace Inner

/-- The node with the subtrees `j` and `j + 1` replaced by `a` and `b`, with `s` between them. -/
def setPair {T : Type} (t : Inner A R K T) (j : ℕ) (a : T) (s : R × K) (b : T) : Inner A R K T where
  addr := t.addr
  rows := t.rows.take j ++ s :: t.rows.drop (j + 1)
  kids := t.kids.take j ++ a :: b :: t.kids.drop (j + 2)

/-- The node with the subtrees `j` and `j + 1` replaced by `a`. -/
def setMerged {T : Type} (t : Inner A R K T) (j : ℕ) (a : T) : Inner A R K T where
  addr := t.addr
  rows := t.rows.take j ++ t.rows.drop (j + 1)
  kids := t.kids.take j ++ a :: t.kids.drop (j + 2)

/-- The left of the two subtrees that take part in the repair of subtree `i`. -/
def side {T : Type} (t : Inner A R K T) (i : ℕ) : ℕ := if i < t.rows.length then i else i - 1

/-- Give subtree `i` one more row, or merge it with a neighbour: the node, and the position of the
merged separator with the address freed. -/
def rebalance (D : ℕ) (sep : R) (t : Inner A R K (Tree A R K h)) (i : ℕ) :
    Inner A R K (Tree A R K h) × Option (ℕ × A) :=
  let j := t.side i
  match t.kids[j]?, t.rows[j]?, t.kids[j + 1]? with
  | some a, some s, some b =>
    if i < t.rows.length then
      if D < b.rows.length then
        let (a, s, b) := a.fromRight sep s b
        (t.setPair j a s b, none)
      else (t.setMerged j (a.merge sep s b), some (j, b.addr))
    else
      if D < a.rows.length then
        let (a, s, b) := a.fromLeft sep s b
        (t.setPair j a s b, none)
      else (t.setMerged j (a.merge sep s b), some (j, b.addr))
  | _, _, _ => (t, none)

end Inner

/-- A tree after a deletion, the nodes freed, the last one first, and for an inner root the position
of the separator merged directly below it. -/
structure Shrunk (A R K : Type) (h : ℕ) where
  tree : Tree A R K h
  freed : List A
  merged : Option ℕ

/-- A repair of subtree `i`, as the end of a deletion. -/
def Inner.repaired (D : ℕ) (sep : R) (t : Inner A R K (Tree A R K h)) (i : ℕ) :
    Shrunk A R K (h + 1) :=
  ⟨(t.rebalance D sep i).1, (t.rebalance D sep i).2.elim [] fun p => [p.2],
    (t.rebalance D sep i).2.map Prod.fst⟩

/-- Subtree `i` becomes the result of a deletion, and is repaired if it has a row too few. -/
def Inner.shrink (D : ℕ) (sep : R) (t : Inner A R K (Tree A R K h)) (i : ℕ) (r : Shrunk A R K h) :
    Shrunk A R K (h + 1) :=
  let t := t.graft i [r.tree] []
  if D ≤ r.tree.rows.length then ⟨t, r.freed, none⟩
  else
    match t.rebalance D sep i with
    | (t, none) => ⟨t, r.freed, none⟩
    | (t, some (j, a)) => ⟨t, a :: r.freed, some j⟩

/-- Delete the row with key `k`. -/
def Tree.delete [LinearOrder K] (D : ℕ) (k : K) (sep : ℕ → R) :
    ∀ {h : ℕ}, Tree A R K h → Shrunk A R K h
  | 0, t =>
    let t : Leaf A R K := t
    ⟨({ t with rows := t.rows.eraseIdx (rank k t.rows - 1) } : Leaf A R K), [], none⟩
  | h + 1, t =>
    let t : Inner A R K _ := t
    let i := rank k t.rows
    match t.kids[i]? with
    | none => ⟨t, [], none⟩
    | some c => t.shrink D (sep h) i (Tree.delete D k sep c)

/-! ## Two neighbours -/

namespace Tree

variable {D m m' : ℕ} {sep : R} {s : R × K}

theorem fromRight_zero {a b : Tree A R K 0} {x y : R × K} {rows : List (R × K)}
    (hr : Leaf.rows b = x :: y :: rows) : a.fromRight sep s b =
      ((⟨Leaf.addr a, Leaf.next a, Leaf.rows a ++ [x]⟩ : Leaf A R K), (sep, y.2),
        (⟨Leaf.addr b, Leaf.next b, y :: rows⟩ : Leaf A R K)) := by
  simp only [fromRight, hr]
  rfl

theorem fromRight_succ {a b : Tree A R K (h + 1)} {x : R × K} {rows : List (R × K)}
    {c : Tree A R K h} {kids : List (Tree A R K h)} (hr : Inner.rows b = x :: rows)
    (hk : Inner.kids b = c :: kids) : a.fromRight sep s b =
      ((⟨Inner.addr a, Inner.rows a ++ [s], Inner.kids a ++ [c]⟩ : Inner A R K _), x,
        (⟨Inner.addr b, rows, kids⟩ : Inner A R K _)) := by
  simp only [fromRight, hr, hk]
  rfl

theorem fromLeft_zero {a b : Tree A R K 0} {x : R × K} {rows : List (R × K)}
    (hr : Leaf.rows a = rows ++ [x]) : a.fromLeft sep s b =
      ((⟨Leaf.addr a, Leaf.next a, rows⟩ : Leaf A R K), (sep, x.2),
        (⟨Leaf.addr b, Leaf.next b, x :: Leaf.rows b⟩ : Leaf A R K)) := by
  simp only [fromLeft, hr, List.getLast?_concat, List.dropLast_concat]
  rfl

theorem fromLeft_succ {a b : Tree A R K (h + 1)} {x : R × K} {rows : List (R × K)}
    {c : Tree A R K h} {kids : List (Tree A R K h)} (hr : Inner.rows a = rows ++ [x])
    (hk : Inner.kids a = kids ++ [c]) : a.fromLeft sep s b =
      ((⟨Inner.addr a, rows, kids⟩ : Inner A R K _), x,
        (⟨Inner.addr b, s :: Inner.rows b, c :: Inner.kids b⟩ : Inner A R K _)) := by
  simp only [fromLeft, hr, hk, List.getLast?_concat, List.dropLast_concat]
  rfl

/-- The items of two neighbours. -/
def pairFlat (a : Tree A R K h) (s : R × K) (b : Tree A R K h) : List (Item R K) :=
  a.flat ++ (s, false) :: b.flat

/-- Merging inner nodes renames the separator. -/
theorem merge_flat_succ {a b : Tree A R K (h + 1)} (ha : a.Occ D m) (hb : b.Occ D m') :
    (a.merge sep s b).flat = a.flat ++ ((sep, s.2), false) :: b.flat := by
  have hka : (Inner.kids a).length = (Inner.rows a).length + 1 := ha.2.1
  have hkb : (Inner.kids b).length = (Inner.rows b).length + 1 := hb.2.1
  change weave _ (List.map _ (_ ++ _)) = _
  rw [List.map_append]
  refine weave_split (by simpa using hka) _ _ fun e => ?_
  rw [List.map_eq_nil_iff] at e
  rw [e] at hkb
  cases hkb

/-- **Merging** drops or renames the separator. -/
theorem merge_flat {a b : Tree A R K h} (ha : a.Occ D m) (hb : b.Occ D m') :
    Resep (pairFlat a s b) (a.merge sep s b).flat := by
  cases h with
  | zero =>
    have e : Tree.flat (h := 0) (merge (h := 0) sep a s b) = Tree.flat (h := 0) a ++ Tree.flat (h := 0) b :=
      List.map_append
    rw [e]
    exact (Resep.refl _).drop
  | succ h =>
    rw [merge_flat_succ ha hb]
    exact (Resep.refl _).rename sep

variable (sep s) in
theorem fromRight_flat_succ {a b : Tree A R K (h + 1)} (ha : a.Occ D m) (hb : b.Occ D m')
    (hlt : D < b.rows.length) :
    pairFlat (a.fromRight sep s b).1 (a.fromRight sep s b).2.1 (a.fromRight sep s b).2.2 =
      pairFlat a s b := by
  obtain ⟨addr, rows, kids⟩ := b
  have hka : (Inner.kids a).length = (Inner.rows a).length + 1 := ha.2.1
  have hkb : kids.length = rows.length + 1 := hb.2.1
  change D < rows.length at hlt
  obtain _ | ⟨x, rows⟩ := rows
  · exact absurd hlt (Nat.not_lt_zero D)
  obtain _ | ⟨c, kids⟩ := kids
  · cases hkb
  have hne : kids.map Tree.flat ≠ [] := fun e => by
    rw [List.map_eq_nil_iff] at e
    rw [e] at hkb
    cases hkb
  have e1 : Tree.flat (h := h + 1) (⟨Inner.addr a, Inner.rows a ++ [s], Inner.kids a ++ [c]⟩ :
      Inner A R K _) = Tree.flat (h := h + 1) a ++ (s, false) :: c.flat := by
    change weave (_ ++ s :: []) (List.map _ (_ ++ _)) = _
    rw [List.map_append, weave_split (by simpa using hka) s [] (by simp)]
    simp [weave, after]
    rfl
  have e2 : Tree.flat (h := h + 1) (⟨addr, x :: rows, c :: kids⟩ : Inner A R K _) =
      c.flat ++ (x, false) :: weave rows (kids.map Tree.flat) := by
    change c.flat ++ after _ _ = _
    rw [after_cons x rows hne]
  simp only [fromRight, pairFlat, e1, e2]
  simp [Tree.flat]

variable (sep s) in
theorem fromLeft_flat_succ {a b : Tree A R K (h + 1)} (ha : a.Occ D m) (hb : b.Occ D m')
    (hlt : D < a.rows.length) :
    pairFlat (a.fromLeft sep s b).1 (a.fromLeft sep s b).2.1 (a.fromLeft sep s b).2.2 =
      pairFlat a s b := by
  obtain ⟨addr, rows, kids⟩ := a
  have hka : kids.length = rows.length + 1 := ha.2.1
  have hkb : (Inner.kids b).length = (Inner.rows b).length + 1 := hb.2.1
  change D < rows.length at hlt
  obtain ⟨l, x, rfl⟩ : ∃ l x, rows = l ++ [x] :=
    ⟨_, _, (List.dropLast_append_getLast (List.ne_nil_of_length_pos (by omega))).symm⟩
  obtain ⟨ks, c, rfl⟩ : ∃ ks c, kids = ks ++ [c] :=
    ⟨_, _, (List.dropLast_append_getLast (List.ne_nil_of_length_eq_add_one hka)).symm⟩
  have hne : (Inner.kids b).map Tree.flat ≠ [] := fun e => by
    rw [List.map_eq_nil_iff] at e
    rw [e] at hkb
    cases hkb
  have e1 : Tree.flat (h := h + 1) (⟨addr, l ++ [x], ks ++ [c]⟩ : Inner A R K _) =
      weave l (ks.map Tree.flat) ++ (x, false) :: c.flat := by
    change weave (l ++ x :: []) (List.map _ (_ ++ _)) = _
    rw [List.map_append, weave_split (by simpa using hka) x [] (by simp)]
    simp [weave, after]
  have e2 : Tree.flat (h := h + 1) (⟨Inner.addr b, s :: Inner.rows b, c :: Inner.kids b⟩ :
      Inner A R K _) = c.flat ++ (s, false) :: Tree.flat (h := h + 1) b := by
    change c.flat ++ after _ _ = _
    rw [after_cons s _ hne]
    rfl
  simp only [fromLeft, List.getLast?_concat, List.dropLast_concat, pairFlat, e1, e2]
  simp [Tree.flat]

/-- **Taking a row from the right.** -/
theorem fromRight_flat {a b : Tree A R K h} (hD : 1 ≤ D) (ha : a.Occ D m) (hb : b.Occ D D)
    (hlt : D < b.rows.length) :
    Resep (pairFlat a s b)
      (pairFlat (a.fromRight sep s b).1 (a.fromRight sep s b).2.1 (a.fromRight sep s b).2.2) := by
  cases h with
  | zero =>
    obtain ⟨addr, next, rows⟩ := b
    change D < rows.length at hlt
    obtain _ | ⟨x, _ | ⟨y, rows⟩⟩ := rows
    · exact absurd hlt (Nat.not_lt_zero D)
    · exact absurd hlt (by simp; omega)
    · have h0 : Resep (pairFlat (h := 0) a s (⟨addr, next, x :: y :: rows⟩ : Leaf A R K))
          (Tree.flat (h := 0) a ++ (s, false) :: (x, true) :: (y, true) ::
            rows.map fun e => (e, true)) := .refl _
      have h1 := h0.drop.add sep
      have e : Tree.flat (h := 0) (⟨Leaf.addr a, Leaf.next a, Leaf.rows a ++ [x]⟩ : Leaf A R K) =
          Tree.flat (h := 0) a ++ [(x, true)] := List.map_append
      simp only [fromRight, pairFlat, e, List.append_assoc]
      exact h1
  | succ h =>
    rw [fromRight_flat_succ sep s ha hb hlt]
    exact .refl _

/-- **Taking a row from the left.** -/
theorem fromLeft_flat {a b : Tree A R K h} (hD : 1 ≤ D) (ha : a.Occ D D) (hb : b.Occ D m)
    (hlt : D < a.rows.length) :
    Resep (pairFlat a s b)
      (pairFlat (a.fromLeft sep s b).1 (a.fromLeft sep s b).2.1 (a.fromLeft sep s b).2.2) := by
  cases h with
  | zero =>
    obtain ⟨addr, next, rows⟩ := a
    change D < rows.length at hlt
    obtain ⟨l, x, rfl⟩ : ∃ l x, rows = l ++ [x] :=
      ⟨_, _, (List.dropLast_append_getLast (List.ne_nil_of_length_pos (by omega))).symm⟩
    obtain ⟨l, w, rfl⟩ : ∃ l' w, l = l' ++ [w] :=
      ⟨_, _, (List.dropLast_append_getLast (List.ne_nil_of_length_pos (by simp at hlt; omega))).symm⟩
    have h0 : Resep (pairFlat (h := 0) (⟨addr, next, l ++ [w] ++ [x]⟩ : Leaf A R K) s b)
        ((l.map (fun e => (e, true)) ++ [(w, true), (x, true)]) ++ (s, false) :: Tree.flat (h := 0) b) := by
      simpa [pairFlat, Tree.flat] using Resep.refl _
    have h1 : Resep (pairFlat (h := 0) (⟨addr, next, l ++ [w] ++ [x]⟩ : Leaf A R K) s b)
        (l.map (fun e => (e, true)) ++ (w, true) :: (x, true) :: Tree.flat (h := 0) b) := by
      simpa using h0.drop
    have h2 := h1.add sep
    simp only [fromLeft, List.getLast?_concat, List.dropLast_concat]
    simpa [pairFlat, Tree.flat] using h2
  | succ h =>
    rw [fromLeft_flat_succ sep s ha hb hlt]
    exact .refl _

/-! ## Occupancy of neighbours -/

theorem merge_occ {a b : Tree A R K h} (ha : a.Occ D m) (hb : b.Occ D m') (hm : D ≤ m + m')
    (hl : a.rows.length + b.rows.length + 1 ≤ 2 * D) : (a.merge sep s b).Occ D D := by
  cases h with
  | zero =>
    have h1 : m ≤ (Leaf.rows a).length := ha.1
    have h2 : m' ≤ (Leaf.rows b).length := hb.1
    have h3 : (Leaf.rows a).length + (Leaf.rows b).length + 1 ≤ 2 * D := hl
    refine ⟨?_, ?_⟩ <;> simp only [merge, List.length_append] <;> omega
  | succ h =>
    have h1 : m ≤ (Inner.rows a).length := ha.1.1
    have h2 : m' ≤ (Inner.rows b).length := hb.1.1
    have h3 : (Inner.rows a).length + (Inner.rows b).length + 1 ≤ 2 * D := hl
    have h4 := ha.2.1
    have h5 := hb.2.1
    refine ⟨⟨?_, ?_⟩, ?_, fun c hc => ?_⟩
    · simp only [merge, List.length_append, List.length_cons]
      omega
    · simp only [merge, List.length_append, List.length_cons]
      omega
    · simp only [merge, List.length_append, List.length_cons]
      omega
    · exact (List.mem_append.mp hc).elim (ha.2.2 c) (hb.2.2 c)

theorem fromRight_occ {a b : Tree A R K h} (hD : 1 ≤ D) (ha : a.Occ D (D - 1))
    (hal : a.rows.length < D) (hb : b.Occ D D) (hlt : D < b.rows.length) :
    (a.fromRight sep s b).1.Occ D D ∧ (a.fromRight sep s b).2.2.Occ D D := by
  cases h with
  | zero =>
    obtain ⟨addr, next, rows⟩ := b
    change D < rows.length at hlt
    have h2 : rows.length ≤ 2 * D := hb.2
    have h1 : D - 1 ≤ (Leaf.rows a).length := ha.1
    change (Leaf.rows a).length < D at hal
    obtain _ | ⟨x, _ | ⟨y, rows⟩⟩ := rows
    · exact absurd hlt (Nat.not_lt_zero D)
    · exact absurd hlt (by simp; omega)
    · rw [List.length_cons, List.length_cons] at hlt h2
      refine ⟨⟨?_, ?_⟩, ?_, ?_⟩ <;>
        simp only [fromRight, List.length_append, List.length_cons, List.length_nil] <;> omega
  | succ h =>
    obtain ⟨addr, rows, kids⟩ := b
    change D < rows.length at hlt
    obtain ⟨⟨-, h2⟩, h3, h4⟩ := hb
    obtain ⟨⟨h1, -⟩, h5, h6⟩ := ha
    change rows.length ≤ 2 * D at h2
    change kids.length = rows.length + 1 at h3
    change (Inner.rows a).length < D at hal
    obtain _ | ⟨x, rows⟩ := rows
    · exact absurd hlt (Nat.not_lt_zero D)
    obtain _ | ⟨c, kids⟩ := kids
    · cases h3
    rw [List.length_cons] at hlt h2
    rw [List.length_cons, List.length_cons] at h3
    refine ⟨⟨⟨?_, ?_⟩, ?_, fun d hd => ?_⟩, ⟨?_, ?_⟩, ?_, fun d hd => ?_⟩
    · simp only [fromRight, List.length_append, List.length_cons, List.length_nil]
      omega
    · simp only [fromRight, List.length_append, List.length_cons, List.length_nil]
      omega
    · simp only [fromRight, List.length_append, List.length_cons, List.length_nil]
      omega
    · rcases List.mem_append.mp hd with hd | hd
      · exact h6 d hd
      · rw [List.mem_singleton.mp hd]
        exact h4 c List.mem_cons_self
    · simp only [fromRight]
      omega
    · simp only [fromRight]
      omega
    · simp only [fromRight]
      omega
    · exact h4 d (List.mem_cons_of_mem _ hd)

theorem fromLeft_occ {a b : Tree A R K h} (hD : 1 ≤ D) (ha : a.Occ D D) (hlt : D < a.rows.length)
    (hb : b.Occ D (D - 1)) (hbl : b.rows.length < D) :
    (a.fromLeft sep s b).1.Occ D D ∧ (a.fromLeft sep s b).2.2.Occ D D := by
  cases h with
  | zero =>
    obtain ⟨addr, next, rows⟩ := a
    change D < rows.length at hlt
    have h2 : rows.length ≤ 2 * D := ha.2
    have h1 : D - 1 ≤ (Leaf.rows b).length := hb.1
    change (Leaf.rows b).length < D at hbl
    obtain ⟨l, x, rfl⟩ : ∃ l x, rows = l ++ [x] :=
      ⟨_, _, (List.dropLast_append_getLast (List.ne_nil_of_length_pos (by omega))).symm⟩
    rw [List.length_append, List.length_singleton] at hlt h2
    refine ⟨⟨?_, ?_⟩, ?_, ?_⟩ <;>
      simp only [fromLeft, List.getLast?_concat, List.dropLast_concat, List.length_cons] <;> omega
  | succ h =>
    obtain ⟨addr, rows, kids⟩ := a
    change D < rows.length at hlt
    obtain ⟨⟨-, h2⟩, h3, h4⟩ := ha
    obtain ⟨⟨h1, -⟩, h5, h6⟩ := hb
    change rows.length ≤ 2 * D at h2
    change kids.length = rows.length + 1 at h3
    change (Inner.rows b).length < D at hbl
    obtain ⟨l, x, rfl⟩ : ∃ l x, rows = l ++ [x] :=
      ⟨_, _, (List.dropLast_append_getLast (List.ne_nil_of_length_pos (by omega))).symm⟩
    obtain ⟨ks, c, rfl⟩ : ∃ ks c, kids = ks ++ [c] :=
      ⟨_, _, (List.dropLast_append_getLast (List.ne_nil_of_length_eq_add_one h3)).symm⟩
    rw [List.length_append, List.length_singleton] at hlt h2
    rw [List.length_append, List.length_append, List.length_singleton, List.length_singleton] at h3
    refine ⟨⟨⟨?_, ?_⟩, ?_, fun d hd => ?_⟩, ⟨?_, ?_⟩, ?_, fun d hd => ?_⟩
    · simp only [fromLeft, List.getLast?_concat, List.dropLast_concat]
      omega
    · simp only [fromLeft, List.getLast?_concat, List.dropLast_concat]
      omega
    · simp only [fromLeft, List.getLast?_concat, List.dropLast_concat]
      omega
    · simp only [fromLeft, List.getLast?_concat, List.dropLast_concat] at hd
      exact h4 d (List.mem_append_left _ hd)
    · simp only [fromLeft, List.getLast?_concat, List.length_cons]
      omega
    · simp only [fromLeft, List.getLast?_concat, List.length_cons]
      omega
    · simp only [fromLeft, List.getLast?_concat, List.length_cons]
      omega
    · simp only [fromLeft, List.getLast?_concat] at hd
      rcases List.mem_cons.mp hd with rfl | hd
      · exact h4 d (by simp)
      · exact h6 d hd

/-! ## Addresses of neighbours -/

theorem merge_pages (a : Tree A R K h) (s : R × K) (b : Tree A R K h) :
    (b.addr ::ₘ (a.merge sep s b).pages : Multiset A) = a.pages + b.pages := by
  cases h with
  | zero => exact Multiset.add_comm {_} {_}
  | succ h =>
    simp only [merge, pages, addr, List.flatMap_append, ← Multiset.coe_add, ← Multiset.cons_coe,
      ← Multiset.singleton_add]
    abel

theorem fromRight_pages (a : Tree A R K h) (s : R × K) (b : Tree A R K h) :
    ((a.fromRight sep s b).1.pages + (a.fromRight sep s b).2.2.pages : Multiset A) =
      a.pages + b.pages := by
  cases h with
  | zero =>
    simp only [fromRight]
    split <;> rfl
  | succ h =>
    simp only [fromRight]
    split
    · next x rows c kids hr hk =>
      simp only [pages, hk, List.flatMap_append, List.flatMap_cons, List.flatMap_nil,
        List.append_nil, ← Multiset.coe_add, ← Multiset.cons_coe, ← Multiset.singleton_add]
      abel
    · rfl

theorem fromLeft_pages (a : Tree A R K h) (s : R × K) (b : Tree A R K h) :
    ((a.fromLeft sep s b).1.pages + (a.fromLeft sep s b).2.2.pages : Multiset A) =
      a.pages + b.pages := by
  cases h with
  | zero =>
    simp only [fromLeft]
    split <;> rfl
  | succ h =>
    simp only [fromLeft]
    split
    · next x c hr hk =>
      obtain ⟨kids, hk⟩ := List.getLast?_eq_some_iff.mp hk
      simp only [pages, hk, List.dropLast_concat, List.flatMap_append, List.flatMap_cons,
        List.flatMap_nil, List.append_nil, ← Multiset.coe_add, ← Multiset.cons_coe,
        ← Multiset.singleton_add]
      abel
    · rfl

theorem merge_addr (a : Tree A R K h) (s : R × K) (b : Tree A R K h) :
    (a.merge sep s b).addr = a.addr := by
  cases h <;> rfl

theorem fromRight_addr (a : Tree A R K h) (s : R × K) (b : Tree A R K h) :
    (a.fromRight sep s b).1.addr = a.addr ∧ (a.fromRight sep s b).2.2.addr = b.addr := by
  cases h <;> simp only [fromRight] <;> split <;> exact ⟨rfl, rfl⟩

theorem fromLeft_addr (a : Tree A R K h) (s : R × K) (b : Tree A R K h) :
    (a.fromLeft sep s b).1.addr = a.addr ∧ (a.fromLeft sep s b).2.2.addr = b.addr := by
  cases h <;> simp only [fromLeft] <;> split <;> exact ⟨rfl, rfl⟩

end Tree

/-! ## Rebalancing -/

namespace Inner

variable {D : ℕ} {sep : R} {t : Inner A R K (Tree A R K h)} {i j : ℕ} {a b : Tree A R K h}
  {s : R × K}

theorem flat_setPair (hk : t.kids.length = t.rows.length + 1) (hj : j < t.rows.length) :
    Tree.flat (h := h + 1) (t.setPair j a s b) = t.pre j ++ a.pairFlat s b ++ t.post (j + 1) := by
  have e := weave_segment (t.rows.take j) [s] ((t.kids.take j).map Tree.flat) [a.flat, b.flat]
    (by simp; omega) rfl
    (t.rows.drop (j + 1)) ((t.kids.drop (j + 2)).map Tree.flat)
  change weave (_ ++ s :: _) (List.map _ (_ ++ a :: b :: _)) = _
  rw [List.map_append, List.map_cons, List.map_cons]
  simpa [weave, after, pre, post, Tree.pairFlat] using e

theorem flat_setMerged (hk : t.kids.length = t.rows.length + 1) (hj : j < t.rows.length) :
    Tree.flat (h := h + 1) (t.setMerged j a) = t.pre j ++ a.flat ++ t.post (j + 1) := by
  have e := weave_segment (t.rows.take j) [] ((t.kids.take j).map Tree.flat) [a.flat]
    (by simp; omega) rfl
    (t.rows.drop (j + 1)) ((t.kids.drop (j + 2)).map Tree.flat)
  change weave (_ ++ _) (List.map _ (_ ++ a :: _)) = _
  rw [List.map_append, List.map_cons]
  simpa [weave, after, pre, post] using e

/-- The subtrees `j` and `j + 1` with the separator between them. -/
structure PairAt (t : Inner A R K (Tree A R K h)) (j : ℕ) (a : Tree A R K h) (s : R × K)
    (b : Tree A R K h) : Prop where
  left : t.kids[j]? = some a
  sep : t.rows[j]? = some s
  right : t.kids[j + 1]? = some b

theorem PairAt.setPair_self (hp : t.PairAt j a s b) : t.setPair j a s b = t := by
  obtain ⟨h1, h2, h3⟩ := hp
  obtain ⟨hj1, rfl⟩ := List.getElem?_eq_some_iff.mp h1
  obtain ⟨hj2, rfl⟩ := List.getElem?_eq_some_iff.mp h2
  obtain ⟨hj3, rfl⟩ := List.getElem?_eq_some_iff.mp h3
  obtain ⟨x, rows, kids⟩ := t
  simp only [setPair, mk.injEq, true_and]
  rw [← List.drop_eq_getElem_cons hj2, ← List.drop_eq_getElem_cons hj3,
    ← List.drop_eq_getElem_cons hj1, List.take_append_drop, List.take_append_drop]
  exact ⟨rfl, rfl⟩

theorem PairAt.flat_eq (hp : t.PairAt j a s b) (hk : t.kids.length = t.rows.length + 1) :
    Tree.flat (h := h + 1) t = t.pre j ++ a.pairFlat s b ++ t.post (j + 1) := by
  rw [← flat_setPair hk (List.getElem?_eq_some_iff.mp hp.sep).1, hp.setPair_self]

theorem PairAt.kids_eq (hp : t.PairAt j a s b) :
    t.kids = t.kids.take j ++ a :: b :: t.kids.drop (j + 2) :=
  (congrArg Inner.kids hp.setPair_self).symm

theorem exists_pairAt (hk : t.kids.length = t.rows.length + 1) (hj : j < t.rows.length) :
    ∃ a s b, t.PairAt j a s b :=
  ⟨_, _, _, List.getElem?_eq_getElem (by omega), List.getElem?_eq_getElem hj,
    List.getElem?_eq_getElem (by omega)⟩

/-- One subtree, `i`, has a row too few. -/
structure Deficient (D : ℕ) (t : Inner A R K (Tree A R K h)) (i : ℕ) : Prop where
  kids : t.kids.length = t.rows.length + 1
  pos : 1 ≤ t.rows.length
  le : i ≤ t.rows.length
  others : ∀ k c, k ≠ i → t.kids[k]? = some c → c.Occ D D
  here : ∀ c, t.kids[i]? = some c → c.Occ D (D - 1) ∧ c.rows.length < D

theorem Deficient.side_lt (hd : t.Deficient D i) : t.side i < t.rows.length := by
  have := hd.pos
  have := hd.le
  unfold side
  split_ifs <;> omega

/-- **The cases of a repair.** -/
inductive Repair (D : ℕ) (sep : R) (t : Inner A R K (Tree A R K h)) (i : ℕ) (a : Tree A R K h)
    (s : R × K) (b : Tree A R K h) : Prop
  | fromRight (hi : i < t.rows.length) (hlt : D < b.rows.length)
      (eq : t.rebalance D sep i = (t.setPair (t.side i) (a.fromRight sep s b).1
        (a.fromRight sep s b).2.1 (a.fromRight sep s b).2.2, none))
  | fromLeft (hi : ¬ i < t.rows.length) (hlt : D < a.rows.length)
      (eq : t.rebalance D sep i = (t.setPair (t.side i) (a.fromLeft sep s b).1
        (a.fromLeft sep s b).2.1 (a.fromLeft sep s b).2.2, none))
  | merge (hle : if i < t.rows.length then ¬ D < b.rows.length else ¬ D < a.rows.length)
      (eq : t.rebalance D sep i = (t.setMerged (t.side i) (a.merge sep s b),
        some (t.side i, b.addr)))

theorem PairAt.rebalance_right (hp : t.PairAt (t.side i) a s b) (D : ℕ) (sep : R)
    (hi : i < t.rows.length) : t.rebalance D sep i =
      if D < b.rows.length then (t.setPair (t.side i) (a.fromRight sep s b).1
        (a.fromRight sep s b).2.1 (a.fromRight sep s b).2.2, none)
      else (t.setMerged (t.side i) (a.merge sep s b), some (t.side i, b.addr)) := by
  unfold rebalance
  simp only [hp.left, hp.sep, hp.right, if_pos hi]

theorem PairAt.rebalance_left (hp : t.PairAt (t.side i) a s b) (D : ℕ) (sep : R)
    (hi : ¬ i < t.rows.length) : t.rebalance D sep i =
      if D < a.rows.length then (t.setPair (t.side i) (a.fromLeft sep s b).1
        (a.fromLeft sep s b).2.1 (a.fromLeft sep s b).2.2, none)
      else (t.setMerged (t.side i) (a.merge sep s b), some (t.side i, b.addr)) := by
  unfold rebalance
  simp only [hp.left, hp.sep, hp.right, if_neg hi]

theorem PairAt.repair (hp : t.PairAt (t.side i) a s b) (D : ℕ) (sep : R) :
    t.Repair D sep i a s b := by
  by_cases hi : i < t.rows.length
  · have e := hp.rebalance_right D sep hi
    by_cases hlt : D < b.rows.length
    · rw [if_pos hlt] at e
      exact .fromRight hi hlt e
    · rw [if_neg hlt] at e
      exact .merge (by rwa [if_pos hi]) e
  · have e := hp.rebalance_left D sep hi
    by_cases hlt : D < a.rows.length
    · rw [if_pos hlt] at e
      exact .fromLeft hi hlt e
    · rw [if_neg hlt] at e
      exact .merge (by rwa [if_neg hi]) e

theorem Deficient.pair (hd : t.Deficient D i) (hp : t.PairAt (t.side i) a s b) :
    (i < t.rows.length ∧ (a.Occ D (D - 1) ∧ a.rows.length < D) ∧ b.Occ D D) ∨
      (¬ i < t.rows.length ∧ a.Occ D D ∧ b.Occ D (D - 1) ∧ b.rows.length < D) := by
  obtain ⟨h1, -, h3⟩ := hp
  have hpos := hd.pos
  have hle := hd.le
  unfold side at h1 h3
  by_cases hi : i < t.rows.length
  · rw [if_pos hi] at h1 h3
    exact Or.inl ⟨hi, hd.here a h1, hd.others (i + 1) b (by omega) h3⟩
  · rw [if_neg hi] at h1 h3
    rw [Nat.sub_add_cancel (by omega)] at h3
    exact Or.inr ⟨hi, hd.others (i - 1) a (by omega) h1, hd.here b h3⟩

theorem Deficient.pairAt_right (hd : t.Deficient D i) (hi : i < t.rows.length) {c : Tree A R K h}
    (hc : t.kids[i]? = some c) : t.side i = i ∧ ∃ s b, t.PairAt (t.side i) c s b ∧ b.Occ D D := by
  have hs : t.side i = i := if_pos hi
  obtain ⟨a, s, b, hp⟩ := exists_pairAt hd.kids hd.side_lt
  obtain ⟨-, -, hb⟩ := (hd.pair hp).resolve_right fun h => h.1 hi
  have hl := hp.left
  rw [hs, hc] at hl
  obtain rfl := Option.some.inj hl
  exact ⟨hs, s, b, hp, hb⟩

theorem Deficient.pairAt_left (hd : t.Deficient D i) (hi : ¬ i < t.rows.length) {c : Tree A R K h}
    (hc : t.kids[i]? = some c) :
    t.side i + 1 = i ∧ ∃ a s, t.PairAt (t.side i) a s c ∧ a.Occ D D := by
  have hpos := hd.pos
  have hle := hd.le
  have hs : t.side i + 1 = i := by
    rw [side, if_neg hi]
    omega
  obtain ⟨a, s, b, hp⟩ := exists_pairAt hd.kids hd.side_lt
  obtain ⟨-, ha, -⟩ := (hd.pair hp).resolve_left fun h => hi h.1
  have hr := hp.right
  rw [hs, hc] at hr
  obtain rfl := Option.some.inj hr
  exact ⟨hs, a, s, hp, ha⟩

theorem Deficient.exists_other (hd : t.Deficient D i) {c : Tree A R K h}
    (hc : c ∈ t.kids.take (t.side i) ∨ c ∈ t.kids.drop (t.side i + 2)) :
    ∃ k, k ≠ i ∧ t.kids[k]? = some c := by
  have hpos := hd.pos
  have hle := hd.le
  have hside : t.side i = i ∨ t.side i + 1 = i := by
    unfold side
    split_ifs <;> omega
  rcases hc with hc | hc
  · obtain ⟨k, hk, rfl⟩ := List.getElem_of_mem hc
    rw [List.length_take] at hk
    refine ⟨k, by omega, ?_⟩
    rw [List.getElem_take]
    exact List.getElem?_eq_getElem _
  · obtain ⟨k, hk, rfl⟩ := List.getElem_of_mem hc
    rw [List.length_drop] at hk
    refine ⟨t.side i + 2 + k, by omega, ?_⟩
    rw [List.getElem_drop]
    exact List.getElem?_eq_getElem _

theorem Deficient.rest (hd : t.Deficient D i) {c : Tree A R K h}
    (hc : c ∈ t.kids.take (t.side i) ∨ c ∈ t.kids.drop (t.side i + 2)) : c.Occ D D := by
  obtain ⟨k, hk, hc⟩ := hd.exists_other hc
  exact hd.others k c hk hc

/-- What a repair leaves. -/
structure Rebalanced (D : ℕ) (t : Inner A R K (Tree A R K h))
    (r : Inner A R K (Tree A R K h) × Option (ℕ × A)) : Prop where
  flat : Resep (Tree.flat (h := h + 1) t) (Tree.flat (h := h + 1) r.1)
  addr : r.1.addr = t.addr
  kids : r.1.kids.length = r.1.rows.length + 1
  occ : ∀ c ∈ r.1.kids, c.Occ D D
  rows : r.1.rows.length + (r.2.elim 0 fun _ => 1) = t.rows.length
  pages : (r.2.elim 0 (fun p => {p.2}) : Multiset A) + Tree.pages (h := h + 1) r.1 =
    (Tree.pages (h := h + 1) t : Multiset A)

theorem Deficient.rebalanced_pair (hd : t.Deficient D i) (hp : t.PairAt (t.side i) a s b)
    {a' b' : Tree A R K h} {s' : R × K} (hf : Resep (a.pairFlat s b) (a'.pairFlat s' b'))
    (hocc : a'.Occ D D ∧ b'.Occ D D)
    (hpg : (a'.pages + b'.pages : Multiset A) = a.pages + b.pages) :
    Rebalanced D t (t.setPair (t.side i) a' s' b', none) := by
  have hk := hd.kids
  have hlt := hd.side_lt
  refine ⟨?_, rfl, ?_, fun c hc => ?_, ?_, ?_⟩
  · rw [flat_setPair hk hlt, hp.flat_eq hk]
    exact hf.context _ _
  · simp only [setPair, List.length_append, List.length_take, List.length_cons, List.length_drop]
    omega
  · simp only [setPair, List.mem_append, List.mem_cons] at hc
    rcases hc with hc | rfl | rfl | hc
    · exact hd.rest (Or.inl hc)
    · exact hocc.1
    · exact hocc.2
    · exact hd.rest (Or.inr hc)
  · simp only [setPair, Option.elim, List.length_append, List.length_take, List.length_cons,
      List.length_drop]
    omega
  · have e : Tree.pages (h := h + 1) t = t.addr :: t.kids.flatMap Tree.pages := rfl
    rw [e, hp.kids_eq]
    simp only [setPair, Option.elim, Tree.pages, List.flatMap_append, List.flatMap_cons,
      ← Multiset.coe_add, ← Multiset.cons_coe, Multiset.coe_nil, zero_add]
    rw [← add_assoc (Multiset.ofList a'.pages), hpg, add_assoc]

theorem Deficient.rebalanced_merged (hd : t.Deficient D i) (hp : t.PairAt (t.side i) a s b)
    {a' : Tree A R K h} (hf : Resep (a.pairFlat s b) a'.flat) (hocc : a'.Occ D D)
    (hpg : (b.addr ::ₘ a'.pages : Multiset A) = a.pages + b.pages) :
    Rebalanced D t (t.setMerged (t.side i) a', some (t.side i, b.addr)) := by
  have hk := hd.kids
  have hlt := hd.side_lt
  refine ⟨?_, rfl, ?_, fun c hc => ?_, ?_, ?_⟩
  · rw [flat_setMerged hk hlt, hp.flat_eq hk]
    exact hf.context _ _
  · simp only [setMerged, List.length_append, List.length_take, List.length_cons, List.length_drop]
    omega
  · simp only [setMerged, List.mem_append, List.mem_cons] at hc
    rcases hc with hc | rfl | hc
    · exact hd.rest (Or.inl hc)
    · exact hocc
    · exact hd.rest (Or.inr hc)
  · simp only [setMerged, Option.elim, List.length_append, List.length_take, List.length_drop]
    omega
  · have e : Tree.pages (h := h + 1) t = t.addr :: t.kids.flatMap Tree.pages := rfl
    rw [e, hp.kids_eq]
    simp only [setMerged, Option.elim, Tree.pages, List.flatMap_append, List.flatMap_cons,
      ← Multiset.coe_add, ← Multiset.cons_coe, ← Multiset.singleton_add, Multiset.coe_singleton]
      at hpg ⊢
    rw [← add_assoc (Multiset.ofList a.pages), ← hpg]
    abel

/-- **A repair** keeps the rows and their order, and leaves every subtree with enough rows. -/
theorem Deficient.rebalance (hD : 1 ≤ D) (hd : t.Deficient D i) (sep : R) :
    Rebalanced D t (t.rebalance D sep i) := by
  obtain ⟨a, s, b, hp⟩ := exists_pairAt hd.kids hd.side_lt
  have hpair := hd.pair hp
  cases hp.repair D sep with
  | fromRight hi hlt eq =>
    obtain ⟨-, ⟨ha, hal⟩, hb⟩ := hpair.resolve_right fun h' => h'.1 hi
    rw [eq]
    exact hd.rebalanced_pair hp (Tree.fromRight_flat hD ha hb hlt)
      (Tree.fromRight_occ hD ha hal hb hlt) (Tree.fromRight_pages a s b)
  | fromLeft hi hlt eq =>
    obtain ⟨-, ha, hb, hbl⟩ := hpair.resolve_left fun h' => hi h'.1
    rw [eq]
    exact hd.rebalanced_pair hp (Tree.fromLeft_flat hD ha hb hlt)
      (Tree.fromLeft_occ hD ha hlt hb hbl) (Tree.fromLeft_pages a s b)
  | merge hle eq =>
    rw [eq]
    rcases hpair with ⟨hi, ⟨ha, hal⟩, hb⟩ | ⟨hi, ha, hb, hbl⟩
    · rw [if_pos hi] at hle
      exact hd.rebalanced_merged hp (Tree.merge_flat ha hb)
        (Tree.merge_occ ha hb (by omega) (by omega)) (Tree.merge_pages a s b)
    · rw [if_neg hi] at hle
      exact hd.rebalanced_merged hp (Tree.merge_flat ha hb)
        (Tree.merge_occ ha hb (by omega) (by omega)) (Tree.merge_pages a s b)

theorem Deficient.rebalance_merged (hd : t.Deficient D i) {x : A}
    (hr : (t.rebalance D sep i).2 = some (j, x)) : j < t.rows.length ∧
      (t.rebalance D sep i).1.rows = t.rows.eraseIdx j ∧
      (t.rebalance D sep i).1.kids.map Tree.addr = (t.kids.map Tree.addr).eraseIdx (j + 1) := by
  obtain ⟨a, s, b, hp⟩ := exists_pairAt hd.kids hd.side_lt
  cases hp.repair D sep with
  | fromRight hi hlt eq => rw [eq] at hr; cases hr
  | fromLeft hi hlt eq => rw [eq] at hr; cases hr
  | merge hle eq =>
    rw [eq] at hr ⊢
    obtain ⟨rfl, -⟩ := Prod.mk.inj (Option.some.inj hr)
    refine ⟨hd.side_lt, (List.eraseIdx_eq_take_drop_succ ..).symm, ?_⟩
    have hl : ((t.kids.take (t.side i)).map Tree.addr).length = t.side i := by
      have := hd.kids
      have := hd.side_lt
      simp
      omega
    conv_rhs => rw [hp.kids_eq, List.map_append, List.map_cons, List.map_cons,
      List.eraseIdx_append_of_length_le (by omega), hl, Nat.add_sub_cancel_left,
      List.eraseIdx_cons_succ, List.eraseIdx_cons_zero]
    simp [setMerged, Tree.merge_addr]

theorem Deficient.rebalance_none (hd : t.Deficient D i) (hr : (t.rebalance D sep i).2 = none) :
    (t.rebalance D sep i).1.kids.map Tree.addr = t.kids.map Tree.addr := by
  obtain ⟨a, s, b, hp⟩ := exists_pairAt hd.kids hd.side_lt
  cases hp.repair D sep with
  | fromRight hi hlt eq =>
    rw [eq]
    conv_rhs => rw [hp.kids_eq]
    simp [setPair, Tree.fromRight_addr]
  | fromLeft hi hlt eq =>
    rw [eq]
    conv_rhs => rw [hp.kids_eq]
    simp [setPair, Tree.fromLeft_addr]
  | merge hle eq => rw [eq] at hr; cases hr

theorem rows_graft_one {T : Type} (t : Inner A R K T) (i : ℕ) (c : T) :
    (t.graft i [c] []).rows = t.rows := by
  simp [graft]

theorem kids_graft_one {T : Type} (t : Inner A R K T) {i : ℕ} (hi : i < t.kids.length) (c : T) :
    (t.graft i [c] []).kids = t.kids.set i c := by
  rw [List.set_eq_take_append_cons_drop, if_pos hi]
  simp [graft]

end Inner

/-! ## Deletion -/

section Delete

variable {D m : ℕ}

theorem Tree.Occ.of_le {t : Tree A R K h} {m' : ℕ} (ht : t.Occ D m) (hm : m' ≤ t.rows.length) :
    t.Occ D m' := by
  cases h with
  | zero => exact ⟨hm, ht.2⟩
  | succ h => exact ⟨⟨hm, ht.1.2⟩, ht.2⟩

theorem Inner.deficient_graft {t : Inner A R K (Tree A R K h)} {i : ℕ} {c : Tree A R K h}
    (ht : Tree.Occ (h := h + 1) D m t) (hm : 1 ≤ m) (hi : i ≤ t.rows.length)
    (hc : c.Occ D (D - 1)) (hlt : ¬ D ≤ c.rows.length) : (t.graft i [c] []).Deficient D i := by
  obtain ⟨⟨h1, -⟩, hk, hocc⟩ := ht
  have hi' : i < t.kids.length := by
    have : t.kids.length = t.rows.length + 1 := hk
    omega
  refine ⟨?_, ?_, ?_, fun k d hki hd => ?_, fun d hd => ?_⟩
  · rw [rows_graft_one, kids_graft_one t hi', List.length_set]
    exact hk
  · rw [rows_graft_one]
    exact hm.trans h1
  · rwa [rows_graft_one]
  · rw [kids_graft_one t hi', List.getElem?_set_ne hki.symm] at hd
    exact hocc d (List.mem_of_getElem? hd)
  · rw [kids_graft_one t hi', List.getElem?_set_self hi'] at hd
    obtain rfl := Option.some.inj hd
    exact ⟨hc, not_le.mp hlt⟩

/-- What a deletion in subtree `i` leaves of a node. -/
structure Inner.Shrinks (D m : ℕ) (t : Inner A R K (Tree A R K h)) (i : ℕ) (r : Shrunk A R K h)
    (r' : Shrunk A R K (h + 1)) : Prop where
  occ : r'.tree.Occ D (m - 1)
  addr : r'.tree.addr = t.addr
  pages : (r'.freed + r'.tree.pages : Multiset A) = r.freed + (t.addr ::ₘ
    ((t.kids.take i).flatMap Tree.pages + r.tree.pages + (t.kids.drop (i + 1)).flatMap Tree.pages))
  flat : Resep (t.pre i ++ r.tree.flat ++ t.post i) r'.tree.flat

theorem Inner.pages_graft_one {t : Inner A R K (Tree A R K h)} {i : ℕ} {c : Tree A R K h} :
    (Tree.pages (h := h + 1) (t.graft i [c] []) : Multiset A) = t.addr ::ₘ
      ((t.kids.take i).flatMap Tree.pages + c.pages + (t.kids.drop (i + 1)).flatMap Tree.pages) := by
  simp [Tree.pages, Inner.graft]

/-- **A deletion in subtree `i`**, from what it does there. -/
theorem Inner.shrinks (hD : 1 ≤ D) {t : Inner A R K (Tree A R K h)} {i : ℕ} {r : Shrunk A R K h}
    (ht : Tree.Occ (h := h + 1) D m t) (hm : 1 ≤ m) (hi : i ≤ t.rows.length)
    (hr : r.tree.Occ D (D - 1)) (s : R) : t.Shrinks D m i r (t.shrink D s i r) := by
  have hk : t.kids.length = t.rows.length + 1 := ht.2.1
  have hflat : Tree.flat (h := h + 1) (t.graft i [r.tree] []) =
      t.pre i ++ r.tree.flat ++ t.post i :=
    (Inner.flat_graft hk hi rfl).trans (by simp [weave, after])
  simp only [Inner.shrink]
  split_ifs with hle
  · have hi' : i < t.kids.length := by omega
    refine ⟨⟨⟨?_, ?_⟩, ?_, fun d hd => ?_⟩, rfl, by rw [Inner.pages_graft_one], hflat ▸ .refl _⟩
    · simp only [Inner.rows_graft_one]
      exact (Nat.sub_le m 1).trans ht.1.1
    · simp only [Inner.rows_graft_one]
      exact ht.1.2
    · simp only [Inner.rows_graft_one]
      rw [Inner.kids_graft_one _ hi', List.length_set]
      exact hk
    · simp only at hd
      rw [Inner.kids_graft_one _ hi'] at hd
      rcases List.mem_or_eq_of_mem_set hd with hd | rfl
      · exact ht.2.2 d hd
      · exact hr.of_le hle
  · have hd := (Inner.deficient_graft ht hm hi hr hle).rebalance hD s
    have h1 : m ≤ t.rows.length := ht.1.1
    have h2 : t.rows.length ≤ 2 * D := ht.1.2
    have hrows := hd.rows
    have hpages := hd.pages
    rw [Inner.rows_graft_one] at hrows
    rw [Inner.pages_graft_one] at hpages
    have hf := hd.flat
    rw [hflat] at hf
    generalize (t.graft i [r.tree] []).rebalance D s i = q at hd hrows hpages hf ⊢
    obtain ⟨q, _ | ⟨j, a⟩⟩ := q
    · refine ⟨⟨⟨?_, ?_⟩, hd.kids, hd.occ⟩, hd.addr, ?_, hf⟩
      · simp only [Option.elim] at hrows ⊢
        omega
      · simp only [Option.elim] at hrows ⊢
        omega
      · rw [← hpages]
        simp
    · refine ⟨⟨⟨?_, ?_⟩, hd.kids, hd.occ⟩, hd.addr, ?_, hf⟩
      · simp only [Option.elim] at hrows ⊢
        omega
      · simp only [Option.elim] at hrows ⊢
        omega
      · rw [← hpages]
        simp only [Option.elim, ← Multiset.cons_coe, ← Multiset.singleton_add]
        abel

theorem Inner.shrink_of_le {t : Inner A R K (Tree A R K h)} {i : ℕ} {r : Shrunk A R K h} {s : R}
    (hle : D ≤ r.tree.rows.length) :
    t.shrink D s i r = ⟨t.graft i [r.tree] [], r.freed, none⟩ := by
  simp only [Inner.shrink, if_pos hle]

theorem Inner.shrink_of_lt {t : Inner A R K (Tree A R K h)} {i : ℕ} {r : Shrunk A R K h} {s : R}
    (hlt : ¬ D ≤ r.tree.rows.length) : t.shrink D s i r =
      ⟨((t.graft i [r.tree] []).repaired D s i).tree,
        ((t.graft i [r.tree] []).repaired D s i).freed ++ r.freed,
        ((t.graft i [r.tree] []).repaired D s i).merged⟩ := by
  simp only [Inner.shrink, if_neg hlt, Inner.repaired]
  rcases (t.graft i [r.tree] []).rebalance D s i with ⟨q, _ | ⟨j, x⟩⟩ <;> rfl

theorem Inner.addrs_graft {t : Inner A R K (Tree A R K h)} {i : ℕ} {c c' : Tree A R K h}
    (hc : t.kids[i]? = some c) (ha : c'.addr = c.addr) :
    (t.graft i [c'] []).kids.map Tree.addr = t.kids.map Tree.addr := by
  obtain ⟨hi, rfl⟩ := List.getElem?_eq_some_iff.mp hc
  rw [Inner.kids_graft_one t hi, List.map_set, ha]
  refine List.ext_getElem (by simp) fun j _ _ => ?_
  rw [List.getElem_set]
  split_ifs with h
  · subst h
    simp
  · rfl

variable [LinearOrder K] {k : K} {sep : ℕ → R}

theorem Tree.delete_succ {t : Inner A R K (Tree A R K h)} {c : Tree A R K h}
    (hc : t.kids[rank k t.rows]? = some c) : Tree.delete (h := h + 1) D k sep t =
      t.shrink D (sep h) (rank k t.rows) (c.delete D k sep) := by
  simp only [Tree.delete, hc]

variable (k sep) in
/-- **Deletion keeps occupancy**, up to one row in the root. -/
theorem Tree.delete_occ (hD : 1 ≤ D) : ∀ {h m : ℕ} {t : Tree A R K h}, t.Occ D m →
    (h ≠ 0 → 1 ≤ m) → (t.delete D k sep).tree.Occ D (m - 1)
  | 0, m, t => fun ht _ => by
    obtain ⟨a, nx, rows⟩ := t
    have h1 : m ≤ rows.length := ht.1
    have h2 : rows.length ≤ 2 * D := ht.2
    have hl : rows.length - 1 ≤ (rows.eraseIdx (rank k rows - 1)).length ∧
        (rows.eraseIdx (rank k rows - 1)).length ≤ rows.length := by
      rw [List.length_eraseIdx]
      split_ifs <;> omega
    refine ⟨?_, ?_⟩ <;> simp only [Tree.delete] <;> omega
  | h + 1, m, t => fun ht hm => by
    obtain ⟨c, hc⟩ := Inner.exists_kid ht.2.1 (rank_le (k := k))
    rw [Tree.delete_succ hc]
    exact (Inner.shrinks hD ht (hm h.succ_ne_zero) rank_le
      (Tree.delete_occ hD (ht.2.2 c (List.mem_of_getElem? hc)) fun _ => hD) _).occ

variable (k sep) in
theorem Tree.delete_shrinks (hD : 1 ≤ D) {t : Inner A R K (Tree A R K h)}
    (ht : Tree.Occ (h := h + 1) D m t) (hm : 1 ≤ m) :
    ∃ c, t.kids[rank k t.rows]? = some c ∧ c.Occ D D ∧
      t.Shrinks D m (rank k t.rows) (c.delete D k sep) (Tree.delete (h := h + 1) D k sep t) := by
  obtain ⟨c, hc⟩ := Inner.exists_kid ht.2.1 (rank_le (k := k))
  have hcD : c.Occ D D := ht.2.2 c (List.mem_of_getElem? hc)
  rw [Tree.delete_succ hc]
  exact ⟨c, hc, hcD, Inner.shrinks hD ht hm rank_le (Tree.delete_occ _ _ hD hcD fun _ => hD) _⟩

variable (k sep) in
theorem Tree.delete_addr (hD : 1 ≤ D) {t : Tree A R K h} (ht : t.Occ D m) (hm : h ≠ 0 → 1 ≤ m) :
    (t.delete D k sep).tree.addr = t.addr := by
  cases h with
  | zero => rfl
  | succ h =>
    obtain ⟨c, -, -, hs⟩ := Tree.delete_shrinks k sep hD ht (hm h.succ_ne_zero)
    exact hs.addr

theorem Tree.delete_none (hD : 1 ≤ D) {t : Inner A R K (Tree A R K h)}
    (ht : Tree.Occ (h := h + 1) D m t) (hm : 1 ≤ m)
    (hg : (Tree.delete (h := h + 1) D k sep t).merged = none) :
    (Tree.delete (h := h + 1) D k sep t).tree.rows.length = t.rows.length ∧
      (Inner.kids (Tree.delete (h := h + 1) D k sep t).tree).map Tree.addr =
        t.kids.map Tree.addr := by
  obtain ⟨c, hc⟩ := Inner.exists_kid ht.2.1 (rank_le (k := k))
  have hco : c.Occ D D := ht.2.2 c (List.mem_of_getElem? hc)
  have haddr := Inner.addrs_graft hc (Tree.delete_addr k sep hD hco fun _ => hD)
  rw [Tree.delete_succ hc] at hg ⊢
  by_cases hle : D ≤ (c.delete D k sep).tree.rows.length
  · rw [Inner.shrink_of_le hle]
    exact ⟨congrArg List.length (Inner.rows_graft_one t _ _), haddr⟩
  · have hd := Inner.deficient_graft ht hm (rank_le (k := k))
        (Tree.delete_occ _ _ hD hco fun _ => hD) hle
    have hr := (hd.rebalance hD (sep h)).rows
    rw [Inner.shrink_of_lt hle] at hg ⊢
    have hn := Option.map_eq_none_iff.mp hg
    rw [hn, Inner.rows_graft_one] at hr
    exact ⟨hr, (hd.rebalance_none hn).trans haddr⟩

theorem Tree.delete_some (hD : 1 ≤ D) {t : Inner A R K (Tree A R K h)} {j : ℕ}
    (ht : Tree.Occ (h := h + 1) D m t) (hm : 1 ≤ m)
    (hg : (Tree.delete (h := h + 1) D k sep t).merged = some j) :
    j < t.rows.length ∧
      Inner.rows (Tree.delete (h := h + 1) D k sep t).tree = t.rows.eraseIdx j ∧
      (Inner.kids (Tree.delete (h := h + 1) D k sep t).tree).map Tree.addr =
        (t.kids.map Tree.addr).eraseIdx (j + 1) := by
  obtain ⟨c, hc⟩ := Inner.exists_kid ht.2.1 (rank_le (k := k))
  have hco : c.Occ D D := ht.2.2 c (List.mem_of_getElem? hc)
  have haddr := Inner.addrs_graft hc (Tree.delete_addr k sep hD hco fun _ => hD)
  rw [Tree.delete_succ hc] at hg ⊢
  by_cases hle : D ≤ (c.delete D k sep).tree.rows.length
  · rw [Inner.shrink_of_le hle] at hg
    cases hg
  · have hd := Inner.deficient_graft ht hm (rank_le (k := k))
        (Tree.delete_occ _ _ hD hco fun _ => hD) hle
    rw [Inner.shrink_of_lt hle] at hg ⊢
    obtain ⟨⟨j', x⟩, hr, rfl⟩ := Option.map_eq_some_iff.mp hg
    obtain ⟨h1, h2, h3⟩ := hd.rebalance_merged hr
    rw [Inner.rows_graft_one] at h1 h2
    rw [haddr] at h3
    exact ⟨h1, h2, h3⟩

variable (k sep) in
/-- **The nodes before a deletion** are those after it and the freed ones. -/
theorem Tree.delete_pages (hD : 1 ≤ D) : ∀ {h m : ℕ} {t : Tree A R K h}, t.Occ D m →
    (h ≠ 0 → 1 ≤ m) →
    ((t.delete D k sep).freed + (t.delete D k sep).tree.pages : Multiset A) = t.pages
  | 0, m, t => fun _ _ => rfl
  | h + 1, m, t => fun ht hm => by
    obtain ⟨c, hc, hcD, hs⟩ := Tree.delete_shrinks k sep hD ht (hm h.succ_ne_zero)
    have e : Tree.pages (h := h + 1) t = Inner.addr t :: (Inner.kids t).flatMap Tree.pages := rfl
    rw [hs.pages, e, Inner.pages_kids hc, ← Multiset.cons_coe, ← Multiset.coe_add,
      ← Multiset.coe_add, ← Tree.delete_pages hD hcD fun _ => hD]
    simp only [← Multiset.singleton_add]
    abel

/-- **Deletion removes the row**; separators change as they may. -/
theorem Tree.delete_flat (hD : 1 ≤ D) : ∀ {h m : ℕ} {t : Tree A R K h}, t.Occ D m →
    (h ≠ 0 → 1 ≤ m) → Sorted t.flat → ∀ {e : R × K}, e ∈ rowsOf t.flat → e.2 = k →
    ∃ l l', t.flat = l ++ (e, true) :: l' ∧ Resep (l ++ l') (t.delete D k sep).tree.flat
  | 0, m, t => fun _ _ hs e he hk => by
    obtain ⟨a, nx, rows⟩ := t
    have hrows : rows.Pairwise fun a b => a.2 < b.2 := sorted_leaf.mp hs
    have hmem : e ∈ rows := by
      change e ∈ rowsOf (rows.map fun e => (e, true)) at he
      rwa [rowsOf_leaf] at he
    obtain ⟨r₁, r₂, rfl⟩ := List.append_of_mem hmem
    have hrank : rank k (r₁ ++ e :: r₂) = r₁.length + 1 := hk ▸ rank_row hrows
    refine ⟨r₁.map fun e => (e, true), r₂.map fun e => (e, true), by simp [Tree.flat], ?_⟩
    have he : (r₁ ++ e :: r₂).eraseIdx r₁.length = r₁ ++ r₂ := by
      rw [List.eraseIdx_append_of_length_le le_rfl, Nat.sub_self, List.eraseIdx_cons_zero]
    simp only [Tree.delete, hrank, Nat.add_sub_cancel, he]
    change Resep _ ((r₁ ++ r₂).map fun e => (e, true))
    rw [List.map_append]
    exact .refl _
  | h + 1, m, t => fun ht hm hs e he hk => by
    obtain ⟨c, hc, hcD, hsh⟩ := Tree.delete_shrinks k sep hD ht (hm h.succ_ne_zero)
    obtain ⟨hcs, -, -⟩ := Inner.sorted_kid ht.2.1 hs hc
    have hec := Inner.mem_kid ht.2.1 hs (hk ▸ hc) he
    obtain ⟨l, l', hl, hr⟩ := Tree.delete_flat hD hcD (fun _ => hD) hcs hec hk
    refine ⟨Inner.pre t (rank k (Inner.rows t)) ++ l, l' ++ Inner.post t (rank k (Inner.rows t)),
      ?_, ?_⟩
    · rw [Inner.flat_eq ht.2.1 rank_le hc, hl]
      simp
    · refine Resep.trans ?_ hsh.flat
      simpa using hr.context (Inner.pre t (rank k (Inner.rows t)))
        (Inner.post t (rank k (Inner.rows t)))

/-- A deletion of height `h` copies separators of smaller height only. -/
theorem Tree.delete_congr {sep' : ℕ → R} : ∀ {h : ℕ} {t : Tree A R K h},
    (∀ j < h, sep j = sep' j) → t.delete D k sep = t.delete D k sep'
  | 0, t => fun _ => rfl
  | h + 1, t => fun hj => by
    simp only [Tree.delete, hj h h.lt_succ_self]
    split
    · rfl
    · next c _ => rw [Tree.delete_congr (t := c) fun j hjh => hj j (by omega)]

end Delete

end MyJQL
