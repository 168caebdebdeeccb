import MyJQL.Lib.BPlusTree.Leaves

/-!
# Renaming the nodes of a tree

* `Tree.rename σ t`: the tree with the addresses `σ`;
* **`Tree.insert_rename`**: an insertion does not look at addresses;
* `Tree.splitRow D e t`: the row that an insertion makes a separator of, if it splits a leaf;
  `Tree.insert_seps`: that separator is the only new one; `Tree.insert_sep`: else its name is not
  used.
-/

set_option linter.unusedSimpArgs false

namespace MyJQL

variable {A B R K : Type} {σ : A → B} {h : ℕ}

/-! ## Definitions -/

/-- The leaf with the addresses `σ`. -/
def Leaf.rename (σ : A → B) (t : Leaf A R K) : Leaf B R K := ⟨σ t.addr, σ t.next, t.rows⟩

/-- The tree with the addresses `σ`. -/
def Tree.rename (σ : A → B) : ∀ {h : ℕ}, Tree A R K h → Tree B R K h
  | 0, t => Leaf.rename σ t
  | h + 1, t => (⟨σ (Inner.addr t), Inner.rows t, (Inner.kids t).map (rename σ)⟩ :
      Inner B R K (Tree B R K h))

/-- Both parts of a tree with the addresses `σ`. -/
def Grown.rename (σ : A → B) (g : Grown A R K h) : Grown B R K h :=
  ⟨g.tree.rename σ, g.split.map fun p => (p.1, p.2.rename σ), g.used⟩

/-! ## Trees -/

theorem Tree.rename_leaves : ∀ {h : ℕ} (t : Tree A R K h),
    (t.rename σ).leaves = t.leaves.map (Leaf.rename σ)
  | 0, _ => rfl
  | h + 1, t => by
    change ((Inner.kids t).map (Tree.rename σ)).flatMap Tree.leaves = _
    rw [List.flatMap_map, Tree.leaves, List.map_flatMap]
    exact List.flatMap_congr fun c _ => Tree.rename_leaves c

theorem Tree.leaves_pages : ∀ {h : ℕ} {t : Tree A R K h}, ∀ x ∈ t.leaves, x.addr ∈ t.pages
  | 0, t => fun x hx => by
    obtain rfl := List.mem_singleton.mp hx
    exact List.mem_singleton_self _
  | h + 1, t => fun x hx => by
    obtain ⟨c, hc, hx⟩ := List.mem_flatMap.mp hx
    exact List.mem_cons_of_mem _ (List.mem_flatMap.mpr ⟨c, hc, Tree.leaves_pages x hx⟩)

theorem Linked.next {l : List (Leaf A R K)} {z : A} (hl : Linked l z) {x : Leaf A R K}
    (hx : x ∈ l) : x.next = z ∨ ∃ y ∈ l, x.next = y.addr := by
  induction l with
  | nil => exact absurd hx List.not_mem_nil
  | cons w l ih =>
    rcases List.mem_cons.mp hx with rfl | hx
    · rw [hl.1]
      cases l with
      | nil => exact Or.inl rfl
      | cons y l => exact Or.inr ⟨y, List.mem_cons_of_mem _ List.mem_cons_self, rfl⟩
    · exact (ih hl.2 hx).imp_right fun ⟨y, hy, e⟩ => ⟨y, List.mem_cons_of_mem _ hy, e⟩

theorem Tree.rename_eq_self {σ : A → A} : ∀ {h : ℕ} {t : Tree A R K h}, (∀ a ∈ t.pages, σ a = a) →
    (∀ x ∈ t.leaves, σ x.next = x.next) → t.rename σ = t
  | 0, t => fun hp hn => by
    obtain ⟨addr, next, rows⟩ := t
    change (⟨σ addr, σ next, rows⟩ : Leaf A R K) = ⟨addr, next, rows⟩
    rw [hp addr (List.mem_singleton_self _), hn _ (List.mem_singleton_self _)]
  | h + 1, t => fun hp hn => by
    obtain ⟨addr, rows, kids⟩ := t
    have hkids : kids.map (Tree.rename σ) = kids := by
      refine (List.map_congr_left fun c hc => ?_).trans (List.map_id kids)
      exact Tree.rename_eq_self
        (fun a ha => hp a (List.mem_cons_of_mem _ (List.mem_flatMap.mpr ⟨c, hc, ha⟩)))
        fun x hx => hn x (List.mem_flatMap.mpr ⟨c, hc, hx⟩)
    change (⟨σ addr, rows, kids.map (Tree.rename σ)⟩ : Inner A R K (Tree A R K h)) = ⟨addr, rows, kids⟩
    rw [hkids, hp addr List.mem_cons_self]

/-! ## Insertion -/

theorem Leaf.grow_rename {D : ℕ} {sep : R} {x : A} (t : Leaf A R K) :
    (t.rename σ).grow D sep (σ x) = (t.grow D sep x).rename σ := by
  unfold Leaf.grow
  rw [show (t.rename σ).rows = t.rows from rfl]
  cases t.rows.drop D with
  | nil => rfl
  | cons e r =>
    change (if t.rows.length ≤ 2 * D then _ else _) = Grown.rename σ (if _ then _ else _)
    split_ifs <;> rfl

theorem Inner.grow_rename {D n : ℕ} {x : A} (t : Inner A R K (Tree A R K h)) :
    Inner.grow D (σ x) n (Tree.rename (h := h + 1) σ t) = (t.grow D x n).rename σ := by
  obtain ⟨addr, rows, kids⟩ := t
  dsimp only [Inner.grow, Tree.rename]
  cases rows.drop D with
  | nil => rfl
  | cons e r =>
    dsimp only
    split_ifs
    · rfl
    · simp [Grown.rename, Tree.rename, List.map_take, List.map_drop]

theorem Inner.graft_rename {i : ℕ} {l : List (Tree A R K h)} {s : List (R × K)}
    (t : Inner A R K (Tree A R K h)) :
    Inner.graft (Tree.rename (h := h + 1) σ t) i (l.map (Tree.rename σ)) s =
      Tree.rename (h := h + 1) σ (t.graft i l s) := by
  simp [Inner.graft, Tree.rename, List.map_take, List.map_drop]

variable [LinearOrder K] {D m : ℕ} {e : R × K} {sep sep' : R} {new : ℕ → A}

/-- **An insertion does not look at addresses.** -/
theorem Tree.insert_rename : ∀ {h : ℕ} (t : Tree A R K h),
    (t.rename σ).insert D e sep (fun j => σ (new j)) = (t.insert D e sep new).rename σ
  | 0, t => Leaf.grow_rename (σ := σ) (x := new 0)
      { (t : Leaf A R K) with rows := _ }
  | h + 1, t => by
    obtain ⟨addr, rows, kids⟩ := t
    rcases hc : kids[rank e.2 rows]? with _ | c
    · simp [Tree.insert, Tree.rename, hc, Grown.rename]
    · have hc' : (Inner.kids (Tree.rename (h := h + 1) σ ⟨addr, rows, kids⟩))[rank e.2 rows]? =
          some (c.rename σ) := by
        change (kids.map (Tree.rename σ))[rank e.2 rows]? = _
        rw [List.getElem?_map, hc]
        rfl
      have ih := Tree.insert_rename c
      rcases hg : c.insert D e sep new with ⟨c', _ | ⟨s, r⟩, n⟩
      · rw [hg] at ih
        rw [Tree.insert_succ_none (t := ⟨addr, rows, kids⟩) hc hg]
        refine (Tree.insert_succ_none hc' ih).trans ?_
        exact congrArg (fun x => (⟨x, none, n⟩ : Grown B R K (h + 1)))
          (Inner.graft_rename (l := [c']) ⟨addr, rows, kids⟩)
      · rw [hg] at ih
        rw [Tree.insert_succ_some (t := ⟨addr, rows, kids⟩) hc hg]
        refine (Tree.insert_succ_some hc' ih).trans ?_
        rw [← Inner.grow_rename]
        exact congrArg (Inner.grow D (σ (new n)) n)
          (Inner.graft_rename (l := [c', r]) ⟨addr, rows, kids⟩)

/-! ## The new separator -/

/-- The row that an insertion makes a separator of, if it splits a leaf. -/
def Tree.splitRow (D : ℕ) (e : R × K) : ∀ {h : ℕ}, Tree A R K h → Option (R × K)
  | 0, t =>
    let rows := (Leaf.rows t).take (rank e.2 (Leaf.rows t)) ++
      e :: (Leaf.rows t).drop (rank e.2 (Leaf.rows t))
    if rows.length ≤ 2 * D then none else rows[D]?
  | _ + 1, t =>
    match (Inner.kids t)[rank e.2 (Inner.rows t)]? with
    | none => none
    | some c => splitRow D e c

theorem Tree.splitRow_succ {t : Inner A R K (Tree A R K h)} {c : Tree A R K h}
    (hc : t.kids[rank e.2 t.rows]? = some c) :
    Tree.splitRow (h := h + 1) D e t = c.splitRow D e := by
  simp only [Tree.splitRow, hc]

theorem Tree.splitRow_mem {y : R × K} : ∀ {h m : ℕ} {t : Tree A R K h}, t.Occ D m →
    t.splitRow D e = some y → y = e ∨ y ∈ rowsOf t.flat
  | 0, _, t => fun _ hy => by
    obtain ⟨addr, next, rows⟩ := t
    change (if (rows.take (rank e.2 rows) ++ e :: rows.drop (rank e.2 rows)).length ≤ 2 * D
      then none else (rows.take (rank e.2 rows) ++ e :: rows.drop (rank e.2 rows))[D]?) = some y at hy
    split_ifs at hy
    change y = e ∨ y ∈ rowsOf (rows.map fun e => (e, true))
    rw [rowsOf_leaf]
    rcases List.mem_append.mp (List.mem_of_getElem? hy) with hy | hy
    · exact Or.inr (List.mem_of_mem_take hy)
    · exact (List.mem_cons.mp hy).imp_right List.mem_of_mem_drop
  | h + 1, _, t => fun ht hy => by
    obtain ⟨addr, rows, kids⟩ := t
    obtain ⟨-, hk, hko⟩ := ht
    obtain ⟨c, hc⟩ := Inner.exists_kid (t := ⟨addr, rows, kids⟩) hk (rank_le (k := e.2))
    rw [Tree.splitRow_succ (t := ⟨addr, rows, kids⟩) hc] at hy
    refine (Tree.splitRow_mem (hko c (List.mem_of_getElem? hc)) hy).imp_right fun hm => ?_
    rw [Inner.flat_eq (t := ⟨addr, rows, kids⟩) hk rank_le hc, rowsOf_append, rowsOf_append]
    exact List.mem_append_left _ (List.mem_append_right _ hm)

/-- **The new separator**: the only one. -/
theorem Tree.insert_seps : ∀ {h m : ℕ} {t : Tree A R K h}, t.Occ D m →
    (sepsOf (t.insert D e sep new).flat : Multiset (R × K)) =
      ((t.splitRow D e).elim 0 fun y => {(sep, y.2)}) + sepsOf t.flat
  | 0, _, t => fun _ => by
    obtain ⟨addr, next, rows⟩ := t
    have hleaf : sepsOf (Tree.flat (h := 0) (⟨addr, next, rows⟩ : Leaf A R K)) = [] :=
      sepsOf_leaf rows
    rw [hleaf]
    change (sepsOf (Leaf.grow D sep (new 0) ⟨addr, next, rows.take (rank e.2 rows) ++
      e :: rows.drop (rank e.2 rows)⟩).flat : Multiset (R × K)) =
      Option.elim (if (rows.take (rank e.2 rows) ++ e :: rows.drop (rank e.2 rows)).length ≤ 2 * D
        then none else (rows.take (rank e.2 rows) ++ e :: rows.drop (rank e.2 rows))[D]?) 0 _ + 0
    generalize rows.take (rank e.2 rows) ++ e :: rows.drop (rank e.2 rows) = l
    split_ifs with hl
    · rw [Leaf.grow_of_le (t := ⟨addr, next, l⟩) hl]
      exact congrArg _ (sepsOf_leaf l)
    · have hD : D < l.length := by omega
      rw [Leaf.grow_of_lt (t := ⟨addr, next, l⟩) (not_le.mp hl) (List.getElem?_eq_getElem hD),
        List.getElem?_eq_getElem hD]
      change ((sepsOf ((l.take D).map (fun e => (e, true)) ++ ((sep, l[D].2), false) ::
        (l.drop D).map fun e => (e, true)) : List (R × K)) : Multiset (R × K)) = _
      rw [sepsOf_append, sepsOf_sep, sepsOf_leaf, sepsOf_leaf]
      rfl
  | h + 1, _, t => fun ht => by
    obtain ⟨addr, rows, kids⟩ := t
    obtain ⟨-, hk, hko⟩ := ht
    obtain ⟨c, hc⟩ := Inner.exists_kid (t := ⟨addr, rows, kids⟩) hk (rank_le (k := e.2))
    have hflat := Inner.flat_eq (t := ⟨addr, rows, kids⟩) hk rank_le hc
    have hins : (Tree.insert (h := h + 1) D e sep new ⟨addr, rows, kids⟩).flat = _ :=
      Tree.flat_insert_succ (t := ⟨addr, rows, kids⟩) hk hc
    have ih := Tree.insert_seps (hko c (List.mem_of_getElem? hc))
    rw [Tree.splitRow_succ (t := ⟨addr, rows, kids⟩) hc, hins, hflat]
    simp only [sepsOf_append, ← Multiset.coe_add] at ih ⊢
    rw [ih]
    abel

/-- **Without a split leaf** the name of the separator is not used. -/
theorem Tree.insert_sep : ∀ {h m : ℕ} {t : Tree A R K h}, t.Occ D m → t.splitRow D e = none →
    t.insert D e sep new = t.insert D e sep' new
  | 0, _, t => fun _ hn => by
    obtain ⟨addr, next, rows⟩ := t
    change Leaf.grow D sep (new 0) ⟨addr, next, rows.take (rank e.2 rows) ++
      e :: rows.drop (rank e.2 rows)⟩ = Leaf.grow D sep' (new 0) ⟨addr, next,
        rows.take (rank e.2 rows) ++ e :: rows.drop (rank e.2 rows)⟩
    change (if (rows.take (rank e.2 rows) ++ e :: rows.drop (rank e.2 rows)).length ≤ 2 * D
      then none else (rows.take (rank e.2 rows) ++ e :: rows.drop (rank e.2 rows))[D]?) = none at hn
    revert hn
    generalize rows.take (rank e.2 rows) ++ e :: rows.drop (rank e.2 rows) = l
    intro hn
    split_ifs at hn with hl
    · rw [Leaf.grow_of_le (t := ⟨addr, next, l⟩) hl, Leaf.grow_of_le (t := ⟨addr, next, l⟩) hl]
    · rw [List.getElem?_eq_getElem (by omega)] at hn
      cases hn
  | h + 1, _, t => fun ht hn => by
    obtain ⟨addr, rows, kids⟩ := t
    obtain ⟨-, hk, hko⟩ := ht
    obtain ⟨c, hc⟩ := Inner.exists_kid (t := ⟨addr, rows, kids⟩) hk (rank_le (k := e.2))
    rw [Tree.splitRow_succ (t := ⟨addr, rows, kids⟩) hc] at hn
    have ih := Tree.insert_sep (hko c (List.mem_of_getElem? hc)) hn
    have hc : (Inner.kids (⟨addr, rows, kids⟩ : Inner A R K (Tree A R K h)))[rank e.2 rows]? = some c := hc
    simp only [Tree.insert, hc, ih]

end MyJQL
