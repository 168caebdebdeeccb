import MyJQL.Lib.BPlusTree.Basic

/-!
# Insertion into a B+ tree

* `Tree.insert D e sep new t`: insert the row `e`; a split leaf names its separator `sep`, and the
  new nodes get the addresses `new 0`, `new 1`, …;
* `Inner.flat_graft`: subtrees of a node exchanged;
* **`Tree.insert_flat`**: the row gets its place, and separators change as they may;
  **`Tree.insert_rows`**, **`Tree.insert_occ`**: what this means for the rows, and occupancy;
  **`Tree.insert_pages`**: the nodes are the old ones and the new.
-/

set_option linter.unusedSimpArgs false

namespace MyJQL

variable {A R K : Type} {h : ℕ}

/-! ## Definitions -/

/-- A tree after an insertion: the tree, what was split off to its right, and the number of new
nodes. -/
structure Grown (A R K : Type) (h : ℕ) where
  tree : Tree A R K h
  split : Option ((R × K) × Tree A R K h)
  used : ℕ

namespace Grown

/-- The items of both parts. -/
def flat (g : Grown A R K h) : List (Item R K) :=
  match g.split with
  | none => g.tree.flat
  | some (s, r) => g.tree.flat ++ (s, false) :: r.flat

/-- The addresses of the nodes of both parts. -/
def pages (g : Grown A R K h) : List A :=
  g.tree.pages ++ g.split.elim [] fun p => p.2.pages

/-- The occupancy of both parts. -/
def Occ (D m : ℕ) (g : Grown A R K h) : Prop :=
  match g.split with
  | none => g.tree.Occ D m
  | some (_, r) => g.tree.Occ D D ∧ r.Occ D D

end Grown

/-- Split the leaf if it has too many rows. -/
def Leaf.grow (D : ℕ) (sep : R) (x : A) (t : Leaf A R K) : Grown A R K 0 :=
  match t.rows.drop D with
  | e :: r =>
    if t.rows.length ≤ 2 * D then ⟨t, none, 0⟩
    else ⟨(⟨t.addr, x, t.rows.take D⟩ : Leaf A R K), some ((sep, e.2),
      (⟨x, t.next, e :: r⟩ : Leaf A R K)), 1⟩
  | [] => ⟨t, none, 0⟩

namespace Inner

/-- Subtree `i` replaced by the subtrees `new`, with the separators `s` between them. -/
def graft {T : Type} (t : Inner A R K T) (i : ℕ) (new : List T) (s : List (R × K)) :
    Inner A R K T where
  addr := t.addr
  rows := t.rows.take i ++ s ++ t.rows.drop i
  kids := t.kids.take i ++ new ++ t.kids.drop (i + 1)

/-- Split the node if it has too many separators. -/
def grow (D : ℕ) (x : A) (used : ℕ) (t : Inner A R K (Tree A R K h)) : Grown A R K (h + 1) :=
  match t.rows.drop D with
  | s :: r =>
    if t.rows.length ≤ 2 * D then ⟨t, none, used⟩
    else ⟨(⟨t.addr, t.rows.take D, t.kids.take (D + 1)⟩ : Inner A R K (Tree A R K h)),
      some (s, (⟨x, r, t.kids.drop (D + 1)⟩ : Inner A R K (Tree A R K h))), used + 1⟩
  | [] => ⟨t, none, used⟩

end Inner

/-- Insert the row `e`. -/
def Tree.insert [LinearOrder K] (D : ℕ) (e : R × K) (sep : R) (new : ℕ → A) :
    ∀ {h : ℕ}, Tree A R K h → Grown A R K h
  | 0, t =>
    let t : Leaf A R K := t
    let i := rank e.2 t.rows
    Leaf.grow D sep (new 0) { t with rows := t.rows.take i ++ e :: t.rows.drop i }
  | _ + 1, t =>
    let t : Inner A R K _ := t
    let i := rank e.2 t.rows
    match t.kids[i]? with
    | none => ⟨t, none, 0⟩
    | some c =>
      match Tree.insert D e sep new c with
      | ⟨c', none, n⟩ => ⟨t.graft i [c'] [], none, n⟩
      | ⟨c', some (s, r), n⟩ => (t.graft i [c', r] [s]).grow D (new n) n

/-! ## Splits -/

theorem Leaf.grow_of_le {D : ℕ} {sep : R} {x : A} {t : Leaf A R K} (hl : t.rows.length ≤ 2 * D) :
    t.grow D sep x = ⟨t, none, 0⟩ := by
  unfold Leaf.grow
  split
  · rw [if_pos hl]
  · rfl

theorem Leaf.grow_of_lt {D : ℕ} {sep : R} {x : A} {t : Leaf A R K} {e : R × K}
    (hl : 2 * D < t.rows.length) (he : t.rows[D]? = some e) :
    t.grow D sep x = ⟨(⟨t.addr, x, t.rows.take D⟩ : Leaf A R K), some ((sep, e.2),
      (⟨x, t.next, t.rows.drop D⟩ : Leaf A R K)), 1⟩ := by
  obtain ⟨hD, rfl⟩ := List.getElem?_eq_some_iff.mp he
  unfold Leaf.grow
  rw [List.drop_eq_getElem_cons hD]
  simp only [if_neg (not_le.mpr hl)]

theorem Inner.grow_of_le {D n : ℕ} {x : A} {t : Inner A R K (Tree A R K h)}
    (hl : t.rows.length ≤ 2 * D) : t.grow D x n = ⟨t, none, n⟩ := by
  unfold Inner.grow
  split
  · rw [if_pos hl]
  · rfl

theorem Inner.grow_of_lt {D n : ℕ} {x : A} {t : Inner A R K (Tree A R K h)} {s : R × K}
    (hl : 2 * D < t.rows.length) (hs : t.rows[D]? = some s) :
    t.grow D x n = ⟨(⟨t.addr, t.rows.take D, t.kids.take (D + 1)⟩ : Inner A R K (Tree A R K h)),
      some (s, (⟨x, t.rows.drop (D + 1), t.kids.drop (D + 1)⟩ : Inner A R K (Tree A R K h))),
      n + 1⟩ := by
  obtain ⟨hD, rfl⟩ := List.getElem?_eq_some_iff.mp hs
  unfold Inner.grow
  rw [List.drop_eq_getElem_cons hD]
  simp only [if_neg (not_le.mpr hl)]

/-! ## Nodes -/

namespace Inner

variable {t : Inner A R K (Tree A R K h)} {i : ℕ} {c : Tree A R K h}

/-- What stands in front of subtree `i`. -/
def pre (t : Inner A R K (Tree A R K h)) (i : ℕ) : List (Item R K) :=
  before ((t.kids.take i).map Tree.flat) (t.rows.take i)

/-- What stands behind subtree `i`. -/
def post (t : Inner A R K (Tree A R K h)) (i : ℕ) : List (Item R K) :=
  after (t.rows.drop i) ((t.kids.drop (i + 1)).map Tree.flat)

/-- **Subtrees exchanged.** -/
theorem flat_graft (hk : t.kids.length = t.rows.length + 1) (hi : i ≤ t.rows.length)
    {l : List (Tree A R K h)} {s : List (R × K)} (hl : l.length = s.length + 1) :
    Tree.flat (h := h + 1) (t.graft i l s) = t.pre i ++ weave s (l.map Tree.flat) ++ t.post i := by
  change weave _ (List.map Tree.flat (_ ++ _ ++ _)) = _
  rw [List.map_append, List.map_append]
  exact weave_segment _ _ _ _ (by simp; omega) (by simpa using hl) _ _

theorem graft_self (hc : t.kids[i]? = some c) : t.graft i [c] [] = t := by
  obtain ⟨hi, rfl⟩ := List.getElem?_eq_some_iff.mp hc
  obtain ⟨a, rows, kids⟩ := t
  simp only [graft, List.append_nil, List.take_append_drop, mk.injEq, true_and]
  rw [List.append_assoc, List.singleton_append, ← List.drop_eq_getElem_cons hi,
    List.take_append_drop]

theorem flat_eq (hk : t.kids.length = t.rows.length + 1) (hi : i ≤ t.rows.length)
    (hc : t.kids[i]? = some c) :
    Tree.flat (h := h + 1) t = t.pre i ++ c.flat ++ t.post i := by
  have e := flat_graft hk hi (l := [c]) (s := []) rfl
  rw [graft_self hc] at e
  simpa [weave, after] using e

theorem pages_kids (hc : t.kids[i]? = some c) : t.kids.flatMap Tree.pages =
    (t.kids.take i).flatMap Tree.pages ++ c.pages ++ (t.kids.drop (i + 1)).flatMap Tree.pages := by
  conv_lhs => rw [← graft_self hc]
  simp [graft]

theorem exists_kid (hk : t.kids.length = t.rows.length + 1) (hi : i ≤ t.rows.length) :
    ∃ c, t.kids[i]? = some c := ⟨_, List.getElem?_eq_getElem (by omega)⟩

theorem mem_seps {x : R × K} (hk : t.kids.length = t.rows.length + 1) (hx : x ∈ t.rows) :
    x ∈ sepsOf (Tree.flat (h := h + 1) t) :=
  mem_sepsOf.mpr ((sublist_weave (by simpa using hk)).subset (List.mem_map_of_mem hx))

theorem disjoint_kid {d : Tree A R K h} (hnd : (Tree.pages (h := h + 1) t).Nodup)
    (hc : t.kids[i]? = some c) (hd : d ∈ t.kids.take i ∨ d ∈ t.kids.drop (i + 1)) {a : A}
    (ha : a ∈ d.pages) : a ∉ c.pages := by
  have hnd := (List.nodup_cons.mp hnd).2
  rw [pages_kids hc] at hnd
  obtain ⟨h12, -, h3⟩ := List.nodup_append.mp hnd
  obtain ⟨-, -, h4⟩ := List.nodup_append.mp h12
  intro hm
  rcases hd with hd | hd
  · exact h4 a (List.mem_flatMap.mpr ⟨d, hd, ha⟩) a hm rfl
  · exact h3 a (List.mem_append_right _ hm) a (List.mem_flatMap.mpr ⟨d, hd, ha⟩) rfl

theorem pages_kid_sublist (hc : c ∈ t.kids) :
    c.pages.Sublist (Tree.pages (h := h + 1) t) := by
  refine List.Sublist.cons _ ?_
  rw [List.flatMap_def]
  exact List.sublist_flatten_of_mem (List.mem_map_of_mem hc)

theorem mem_pages_kid (hnd : (Tree.pages (h := h + 1) t).Nodup) (hc : c ∈ t.kids) {a : A}
    (ha : a ∈ c.pages) : a ∈ Tree.pages (h := h + 1) t ∧ a ≠ t.addr := by
  have hm : a ∈ t.kids.flatMap Tree.pages := List.mem_flatMap.mpr ⟨c, hc, ha⟩
  refine ⟨List.mem_cons_of_mem _ hm, ?_⟩
  rintro rfl
  exact (List.nodup_cons.mp hnd).1 hm

/-- The items of subtree `i` are sorted too, and those around it are on the right sides of `k`. -/
theorem sorted_kid [LinearOrder K] {k : K} (hk : t.kids.length = t.rows.length + 1)
    (hs : Sorted (Tree.flat (h := h + 1) t)) (hc : t.kids[rank k t.rows]? = some c) :
    Sorted c.flat ∧ (∀ a ∈ t.pre (rank k t.rows), mark a < rowMark k) ∧
      ∀ b ∈ t.post (rank k t.rows), rowMark k < mark b := by
  have hrows := Sorted.seps hs (by simpa using hk)
  rw [flat_eq hk rank_le hc] at hs
  obtain ⟨h12, h3, -⟩ := sorted_append.mp hs
  obtain ⟨h1, h2, -⟩ := sorted_append.mp h12
  refine ⟨h2, fun a ha => ?_, fun b hb => ?_⟩
  · obtain ⟨s, hs, hle⟩ := before_le h1 ha
    exact hle.trans_lt (mark_sep_lt.mpr (le_of_mem_take_rank hs))
  · obtain ⟨s, hs, hle⟩ := after_ge h3 hb
    exact (lt_mark_sep.mpr (lt_of_mem_drop_rank hrows hs)).trans_le hle

theorem mem_kid [LinearOrder K] {e : R × K} (hk : t.kids.length = t.rows.length + 1)
    (hs : Sorted (Tree.flat (h := h + 1) t)) (hc : t.kids[rank e.2 t.rows]? = some c)
    (he : e ∈ rowsOf (Tree.flat (h := h + 1) t)) : e ∈ rowsOf c.flat := by
  obtain ⟨-, hpre, hpost⟩ := sorted_kid hk hs hc
  have hm : mark (e, true) = rowMark e.2 := rfl
  rw [mem_rowsOf, flat_eq hk rank_le hc, List.mem_append, List.mem_append] at he
  rcases he with (he | he) | he
  · exact absurd (hm ▸ hpre _ he) (lt_irrefl _)
  · exact mem_rowsOf.mpr he
  · exact absurd (hm ▸ hpost _ he) (lt_irrefl _)

/-- The keys in subtree `i` lie between the separators around it. -/
theorem rank_kid [LinearOrder K] (hk : t.kids.length = t.rows.length + 1)
    (hs : Sorted (Tree.flat (h := h + 1) t)) (hc : t.kids[i]? = some c) {x : Item R K}
    (hx : x ∈ c.flat) : rank x.1.2 t.rows = i := by
  have hi : i ≤ t.rows.length := by
    have := (List.getElem?_eq_some_iff.mp hc).1
    omega
  rw [flat_eq hk hi hc] at hs
  obtain ⟨h12, -, h3⟩ := sorted_append.mp hs
  obtain ⟨-, -, h4⟩ := sorted_append.mp h12
  refine rank_eq hi (fun s hs => ?_) fun s hs => ?_
  · have hm : (s, false) ∈ t.pre i :=
      (sublist_before (by simp; omega)).subset (List.mem_map_of_mem hs)
    exact le_of_mark_lt (h4 _ hm x hx)
  · have hm : (s, false) ∈ t.post i :=
      (sublist_after (by simp; omega)).subset (List.mem_map_of_mem hs)
    exact lt_of_mark_lt_sep (h3 x (List.mem_append_right _ hx) _ hm)

theorem flat_grow {D n : ℕ} {x : A} (hk : t.kids.length = t.rows.length + 1) :
    (t.grow D x n).flat = Tree.flat (h := h + 1) t := by
  unfold grow
  split
  · next s r hr =>
    split_ifs with hle
    · rfl
    · have hD : D < t.rows.length := by
        by_contra hD
        rw [List.drop_eq_nil_of_le (not_lt.mp hD)] at hr
        cases hr
      have hrows : t.rows = t.rows.take D ++ s :: r := by rw [← hr, List.take_append_drop]
      change weave (t.rows.take D) ((t.kids.take (D + 1)).map Tree.flat) ++
        (s, false) :: weave r ((t.kids.drop (D + 1)).map Tree.flat) = weave t.rows (t.kids.map Tree.flat)
      rw [← weave_split (by simp; omega) s r (by simp; omega), ← hrows, ← List.map_append,
        List.take_append_drop]
  · rfl

end Inner

theorem Leaf.flat_grow {D : ℕ} (hD : 1 ≤ D) (sep : R) (x : A) (t : Leaf A R K) :
    Resep (Tree.flat (h := 0) t) (t.grow D sep x).flat := by
  unfold Leaf.grow
  split
  · next e r hr =>
    split_ifs with hle
    · exact .refl _
    · have hrows : t.rows = t.rows.take D ++ e :: r := by rw [← hr, List.take_append_drop]
      obtain ⟨l, y, hl⟩ : ∃ l y, t.rows.take D = l ++ [y] :=
        ⟨_, _, (List.dropLast_append_getLast (List.ne_nil_of_length_pos (by
          rw [List.length_take]; omega))).symm⟩
      have h0 : Resep (Tree.flat (h := 0) t) (l.map (fun e => (e, true)) ++ (y, true) :: (e, true) ::
          r.map fun e => (e, true)) := by
        change Resep (t.rows.map fun e => (e, true)) _
        rw [hrows, hl]
        simpa using Resep.refl _
      have h1 := h0.add sep
      change Resep _ ((t.rows.take D).map (fun e => (e, true)) ++ ((sep, e.2), false) ::
        (e :: r).map fun e => (e, true))
      rw [hl]
      simpa using h1
  · exact .refl _

/-! ## Insertion -/

section Insert

variable [LinearOrder K] {D m : ℕ} {e : R × K} {sep : R} {new : ℕ → A}

theorem Tree.insert_succ_none {t : Inner A R K (Tree A R K h)} {c c' : Tree A R K h} {n : ℕ}
    (hc : t.kids[rank e.2 t.rows]? = some c) (hg : c.insert D e sep new = ⟨c', none, n⟩) :
    Tree.insert (h := h + 1) D e sep new t = ⟨t.graft (rank e.2 t.rows) [c'] [], none, n⟩ := by
  simp only [Tree.insert, hc, hg]

theorem Tree.insert_succ_some {t : Inner A R K (Tree A R K h)} {c c' r : Tree A R K h} {n : ℕ}
    {s : R × K} (hc : t.kids[rank e.2 t.rows]? = some c)
    (hg : c.insert D e sep new = ⟨c', some (s, r), n⟩) :
    Tree.insert (h := h + 1) D e sep new t =
      (t.graft (rank e.2 t.rows) [c', r] [s]).grow D (new n) n := by
  simp only [Tree.insert, hc, hg]

/-- **An insertion takes place within one subtree.** -/
theorem Tree.flat_insert_succ {t : Inner A R K (Tree A R K h)} {c : Tree A R K h}
    (hk : t.kids.length = t.rows.length + 1) (hc : t.kids[rank e.2 t.rows]? = some c) :
    (Tree.insert (h := h + 1) D e sep new t).flat = t.pre (rank e.2 t.rows) ++
      (c.insert D e sep new).flat ++ t.post (rank e.2 t.rows) := by
  have hl : rank e.2 t.rows ≤ t.rows.length := rank_le
  simp only [Tree.insert, hc]
  generalize c.insert D e sep new = g
  obtain ⟨c', _ | ⟨s, r⟩, n⟩ := g
  · exact (Inner.flat_graft hk hl rfl).trans (by simp [weave, after, Grown.flat])
  · refine (Inner.flat_grow ?_).trans ((Inner.flat_graft hk hl rfl).trans ?_)
    · simp [Inner.graft]
      omega
    · simp [weave, after, Grown.flat]

variable (e sep new) in
/-- **Insertion puts the row in its place**; separators change as they may. -/
theorem Tree.insert_flat (hD : 1 ≤ D) : ∀ {h m : ℕ} {t : Tree A R K h}, t.Occ D m → Sorted t.flat →
    (∀ x ∈ rowsOf t.flat, x.2 ≠ e.2) → ∃ l l', t.flat = l ++ l' ∧ (∀ a ∈ l, mark a < rowMark e.2) ∧
      (∀ b ∈ l', rowMark e.2 < mark b) ∧
      Resep (l ++ (e, true) :: l') (t.insert D e sep new).flat
  | 0, m, t => fun _ hs hne => by
    obtain ⟨a, nx, rows⟩ := t
    have hrows : rows.Pairwise fun a b => a.2 < b.2 := sorted_leaf.mp hs
    refine ⟨(rows.take (rank e.2 rows)).map fun x => (x, true),
      (rows.drop (rank e.2 rows)).map fun x => (x, true), ?_, fun x hx => ?_, fun x hx => ?_, ?_⟩
    · rw [← List.map_append, List.take_append_drop]
      rfl
    · obtain ⟨y, hy, rfl⟩ := List.mem_map.mp hx
      have hmem : (y, true) ∈ Tree.flat (h := 0) (⟨a, nx, rows⟩ : Leaf A R K) :=
        List.mem_map_of_mem (List.mem_of_mem_take hy)
      exact mark_row_lt.mpr (lt_of_le_of_ne (le_of_mem_take_rank hy) (hne y (mem_rowsOf.mpr hmem)))
    · obtain ⟨y, hy, rfl⟩ := List.mem_map.mp hx
      exact lt_mark_row.mpr (lt_of_mem_drop_rank hrows hy)
    · have := Leaf.flat_grow hD sep (new 0)
        ⟨a, nx, rows.take (rank e.2 rows) ++ e :: rows.drop (rank e.2 rows)⟩
      simpa [Tree.flat, Tree.insert] using this
  | h + 1, m, t => fun ht hs hne => by
    obtain ⟨-, hk, hocc⟩ := ht
    obtain ⟨c, hc⟩ := Inner.exists_kid hk (rank_le (k := e.2))
    obtain ⟨hcs, hpre, hpost⟩ := Inner.sorted_kid hk hs hc
    have hflat := Inner.flat_eq hk rank_le hc
    obtain ⟨l, l', hl, h1, h2, h3⟩ := Tree.insert_flat hD (hocc c (List.mem_of_getElem? hc)) hcs
      fun x hx => hne x (by rw [hflat]; simp [hx])
    refine ⟨Inner.pre t (rank e.2 (Inner.rows t)) ++ l, l' ++ Inner.post t (rank e.2 (Inner.rows t)),
      ?_, fun a ha => ?_, fun b hb => ?_, ?_⟩
    · rw [hflat, hl]
      simp
    · exact (List.mem_append.mp ha).elim (hpre a) (h1 a)
    · exact (List.mem_append.mp hb).elim (h2 b) (hpost b)
    · rw [Tree.flat_insert_succ hk hc]
      simpa using h3.context (Inner.pre t (rank e.2 (Inner.rows t)))
        (Inner.post t (rank e.2 (Inner.rows t)))

omit [LinearOrder K] in
theorem Leaf.occ_grow {sep : R} {x : A} {t : Leaf A R K} (hD : 1 ≤ D) (hm : m ≤ t.rows.length)
    (hmax : t.rows.length ≤ 2 * D + 1) : (t.grow D sep x).Occ D m := by
  unfold Leaf.grow
  split
  · next e r hr =>
    have hl : r.length + 1 = t.rows.length - D := by
      rw [← List.length_drop, hr, List.length_cons]
    split_ifs with hle
    · exact ⟨hm, hle⟩
    · have hl' : (t.rows.take D).length = D := by rw [List.length_take]; omega
      refine ⟨⟨hl'.ge, ?_⟩, ?_, ?_⟩
      · show (t.rows.take D).length ≤ 2 * D
        omega
      · show D ≤ r.length + 1
        omega
      · show r.length + 1 ≤ 2 * D
        omega
  · next hr =>
    have hl : t.rows.length ≤ D := List.drop_eq_nil_iff.mp hr
    refine ⟨hm, ?_⟩
    show t.rows.length ≤ 2 * D
    omega

omit [LinearOrder K] in
theorem Inner.occ_grow {n : ℕ} {x : A} {t : Inner A R K (Tree A R K h)}
    (hk : t.kids.length = t.rows.length + 1) (hocc : ∀ c ∈ t.kids, c.Occ D D)
    (hm : m ≤ t.rows.length) (hmax : t.rows.length ≤ 2 * D + 1) : (t.grow D x n).Occ D m := by
  unfold Inner.grow
  split
  · next s r hr =>
    have hl : r.length + 1 = t.rows.length - D := by
      rw [← List.length_drop, hr, List.length_cons]
    split_ifs with hle
    · exact ⟨⟨hm, hle⟩, hk, hocc⟩
    · have hl' : (t.rows.take D).length = D := by rw [List.length_take]; omega
      refine ⟨⟨⟨hl'.ge, ?_⟩, ?_, fun c hc => hocc c (List.mem_of_mem_take hc)⟩, ⟨?_, ?_⟩, ?_,
        fun c hc => hocc c (List.mem_of_mem_drop hc)⟩
      · show (t.rows.take D).length ≤ 2 * D
        omega
      · show (t.kids.take (D + 1)).length = (t.rows.take D).length + 1
        rw [List.length_take]
        omega
      · show D ≤ r.length
        omega
      · show r.length ≤ 2 * D
        omega
      · show (t.kids.drop (D + 1)).length = r.length + 1
        rw [List.length_drop]
        omega
  · next hr =>
    have hl : t.rows.length ≤ D := List.drop_eq_nil_iff.mp hr
    refine ⟨⟨hm, ?_⟩, hk, hocc⟩
    show t.rows.length ≤ 2 * D
    omega

variable (e sep new) in
/-- **Insertion keeps occupancy**, splitting where it must. -/
theorem Tree.insert_occ (hD : 1 ≤ D) : ∀ {h m : ℕ} {t : Tree A R K h}, t.Occ D m →
    (t.insert D e sep new).Occ D m
  | 0, m, t => fun ht => by
    obtain ⟨a, nx, rows⟩ := t
    have hl : (rows.take (rank e.2 rows) ++ e :: rows.drop (rank e.2 rows)).length =
        rows.length + 1 := by
      have : rank e.2 rows ≤ rows.length := rank_le
      simp
      omega
    exact Leaf.occ_grow hD (by simp only [hl]; exact Nat.le_succ_of_le ht.1)
      (by simp only [hl]; exact Nat.succ_le_succ ht.2)
  | h + 1, m, t => fun ht => by
    obtain ⟨⟨hm, hmax⟩, hk, hocc⟩ := ht
    have hr : rank e.2 (Inner.rows t) ≤ _ := rank_le
    obtain ⟨c, hc⟩ := Inner.exists_kid hk hr
    have ih := Tree.insert_occ hD (hocc c (List.mem_of_getElem? hc))
    simp only [Tree.insert, hc]
    generalize c.insert D e sep new = g at ih
    have hkid : ∀ (new : List (Tree A R K h)) s, (∀ c ∈ new, c.Occ D D) →
        ∀ c ∈ (Inner.graft t (rank e.2 (Inner.rows t)) new s).kids, c.Occ D D := fun new s hn c hc => by
      simp only [Inner.graft, List.mem_append] at hc
      rcases hc with (hc | hc) | hc
      · exact hocc c (List.mem_of_mem_take hc)
      · exact hn c hc
      · exact hocc c (List.mem_of_mem_drop hc)
    obtain ⟨c', _ | ⟨s, r⟩, n⟩ := g
    · refine ⟨?_, ?_, hkid _ _ fun c hc => by rwa [List.mem_singleton.mp hc]⟩
      · simpa [Inner.graft] using ⟨hm, hmax⟩
      · simp [Inner.graft]
        omega
    · obtain ⟨ih₁, ih₂⟩ := ih
      refine Inner.occ_grow ?_ (hkid _ _ (by simp [ih₁, ih₂])) ?_ ?_ <;> simp [Inner.graft] <;> omega

variable (D e sep new) in
theorem Tree.insert_addr (t : Tree A R K h) : (t.insert D e sep new).tree.addr = t.addr := by
  cases h with
  | zero =>
    simp only [Tree.insert, Leaf.grow]
    split
    · split_ifs <;> rfl
    · rfl
  | succ h =>
    simp only [Tree.insert]
    split
    · rfl
    · split
      · rfl
      · simp only [Inner.grow]
        split
        · split_ifs <;> rfl
        · rfl

omit [LinearOrder K] in
theorem Leaf.pages_grow {sep : R} {x : A} {t : Leaf A R K} :
    ((t.grow D sep x).pages : Multiset A) = t.addr ::ₘ
      ((List.range (t.grow D sep x).used).map fun _ => x : List A) := by
  unfold Leaf.grow
  split
  · split_ifs <;> rfl
  · rfl

omit [LinearOrder K] in
theorem Inner.pages_grow {n : ℕ} {t : Inner A R K (Tree A R K h)} :
    ((t.grow D (new n) n).pages : Multiset A) + ((List.range n).map new : List A) =
      (Tree.pages (h := h + 1) t : Multiset A) +
        ((List.range (t.grow D (new n) n).used).map new : List A) := by
  unfold Inner.grow
  split
  · split_ifs
    · simp [Grown.pages]
    · have hk : t.kids.flatMap Tree.pages = (t.kids.take (D + 1)).flatMap Tree.pages ++
          (t.kids.drop (D + 1)).flatMap Tree.pages := by
        rw [← List.flatMap_append, List.take_append_drop]
      simp only [Grown.pages, Option.elim, Tree.pages, List.range_succ, List.map_append, hk]
      simp only [List.map_cons, List.map_nil, ← Multiset.coe_add, ← Multiset.cons_coe,
        ← Multiset.singleton_add, Multiset.coe_nil, add_zero]
      abel
  · simp [Grown.pages]

variable (e sep new) in
/-- **The nodes after an insertion** are the old ones and the new ones. -/
theorem Tree.insert_pages : ∀ {h m : ℕ} {t : Tree A R K h}, t.Occ D m →
    ((t.insert D e sep new).pages : Multiset A) =
      t.pages + ((List.range (t.insert D e sep new).used).map new : List A)
  | 0, m, t => fun _ => by
    have hu : ∀ t : Leaf A R K, (t.grow D sep (new 0)).used ≤ 1 := fun t => by
      unfold Leaf.grow
      split
      · split_ifs <;> simp
      · simp
    refine Leaf.pages_grow.trans ?_
    have hmap : ∀ n ≤ 1, (List.range n).map (fun _ => new 0) = (List.range n).map new := fun n hn =>
      List.map_congr_left fun j hj => by
        have := List.mem_range.mp hj
        rw [show j = 0 by omega]
    rw [hmap _ (hu _), ← Multiset.singleton_add]
    rfl
  | h + 1, m, t => fun ht => by
    obtain ⟨-, hk, hocc⟩ := ht
    obtain ⟨c, hc⟩ := Inner.exists_kid hk (rank_le (k := e.2))
    have ih := Tree.insert_pages (hocc c (List.mem_of_getElem? hc))
    have hpages := Inner.pages_kids hc
    simp only [Tree.insert, hc]
    generalize c.insert D e sep new = g at ih
    obtain ⟨c', _ | ⟨s, r⟩, n⟩ := g
    · simp only [Grown.pages, Option.elim, List.append_nil, Tree.pages, Inner.graft] at ih ⊢
      rw [hpages]
      simp only [List.flatMap_append, List.flatMap_cons, List.flatMap_nil, List.append_nil,
        ← Multiset.coe_add, ← Multiset.cons_coe, ih, Multiset.cons_add]
      rw [Multiset.cons_inj_right]
      abel
    · refine add_right_cancel (Inner.pages_grow.trans ?_)
      rw [add_right_comm, add_left_inj]
      simp only [Grown.pages, Option.elim, Tree.pages, Inner.graft] at ih ⊢
      rw [hpages]
      simp only [List.flatMap_append, List.flatMap_cons, List.flatMap_nil, List.append_nil,
        ← Multiset.coe_add, ← Multiset.cons_coe, Multiset.cons_add] at ih ⊢
      rw [Multiset.cons_inj_right]
      rw [ih]
      abel

theorem orderedInsert_between {l l' : List (R × K)} (hl : ∀ a ∈ l, a.2 < e.2)
    (hl' : ∀ a ∈ l', e.2 < a.2) :
    (l ++ l').orderedInsert (fun a b => a.2 ≤ b.2) e = l ++ e :: l' := by
  induction l with
  | nil =>
    cases l' with
    | nil => rfl
    | cons b l' => exact if_pos (hl' b List.mem_cons_self).le
  | cons a l ih =>
    rw [List.cons_append, List.orderedInsert_cons, if_neg (not_le.mpr (hl a List.mem_cons_self)),
      ih fun x hx => hl x (List.mem_cons_of_mem _ hx)]
    rfl

variable (e sep new) in
/-- **Insertion puts the row at its sorted position** and keeps the order. -/
theorem Tree.insert_rows (hD : 1 ≤ D) {m : ℕ} {t : Tree A R K h} (ht : t.Occ D m)
    (hs : Sorted t.flat) (hne : ∀ x ∈ rowsOf t.flat, x.2 ≠ e.2) :
    Sorted (t.insert D e sep new).flat ∧ rowsOf (t.insert D e sep new).flat =
      (rowsOf t.flat).orderedInsert (fun a b => a.2 ≤ b.2) e := by
  obtain ⟨l, l', hl, h1, h2, h3⟩ := Tree.insert_flat e sep new hD ht hs hne
  rw [hl] at hs
  refine ⟨h3.sorted (hs.insert h1 h2), ?_⟩
  rw [h3.rows, hl, rowsOf_append, rowsOf_append, rowsOf_row, orderedInsert_between]
  · exact fun a ha => mark_row_lt.mp (h1 _ (mem_rowsOf.mp ha))
  · exact fun a ha => lt_mark_row.mp (h2 _ (mem_rowsOf.mp ha))

end Insert

end MyJQL
