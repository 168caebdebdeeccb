import Mathlib

/-!
# B+ trees

* `Tree A R K h`: the trees of height `h`, with addresses `A`, row references `R` and keys `K`. A
  leaf has rows, an inner node has separators (also called rows) between its subtrees;
* `Tree.flat`: rows and separators from left to right; `Sorted`: the one order invariant. A
  separator stands before the rows with its key: `s` is a bound below `k` when `s ≤ k`, and above
  when `k < s`;
* `Tree.Occ`: occupancy;
* `rank`: the number of leading rows up to a key; `weave_focus`: a node around one of its subtrees;
* **`Resep`**: separators come and go where they may; `Resep.sorted`, `Resep.rows`: order and rows
  stay.
-/

set_option linter.unusedSimpArgs false

namespace MyJQL

/-! ## Trees -/

/-- A leaf: its address, the address of the next leaf, and its rows. -/
structure Leaf (A R K : Type) where
  addr : A
  next : A
  rows : List (R × K)

/-- An inner node: its address, its separators and its subtrees. -/
structure Inner (A R K T : Type) where
  addr : A
  rows : List (R × K)
  kids : List T

/-- Trees of a given height. -/
def Tree (A R K : Type) : ℕ → Type
  | 0 => Leaf A R K
  | h + 1 => Inner A R K (Tree A R K h)

/-- A row (`true`) or a separator (`false`). -/
abbrev Item (R K : Type) := (R × K) × Bool

section Weave

variable {R K : Type}

/-- The separators and subtrees behind the first subtree. -/
def after : List (R × K) → List (List (Item R K)) → List (Item R K)
  | s :: r, k :: ks => (s, false) :: k ++ after r ks
  | _, _ => []

/-- Subtrees, with a separator behind each. -/
def before : List (List (Item R K)) → List (R × K) → List (Item R K)
  | k :: ks, s :: r => k ++ (s, false) :: before ks r
  | _, _ => []

/-- The subtrees of a node with its separators between them. -/
def weave (r : List (R × K)) : List (List (Item R K)) → List (Item R K)
  | [] => []
  | k :: ks => k ++ after r ks

theorem after_cons (s : R × K) (r : List (R × K)) {ks : List (List (Item R K))} (h : ks ≠ []) :
    after (s :: r) ks = (s, false) :: weave r ks := by
  cases ks with
  | nil => exact absurd rfl h
  | cons k ks => rfl

/-- **A node around one of its subtrees.** -/
theorem weave_focus {r₁ : List (R × K)} {ks₁ : List (List (Item R K))}
    (h : ks₁.length = r₁.length) (r₂ : List (R × K)) (c : List (Item R K))
    (ks₂ : List (List (Item R K))) :
    weave (r₁ ++ r₂) (ks₁ ++ c :: ks₂) = before ks₁ r₁ ++ c ++ after r₂ ks₂ := by
  induction ks₁ generalizing r₁ with
  | nil =>
    obtain rfl := List.eq_nil_of_length_eq_zero h.symm
    rfl
  | cons k ks ih =>
    cases r₁ with
    | nil => cases h
    | cons s r =>
      rw [List.cons_append, List.cons_append, weave, after_cons s _ (by simp),
        ih (Nat.succ.inj h), before]
      simp

theorem after_append {r₁ : List (R × K)} {ks₁ : List (List (Item R K))}
    (h : ks₁.length = r₁.length) (r₂ : List (R × K)) (ks₂ : List (List (Item R K))) :
    after (r₁ ++ r₂) (ks₁ ++ ks₂) = after r₁ ks₁ ++ after r₂ ks₂ := by
  induction ks₁ generalizing r₁ with
  | nil =>
    obtain rfl := List.eq_nil_of_length_eq_zero h.symm
    simp [after]
  | cons k ks ih =>
    cases r₁ with
    | nil => cases h
    | cons s r => simp [after, ih (Nat.succ.inj h)]

/-- **A node around some of its subtrees**, with the separators `s` between them. -/
theorem weave_segment (r₁ s : List (R × K)) (ks₁ n : List (List (Item R K)))
    (h : ks₁.length = r₁.length) (hn : n.length = s.length + 1) (r₂ : List (R × K))
    (ks₂ : List (List (Item R K))) :
    weave (r₁ ++ s ++ r₂) (ks₁ ++ n ++ ks₂) = before ks₁ r₁ ++ weave s n ++ after r₂ ks₂ := by
  cases n with
  | nil => cases hn
  | cons c n =>
    rw [List.append_assoc, List.append_assoc, List.cons_append, weave_focus h,
      after_append (Nat.succ.inj hn), weave]
    simp

theorem weave_split {r₁ : List (R × K)} {ks₁ : List (List (Item R K))}
    (h : ks₁.length = r₁.length + 1) (s : R × K) (r₂ : List (R × K))
    {ks₂ : List (List (Item R K))} (h₂ : ks₂ ≠ []) :
    weave (r₁ ++ s :: r₂) (ks₁ ++ ks₂) = weave r₁ ks₁ ++ (s, false) :: weave r₂ ks₂ := by
  obtain ⟨ks, c, rfl⟩ : ∃ ks c, ks₁ = ks ++ [c] :=
    ⟨_, _, (List.dropLast_append_getLast (List.ne_nil_of_length_eq_add_one h)).symm⟩
  have hl : ks.length = r₁.length := by simpa using h
  have e := weave_focus hl [] c []
  rw [List.append_nil] at e
  rw [List.append_assoc, List.singleton_append, weave_focus hl, after_cons s r₂ h₂, e]
  simp [after]

end Weave

namespace Tree

variable {A R K : Type} {h : ℕ}

def addr : ∀ {h : ℕ}, Tree A R K h → A
  | 0, t => Leaf.addr t
  | _ + 1, t => Inner.addr t

def rows : ∀ {h : ℕ}, Tree A R K h → List (R × K)
  | 0, t => Leaf.rows t
  | _ + 1, t => Inner.rows t

/-- Rows and separators from left to right. -/
def flat : ∀ {h : ℕ}, Tree A R K h → List (Item R K)
  | 0, t => (Leaf.rows t).map fun e => (e, true)
  | _ + 1, t => weave (Inner.rows t) ((Inner.kids t).map flat)

/-- The addresses of all nodes. -/
def pages : ∀ {h : ℕ}, Tree A R K h → List A
  | 0, t => [Leaf.addr t]
  | _ + 1, t => Inner.addr t :: (Inner.kids t).flatMap pages

/-- Between `m` and `2 * D` rows in the root, and between `D` and `2 * D` in all other nodes; one
more subtree than separators in inner nodes. -/
def Occ (D : ℕ) : ∀ {h : ℕ}, ℕ → Tree A R K h → Prop
  | 0, m, t => m ≤ (Leaf.rows t).length ∧ (Leaf.rows t).length ≤ 2 * D
  | _ + 1, m, t => (m ≤ (Inner.rows t).length ∧ (Inner.rows t).length ≤ 2 * D) ∧
      (Inner.kids t).length = (Inner.rows t).length + 1 ∧ ∀ c ∈ Inner.kids t, Occ D D c

theorem Occ.rows {D m : ℕ} {t : Tree A R K h} (ht : Occ D m t) :
    m ≤ t.rows.length ∧ t.rows.length ≤ 2 * D := by
  cases h with
  | zero => exact ht
  | succ h => exact ht.1

theorem addr_mem_pages (t : Tree A R K h) : t.addr ∈ t.pages := by
  cases h with
  | zero => exact List.mem_singleton_self _
  | succ h => exact List.mem_cons_self

end Tree

/-! ## Items -/

section Items

variable {R K : Type}

/-- The rows among the items. -/
def rowsOf (l : List (Item R K)) : List (R × K) := (l.filter Prod.snd).map Prod.fst

/-- The separators among the items. -/
def sepsOf (l : List (Item R K)) : List (R × K) := (l.filter fun x => !x.2).map Prod.fst

@[simp] theorem rowsOf_append (l l' : List (Item R K)) :
    rowsOf (l ++ l') = rowsOf l ++ rowsOf l' := by
  simp [rowsOf]
@[simp] theorem rowsOf_row (e : R × K) (l : List (Item R K)) :
    rowsOf ((e, true) :: l) = e :: rowsOf l := rfl
@[simp] theorem rowsOf_sep (s : R × K) (l : List (Item R K)) :
    rowsOf ((s, false) :: l) = rowsOf l := rfl
@[simp] theorem sepsOf_append (l l' : List (Item R K)) :
    sepsOf (l ++ l') = sepsOf l ++ sepsOf l' := by
  simp [sepsOf]
@[simp] theorem sepsOf_row (e : R × K) (l : List (Item R K)) :
    sepsOf ((e, true) :: l) = sepsOf l := rfl
@[simp] theorem sepsOf_sep (s : R × K) (l : List (Item R K)) :
    sepsOf ((s, false) :: l) = s :: sepsOf l := rfl
@[simp] theorem rowsOf_nil : rowsOf ([] : List (Item R K)) = [] := rfl
@[simp] theorem sepsOf_nil : sepsOf ([] : List (Item R K)) = [] := rfl

theorem rowsOf_leaf (l : List (R × K)) : rowsOf (l.map fun e => (e, true)) = l := by
  simp [rowsOf, List.filter_map, Function.comp_def]

theorem sepsOf_leaf (l : List (R × K)) : sepsOf (l.map fun e => (e, true)) = [] := by
  simp [sepsOf, List.filter_map, Function.comp_def]

theorem mem_rowsOf {l : List (Item R K)} {e : R × K} : e ∈ rowsOf l ↔ (e, true) ∈ l := by
  simp [rowsOf]

theorem mem_sepsOf {l : List (Item R K)} {e : R × K} : e ∈ sepsOf l ↔ (e, false) ∈ l := by
  simp [sepsOf]

/-- `Resep l l'`: `l'` is `l` with separators removed, renamed, or added directly between two
rows. -/
inductive Resep : List (Item R K) → List (Item R K) → Prop
  | refl (l) : Resep l l
  | drop {l a b : List (Item R K)} {s : R × K} : Resep l (a ++ (s, false) :: b) → Resep l (a ++ b)
  | rename {l a b : List (Item R K)} {s : R × K} (r : R) :
      Resep l (a ++ (s, false) :: b) → Resep l (a ++ ((r, s.2), false) :: b)
  | add {l a b : List (Item R K)} {x y : R × K} (r : R) :
      Resep l (a ++ (x, true) :: (y, true) :: b) →
      Resep l (a ++ (x, true) :: ((r, y.2), false) :: (y, true) :: b)

namespace Resep

variable {l l' : List (Item R K)}

theorem rows (h : Resep l l') : rowsOf l' = rowsOf l := by
  induction h with
  | refl => rfl
  | drop _ ih => simpa using ih
  | rename r _ ih => simpa using ih
  | add r _ ih => simpa using ih

theorem context (h : Resep l l') (pre post : List (Item R K)) :
    Resep (pre ++ l ++ post) (pre ++ l' ++ post) := by
  induction h with
  | refl => exact .refl _
  | @drop a b s _ ih =>
    have e : Resep (pre ++ l ++ post) ((pre ++ a) ++ (s, false) :: (b ++ post)) := by simpa using ih
    simpa using e.drop
  | @rename a b s r _ ih =>
    have e : Resep (pre ++ l ++ post) ((pre ++ a) ++ (s, false) :: (b ++ post)) := by simpa using ih
    simpa using e.rename r
  | @add a b x y r _ ih =>
    have e : Resep (pre ++ l ++ post) ((pre ++ a) ++ (x, true) :: (y, true) :: (b ++ post)) := by
      simpa using ih
    simpa using e.add r

theorem trans {l'' : List (Item R K)} (h : Resep l l') (h' : Resep l' l'') : Resep l l'' := by
  induction h' with
  | refl => exact h
  | drop _ ih => exact .drop ih
  | rename r _ ih => exact .rename r ih
  | add r _ ih => exact .add r ih

end Resep

end Items

/-! ## Order -/

section Order

variable {A R K : Type} [LinearOrder K] {h : ℕ}

/-- The place of an item in the order: a separator stands before the rows with its key. -/
def mark (x : Item R K) : K ×ₗ Bool := toLex (x.1.2, x.2)

/-- The place of the row with key `k`. -/
def rowMark (k : K) : K ×ₗ Bool := toLex (k, true)

theorem mark_sep_lt {s : R × K} {k : K} : mark (s, false) < rowMark k ↔ s.2 ≤ k := by
  simp [mark, rowMark, Prod.Lex.toLex_lt_toLex, le_iff_lt_or_eq]

theorem lt_mark_sep {s : R × K} {k : K} : rowMark k < mark (s, false) ↔ k < s.2 := by
  simp [mark, rowMark, Prod.Lex.toLex_lt_toLex]

theorem mark_row_lt {e : R × K} {k : K} : mark (e, true) < rowMark k ↔ e.2 < k := by
  simp [mark, rowMark, Prod.Lex.toLex_lt_toLex]

theorem lt_mark_row {e : R × K} {k : K} : rowMark k < mark (e, true) ↔ k < e.2 := by
  simp [mark, rowMark, Prod.Lex.toLex_lt_toLex]

theorem mark_sep_lt_sep {s s' : R × K} : mark (s, false) < mark (s', false) ↔ s.2 < s'.2 := by
  simp [mark, Prod.Lex.toLex_lt_toLex]

theorem le_of_mark_lt {x y : Item R K} (h : mark x < mark y) : x.1.2 ≤ y.1.2 :=
  (Prod.Lex.toLex_lt_toLex.mp h).elim le_of_lt fun h => h.1.le

theorem lt_of_mark_lt_sep {x : Item R K} {s : R × K} (h : mark x < mark (s, false)) :
    x.1.2 < s.2 :=
  (Prod.Lex.toLex_lt_toLex.mp h).elim id fun h => absurd h.2 not_lt_bot

/-- Strictly sorted. -/
def Sorted (l : List (Item R K)) : Prop := l.Pairwise fun a b => mark a < mark b

theorem sorted_append {l l' : List (Item R K)} : Sorted (l ++ l') ↔
    Sorted l ∧ Sorted l' ∧ ∀ a ∈ l, ∀ b ∈ l', mark a < mark b := List.pairwise_append

theorem sorted_cons {x : Item R K} {l : List (Item R K)} : Sorted (x :: l) ↔
    (∀ a ∈ l, mark x < mark a) ∧ Sorted l := List.pairwise_cons

theorem Sorted.sublist {l l' : List (Item R K)} (hl : Sorted l) (h : l'.Sublist l) : Sorted l' :=
  List.Pairwise.sublist h hl

theorem Sorted.insert {l l' : List (Item R K)} {e : R × K} (h : Sorted (l ++ l'))
    (hl : ∀ a ∈ l, mark a < rowMark e.2) (hl' : ∀ a ∈ l', rowMark e.2 < mark a) :
    Sorted (l ++ (e, true) :: l') := by
  obtain ⟨h1, h2, h3⟩ := sorted_append.mp h
  refine sorted_append.mpr ⟨h1, sorted_cons.mpr ⟨hl', h2⟩, fun a ha b hb => ?_⟩
  rcases List.mem_cons.mp hb with rfl | hb
  · exact hl a ha
  · exact h3 a ha b hb

theorem sorted_leaf {l : List (R × K)} :
    Sorted (l.map fun e => (e, true)) ↔ l.Pairwise fun a b => a.2 < b.2 := by
  rw [Sorted, List.pairwise_map]
  exact iff_of_eq (congrArg₂ _ (funext₂ fun a b => propext mark_row_lt) rfl)

/-! ## Changing separators -/

namespace Resep

variable {l l' : List (Item R K)}

theorem sorted (h : Resep l l') (hl : Sorted l) : Sorted l' := by
  induction h with
  | refl => exact hl
  | drop _ ih => exact ih.sublist (List.Sublist.append_left (List.sublist_cons_self _ _) _)
  | @rename a b s r _ ih =>
    obtain ⟨h1, h2, h3⟩ := sorted_append.mp ih
    obtain ⟨h4, h5⟩ := sorted_cons.mp h2
    refine sorted_append.mpr ⟨h1, sorted_cons.mpr ⟨h4, h5⟩, fun x hx y hy => ?_⟩
    rcases List.mem_cons.mp hy with rfl | hy
    · exact h3 x hx (s, false) List.mem_cons_self
    · exact h3 x hx y (List.mem_cons_of_mem _ hy)
  | @add a b x y r _ ih =>
    obtain ⟨h1, h2, h3⟩ := sorted_append.mp ih
    obtain ⟨h4, h5⟩ := sorted_cons.mp h2
    have hxy : x.2 < y.2 := mark_row_lt.mp (h4 (y, true) List.mem_cons_self)
    have hx : mark (x, true) < mark ((r, y.2), false) := Prod.Lex.toLex_lt_toLex.mpr (Or.inl hxy)
    have hy : mark ((r, y.2), false) < mark (y, true) := mark_sep_lt.mpr le_rfl
    refine sorted_append.mpr ⟨h1, sorted_cons.mpr ⟨fun z hz => ?_, sorted_cons.mpr
      ⟨fun z hz => ?_, h5⟩⟩, fun z hz w hw => ?_⟩
    · rcases List.mem_cons.mp hz with rfl | hz
      · exact hx
      · exact h4 z hz
    · rcases List.mem_cons.mp hz with rfl | hz
      · exact hy
      · exact hy.trans ((sorted_cons.mp h5).1 z hz)
    · rcases List.mem_cons.mp hw with rfl | hw
      · exact h3 z hz _ List.mem_cons_self
      rcases List.mem_cons.mp hw with rfl | hw
      · exact (h3 z hz _ List.mem_cons_self).trans hx
      · exact h3 z hz w (List.mem_cons_of_mem _ hw)

end Resep

/-! ## Nodes -/

theorem before_le {ks : List (List (Item R K))} {r : List (R × K)} (hs : Sorted (before ks r))
    {x : Item R K} (hx : x ∈ before ks r) : ∃ s ∈ r, mark x ≤ mark (s, false) := by
  induction ks generalizing r with
  | nil => simp [before] at hx
  | cons k ks ih =>
    cases r with
    | nil => simp [before] at hx
    | cons s r =>
      obtain ⟨-, h2, h3⟩ := sorted_append.mp hs
      rcases List.mem_append.mp hx with hx | hx
      · exact ⟨s, List.mem_cons_self, (h3 x hx _ List.mem_cons_self).le⟩
      rcases List.mem_cons.mp hx with rfl | hx
      · exact ⟨s, List.mem_cons_self, le_rfl⟩
      · obtain ⟨s', hs', hle⟩ := ih (sorted_cons.mp h2).2 hx
        exact ⟨s', List.mem_cons_of_mem _ hs', hle⟩

theorem after_ge {r : List (R × K)} {ks : List (List (Item R K))} (hs : Sorted (after r ks))
    {x : Item R K} (hx : x ∈ after r ks) : ∃ s ∈ r, mark (s, false) ≤ mark x := by
  cases r with
  | nil => simp [after] at hx
  | cons s r =>
    cases ks with
    | nil => simp [after] at hx
    | cons k ks =>
      refine ⟨s, List.mem_cons_self, ?_⟩
      rcases List.mem_cons.mp hx with rfl | hx
      · exact le_rfl
      · exact ((sorted_cons.mp hs).1 x hx).le

omit [LinearOrder K] in
theorem sublist_after {r : List (R × K)} {ks : List (List (Item R K))} (h : ks.length = r.length) :
    (r.map fun s => (s, false)).Sublist (after r ks) := by
  induction r generalizing ks with
  | nil => exact List.nil_sublist _
  | cons s r ih =>
    cases ks with
    | nil => cases h
    | cons k ks =>
      exact ((ih (Nat.succ.inj h)).trans (List.sublist_append_right k _)).cons_cons _

omit [LinearOrder K] in
theorem sublist_before {ks : List (List (Item R K))} {r : List (R × K)} (h : ks.length = r.length) :
    (r.map fun s => (s, false)).Sublist (before ks r) := by
  induction ks generalizing r with
  | nil =>
    obtain rfl := List.eq_nil_of_length_eq_zero h.symm
    exact List.nil_sublist _
  | cons k ks ih =>
    cases r with
    | nil => cases h
    | cons s r =>
      exact ((ih (Nat.succ.inj h)).cons_cons _).trans (List.sublist_append_right k _)

omit [LinearOrder K] in
theorem sublist_weave {r : List (R × K)} {ks : List (List (Item R K))}
    (h : ks.length = r.length + 1) : (r.map fun s => (s, false)).Sublist (weave r ks) := by
  cases ks with
  | nil => cases h
  | cons k ks => exact (sublist_after (Nat.succ.inj h)).trans (List.sublist_append_right k _)

/-- **The separators of a node increase.** -/
theorem Sorted.seps {r : List (R × K)} {ks : List (List (Item R K))} (hs : Sorted (weave r ks))
    (h : ks.length = r.length + 1) : r.Pairwise fun a b => a.2 < b.2 := by
  have := hs.sublist (sublist_weave h)
  rw [Sorted, List.pairwise_map] at this
  exact this.imp mark_sep_lt_sep.mp

/-! ## Ranks -/

/-- The number of leading rows with keys up to `k`. -/
def rank (k : K) (rows : List (R × K)) : ℕ := (rows.takeWhile fun s => s.2 ≤ k).length

variable {k : K} {rows : List (R × K)}

theorem rank_le : rank k rows ≤ rows.length := (List.takeWhile_sublist _).length_le

theorem take_rank : rows.take (rank k rows) = rows.takeWhile fun s => s.2 ≤ k :=
  (List.prefix_iff_eq_take.mp <| List.takeWhile_prefix _).symm

theorem drop_rank : rows.drop (rank k rows) = rows.dropWhile fun s => s.2 ≤ k := by
  have e := List.take_append_drop (rank k rows) rows
  rw [take_rank] at e
  exact List.append_cancel_left (e.trans List.takeWhile_append_dropWhile.symm)

theorem le_of_mem_take_rank {s : R × K} (hs : s ∈ rows.take (rank k rows)) : s.2 ≤ k := by
  rw [take_rank] at hs
  simpa using List.mem_takeWhile_imp hs

theorem lt_of_mem_drop_rank (hr : rows.Pairwise fun a b => a.2 < b.2) {s : R × K}
    (hs : s ∈ rows.drop (rank k rows)) : k < s.2 := by
  rw [drop_rank] at hs
  have hp := hr.sublist (List.dropWhile_sublist fun s : R × K => decide (s.2 ≤ k))
  cases hd : rows.dropWhile fun s : R × K => decide (s.2 ≤ k) with
  | nil => rw [hd] at hs; cases hs
  | cons x l =>
    have hx : k < x.2 := by
      have := List.head?_dropWhile_not (fun s : R × K => decide (s.2 ≤ k)) rows
      rw [hd] at this
      simpa using this
    rw [hd] at hs hp
    rcases List.mem_cons.mp hs with rfl | hs
    · exact hx
    · exact hx.trans ((List.pairwise_cons.mp hp).1 s hs)

theorem rank_eq {i : ℕ} (hi : i ≤ rows.length) (h1 : ∀ s ∈ rows.take i, s.2 ≤ k)
    (h2 : ∀ s ∈ rows.drop i, k < s.2) : rank k rows = i := by
  have e : rows.takeWhile (fun s => s.2 ≤ k) = rows.take i := by
    conv_lhs => rw [← List.take_append_drop i rows]
    rw [List.takeWhile_append_of_pos fun s hs => by simpa using h1 s hs]
    cases hd : rows.drop i with
    | nil => simp
    | cons x l =>
      have hx : ¬ x.2 ≤ k := not_le.mpr (h2 x (by rw [hd]; exact List.mem_cons_self))
      simp [hx]
  rw [rank, e, List.length_take, min_eq_left hi]

theorem rank_row {r₁ r₂ : List (R × K)} {e : R × K}
    (hr : (r₁ ++ e :: r₂).Pairwise fun a b => a.2 < b.2) :
    rank e.2 (r₁ ++ e :: r₂) = r₁.length + 1 := by
  obtain ⟨-, hp, hlt⟩ := List.pairwise_append.mp hr
  refine rank_eq (by simp) (fun s hs => ?_) fun s hs => ?_
  · rw [List.take_length_add_append, List.take_succ_cons, List.take_zero, List.mem_append,
      List.mem_singleton] at hs
    rcases hs with hs | rfl
    · exact (hlt s hs e List.mem_cons_self).le
    · exact le_rfl
  · rw [List.drop_length_add_append, List.drop_succ_cons, List.drop_zero] at hs
    exact (List.pairwise_cons.mp hp).1 s hs

end Order

end MyJQL
