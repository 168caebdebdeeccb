import MyJQL.Lib.BPlusTree.Delete

/-!
# The chain of the leaves

* `Tree.leaves t`: the leaves from left to right; `Tree.rows_leaves`: their rows are those of the
  tree;
* `Linked l z`: every leaf points to the next one, and the last one to `z`;
* `Relinks l l'`: `l'` may stand for `l` in any chain;
* **`Tree.insert_relinks`**, **`Tree.delete_relinks`**: insertion and deletion keep the chain.
-/

set_option linter.unusedSimpArgs false

namespace MyJQL

variable {A R K : Type} {h : ℕ}

/-! ## Chains -/

/-- The leaves from left to right. -/
def Tree.leaves : ∀ {h : ℕ}, Tree A R K h → List (Leaf A R K)
  | 0, t => [t]
  | _ + 1, t => (Inner.kids t).flatMap leaves

/-- The address of the first leaf, or `z`. -/
def start (l : List (Leaf A R K)) (z : A) : A := (l.map Leaf.addr).headD z

/-- Every leaf points to the next one, and the last one to `z`. -/
def Linked : List (Leaf A R K) → A → Prop
  | [], _ => True
  | x :: l, z => x.next = start l z ∧ Linked l z

section Chains

variable {l l' l'' pre post : List (Leaf A R K)} {z : A}

theorem start_append : start (l ++ l') z = start l (start l' z) := by
  cases l <;> rfl

theorem linked_append : Linked (l ++ l') z ↔ Linked l (start l' z) ∧ Linked l' z := by
  induction l with
  | nil => simp [Linked]
  | cons x l ih => rw [List.cons_append, Linked, Linked, ih, start_append, and_assoc]

/-- `l'` may stand for `l` in any chain. -/
structure Relinks (l l' : List (Leaf A R K)) : Prop where
  start : ∀ z, start l' z = start l z
  linked : ∀ z, Linked l z → Linked l' z

namespace Relinks

theorem refl (l : List (Leaf A R K)) : Relinks l l := ⟨fun _ => rfl, fun _ h => h⟩

theorem trans (h : Relinks l l') (h' : Relinks l' l'') : Relinks l l'' :=
  ⟨fun z => (h'.start z).trans (h.start z), fun z hl => h'.linked z (h.linked z hl)⟩

theorem context (h : Relinks l l') : Relinks (pre ++ l ++ post) (pre ++ l' ++ post) := by
  refine ⟨fun z => ?_, fun z hl => ?_⟩
  · rw [start_append, start_append, start_append, start_append, h.start]
  · rw [linked_append, linked_append] at hl ⊢
    rw [h.start]
    exact ⟨⟨hl.1.1, h.linked _ hl.1.2⟩, hl.2⟩

theorem rows {a n : A} {r r' : List (R × K)} : Relinks [⟨a, n, r⟩] [⟨a, n, r'⟩] :=
  ⟨fun _ => rfl, fun _ h => h⟩

end Relinks

end Chains

theorem sepsOf_after : ∀ {r : List (R × K)} {ks : List (List (Item R K))}, ks.length = r.length →
    (sepsOf (after r ks)).Perm (r ++ ks.flatMap sepsOf)
  | [], [], _ => List.Perm.refl _
  | s :: r, k :: ks, h => by
    rw [after, List.cons_append, sepsOf_sep, sepsOf_append, List.cons_append, List.flatMap_cons]
    refine List.Perm.cons s ?_
    refine ((sepsOf_after (Nat.succ.inj h)).append_left _).trans ?_
    rw [← List.append_assoc, ← List.append_assoc]
    exact List.perm_append_comm.append_right _

theorem sepsOf_weave {r : List (R × K)} {ks : List (List (Item R K))}
    (h : ks.length = r.length + 1) :
    (sepsOf (weave r ks)).Perm (r ++ ks.flatMap sepsOf) := by
  cases ks with
  | nil => cases h
  | cons k ks =>
    rw [weave, sepsOf_append, List.flatMap_cons]
    refine ((sepsOf_after (Nat.succ.inj h)).append_left _).trans ?_
    rw [← List.append_assoc, ← List.append_assoc]
    exact List.perm_append_comm.append_right _

theorem Tree.rows_leaves {D : ℕ} : ∀ {h m : ℕ} {t : Tree A R K h}, t.Occ D m →
    rowsOf t.flat = t.leaves.flatMap Leaf.rows
  | 0, _, t => fun _ => (rowsOf_leaf (Leaf.rows t)).trans (List.flatMap_singleton ..).symm
  | h + 1, _, t => fun ht => by
    have hweave : ∀ (ks : List (Tree A R K h)) (r : List (R × K)), ks.length = r.length →
        (∀ c ∈ ks, rowsOf c.flat = c.leaves.flatMap Leaf.rows) →
        rowsOf (after r (ks.map Tree.flat)) = (ks.flatMap Tree.leaves).flatMap Leaf.rows := by
      intro ks
      induction ks with
      | nil =>
        intro r hr _
        obtain rfl := List.eq_nil_of_length_eq_zero hr.symm
        rfl
      | cons k ks ih =>
        intro r hr hks
        cases r with
        | nil => cases hr
        | cons s r =>
          simp only [List.map_cons, after, rowsOf_append, List.flatMap_cons, List.flatMap_append,
            List.cons_append, rowsOf_sep]
          rw [ih r (Nat.succ.inj hr) fun c hc => hks c (List.mem_cons_of_mem _ hc),
            hks k List.mem_cons_self]
    obtain ⟨addr, rows, kids⟩ := t
    obtain ⟨-, hk, hocc⟩ := ht
    have hk : kids.length = rows.length + 1 := hk
    cases kids with
    | nil => cases hk
    | cons k ks =>
      have hall : ∀ c ∈ k :: ks, rowsOf c.flat = c.leaves.flatMap Leaf.rows := fun c hc =>
        Tree.rows_leaves (hocc c hc)
      simp only [Tree.flat, Tree.leaves, List.map_cons, weave, rowsOf_append, List.flatMap_cons,
        List.flatMap_append]
      rw [hweave ks rows (Nat.succ.inj hk) fun c hc => hall c (List.mem_cons_of_mem _ hc),
        hall k List.mem_cons_self]

/-! ## Insertion -/

/-- The leaves of both parts. -/
def Grown.leaves (g : Grown A R K h) : List (Leaf A R K) :=
  g.tree.leaves ++ g.split.elim [] fun p => p.2.leaves

theorem Leaf.grow_relinks {D : ℕ} {sep : R} {x : A} (t : Leaf A R K) :
    Relinks [t] (t.grow D sep x).leaves := by
  unfold Leaf.grow
  split
  · split_ifs
    · exact .refl _
    · exact ⟨fun _ => rfl, fun z h => ⟨rfl, h.1, trivial⟩⟩
  · exact .refl _

theorem Inner.leaves_grow {D n : ℕ} {x : A} (t : Inner A R K (Tree A R K h)) :
    (t.grow D x n).leaves = Tree.leaves (h := h + 1) t := by
  unfold Inner.grow
  split
  · split_ifs
    · exact List.append_nil _
    · change (t.kids.take (D + 1)).flatMap _ ++ (t.kids.drop (D + 1)).flatMap _ = _
      rw [← List.flatMap_append, List.take_append_drop]
      rfl
  · exact List.append_nil _

theorem Inner.leaves_graft (t : Inner A R K (Tree A R K h)) (i : ℕ) (new : List (Tree A R K h))
    (s : List (R × K)) : Tree.leaves (h := h + 1) (t.graft i new s) =
      (t.kids.take i).flatMap Tree.leaves ++ new.flatMap Tree.leaves ++
        (t.kids.drop (i + 1)).flatMap Tree.leaves := by
  simp [Tree.leaves, Inner.graft]

theorem Inner.relinks_graft {t : Inner A R K (Tree A R K h)} {i : ℕ} {c : Tree A R K h}
    {new : List (Tree A R K h)} {s : List (R × K)} (hc : t.kids[i]? = some c)
    (hr : Relinks c.leaves (new.flatMap Tree.leaves)) :
    Relinks (Tree.leaves (h := h + 1) t) (Tree.leaves (h := h + 1) (t.graft i new s)) := by
  rw [Inner.leaves_graft]
  have e := Inner.leaves_graft t i [c] []
  rw [Inner.graft_self hc, List.flatMap_singleton] at e
  rw [e]
  exact hr.context

/-- **Insertion keeps the chain.** -/
theorem Tree.insert_relinks [LinearOrder K] (D : ℕ) (e : R × K) (sep : R) (new : ℕ → A) :
    ∀ {h : ℕ} (t : Tree A R K h), Relinks t.leaves (t.insert D e sep new).leaves
  | 0, t => Relinks.trans .rows (Leaf.grow_relinks _)
  | h + 1, t => by
    simp only [Tree.insert]
    split
    · simp only [Grown.leaves, Option.elim, List.append_nil]
      exact .refl _
    · next c hc =>
      have ih := Tree.insert_relinks D e sep new c
      split
      · next c' n hg =>
        rw [hg] at ih
        simp only [Grown.leaves, Option.elim, List.append_nil] at ih ⊢
        exact Inner.relinks_graft hc (by simpa using ih)
      · next c' s r n hg =>
        rw [hg] at ih
        rw [Inner.leaves_grow]
        exact Inner.relinks_graft hc (by simpa [Grown.leaves] using ih)

/-! ## Deletion -/

section Delete

variable {D i : ℕ} {sep : R} {t : Inner A R K (Tree A R K h)}

variable (sep) in
theorem Tree.merge_relinks (a : Tree A R K h) (s : R × K) (b : Tree A R K h) :
    Relinks (a.leaves ++ b.leaves) (a.merge sep s b).leaves := by
  cases h with
  | zero => exact ⟨fun _ => rfl, fun z h => h.2⟩
  | succ h =>
    change Relinks _ ((_ ++ _ : List _).flatMap _)
    rw [List.flatMap_append]
    exact .refl _

variable (sep) in
theorem Tree.fromRight_relinks (a : Tree A R K h) (s : R × K) (b : Tree A R K h) :
    Relinks (a.leaves ++ b.leaves)
      ((a.fromRight sep s b).1.leaves ++ (a.fromRight sep s b).2.2.leaves) := by
  cases h with
  | zero =>
    simp only [fromRight]
    split
    · exact ⟨fun _ => rfl, fun _ h => h⟩
    · exact .refl _
  | succ h =>
    simp only [fromRight]
    split
    · next x rows c kids hr hk =>
      simp only [leaves, hk, List.flatMap_append, List.flatMap_cons, List.flatMap_nil,
        List.append_nil, List.append_assoc]
      exact .refl _
    · exact .refl _

variable (sep) in
theorem Tree.fromLeft_relinks (a : Tree A R K h) (s : R × K) (b : Tree A R K h) :
    Relinks (a.leaves ++ b.leaves)
      ((a.fromLeft sep s b).1.leaves ++ (a.fromLeft sep s b).2.2.leaves) := by
  cases h with
  | zero =>
    simp only [fromLeft]
    split
    · exact ⟨fun _ => rfl, fun _ h => h⟩
    · exact .refl _
  | succ h =>
    simp only [fromLeft]
    split
    · next x c hr hk =>
      obtain ⟨kids, hk⟩ := List.getLast?_eq_some_iff.mp hk
      simp only [leaves, hk, List.dropLast_concat, List.flatMap_append, List.flatMap_cons,
        List.flatMap_nil, List.append_nil, List.append_assoc]
      exact .refl _
    · exact .refl _

theorem Inner.PairAt.relinks {j : ℕ} {a b : Tree A R K h} {s : R × K}
    {u : Inner A R K (Tree A R K h)} {l : List (Leaf A R K)} (hp : t.PairAt j a s b)
    (hr : Relinks (a.leaves ++ b.leaves) l) (hu : Tree.leaves (h := h + 1) u =
      (t.kids.take j).flatMap Tree.leaves ++ l ++ (t.kids.drop (j + 2)).flatMap Tree.leaves) :
    Relinks (Tree.leaves (h := h + 1) t) (Tree.leaves (h := h + 1) u) := by
  have ht : Tree.leaves (h := h + 1) t = (t.kids.take j).flatMap Tree.leaves ++
      (a.leaves ++ b.leaves) ++ (t.kids.drop (j + 2)).flatMap Tree.leaves := by
    change t.kids.flatMap _ = _
    conv_lhs => rw [← hp.setPair_self]
    simp [setPair]
  rw [ht, hu]
  exact hr.context

theorem Inner.PairAt.rebalance_relinks {a b : Tree A R K h} {s : R × K}
    (hp : t.PairAt (t.side i) a s b) :
    Relinks (Tree.leaves (h := h + 1) t) (Tree.leaves (h := h + 1) (t.rebalance D sep i).1) := by
  cases hp.repair D sep with
  | fromRight _ _ e =>
    rw [e]
    exact hp.relinks (Tree.fromRight_relinks sep a s b) (by simp [Tree.leaves, setPair])
  | fromLeft _ _ e =>
    rw [e]
    exact hp.relinks (Tree.fromLeft_relinks sep a s b) (by simp [Tree.leaves, setPair])
  | merge _ e =>
    rw [e]
    exact hp.relinks (Tree.merge_relinks sep a s b) (by simp [Tree.leaves, setMerged])

theorem Inner.shrink_relinks {r : Shrunk A R K h}
    (hr : Relinks (Tree.leaves (h := h + 1) t) (Tree.leaves (h := h + 1) (t.graft i [r.tree] [])))
    (hd : ¬ D ≤ r.tree.rows.length → (t.graft i [r.tree] []).Deficient D i) :
    Relinks (Tree.leaves (h := h + 1) t) (t.shrink D sep i r).tree.leaves := by
  by_cases hle : D ≤ r.tree.rows.length
  · rw [Inner.shrink_of_le hle]
    exact hr
  · obtain ⟨a, s, b, hp⟩ := exists_pairAt (hd hle).kids (hd hle).side_lt
    rw [Inner.shrink_of_lt hle]
    exact hr.trans hp.rebalance_relinks

/-- **Deletion keeps the chain.** -/
theorem Tree.delete_relinks [LinearOrder K] {k : K} {sep : ℕ → R} (hD : 1 ≤ D) :
    ∀ {h m : ℕ} {t : Tree A R K h}, t.Occ D m → (h ≠ 0 → 1 ≤ m) →
      Relinks t.leaves (t.delete D k sep).tree.leaves
  | 0, _, _ => fun _ _ => .rows
  | h + 1, m, t => fun ht hm => by
    obtain ⟨c, hc⟩ := Inner.exists_kid ht.2.1 (rank_le (k := k))
    have hco : c.Occ D D := ht.2.2 c (List.mem_of_getElem? hc)
    rw [Tree.delete_succ hc]
    refine Inner.shrink_relinks (Inner.relinks_graft hc ?_) fun hle => ?_
    · simpa using Tree.delete_relinks hD hco fun _ => hD
    · exact Inner.deficient_graft ht (hm h.succ_ne_zero) (rank_le (k := k))
        (Tree.delete_occ _ _ hD hco fun _ => hD) hle

end Delete

end MyJQL
