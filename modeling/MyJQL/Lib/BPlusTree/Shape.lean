import MyJQL.Lib.BPlusTree.Leaves

/-!
# The shape of a tree

* `Tree.Shaped D m t`: occupancy, increasing entries, and separators that bound the keys below the
  children; **`Tree.shaped`**: occupancy and order of all items give it;
* `Tree.length_rows_ge`: how many rows a tree of a given height has at least;
* `Tree.height_lt_pages`: a tree has more pages than its height.
-/

set_option linter.unusedSimpArgs false

namespace MyJQL

variable {A R K : Type} {D : ℕ}

/-- Between `m` and `2 * D` entries in the root, and between `D` and `2 * D` in all other nodes; one
more child than entries in inner nodes; the entries of every node increase; and a key below child
`j` is at least the entries before it, and less than those from it on. -/
def Tree.Shaped [LinearOrder K] (D : ℕ) : ∀ {h : ℕ}, ℕ → Tree A R K h → Prop
  | 0, m, t => (m ≤ (Leaf.rows t).length ∧ (Leaf.rows t).length ≤ 2 * D) ∧
      (Leaf.rows t).Pairwise fun a b => a.2 < b.2
  | h + 1, m, t => (m ≤ (Inner.rows t).length ∧ (Inner.rows t).length ≤ 2 * D) ∧
      (Inner.kids t).length = (Inner.rows t).length + 1 ∧
      ((Inner.rows t).Pairwise fun a b => a.2 < b.2) ∧
      (∀ (j : ℕ) (c : Tree A R K h), (Inner.kids t)[j]? = some c → ∀ x ∈ c.flat,
        ∀ (l : ℕ) (s : R × K), (Inner.rows t)[l]? = some s →
        (l < j → s.2 ≤ x.1.2) ∧ (j ≤ l → x.1.2 < s.2)) ∧
      ∀ c ∈ Inner.kids t, Shaped D D c

/-- **Occupancy and order give the shape.** -/
theorem Tree.shaped [LinearOrder K] : ∀ {h m : ℕ} {t : Tree A R K h}, t.Occ D m → Sorted t.flat →
    t.Shaped D m
  | 0, _, _ => fun ho hs => ⟨ho, sorted_leaf.mp hs⟩
  | h + 1, m, t => fun ho hs => by
    obtain ⟨addr, rows, kids⟩ := t
    obtain ⟨hm, hk, hko⟩ := ho
    have hk : kids.length = rows.length + 1 := hk
    have hrows : rows.Pairwise fun a b => a.2 < b.2 := Sorted.seps hs (by simpa using hk)
    refine ⟨hm, hk, hrows, fun j c hc x hx l s hl => ?_, fun c hc => ?_⟩
    · have hr := Inner.rank_kid (t := ⟨addr, rows, kids⟩) hk hs hc hx
      have hl : rows[l]? = some s := hl
      subst hr
      refine ⟨fun hlt => ?_, fun hge => ?_⟩
      · have hm : s ∈ rows.take (rank x.1.2 rows) := List.mem_of_getElem? (i := l) (by
          rw [List.getElem?_take_of_lt hlt, hl])
        exact le_of_mem_take_rank hm
      · have hm : s ∈ rows.drop (rank x.1.2 rows) :=
          List.mem_of_getElem? (i := l - rank x.1.2 rows) (by
            rw [List.getElem?_drop, Nat.add_sub_cancel' hge, hl])
        exact lt_of_mem_drop_rank hrows hm
    · obtain ⟨j, hj, rfl⟩ := List.mem_iff_getElem.mp hc
      have hf := Inner.flat_eq (t := ⟨addr, rows, kids⟩) (i := j) hk
        (Nat.lt_succ_iff.mp (hj.trans_eq hk)) (List.getElem?_eq_getElem hj)
      refine Tree.shaped (hko _ hc) (hs.sublist ?_)
      rw [hf, List.append_assoc]
      exact (List.sublist_append_left _ _).trans (List.sublist_append_right _ _)

/-! ## Size -/

theorem Tree.Occ.leaves : ∀ {h : ℕ} {t : Tree A R K h}, t.Occ D D →
    (D + 1) ^ h ≤ t.leaves.length ∧ ∀ l ∈ t.leaves, D ≤ l.rows.length
  | 0, t => fun ht => ⟨le_rfl, fun l hl => by
      obtain rfl := List.mem_singleton.mp hl
      exact ht.1⟩
  | h + 1, t => fun ht => by
    obtain ⟨⟨hm, -⟩, hk, hko⟩ := ht
    refine ⟨?_, fun l hl => ?_⟩
    · have hsum : ∀ ks : List (Tree A R K h), (∀ c ∈ ks, c.Occ D D) →
          ks.length * (D + 1) ^ h ≤ (ks.flatMap Tree.leaves).length := fun ks hks => by
        induction ks with
        | nil => exact (Nat.zero_mul _).le
        | cons c ks ih =>
          rw [List.flatMap_cons, List.length_append, List.length_cons, Nat.succ_mul, Nat.add_comm]
          exact Nat.add_le_add (Tree.Occ.leaves (hks c List.mem_cons_self)).1
            (ih fun d hd => hks d (List.mem_cons_of_mem _ hd))
      refine le_trans ?_ (hsum _ hko)
      rw [pow_succ, Nat.mul_comm]
      exact Nat.mul_le_mul_right _ (by omega)
    · obtain ⟨c, hc, hl⟩ := List.mem_flatMap.mp hl
      exact (Tree.Occ.leaves (hko c hc)).2 l hl

theorem length_flatMap_ge {α β : Type} {l : List α} {f : α → List β} {n : ℕ}
    (h : ∀ x ∈ l, n ≤ (f x).length) : l.length * n ≤ (l.flatMap f).length := by
  induction l with
  | nil => exact (Nat.zero_mul n).le
  | cons x l ih =>
    rw [List.flatMap_cons, List.length_append, List.length_cons, Nat.succ_mul, Nat.add_comm]
    exact Nat.add_le_add (h x List.mem_cons_self) (ih fun y hy => h y (List.mem_cons_of_mem _ hy))

/-- **A tree of height `h + 1`** has at least so many rows. -/
theorem Tree.length_rows_ge {h : ℕ} {t : Tree A R K (h + 1)} (ht : t.Occ D 1) :
    2 * (D + 1) ^ h * D ≤ (rowsOf t.flat).length := by
  rw [Tree.rows_leaves ht]
  obtain ⟨⟨hm, -⟩, hk, hko⟩ := ht
  refine le_trans (Nat.mul_le_mul_right D ?_) (length_flatMap_ge fun l hl => ?_)
  · refine le_trans (Nat.mul_le_mul_right _ ?_)
      (length_flatMap_ge (l := Inner.kids t) (f := Tree.leaves) fun c hc =>
        (Tree.Occ.leaves (hko c hc)).1)
    omega
  · obtain ⟨c, hc, hl⟩ := List.mem_flatMap.mp hl
    exact (Tree.Occ.leaves (hko c hc)).2 l hl

/-- **A tree has more pages than its height.** -/
theorem Tree.height_lt_pages : ∀ {h m : ℕ} {t : Tree A R K h}, t.Occ D m → h < t.pages.length
  | 0, _, _ => fun _ => Nat.zero_lt_one
  | h + 1, _, t => fun ht => by
    obtain ⟨-, hk, hko⟩ := ht
    obtain ⟨c, hc⟩ := List.exists_mem_of_length_pos (l := Inner.kids t) (by omega)
    have hlt := Tree.height_lt_pages (hko c hc)
    refine Nat.succ_lt_succ (hlt.trans_le ?_)
    rw [List.flatMap_def]
    exact (List.sublist_flatten_of_mem (List.mem_map_of_mem hc)).length_le

end MyJQL
