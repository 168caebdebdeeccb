import MyJQL.Lib.BPlusTree.Basic
import MyJQL.Storage.Array
import MyJQL.Model.Store

/-!
# The child for a key

* `descend k ks n`: the number of entries before the first one above the key;
  `descend_eq_count`: among increasing entries, the number of entries up to the key;
* `NodeKeys`: the node that a pointer reads, and the keys that the comparison functions see in it;
* `wp_findIndex_descend`, `wp_treeSearch_descend`: both searches of a node end in that child, for
  entries in any order;
* **`descent_agrees`**.
-/

set_option linter.unusedSimpArgs false

namespace MyJQL

variable {K : Type} [LinearOrder K]

/-- The number of entries before the first one above the key. -/
def descend (k : K) (ks : ℕ → K) (n : ℕ) : ℕ := ((List.range n).takeWhile fun j => ks j ≤ k).length

section Descend

variable {k : K} {ks : ℕ → K} {n j : ℕ}

theorem descend_eq (hj : j ≤ n) (h1 : ∀ l < j, ks l ≤ k) (h2 : j < n → k < ks j) :
    descend k ks n = j := by
  obtain ⟨m, rfl⟩ := Nat.exists_eq_add_of_le hj
  have hpre : (List.range j).takeWhile (fun l => decide (ks l ≤ k)) = List.range j :=
    List.takeWhile_eq_self_iff.mpr fun l hl => decide_eq_true (h1 l (List.mem_range.mp hl))
  have hpost : (List.map (j + ·) (List.range m)).takeWhile (fun l => decide (ks l ≤ k)) = [] := by
    cases m with
    | zero => rfl
    | succ m =>
      rw [List.range_succ_eq_map, List.map_cons, List.takeWhile_cons_of_neg]
      simpa using h2 (by omega)
  rw [descend, List.range_add, List.takeWhile_append, hpre, if_pos rfl, hpost, List.append_nil,
    List.length_range]

/-- **Among increasing entries** the child is the number of entries up to the key. -/
theorem descend_eq_count (h : ∀ l j, l < j → j < n → ks l < ks j) :
    descend k ks n = ((List.range n).filter fun j => ks j ≤ k).length := by
  induction n with
  | zero => rfl
  | succ n ih =>
    have ih : ((List.range n).takeWhile fun j => decide (ks j ≤ k)).length = _ :=
      ih fun l j hl hj => h l j hl (by omega)
    rw [descend, List.range_succ, List.filter_append, List.length_append, ← ih,
      List.takeWhile_append]
    split_ifs with hall
    · rw [List.length_append, List.length_range, hall, List.length_range]
      by_cases hle : ks n ≤ k <;> simp [hle]
    · -- some earlier entry is above the key, so the last one is
      have hlast : ¬ ks n ≤ k := fun hle => hall (congrArg List.length
        (List.takeWhile_eq_self_iff.mpr fun l hl => decide_eq_true
          ((h l n (List.mem_range.mp hl) (Nat.lt_succ_self n)).le.trans hle)))
      simp [hlast]

theorem descend_eq_rank {R : Type} {rows : List (R × K)}
    (h : ∀ j (hj : j < rows.length), ks j = rows[j].2) :
    descend k ks rows.length = rank k rows := by
  have e : rows.map Prod.snd = (List.range rows.length).map ks :=
    List.ext_getElem (by simp) fun j h1 _ => by
      rw [List.length_map] at h1
      simp [h j h1]
  have e' := congrArg (fun l : List K => (l.takeWhile fun x => decide (x ≤ k)).length) e
  simp only [List.takeWhile_map, List.length_map] at e'
  exact e'.symm

end Descend

variable {σ : Type} {sem : Sem Eff σ} {body : Bodies Eff Proc} {H : Handlers} {i : PoolId}
  {p : PagePtr} {b : BNode} {I : σ → Prop} {k : K} {ks : ℕ → K} {rid : RID} {leaf : Bool}
  {key : ℕ → Byte} {size : ℕ}

/-- The pointer reads the node `b` as long as `I` holds, and the comparison `cmp` with entry `j`
compares the key `k` with `ks j`. -/
structure NodeKeys (sem : Sem Eff σ) (body : Bodies Eff Proc) (p : PagePtr) (b : BNode)
    (I : σ → Prop) (cmp : RID → M Int) (k : K) (ks : ℕ → K) : Prop where
  load : ∀ s, I s → sem (.load p) s = some (.bNode b, s)
  cmp : ∀ s j, I s → j < b.n →
    wp sem body (cmp (b.rowPtr j)) (fun r s' => (r < 0 ↔ k < ks j) ∧ I s') s

namespace NodeKeys

variable {cmp : RID → M Int}

omit [LinearOrder K] in
theorem wp_load [LinearOrder K] (h : NodeKeys sem body p b I cmp k ks)
    {Q : BNode → σ → Prop} {s : σ}
    (hs : I s) (hQ : Q b s) : wp sem body p.bNode Q s :=
  wp_bind (wp_eff (h.load s hs) (wp_pure hQ))

theorem wp_cmp (h : NodeKeys sem body p b I cmp k ks) {j : ℕ} (hj : j < b.n) {Q : Int → σ → Prop}
    {s : σ} (hs : I s) (hlt : ∀ r s', r < 0 → k < ks j → I s' → Q r s')
    (hge : ∀ r s', 0 ≤ r → ks j ≤ k → I s' → Q r s') : wp sem body (cmp (b.rowPtr j)) Q s := by
  refine (h.cmp s j hs hj).mono fun r s' hr => ?_
  obtain ⟨hr, hs'⟩ := hr
  rcases lt_or_ge r 0 with hneg | hpos
  · exact hlt r s' hneg (hr.mp hneg) hs'
  · exact hge r s' hpos (not_lt.mp fun hk => absurd (hr.mpr hk) (not_lt.mpr hpos)) hs'

end NodeKeys

/-- **`find_index`** ends in the child for the key, for entries in any order. -/
theorem wp_findIndex_descend
    (h : NodeKeys sem body p b I (fun r => H.cmpRow rid r leaf b.leaf) k ks) {s : σ} (hs : I s) :
    wp sem body (findIndex H p rid leaf) (fun c s' => c = descend k ks b.n ∧ I s') s := by
  refine wp_bind (h.wp_load hs (wp_ite (fun h0 => wp_pure ⟨?_, hs⟩) fun h0 => ?_))
  · exact (descend_eq (Nat.zero_le _) (fun l hl => absurd hl l.not_lt_zero) fun hl =>
      absurd h0 hl.ne').symm
  have hpos : 0 < b.n := Nat.pos_of_ne_zero h0
  refine wp_bind (h.wp_load hs (wp_bind (h.wp_cmp hpos hs (fun r s₁ hr hk hs₁ => ?_)
    fun r s₁ hr hk₀ hs₁ => ?_)))
  · refine wp_ite (fun _ => wp_pure ⟨?_, hs₁⟩) fun hn => absurd hr hn
    exact (descend_eq (Nat.zero_le _) (fun l hl => absurd hl l.not_lt_zero) fun _ => hk).symm
  refine wp_ite (fun hn => absurd hr (not_le.mpr hn)) fun _ => ?_
  refine wp_bind (h.wp_load hs₁ ?_)
  -- before round `j`, the entries up to `j` are at most the key
  refine wp.seq (wp_forReturn (fun j s => I s ∧ j < b.n ∧ ∀ l ≤ j, ks l ≤ k)
    (Q := fun o s => I s ∧ o.elim (∀ l < b.n, ks l ≤ k) fun c => c = descend k ks b.n)
    ⟨hs₁, hpos, fun l hl => Nat.le_zero.mp hl ▸ hk₀⟩ (fun j s₂ _ hj hI => ?_) fun s₂ hI => ?_)
    fun o s₂ ho => ?_
  · obtain ⟨hs₂, hjn, hle⟩ := hI
    refine wp_bind (h.wp_load hs₂ (wp_bind (h.wp_cmp hjn hs₂
      (fun r _ _ hk _ => absurd hk (not_lt.mpr (hle j le_rfl))) fun r s₃ hr _ hs₃ => ?_)))
    refine wp_ite (fun _ => ?_) fun hn => absurd hr hn
    have hj1 : j + 1 < b.n := by omega
    refine wp_bind (h.wp_load hs₃ (wp_bind (h.wp_cmp hj1 hs₃ (fun r s₄ hr hk hs₄ => ?_)
      fun r s₄ hr hk hs₄ => ?_)))
    · refine wp_ite (fun _ => wp_pure ⟨hs₄, ?_⟩) fun hn => absurd hr hn
      exact (descend_eq hj1.le (fun l hl => hle l (by omega)) fun _ => hk).symm
    · refine wp_ite (fun hn => absurd hr (not_le.mpr hn)) fun _ =>
        wp_pure ⟨hs₄, hj1, fun l hl => ?_⟩
      rcases Nat.le_succ_iff.mp hl with hl | rfl
      · exact hle l hl
      · exact hk
  · obtain ⟨hs₂, hn, hle⟩ := hI
    exact ⟨hs₂, fun l hl => hle l (by omega)⟩
  · obtain ⟨hs₂, ho⟩ := ho
    cases o with
    | some c => exact wp_pure ⟨ho, hs₂⟩
    | none =>
      refine wp_bind (h.wp_load hs₂ (wp_bind (h.wp_cmp (by omega) hs₂
        (fun r _ _ hk _ => absurd hk (not_lt.mpr (ho _ (by omega)))) fun r s₃ hr _ hs₃ => ?_)))
      refine wp_ite (fun _ => wp_bind (h.wp_load hs₃ (wp_pure ⟨?_, hs₃⟩))) fun hn => absurd hr hn
      exact (descend_eq le_rfl ho fun hl => absurd hl (lt_irrefl _)).symm

/-- **`tree_search`** in an inner node descends into the child for the key, for entries in any
order. -/
theorem wp_treeSearch_descend
    (h : NodeKeys sem body p b I (fun r => H.cmpPtr key size r false) k ks) (hleaf : b.leaf = false)
    (hpos : 0 < b.n) {Q : RID → σ → Prop} {s : σ} (hs : I s)
    (hQ : ∀ s', I s' → wp sem body (searchChild i p key size (descend k ks b.n)) Q s') :
    wp sem body (treeSearch H i p key size) Q s := by
  refine wp_bind (h.wp_load hs (wp_ite (fun hl => ?_) fun _ => ?_))
  · rw [hleaf] at hl
    cases hl
  refine wp_bind (h.wp_load hs (wp_bind (h.wp_cmp hpos hs (fun r s₁ hr hk hs₁ => ?_)
    fun r s₁ hr hk₀ hs₁ => ?_)))
  · refine wp_ite (fun _ => ?_) fun hn => absurd hr hn
    have e : descend k ks b.n = 0 :=
      descend_eq (Nat.zero_le _) (fun l hl => absurd hl l.not_lt_zero) fun _ => hk
    exact e ▸ hQ s₁ hs₁
  refine wp_ite (fun hn => absurd hr (not_le.mpr hn)) fun _ => ?_
  refine wp_bind (h.wp_load hs₁ ?_)
  -- before round `j`, the entries up to `j` are at most the key
  refine wp.seq (wp_forReturn (fun j s => I s ∧ j < b.n ∧ ∀ l ≤ j, ks l ≤ k)
    (Q := fun o s => o.elim (I s ∧ ∀ l < b.n, ks l ≤ k) fun r => Q r s)
    ⟨hs₁, hpos, fun l hl => Nat.le_zero.mp hl ▸ hk₀⟩ (fun j s₂ _ hj hI => ?_) fun s₂ hI => ?_)
    fun o s₂ ho => ?_
  · obtain ⟨hs₂, hjn, hle⟩ := hI
    refine wp_bind (h.wp_load hs₂ (wp_bind (h.wp_cmp hjn hs₂
      (fun r _ _ hk _ => absurd hk (not_lt.mpr (hle j le_rfl))) fun r s₃ hr _ hs₃ => ?_)))
    refine wp_ite (fun _ => ?_) fun hn => absurd hr hn
    have hj1 : j + 1 < b.n := by omega
    refine wp_bind (h.wp_load hs₃ (wp_bind (h.wp_cmp hj1 hs₃ (fun r s₄ hr hk hs₄ => ?_)
      fun r s₄ hr hk hs₄ => ?_)))
    · refine wp_ite (fun _ => ?_) fun hn => absurd hr hn
      have e : descend k ks b.n = j + 1 :=
        descend_eq hj1.le (fun l hl => hle l (by omega)) fun _ => hk
      exact wp.seq (e ▸ hQ s₄ hs₄) fun r st hr => wp_pure hr
    · refine wp_ite (fun hn => absurd hr (not_le.mpr hn)) fun _ =>
        wp_pure ⟨hs₄, hj1, fun l hl => ?_⟩
      rcases Nat.le_succ_iff.mp hl with hl | rfl
      · exact hle l hl
      · exact hk
  · obtain ⟨hs₂, hn, hle⟩ := hI
    exact ⟨hs₂, fun l hl => hle l (by omega)⟩
  · cases o with
    | some r => exact wp_pure ho
    | none =>
      obtain ⟨hs₂, ho⟩ := ho
      refine wp_bind (h.wp_load hs₂ (wp_bind (h.wp_cmp (by omega) hs₂
        (fun r _ _ hk _ => absurd hk (not_lt.mpr (ho _ (by omega)))) fun r s₃ hr _ hs₃ => ?_)))
      refine wp_ite (fun _ => wp_bind (h.wp_load hs₃ ?_)) fun hn => absurd hr hn
      have e : descend k ks b.n = b.n := descend_eq le_rfl ho fun hl => absurd hl (lt_irrefl _)
      have hq := hQ s₃ hs₃
      rwa [e] at hq

/-- **The searches of a node agree.** In an inner node with at least one entry, in whatever order,
`find_index` returns a child and `tree_search` descends into the same one; among strictly increasing
entries it is the number of entries up to the key. -/
theorem descent_agrees (hn : 1 ≤ b.n) (hleaf : b.leaf = false)
    (hrow : NodeKeys sem body p b I (fun r => H.cmpRow rid r leaf b.leaf) k ks)
    (hptr : NodeKeys sem body p b I (fun r => H.cmpPtr key size r false) k ks) :
    ∃ c ≤ b.n,
      (∀ s, I s → wp sem body (findIndex H p rid leaf) (fun c' s' => c' = c ∧ I s') s) ∧
      (∀ s (Q : RID → σ → Prop), I s → (∀ s', I s' → wp sem body (searchChild i p key size c) Q s') →
        wp sem body (treeSearch H i p key size) Q s) ∧
      ((∀ l j, l < j → j < b.n → ks l < ks j) →
        c = ((List.range b.n).filter fun j => ks j ≤ k).length) := by
  refine ⟨descend k ks b.n, ?_, fun s hs => wp_findIndex_descend hrow hs,
    fun s Q hs hQ => wp_treeSearch_descend hptr hleaf hn hs hQ, descend_eq_count⟩
  have := (List.takeWhile_prefix (fun j => decide (ks j ≤ k)) (l := List.range b.n)).length_le
  rwa [List.length_range] at this

/-- Comparison by the index of a row; a key is its first byte. -/
def idxHandlers : Handlers where
  cmpRow a b _ _ := pure (a.idx - b.idx)
  cmpPtr p _ b _ := pure ((p 0).toInt - b.idx)
  insertHandler rid _ := pure rid
  deleteHandler _ := pure ()

/-- The key `2` between the entries `1` and `3`. -/
theorem descent_agrees_two :
    ∃ c ≤ 2, c = 1 ∧
      wp arraySem (procBody 2 idxHandlers) (findIndex idxHandlers ⟨.bpIdx, 0⟩ ⟨0, 2⟩ true)
        (fun c' _ => c' = c) (fun _ => ⟨fun _ => .bNode ⟨2, -1, fun j => j * pageSize,
          fun j => ⟨0, 2 * j + 1⟩, false⟩, 128, fun _ => 0, 1⟩) := by
  let b : BNode := ⟨2, -1, fun j => j * pageSize, fun j => ⟨0, 2 * j + 1⟩, false⟩
  let I : Arrays → Prop := fun u => u = fun _ => ⟨fun _ => .bNode b, 128, fun _ => 0, 1⟩
  have hrow : NodeKeys arraySem (procBody 2 idxHandlers) ⟨.bpIdx, 0⟩ b I
      (fun r => idxHandlers.cmpRow ⟨0, 2⟩ r true b.leaf) (2 : Int) fun j => 2 * j + 1 :=
    ⟨fun s hs => by subst hs; rfl, fun s j hs _ => wp_pure ⟨by simp only [b]; omega, hs⟩⟩
  have hptr : NodeKeys arraySem (procBody 2 idxHandlers) ⟨.bpIdx, 0⟩ b I
      (fun r => idxHandlers.cmpPtr (fun _ => 2) 1 r false) (2 : Int) fun j => 2 * j + 1 :=
    ⟨fun s hs => by subst hs; rfl, fun s j hs _ => wp_pure ⟨by
      rw [show (2 : Byte).toInt = 2 from rfl]
      simp only [b]
      omega, hs⟩⟩
  obtain ⟨c, hc, hfind, -, hcount⟩ := descent_agrees (i := .bpIdx) (by decide) rfl hrow hptr
  refine ⟨c, hc, ?_, (hfind _ rfl).mono fun c' _ h => h.1⟩
  rw [hcount fun l j hl _ => by omega]
  decide

end MyJQL
