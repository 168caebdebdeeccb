import MyJQL.BTree.Siblings

/-!
# Deletion from an index

* `Apart mem sp l kids`: subtrees that are stored, on pages in use other than `l`;
* `TreeDeleted`: what `tree_delete` leaves of an inner node and its subtrees;
* `Repaired.deleted`: after a child was repaired through its parent;
* `TreeDeleted.entry`: the separator left over, and its place in the node;
* **`wp_treeDelete`**: `tree_delete` is `Tree.delete`, by induction on the height.
-/

set_option linter.unusedSimpArgs false

namespace MyJQL

variable {h : ℕ} {K : Type} {mem mem' : Int → Page} {sp : Space} {l : List Int}

/-! ## Subtrees apart from some pages -/

/-- Subtrees that are stored, on pages in use other than `l`. -/
def Apart (mem : Int → Page) (sp : Space) (l : List Int) (kids : List (Tree Int RID K h)) : Prop :=
  ∀ d ∈ kids, d.Stored mem ∧ ∀ a ∈ d.pages, sp.Used a ∧ a ≠ 0 ∧ a ∉ l

theorem Apart.stored {kids : List (Tree Int RID K h)} (hs : Apart mem sp l kids)
    (hm : ∀ c, sp.Used c → c ≠ 0 → c ∉ l → mem' c = mem c) : ∀ d ∈ kids, d.Stored mem' :=
  fun d hd => (hs d hd).1.congr fun x hx => by
    obtain ⟨h1, h2, h3⟩ := (hs d hd).2 x hx
    exact hm x h1 h2 h3

/-- The subtrees below the root are stored apart from `l`. -/
def Tree.Below (mem : Int → Page) (sp : Space) (l : List Int) : ∀ {h : ℕ}, Tree Int RID K h → Prop
  | 0, _ => True
  | _ + 1, t => Apart mem sp l (Inner.kids t)

namespace Tree

variable {t a b : Tree Int RID K h} {s : RID × K} {sep : RID}

theorem RootAt.stored (hr : t.RootAt mem') (hb : t.Below mem sp l)
    (hm : ∀ c, sp.Used c → c ≠ 0 → c ∉ l → mem' c = mem c) : t.Stored mem' := by
  cases h with
  | zero => exact hr
  | succ h => exact ⟨hr, Apart.stored hb hm⟩

theorem Stored.below (ht : t.Stored mem) (hnd : t.pages.Nodup)
    (hl : ∀ x ∈ t.pages, x ≠ t.addr → sp.Used x ∧ x ≠ 0 ∧ x ∉ l) : t.Below mem sp l := by
  cases h with
  | zero => trivial
  | succ h =>
    refine fun d hd => ⟨ht.2 d hd, fun x hx => ?_⟩
    obtain ⟨h1, h2⟩ := Inner.mem_pages_kid hnd hd hx
    exact hl x h1 h2

theorem Below.merge (ha : a.Below mem sp l) (hb : b.Below mem sp l) :
    (a.merge sep s b).Below mem sp l := by
  cases h with
  | zero => trivial
  | succ h => exact fun d hd => (List.mem_append.mp hd).elim (ha d) (hb d)

theorem Below.fromRight (ha : a.Below mem sp l) (hb : b.Below mem sp l) :
    (a.fromRight sep s b).1.Below mem sp l ∧ (a.fromRight sep s b).2.2.Below mem sp l := by
  cases h with
  | zero => exact ⟨trivial, trivial⟩
  | succ h =>
    simp only [Tree.fromRight]
    split
    · next x rows c kids hr hk =>
      have hb : Apart mem sp l (c :: kids) := by
        rw [← hk]
        exact hb
      refine ⟨fun d hd => ?_, fun d hd => hb d (List.mem_cons_of_mem _ hd)⟩
      rcases List.mem_append.mp hd with hd | hd
      · exact ha d hd
      · rw [List.mem_singleton.mp hd]
        exact hb c List.mem_cons_self
    · exact ⟨ha, hb⟩

theorem Below.fromLeft (ha : a.Below mem sp l) (hb : b.Below mem sp l) :
    (a.fromLeft sep s b).1.Below mem sp l ∧ (a.fromLeft sep s b).2.2.Below mem sp l := by
  cases h with
  | zero => exact ⟨trivial, trivial⟩
  | succ h =>
    simp only [Tree.fromLeft]
    split
    · next x c hr hk =>
      refine ⟨fun d hd => ha d (List.mem_of_mem_dropLast hd), fun d hd => ?_⟩
      rcases List.mem_cons.mp hd with rfl | hd
      · exact ha d (List.mem_of_getLast? hk)
      · exact hb d hd
    · exact ⟨ha, hb⟩

end Tree

namespace Inner

variable {t : Inner Int RID K (Tree Int RID K h)} {a b : Tree Int RID K h} {s : RID × K} {j : ℕ}

theorem PairAt.owns (hp : t.PairAt j a s b) (ho : sp.Owns (Tree.pages (h := h + 1) t)) :
    sp.Owns (t.addr :: ((t.kids.take j ++ t.kids.drop (j + 2)).flatMap Tree.pages ++
      (a.pages ++ b.pages))) := by
  have e : t.kids.flatMap Tree.pages = (t.kids.take j).flatMap Tree.pages ++
      (a.pages ++ (b.pages ++ (t.kids.drop (j + 2)).flatMap Tree.pages)) := by
    conv_lhs => rw [hp.kids_eq]
    simp
  refine ho.perm ?_
  change (↑(t.addr :: t.kids.flatMap Tree.pages) : Multiset Int) = _
  rw [e]
  simp only [List.flatMap_append, ← Multiset.coe_add, ← Multiset.cons_coe,
    ← Multiset.singleton_add]
  abel

theorem PairAt.owns_addrs (hp : t.PairAt j a s b) (ho : sp.Owns (Tree.pages (h := h + 1) t)) :
    sp.Owns [t.addr, a.addr, b.addr] := by
  refine (hp.owns ho).sublist (List.Sublist.cons_cons _ (List.Sublist.trans ?_
    (List.sublist_append_right _ _)))
  exact (List.singleton_sublist.mpr a.addr_mem_pages).append
    (List.singleton_sublist.mpr b.addr_mem_pages)

theorem PairAt.apart (hp : t.PairAt j a s b) (ho : sp.Owns (Tree.pages (h := h + 1) t))
    (hst : ∀ d, d ∈ t.kids.take j ∨ d ∈ t.kids.drop (j + 2) → d.Stored mem) :
    Apart mem sp [t.addr, a.addr, b.addr] (t.kids.take j ++ t.kids.drop (j + 2)) := by
  have ho := hp.owns ho
  obtain ⟨h1, h2⟩ := List.nodup_cons.mp ho.nodup
  obtain ⟨-, -, h3⟩ := List.nodup_append.mp h2
  refine fun d hd => ⟨hst d (List.mem_append.mp hd), fun x hx => ?_⟩
  have hxm : x ∈ (t.kids.take j ++ t.kids.drop (j + 2)).flatMap Tree.pages :=
    List.mem_flatMap.mpr ⟨d, hd, hx⟩
  obtain ⟨h4, h5⟩ := ho.used x (List.mem_cons_of_mem _ (List.mem_append_left _ hxm))
  refine ⟨h4, h5, ?_⟩
  simp only [List.mem_cons, List.not_mem_nil, or_false, not_or]
  refine ⟨?_, h3 x hxm _ (List.mem_append_left _ a.addr_mem_pages),
    h3 x hxm _ (List.mem_append_right _ b.addr_mem_pages)⟩
  rintro rfl
  exact h1 (List.mem_append_left _ hxm)

theorem PairAt.below (hp : t.PairAt j a s b) (ho : sp.Owns (Tree.pages (h := h + 1) t)) :
    (a.Stored mem → a.Below mem sp [t.addr, a.addr, b.addr]) ∧
      (b.Stored mem → b.Below mem sp [t.addr, a.addr, b.addr]) := by
  have ho := hp.owns ho
  obtain ⟨h1, h2⟩ := List.nodup_cons.mp ho.nodup
  obtain ⟨-, h3, -⟩ := List.nodup_append.mp h2
  obtain ⟨ha, hb, h4⟩ := List.nodup_append.mp h3
  constructor
  · refine fun hst => hst.below ha fun x hx hne => ?_
    have hxm : x ∈ a.pages ++ b.pages := List.mem_append_left _ hx
    obtain ⟨h5, h6⟩ := ho.used x (List.mem_cons_of_mem _ (List.mem_append_right _ hxm))
    refine ⟨h5, h6, ?_⟩
    simp only [List.mem_cons, List.not_mem_nil, or_false, not_or]
    refine ⟨?_, hne, h4 x hx _ b.addr_mem_pages⟩
    rintro rfl
    exact h1 (List.mem_append_right _ hxm)
  · refine fun hst => hst.below hb fun x hx hne => ?_
    have hxm : x ∈ a.pages ++ b.pages := List.mem_append_right _ hx
    obtain ⟨h5, h6⟩ := ho.used x (List.mem_cons_of_mem _ (List.mem_append_right _ hxm))
    refine ⟨h5, h6, ?_⟩
    simp only [List.mem_cons, List.not_mem_nil, or_false, not_or]
    refine ⟨?_, (h4 _ a.addr_mem_pages x hx).symm, hne⟩
    rintro rfl
    exact h1 (List.mem_append_right _ hxm)

end Inner

/-! ## A repaired node -/

variable {bd : Bool} {D : ℕ} {H : Handlers} {i : PoolId} [LinearOrder K]
  {spec : HandlerSpec D H i K} {recs : Records K} {R R' : Multiset (RID × K)} {st : Flat}
  {f f' : FlatPool} {root : Int} {ct pt bt j m : ℕ} {t : Inner Int RID K (Tree Int RID K h)}
  {a b : Tree Int RID K h} {s : RID × K} {old : RID}

/-- What `tree_delete` leaves of the node `t` and its subtrees, when the tree has become `g`: the
separator that was merged is still in the node. -/
structure TreeDeleted (spec : HandlerSpec D H i K) (recs : Records K) (R : Multiset (RID × K))
    (t : Inner Int RID K (Tree Int RID K h)) (f : FlatPool) (root : Int) (sp : Space)
    (g : Shrunk Int RID K (h + 1)) (old : RID) (s' : Flat) (f' : FlatPool) : Prop where
  kids : ∀ d ∈ Inner.kids g.tree, d.Stored f'.mem
  node : match g.merged with
    | none => old.blockAddr = -1 ∧
        InnerAt f'.mem t.addr (names (Inner.rows g.tree)) (addrs (Inner.kids g.tree)) ∧
        spec.Inv recs (sepsOf g.tree.flat + R) s'
    | some j => ∃ k, t.rows[j]? = some (old, k) ∧ InnerAt f'.mem t.addr (names t.rows) (addrs t.kids) ∧
        spec.Inv recs ((old, k) ::ₘ (sepsOf g.tree.flat + R)) s'
  ctl : f'.Ctl root (sp.give g.freed)
  frame : ∀ c, sp.Used c → c ≠ 0 → c ∉ Tree.pages (h := h + 1) t → f'.mem c = f.mem c
  keeps : f.Keeps f'

theorem TreeDeleted.release {c : Int} {g : Shrunk Int RID K (h + 1)} {s' : Flat}
    (ht : TreeDeleted spec recs R t (f.get c) root sp g old s' f') :
    TreeDeleted spec recs R t f root sp g old s' (f'.release c) :=
  ⟨ht.kids, ht.node, ht.ctl.congr rfl rfl fun _ _ => rfl, ht.frame, ht.keeps.bracket⟩

theorem Took.deleted {q : Tree Int RID K h × (RID × K) × Tree Int RID K h} {s' : Flat}
    (hk : t.kids.length = t.rows.length + 1) (hp : t.PairAt j a s b)
    (ho : sp.Owns (Tree.pages (h := h + 1) t))
    (hst : ∀ d, d ∈ t.kids.take j ∨ d ∈ t.kids.drop (j + 2) → d.Stored f.mem)
    (hq : q.1.addr = a.addr ∧ q.2.2.addr = b.addr)
    (hb : q.1.Below f.mem sp [t.addr, a.addr, b.addr] ∧
      q.2.2.Below f.mem sp [t.addr, a.addr, b.addr])
    (hR : R' = sepsOf (t.pre j) + (sepsOf (t.post (j + 1)) + R)) (hold : old.blockAddr = -1)
    (htk : Took spec recs R' f root sp t.addr (names t.rows) (addrs t.kids) j q s' f') :
    TreeDeleted spec recs R t f root sp ⟨t.setPair j q.1 q.2.1 q.2.2, [], none⟩ old s' f' := by
  have hj := (List.getElem?_eq_some_iff.mp hp.sep).1
  have hm : ∀ c, sp.Used c → c ≠ 0 → c ∉ [t.addr, a.addr, b.addr] → f'.mem c = f.mem c :=
    fun c _ _ hc => by
      simp only [List.mem_cons, List.not_mem_nil, or_false, not_or] at hc
      exact htk.frame c hc.1 (hq.1 ▸ hc.2.1) (hq.2 ▸ hc.2.2)
  have hap := (hp.apart ho hst).stored hm
  have hadd : addrs (t.setPair j q.1 q.2.1 q.2.2).kids = addrs t.kids := by
    conv_rhs => rw [hp.kids_eq]
    simp [Inner.setPair, addrs, hq]
  have hrows : names (t.setPair j q.1 q.2.1 q.2.2).rows = (names t.rows).set j q.2.1.1 := by
    rw [List.set_eq_take_append_cons_drop, if_pos (by simpa using hj)]
    simp [Inner.setPair, names]
  refine ⟨fun d hd => ?_, ⟨hold, ?_, ?_⟩, htk.ctl, fun c hcu hc0 hc => ?_, htk.keeps⟩
  · have hd : d ∈ t.kids.take j ++ q.1 :: q.2.2 :: t.kids.drop (j + 2) := hd
    simp only [List.mem_append, List.mem_cons] at hd
    rcases hd with hd | rfl | rfl | hd
    · exact hap d (List.mem_append_left _ hd)
    · exact htk.left.stored hb.1 hm
    · exact htk.right.stored hb.2 hm
    · exact hap d (List.mem_append_right _ hd)
  · change InnerAt f'.mem t.addr (names (t.setPair j q.1 q.2.1 q.2.2).rows) _
    rw [hrows, hadd]
    exact htk.parent
  · have e : (sepsOf (Tree.flat (h := h + 1) (t.setPair j q.1 q.2.1 q.2.2)) + R :
        Multiset (RID × K)) = sepsOf (q.1.pairFlat q.2.1 q.2.2) + R' := by
      rw [Inner.flat_setPair hk hj, hR, sepsOf_append, sepsOf_append]
      simp only [← Multiset.coe_add]
      abel
    rw [e]
    exact htk.inv
  · refine hm c hcu hc0 fun hcm => hc ?_
    simp only [List.mem_cons, List.not_mem_nil, or_false] at hcm
    rcases hcm with rfl | rfl | rfl
    · exact List.mem_cons_self
    · exact (Inner.mem_pages_kid ho.nodup (List.mem_of_getElem? hp.left) a.addr_mem_pages).1
    · exact (Inner.mem_pages_kid ho.nodup (List.mem_of_getElem? hp.right) b.addr_mem_pages).1

theorem Joined.deleted {a' : Tree Int RID K h} {s' : Flat}
    (hk : t.kids.length = t.rows.length + 1) (hp : t.PairAt j a s b)
    (ho : sp.Owns (Tree.pages (h := h + 1) t))
    (hst : ∀ d, d ∈ t.kids.take j ∨ d ∈ t.kids.drop (j + 2) → d.Stored f.mem)
    (hn : InnerAt f.mem t.addr (names t.rows) (addrs t.kids)) (ha : a'.addr = a.addr)
    (hb : a'.Below f.mem sp [t.addr, a.addr, b.addr])
    (hR : R' = sepsOf (t.pre j) + (sepsOf (t.post (j + 1)) + R))
    (hjn : Joined spec recs R' f root sp s a' b.addr s' f') :
    TreeDeleted spec recs R t f root sp ⟨t.setMerged j a', [b.addr], some j⟩ s.1 s' f' := by
  have hj := (List.getElem?_eq_some_iff.mp hp.sep).1
  obtain ⟨⟨htx, hty, -⟩, ht0, -, -⟩ := (hp.owns_addrs ho).distinct
  have hm : ∀ c, sp.Used c → c ≠ 0 → c ∉ [t.addr, a.addr, b.addr] → f'.mem c = f.mem c :=
    fun c _ hc0 hc => by
      simp only [List.mem_cons, List.not_mem_nil, or_false, not_or] at hc
      exact hjn.frame c hc0 (ha ▸ hc.2.1) hc.2.2
  have hap := (hp.apart ho hst).stored hm
  refine ⟨fun d hd => ?_, ⟨s.2, hp.sep, ?_, ?_⟩, hjn.ctl, fun c hcu hc0 hc => ?_, hjn.keeps⟩
  · have hd : d ∈ t.kids.take j ++ a' :: t.kids.drop (j + 2) := hd
    simp only [List.mem_append, List.mem_cons] at hd
    rcases hd with hd | rfl | hd
    · exact hap d (List.mem_append_left _ hd)
    · exact hjn.tree.stored hb hm
    · exact hap d (List.mem_append_right _ hd)
  · exact hn.congr (hjn.frame t.addr ht0 (ha ▸ htx) hty)
  · have e : (sepsOf (Tree.flat (h := h + 1) (t.setMerged j a')) + R : Multiset (RID × K)) =
        sepsOf a'.flat + R' := by
      rw [Inner.flat_setMerged hk hj, hR, sepsOf_append, sepsOf_append]
      simp only [← Multiset.coe_add]
      abel
    rw [e]
    exact hjn.inv
  · refine hm c hcu hc0 fun hcm => hc ?_
    simp only [List.mem_cons, List.not_mem_nil, or_false] at hcm
    rcases hcm with rfl | rfl | rfl
    · exact List.mem_cons_self
    · exact (Inner.mem_pages_kid ho.nodup (List.mem_of_getElem? hp.left) a.addr_mem_pages).1
    · exact (Inner.mem_pages_kid ho.nodup (List.mem_of_getElem? hp.right) b.addr_mem_pages).1

/-- **A repair in the pool is a repair of the tree.** -/
theorem Repaired.deleted {q : RID → Tree Int RID K h × (RID × K) × Tree Int RID K h} {more : Prop}
    [Decidable more] {n : ℕ} (hk : t.kids.length = t.rows.length + 1)
    (hp : t.PairAt (t.side n) a s b) (ho : sp.Owns (Tree.pages (h := h + 1) t))
    (hst : ∀ d, d ∈ t.kids.take (t.side n) ∨ d ∈ t.kids.drop (t.side n + 2) → d.Stored f.mem)
    (hn : InnerAt f.mem t.addr (names t.rows) (addrs t.kids))
    (hq : ∀ sep, (q sep).1.addr = a.addr ∧ (q sep).2.2.addr = b.addr)
    (hb : ∀ sep, (q sep).1.Below f.mem sp [t.addr, a.addr, b.addr] ∧
      (q sep).2.2.Below f.mem sp [t.addr, a.addr, b.addr])
    (hbm : ∀ sep, (a.merge sep s b).Below f.mem sp [t.addr, a.addr, b.addr])
    (he : ∀ sep, t.rebalance D sep n =
      if more then (t.setPair (t.side n) (q sep).1 (q sep).2.1 (q sep).2.2, none)
      else (t.setMerged (t.side n) (a.merge sep s b), some (t.side n, b.addr)))
    (hR : R' = sepsOf (t.pre (t.side n)) + (sepsOf (t.post (t.side n + 1)) + R))
    (hr : Repaired spec recs R' f root sp t.addr (names t.rows) (addrs t.kids) (t.side n) s q
      (fun sep => a.merge sep s b) b.addr more old st) :
    ∃ sep s' f', st = Function.update s' i f' ∧
      TreeDeleted spec recs R t f root sp (t.repaired D sep n) old s' f' := by
  obtain ⟨sep, s', f', rfl, ⟨hm, hold, htk⟩ | ⟨hm, rfl, hjn⟩⟩ := hr
  · refine ⟨sep, s', f', rfl, ?_⟩
    rw [Inner.repaired, he, if_pos hm]
    exact htk.deleted hk hp ho hst (hq sep) (hb sep) hR hold
  · refine ⟨sep, s', f', rfl, ?_⟩
    rw [Inner.repaired, he, if_neg hm]
    exact hjn.deleted hk hp ho hst hn (Tree.merge_addr a s b) (hbm sep) hR

/-! ## Repairing a child -/

omit [LinearOrder K] in
theorem seps_pair (hk : t.kids.length = t.rows.length + 1) (hp : t.PairAt j a s b) :
    (sepsOf (Tree.flat (h := h + 1) t) + R : Multiset (RID × K)) = sepsOf (a.pairFlat s b) +
      (sepsOf (t.pre j) + (sepsOf (t.post (j + 1)) + R)) := by
  rw [hp.flat_eq hk, sepsOf_append, sepsOf_append]
  simp only [← Multiset.coe_add]
  abel

omit [LinearOrder K] in
theorem pairAt_node {pb : BNode} (hr : pb.rows = names t.rows) (hk : pb.kids = addrs t.kids)
    (hp : t.PairAt j a s b) :
    pb.rowPtr j = s.1 ∧ j < pb.n ∧ pb.child j = a.addr ∧ pb.child (j + 1) = b.addr := by
  refine ⟨BNode.rowPtr_eq hr ?_, ?_, BNode.child_eq hk ?_, BNode.child_eq hk ?_⟩
  · rw [List.getElem?_map, hp.sep]
    rfl
  · rw [← Keyed.length_of hr]
    exact (List.getElem?_eq_some_iff.mp hp.sep).1
  · rw [List.getElem?_map, hp.left]
    rfl
  · rw [List.getElem?_map, hp.right]
    rfl

/-- **Repairing a leaf** without its row `m`. -/
theorem wp_repairLeaf {t : Inner Int RID K (Tree Int RID K 0)} {c : Tree Int RID K 0} {n : ℕ}
    {pb xb : BNode} (hd : t.Deficient D n) (hcn : t.kids[n]? = some c)
    (hinv : spec.Inv recs (sepsOf (Tree.flat (h := 1) t) + R) st) (hc : f.Ctl root sp)
    (hct : f.Held ct 0) (hpt : f.Held pt t.addr) (hbt : f.Held bt c.addr)
    (ho : sp.Owns (Tree.pages (h := 1) t)) (hpb : f.mem t.addr = .bNode pb)
    (hpl : pb.leaf = false) (hpr : pb.rows = names t.rows) (hpk : pb.kids = addrs t.kids)
    (hxb : f.mem c.addr = .bNode xb) (hxl : xb.leaf = true) (hxn : xb.next = Leaf.next c)
    (hxr : xb.n = D) (hm : m < D) (hcr : xb.rows.eraseIdx m = names (Leaf.rows c))
    (hst : ∀ k d, k ≠ n → t.kids[k]? = some d → d.Stored f.mem)
    (hlive : ∀ x ∈ rowsOf (Tree.flat (h := 1) t), recs x.1 = some x.2)
    (hbd : bd → f.load + 1 ≤ cachePage) :
    wp (flatSem bd) (procBody D H)
      (if n ≠ pb.n then treeDeleteLeafRight D H i ⟨i, ct⟩ ⟨i, pt⟩ ⟨i, bt⟩ (m + 1) n
        else treeDeleteLeafLeft D H i ⟨i, ct⟩ ⟨i, pt⟩ ⟨i, bt⟩ (m + 1) n)
      (fun old st => ∃ sep s' f', st = Function.update s' i f' ∧
        TreeDeleted spec recs R t f root sp (t.repaired D sep n) old s' f')
      (Function.update st i f) := by
  have hlen := Keyed.length_of hpr
  have hle := hd.le
  have hn : InnerAt f.mem t.addr (names t.rows) (addrs t.kids) := ⟨pb, hpb, hpl, hpr, hpk⟩
  have hrest : ∀ d, d ∈ t.kids.take (t.side n) ∨ d ∈ t.kids.drop (t.side n + 2) →
      d.Stored f.mem := fun d hdm => by
    obtain ⟨k, hk, hkd⟩ := hd.exists_other hdm
    exact hst k d hk hkd
  refine wp_ite (fun hne => ?_) fun he => ?_
  · have hlt : n < t.rows.length := by omega
    obtain ⟨hside, s, b, hp, hb⟩ := hd.pairAt_right hlt hcn
    obtain ⟨hps, hj, -, hpb'⟩ := pairAt_node hpr hpk hp
    obtain ⟨yb, hyb, hyl, hyn, hyr⟩ : LeafAt f.mem b.addr (Leaf.next b) (names (Leaf.rows b)) :=
      hst (n + 1) b (by omega) (hside ▸ hp.right)
    rw [seps_pair hd.kids hp, seps_pairFlat_leaf] at hinv
    have hlive' : ∀ e ∈ Leaf.rows b, recs e.1 = some e.2 := fun e he => hlive e (by
      rw [hp.flat_eq hd.kids]
      simp [Tree.pairFlat, Tree.flat, rowsOf_leaf, he])
    have hw := wp_leafRight (i := i) (a := c) (b := b)
      ⟨hc, hct, hpt, hbt, hpb, hxb, hyb, hp.owns_addrs ho⟩ hinv hpl hps hj hpb' hxl hxn hxr hm hcr
      hyl hyn hyr (Tree.Occ.rows hb).1 hlive' hbd
    rw [hside] at hw
    refine hw.mono fun old st' hr => ?_
    rw [hpr, hpk, ← hside] at hr
    exact hr.deleted hd.kids hp ho hrest hn (fun sep => Tree.fromRight_addr c s b)
      (fun sep => ⟨trivial, trivial⟩) (fun sep => trivial)
      (fun sep => hp.rebalance_right D sep hlt) rfl
  · have hge : ¬ n < t.rows.length := by omega
    obtain ⟨hside, a, s, hp, ha⟩ := hd.pairAt_left hge hcn
    obtain ⟨hps, hj, hpa, hpb'⟩ := pairAt_node hpr hpk hp
    obtain ⟨yb, hyb, hyl, hyn, hyr⟩ : LeafAt f.mem a.addr (Leaf.next a) (names (Leaf.rows a)) :=
      hst (t.side n) a (by omega) hp.left
    rw [seps_pair hd.kids hp, seps_pairFlat_leaf] at hinv
    have hlive' : ∀ e ∈ Leaf.rows a, recs e.1 = some e.2 := fun e he => hlive e (by
      rw [hp.flat_eq hd.kids]
      simp [Tree.pairFlat, Tree.flat, rowsOf_leaf, he])
    have hw := wp_leafLeft (i := i) (a := a) (b := c)
      ⟨hc, hct, hpt, hbt, hpb, hxb, hyb, (hp.owns_addrs ho).swap⟩ hinv hpl hps hj ⟨hpa, hpb'⟩ hxl
      hxn hxr hm hcr hyl hyn hyr (Tree.Occ.rows ha).1 hlive' hbd
    rw [hside] at hw
    refine hw.mono fun old st' hr => ?_
    rw [hpr, hpk] at hr
    exact hr.deleted hd.kids hp ho hrest hn (fun sep => Tree.fromLeft_addr a s c)
      (fun sep => ⟨trivial, trivial⟩) (fun sep => trivial)
      (fun sep => hp.rebalance_left D sep hge) (by rw [hside])

/-- **Repairing an inner node.** -/
theorem wp_repairInner {t : Inner Int RID K (Tree Int RID K (h + 1))} {c : Tree Int RID K (h + 1)}
    {n : ℕ} {pb : BNode} (hd : t.Deficient D n) (hcn : t.kids[n]? = some c)
    (hinv : spec.Inv recs (sepsOf (Tree.flat (h := h + 2) t) + R) st) (hc : f.Ctl root sp)
    (hct : f.Held ct 0) (hpt : f.Held pt t.addr) (hbt : f.Held bt c.addr)
    (ho : sp.Owns (Tree.pages (h := h + 2) t)) (hpb : f.mem t.addr = .bNode pb)
    (hpl : pb.leaf = false) (hpr : pb.rows = names t.rows) (hpk : pb.kids = addrs t.kids)
    (hst : ∀ d ∈ t.kids, d.Stored f.mem) (hbd : bd → f.load + 1 ≤ cachePage) :
    wp (flatSem bd) (procBody D H)
      (if n ≠ pb.n then treeDeleteInnerRight D H i ⟨i, ct⟩ ⟨i, pt⟩ ⟨i, bt⟩ n
        else treeDeleteInnerLeft D H i ⟨i, ct⟩ ⟨i, pt⟩ ⟨i, bt⟩ n)
      (fun old st => ∃ sep s' f', st = Function.update s' i f' ∧
        TreeDeleted spec recs R t f root sp (t.repaired D sep n) old s' f')
      (Function.update st i f) := by
  have hlen := Keyed.length_of hpr
  have hle := hd.le
  have hn : InnerAt f.mem t.addr (names t.rows) (addrs t.kids) := ⟨pb, hpb, hpl, hpr, hpk⟩
  have hrest : ∀ d, d ∈ t.kids.take (t.side n) ∨ d ∈ t.kids.drop (t.side n + 2) →
      d.Stored f.mem := fun d hdm => hst d (hdm.elim List.mem_of_mem_take List.mem_of_mem_drop)
  obtain ⟨hco, hcl⟩ := hd.here c hcn
  have hcl' : c.rows.length + 1 = D := by
    have := (Tree.Occ.rows hco).1
    omega
  obtain ⟨xb, hxb, hxl, hxr, hxk⟩ := (hst c (List.mem_of_getElem? hcn)).rootAt
  refine wp_ite (fun hne => ?_) fun he => ?_
  · have hlt : n < t.rows.length := by omega
    obtain ⟨hside, s, b, hp, hb⟩ := hd.pairAt_right hlt hcn
    obtain ⟨hps, hj, -, hpb'⟩ := pairAt_node hpr hpk hp
    obtain ⟨yb, hyb, hyl, hyr, hyk⟩ := (hst b (List.mem_of_getElem? hp.right)).rootAt
    obtain ⟨hcb, hbb⟩ := hp.below ho
    replace hcb := hcb (hst c (List.mem_of_getElem? hcn))
    replace hbb := hbb (hst b (List.mem_of_getElem? hp.right))
    rw [seps_pair hd.kids hp] at hinv
    have hw := wp_innerRight (i := i) (a := c) (b := b)
      ⟨hc, hct, hpt, hbt, hpb, hxb, hyb, hp.owns_addrs ho⟩ hinv hpl hps hj hpb' hxl hxr hxk hyl hyr
      hyk hcl' (Tree.Occ.rows hb).1 hco hb hbd
    rw [hside] at hw
    refine hw.mono fun old st' hr => ?_
    rw [hpr, hpk, ← hside] at hr
    exact hr.deleted hd.kids hp ho hrest hn (fun sep => Tree.fromRight_addr c s b)
      (fun sep => hcb.fromRight hbb) (fun sep => hcb.merge hbb)
      (fun sep => hp.rebalance_right D sep hlt) rfl
  · have hge : ¬ n < t.rows.length := by omega
    obtain ⟨hside, a, s, hp, ha⟩ := hd.pairAt_left hge hcn
    obtain ⟨hps, hj, hpa, hpb'⟩ := pairAt_node hpr hpk hp
    obtain ⟨yb, hyb, hyl, hyr, hyk⟩ := (hst a (List.mem_of_getElem? hp.left)).rootAt
    obtain ⟨hab, hcb⟩ := hp.below ho
    replace hab := hab (hst a (List.mem_of_getElem? hp.left))
    replace hcb := hcb (hst c (List.mem_of_getElem? hcn))
    rw [seps_pair hd.kids hp] at hinv
    have hw := wp_innerLeft (i := i) (a := a) (b := c)
      ⟨hc, hct, hpt, hbt, hpb, hxb, hyb, (hp.owns_addrs ho).swap⟩ hinv hpl hps hj ⟨hpa, hpb'⟩ hxl
      hxr hxk hyl hyr hyk (Tree.Occ.rows ha).1 hcl' ha hco hbd
    rw [hside] at hw
    refine hw.mono fun old st' hr => ?_
    rw [hpr, hpk] at hr
    exact hr.deleted hd.kids hp ho hrest hn (fun sep => Tree.fromLeft_addr a s c)
      (fun sep => hab.fromLeft hcb) (fun sep => hab.merge hcb)
      (fun sep => hp.rebalance_left D sep hge) (by rw [hside])

/-! ## A child after a deletion -/

/-- What a deletion leaves of the tree `c`, when it has become `r`. -/
structure Deleted (spec : HandlerSpec D H i K) (recs : Records K) (R : Multiset (RID × K))
    (c : Tree Int RID K h) (f : FlatPool) (root : Int) (sp : Space) (r : Shrunk Int RID K h)
    (s' : Flat) (f' : FlatPool) : Prop where
  stored : r.tree.Stored f'.mem
  ctl : f'.Ctl root (sp.give r.freed)
  frame : ∀ x, sp.Used x → x ≠ 0 → x ∉ c.pages → f'.mem x = f.mem x
  keeps : f.Keeps f'
  inv : spec.Inv recs (sepsOf r.tree.flat + R) s'

theorem Deleted.release {a : Int} {c : Tree Int RID K h} {r : Shrunk Int RID K h} {s' : Flat}
    (hd : Deleted spec recs R c (f.get a) root sp r s' f') :
    Deleted spec recs R c f root sp r s' (f'.release a) :=
  ⟨hd.stored, hd.ctl.congr rfl rfl fun _ _ => rfl, hd.frame, hd.keeps.bracket, hd.inv⟩

section Up

variable {c : Tree Int RID K h} {r : Shrunk Int RID K h} {n : ℕ} {s' : Flat} {f₁ : FlatPool}
  {sep : RID}

omit [LinearOrder K] in
theorem pages_graft (hc : t.kids[n]? = some c)
    (hr : (r.freed + r.tree.pages : Multiset Int) = c.pages) :
    (Tree.pages (h := h + 1) t : Multiset Int) =
      ↑(r.freed ++ Tree.pages (h := h + 1) (t.graft n [r.tree] [])) := by
  have e : Tree.pages (h := h + 1) t = t.addr :: t.kids.flatMap Tree.pages := rfl
  rw [← Multiset.coe_add, Inner.pages_graft_one, e, Inner.pages_kids hc, ← Multiset.cons_coe,
    ← Multiset.coe_add, ← Multiset.coe_add, ← hr]
  simp only [← Multiset.singleton_add]
  abel

omit [LinearOrder K] in
theorem stored_graft {c' : Tree Int RID K h} (ho : sp.Owns (Tree.pages (h := h + 1) t))
    (hc : t.kids[n]? = some c) (hst : ∀ d ∈ t.kids, d.Stored f.mem) (hc' : c'.Stored f'.mem)
    (hm : ∀ x, sp.Used x → x ≠ 0 → x ∉ c.pages → f'.mem x = f.mem x) :
    ∀ d ∈ (t.graft n [c'] []).kids, d.Stored f'.mem := by
  have hside : ∀ d, d ∈ t.kids.take n ∨ d ∈ t.kids.drop (n + 1) → d.Stored f'.mem := fun d hd => by
    have hdm : d ∈ t.kids := hd.elim List.mem_of_mem_take List.mem_of_mem_drop
    refine (hst d hdm).congr fun x hx => ?_
    obtain ⟨h1, h2⟩ := ho.used x (Inner.mem_pages_kid ho.nodup hdm hx).1
    exact hm x h1 h2 (Inner.disjoint_kid ho.nodup hc hd hx)
  intro d hd
  simp only [Inner.graft, List.mem_append, List.mem_singleton] at hd
  rcases hd with (hd | rfl) | hd
  · exact hside d (Or.inl hd)
  · exact hc'
  · exact hside d (Or.inr hd)

/-- **The node around a subtree with enough rows.** -/
theorem Deleted.up (ho : sp.Owns (Tree.pages (h := h + 1) t))
    (hk : t.kids.length = t.rows.length + 1) (hc : t.kids[n]? = some c)
    (hst : ∀ d ∈ t.kids, d.Stored f.mem) (hn : InnerAt f.mem t.addr (names t.rows) (addrs t.kids))
    (ha : r.tree.addr = c.addr) (hle : D ≤ r.tree.rows.length) (hold : old.blockAddr = -1)
    (hR : R' = sepsOf (t.pre n) + (sepsOf (t.post n) + R))
    (hd : Deleted spec recs R' c f root sp r s' f') :
    TreeDeleted spec recs R t f root sp (t.shrink D sep n r) old s' f' := by
  have hcm := List.mem_of_getElem? hc
  rw [Inner.shrink_of_le hle]
  refine ⟨stored_graft ho hc hst hd.stored hd.frame, ⟨hold, ?_, ?_⟩, hd.ctl, fun x hx hx0 hxt => ?_,
    hd.keeps⟩
  · change InnerAt f'.mem t.addr (names (t.graft n [r.tree] []).rows)
      (addrs (t.graft n [r.tree] []).kids)
    rw [Inner.rows_graft_one, show addrs _ = addrs t.kids from Inner.addrs_graft hc ha]
    obtain ⟨h1, h2⟩ := ho.used t.addr List.mem_cons_self
    exact hn.congr (hd.frame t.addr h1 h2 fun hm => (Inner.mem_pages_kid ho.nodup hcm hm).2 rfl)
  · rw [seps_graft hk hc, ← hR]
    exact hd.inv
  · exact hd.frame x hx hx0 fun hm => hxt (Inner.mem_pages_kid ho.nodup hcm hm).1

/-- **The node around a subtree that was repaired.** -/
theorem TreeDeleted.up (ho : sp.Owns (Tree.pages (h := h + 1) t)) (hc : t.kids[n]? = some c)
    (ha : r.tree.addr = c.addr) (hr : (r.freed + r.tree.pages : Multiset Int) = c.pages)
    (hlt : ¬ D ≤ r.tree.rows.length) (hk : f.Keeps f₁)
    (hm : ∀ x, sp.Used x → x ≠ 0 → x ∉ c.pages → f₁.mem x = f.mem x)
    (hd : TreeDeleted spec recs R (t.graft n [r.tree] []) f₁ root (sp.give r.freed)
      ((t.graft n [r.tree] []).repaired D sep n) old s' f') :
    TreeDeleted spec recs R t f root sp (t.shrink D sep n r) old s' f' := by
  have hcm := List.mem_of_getElem? hc
  have hpages := pages_graft hc hr
  have hnode := hd.node
  rw [Inner.rows_graft_one, show addrs _ = addrs t.kids from Inner.addrs_graft hc ha] at hnode
  rw [Inner.shrink_of_lt hlt]
  refine ⟨hd.kids, hnode, ?_, fun x hx hx0 hxt => ?_, hk.trans hd.keeps⟩
  · have hctl := hd.ctl
    rwa [Space.give_give] at hctl
  · have hxm : x ∉ r.freed ++ Tree.pages (h := h + 1) (t.graft n [r.tree] []) := fun hm => hxt
      ((Multiset.coe_eq_coe.mp hpages).mem_iff.mpr hm)
    refine (hd.frame x (hx.give fun hm => hxm (List.mem_append_left _ hm)) hx0 fun hm =>
      hxm (List.mem_append_right _ hm)).trans (hm x hx hx0 fun hm => hxt ?_)
    exact (Inner.mem_pages_kid ho.nodup hcm hm).1

end Up

/-! ## The descent -/

theorem keyed_inner {pb : BNode} (hk : t.kids.length = t.rows.length + 1)
    (hs : Sorted (Tree.flat (h := h + 1) t)) (hl : pb.leaf = false) (hr : pb.rows = names t.rows) :
    Keyed recs (sepsOf (Tree.flat (h := h + 1) t) + R) pb t.rows :=
  ⟨hr, fun x hx => by
    rw [IsKey, hl, if_neg Bool.false_ne_true]
    exact Multiset.mem_add.mpr (Or.inl (Inner.mem_seps hk hx)), Sorted.seps hs (by simpa using hk)⟩

theorem leaf_row {c : Tree Int RID K 0} {e : RID × K} (D : ℕ) (hs : Sorted c.flat)
    (he : e ∈ rowsOf c.flat) : ∃ m, m < (Leaf.rows c).length ∧ rank e.2 (Leaf.rows c) = m + 1 ∧
      ∀ seps, c.delete D e.2 seps =
        ⟨(⟨Leaf.addr c, Leaf.next c, (Leaf.rows c).eraseIdx m⟩ : Leaf Int RID K), [], none⟩ := by
  have hsorted : (Leaf.rows c).Pairwise fun a b => a.2 < b.2 := sorted_leaf.mp hs
  rw [show rowsOf c.flat = Leaf.rows c from rowsOf_leaf _] at he
  obtain ⟨r₁, r₂, hr⟩ := List.append_of_mem he
  have hrank : rank e.2 (Leaf.rows c) = r₁.length + 1 := by
    rw [hr] at hsorted ⊢
    exact rank_row hsorted
  refine ⟨r₁.length, by rw [hr]; simp, hrank, fun seps => ?_⟩
  simp only [Tree.delete, hrank, Nat.add_sub_cancel]

theorem Deleted.leaf {c : Tree Int RID K 0} {xb : BNode} {n : ℕ} (hc : f.Ctl root sp)
    (hu : sp.Used c.addr) (h0 : c.addr ≠ 0) (hxl : xb.leaf = true) (hxn : xb.next = Leaf.next c)
    (hxr : xb.rows = names (Leaf.rows c)) (hn : n < (Leaf.rows c).length)
    (hinv : spec.Inv recs R st) :
    Deleted spec recs R c f root sp
      ⟨(⟨Leaf.addr c, Leaf.next c, (Leaf.rows c).eraseIdx n⟩ : Leaf Int RID K), [], none⟩ st
      (f.put c.addr (.bNode (xb.removeRow (n + 1)))) := by
  have hn' : n < xb.n := by rwa [← Keyed.length_of hxr]
  refine ⟨⟨_, Function.update_self .., hxl, hxn, (BNode.rows_removeRow hn').trans ?_⟩,
    hc.put hu h0, fun x _ _ hx => Function.update_of_ne ?_ _ _, FlatPool.keeps_put, ?_⟩
  · rw [hxr, names, names, List.eraseIdx_map]
  · rintro rfl
    exact hx c.addr_mem_pages
  · rw [seps_flat_leaf (t := (⟨Leaf.addr c, Leaf.next c, (Leaf.rows c).eraseIdx n⟩ : Leaf Int RID K))]
    simpa using hinv

/-- A leaf of `DEGREE` rows, less row `n`: it takes one from a sibling, or is merged with it. -/
theorem wp_shortLeaf {t : Inner Int RID K (Tree Int RID K 0)} {c : Tree Int RID K 0} {e : RID × K}
    {n : ℕ} {xb : BNode} (hD : 1 ≤ D)
    (hinv : spec.Inv recs (sepsOf (Tree.flat (h := 1) t) + R) st) (hc : f.Ctl root sp)
    (hst : Tree.Stored (h := 1) f.mem t) (ho : sp.Owns (Tree.pages (h := 1) t))
    (hocc : Tree.Occ (h := 1) D m t) (hm : 1 ≤ m) (hsort : Sorted (Tree.flat (h := 1) t))
    (hlive : ∀ x ∈ rowsOf (Tree.flat (h := 1) t), recs x.1 = some x.2)
    (hcc : t.kids[rank e.2 t.rows]? = some c) (hct : f.Held ct 0) (hpt : f.Held pt t.addr)
    (hbt : f.Held bt c.addr) (hxb : f.mem c.addr = .bNode xb) (hxl : xb.leaf = true)
    (hxn : xb.next = Leaf.next c) (hxr : xb.rows = names (Leaf.rows c)) (hxD : xb.n = D)
    (hn : n < (Leaf.rows c).length)
    (hdel : ∀ sep, c.delete D e.2 sep =
      ⟨(⟨Leaf.addr c, Leaf.next c, (Leaf.rows c).eraseIdx n⟩ : Leaf Int RID K), [], none⟩)
    (hbd : bd → f.load + 1 ≤ cachePage) :
    wp (flatSem bd) (procBody D H)
      (do
        let c ← PagePtr.bNode ⟨i, bt⟩
        let index1 ← findIndex H ⟨i, pt⟩ (c.rowPtr 0) c.leaf
        if index1 ≠ (← PagePtr.bNode ⟨i, pt⟩).n then
          treeDeleteLeafRight D H i ⟨i, ct⟩ ⟨i, pt⟩ ⟨i, bt⟩ (n + 1) index1
        else treeDeleteLeafLeft D H i ⟨i, ct⟩ ⟨i, pt⟩ ⟨i, bt⟩ (n + 1) index1)
      (fun old' st' => ∃ sep s' f', st' = Function.update s' i f' ∧
        TreeDeleted spec recs R t f root sp (Tree.delete (h := 1) D e.2 sep t) old' s' f')
      (Function.update st i f) := by
  have hk : t.kids.length = t.rows.length + 1 := hocc.2.1
  obtain ⟨pb, hpb, hpl, hpr, hpk⟩ := hst.1
  have hrows : ∀ d : Tree Int RID K 0, rowsOf d.flat = Leaf.rows d := fun d => rowsOf_leaf _
  have hclen : (Leaf.rows c).length = xb.n := Keyed.length_of hxr
  obtain ⟨c', hc'⟩ : ∃ c' : Tree Int RID K 0, c' =
      (⟨Leaf.addr c, Leaf.next c, (Leaf.rows c).eraseIdx n⟩ : Leaf Int RID K) := ⟨_, rfl⟩
  rw [← hc'] at hdel
  have hca : c'.addr = c.addr := by rw [hc']; rfl
  have hcn' : xb.next = Leaf.next c' := by rw [hc']; exact hxn
  have hcl' : c'.rows.length = xb.n - 1 := by
    rw [hc', ← hclen]
    exact List.length_eraseIdx_of_lt hn
  have hcr' : xb.rows.eraseIdx n = names (Leaf.rows c') := by
    rw [hxr, hc', names, names, List.eraseIdx_map]
  -- the key in the parent by which the leaf is found again is that of its first row
  obtain ⟨x, rest, hx⟩ : ∃ x rest, Leaf.rows c = x :: rest :=
    List.exists_cons_of_length_pos (by omega)
  have hxc : x ∈ rowsOf c.flat := by
    rw [hrows, hx]
    exact List.mem_cons_self
  have hxlive : recs x.1 = some x.2 := hlive x (by
    rw [Inner.flat_eq hk rank_le hcc]
    simp [hxc])
  have hx0 : xb.rowPtr 0 = x.1 := BNode.rowPtr_eq hxr (by rw [hx]; rfl)
  refine wp_bind (wp_bNode hbt.live hxb ?_)
  rw [hx0, hxl]
  refine wp_bind (wp_findIndex hinv hpt.live hpb (keyed_inner hk hsort hpl hpr) (x := x) hxlive
    fun s₂ hs₂ => ?_)
  rw [Inner.rank_kid hk hsort hcc (mem_rowsOf.mp hxc)]
  refine wp_bind (wp_bNode hpt.live hpb ?_)
  have hlt : ¬ D ≤ c'.rows.length := by omega
  have hpages : (([] : List Int) + c'.pages : Multiset Int) = c.pages := by
    rw [hc']
    rfl
  have hco' : c'.Occ D (D - 1) :=
    ⟨show D - 1 ≤ c'.rows.length by omega, show c'.rows.length ≤ 2 * D by omega⟩
  have hni := (List.getElem?_eq_some_iff.mp hcc).1
  have hgc : (t.graft (rank e.2 t.rows) [c'] []).kids[rank e.2 t.rows]? = some c' := by
    rw [Inner.kids_graft_one t hni, List.getElem?_set_self hni]
  have hgo : (sp.give []).Owns (Tree.pages (h := 1) (t.graft (rank e.2 t.rows) [c'] [])) :=
    (ho.perm (pages_graft (r := ⟨c', [], none⟩) hcc hpages)).give
  have hs₃ : spec.Inv recs (sepsOf (Tree.flat (h := 1) (t.graft (rank e.2 t.rows) [c'] [])) + R)
      s₂ := by
    rw [seps_graft hk hcc, seps_flat_leaf]
    rwa [seps_kid hk hcc, seps_flat_leaf] at hs₂
  refine (wp_repairLeaf (i := i) (Inner.deficient_graft hocc hm (rank_le (k := e.2)) hco' hlt) hgc
    hs₃ (hc.congr (g := f) rfl rfl fun _ _ => rfl) hct hpt (hca ▸ hbt) hgo hpb hpl
    (hpr.trans (congrArg names (Inner.rows_graft_one t _ _).symm))
    (hpk.trans (Inner.addrs_graft hcc hca).symm) (hca ▸ hxb) hxl hcn' hxD (by omega) hcr'
    (fun l d hl hd => ?_) (fun y hy => hlive y ?_) hbd).mono fun old' st' hst' => ?_
  · rw [Inner.kids_graft_one t hni, List.getElem?_set_ne hl.symm] at hd
    exact hst.2 d (List.mem_of_getElem? hd)
  · have hsub : ∀ y ∈ rowsOf c'.flat, y ∈ rowsOf c.flat := fun y hy => by
      rw [hrows, hc'] at hy
      rw [hrows]
      exact List.mem_of_mem_eraseIdx hy
    rw [Inner.flat_graft hk rank_le rfl] at hy
    rw [Inner.flat_eq hk rank_le hcc]
    simp only [List.map_cons, List.map_nil, weave, after, List.append_nil, rowsOf_append,
      List.mem_append] at hy ⊢
    exact hy.imp_left (Or.imp_right (hsub y))
  · obtain ⟨sep, s', f', rfl, hd⟩ := hst'
    refine ⟨fun _ => sep, s', f', rfl, ?_⟩
    rw [Tree.delete_succ hcc, hdel]
    exact TreeDeleted.up (r := ⟨c', [], none⟩) ho hcc hca hpages hlt (.refl _) (fun _ _ _ _ => rfl) hd

/-- **Deleting from a leaf.** -/
theorem wp_deleteLeaf {t : Inner Int RID K (Tree Int RID K 0)} {c : Tree Int RID K 0} {e : RID × K}
    (hD : 1 ≤ D) (hinv : spec.Inv recs (sepsOf (Tree.flat (h := 1) t) + R) st)
    (hc : f.Ctl root sp) (hst : Tree.Stored (h := 1) f.mem t)
    (ho : sp.Owns (Tree.pages (h := 1) t)) (hocc : Tree.Occ (h := 1) D m t) (hm : 1 ≤ m)
    (hsort : Sorted (Tree.flat (h := 1) t))
    (hlive : ∀ x ∈ rowsOf (Tree.flat (h := 1) t), recs x.1 = some x.2)
    (he : e ∈ rowsOf (Tree.flat (h := 1) t)) (hcc : t.kids[rank e.2 t.rows]? = some c)
    (hpt : f.Held pt t.addr) (hbt : f.Held bt c.addr) (hbd : bd → f.load + 1 ≤ cachePage) :
    wp (flatSem bd) (procBody D H) (treeDelete D H i ⟨i, pt⟩ ⟨i, bt⟩ e.1 old)
      (fun old' st' => ∃ sep s' f', st' = Function.update s' i f' ∧
        TreeDeleted spec recs R t f root sp (Tree.delete (h := 1) D e.2 sep t) old' s' f')
      (Function.update st i f) := by
  have hk : t.kids.length = t.rows.length + 1 := hocc.2.1
  have hcm := List.mem_of_getElem? hcc
  have hco : c.Occ D D := hocc.2.2 c hcm
  obtain ⟨xb, hxb, hxl, hxn, hxr⟩ : LeafAt f.mem c.addr (Leaf.next c) (names (Leaf.rows c)) :=
    hst.2 c hcm
  have hrows : ∀ d : Tree Int RID K 0, rowsOf d.flat = Leaf.rows d := fun d => rowsOf_leaf _
  have hclive : ∀ x ∈ rowsOf c.flat, recs x.1 = some x.2 := fun x hx => hlive x (by
    rw [Inner.flat_eq hk rank_le hcc]
    simp [hx])
  obtain ⟨hcsort, -, -⟩ := Inner.sorted_kid hk hsort hcc
  have hec := Inner.mem_kid hk hsort hcc he
  have hckey : Keyed recs (sepsOf (Tree.flat (h := 1) t) + R) xb (Leaf.rows c) :=
    ⟨hxr, fun x hx => by rw [IsKey, if_pos hxl]; exact hclive x (hrows c ▸ hx), sorted_leaf.mp hcsort⟩
  have hclen : (Leaf.rows c).length = xb.n := hckey.length
  -- the row, and the leaf without it
  obtain ⟨n, hn, hrank, hdel⟩ := leaf_row D hcsort hec
  refine wp_bind (wp_getPage hc.zero (fun h => FlatPool.fits_zero (by have := hbd h; omega)) ?_)
  refine wp_bind (wp_findIndex hinv hbt.get.live hxb hckey (x := e)
    (show IsKey recs _ true e from hclive e hec) fun s₁ hs₁ => ?_)
  rw [hrank]
  refine wp_bind (wp_bNode hbt.get.live hxb (wp_ite (fun _ => ?_) fun hne => absurd hxl hne))
  refine wp_bind (wp_bNode hbt.get.live hxb ?_)
  have hinv₁ : spec.Inv recs (sepsOf (t.pre (rank e.2 t.rows)) +
      (sepsOf (t.post (rank e.2 t.rows)) + R)) s₁ := by
    rw [seps_kid hk hcc, seps_flat_leaf] at hs₁
    simpa using hs₁
  refine wp.seq (R := fun old' st' => ∃ sep s' f', st' = Function.update s' i f' ∧
    TreeDeleted spec recs R t (f.get 0) root sp (Tree.delete (h := 1) D e.2 sep t) old' s' f')
    (wp_ite (fun hlt => ?_) fun hge => ?_) fun old' st' hst' => ?_
  · -- a leaf with a row to spare
    refine wp_bind (wp_setBNode hbt.get.live hxb (wp_pure ⟨fun _ => RID.null, s₁, _, rfl, ?_⟩))
    rw [Tree.delete_succ hcc, hdel]
    obtain ⟨hcu, hc0⟩ := ho.used c.addr (Inner.mem_pages_kid ho.nodup hcm c.addr_mem_pages).1
    have hlen : ((Leaf.rows c).eraseIdx n).length = xb.n - 1 := by
      rw [← hclen]
      exact List.length_eraseIdx_of_lt hn
    exact Deleted.up ho hk hcc hst.2 hst.1 rfl (show D ≤ ((Leaf.rows c).eraseIdx n).length by omega)
      rfl rfl (.leaf (hc.congr rfl rfl fun _ _ => rfl) hcu hc0 hxl hxn hxr hn hinv₁)
  · -- a leaf with a row too few afterwards
    have hxD : xb.n = D := by
      have : D ≤ c.rows.length := (Tree.Occ.rows hco).1
      have : c.rows.length = xb.n := hclen
      omega
    refine wp_shortLeaf hD hs₁ (hc.congr rfl rfl fun _ _ => rfl) hst ho hocc hm hsort hlive hcc
      FlatPool.held_get_self hpt.get hbt.get hxb hxl hxn hxr hxD hn hdel fun h => ?_
    have := hbd h
    rw [FlatPool.load_get_zero]
    exact this
  · obtain ⟨sep, s', f', rfl, hd⟩ := hst'
    exact wp_bind (wp_release hd.keeps.mem_pins (wp_pure ⟨sep, s', _, rfl, hd.release⟩))

section Merged

variable {e : RID × K} {seps : ℕ → RID} {s' : Flat} {b : BNode}

theorem TreeDeleted.deleted_none (hD : 1 ≤ D) (hocc : Tree.Occ (h := h + 1) D m t) (hm : 1 ≤ m)
    (hg : (Tree.delete (h := h + 1) D e.2 seps t).merged = none)
    (hd : TreeDeleted spec recs R t f root sp (Tree.delete (h := h + 1) D e.2 seps t) old s' f') :
    old.blockAddr = -1 ∧ Deleted spec recs R (h := h + 1) t f root sp
      (Tree.delete (h := h + 1) D e.2 seps t) s' f' := by
  have hnode := hd.node
  rw [hg] at hnode
  obtain ⟨h1, h2, h3⟩ := hnode
  have ha : (Tree.delete (h := h + 1) D e.2 seps t).tree.addr = t.addr :=
    Tree.delete_addr _ _ hD hocc fun _ => hm
  refine ⟨h1, ⟨?_, hd.kids⟩, hd.ctl, hd.frame, hd.keeps, h3⟩
  rwa [← ha] at h2

/-- **The separator left over**, and its place in the node. -/
theorem TreeDeleted.entry (hD : 1 ≤ D) (hocc : Tree.Occ (h := h + 1) D m t) (hm : 1 ≤ m)
    (hsort : Sorted (Tree.flat (h := h + 1) t))
    (hg : (Tree.delete (h := h + 1) D e.2 seps t).merged = some j)
    (hd : TreeDeleted spec recs R t f root sp (Tree.delete (h := h + 1) D e.2 seps t) old s' f') :
    ∃ k b, rank k t.rows = j + 1 ∧ f'.mem t.addr = .bNode b ∧ b.leaf = false ∧
      b.kids = addrs t.kids ∧
      Keyed recs ((old, k) ::ₘ (sepsOf (Tree.delete (h := h + 1) D e.2 seps t).tree.flat + R)) b
        t.rows ∧
      spec.Inv recs
        ((old, k) ::ₘ (sepsOf (Tree.delete (h := h + 1) D e.2 seps t).tree.flat + R)) s' := by
  have hnode := hd.node
  rw [hg] at hnode
  obtain ⟨k, hkj, ⟨b, hb, hbl, hbr, hbk⟩, hinv⟩ := hnode
  obtain ⟨hj, hrows, -⟩ := Tree.delete_some hD hocc hm hg
  obtain ⟨hj', he⟩ := List.getElem?_eq_some_iff.mp hkj
  have hsplit : t.rows = t.rows.take j ++ (old, k) :: t.rows.drop (j + 1) := by
    rw [← he, List.getElem_cons_drop, List.take_append_drop]
  have hsorted : t.rows.Pairwise fun a b => a.2 < b.2 := Sorted.seps hsort (by simpa using hocc.2.1)
  have hkids := (Tree.delete_occ e.2 seps hD hocc fun _ => hm).2.1
  refine ⟨k, b, ?_, hb, hbl, hbk, ⟨hbr, fun x hx => ?_, hsorted⟩, hinv⟩
  · rw [hsplit] at hsorted ⊢
    rw [rank_row (e := (old, k)) hsorted, List.length_take, min_eq_left (by omega)]
  · rw [IsKey, hbl, if_neg Bool.false_ne_true]
    have hx' : x = (old, k) ∨ x ∈ Inner.rows (Tree.delete (h := h + 1) D e.2 seps t).tree := by
      rw [hrows, List.eraseIdx_eq_take_drop_succ]
      rw [hsplit] at hx
      simp only [List.mem_append, List.mem_cons] at hx ⊢
      exact hx.elim (fun h => Or.inr (Or.inl h)) fun h => h.imp_right Or.inr
    refine Multiset.mem_cons.mpr (hx'.imp_right fun hx => ?_)
    exact Multiset.mem_add.mpr (Or.inl (Inner.mem_seps hkids hx))

/-- The separator left over is removed from the node. -/
theorem TreeDeleted.deleted_some (hD : 1 ≤ D) (ho : sp.Owns (Tree.pages (h := h + 1) t))
    (hocc : Tree.Occ (h := h + 1) D m t) (hm : 1 ≤ m) {s₂ : Flat}
    (hg : (Tree.delete (h := h + 1) D e.2 seps t).merged = some j)
    (hl : b.leaf = false) (hr : b.rows = names t.rows) (hk : b.kids = addrs t.kids)
    (hinv : spec.Inv recs (sepsOf (Tree.delete (h := h + 1) D e.2 seps t).tree.flat + R) s₂)
    (hd : TreeDeleted spec recs R t f root sp (Tree.delete (h := h + 1) D e.2 seps t) old s' f') :
    Deleted spec recs R (h := h + 1) t f root sp (Tree.delete (h := h + 1) D e.2 seps t) s₂
      (f'.put t.addr (.bNode (b.removeChild (j + 1)))) := by
  obtain ⟨hj, hrows, hkids⟩ := Tree.delete_some hD hocc hm hg
  have ha : (Tree.delete (h := h + 1) D e.2 seps t).tree.addr = t.addr :=
    Tree.delete_addr _ _ hD hocc fun _ => hm
  have hpages := Tree.delete_pages e.2 seps hD hocc fun _ => hm
  have ho' := (ho.perm (by rw [← hpages, Multiset.coe_add])).give
  obtain ⟨hu, h0⟩ := ho'.used t.addr (ha ▸ Tree.addr_mem_pages _)
  have hjn : j < b.n := by rwa [← Keyed.length_of hr]
  refine ⟨⟨?_, fun d hdm => ?_⟩, hd.ctl.put hu h0, fun x hx hx0 hxt => ?_,
    hd.keeps.trans FlatPool.keeps_put, hinv⟩
  · have hnode : ∀ y, y = t.addr → InnerAt (f'.put t.addr (.bNode (b.removeChild (j + 1)))).mem y
        (names (Inner.rows (Tree.delete (h := h + 1) D e.2 seps t).tree))
        (addrs (Inner.kids (Tree.delete (h := h + 1) D e.2 seps t).tree)) := by
      rintro y rfl
      refine ⟨_, Function.update_self .., hl, (BNode.rows_removeChild hjn).trans ?_,
        (BNode.kids_removeChild hjn).trans ?_⟩
      · rw [hr, hrows, names, names, List.eraseIdx_map]
      · rw [hk]
        exact hkids.symm
    exact hnode _ ha
  · refine (hd.kids d hdm).congr fun x hx => Function.update_of_ne ?_ _ _
    exact ha ▸ (Inner.mem_pages_kid ho'.nodup hdm hx).2
  · refine (Function.update_of_ne ?_ _ _).trans (hd.frame x hx hx0 hxt)
    rintro rfl
    exact hxt List.mem_cons_self

end Merged

/-- **After a deletion in an inner child**: it is repaired if it has a row too few. -/
theorem wp_mend {t : Inner Int RID K (Tree Int RID K (h + 1))} {c : Tree Int RID K (h + 1)}
    {r : Shrunk Int RID K (h + 1)} {n : ℕ} {b : BNode} {f₁ : FlatPool} (hD : 2 ≤ D)
    (hd : Deleted spec recs R' c f root sp r st f₁) (ho : sp.Owns (Tree.pages (h := h + 2) t))
    (hocc : Tree.Occ (h := h + 2) D m t) (hm : 1 ≤ m) (hsort : Sorted (Tree.flat (h := h + 2) t))
    (hc : t.kids[n]? = some c) (hst : Tree.Stored (h := h + 2) f.mem t)
    (ha : r.tree.addr = c.addr) (hr : (r.freed + r.tree.pages : Multiset Int) = c.pages)
    (hro : r.tree.Occ D (D - 1)) (hsub : ∀ x ∈ Inner.rows r.tree, (x, false) ∈ c.flat)
    (hR : R' = sepsOf (t.pre n) + (sepsOf (t.post n) + R)) (hb : f₁.mem c.addr = .bNode b)
    (hct : f₁.Held ct 0) (hpt : f₁.Held pt t.addr) (hbt : f₁.Held bt c.addr)
    (hbd : bd → f₁.load + 1 ≤ cachePage) :
    wp (flatSem bd) (procBody D H)
      (if b.n ≥ D then return RID.null
        else do
          let c ← PagePtr.bNode ⟨i, bt⟩
          let index1 ← findIndex H ⟨i, pt⟩ (c.rowPtr 0) c.leaf
          if index1 ≠ (← PagePtr.bNode ⟨i, pt⟩).n then
            treeDeleteInnerRight D H i ⟨i, ct⟩ ⟨i, pt⟩ ⟨i, bt⟩ index1
          else treeDeleteInnerLeft D H i ⟨i, ct⟩ ⟨i, pt⟩ ⟨i, bt⟩ index1)
      (fun old st' => ∃ sep s' f', st' = Function.update s' i f' ∧
        TreeDeleted spec recs R t f root sp (t.shrink D sep n r) old s' f')
      (Function.update st i f₁) := by
  have hk : t.kids.length = t.rows.length + 1 := hocc.2.1
  have hn : n < t.kids.length := (List.getElem?_eq_some_iff.mp hc).1
  have hcm := List.mem_of_getElem? hc
  obtain ⟨b', hb', hbl, hbr, hbk⟩ := hd.stored.rootAt
  change f₁.mem r.tree.addr = .bNode b' at hb'
  rw [ha, hb] at hb'
  obtain rfl : b = b' := Page.bNode.inj hb'
  have hlen : r.tree.rows.length = b.n := Keyed.length_of hbr
  refine wp_ite (fun hle => ?_) fun hlt => ?_
  · exact wp_pure ⟨RID.null, st, f₁, rfl, hd.up ho hk hc hst.2 hst.1 ha (by omega) rfl hR⟩
  · have hlt' : ¬ D ≤ r.tree.rows.length := by omega
    obtain ⟨x, rest, hx⟩ : ∃ x rest, Inner.rows r.tree = x :: rest := by
      refine List.exists_cons_of_length_pos ?_
      have : D - 1 ≤ (Inner.rows r.tree).length := hro.1.1
      omega
    have hx0 : b.rowPtr 0 = x.1 := BNode.rowPtr_eq hbr (by rw [hx]; rfl)
    obtain ⟨pb, hpb, hpl, hpr, hpk⟩ := hst.1
    obtain ⟨htu, ht0⟩ := ho.used t.addr List.mem_cons_self
    have hpb₁ : f₁.mem t.addr = .bNode pb := (hd.frame t.addr htu ht0 fun hm =>
      (Inner.mem_pages_kid ho.nodup hcm hm).2 rfl).trans hpb
    have hinv : spec.Inv recs
        (sepsOf (Tree.flat (h := h + 2) (t.graft n [r.tree] [])) + R) st := by
      rw [seps_graft hk hc, ← hR]
      exact hd.inv
    have hrg : (t.graft n [r.tree] []).rows = t.rows := Inner.rows_graft_one t n r.tree
    have hkg : (t.graft n [r.tree] []).kids.length = (t.graft n [r.tree] []).rows.length + 1 := by
      rw [hrg, Inner.kids_graft_one t hn, List.length_set]
      exact hk
    have hpkey : Keyed recs (sepsOf (Tree.flat (h := h + 2) (t.graft n [r.tree] [])) + R) pb
        t.rows := ⟨hpr, fun y hy => by
      rw [IsKey, hpl, if_neg Bool.false_ne_true]
      exact Multiset.mem_add.mpr (Or.inl (Inner.mem_seps hkg (hrg ▸ hy))),
      Sorted.seps hsort (by simpa using hk)⟩
    have hxkey : IsKey recs (sepsOf (Tree.flat (h := h + 2) (t.graft n [r.tree] [])) + R) b.leaf x := by
      rw [IsKey, hbl, if_neg Bool.false_ne_true, seps_graft hk hc]
      refine Multiset.mem_add.mpr (Or.inl (Inner.mem_seps hro.2.1 ?_))
      rw [hx]
      exact List.mem_cons_self
    refine wp_bind (wp_bNode hbt.live hb ?_)
    rw [hx0]
    refine wp_bind (wp_findIndex hinv hpt.live hpb₁ hpkey hxkey fun s₂ hs₂ => ?_)
    have hrank : rank x.2 t.rows = n :=
      Inner.rank_kid (x := (x, false)) hk hsort hc (hsub x (by rw [hx]; exact List.mem_cons_self))
    rw [hrank]
    refine wp_bind (wp_bNode hpt.live hpb₁ ?_)
    have hgc : (t.graft n [r.tree] []).kids[n]? = some r.tree := by
      rw [Inner.kids_graft_one t hn, List.getElem?_set_self hn]
    have hgo : (sp.give r.freed).Owns (Tree.pages (h := h + 2) (t.graft n [r.tree] [])) :=
      (ho.perm (pages_graft hc hr)).give
    refine (wp_repairInner (i := i) (Inner.deficient_graft hocc hm (by omega) hro hlt') hgc hs₂
      hd.ctl hct hpt (ha ▸ hbt) hgo hpb₁ hpl (hpr.trans (congrArg names hrg.symm))
      (hpk.trans (Inner.addrs_graft hc ha).symm)
      (stored_graft ho hc hst.2 hd.stored hd.frame) hbd).mono fun old' st' hst' => ?_
    obtain ⟨sep, s', f', rfl, hg⟩ := hst'
    exact ⟨sep, s', f', rfl, hg.up ho hc ha hr hlt' hd.keeps hd.frame⟩

/-- `tree_delete` at an inner node, once two children of its child have been merged. -/
theorem wp_deleteMerged {t : Inner Int RID K (Tree Int RID K (h + 1))} {c : Tree Int RID K (h + 1)}
    {e : RID × K} {sep : ℕ → RID} {f₃ : FlatPool} (hD : 2 ≤ D)
    (hst : Tree.Stored (h := h + 2) f.mem t) (ho : sp.Owns (Tree.pages (h := h + 2) t))
    (hocc : Tree.Occ (h := h + 2) D m t) (hm : 1 ≤ m) (hsort : Sorted (Tree.flat (h := h + 2) t))
    (hcc : t.kids[rank e.2 t.rows]? = some c)
    (hd : TreeDeleted spec recs (sepsOf (t.pre (rank e.2 t.rows)) +
      (sepsOf (t.post (rank e.2 t.rows)) + R)) c (f.get 0) root sp (c.delete D e.2 sep) old st f₃)
    (hmg : (c.delete D e.2 sep).merged = some j) (hpt : f.Held pt t.addr) (hbt : f.Held bt c.addr)
    (hbd : bd → f.load + 1 ≤ cachePage) :
    wp (flatSem bd) (procBody D H)
      (do
        let index1 ← findIndex H ⟨i, bt⟩ old false
        H.deleteHandler old
        PagePtr.setBNode ⟨i, bt⟩ (·.removeChild index1)
        let old ← (if (← PagePtr.bNode ⟨i, bt⟩).n ≥ D then return RID.null
          else do
            let c ← PagePtr.bNode ⟨i, bt⟩
            let index1 ← findIndex H ⟨i, pt⟩ (c.rowPtr 0) c.leaf
            if index1 ≠ (← PagePtr.bNode ⟨i, pt⟩).n then
              treeDeleteInnerRight D H i ⟨i, f.next⟩ ⟨i, pt⟩ ⟨i, bt⟩ index1
            else treeDeleteInnerLeft D H i ⟨i, f.next⟩ ⟨i, pt⟩ ⟨i, bt⟩ index1)
        release i 0
        return old)
      (fun old' st' => ∃ sep s' f', st' = Function.update s' i f' ∧
        TreeDeleted spec recs R t f root sp (Tree.delete (h := h + 2) D e.2 sep t) old' s' f')
      (Function.update st i f₃) := by
  have hD1 : 1 ≤ D := by omega
  have hk : t.kids.length = t.rows.length + 1 := hocc.2.1
  have hcm := List.mem_of_getElem? hcc
  have hco : c.Occ D D := hocc.2.2 c hcm
  have hcown : sp.Owns c.pages := ho.sublist (Inner.pages_kid_sublist hcm)
  obtain ⟨hcsort, -, -⟩ := Inner.sorted_kid hk hsort hcc
  obtain ⟨k, b, hrank, hb, hbl, hbk, hkey, hinv⟩ := hd.entry hD1 hco hD1 hcsort hmg
  obtain ⟨-, hrows, -⟩ := Tree.delete_some hD1 hco hD1 hmg
  have hbt₃ := hd.keeps.held _ _ (hbt.get (a := 0))
  have hct₃ := hd.keeps.held _ _ (FlatPool.held_get_self (f := f) (a := 0))
  have hpt₃ := hd.keeps.held _ _ (hpt.get (a := 0))
  refine wp_bind (wp_findIndex hinv hbt₃.live hb hkey (x := (old, k))
    (Multiset.mem_cons_self _ _) fun s₃ hs₃ => ?_)
  rw [hrank]
  refine wp_bind (spec.wp_deleteHandler (x := (old, k)) hs₃ fun s₄ hs₄ => ?_)
  refine wp_bind (wp_setBNode hbt₃.live hb ?_)
  have hdel := hd.deleted_some hD1 hcown hco hD1 hmg hbl hkey.eq hbk hs₄
  refine wp_bind (wp_bNode hbt₃.put.live (Function.update_self ..) ?_)
  refine wp.seq (wp_mend hD hdel ho hocc hm hsort hcc hst
    (Tree.delete_addr _ _ hD1 hco fun _ => hD1) (Tree.delete_pages e.2 sep hD1 hco fun _ => hD1)
    (Tree.delete_occ e.2 sep hD1 hco fun _ => hD1) (fun x hx => ?_) rfl
    (Function.update_self ..) hct₃.put hpt₃.put hbt₃.put fun h => ?_) fun old' st' hst' => ?_
  · rw [hrows] at hx
    exact mem_sepsOf.mp (Inner.mem_seps hco.2.1 (List.mem_of_mem_eraseIdx hx))
  · have := hbd h
    have hl : (f₃.put c.addr (.bNode (b.removeChild (j + 1)))).load = f.load :=
      hdel.keeps.load.trans FlatPool.load_get_zero
    omega
  · obtain ⟨sep', s₅, f₅, rfl, hdel'⟩ := hst'
    refine wp_bind (wp_release hdel'.keeps.mem_pins (wp_pure
      ⟨Function.update sep (h + 1) sep', s₅, _, rfl, ?_⟩))
    rw [Tree.delete_succ hcc, Function.update_self, Tree.delete_congr fun l hl =>
      Function.update_of_ne (Nat.ne_of_lt hl) _ _]
    exact hdel'.release

/-- **`tree_delete`** deletes the row as `Tree.delete` does, up to the separator left over. -/
theorem wp_treeDelete {c : Tree Int RID K h} {e : RID × K} (hD : 2 ≤ D)
    (hinv : spec.Inv recs (sepsOf (Tree.flat (h := h + 1) t) + R) st) (hc : f.Ctl root sp)
    (hst : Tree.Stored (h := h + 1) f.mem t) (ho : sp.Owns (Tree.pages (h := h + 1) t))
    (hocc : Tree.Occ (h := h + 1) D m t) (hm : 1 ≤ m) (hsort : Sorted (Tree.flat (h := h + 1) t))
    (hlive : ∀ x ∈ rowsOf (Tree.flat (h := h + 1) t), recs x.1 = some x.2)
    (he : e ∈ rowsOf (Tree.flat (h := h + 1) t)) (hcc : t.kids[rank e.2 t.rows]? = some c)
    (hpt : f.Held pt t.addr) (hbt : f.Held bt c.addr) (hbd : bd → f.load + h + 1 ≤ cachePage) :
    wp (flatSem bd) (procBody D H) (treeDelete D H i ⟨i, pt⟩ ⟨i, bt⟩ e.1 old)
      (fun old' st' => ∃ sep s' f', st' = Function.update s' i f' ∧
        TreeDeleted spec recs R t f root sp (Tree.delete (h := h + 1) D e.2 sep t) old' s' f')
      (Function.update st i f) := by
  have hD1 : 1 ≤ D := by omega
  induction h generalizing st f sp pt bt m R old with
  | zero => exact wp_deleteLeaf hD1 hinv hc hst ho hocc hm hsort hlive he hcc hpt hbt hbd
  | succ h ih =>
    have hk : t.kids.length = t.rows.length + 1 := hocc.2.1
    have hcm := List.mem_of_getElem? hcc
    have hco : c.Occ D D := hocc.2.2 c hcm
    have hcst := hst.2 c hcm
    have hcown : sp.Owns c.pages := ho.sublist (Inner.pages_kid_sublist hcm)
    obtain ⟨hcsort, -, -⟩ := Inner.sorted_kid hk hsort hcc
    have hclive : ∀ x ∈ rowsOf c.flat, recs x.1 = some x.2 := fun x hx => hlive x (by
      rw [Inner.flat_eq hk rank_le hcc]
      simp [hx])
    have hec := Inner.mem_kid hk hsort hcc he
    obtain ⟨xb, hxb, hxl, hxr, hxk⟩ := hcst.rootAt
    rw [seps_kid hk hcc] at hinv
    obtain ⟨g, hg⟩ := Inner.exists_kid hco.2.1 (rank_le (k := e.2))
    have hgm := List.mem_of_getElem? hg
    obtain ⟨hgu, -⟩ := hcown.used g.addr
      (Inner.mem_pages_kid hcown.nodup hgm g.addr_mem_pages).1
    have hchild : xb.child (rank e.2 (Inner.rows c)) = g.addr := BNode.child_eq hxk (by
      rw [List.getElem?_map, hg]
      rfl)
    refine wp_bind (wp_getPage hc.zero (fun h => FlatPool.fits_zero (by have := hbd h; omega)) ?_)
    refine wp_bind (wp_findIndex hinv hbt.get.live hxb (keyed_inner hco.2.1 hcsort hxl hxr) (x := e)
      (show IsKey recs _ true e from hclive e hec) fun s₁ hs₁ => ?_)
    refine wp_bind (wp_bNode hbt.get.live hxb (wp_ite (fun hl => ?_) fun _ => ?_))
    · rw [hxl] at hl
      cases hl
    refine wp_bind (wp_bNode hbt.get.live hxb ?_)
    rw [hchild]
    refine wp_bind (wp_getPage (hc.used hgu) (fun h => FlatPool.fits_of_load (by
      have := hbd h
      rw [FlatPool.load_get_zero]
      omega)) ?_)
    refine wp.seq (wp_proc (ih hs₁ (hc.congr rfl rfl fun _ _ => rfl)
      hcst hcown hco hD1 hcsort hclive hec hg hbt.get.get FlatPool.held_get_self fun h => ?_))
      fun old' st' hst' => ?_
    · have := hbd h
      have := FlatPool.load_get_le (f := f.get 0) (a := g.addr)
      rw [FlatPool.load_get_zero] at this
      omega
    obtain ⟨sep, s₂, f₂, rfl, hd⟩ := hst'
    have hca : (c.delete D e.2 sep).tree.addr = c.addr := Tree.delete_addr _ _ hD1 hco fun _ => hD1
    have hgk : (addrs (Inner.kids c))[rank e.2 (Inner.rows c)]? = some g.addr := by
      rw [List.getElem?_map, hg]
      rfl
    have hbt₂ := hd.keeps.held _ _ (hbt.get (a := 0)).get
    rcases hmg : (c.delete D e.2 sep).merged with _ | j
    · -- nothing was merged below
      obtain ⟨hold, hdel⟩ := hd.deleted_none hD1 hco hD1 hmg
      obtain ⟨hlen, haddrs⟩ := Tree.delete_none hD1 hco hD1 hmg
      obtain ⟨b, hb, -, -, hbk⟩ := hdel.stored.rootAt
      change f₂.mem (c.delete D e.2 sep).tree.addr = .bNode b at hb
      rw [hca] at hb
      refine wp_bind (wp_bNode hbt₂.live hb ?_)
      rw [BNode.child_eq (hbk.trans haddrs) hgk]
      refine wp_bind (wp_release hd.keeps.mem_pins ?_)
      refine wp_ite (fun _ => ?_) fun hne => absurd hold hne
      have hrel := hdel.release
      refine wp_bind (wp_release hrel.keeps.mem_pins (wp_pure ⟨sep, s₂, _, rfl, ?_⟩))
      rw [Tree.delete_succ hcc]
      refine hrel.release.up ho hk hcc hst.2 hst.1 hca ?_ hold rfl
      rw [hlen]
      exact (Tree.Occ.rows hco).1
    · -- two children of the child were merged
      obtain ⟨k, b, -, hb, -, hbk, -, hinv₂⟩ := hd.entry hD1 hco hD1 hcsort hmg
      refine wp_bind (wp_bNode hbt₂.live hb ?_)
      rw [BNode.child_eq hbk hgk]
      refine wp_bind (wp_release hd.keeps.mem_pins ?_)
      refine wp_ite (fun h0 => absurd h0 (spec.ne_null hinv₂ (Multiset.mem_cons_self _ _))) fun _ =>
        wp_deleteMerged hD hst ho hocc hm hsort hcc hd.release hmg hpt hbt fun h => ?_
      have := hbd h
      omega

end MyJQL
