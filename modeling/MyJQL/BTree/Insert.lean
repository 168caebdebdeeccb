import MyJQL.BTree.Rep

/-!
# Insertion into an index

* `SplitOff f f' root sp a`: page `a` was split, with the next page of the space `sp`;
* `wp_leafSplit`, `wp_innerSplit`: the splits of `tree_insert`, on a fresh or a recycled page;
* **`wp_treeInsert`**: `tree_insert` is `Tree.insert`, by induction on the height;
* **`wp_bTreeInsert`**: and `b_tree_insert`, with a new root.
-/

set_option linter.unusedSimpArgs false

namespace MyJQL

variable {bd : Bool} {D : ℕ} {H : Handlers} {i : PoolId} {K : Type} [LinearOrder K] {h : ℕ}
  {spec : InsertSpec D H i K} {recs : Records K} {S : Multiset (RID × K)} {s : Flat} {f : FlatPool}
  {root a : Int} {sp : Space} {ct bt index : ℕ} {b : BNode}

/-! ## Splits -/

/-- Page `a` was split. -/
structure SplitOff (f f' : FlatPool) (root root' : Int) (sp : Space) (a : Int) : Prop where
  ctl : f'.Ctl root' sp.take
  keeps : f.Keeps f'
  frame : ∀ c, sp.Used c → c ≠ 0 → c ≠ a → f'.mem c = f.mem c

theorem SplitOff.fresh {f' : FlatPool} {root' : Int} (hc : f.Ctl root sp) (hfree : sp.free = [])
    (hk : f.Keeps f') (hl : f'.length = f.length + pageSize)
    (h0 : f'.mem 0 = .bCtrl ⟨root', -1⟩)
    (hm : ∀ c, c ≠ 0 → c ≠ a → c ≠ f.length → f'.mem c = f.mem c) :
    SplitOff f f' root root' sp a := by
  have htake : sp.take = ⟨[], sp.len + pageSize⟩ := by simp [Space.take, hfree]
  refine ⟨hc.take ?_ ?_ fun c hcm => ?_, hk, fun c hcu hc0 hca => hm c hc0 hca ?_⟩
  · rw [htake, hl, hc.length]
  · rw [htake]
    exact h0
  · rw [htake] at hcm
    exact absurd hcm List.not_mem_nil
  · rw [hc.length]
    exact hcu.1.2.1.ne

theorem SplitOff.recycled {f' f'' : FlatPool} {x root' : Int} {l : List Int}
    (hc : f.Ctl root sp) (hfree : sp.free = x :: l) (hk : (f.get x).Keeps f')
    (hl : f'.length = f.length) (h0 : f'.mem 0 = .bCtrl ⟨root', l.headD (-1)⟩)
    (hm : ∀ c, c ≠ 0 → c ≠ a → c ≠ x → f'.mem c = f.mem c) (ha : sp.Used a)
    (he : f'' = f'.release x) : SplitOff f f'' root root' sp a := by
  subst he
  have htake : sp.take = ⟨l, sp.len⟩ := by simp [Space.take, hfree]
  have hnd := hc.wf.nodup
  rw [hfree, List.nodup_cons] at hnd
  refine ⟨hc.take ?_ ?_ fun c hcm => ?_, hk.bracket, fun c hcu hc0 hca => ?_⟩
  · rw [htake]
    exact hl.trans hc.length
  · rw [htake]
    exact h0
  · rw [htake] at hcm
    have hcf : c ∈ sp.free := by rw [hfree]; exact List.mem_cons_of_mem _ hcm
    refine hm c (hc.wf.valid c hcf).2 ?_ ?_
    · rintro rfl
      exact ha.2 hcf
    · rintro rfl
      exact hnd.1 hcm
  · refine hm c hc0 hca ?_
    rintro rfl
    exact hcu.2 (by rw [hfree]; exact List.mem_cons_self)

/-- The two halves of a leaf with the rows `l`. -/
structure LeafHalves (D : ℕ) (l : List (RID × K)) (y : RID × K) (b : BNode) (q : BNode × BNode) :
    Prop where
  right : q.1.rows = names (l.drop D)
  left : q.2.rows = names (l.take D)
  leaf : q.1.leaf = true ∧ q.2.leaf = true
  next : q.2.next = b.next
  first : q.1.rowPtr 0 = y.1

omit [LinearOrder K] in
theorem leafHalves {rows : List (RID × K)} {e y : RID × K} (hleaf : b.leaf = true)
    (hrows : b.rows = names rows) (hn : b.n = 2 * D) (hi : index ≤ b.n)
    (hy : (rows.take index ++ e :: rows.drop index)[D]? = some y) (node : BNode) :
    LeafHalves D (rows.take index ++ e :: rows.drop index) y b (b.leafSplit D index e.1 node) := by
  have hwith : b.withRow index e.1 = names (rows.take index ++ e :: rows.drop index) := by
    simp [BNode.withRow, hrows, names]
  obtain ⟨hr1, hr2⟩ := BNode.rows_leafSplit e.1 node hn hi
  obtain ⟨hl1, hl2, hl3⟩ := BNode.leafSplit_fields D index e.1 b node
  rw [hwith] at hr1 hr2
  refine ⟨by rw [hr2, names, names, List.map_drop], by rw [hr1, names, names, List.map_take],
    ⟨hl1, hl2.trans hleaf⟩, hl3, BNode.rowPtr_eq hr2 ?_⟩
  rw [List.getElem?_drop, List.getElem?_map, Nat.add_zero, hy]
  rfl

/-- **The leaf split.** -/
theorem wp_leafSplit {rows : List (RID × K)} {e y : RID × K} (hinv : spec.Inv recs S s)
    (hc : f.Ctl root sp) (hct : f.Held ct 0) (hbt : f.Held bt a) (ha : sp.Used a) (ha0 : a ≠ 0)
    (hb : f.mem a = .bNode b) (hleaf : b.leaf = true) (hrows : b.rows = names rows)
    (hn : b.n = 2 * D) (hi : index ≤ b.n) (hbd : bd → f.load + 1 ≤ cachePage)
    (hy : (rows.take index ++ e :: rows.drop index)[D]? = some y) (hrec : recs y.1 = some y.2) :
    wp (flatSem bd) (procBody D H) (treeInsertLeafSplit D H i ⟨i, ct⟩ ⟨i, bt⟩ index e.1)
      (fun entry st => ∃ s' f' sep, st = Function.update s' i f' ∧ entry = ⟨sp.first, sep⟩ ∧
        spec.Inv recs ((sep, y.2) ::ₘ S) s' ∧ SplitOff f f' root root sp a ∧
        LeafAt f'.mem a sp.first (names ((rows.take index ++ e :: rows.drop index).take D)) ∧
        LeafAt f'.mem sp.first b.next (names ((rows.take index ++ e :: rows.drop index).drop D)))
      (Function.update s i f) := by
  refine wp_bind (wp_bCtrl hct.live hc.ctrl ?_)
  refine wp_ite (fun hfree => ?_) fun hfree => ?_
  · -- a fresh page
    have hnil := hc.free_eq_nil.mp hfree
    have hfirst : sp.first = f.length := by simp [Space.first, hnil, hc.length]
    have hal : a ≠ f.length := by rw [hc.length]; exact ha.1.2.1.ne
    have h0l : (0 : Int) ≠ f.length := by rw [hc.length]; exact hc.wf.len.1.ne
    refine wp_bind (wp_bNode hbt.live hb ?_)
    have hq := leafHalves hleaf hrows hn hi hy (Page.toBNode .empty)
    generalize b.leafSplit D index e.1 (Page.toBNode .empty) = q at hq ⊢
    obtain ⟨node, b'⟩ := q
    refine wp_bind (wp_fileLength (wp_bind (wp_store hbt.live ?_)))
    simp only
    rw [hq.first]
    refine wp_bind (spec.wp_insertHandler hinv hrec fun sep s' hs' => ?_)
    refine wp_bind (wp_fileLength (wp_bind (wp_writePageTo
      (hc.mayGrow hnil (Function.update_of_ne ha0.symm _ _)) (wp_pure ?_))))
    refine ⟨s', _, sep, rfl, by rw [hfirst], hs', .fresh hc hnil
      (FlatPool.keeps_put.trans FlatPool.keeps_append) rfl ?_ (fun c h0 h1 h2 => ?_), ?_, ?_⟩
    · simpa [h0l, ha0.symm, hnil] using hc.ctrl
    · simp [h1, h2]
    · exact ⟨{ b' with next := f.length }, by simp [hal], hq.leaf.2, hfirst.symm, hq.left⟩
    · exact ⟨{ node with next := b'.next }, by rw [hfirst]; simp, hq.leaf.1, hq.next, hq.right⟩
  · -- the first free page
    obtain ⟨x, l, hf⟩ := List.exists_cons_of_ne_nil fun e => hfree (hc.free_eq_nil.mpr e)
    have hxf : x ∈ sp.free := by rw [hf]; exact List.mem_cons_self
    obtain ⟨hxv, hx0⟩ := hc.wf.valid x hxf
    have hxa : x ≠ a := fun e => ha.2 (e ▸ hxf)
    have hfirst : sp.first = x := by rw [Space.first, hf]; rfl
    have hctrl := hc.ctrl
    have hch := hc.chain
    rw [hf] at hctrl hch
    obtain ⟨⟨n₀, hn₀, hnext⟩, -⟩ := hch
    refine wp_bind (wp_bCtrl hct.live hctrl (wp_bind (wp_getPage (hc.valid hxv)
      (fun h => FlatPool.fits_of_load (hbd h)) ?_)))
    refine wp_bind (wp_bCtrl hct.get.live hctrl ?_)
    refine wp_bind (wp_bNode FlatPool.held_get_self.live hn₀ ?_)
    refine wp_bind (wp_setBCtrl hct.get.live hctrl ?_)
    have hbm : (((f.get x).put 0 (.bCtrl ⟨root, n₀.next⟩)).mem a) = .bNode b := by
      simp [ha0, hb]
    have hnm : (((f.get x).put 0 (.bCtrl ⟨root, n₀.next⟩)).mem x) = .bNode n₀ := by
      simp [hx0, hn₀]
    refine wp_bind (wp_bNode hbt.get.put.live hbm ?_)
    refine wp_bind (wp_bNode FlatPool.held_get_self.put.live hnm ?_)
    have hq := leafHalves hleaf hrows hn hi hy n₀
    generalize b.leafSplit D index e.1 n₀ = q at hq ⊢
    obtain ⟨node, b'⟩ := q
    refine wp_bind (wp_store FlatPool.held_get_self.put.live ?_)
    refine wp_bind (wp_store hbt.get.put.put.live ?_)
    refine wp_bind (wp_bNode FlatPool.held_get_self.put.put.put.live
      (x := { node with next := b'.next }) (by simp [hxa]) ?_)
    simp only
    rw [hq.first]
    refine wp_bind (spec.wp_insertHandler hinv hrec fun sep s' hs' => ?_)
    refine wp_bind (wp_release (by simp) (wp_pure ?_))
    refine ⟨s', _, sep, rfl, by rw [hfirst]; rfl, hs',
      .recycled hc hf (FlatPool.keeps_put.trans (FlatPool.keeps_put.trans FlatPool.keeps_put)) rfl
        ?_ (fun c h0 h1 h2 => ?_) ha rfl, ?_, ?_⟩
    · simp [ha0.symm, hx0.symm, hnext]
    · simp [h0, h1, h2]
    · exact ⟨{ b' with next := x }, by simp, hq.leaf.2, hfirst.symm, hq.left⟩
    · exact ⟨{ node with next := b'.next }, by simp [hfirst, hxa], hq.leaf.1, hq.next, hq.right⟩

/-- The two halves of an inner node with the separators `l` and the children `ks`. -/
structure InnerHalves (D : ℕ) (l : List (RID × K)) (ks : List Int) (y : RID × K) (node : BNode)
    (q : BNode × BNode × RID) : Prop where
  right : q.1.rows = names (l.drop (D + 1)) ∧ q.1.kids = ks.drop (D + 1)
  left : q.2.1.rows = names (l.take D) ∧ q.2.1.kids = ks.take (D + 1)
  leaf : q.1.leaf = false ∧ q.2.1.leaf = false
  next : q.1.next = node.next
  up : q.2.2 = y.1

omit [LinearOrder K] in
theorem innerHalves {rows : List (RID × K)} {e y : RID × K} {x : Int} {ks : List Int}
    (hleaf : b.leaf = false) (hrows : b.rows = names rows) (hkids : b.kids = ks) (hn : b.n = 2 * D)
    (hi : index ≤ b.n) (hy : (rows.take index ++ e :: rows.drop index)[D]? = some y)
    (node : BNode) : InnerHalves D (rows.take index ++ e :: rows.drop index)
      (ks.take (index + 1) ++ x :: ks.drop (index + 1)) y node
      (b.innerSplit D index ⟨x, e.1⟩ node) := by
  have hwith : b.withRow index e.1 = names (rows.take index ++ e :: rows.drop index) := by
    simp [BNode.withRow, hrows, names]
  have hwith' : b.withKid index x = ks.take (index + 1) ++ x :: ks.drop (index + 1) := by
    rw [BNode.withKid, hkids]
  obtain ⟨hr1, hr2, hr3⟩ := BNode.rows_innerSplit ⟨x, e.1⟩ node hn hi
  obtain ⟨hk1, hk2⟩ := BNode.kids_innerSplit ⟨x, e.1⟩ node hn hi
  obtain ⟨hl1, hl2, hl3⟩ := BNode.innerSplit_fields D index ⟨x, e.1⟩ b node
  simp only [hwith, hwith'] at hr1 hr2 hr3 hk1 hk2
  refine ⟨⟨?_, hk2⟩, ⟨?_, hk1⟩, ⟨hl1, hl2.trans hleaf⟩, hl3, ?_⟩
  · rw [hr3, names, names, List.map_drop]
  · rw [hr1, names, names, List.map_take]
  · rw [names, List.getElem?_map, hy] at hr2
    exact (Option.some.inj hr2).symm

omit [LinearOrder K] in
/-- **The inner split.** -/
theorem wp_innerSplit {rows : List (RID × K)} {e y : RID × K} {x : Int} {ks : List Int}
    (hc : f.Ctl root sp) (hct : f.Held ct 0) (hbt : f.Held bt a) (ha : sp.Used a) (ha0 : a ≠ 0)
    (hb : f.mem a = .bNode b) (hleaf : b.leaf = false) (hrows : b.rows = names rows)
    (hkids : b.kids = ks) (hn : b.n = 2 * D) (hi : index ≤ b.n)
    (hbd : bd → f.load + 1 ≤ cachePage)
    (hy : (rows.take index ++ e :: rows.drop index)[D]? = some y) :
    wp (flatSem bd) (procBody D H) (treeInsertInnerSplit D i ⟨i, ct⟩ ⟨i, bt⟩ index ⟨x, e.1⟩)
      (fun entry st => ∃ f', st = Function.update s i f' ∧ entry = ⟨sp.first, y.1⟩ ∧
        SplitOff f f' root root sp a ∧
        InnerAt f'.mem a (names ((rows.take index ++ e :: rows.drop index).take D))
          ((ks.take (index + 1) ++ x :: ks.drop (index + 1)).take (D + 1)) ∧
        InnerAt f'.mem sp.first (names ((rows.take index ++ e :: rows.drop index).drop (D + 1)))
          ((ks.take (index + 1) ++ x :: ks.drop (index + 1)).drop (D + 1)))
      (Function.update s i f) := by
  refine wp_bind (wp_bCtrl hct.live hc.ctrl ?_)
  refine wp_ite (fun hfree => ?_) fun hfree => ?_
  · -- a fresh page
    have hnil := hc.free_eq_nil.mp hfree
    have hfirst : sp.first = f.length := by simp [Space.first, hnil, hc.length]
    have hal : a ≠ f.length := by rw [hc.length]; exact ha.1.2.1.ne
    have h0l : (0 : Int) ≠ f.length := by rw [hc.length]; exact hc.wf.len.1.ne
    refine wp_bind (wp_bNode hbt.live hb ?_)
    have hq := innerHalves (x := x) hleaf hrows hkids hn hi hy { Page.toBNode .empty with next := -1 }
    generalize b.innerSplit D index ⟨x, e.1⟩ { Page.toBNode .empty with next := -1 } = q at hq ⊢
    obtain ⟨node, b', up⟩ := q
    refine wp_bind (wp_store hbt.live (wp_bind (wp_fileLength (wp_bind (wp_fileLength
      (wp_bind (wp_writePageTo (hc.mayGrow hnil (Function.update_of_ne ha0.symm _ _))
        (wp_pure ?_))))))))
    refine ⟨_, rfl, by rw [hfirst, ← hq.up]; rfl, .fresh hc hnil
      (FlatPool.keeps_put.trans FlatPool.keeps_append) rfl ?_ (fun c h0 h1 h2 => ?_), ?_, ?_⟩
    · simpa [h0l, ha0.symm, hnil] using hc.ctrl
    · simp [h1, h2]
    · exact ⟨b', by simp [hal], hq.leaf.2, hq.left⟩
    · exact ⟨node, by rw [hfirst]; simp, hq.leaf.1, hq.right⟩
  · -- the first free page
    obtain ⟨z, l, hf⟩ := List.exists_cons_of_ne_nil fun e => hfree (hc.free_eq_nil.mpr e)
    have hzf : z ∈ sp.free := by rw [hf]; exact List.mem_cons_self
    obtain ⟨hzv, hz0⟩ := hc.wf.valid z hzf
    have hza : z ≠ a := fun e => ha.2 (e ▸ hzf)
    have hfirst : sp.first = z := by rw [Space.first, hf]; rfl
    have hctrl := hc.ctrl
    have hch := hc.chain
    rw [hf] at hctrl hch
    obtain ⟨⟨n₀, hn₀, hnext⟩, -⟩ := hch
    refine wp_bind (wp_bCtrl hct.live hctrl (wp_bind (wp_getPage (hc.valid hzv)
      (fun h => FlatPool.fits_of_load (hbd h)) ?_)))
    refine wp_bind (wp_bNode hbt.get.live hb ?_)
    refine wp_bind (wp_bNode FlatPool.held_get_self.live hn₀ ?_)
    have hq := innerHalves (x := x) hleaf hrows hkids hn hi hy n₀
    generalize b.innerSplit D index ⟨x, e.1⟩ n₀ = q at hq ⊢
    obtain ⟨node, b', up⟩ := q
    refine wp_bind (wp_store FlatPool.held_get_self.live (wp_bind (wp_store hbt.get.put.live ?_)))
    refine wp_bind (wp_bCtrl hct.get.put.put.live
      (x := ⟨root, z⟩) (by simp [hz0.symm, ha0.symm, hctrl]) ?_)
    refine wp_bind (wp_bNode FlatPool.held_get_self.put.put.live (x := node) (by simp [hza]) ?_)
    refine wp_bind (wp_setBCtrl hct.get.put.put.live
      (x := ⟨root, z⟩) (by simp [hz0.symm, ha0.symm, hctrl]) ?_)
    refine wp_bind (wp_setBNode FlatPool.held_get_self.put.put.put.live (x := node)
      (by simp [hza, hz0]) ?_)
    refine wp_bind (wp_release (by simp) (wp_pure ?_))
    refine ⟨_, rfl, by rw [hfirst, ← hq.up], .recycled hc hf (FlatPool.keeps_put.trans
      (FlatPool.keeps_put.trans (FlatPool.keeps_put.trans FlatPool.keeps_put))) rfl
        ?_ (fun c h0 h1 h2 => ?_) ha rfl, ?_, ?_⟩
    · simpa [hz0.symm] using hq.next.trans hnext
    · simp [h0, h1, h2]
    · exact ⟨b', by simp [ha0, hza.symm], hq.leaf.2, hq.left⟩
    · exact ⟨{ node with next := -1 }, by simp [hfirst], hq.leaf.1, hq.right⟩

/-! ## The descent -/

/-- What `tree_insert` leaves of the tree `t`, when it has become `g`. -/
structure TreeInserted (spec : InsertSpec D H i K) (recs : Records K) (R : Multiset (RID × K))
    (t : Tree Int RID K h) (f : FlatPool) (root : Int) (sp : Space) (g : Grown Int RID K h)
    (entry : ChildEntry) (s' : Flat) (f' : FlatPool) : Prop where
  stored : g.tree.Stored f'.mem
  split : match g.split with
    | none => entry.addr = -1
    | some (s, r) => entry = ⟨r.addr, s.1⟩ ∧ r.Stored f'.mem
  ctl : f'.Ctl root (sp.after g.used)
  frame : ∀ c, sp.Used c → c ≠ 0 → c ∉ t.pages → f'.mem c = f.mem c
  keeps : f.Keeps f'
  inv : spec.Inv recs (sepsOf g.flat + R) s'

theorem TreeInserted.release {R : Multiset (RID × K)} {t : Tree Int RID K h}
    {g : Grown Int RID K h} {entry : ChildEntry} {s' : Flat} {f' : FlatPool}
    (ht : TreeInserted spec recs R t (f.get a) root sp g entry s' f') :
    TreeInserted spec recs R t f root sp g entry s' (f'.release a) :=
  ⟨ht.stored, ht.split, ht.ctl.congr rfl rfl fun _ _ => rfl, ht.frame, ht.keeps.bracket, ht.inv⟩

/-- Subtrees that are stored, on pages in use apart from `addr`. -/
def StoredOff (mem : Int → Page) (sp : Space) (addr : Int)
    (kids : List (Tree Int RID K h)) : Prop :=
  ∀ d ∈ kids, d.Stored mem ∧ ∀ a ∈ d.pages, sp.Used a ∧ a ≠ 0 ∧ a ≠ addr

omit [LinearOrder K] in
theorem StoredOff.stored {mem mem' : Int → Page} {kids : List (Tree Int RID K h)}
    (hs : StoredOff mem sp a kids) (hm : ∀ c, sp.Used c → c ≠ 0 → c ≠ a → mem' c = mem c) :
    ∀ d ∈ kids, d.Stored mem' := fun d hd =>
  (hs d hd).1.congr fun x hx => by
    obtain ⟨h1, h2, h3⟩ := (hs d hd).2 x hx
    exact hm x h1 h2 h3

omit [LinearOrder K] in
theorem addrs_set {kids : List (Tree Int RID K h)} {c c' : Tree Int RID K h} {j : ℕ}
    (hc : kids[j]? = some c) (he : c'.addr = c.addr) : addrs (kids.set j c') = addrs kids := by
  obtain ⟨hj, rfl⟩ := List.getElem?_eq_some_iff.mp hc
  refine List.ext_getElem? fun l => ?_
  rw [addrs, List.map_set, he, List.getElem?_set, List.length_map, List.getElem?_map]
  split_ifs with h1
  · rw [← h1, List.getElem?_eq_getElem hj]
    rfl
  · rfl

section Up

variable {m : ℕ} {t : Inner Int RID K (Tree Int RID K h)} {c c' r : Tree Int RID K h} {n : ℕ}
  {R R' : Multiset (RID × K)} {e x : RID × K} {entry : ChildEntry} {f₀ : FlatPool} {sep : RID}
  {o : Option ((RID × K) × Tree Int RID K h)}

theorem TreeInserted.storedOff (hw : sp.Wf) (hown : sp.Owns (Tree.pages (h := h + 1) t))
    (hocc : Tree.Occ (h := h + 1) D m t) (hkst : ∀ d ∈ t.kids, d.Stored f₀.mem)
    (hcc : t.kids[index]? = some c) (hg : c.insert D e sep sp.new = ⟨c', o, n⟩)
    (hins : TreeInserted spec recs R' c f₀ root sp ⟨c', o, n⟩ entry s f) :
    StoredOff f.mem (sp.after n) t.addr
      (t.kids.take index ++ (c' :: o.elim [] fun p => [p.2]) ++ t.kids.drop (index + 1)) := by
  have hcm := List.mem_of_getElem? hcc
  have hpages := Tree.insert_pages e sep sp.new (hocc.2.2 c hcm)
  rw [hg] at hpages
  have hsub : ∀ a ∈ c.pages, a ∈ Tree.pages (h := h + 1) t ∧ a ≠ t.addr := fun a ha =>
    Inner.mem_pages_kid hown.nodup hcm ha
  have hpart : ∀ a ∈ Grown.pages ⟨c', o, n⟩, (sp.after n).Used a ∧ a ≠ 0 ∧ a ≠ t.addr := by
    intro a ha
    have hm : a ∈ ((c.pages : Multiset Int) + ((List.range n).map sp.new : List Int)) := by
      rw [← hpages]
      exact ha
    rcases Multiset.mem_add.mp hm with hm | hm
    · obtain ⟨h1, h2⟩ := hsub a hm
      exact ⟨(hown.used a h1).1.after n, (hown.used a h1).2, h2⟩
    · obtain ⟨j, hj, rfl⟩ := List.mem_map.mp hm
      obtain ⟨h1, h2⟩ := hw.used_new (List.mem_range.mp hj)
      exact ⟨h1, h2, ((hown.used t.addr List.mem_cons_self).1.ne_new j).symm⟩
  have hside : ∀ d, d ∈ t.kids.take index ∨ d ∈ t.kids.drop (index + 1) →
      d.Stored f.mem ∧ ∀ a ∈ d.pages, (sp.after n).Used a ∧ a ≠ 0 ∧ a ≠ t.addr := by
    intro d hd
    have hdm : d ∈ t.kids := hd.elim List.mem_of_mem_take List.mem_of_mem_drop
    have hp : ∀ a ∈ d.pages, sp.Used a ∧ a ≠ 0 ∧ a ≠ t.addr := fun a ha => by
      obtain ⟨h1, h2⟩ := Inner.mem_pages_kid hown.nodup hdm ha
      exact ⟨(hown.used a h1).1, (hown.used a h1).2, h2⟩
    refine ⟨(hkst d hdm).congr fun a ha => ?_, fun a ha => ?_⟩
    · exact hins.frame a (hp a ha).1 (hp a ha).2.1 (Inner.disjoint_kid hown.nodup hcc hd ha)
    · exact ⟨(hp a ha).1.after n, (hp a ha).2⟩
  intro d hd
  rcases List.mem_append.mp hd with hd | hd
  · rcases List.mem_append.mp hd with hd | hd
    · exact hside d (Or.inl hd)
    · rcases List.mem_cons.mp hd with rfl | hd
      · exact ⟨hins.stored, fun a ha => hpart a (List.mem_append_left _ ha)⟩
      · cases o with
        | none => exact absurd hd List.not_mem_nil
        | some p =>
          obtain rfl := List.mem_singleton.mp hd
          exact ⟨hins.split.2, fun a ha => hpart a (List.mem_append_right _ ha)⟩
  · exact hside d (Or.inr hd)

theorem inv_up (hk : t.kids.length = t.rows.length + 1) (hcc : t.kids[rank e.2 t.rows]? = some c)
    (hR : R' = sepsOf (t.pre (rank e.2 t.rows)) + (sepsOf (t.post (rank e.2 t.rows)) + R))
    (hinv : spec.Inv recs (sepsOf (c.insert D e sep sp.new).flat + R') s) :
    spec.Inv recs (sepsOf (Tree.insert (h := h + 1) D e sep sp.new t).flat + R) s := by
  have hl : (sepsOf (Tree.insert (h := h + 1) D e sep sp.new t).flat + R : Multiset (RID × K)) =
      sepsOf (c.insert D e sep sp.new).flat + R' := by
    rw [Tree.flat_insert_succ hk hcc, hR, sepsOf_append, sepsOf_append]
    simp only [← Multiset.coe_add]
    abel
  rwa [hl]

theorem TreeInserted.up_none (hw : sp.Wf) (hown : sp.Owns (Tree.pages (h := h + 1) t))
    (hocc : Tree.Occ (h := h + 1) D m t) (hkst : ∀ d ∈ t.kids, d.Stored f₀.mem)
    (hnode : InnerAt f.mem t.addr (names t.rows) (addrs t.kids))
    (hcc : t.kids[rank e.2 t.rows]? = some c) (hg : c.insert D e sep sp.new = ⟨c', none, n⟩)
    (hR : R' = sepsOf (t.pre (rank e.2 t.rows)) + (sepsOf (t.post (rank e.2 t.rows)) + R))
    (hins : TreeInserted spec recs R' c f₀ root sp ⟨c', none, n⟩ entry s f) :
    TreeInserted spec recs R (h := h + 1) t f₀ root sp
      (Tree.insert (h := h + 1) D e sep sp.new t) entry s f := by
  have hso := hins.storedOff hw hown hocc hkst hcc hg
  have hi := (List.getElem?_eq_some_iff.mp hcc).1
  have haddr : c'.addr = c.addr := by
    have := Tree.insert_addr D e sep sp.new c
    rwa [hg] at this
  have hkids : addrs (t.graft (rank e.2 t.rows) [c'] []).kids = addrs t.kids := by
    rw [Inner.kids_graft_one t hi, addrs_set hcc haddr]
  have hinv := inv_up hocc.2.1 hcc hR (by rw [hg]; exact hins.inv)
  rw [Tree.insert_succ_none hcc hg] at hinv ⊢
  refine ⟨⟨?_, ?_⟩, hins.split, hins.ctl, fun a ha h0 hat => hins.frame a ha h0 fun hm => hat ?_,
    hins.keeps, hinv⟩
  · rw [hkids, Inner.rows_graft_one]
    exact hnode
  · exact hso.stored fun _ _ _ _ => rfl
  · exact (Inner.mem_pages_kid hown.nodup (List.mem_of_getElem? hcc) hm).1

theorem TreeInserted.entry_ne (hw : sp.Wf) (hown : sp.Owns (Tree.pages (h := h + 1) t))
    (hocc : Tree.Occ (h := h + 1) D m t) (hkst : ∀ d ∈ t.kids, d.Stored f₀.mem)
    (hcc : t.kids[index]? = some c) (hg : c.insert D e sep sp.new = ⟨c', some (x, r), n⟩)
    (hins : TreeInserted spec recs R' c f₀ root sp ⟨c', some (x, r), n⟩ entry s f) :
    entry.addr ≠ -1 := by
  obtain ⟨h1, -, -⟩ := (hins.storedOff hw hown hocc hkst hcc hg r (by simp)).2 r.addr
    r.addr_mem_pages
  rw [hins.split.1]
  exact fun e => absurd h1.1.1 (by rw [show r.addr = -1 from e]; decide)

omit [LinearOrder K] in
theorem rows_graft_two (index : ℕ) : (t.graft index [c', r] [x]).rows =
    t.rows.take index ++ x :: t.rows.drop index := by
  simp [Inner.graft]

omit [LinearOrder K] in
theorem addrs_graft_two (hcc : t.kids[index]? = some c) (he : c'.addr = c.addr) :
    addrs (t.graft index [c', r] [x]).kids =
      (addrs t.kids).take (index + 1) ++ r.addr :: (addrs t.kids).drop (index + 1) := by
  obtain ⟨hi, rfl⟩ := List.getElem?_eq_some_iff.mp hcc
  have e1 : (addrs t.kids).take (index + 1) = (addrs t.kids).take index ++ [t.kids[index].addr] := by
    rw [List.take_add_one, List.getElem?_map, List.getElem?_eq_getElem hi]
    rfl
  rw [e1]
  simp [Inner.graft, addrs, he]

theorem insert_addr_of {o : Option ((RID × K) × Tree Int RID K h)}
    (hg : c.insert D e sep sp.new = ⟨c', o, n⟩) : c'.addr = c.addr := by
  have := Tree.insert_addr D e sep sp.new c
  rwa [hg] at this

theorem TreeInserted.up_room {b : BNode} (hw : sp.Wf) (hown : sp.Owns (Tree.pages (h := h + 1) t))
    (hocc : Tree.Occ (h := h + 1) D m t) (hkst : ∀ d ∈ t.kids, d.Stored f₀.mem)
    (hleaf : b.leaf = false) (hrows : b.rows = names t.rows) (hkids : b.kids = addrs t.kids)
    (hcc : t.kids[rank e.2 t.rows]? = some c)
    (hg : c.insert D e sep sp.new = ⟨c', some (x, r), n⟩)
    (hR : R' = sepsOf (t.pre (rank e.2 t.rows)) + (sepsOf (t.post (rank e.2 t.rows)) + R))
    (hins : TreeInserted spec recs R' c f₀ root sp ⟨c', some (x, r), n⟩ entry s f)
    (hlt : b.n < 2 * D) :
    TreeInserted spec recs R (h := h + 1) t f₀ root sp
      (Tree.insert (h := h + 1) D e sep sp.new t) { entry with addr := -1 } s
      (f.put t.addr (.bNode (b.insertChild (rank e.2 t.rows) entry))) := by
  have hso := hins.storedOff hw hown hocc hkst hcc hg
  have hn := Keyed.length_of hrows
  have hi : rank e.2 t.rows ≤ b.n := hn ▸ rank_le
  obtain ⟨hused, hne0⟩ := hown.used t.addr List.mem_cons_self
  have hgr : Tree.insert (h := h + 1) D e sep sp.new t =
      ⟨t.graft (rank e.2 t.rows) [c', r] [x], none, n⟩ := by
    rw [Tree.insert_succ_some hcc hg]
    refine Inner.grow_of_le ?_
    rw [rows_graft_two]
    simp
    omega
  have hinv := inv_up hocc.2.1 hcc hR (by rw [hg]; exact hins.inv)
  rw [hgr] at hinv ⊢
  refine ⟨⟨⟨_, Function.update_self .., hleaf, ?_, ?_⟩, ?_⟩, rfl, hins.ctl.put (hused.after n) hne0,
    fun a ha h0 hat => ?_, hins.keeps.trans FlatPool.keeps_put, hinv⟩
  · rw [BNode.rows_insertChild hi, BNode.withRow, hrows, rows_graft_two, hins.split.1]
    simp [names]
  · rw [BNode.kids_insertChild hi, BNode.withKid, hkids, addrs_graft_two hcc (insert_addr_of hg),
      hins.split.1]
  · exact hso.stored fun a _ _ hat => Function.update_of_ne hat _ _
  · have hat' : a ≠ t.addr := by
      rintro rfl
      exact hat List.mem_cons_self
    refine (Function.update_of_ne hat' _ _).trans (hins.frame a ha h0 fun hm => hat ?_)
    exact (Inner.mem_pages_kid hown.nodup (List.mem_of_getElem? hcc) hm).1

theorem TreeInserted.up_split {y : RID × K} {f' : FlatPool} (hw : sp.Wf)
    (hown : sp.Owns (Tree.pages (h := h + 1) t))
    (hocc : Tree.Occ (h := h + 1) D m t) (hkst : ∀ d ∈ t.kids, d.Stored f₀.mem)
    (hcc : t.kids[rank e.2 t.rows]? = some c)
    (hg : c.insert D e sep sp.new = ⟨c', some (x, r), n⟩)
    (hR : R' = sepsOf (t.pre (rank e.2 t.rows)) + (sepsOf (t.post (rank e.2 t.rows)) + R))
    (hins : TreeInserted spec recs R' c f₀ root sp ⟨c', some (x, r), n⟩ entry s f)
    (hfull : 2 * D ≤ t.rows.length)
    (hy : (t.rows.take (rank e.2 t.rows) ++ x :: t.rows.drop (rank e.2 t.rows))[D]? = some y)
    (hsp : SplitOff f f' root root (sp.after n) t.addr)
    (hl : InnerAt f'.mem t.addr
      (names ((t.rows.take (rank e.2 t.rows) ++ x :: t.rows.drop (rank e.2 t.rows)).take D))
      (((addrs t.kids).take (rank e.2 t.rows + 1) ++ r.addr ::
        (addrs t.kids).drop (rank e.2 t.rows + 1)).take (D + 1)))
    (hr : InnerAt f'.mem (sp.new n)
      (names ((t.rows.take (rank e.2 t.rows) ++ x :: t.rows.drop (rank e.2 t.rows)).drop (D + 1)))
      (((addrs t.kids).take (rank e.2 t.rows + 1) ++ r.addr ::
        (addrs t.kids).drop (rank e.2 t.rows + 1)).drop (D + 1))) :
    TreeInserted spec recs R (h := h + 1) t f₀ root sp
      (Tree.insert (h := h + 1) D e sep sp.new t) ⟨sp.new n, y.1⟩ s f' := by
  have hso := (hins.storedOff hw hown hocc hkst hcc hg).stored hsp.frame
  have haddrs := addrs_graft_two (x := x) (r := r) hcc (insert_addr_of hg)
  have hrows : (t.graft (rank e.2 t.rows) [c', r] [x]).rows = _ := rows_graft_two _
  have hgr := Tree.insert_succ_some hcc hg
  rw [Inner.grow_of_lt (s := y) (by rw [hrows]; simp; omega) (by rw [hrows]; exact hy)] at hgr
  have hinv := inv_up hocc.2.1 hcc hR (by rw [hg]; exact hins.inv)
  rw [hgr] at hinv ⊢
  rw [← haddrs, ← hrows] at hl hr
  refine ⟨⟨?_, fun d hd => hso d (List.mem_of_mem_take hd)⟩, ⟨rfl, ?_,
    fun d hd => hso d (List.mem_of_mem_drop hd)⟩, hsp.ctl, fun a ha h0 hat => ?_,
    hins.keeps.trans hsp.keeps, hinv⟩
  · rw [addrs, List.map_take]
    exact hl
  · rw [addrs, List.map_drop]
    exact hr
  · have hat' : a ≠ t.addr := by
      rintro rfl
      exact hat List.mem_cons_self
    refine (hsp.frame a (ha.after n) h0 hat').trans (hins.frame a ha h0 fun hm => hat ?_)
    exact (Inner.mem_pages_kid hown.nodup (List.mem_of_getElem? hcc) hm).1

end Up

section Leaf

variable {addr next : Int} {rows : List (RID × K)} {R : Multiset (RID × K)} {e y : RID × K} {m : ℕ}

theorem TreeInserted.leaf_room {entry : ChildEntry} {sep : RID} (hc : f.Ctl root sp)
    (hown : sp.Owns [addr]) (hleaf : b.leaf = true) (hnext : b.next = next)
    (hrows : b.rows = names rows) (hlt : b.n < 2 * D) (hinv : spec.Inv recs R s) :
    TreeInserted spec recs R (h := 0) (⟨addr, next, rows⟩ : Leaf Int RID K) f root sp
      (Tree.insert (h := 0) D e sep sp.new (⟨addr, next, rows⟩ : Leaf Int RID K))
      { entry with addr := -1 } s (f.put addr (.bNode (b.insertRow (rank e.2 rows) e.1))) := by
  have hn := Keyed.length_of hrows
  have hi : rank e.2 rows ≤ b.n := hn ▸ rank_le
  obtain ⟨hused, hne0⟩ := hown.used addr (List.mem_singleton_self _)
  have hg : Tree.insert (h := 0) D e sep sp.new (⟨addr, next, rows⟩ : Leaf Int RID K) =
      ⟨(⟨addr, next, rows.take (rank e.2 rows) ++ e :: rows.drop (rank e.2 rows)⟩ :
        Leaf Int RID K), none, 0⟩ := Leaf.grow_of_le (by simp; omega)
  rw [hg]
  refine ⟨⟨_, Function.update_self .., hleaf, hnext, ?_⟩, rfl, hc.put hused hne0, fun c _ _ hca => ?_,
    FlatPool.keeps_put, ?_⟩
  · rw [BNode.rows_insertRow hi, BNode.withRow, hrows]
    simp [names]
  · exact Function.update_of_ne (by rintro rfl; exact hca (List.mem_singleton_self _)) _ _
  · simpa only [Grown.flat, seps_leaf, Multiset.coe_nil, zero_add] using hinv

theorem TreeInserted.leaf_split {f' : FlatPool} {sep : RID} (hfull : 2 * D ≤ rows.length)
    (hy : (rows.take (rank e.2 rows) ++ e :: rows.drop (rank e.2 rows))[D]? = some y)
    (hinv : spec.Inv recs ((sep, y.2) ::ₘ R) s) (hsp : SplitOff f f' root root sp addr)
    (hl : LeafAt f'.mem addr sp.first
      (names ((rows.take (rank e.2 rows) ++ e :: rows.drop (rank e.2 rows)).take D)))
    (hr : LeafAt f'.mem sp.first next
      (names ((rows.take (rank e.2 rows) ++ e :: rows.drop (rank e.2 rows)).drop D))) :
    TreeInserted spec recs R (h := 0) (⟨addr, next, rows⟩ : Leaf Int RID K) f root sp
      (Tree.insert (h := 0) D e sep sp.new (⟨addr, next, rows⟩ : Leaf Int RID K)) ⟨sp.first, sep⟩ s
      f' := by
  have hg : Tree.insert (h := 0) D e sep sp.new (⟨addr, next, rows⟩ : Leaf Int RID K) = _ :=
    Leaf.grow_of_lt (by simp; omega) hy
  rw [hg]
  refine ⟨hl, ⟨rfl, hr⟩, hsp.ctl, fun c hcu hc0 hca => ?_, hsp.keeps, ?_⟩
  · exact hsp.frame c hcu hc0 (by rintro rfl; exact hca (List.mem_singleton_self _))
  · simpa [Grown.flat, seps_leaf] using hinv

end Leaf

/-- `tree_insert` inserts the row `e` into trees of height `h` as `Tree.insert` does. -/
def InsertsAs (bd : Bool) (spec : InsertSpec D H i K) (recs : Records K) (root : Int) (e : RID × K)
    (h : ℕ) : Prop :=
  ∀ {s : Flat} {f : FlatPool} {sp : Space} {bt m : ℕ} {t : Tree Int RID K h}
    {R : Multiset (RID × K)} {entry : ChildEntry}, spec.Inv recs (sepsOf t.flat + R) s →
    f.Ctl root sp → t.Stored f.mem → sp.Owns t.pages → t.Occ D m → Sorted t.flat →
    (∀ x ∈ rowsOf t.flat, recs x.1 = some x.2) → f.Held bt t.addr →
    (bd → f.load + h + 1 ≤ cachePage) →
    wp (flatSem bd) (procBody D H) (treeInsert D H i ⟨i, bt⟩ e.1 entry)
      (fun entry' st => ∃ sep s' f', st = Function.update s' i f' ∧
        TreeInserted spec recs R t f root sp (t.insert D e sep sp.new) entry' s' f')
      (Function.update s i f)

theorem wp_insertLeaf {e : RID × K} (he : recs e.1 = some e.2) :
    InsertsAs bd spec recs root e 0 := by
  intro s f sp bt m t R entry hinv hc hst hown hocc hsort hrec hheld hbd
  obtain ⟨addr, next, rows⟩ := t
  obtain ⟨b, hb, hleaf, hnext, hrows⟩ := hst
  have hnext : b.next = next := hnext
  have hflat : rowsOf (Tree.flat (h := 0) (⟨addr, next, rows⟩ : Leaf Int RID K)) = rows :=
    rowsOf_leaf rows
  rw [hflat] at hrec
  have hkeyed : Keyed recs (sepsOf (Tree.flat (h := 0) (⟨addr, next, rows⟩ : Leaf Int RID K)) + R)
      b rows :=
    ⟨hrows, fun x hx => by rw [IsKey, if_pos hleaf]; exact hrec x hx, sorted_leaf.mp hsort⟩
  have hn := hkeyed.length
  have h2D : rows.length ≤ 2 * D := hocc.2
  obtain ⟨hused, hne0⟩ := hown.used addr (List.mem_singleton_self _)
  refine wp_bind (wp_getPage hc.zero (fun h => FlatPool.fits_zero (by have := hbd h; omega)) ?_)
  refine wp_bind (wp_findIndex hinv hheld.get.live hb hkeyed (x := e) he fun s₁ hs₁ => ?_)
  rw [seps_leaf, Multiset.coe_nil, zero_add] at hs₁
  refine wp_bind (wp_bNode hheld.get.live hb (wp_ite (fun _ => ?_) fun hne => absurd hleaf hne))
  refine wp_bind (wp_bNode hheld.get.live hb ?_)
  have hc' : (f.get 0).Ctl root sp := hc.congr rfl rfl fun _ _ => rfl
  refine wp.seq (R := fun entry' st => ∃ sep s' f', st = Function.update s' i f' ∧
    TreeInserted spec recs R (h := 0) (⟨addr, next, rows⟩ : Leaf Int RID K) (f.get 0) root sp
      (Tree.insert (h := 0) D e sep sp.new (⟨addr, next, rows⟩ : Leaf Int RID K)) entry' s' f')
    (wp_ite (fun hlt => ?_) fun hge => ?_) fun entry' st hst => ?_
  · refine wp_bind (wp_setBNode hheld.get.live hb (wp_pure ⟨RID.null, s₁, _, rfl, ?_⟩))
    exact .leaf_room hc' hown hleaf hnext hrows hlt hs₁
  · obtain ⟨y, hy⟩ : ∃ y, (rows.take (rank e.2 rows) ++ e :: rows.drop (rank e.2 rows))[D]? =
        some y := ⟨_, List.getElem?_eq_getElem (by simp; omega)⟩
    have hyrec : recs y.1 = some y.2 := by
      rcases List.mem_append.mp (List.mem_of_getElem? hy) with hm | hm
      · exact hrec y (List.mem_of_mem_take hm)
      · rcases List.mem_cons.mp hm with rfl | hm
        · exact he
        · exact hrec y (List.mem_of_mem_drop hm)
    refine (wp_leafSplit hs₁ hc' FlatPool.held_get_self hheld.get hused hne0 hb hleaf hrows
      (by omega) (hn ▸ rank_le) (fun h => by have := hbd h; rw [FlatPool.load_get_zero]; omega) hy
      hyrec).mono ?_
    rintro _ _ ⟨s', f', sep, rfl, rfl, hinv', hsp, hleft, hright⟩
    exact ⟨sep, s', f', rfl, .leaf_split (by omega) hy hinv' hsp hleft (hnext ▸ hright)⟩
  · obtain ⟨sep, s', f', rfl, hins⟩ := hst
    exact wp_bind (wp_release hins.keeps.mem_pins (wp_pure ⟨sep, s', _, rfl, hins.release⟩))

section Inner

variable {addr : Int} {rows : List (RID × K)} {kids : List (Tree Int RID K h)}
  {c : Tree Int RID K h} {R : Multiset (RID × K)} {e : RID × K} {m : ℕ}

/-- `tree_insert` at an inner node, once it has inserted into a subtree. -/
theorem wp_insertChild {entry : ChildEntry} {sep : RID} {f₃ : FlatPool} (hc : f.Ctl root sp)
    (hown : sp.Owns (Tree.pages (h := h + 1) (⟨addr, rows, kids⟩ : Inner Int RID K _)))
    (hocc : Tree.Occ (h := h + 1) D m (⟨addr, rows, kids⟩ : Inner Int RID K _))
    (hkst : ∀ d ∈ kids, d.Stored f.mem) (hcc : kids[rank e.2 rows]? = some c)
    (hleaf : b.leaf = false) (hrows : b.rows = names rows) (hkids : b.kids = addrs kids)
    (hins : TreeInserted spec recs
      (sepsOf (Inner.pre (⟨addr, rows, kids⟩ : Inner Int RID K _) (rank e.2 rows)) +
        (sepsOf (Inner.post (⟨addr, rows, kids⟩ : Inner Int RID K _) (rank e.2 rows)) + R))
      c (f.get 0) root sp (c.insert D e sep sp.new) entry s f₃)
    (hb : f₃.mem addr = .bNode b) (hbt : f₃.Held bt addr) (hct : f₃.Held ct 0)
    (hbd : bd → f.load + 2 ≤ cachePage) :
    wp (flatSem bd) (procBody D H)
      (if entry.addr = -1 then do
        release i 0
        return entry
      else do
        let entry ← (if (← PagePtr.bNode ⟨i, bt⟩).n < 2 * D then do
            PagePtr.setBNode ⟨i, bt⟩ (·.insertChild (rank e.2 rows) entry)
            return { entry with addr := -1 }
          else treeInsertInnerSplit D i ⟨i, ct⟩ ⟨i, bt⟩ (rank e.2 rows) entry : M ChildEntry)
        release i 0
        return entry : M ChildEntry)
      (fun entry' st => ∃ sep s' f', st = Function.update s' i f' ∧
        TreeInserted spec recs R (h := h + 1) (⟨addr, rows, kids⟩ : Inner Int RID K _) f root sp
          (Tree.insert (h := h + 1) D e sep sp.new (⟨addr, rows, kids⟩ : Inner Int RID K _)) entry' s'
          f') (Function.update s i f₃) := by
  have hkst' : ∀ d ∈ kids, d.Stored (f.get 0).mem := hkst
  obtain ⟨hused, hne0⟩ := hown.used addr List.mem_cons_self
  rcases hg : c.insert D e sep sp.new with ⟨c', _ | ⟨x, r⟩, n⟩
  · rw [hg] at hins
    refine wp_ite (fun _ => ?_) fun hne => absurd hins.split hne
    refine wp_bind (wp_release hins.keeps.mem_pins (wp_pure ⟨sep, s, _, rfl, ?_⟩))
    exact (hins.up_none hc.wf hown hocc hkst' ⟨b, hb, hleaf, hrows, hkids⟩ hcc hg rfl).release
  · rw [hg] at hins
    refine wp_ite (fun he => absurd he (hins.entry_ne hc.wf hown hocc hkst' hcc hg)) fun _ => ?_
    refine wp_bind (wp_bNode hbt.live hb ?_)
    refine wp.seq (R := fun entry' st => ∃ sep s' f', st = Function.update s' i f' ∧
      TreeInserted spec recs R (h := h + 1) (⟨addr, rows, kids⟩ : Inner Int RID K _) (f.get 0) root
        sp (Tree.insert (h := h + 1) D e sep sp.new (⟨addr, rows, kids⟩ : Inner Int RID K _)) entry'
        s' f') (wp_ite (fun hlt => ?_) fun hge => ?_) fun entry' st hst => ?_
    · refine wp_bind (wp_setBNode hbt.live hb (wp_pure ⟨sep, s, _, rfl, ?_⟩))
      exact hins.up_room hc.wf hown hocc hkst' hleaf hrows hkids hcc hg rfl hlt
    · have hbn : rows.length = b.n := Keyed.length_of hrows
      have hm : rows.length ≤ 2 * D := hocc.1.2
      obtain ⟨y, hy⟩ : ∃ y, (rows.take (rank e.2 rows) ++ x :: rows.drop (rank e.2 rows))[D]? =
          some y := ⟨_, List.getElem?_eq_getElem (by simp; omega)⟩
      obtain rfl := hins.split.1
      refine (wp_innerSplit hins.ctl hct hbt (hused.after n) hne0 hb hleaf hrows hkids (by omega)
        (hbn ▸ rank_le) (fun h => ?_) hy).mono ?_
      · have := hbd h
        rw [hins.keeps.load, FlatPool.load_get_zero]
        omega
      rintro _ _ ⟨f₄, rfl, rfl, hsp, hl, hr⟩
      exact ⟨sep, s, f₄, rfl, hins.up_split hc.wf hown hocc hkst' hcc hg rfl
        (show 2 * D ≤ rows.length by omega) hy hsp hl hr⟩
    · obtain ⟨sep, s', f', rfl, hins⟩ := hst
      exact wp_bind (wp_release hins.keeps.mem_pins (wp_pure ⟨sep, s', _, rfl, hins.release⟩))

/-- `tree_insert` at an inner node, if it inserts into the subtrees. -/
theorem wp_insertInner (he : recs e.1 = some e.2) (ih : InsertsAs bd spec recs root e h) :
    InsertsAs bd spec recs root e (h + 1) := by
  intro s f sp bt m t R entry hinv hc hst hown hocc hsort hrec hheld hbd
  obtain ⟨addr, rows, kids⟩ := t
  obtain ⟨⟨b, hb, hleaf, hrows, hkids⟩, hkst⟩ := hst
  obtain ⟨-, hk, hko⟩ := id hocc
  obtain ⟨hused, -⟩ := hown.used addr List.mem_cons_self
  have hk' : kids.length = rows.length + 1 := hk
  have hkeyed : Keyed recs
      (sepsOf (Tree.flat (h := h + 1) (⟨addr, rows, kids⟩ : Inner Int RID K _)) + R) b rows :=
    ⟨hrows, fun x hx => by
      rw [IsKey, hleaf, if_neg Bool.false_ne_true]
      exact Multiset.mem_add.mpr (Or.inl (Inner.mem_seps hk hx)),
      Sorted.seps hsort (by simpa using hk')⟩
  -- the subtree that the row belongs into
  obtain ⟨c, hcc⟩ := Inner.exists_kid hk (rank_le (k := e.2))
  have hcm := List.mem_of_getElem? hcc
  have hchild : b.child (rank e.2 rows) = c.addr := BNode.child_eq hkids (by
    rw [List.getElem?_map, hcc]; rfl)
  obtain ⟨hcu, -⟩ := hown.used c.addr (Inner.mem_pages_kid hown.nodup hcm c.addr_mem_pages).1
  have hac : addr ∉ c.pages := fun hm => (Inner.mem_pages_kid hown.nodup hcm hm).2 rfl
  have hcrec : ∀ x ∈ rowsOf c.flat, recs x.1 = some x.2 := fun x hx =>
    hrec x (by rw [Inner.flat_eq hk rank_le hcc]; simp [hx])
  refine wp_bind (wp_getPage hc.zero (fun h => FlatPool.fits_zero (by have := hbd h; omega)) ?_)
  refine wp_bind (wp_findIndex hinv hheld.get.live hb hkeyed (x := e) he fun s₁ hs₁ => ?_)
  rw [seps_kid hk' hcc] at hs₁
  refine wp_bind (wp_bNode hheld.get.live hb (wp_ite (fun hl => ?_) fun _ => ?_))
  · rw [hleaf] at hl
    cases hl
  refine wp_bind (wp_bNode hheld.get.live hb ?_)
  rw [hchild]
  refine wp_bind (wp_getPage (hc.used hcu) (fun h => FlatPool.fits_of_load (by
    have := hbd h
    rw [FlatPool.load_get_zero]
    omega)) ?_)
  refine wp.seq (wp_proc (ih hs₁ (hc.congr rfl rfl fun _ _ => rfl) (hkst c hcm)
    (hown.sublist (Inner.pages_kid_sublist hcm)) (hko c hcm) (Inner.sorted_kid hk hsort hcc).1 hcrec
    FlatPool.held_get_self fun h => ?_)) fun entry' st hst => ?_
  · have := hbd h
    have := FlatPool.load_get_le (f := f.get 0) (a := c.addr)
    rw [FlatPool.load_get_zero] at this
    omega
  obtain ⟨sep, s₂, f₂, rfl, hins⟩ := hst
  have hb₂ : f₂.mem addr = .bNode b := (hins.frame addr hused (hown.used addr
    List.mem_cons_self).2 hac).trans hb
  refine wp_bind (wp_bNode (hins.keeps.held _ _ hheld.get.get).live hb₂ ?_)
  rw [hchild]
  refine wp_bind (wp_release hins.keeps.mem_pins ?_)
  exact wp_insertChild hc hown hocc hkst hcc hleaf hrows hkids hins.release hb₂
    (hins.release.keeps.held _ _ hheld.get)
    (hins.release.keeps.held _ _ (FlatPool.held_get_self (f := f) (a := 0)))
    fun h => by have := hbd h; omega

end Inner

/-- **`tree_insert`** inserts the row as `Tree.insert` does. -/
theorem wp_treeInsert {m : ℕ} {t : Tree Int RID K h} {R : Multiset (RID × K)} {e : RID × K}
    {entry : ChildEntry} (hinv : spec.Inv recs (sepsOf t.flat + R) s) (hc : f.Ctl root sp)
    (hst : t.Stored f.mem) (hown : sp.Owns t.pages) (hocc : t.Occ D m) (hsort : Sorted t.flat)
    (hrec : ∀ x ∈ rowsOf t.flat, recs x.1 = some x.2) (he : recs e.1 = some e.2)
    (hheld : f.Held bt t.addr) (hbd : bd → f.load + h + 1 ≤ cachePage) :
    wp (flatSem bd) (procBody D H) (treeInsert D H i ⟨i, bt⟩ e.1 entry)
      (fun entry' st => ∃ sep s' f', st = Function.update s' i f' ∧
        TreeInserted spec recs R t f root sp (t.insert D e sep sp.new) entry' s' f')
      (Function.update s i f) := by
  have hall : ∀ h, InsertsAs bd spec recs root e h := fun h => by
    induction h with
    | zero => exact wp_insertLeaf he
    | succ h ih => exact wp_insertInner he ih
  exact hall h hinv hc hst hown hocc hsort hrec hheld hbd

/-! ## The root -/

omit [LinearOrder K] in
/-- **The new root.** -/
theorem wp_bTreeGrow {entry : ChildEntry} (hc : f.Ctl root sp) (hct : f.Held ct 0)
    (hbd : bd → f.load + 1 ≤ cachePage) :
    wp (flatSem bd) (procBody D H) (bTreeGrow D i ⟨i, ct⟩ entry)
      (fun _ st => ∃ f', st = Function.update s i f' ∧ SplitOff f f' root sp.first sp 0 ∧
        InnerAt f'.mem sp.first [entry.rid] [root, entry.addr]) (Function.update s i f) := by
  refine wp_bind (wp_bCtrl hct.live hc.ctrl (wp_bind (wp_bCtrl hct.live hc.ctrl ?_)))
  refine wp_ite (fun hfree => ?_) fun hfree => ?_
  · -- a fresh page
    have hnil := hc.free_eq_nil.mp hfree
    have hfirst : sp.first = f.length := by simp [Space.first, hnil, hc.length]
    have h0l : (0 : Int) ≠ f.length := by rw [hc.length]; exact hc.wf.len.1.ne
    refine wp_bind (wp_fileLength (wp_bind (wp_setBCtrl hct.live hc.ctrl ?_)))
    refine wp_bind (wp_fileLength (wp_writePageTo (fun _ => ?_) ?_))
    · simp only [FlatPool.mem_put, Function.update_self, hnil]
      rfl
    refine ⟨_, rfl, .fresh hc hnil (FlatPool.keeps_put.trans FlatPool.keeps_append) rfl ?_
      fun c h0 h1 h2 => ?_, ?_⟩
    · simp [h0l, hfirst, hnil]
    · simp [h0, h2]
    · rw [hfirst]
      exact ⟨_, Function.update_self .., rfl, BNode.rows_newRoot root, BNode.kids_newRoot root⟩
  · -- the first free page
    obtain ⟨z, l, hf⟩ := List.exists_cons_of_ne_nil fun e => hfree (hc.free_eq_nil.mpr e)
    have hzf : z ∈ sp.free := by rw [hf]; exact List.mem_cons_self
    obtain ⟨hzv, hz0⟩ := hc.wf.valid z hzf
    have hfirst : sp.first = z := by rw [Space.first, hf]; rfl
    have hctrl := hc.ctrl
    have hch := hc.chain
    rw [hf] at hctrl hch
    obtain ⟨⟨n₀, hn₀, hnext⟩, -⟩ := hch
    refine wp_bind (wp_bCtrl hct.live hctrl (wp_bind (wp_getPage (hc.valid hzv)
      (fun h => FlatPool.fits_of_load (hbd h)) ?_)))
    have hz := FlatPool.held_get_self (f := f) (a := z)
    refine wp_bind (wp_setBNode hz.live hn₀ ?_)
    refine wp_bind (wp_setBCtrl (x := ⟨root, z⟩) hct.get.put.live (by simp [hz0.symm, hctrl]) ?_)
    refine wp_bind (wp_bNode (x := BNode.newRoot D root entry n₀) hz.put.put.live (by simp [hz0]) ?_)
    refine wp_bind (wp_setBCtrl (x := ⟨z, z⟩) hct.get.put.put.live (by simp) ?_)
    refine wp_bind (wp_setBNode (x := BNode.newRoot D root entry n₀) hz.put.put.put.live
      (by simp [hz0]) ?_)
    refine wp_bind (wp_bCtrl (x := ⟨z, n₀.next⟩) hct.get.put.put.put.put.live
      (by simp [hz0.symm, BNode.newRoot, BNode.clear]) ?_)
    refine wp_release (by simp) ⟨_, rfl, .recycled hc hf (FlatPool.keeps_put.trans
      (FlatPool.keeps_put.trans (FlatPool.keeps_put.trans FlatPool.keeps_put))) rfl
        ?_ (fun c h0 h1 h2 => ?_) hc.wf.zero rfl, ?_⟩
    · simp [hz0.symm, hfirst, BNode.newRoot, BNode.clear, hnext]
    · simp [h0, h2]
    · rw [hfirst]
      exact ⟨{ BNode.newRoot D root entry n₀ with next := -1 }, by simp, rfl, BNode.rows_newRoot root,
        BNode.kids_newRoot root⟩

/-- What `b_tree_insert` leaves: the index, with the row in place, and some of the next pages. -/
def IndexInserted (spec : InsertSpec D H i K) (recs : Records K) (sp : Space)
    (rows : List (RID × K)) (e : RID × K) (st : Flat) : Prop :=
  ∃ (h' : ℕ) (t' : Tree Int RID K h') (n : ℕ) (f' : FlatPool) (s' : Flat),
    st = Function.update s' i f' ∧ IndexRep spec recs t' (sp.after n) f' s' ∧
    rowsOf t'.flat = rows.orderedInsert (fun a b => a.2 ≤ b.2) e

namespace Grown

/-- The tree after an insertion: with a new root if the old one was split. -/
def whole (new : ℕ → Int) : Grown Int RID K h → (h' : ℕ) × Tree Int RID K h'
  | ⟨c, none, _⟩ => ⟨h, c⟩
  | ⟨c, some (x, r), n⟩ => ⟨h + 1, (⟨new n, [x], [c, r]⟩ : Inner Int RID K (Tree Int RID K h))⟩

/-- The number of new pages, with the new root. -/
def total : Grown Int RID K h → ℕ
  | ⟨_, none, n⟩ => n
  | ⟨_, some _, n⟩ => n + 1

omit [LinearOrder K] in
theorem flat_whole (g : Grown Int RID K h) (new : ℕ → Int) : (g.whole new).2.flat = g.flat := by
  obtain ⟨c, _ | ⟨x, r⟩, n⟩ := g
  · rfl
  · simp [whole, Tree.flat, Grown.flat, weave, after]

omit [LinearOrder K] in
theorem pages_whole (g : Grown Int RID K h) (new : ℕ → Int) :
    ((g.whole new).2.pages : Multiset Int) + ((List.range g.used).map new : List Int) =
      (g.pages : Multiset Int) + ((List.range g.total).map new : List Int) := by
  obtain ⟨c, _ | ⟨x, r⟩, n⟩ := g
  · simp [whole, total, Grown.pages]
  · simp only [whole, total, Tree.pages, Grown.pages, Option.elim, List.flatMap_cons,
      List.flatMap_nil, List.append_nil, List.range_succ, List.map_append, List.map_cons,
      List.map_nil, ← Multiset.coe_add, ← Multiset.cons_coe, Multiset.coe_nil,
      ← Multiset.singleton_add, add_zero]
    abel

end Grown

section Root

variable {t : Tree Int RID K h} {e : RID × K} {f' : FlatPool} {c' : Tree Int RID K h} {n : ℕ}
  {entry : ChildEntry} {sep : RID} {x : RID × K} {r : Tree Int RID K h}

theorem live_orderedInsert {rows : List (RID × K)} (hl : ∀ x ∈ rows, recs x.1 = some x.2)
    (he : recs e.1 = some e.2) :
    ∀ x ∈ rows.orderedInsert (fun a b => a.2 ≤ b.2) e, recs x.1 = some x.2 := fun x hx => by
  rcases (List.mem_orderedInsert _).mp hx with rfl | hx
  · exact he
  · exact hl x hx

omit [LinearOrder K] in
theorem Tree.pages_whole_insert [LinearOrder K] {m : ℕ} (hocc : t.Occ D m) (e : RID × K) (sep : RID)
    (new : ℕ → Int) : (((t.insert D e sep new).whole new).2.pages : Multiset Int) =
      (t.pages : Multiset Int) + ((List.range (t.insert D e sep new).total).map new : List Int) := by
  have h1 := Grown.pages_whole (t.insert D e sep new) new
  rw [Tree.insert_pages e sep new hocc] at h1
  refine add_right_cancel (b := ((List.range (t.insert D e sep new).used).map new : Multiset Int))
    (h1.trans ?_)
  abel

theorem IndexOn.insert_none (hD : 1 ≤ D) (hrep : IndexOn spec recs t sp f s)
    (he : recs e.1 = some e.2) (hne : ∀ x ∈ rowsOf t.flat, x.2 ≠ e.2)
    (hg : t.insert D e sep sp.new = ⟨c', none, n⟩) {f₀ : FlatPool} {s' : Flat}
    (hins : TreeInserted spec recs 0 t f₀ t.addr sp ⟨c', none, n⟩ entry s' f')
    (hp : f'.pins = 0) : IndexOn spec recs c' (sp.after n) f' s' := by
  obtain ⟨hsort, hrows⟩ := Tree.insert_rows e sep sp.new hD hrep.occ hrep.sorted hne
  have hpages := Tree.insert_pages e sep sp.new hrep.occ
  have hocc := Tree.insert_occ e sep sp.new hD hrep.occ
  have hlink := (Tree.insert_relinks D e sep sp.new t).linked _
    hrep.linked
  rw [hg] at hsort hrows hpages hocc hlink
  refine ⟨?_, hins.stored, ?_, hocc, hsort, ?_, ?_, ?_, hp⟩
  · rw [insert_addr_of hg]
    exact hins.ctl
  · refine (hrep.owns.new hrep.ctl.wf n).perm ?_
    rw [← Multiset.coe_add, ← hpages]
    simp [Grown.pages]
  · simpa [Grown.leaves] using hlink
  · change ∀ x ∈ rowsOf (Grown.flat ⟨c', none, n⟩), _
    rw [hrows]
    exact live_orderedInsert hrep.live he
  · simpa [Grown.flat] using hins.inv

theorem IndexOn.insert_some (hD : 1 ≤ D) (hrep : IndexOn spec recs t sp f s)
    (he : recs e.1 = some e.2) (hne : ∀ x ∈ rowsOf t.flat, x.2 ≠ e.2)
    (hg : t.insert D e sep sp.new = ⟨c', some (x, r), n⟩) {f₀ f₁ : FlatPool} {s' : Flat}
    (hins : TreeInserted spec recs 0 t f₀ t.addr sp ⟨c', some (x, r), n⟩ entry s' f₁)
    (hsp : SplitOff f₁ f' t.addr (sp.new n) (sp.after n) 0)
    (hroot : InnerAt f'.mem (sp.new n) [entry.rid] [t.addr, entry.addr]) {f'' : FlatPool}
    (hm : f''.mem = f'.mem) (hlen : f''.length = f'.length) (hp : f''.pins = 0) :
    IndexOn spec recs (h := h + 1) (⟨sp.new n, [x], [c', r]⟩ : Inner Int RID K _)
      (sp.after (n + 1)) f'' s' := by
  obtain ⟨hsort, hrows⟩ := Tree.insert_rows e sep sp.new hD hrep.occ hrep.sorted hne
  have hpages := Tree.insert_pages e sep sp.new hrep.occ
  have hocc := Tree.insert_occ e sep sp.new hD hrep.occ
  have hlink := (Tree.insert_relinks D e sep sp.new t).linked _
    hrep.linked
  have hwhole := Tree.pages_whole_insert hrep.occ e sep sp.new
  rw [hg] at hsort hrows hpages hocc hlink hwhole
  have hflat := Grown.flat_whole (⟨c', some (x, r), n⟩ : Grown Int RID K h) sp.new
  have howns : (sp.after n).Owns (Grown.pages ⟨c', some (x, r), n⟩) := by
    refine (hrep.owns.new hrep.ctl.wf n).perm ?_
    rw [← Multiset.coe_add, ← hpages]
  have hframe : ∀ a ∈ Grown.pages ⟨c', some (x, r), n⟩, f''.mem a = f₁.mem a := fun a ha => by
    obtain ⟨h1, h2⟩ := howns.used a ha
    rw [hm]
    exact hsp.frame a h1 h2 h2
  refine ⟨hsp.ctl.congr hlen (by rw [hm]) fun _ _ => by rw [hm], ⟨?_, fun d hd => ?_⟩, ?_, ?_, ?_,
    ?_, ?_, ?_, hp⟩
  · rw [hm, hins.split.1] at *
    simpa [names, addrs, insert_addr_of hg] using hroot
  · rcases List.mem_cons.mp hd with rfl | hd
    · exact hins.stored.congr fun a ha => hframe a (List.mem_append_left _ ha)
    · obtain rfl := List.mem_singleton.mp hd
      exact hins.split.2.congr fun a ha => hframe a (List.mem_append_right _ ha)
  · refine (hrep.owns.new hrep.ctl.wf (n + 1)).perm ?_
    rw [← Multiset.coe_add]
    exact hwhole.symm
  · exact ⟨⟨le_rfl, by simp only [List.length_singleton]; omega⟩, rfl, fun d hd => by
      rcases List.mem_cons.mp hd with rfl | hd
      · exact hocc.1
      · obtain rfl := List.mem_singleton.mp hd
        exact hocc.2⟩
  · exact (congrArg Sorted hflat).mpr hsort
  · simpa [Grown.leaves, Tree.leaves] using hlink
  · refine fun y hy => live_orderedInsert hrep.live he y ?_
    rw [← hrows]
    exact (congrArg (y ∈ rowsOf ·) hflat).mp hy
  · have hinv := hins.inv
    rw [add_zero] at hinv
    exact (congrArg (fun l => spec.Inv recs (sepsOf l) s') hflat).mpr hinv

/-- **`b_tree_insert`** is `Tree.insert`, whatever pages are lost. -/
theorem wp_bTreeInsert_on (hD : 1 ≤ D) (hrep : IndexOn spec recs t sp f s)
    (he : recs e.1 = some e.2) (hne : ∀ x ∈ rowsOf t.flat, x.2 ≠ e.2)
    (hbd : bd → h + 3 ≤ cachePage) :
    wp (flatSem bd) (procBody D H) (bTreeInsert D i e.1)
      (fun r st => r = e.1 ∧ ∃ (sep : RID) (f' : FlatPool) (s' : Flat),
        st = Function.update s' i f' ∧
        IndexOn spec recs ((t.insert D e sep sp.new).whole sp.new).2
          (sp.after (t.insert D e sep sp.new).total) f' s')
      (Function.update s i f) := by
  have hload : f.load = 1 := by simp [FlatPool.load, hrep.pins]
  have hroot := hrep.owns.used t.addr t.addr_mem_pages
  have hload₂ : ((f.get 0).get t.addr).load ≤ 2 := by
    have := FlatPool.load_get_le (f := f.get 0) (a := t.addr)
    rw [FlatPool.load_get_zero] at this
    omega
  refine wp_bind (wp_getPage hrep.ctl.zero (fun h => FlatPool.fits_zero (by have := hbd h; omega)) ?_)
  have hct := FlatPool.held_get_self (f := f) (a := 0)
  refine wp_bind (wp_bCtrl hct.live hrep.ctl.ctrl ?_)
  refine wp_bind (wp_getPage (a := t.addr) (hrep.ctl.used hroot.1) (fun h => FlatPool.fits_of_load (by
    have := hbd h
    rw [FlatPool.load_get_zero]
    omega)) ?_)
  refine wp_bind (wp_bCtrl hct.get.live hrep.ctl.ctrl ?_)
  refine wp.seq (wp_proc (wp_treeInsert (R := 0) (by rw [add_zero]; exact hrep.inv)
    (hrep.ctl.congr rfl rfl fun _ _ => rfl) hrep.stored
    hrep.owns hrep.occ hrep.sorted hrep.live he FlatPool.held_get_self fun h => ?_))
    fun entry st hst => ?_
  · have := hbd h
    omega
  obtain ⟨sep, s', f₁, rfl, hins⟩ := hst
  have hpins₁ : f₁.pins = t.addr ::ₘ 0 ::ₘ 0 := by
    rw [hins.keeps.pins, FlatPool.pins_get, FlatPool.pins_get, hrep.pins]
  have hct₁ := hins.keeps.held _ _ (hct.get (a := t.addr))
  rcases hg : t.insert D e sep sp.new with ⟨c', _ | ⟨x, r⟩, n⟩
  · rw [hg] at hins
    refine wp_bind (wp_when (fun hn => absurd hins.split hn) fun _ => ?_)
    refine wp_bind (wp_release (by simp [hpins₁]) (wp_bind (wp_release (by simp [hpins₁])
      (wp_pure ⟨rfl, ?_⟩))))
    have hins' : TreeInserted spec recs 0 t f t.addr sp ⟨c', none, n⟩ entry s'
        ((f₁.release t.addr).release 0) := hins.release.release
    refine ⟨sep, _, _, rfl, ?_⟩
    rw [hg]
    exact hrep.insert_none hD he hne hg hins' (by simp [hpins₁])
  · rw [hg] at hins
    have hne' : entry.addr ≠ -1 := by
      have hpages := Tree.insert_pages e sep sp.new hrep.occ
      rw [hg] at hpages
      have hr : r.addr ∈ (Grown.pages ⟨c', some (x, r), n⟩ : Multiset Int) :=
        List.mem_append_right _ r.addr_mem_pages
      rw [hpages, Multiset.coe_add] at hr
      have hv := ((hrep.owns.new hrep.ctl.wf n).used r.addr hr).1.1.1
      rw [hins.split.1]
      exact fun e => absurd hv (by rw [show r.addr = -1 from e]; decide)
    refine wp_bind (wp_when (fun _ => ?_) fun hn => absurd hne' hn)
    refine (wp_bTreeGrow hins.ctl hct₁ fun h => ?_).mono ?_
    · have := hbd h
      rw [hins.keeps.load]
      omega
    rintro _ _ ⟨f₂, rfl, hsp, hnew⟩
    have hpins₂ : f₂.pins = t.addr ::ₘ 0 ::ₘ 0 := hsp.keeps.pins.trans hpins₁
    refine wp_bind (wp_release (by simp [hpins₂]) (wp_bind (wp_release (by simp [hpins₂])
      (wp_pure ⟨rfl, ?_⟩))))
    refine ⟨sep, _, _, rfl, ?_⟩
    rw [hg]
    exact hrep.insert_some hD he hne hg hins hsp hnew rfl rfl (by simp [hpins₂])

/-- **`b_tree_insert`** puts the row in its place. -/
theorem wp_bTreeInsert (hD : 1 ≤ D) (hrep : IndexRep spec recs t sp f s)
    (he : recs e.1 = some e.2) (hne : ∀ x ∈ rowsOf t.flat, x.2 ≠ e.2)
    (hbd : bd → h + 3 ≤ cachePage) :
    wp (flatSem bd) (procBody D H) (bTreeInsert D i e.1)
      (fun r st => r = e.1 ∧ IndexInserted spec recs sp (rowsOf t.flat) e st)
      (Function.update s i f) := by
  refine (wp_bTreeInsert_on hD hrep.on he hne hbd).mono fun r st hr => ?_
  obtain ⟨rfl, sep, f', s', rfl, hon⟩ := hr
  refine ⟨rfl, _, _, _, f', s', rfl, hon.rep ?_, ?_⟩
  · refine (hrep.tiles.new hrep.ctl.wf _).perm ?_
    rw [← Multiset.coe_add]
    exact (Tree.pages_whole_insert hrep.occ e sep sp.new).symm
  · rw [Grown.flat_whole]
    exact (Tree.insert_rows e sep sp.new hD hrep.occ hrep.sorted hne).2

end Root

end MyJQL
