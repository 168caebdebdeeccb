import MyJQL.BTree.Rep

/-!
# Siblings in an index

What `tree_delete` does to a child with a row too few and to a sibling of it.

* `Tree.RootAt mem t`: the root of `t` is stored;
* `Siblings`: an inner node on page `p`, its child on page `x` and a sibling of the child on page
  `y`;
* `Took`: two neighbours have shared their rows anew; `Joined`: the left one has taken over the
  right one, whose page is free;
* **`wp_leafRight`**, **`wp_leafLeft`**, **`wp_innerRight`**, **`wp_innerLeft`**: the four
  functions.
-/

set_option linter.unusedSimpArgs false

namespace MyJQL

variable {h : ℕ} {K : Type}

theorem FlatPool.Keeps.put {f f' : FlatPool} {a : Int} {page : Page} (h : f.Keeps f') :
    f.Keeps (f'.put a page) := h.trans FlatPool.keeps_put

/-! ## Roots -/

/-- The root of a tree is stored. -/
def Tree.RootAt (mem : Int → Page) : ∀ {h : ℕ}, Tree Int RID K h → Prop
  | 0, t => LeafAt mem (Leaf.addr t) (Leaf.next t) (names (Leaf.rows t))
  | _ + 1, t => InnerAt mem (Inner.addr t) (names (Inner.rows t)) (addrs (Inner.kids t))

theorem Tree.Stored.rootAt {mem : Int → Page} {t : Tree Int RID K h} (ht : t.Stored mem) :
    t.RootAt mem := by
  cases h with
  | zero => exact ht
  | succ h => exact ht.1

variable {bd : Bool} {D : ℕ} {H : Handlers} {i : PoolId} [LinearOrder K]
  {spec : HandlerSpec D H i K} {recs : Records K} {R : Multiset (RID × K)} {st : Flat}
  {f f' : FlatPool} {root p x y : Int} {sp : Space} {ct pt bt j m : ℕ} {pb xb yb : BNode}
  {ps : List RID} {ks : List Int} {a b : Tree Int RID K h} {s : RID × K}
  {q : Tree Int RID K h × (RID × K) × Tree Int RID K h}

/-- An inner node, its child, and a sibling of the child. -/
structure Siblings (f : FlatPool) (root : Int) (sp : Space) (ct pt bt : ℕ) (p x y : Int)
    (pb xb yb : BNode) : Prop where
  ctl : f.Ctl root sp
  ctrl : f.Held ct 0
  parent : f.Held pt p
  child : f.Held bt x
  pb : f.mem p = .bNode pb
  xb : f.mem x = .bNode xb
  yb : f.mem y = .bNode yb
  owns : sp.Owns [p, x, y]

/-- Two neighbours, the subtrees `j` and `j + 1` of the node on page `p`, have become `q`. -/
structure Took (spec : HandlerSpec D H i K) (recs : Records K) (R : Multiset (RID × K))
    (f : FlatPool) (root : Int) (sp : Space) (p : Int) (ps : List RID) (ks : List Int) (j : ℕ)
    (q : Tree Int RID K h × (RID × K) × Tree Int RID K h) (s' : Flat) (f' : FlatPool) : Prop where
  ctl : f'.Ctl root sp
  parent : InnerAt f'.mem p (ps.set j q.2.1.1) ks
  left : q.1.RootAt f'.mem
  right : q.2.2.RootAt f'.mem
  frame : ∀ c, c ≠ p → c ≠ q.1.addr → c ≠ q.2.2.addr → f'.mem c = f.mem c
  keeps : f.Keeps f'
  inv : spec.Inv recs (sepsOf (q.1.pairFlat q.2.1 q.2.2) + R) s'

/-- Two neighbours have become `a`; the page `y` is free, and the separator `s` is left over. -/
structure Joined (spec : HandlerSpec D H i K) (recs : Records K) (R : Multiset (RID × K))
    (f : FlatPool) (root : Int) (sp : Space) (s : RID × K) (a : Tree Int RID K h) (y : Int)
    (s' : Flat) (f' : FlatPool) : Prop where
  ctl : f'.Ctl root (sp.give [y])
  tree : a.RootAt f'.mem
  frame : ∀ c, c ≠ 0 → c ≠ a.addr → c ≠ y → f'.mem c = f.mem c
  keeps : f.Keeps f'
  inv : spec.Inv recs (s ::ₘ (sepsOf a.flat + R)) s'

theorem Space.Owns.distinct (ho : sp.Owns [p, x, y]) :
    (p ≠ x ∧ p ≠ y ∧ x ≠ y) ∧ p ≠ 0 ∧ x ≠ 0 ∧ y ≠ 0 := by
  have hnd := ho.nodup
  simp only [List.nodup_cons, List.mem_cons, List.not_mem_nil, or_false, not_or] at hnd
  exact ⟨⟨hnd.1.1, hnd.1.2, hnd.2.1⟩, (ho.used p (by simp)).2, (ho.used x (by simp)).2,
    (ho.used y (by simp)).2⟩

theorem Space.Owns.swap (ho : sp.Owns [p, x, y]) : sp.Owns [p, y, x] :=
  ho.perm (Multiset.coe_eq_coe.mpr (List.Perm.cons _ (List.Perm.swap ..)))

theorem FlatPool.Ctl.frame (hc : f.Ctl root sp) (ho : sp.Owns [p, x, y])
    (hl : f'.length = f.length) (hm : ∀ c, c ≠ p → c ≠ x → c ≠ y → f'.mem c = f.mem c) :
    f'.Ctl root sp := by
  obtain ⟨-, hp0, hx0, hy0⟩ := ho.distinct
  refine hc.congr hl (hm 0 hp0.symm hx0.symm hy0.symm) fun c hcm => hm c ?_ ?_ ?_
  all_goals
    rintro rfl
    exact (ho.used c (by simp)).1.2 hcm

/-- A page given back after its node was taken over. -/
theorem FlatPool.Ctl.absorb (hc : f.Ctl root sp) (ho : sp.Owns [p, x, y])
    (hl : f'.length = f.length) (h0 : f'.mem 0 = .bCtrl ⟨root, y⟩)
    (hy : ∃ b, f'.mem y = .bNode b ∧ b.next = sp.free.headD (-1))
    (hm : ∀ c, c ≠ 0 → c ≠ x → c ≠ y → f'.mem c = f.mem c) : f'.Ctl root (sp.give [y]) := by
  have hy' : sp.Owns [y] := ho.sublist (List.sublist_append_right [p, x] [y])
  refine hc.give hy' hl h0 hy fun c hcm => hm c (hc.wf.valid c hcm).2 ?_ ?_
  all_goals
    rintro rfl
    exact (ho.used c (by simp)).1.2 hcm

theorem Siblings.get (hs : Siblings f root sp ct pt bt p x y pb xb yb) (c : Int) :
    Siblings (f.get c) root sp ct pt bt p x y pb xb yb :=
  ⟨hs.ctl.congr rfl rfl fun _ _ => rfl, hs.ctrl.get, hs.parent.get, hs.child.get, hs.pb, hs.xb,
    hs.yb, hs.owns⟩

theorem Took.release {c : Int} {s' : Flat}
    (h : Took spec recs R (f.get c) root sp p ps ks j q s' f') :
    Took spec recs R f root sp p ps ks j q s' (f'.release c) :=
  ⟨h.ctl.congr rfl rfl fun _ _ => rfl, h.parent, h.left, h.right, h.frame, h.keeps.bracket, h.inv⟩

theorem Joined.release {c : Int} {s' : Flat}
    (h : Joined spec recs R (f.get c) root sp s a y s' f') :
    Joined spec recs R f root sp s a y s' (f'.release c) :=
  ⟨h.ctl.congr rfl rfl fun _ _ => rfl, h.tree, h.frame, h.keeps.bracket, h.inv⟩

/-- What `tree_delete` answers when two neighbours have shared their rows or have been joined. -/
def Repaired (spec : HandlerSpec D H i K) (recs : Records K) (R : Multiset (RID × K))
    (f : FlatPool) (root : Int) (sp : Space) (p : Int) (ps : List RID) (ks : List Int) (j : ℕ)
    (s : RID × K) (q : RID → Tree Int RID K h × (RID × K) × Tree Int RID K h)
    (a : RID → Tree Int RID K h) (y : Int) (more : Prop) (old : RID) (st : Flat) : Prop :=
  ∃ sep s' f', st = Function.update s' i f' ∧
    ((more ∧ old.blockAddr = -1 ∧ Took spec recs R f root sp p ps ks j (q sep) s' f') ∨
      (¬ more ∧ old = s.1 ∧ Joined spec recs R f root sp s (a sep) y s' f'))

/-- The sibling is released: it is child `n` of the node on page `p`. -/
theorem Repaired.release {q : RID → Tree Int RID K h × (RID × K) × Tree Int RID K h}
    {a : RID → Tree Int RID K h} {more : Prop} {old : RID} {c : Int} {n : ℕ}
    (hr : Repaired spec recs R (f.get c) root sp p ps ks j s q a y more old st)
    (hpar : f.Held pt p) (hp : InnerAt f.mem p ps ks) (hc : ks[n]? = some c)
    (hd : p ≠ 0 ∧ (∀ sep, p ≠ (a sep).addr) ∧ p ≠ y) :
    wp (flatSem bd) (procBody D H)
      (do release i ((← PagePtr.bNode ⟨i, pt⟩).child n)
          return old)
      (Repaired spec recs R f root sp p ps ks j s q a y more) st := by
  obtain ⟨sep, s', f', rfl, ⟨hm, ho, hq⟩ | ⟨hm, ho, hq⟩⟩ := hr
  · obtain ⟨b, hb, -, -, hk⟩ := hq.parent
    refine wp_bind (wp_bNode (hq.keeps.held _ _ hpar.get).live hb ?_)
    rw [BNode.child_eq hk hc]
    exact wp_bind (wp_release hq.keeps.mem_pins (wp_pure
      ⟨sep, s', _, rfl, Or.inl ⟨hm, ho, hq.release⟩⟩))
  · obtain ⟨b, hb, -, -, hk⟩ := hp
    have hb' : f'.mem p = .bNode b := (hq.frame p hd.1 (hd.2.1 sep) hd.2.2).trans hb
    refine wp_bind (wp_bNode (hq.keeps.held _ _ hpar.get).live hb' ?_)
    rw [BNode.child_eq hk hc]
    exact wp_bind (wp_release hq.keeps.mem_pins (wp_pure
      ⟨sep, s', _, rfl, Or.inr ⟨hm, ho, hq.release⟩⟩))

/-! ## Leaves -/

omit [LinearOrder K] in
theorem seps_pairFlat_leaf {a b : Tree Int RID K 0} :
    (sepsOf (a.pairFlat s b) : Multiset (RID × K)) + R = s ::ₘ R := by
  simp [Tree.pairFlat, seps_flat_leaf]

/-- A leaf has taken the first row of its right sibling. -/
theorem Siblings.took_leafRight {a b : Tree Int RID K 0} {d : ℕ} {sep : RID} {v w : RID × K}
    {rows : List (RID × K)} (hs : Siblings f root sp ct pt bt p a.addr b.addr pb xb yb)
    (hp : pb.leaf = false) (hxl : xb.leaf = true) (hxn : xb.next = Leaf.next a)
    (hxr : xb.n = d + 1) (hm : m < d + 1) (ha : xb.rows.eraseIdx m = names (Leaf.rows a))
    (hyl : yb.leaf = true) (hyn : yb.next = Leaf.next b) (hr : Leaf.rows b = v :: w :: rows)
    (hb : yb.rows = names (v :: w :: rows)) (hinv : spec.Inv recs ((sep, w.2) ::ₘ R) st) :
    Took spec recs R f root sp p pb.rows pb.kids j (a.fromRight sep s b) st
      ((((f.put a.addr (.bNode { xb with rowPtr := shiftLeft (m + 1) d xb.rowPtr })).put a.addr
        (.bNode (BNode.setRow d v.1 { xb with rowPtr := shiftLeft (m + 1) d xb.rowPtr }))).put b.addr
          (.bNode yb.dropFirstRow)).put p (.bNode (pb.setRow j sep))) := by
  obtain ⟨⟨hpx, hpy, hxy⟩, -, -, -⟩ := hs.owns.distinct
  simp only [Tree.fromRight_zero hr]
  refine ⟨hs.ctl.frame hs.owns rfl fun c h1 h2 h3 => by simp [h1, h2, h3], ?_, ?_, ?_,
    fun c h1 h2 h3 => ?_, ?_, ?_⟩
  · exact ⟨_, Function.update_self .., hp, BNode.rows_setRow, rfl⟩
  · refine ⟨_, (Function.update_of_ne hpx.symm _ _).trans ((Function.update_of_ne hxy _ _).trans
      (Function.update_self ..)), hxl, hxn, (BNode.rows_leafPush hxr hm).trans ?_⟩
    rw [ha]
    simp [names]
  · exact ⟨_, (Function.update_of_ne hpy.symm _ _).trans (Function.update_self ..), hyl, hyn,
      BNode.rows_dropFirstRow.trans (congrArg List.tail hb)⟩
  · have h2 : c ≠ a.addr := h2
    have h3 : c ≠ b.addr := h3
    simp [h1, h2, h3]
  · exact (FlatPool.Keeps.refl _).put.put.put.put
  · rw [seps_pairFlat_leaf]
    exact hinv

/-- A leaf has absorbed its right sibling. -/
theorem Siblings.joined_leafRight {a b : Tree Int RID K 0} {d : ℕ} {sep : RID}
    (hs : Siblings f root sp ct pt bt p a.addr b.addr pb xb yb)
    (hinv : spec.Inv recs (s ::ₘ R) st) (hxl : xb.leaf = true) (hxr : xb.n = d + 1)
    (hm : m < d + 1) (ha : xb.rows.eraseIdx m = names (Leaf.rows a)) (hyn : yb.next = Leaf.next b)
    (hyr : yb.n = d + 1) (hb : yb.rows = names (Leaf.rows b)) :
    Joined spec recs R f root sp s (a.merge sep s b) b.addr st
      (((((f.put a.addr (.bNode { xb with rowPtr := shiftLeft (m + 1) d xb.rowPtr })).put a.addr
        (.bNode { xb with
          rowPtr := fill d (2 * (d + 1) - 1) (fun i => yb.rowPtr (i + 1 - (d + 1)))
            (shiftLeft (m + 1) d xb.rowPtr) })).put a.addr
        (.bNode { xb with
          rowPtr := fill d (2 * (d + 1) - 1) (fun i => yb.rowPtr (i + 1 - (d + 1)))
            (shiftLeft (m + 1) d xb.rowPtr)
          next := yb.next
          n := 2 * (d + 1) - 1 })).put b.addr
        (.bNode { yb with next := sp.free.headD (-1) })).put 0 (.bCtrl ⟨root, b.addr⟩)) := by
  obtain ⟨⟨-, -, hxy⟩, -, hx0, hy0⟩ := hs.owns.distinct
  refine ⟨hs.ctl.absorb hs.owns rfl ?_ ⟨_, (Function.update_of_ne hy0 _ _).trans
      (Function.update_self ..), rfl⟩ fun c h1 h2 h3 => by simp [h1, h2, h3],
    ⟨_, (Function.update_of_ne hx0 _ _).trans ((Function.update_of_ne hxy _ _).trans
      (Function.update_self ..)), hxl, hyn, (BNode.rows_leafAppend hxr hyr hm).trans ?_⟩,
    fun c h1 h2 h3 => ?_, ?_, ?_⟩
  · simp
  · rw [ha, hb]
    exact List.map_append.symm
  · have h2 : c ≠ a.addr := h2
    simp [h1, h2, h3]
  · exact (FlatPool.Keeps.refl _).put.put.put.put.put
  · rw [seps_flat_leaf]
    simpa using hinv

/-- **A leaf and its right sibling.** -/
theorem wp_leafRight {a b : Tree Int RID K 0}
    (hs : Siblings f root sp ct pt bt p a.addr b.addr pb xb yb)
    (hinv : spec.Inv recs (s ::ₘ R) st) (hp : pb.leaf = false) (hps : pb.rowPtr j = s.1)
    (hj : j < pb.n) (hpk : pb.child (j + 1) = b.addr) (hxl : xb.leaf = true)
    (hxn : xb.next = Leaf.next a)
    (hxr : xb.n = D) (hm : m < D) (ha : xb.rows.eraseIdx m = names (Leaf.rows a))
    (hyl : yb.leaf = true) (hyn : yb.next = Leaf.next b) (hb : yb.rows = names (Leaf.rows b))
    (hbD : D ≤ b.rows.length) (hlive : ∀ e ∈ Leaf.rows b, recs e.1 = some e.2)
    (hbd : bd → f.load + 1 ≤ cachePage) :
    wp (flatSem bd) (procBody D H) (treeDeleteLeafRight D H i ⟨i, ct⟩ ⟨i, pt⟩ ⟨i, bt⟩ (m + 1) j)
      (Repaired spec recs R f root sp p pb.rows pb.kids j s (fun sep => a.fromRight sep s b)
        (fun sep => a.merge sep s b) b.addr (D < b.rows.length)) (Function.update st i f) := by
  obtain ⟨⟨hpx, hpy, hxy⟩, hp0, hx0, hy0⟩ := hs.owns.distinct
  have hyu := (hs.owns.used b.addr (by simp)).1
  have hbn : b.rows.length = yb.n := Keyed.length_of hb
  obtain ⟨d, rfl⟩ : ∃ d, D = d + 1 := ⟨D - 1, by omega⟩
  have hy := FlatPool.held_get_self (f := f) (a := b.addr)
  refine wp_bind (wp_bNode hs.parent.live hs.pb ?_)
  rw [hpk]
  refine wp_bind (wp_getPage (hs.ctl.used hyu) (fun h => FlatPool.fits_of_load (hbd h)) ?_)
  refine wp_bind (wp_setBNode hs.child.get.live hs.xb ?_)
  refine wp_bind (wp_bNode hy.put.live (x := yb) (by simp [hxy.symm, hs.yb]) ?_)
  refine wp.seq (R := Repaired spec recs R (f.get b.addr) root sp p pb.rows pb.kids j s
    (fun sep => a.fromRight sep s b) (fun sep => a.merge sep s b) b.addr (d + 1 < b.rows.length))
    (wp_ite (fun hlt => ?_) fun hge => ?_) fun old st' hst => ?_
  · -- the first row of the sibling
    obtain ⟨v, w, rows, hr⟩ : ∃ v w rows, Leaf.rows b = v :: w :: rows := by
      rcases hr : Leaf.rows b with _ | ⟨v, _ | ⟨w, rows⟩⟩
      · have : b.rows.length = 0 := congrArg List.length hr
        omega
      · have : b.rows.length = 1 := congrArg List.length hr
        omega
      · exact ⟨v, w, rows, rfl⟩
    rw [hr] at hb
    have hv : yb.rowPtr 0 = v.1 := BNode.rowPtr_eq hb rfl
    have hw : yb.dropFirstRow.rowPtr 0 = w.1 :=
      BNode.rowPtr_eq (BNode.rows_dropFirstRow.trans (congrArg List.tail hb)) rfl
    refine wp_bind (wp_bNode hy.put.live (x := yb) (by simp [hxy.symm, hs.yb]) ?_)
    refine wp_bind (wp_setBNode hs.child.get.put.live
      (x := { xb with rowPtr := shiftLeft (m + 1) d xb.rowPtr }) (by simp) ?_)
    refine wp_bind (wp_setBNode hy.put.put.live (x := yb) (by simp [hxy.symm, hs.yb]) ?_)
    refine wp_bind (wp_bNode hs.parent.get.put.put.put.live (x := pb) (by simp [hpx, hpy, hs.pb]) ?_)
    rw [hps]
    refine wp_bind (spec.wp_deleteHandler hinv fun s₁ hs₁ => ?_)
    refine wp_bind (wp_bNode hy.put.put.put.live (x := yb.dropFirstRow) (by simp) ?_)
    rw [hw, hv]
    refine wp_bind (spec.wp_insertHandler hs₁ (x := w) (hlive w (by simp [hr]))
      fun sep s₂ hs₂ => ?_)
    refine wp_bind (wp_setBNode hs.parent.get.put.put.put.live (x := pb) (by simp [hpx, hpy, hs.pb]) ?_)
    refine wp_pure ⟨sep, s₂, _, rfl, Or.inl ⟨by omega, rfl, ?_⟩⟩
    exact (hs.get _).took_leafRight hp hxl hxn hxr hm ha hyl hyn hr hb hs₂
  · -- the sibling is absorbed
    have hyr : yb.n = d + 1 := by omega
    have hl := hs.ctl.ctrl
    refine wp_bind (wp_bNode hy.put.live (x := yb) (by simp [hxy.symm, hs.yb]) ?_)
    refine wp_bind (wp_setBNode hs.child.get.put.live
      (x := { xb with rowPtr := shiftLeft (m + 1) d xb.rowPtr }) (by simp) ?_)
    refine wp_bind (wp_bNode hs.parent.get.put.put.live (x := pb) (by simp [hpx, hs.pb]) ?_)
    rw [hps]
    refine wp_bind (wp_bNode hy.put.put.live (x := yb) (by simp [hxy.symm, hs.yb]) ?_)
    refine wp_bind (wp_bCtrl hs.ctrl.get.put.put.live (x := ⟨root, sp.free.headD (-1)⟩)
      (by simp [hx0.symm, hl]) ?_)
    refine wp_bind (wp_setBNode hs.child.get.put.put.live (x := { xb with
      rowPtr := fill d (2 * (d + 1) - 1) (fun i => yb.rowPtr (i + 1 - (d + 1)))
        (shiftLeft (m + 1) d xb.rowPtr) }) (by simp) ?_)
    refine wp_bind (wp_setBNode hy.put.put.put.live (x := yb) (by simp [hxy.symm, hs.yb]) ?_)
    refine wp_bind (wp_bNode hs.parent.get.put.put.put.put.live (x := pb)
      (by simp [hpx, hpy, hs.pb]) ?_)
    rw [hpk]
    refine wp_bind (wp_setBCtrl hs.ctrl.get.put.put.put.put.live
      (x := ⟨root, sp.free.headD (-1)⟩) (by simp [hx0.symm, hy0.symm, hl]) ?_)
    refine wp_pure ⟨RID.null, _, _, rfl, Or.inr ⟨by omega, rfl, ?_⟩⟩
    exact (hs.get _).joined_leafRight hinv hxl hxr hm ha hyn hyr hb
  · refine hst.release hs.parent ⟨pb, hs.pb, hp, rfl, rfl⟩ ?_ ⟨hp0, fun sep => ?_, hpy⟩
    · rw [BNode.getElem?_kids, if_pos (by omega), hpk]
    · rw [Tree.merge_addr]
      exact hpx

omit [LinearOrder K] in
theorem BNode.last_row {rows : List (RID × K)} {v : RID × K} (hb : xb.rows = names (rows ++ [v])) :
    xb.rowPtr (xb.n - 1) = v.1 ∧ xb.rows.dropLast = names rows := by
  have hn : rows.length + 1 = xb.n := by simpa using Keyed.length_of hb
  refine ⟨BNode.rowPtr_eq hb ?_, by rw [hb]; simp [names]⟩
  rw [← hn]
  simp [names]

/-- A leaf has taken the last row of its left sibling. -/
theorem Siblings.took_leafLeft {a b : Tree Int RID K 0} {sep : RID} {v : RID × K}
    {rows : List (RID × K)} (hs : Siblings f root sp ct pt bt p b.addr a.addr pb xb yb)
    (hp : pb.leaf = false) (hxl : xb.leaf = true) (hxn : xb.next = Leaf.next b) (hxr : xb.n = D)
    (hm : m < D) (hb : xb.rows.eraseIdx m = names (Leaf.rows b)) (hyl : yb.leaf = true)
    (hyn : yb.next = Leaf.next a) (hr : Leaf.rows a = rows ++ [v])
    (ha : yb.rows.dropLast = names rows) (hinv : spec.Inv recs ((sep, v.2) ::ₘ R) st) :
    Took spec recs R f root sp p pb.rows pb.kids j (a.fromLeft sep s b) st
      ((((f.put b.addr (.bNode { xb with rowPtr := pullRight 0 (m + 1) xb.rowPtr })).put b.addr
        (.bNode (BNode.setRow 0 v.1 { xb with rowPtr := pullRight 0 (m + 1) xb.rowPtr }))).put a.addr
          (.bNode yb.dropLastRow)).put p (.bNode (pb.setRow j sep))) := by
  obtain ⟨⟨hpx, hpy, hxy⟩, -, -, -⟩ := hs.owns.distinct
  simp only [Tree.fromLeft_zero hr]
  refine ⟨hs.ctl.frame hs.owns rfl fun c h1 h2 h3 => by simp [h1, h2, h3], ?_, ?_, ?_,
    fun c h1 h2 h3 => ?_, ?_, ?_⟩
  · exact ⟨_, Function.update_self .., hp, BNode.rows_setRow, rfl⟩
  · exact ⟨_, (Function.update_of_ne hpy.symm _ _).trans (Function.update_self ..), hyl, hyn,
      BNode.rows_dropLastRow.trans ha⟩
  · refine ⟨_, (Function.update_of_ne hpx.symm _ _).trans ((Function.update_of_ne hxy _ _).trans
      (Function.update_self ..)), hxl, hxn, (BNode.rows_leafUnshift hxr hm).trans ?_⟩
    rw [hb]
    simp [names]
  · have h2 : c ≠ a.addr := h2
    have h3 : c ≠ b.addr := h3
    simp [h1, h2, h3]
  · exact (FlatPool.Keeps.refl _).put.put.put.put
  · rw [seps_pairFlat_leaf]
    exact hinv

/-- A last leaf has been absorbed by its left sibling. -/
theorem Siblings.joined_leafLeft {a b : Tree Int RID K 0} {sep : RID}
    (hs : Siblings f root sp ct pt bt p b.addr a.addr pb xb yb)
    (hinv : spec.Inv recs (s ::ₘ R) st) (hxn : xb.next = Leaf.next b) (hxr : xb.n = D) (hm : m < D)
    (hb : xb.rows.eraseIdx m = names (Leaf.rows b)) (hyl : yb.leaf = true) (hyr : yb.n = D)
    (ha : yb.rows = names (Leaf.rows a)) :
    Joined spec recs R f root sp s (a.merge sep s b) b.addr st
      (((((f.put b.addr (.bNode { xb with rowPtr := pullRight 0 (m + 1) xb.rowPtr })).put a.addr
        (.bNode { yb with
          rowPtr := fill D (2 * D - 1) (fun i => pullRight 0 (m + 1) xb.rowPtr (i - D + 1))
            yb.rowPtr })).put a.addr
        (.bNode { yb with
          rowPtr := fill D (2 * D - 1) (fun i => pullRight 0 (m + 1) xb.rowPtr (i - D + 1))
            yb.rowPtr
          next := xb.next
          n := 2 * D - 1 })).put b.addr
        (.bNode { xb with
          rowPtr := pullRight 0 (m + 1) xb.rowPtr
          next := sp.free.headD (-1) })).put 0 (.bCtrl ⟨root, b.addr⟩)) := by
  obtain ⟨⟨-, -, hxy⟩, -, hx0, hy0⟩ := hs.owns.distinct
  refine ⟨hs.ctl.absorb hs.owns.swap rfl ?_ ⟨_, (Function.update_of_ne hx0 _ _).trans
      (Function.update_self ..), rfl⟩ fun c h1 h2 h3 => by simp [h1, h2, h3],
    ⟨_, (Function.update_of_ne hy0 _ _).trans ((Function.update_of_ne hxy.symm _ _).trans
      (Function.update_self ..)), hyl, hxn, (BNode.rows_leafMerge hxr hyr hm).trans ?_⟩,
    fun c h1 h2 h3 => ?_, ?_, ?_⟩
  · simp
  · rw [ha, hb]
    exact List.map_append.symm
  · have h2 : c ≠ a.addr := h2
    simp [h1, h2, h3]
  · exact (FlatPool.Keeps.refl _).put.put.put.put.put
  · rw [seps_flat_leaf]
    simpa using hinv

/-- **A last leaf and its left sibling.** -/
theorem wp_leafLeft {a b : Tree Int RID K 0}
    (hs : Siblings f root sp ct pt bt p b.addr a.addr pb xb yb)
    (hinv : spec.Inv recs (s ::ₘ R) st) (hp : pb.leaf = false) (hps : pb.rowPtr j = s.1)
    (hj : j < pb.n) (hpk : pb.child j = a.addr ∧ pb.child (j + 1) = b.addr) (hxl : xb.leaf = true)
    (hxn : xb.next = Leaf.next b) (hxr : xb.n = D) (hm : m < D)
    (hb : xb.rows.eraseIdx m = names (Leaf.rows b)) (hyl : yb.leaf = true)
    (hyn : yb.next = Leaf.next a) (ha : yb.rows = names (Leaf.rows a)) (haD : D ≤ a.rows.length)
    (hlive : ∀ e ∈ Leaf.rows a, recs e.1 = some e.2) (hbd : bd → f.load + 1 ≤ cachePage) :
    wp (flatSem bd) (procBody D H)
      (treeDeleteLeafLeft D H i ⟨i, ct⟩ ⟨i, pt⟩ ⟨i, bt⟩ (m + 1) (j + 1))
      (Repaired spec recs R f root sp p pb.rows pb.kids j s (fun sep => a.fromLeft sep s b)
        (fun sep => a.merge sep s b) b.addr (D < a.rows.length)) (Function.update st i f) := by
  obtain ⟨⟨hpx, hpy, hxy⟩, hp0, hx0, hy0⟩ := hs.owns.distinct
  have hyu := (hs.owns.used a.addr (by simp)).1
  have han : a.rows.length = yb.n := Keyed.length_of ha
  have hy := FlatPool.held_get_self (f := f) (a := a.addr)
  refine wp_bind (wp_bNode hs.parent.live hs.pb ?_)
  rw [Nat.add_sub_cancel, hpk.1]
  refine wp_bind (wp_getPage (hs.ctl.used hyu) (fun h => FlatPool.fits_of_load (hbd h)) ?_)
  refine wp_bind (wp_setBNode hs.child.get.live hs.xb ?_)
  refine wp_bind (wp_bNode hy.put.live (x := yb) (by simp [hxy.symm, hs.yb]) ?_)
  refine wp.seq (R := Repaired spec recs R (f.get a.addr) root sp p pb.rows pb.kids j s
    (fun sep => a.fromLeft sep s b) (fun sep => a.merge sep s b) b.addr (D < a.rows.length))
    (wp_ite (fun hlt => ?_) fun hge => ?_) fun old st' hst => ?_
  · -- the last row of the sibling
    obtain ⟨rows, v, hr⟩ : ∃ rows v, Leaf.rows a = rows ++ [v] :=
      ⟨_, _, (List.dropLast_append_getLast (List.ne_nil_of_length_pos (show 0 < a.rows.length by
        omega))).symm⟩
    obtain ⟨hv, hd⟩ := BNode.last_row (hr ▸ ha)
    refine wp_bind (wp_bNode hy.put.live (x := yb) (by simp [hxy.symm, hs.yb]) ?_)
    refine wp_bind (wp_setBNode hs.child.get.put.live
      (x := { xb with rowPtr := pullRight 0 (m + 1) xb.rowPtr }) (by simp) ?_)
    refine wp_bind (wp_setBNode hy.put.put.live (x := yb) (by simp [hxy.symm, hs.yb]) ?_)
    refine wp_bind (wp_bNode hs.parent.get.put.put.put.live (x := pb) (by simp [hpx, hpy, hs.pb]) ?_)
    rw [hps]
    refine wp_bind (spec.wp_deleteHandler hinv fun s₁ hs₁ => ?_)
    rw [hv]
    refine wp_bind (wp_bNode hs.child.get.put.put.put.live
      (x := BNode.setRow 0 v.1 { xb with rowPtr := pullRight 0 (m + 1) xb.rowPtr })
      (by simp [hxy]) ?_)
    rw [BNode.rowPtr_setRow]
    refine wp_bind (spec.wp_insertHandler hs₁ (x := v) (hlive v (by simp [hr]))
      fun sep s₂ hs₂ => ?_)
    refine wp_bind (wp_setBNode hs.parent.get.put.put.put.live (x := pb) (by simp [hpx, hpy, hs.pb]) ?_)
    refine wp_pure ⟨sep, s₂, _, rfl, Or.inl ⟨by omega, rfl, ?_⟩⟩
    exact (hs.get _).took_leafLeft hp hxl hxn hxr hm hb hyl hyn hr hd hs₂
  · -- the leaf is absorbed
    have hyr : yb.n = D := by omega
    have hl := hs.ctl.ctrl
    refine wp_bind (wp_bNode hs.child.get.put.live
      (x := { xb with rowPtr := pullRight 0 (m + 1) xb.rowPtr }) (by simp) ?_)
    refine wp_bind (wp_setBNode hy.put.live (x := yb) (by simp [hxy.symm, hs.yb]) ?_)
    refine wp_bind (wp_bNode hs.parent.get.put.put.live (x := pb) (by simp [hpx, hpy, hs.pb]) ?_)
    rw [hps]
    refine wp_bind (wp_bNode hs.child.get.put.put.live
      (x := { xb with rowPtr := pullRight 0 (m + 1) xb.rowPtr }) (by simp [hxy]) ?_)
    refine wp_bind (wp_bCtrl hs.ctrl.get.put.put.live (x := ⟨root, sp.free.headD (-1)⟩)
      (by simp [hx0.symm, hy0.symm, hl]) ?_)
    refine wp_bind (wp_setBNode hy.put.put.live (x := { yb with
      rowPtr := fill D (2 * D - 1) (fun i => pullRight 0 (m + 1) xb.rowPtr (i - D + 1)) yb.rowPtr })
      (by simp) ?_)
    refine wp_bind (wp_setBNode hs.child.get.put.put.put.live
      (x := { xb with rowPtr := pullRight 0 (m + 1) xb.rowPtr }) (by simp [hxy]) ?_)
    refine wp_bind (wp_bNode hs.parent.get.put.put.put.put.live (x := pb)
      (by simp [hpx, hpy, hs.pb]) ?_)
    rw [hpk.2]
    refine wp_bind (wp_setBCtrl hs.ctrl.get.put.put.put.put.live
      (x := ⟨root, sp.free.headD (-1)⟩) (by simp [hx0.symm, hy0.symm, hl]) ?_)
    refine wp_pure ⟨RID.null, _, _, rfl, Or.inr ⟨by omega, rfl, ?_⟩⟩
    exact (hs.get _).joined_leafLeft hinv hxn hxr hm hb hyl hyr ha
  · refine hst.release hs.parent ⟨pb, hs.pb, hp, rfl, rfl⟩ ?_ ⟨hp0, fun sep => ?_, hpx⟩
    · rw [BNode.getElem?_kids, if_pos (by omega), hpk.1]
    · rw [Tree.merge_addr]
      exact hpy

/-! ## Inner nodes -/

omit [LinearOrder K] in
theorem seps_merge {a b : Tree Int RID K (h + 1)} {m' : ℕ} {sep : RID} (ha : a.Occ D m)
    (hb : b.Occ D m') : (s ::ₘ (sepsOf (a.merge sep s b).flat + R) : Multiset (RID × K)) =
      (sep, s.2) ::ₘ (sepsOf (a.pairFlat s b) + R) := by
  rw [Tree.merge_flat_succ ha hb]
  simp only [Tree.pairFlat, sepsOf_append, sepsOf_sep, ← Multiset.coe_add, ← Multiset.cons_coe,
    ← Multiset.singleton_add]
  abel

/-- An inner node has taken, through its parent, the first entry of its right sibling. -/
theorem Siblings.took_innerRight {a b : Tree Int RID K (h + 1)} {m' : ℕ} {v : RID × K}
    {rows : List (RID × K)} {c : Tree Int RID K h} {kids : List (Tree Int RID K h)}
    (hs : Siblings f root sp ct pt bt p a.addr b.addr pb xb yb)
    (hinv : spec.Inv recs (sepsOf (a.pairFlat s b) + R) st) (hp : pb.leaf = false)
    (hxl : xb.leaf = false) (ha : xb.rows = names (Inner.rows a))
    (hak : xb.kids = addrs (Inner.kids a)) (hyl : yb.leaf = false) (hr : Inner.rows b = v :: rows)
    (hk : Inner.kids b = c :: kids) (hb : yb.rows = names (v :: rows))
    (hbk : yb.kids = addrs (c :: kids)) (hlt : D < b.rows.length) (hao : a.Occ D m)
    (hbo : b.Occ D m') :
    Took spec recs R f root sp p pb.rows pb.kids j (a.fromRight RID.null s b) st
      (((f.put a.addr (.bNode { xb with
        rowPtr := Function.update xb.rowPtr xb.n s.1
        child := Function.update xb.child (xb.n + 1) c.addr
        n := xb.n + 1 })).put p (.bNode (pb.setRow j v.1))).put b.addr
          (.bNode yb.dropFirstChild)) := by
  obtain ⟨⟨hpx, hpy, hxy⟩, -, -, -⟩ := hs.owns.distinct
  have hflat := Tree.fromRight_flat_succ RID.null s hao hbo hlt
  have hn : rows.length + 1 = yb.n := by simpa using Keyed.length_of hb
  simp only [Tree.fromRight_succ hr hk] at hflat ⊢
  obtain ⟨hpr, hpk'⟩ := BNode.innerPush (b := xb)
  refine ⟨hs.ctl.frame hs.owns rfl fun c h1 h2 h3 => by simp [h1, h2, h3], ?_, ?_, ?_,
    fun c h1 h2 h3 => ?_, ?_, ?_⟩
  · exact ⟨_, (Function.update_of_ne hpy _ _).trans (Function.update_self ..), hp,
      BNode.rows_setRow, rfl⟩
  · refine ⟨_, (Function.update_of_ne hxy _ _).trans ((Function.update_of_ne hpx.symm _ _).trans
      (Function.update_self ..)), hxl, hpr.trans ?_, hpk'.trans ?_⟩
    · rw [ha]
      simp [names]
    · rw [hak]
      simp [addrs]
  · exact ⟨_, Function.update_self .., hyl, BNode.rows_dropFirstChild.trans (congrArg List.tail hb),
      (BNode.kids_dropFirstChild (hn ▸ Nat.succ_pos _)).trans (congrArg List.tail hbk)⟩
  · have h2 : c ≠ a.addr := h2
    have h3 : c ≠ b.addr := h3
    simp [h1, h2, h3]
  · exact (FlatPool.Keeps.refl _).put.put.put
  · rw [hflat]
    exact hinv

/-- An inner node has absorbed its right sibling. -/
theorem Siblings.joined_innerRight {a b : Tree Int RID K (h + 1)} {m' : ℕ} {sep : RID}
    (hs : Siblings f root sp ct pt bt p a.addr b.addr pb xb yb)
    (hinv : spec.Inv recs ((sep, s.2) ::ₘ (sepsOf (a.pairFlat s b) + R)) st)
    (hxl : xb.leaf = false) (ha : xb.rows = names (Inner.rows a))
    (hak : xb.kids = addrs (Inner.kids a)) (hb : yb.rows = names (Inner.rows b))
    (hbk : yb.kids = addrs (Inner.kids b)) (hxr : xb.n + 1 = D) (hyr : yb.n = D) (hao : a.Occ D m)
    (hbo : b.Occ D m') :
    Joined spec recs R f root sp s (a.merge sep s b) b.addr st
      (((f.put a.addr (.bNode { xb with
        rowPtr := fill D (2 * D) (fun i => yb.rowPtr (i - D)) (Function.update xb.rowPtr xb.n sep)
        child := fill D (2 * D + 1) (fun i => yb.child (i - D)) xb.child
        next := yb.next
        n := 2 * D })).put b.addr (.bNode { yb with next := sp.free.headD (-1) })).put 0
          (.bCtrl ⟨root, b.addr⟩)) := by
  obtain ⟨⟨-, -, hxy⟩, -, hx0, hy0⟩ := hs.owns.distinct
  obtain ⟨hpr, hpk'⟩ := BNode.innerAppend (b := xb) (s := yb) hxr hyr
  refine ⟨hs.ctl.absorb hs.owns rfl ?_ ⟨_, (Function.update_of_ne hy0 _ _).trans
      (Function.update_self ..), rfl⟩ fun c h1 h2 h3 => by simp [h1, h2, h3],
    ⟨_, (Function.update_of_ne hx0 _ _).trans ((Function.update_of_ne hxy _ _).trans
      (Function.update_self ..)), hxl, hpr.trans ?_, hpk'.trans ?_⟩,
    fun c h1 h2 h3 => ?_, ?_, ?_⟩
  · simp
  · rw [ha, hb]
    simp [names, Tree.merge]
  · rw [hak, hbk]
    exact List.map_append.symm
  · have h2 : c ≠ a.addr := h2
    simp [h1, h2, h3]
  · exact (FlatPool.Keeps.refl _).put.put.put
  · rw [seps_merge hao hbo]
    exact hinv

/-- **An inner node and its right sibling.** -/
theorem wp_innerRight {a b : Tree Int RID K (h + 1)} {m' : ℕ}
    (hs : Siblings f root sp ct pt bt p a.addr b.addr pb xb yb)
    (hinv : spec.Inv recs (sepsOf (a.pairFlat s b) + R) st) (hp : pb.leaf = false)
    (hps : pb.rowPtr j = s.1) (hj : j < pb.n) (hpk : pb.child (j + 1) = b.addr)
    (hxl : xb.leaf = false) (ha : xb.rows = names (Inner.rows a))
    (hak : xb.kids = addrs (Inner.kids a)) (hyl : yb.leaf = false)
    (hb : yb.rows = names (Inner.rows b)) (hbk : yb.kids = addrs (Inner.kids b))
    (haD : a.rows.length + 1 = D) (hbD : D ≤ b.rows.length) (hao : a.Occ D m) (hbo : b.Occ D m')
    (hbd : bd → f.load + 1 ≤ cachePage) :
    wp (flatSem bd) (procBody D H) (treeDeleteInnerRight D H i ⟨i, ct⟩ ⟨i, pt⟩ ⟨i, bt⟩ j)
      (Repaired spec recs R f root sp p pb.rows pb.kids j s (fun sep => a.fromRight sep s b)
        (fun sep => a.merge sep s b) b.addr (D < b.rows.length)) (Function.update st i f) := by
  obtain ⟨⟨hpx, hpy, hxy⟩, hp0, hx0, hy0⟩ := hs.owns.distinct
  have hyu := (hs.owns.used b.addr (by simp)).1
  have han : a.rows.length = xb.n := Keyed.length_of ha
  have hbn : b.rows.length = yb.n := Keyed.length_of hb
  have hy := FlatPool.held_get_self (f := f) (a := b.addr)
  refine wp_bind (wp_bNode hs.parent.live hs.pb ?_)
  rw [hpk]
  refine wp_bind (wp_getPage (hs.ctl.used hyu) (fun h => FlatPool.fits_of_load (hbd h)) ?_)
  refine wp_bind (wp_bNode hy.live hs.yb ?_)
  refine wp.seq (R := Repaired spec recs R (f.get b.addr) root sp p pb.rows pb.kids j s
    (fun sep => a.fromRight sep s b) (fun sep => a.merge sep s b) b.addr (D < b.rows.length))
    (wp_ite (fun hlt => ?_) fun hge => ?_) fun old st' hst => ?_
  · -- the separator comes down, and the first row of the sibling goes up
    obtain ⟨v, rows, hr⟩ : ∃ v rows, Inner.rows b = v :: rows :=
      List.exists_cons_of_length_pos (show 0 < b.rows.length by omega)
    obtain ⟨c, kids, hk⟩ : ∃ c kids, Inner.kids b = c :: kids :=
      List.exists_cons_of_length_eq_add_one hbo.2.1
    rw [hr] at hb
    rw [hk] at hbk
    have hv : yb.rowPtr 0 = v.1 := BNode.rowPtr_eq hb rfl
    have hc : yb.child 0 = c.addr := BNode.child_eq hbk rfl
    refine wp_bind (wp_bNode hs.parent.get.live hs.pb (wp_bind (wp_bNode hy.live hs.yb ?_)))
    rw [hps, hv, hc]
    refine wp_bind (wp_setBNode hs.child.get.live hs.xb ?_)
    refine wp_bind (wp_setBNode hs.parent.get.put.live (x := pb) (by simp [hpx, hs.pb]) ?_)
    refine wp_bind (wp_setBNode hy.put.put.live (x := yb) (by simp [hxy.symm, hpy.symm, hs.yb]) ?_)
    refine wp_pure ⟨RID.null, st, _, rfl, Or.inl ⟨by omega, rfl, ?_⟩⟩
    exact (hs.get _).took_innerRight hinv hp hxl ha hak hyl hr hk hb hbk (by omega) hao hbo
  · -- the sibling is absorbed
    have hyr : yb.n = D := by omega
    have hl := hs.ctl.ctrl
    refine wp_bind (wp_bNode hs.parent.get.live hs.pb (wp_bind (wp_bNode hs.parent.get.live hs.pb ?_)))
    rw [hps]
    refine wp_bind (spec.wp_copyHandler hinv (x := s) ?_ fun sep s₁ hs₁ => ?_)
    · simp [IsKey, Tree.pairFlat]
    refine wp_bind (wp_bNode hy.live hs.yb (wp_bind (wp_setBNode hs.child.get.live hs.xb ?_)))
    refine wp_bind (wp_bCtrl hs.ctrl.get.put.live (x := ⟨root, sp.free.headD (-1)⟩)
      (by simp [hx0.symm, hl]) ?_)
    refine wp_bind (wp_setBNode hy.put.live (x := yb) (by simp [hxy.symm, hs.yb]) ?_)
    refine wp_bind (wp_bNode hs.parent.get.put.put.live (x := pb) (by simp [hpx, hpy, hs.pb]) ?_)
    rw [hpk]
    refine wp_bind (wp_setBCtrl hs.ctrl.get.put.put.live
      (x := ⟨root, sp.free.headD (-1)⟩) (by simp [hx0.symm, hy0.symm, hl]) ?_)
    refine wp_pure ⟨sep, s₁, _, rfl, Or.inr ⟨by omega, rfl, ?_⟩⟩
    exact (hs.get _).joined_innerRight hs₁ hxl ha hak hb hbk (by omega) hyr hao hbo
  · refine hst.release hs.parent ⟨pb, hs.pb, hp, rfl, rfl⟩ ?_ ⟨hp0, fun sep => ?_, hpy⟩
    · rw [BNode.getElem?_kids, if_pos (by omega), hpk]
    · rw [Tree.merge_addr]
      exact hpx

omit [LinearOrder K] in
theorem BNode.last_child {rows : List (RID × K)} {v : RID × K} {kids : List (Tree Int RID K h)}
    {c : Tree Int RID K h} (hb : xb.rows = names (rows ++ [v])) (hk : xb.kids = addrs (kids ++ [c])) :
    xb.rowPtr (xb.n - 1) = v.1 ∧ xb.child xb.n = c.addr ∧ xb.rows.dropLast = names rows ∧
      xb.kids.dropLast = addrs kids := by
  have hn : rows.length + 1 = xb.n := by simpa using Keyed.length_of hb
  have hl : kids.length = xb.n := by
    have h := congrArg List.length hk
    simpa using h.symm
  obtain ⟨hv, hd⟩ := BNode.last_row hb
  refine ⟨hv, BNode.child_eq hk ?_, hd, by rw [hk]; simp [addrs]⟩
  rw [← hl]
  simp [addrs]

/-- A last inner node has taken, through its parent, the last entry of its left sibling. -/
theorem Siblings.took_innerLeft {a b : Tree Int RID K (h + 1)} {m' : ℕ} {v : RID × K}
    {rows : List (RID × K)} {c : Tree Int RID K h} {kids : List (Tree Int RID K h)}
    (hs : Siblings f root sp ct pt bt p b.addr a.addr pb xb yb)
    (hinv : spec.Inv recs (sepsOf (a.pairFlat s b) + R) st) (hp : pb.leaf = false)
    (hxl : xb.leaf = false) (hb : xb.rows = names (Inner.rows b))
    (hbk : xb.kids = addrs (Inner.kids b)) (hyl : yb.leaf = false) (hr : Inner.rows a = rows ++ [v])
    (hk : Inner.kids a = kids ++ [c]) (ha : yb.rows.dropLast = names rows)
    (hak : yb.kids.dropLast = addrs kids) (hxr : xb.n + 1 = D) (hn : 0 < yb.n)
    (hlt : D < a.rows.length) (hao : a.Occ D m) (hbo : b.Occ D m') :
    Took spec recs R f root sp p pb.rows pb.kids j (a.fromLeft RID.null s b) st
      (((f.put b.addr (.bNode { xb with
        rowPtr := Function.update (pullRight 0 D xb.rowPtr) 0 s.1
        child := Function.update (pullRight 0 (D + 1) xb.child) 0 c.addr
        n := xb.n + 1 })).put p (.bNode (pb.setRow j v.1))).put a.addr
          (.bNode yb.dropLastChild)) := by
  obtain ⟨⟨hpx, hpy, hxy⟩, -, -, -⟩ := hs.owns.distinct
  have hflat := Tree.fromLeft_flat_succ RID.null s hao hbo hlt
  simp only [Tree.fromLeft_succ hr hk] at hflat ⊢
  obtain ⟨hpr, hpk'⟩ := BNode.innerUnshift (b := xb) hxr
  refine ⟨hs.ctl.frame hs.owns rfl fun c h1 h2 h3 => by simp [h1, h2, h3], ?_, ?_, ?_,
    fun c h1 h2 h3 => ?_, ?_, ?_⟩
  · exact ⟨_, (Function.update_of_ne hpy _ _).trans (Function.update_self ..), hp,
      BNode.rows_setRow, rfl⟩
  · exact ⟨_, Function.update_self .., hyl, BNode.rows_dropLastChild.trans ha,
      (BNode.kids_dropLastChild hn).trans hak⟩
  · refine ⟨_, (Function.update_of_ne hxy _ _).trans ((Function.update_of_ne hpx.symm _ _).trans
      (Function.update_self ..)), hxl, hpr.trans ?_, hpk'.trans ?_⟩
    · rw [hb]
      simp [names]
    · rw [hbk]
      simp [addrs]
  · have h2 : c ≠ a.addr := h2
    have h3 : c ≠ b.addr := h3
    simp [h1, h2, h3]
  · exact (FlatPool.Keeps.refl _).put.put.put
  · rw [hflat]
    exact hinv

/-- A last inner node has been absorbed by its left sibling. -/
theorem Siblings.joined_innerLeft {a b : Tree Int RID K (h + 1)} {m' : ℕ} {sep : RID}
    (hs : Siblings f root sp ct pt bt p b.addr a.addr pb xb yb)
    (hinv : spec.Inv recs ((sep, s.2) ::ₘ (sepsOf (a.pairFlat s b) + R)) st)
    (hb : xb.rows = names (Inner.rows b)) (hbk : xb.kids = addrs (Inner.kids b))
    (hyl : yb.leaf = false) (ha : yb.rows = names (Inner.rows a))
    (hak : yb.kids = addrs (Inner.kids a)) (hxr : xb.n + 1 = D) (hyr : yb.n = D) (hao : a.Occ D m)
    (hbo : b.Occ D m') :
    Joined spec recs R f root sp s (a.merge sep s b) b.addr st
      (((f.put a.addr (.bNode { yb with
        rowPtr := fill (D + 1) (2 * D) (fun i => xb.rowPtr (i - D - 1))
          (Function.update yb.rowPtr D sep)
        child := fill (D + 1) (2 * D + 1) (fun i => xb.child (i - D - 1)) yb.child
        next := xb.next
        n := 2 * D })).put b.addr (.bNode { xb with next := sp.free.headD (-1) })).put 0
          (.bCtrl ⟨root, b.addr⟩)) := by
  obtain ⟨⟨-, -, hxy⟩, -, hx0, hy0⟩ := hs.owns.distinct
  obtain ⟨hpr, hpk'⟩ := BNode.innerMerge (b := xb) (s := yb) hxr hyr
  refine ⟨hs.ctl.absorb hs.owns.swap rfl ?_ ⟨_, (Function.update_of_ne hx0 _ _).trans
      (Function.update_self ..), rfl⟩ fun c h1 h2 h3 => by simp [h1, h2, h3],
    ⟨_, (Function.update_of_ne hy0 _ _).trans ((Function.update_of_ne hxy.symm _ _).trans
      (Function.update_self ..)), hyl, hpr.trans ?_, hpk'.trans ?_⟩,
    fun c h1 h2 h3 => ?_, ?_, ?_⟩
  · simp
  · rw [ha, hb]
    simp [names, Tree.merge]
  · rw [hak, hbk]
    exact List.map_append.symm
  · have h2 : c ≠ a.addr := h2
    simp [h1, h2, h3]
  · exact (FlatPool.Keeps.refl _).put.put.put
  · rw [seps_merge hao hbo]
    exact hinv

/-- **A last inner node and its left sibling.** -/
theorem wp_innerLeft {a b : Tree Int RID K (h + 1)} {m' : ℕ}
    (hs : Siblings f root sp ct pt bt p b.addr a.addr pb xb yb)
    (hinv : spec.Inv recs (sepsOf (a.pairFlat s b) + R) st) (hp : pb.leaf = false)
    (hps : pb.rowPtr j = s.1) (hj : j < pb.n)
    (hpk : pb.child j = a.addr ∧ pb.child (j + 1) = b.addr)
    (hxl : xb.leaf = false) (hb : xb.rows = names (Inner.rows b))
    (hbk : xb.kids = addrs (Inner.kids b)) (hyl : yb.leaf = false)
    (ha : yb.rows = names (Inner.rows a)) (hak : yb.kids = addrs (Inner.kids a))
    (haD : D ≤ a.rows.length) (hbD : b.rows.length + 1 = D) (hao : a.Occ D m) (hbo : b.Occ D m')
    (hbd : bd → f.load + 1 ≤ cachePage) :
    wp (flatSem bd) (procBody D H) (treeDeleteInnerLeft D H i ⟨i, ct⟩ ⟨i, pt⟩ ⟨i, bt⟩ (j + 1))
      (Repaired spec recs R f root sp p pb.rows pb.kids j s (fun sep => a.fromLeft sep s b)
        (fun sep => a.merge sep s b) b.addr (D < a.rows.length)) (Function.update st i f) := by
  obtain ⟨⟨hpx, hpy, hxy⟩, hp0, hx0, hy0⟩ := hs.owns.distinct
  have hyu := (hs.owns.used a.addr (by simp)).1
  have han : a.rows.length = yb.n := Keyed.length_of ha
  have hbn : b.rows.length = xb.n := Keyed.length_of hb
  have hy := FlatPool.held_get_self (f := f) (a := a.addr)
  refine wp_bind (wp_bNode hs.parent.live hs.pb ?_)
  rw [Nat.add_sub_cancel, hpk.1]
  refine wp_bind (wp_getPage (hs.ctl.used hyu) (fun h => FlatPool.fits_of_load (hbd h)) ?_)
  refine wp_bind (wp_bNode hy.live hs.yb ?_)
  refine wp.seq (R := Repaired spec recs R (f.get a.addr) root sp p pb.rows pb.kids j s
    (fun sep => a.fromLeft sep s b) (fun sep => a.merge sep s b) b.addr (D < a.rows.length))
    (wp_ite (fun hlt => ?_) fun hge => ?_) fun old st' hst => ?_
  · -- the separator comes down, and the last row of the sibling goes up
    obtain ⟨rows, v, hr⟩ : ∃ rows v, Inner.rows a = rows ++ [v] :=
      ⟨_, _, (List.dropLast_append_getLast (List.ne_nil_of_length_pos (show 0 < a.rows.length by
        omega))).symm⟩
    obtain ⟨kids, c, hk⟩ : ∃ kids c, Inner.kids a = kids ++ [c] :=
      ⟨_, _, (List.dropLast_append_getLast (List.ne_nil_of_length_eq_add_one hao.2.1)).symm⟩
    obtain ⟨hv, hc, hd, hdk⟩ := BNode.last_child (hr ▸ ha) (hk ▸ hak)
    refine wp_bind (wp_bNode hs.parent.get.live hs.pb (wp_bind (wp_bNode hy.live hs.yb ?_)))
    rw [hps, hv, hc]
    refine wp_bind (wp_setBNode hs.child.get.live hs.xb ?_)
    refine wp_bind (wp_setBNode hs.parent.get.put.live (x := pb) (by simp [hpx, hs.pb]) ?_)
    refine wp_bind (wp_setBNode hy.put.put.live (x := yb) (by simp [hxy.symm, hpy.symm, hs.yb]) ?_)
    refine wp_pure ⟨RID.null, st, _, rfl, Or.inl ⟨by omega, rfl, ?_⟩⟩
    exact (hs.get _).took_innerLeft hinv hp hxl hb hbk hyl hr hk hd hdk (by omega) (by omega)
      (by omega) hao hbo
  · -- the node is absorbed
    have hyr : yb.n = D := by omega
    have hl := hs.ctl.ctrl
    refine wp_bind (wp_bNode hs.parent.get.live hs.pb (wp_bind (wp_bNode hs.parent.get.live hs.pb ?_)))
    rw [hps]
    refine wp_bind (spec.wp_copyHandler hinv (x := s) ?_ fun sep s₁ hs₁ => ?_)
    · simp [IsKey, Tree.pairFlat]
    refine wp_bind (wp_bNode hs.child.get.live hs.xb (wp_bind (wp_setBNode hy.live hs.yb ?_)))
    refine wp_bind (wp_bCtrl hs.ctrl.get.put.live (x := ⟨root, sp.free.headD (-1)⟩)
      (by simp [hy0.symm, hl]) ?_)
    refine wp_bind (wp_setBNode hs.child.get.put.live (x := xb) (by simp [hxy, hs.xb]) ?_)
    refine wp_bind (wp_bNode hs.parent.get.put.put.live (x := pb) (by simp [hpx, hpy, hs.pb]) ?_)
    rw [hpk.2]
    refine wp_bind (wp_setBCtrl hs.ctrl.get.put.put.live
      (x := ⟨root, sp.free.headD (-1)⟩) (by simp [hx0.symm, hy0.symm, hl]) ?_)
    refine wp_pure ⟨sep, s₁, _, rfl, Or.inr ⟨by omega, rfl, ?_⟩⟩
    exact (hs.get _).joined_innerLeft hs₁ hb hbk hyl ha hak (by omega) hyr hao hbo
  · refine hst.release hs.parent ⟨pb, hs.pb, hp, rfl, rfl⟩ ?_ ⟨hp0, fun sep => ?_, hpx⟩
    · rw [BNode.getElem?_kids, if_pos (by omega), hpk.1]
    · rw [Tree.merge_addr]
      exact hpy

end MyJQL
