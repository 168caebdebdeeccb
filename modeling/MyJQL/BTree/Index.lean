import MyJQL.BTree.Insert
import MyJQL.BTree.Root
import MyJQL.BTree.Search
import MyJQL.HashMap.Multimap
import MyJQL.Lib.BPlusTree.Shape

/-!
# The index over whole runs

* `Mapped.leafRids m`: the `RID`s in the leaves, as the pages of the pool `m` have them;
* `TreeReach spec recs t`: the machines reached from `b_tree_init` by insertions of absent keys,
  deletions of present rows, searches, and steps of the caller that keep the index;
* `TreeHeld`: the machine holds an index; **`TreeReach.held`**: every machine reached does;
* **`bTree_shape`**, **`bTree_contents`**, **`bTree_pages`**: the shape, the contents and the pages
  of every index reached.
-/

set_option linter.unusedSimpArgs false

namespace MyJQL

variable {D : ℕ} {H : Handlers} {i : PoolId} {K : Type} [LinearOrder K] {h : ℕ}
  {spec : HandlerSpec D H i K} {recs recs' : Records K} {s s' : Flat} {f : FlatPool} {sp : Space}
  {t t' : Machine} {mem : Int → Page} {r : RID} {k : K} {e : RID × K}

/-! ## The leaves -/

/-- The `RID`s in the leaves below page `a`, from left to right. -/
def leafRids (mem : Int → Page) : ℕ → Int → List RID
  | 0, _ => []
  | n + 1, a =>
    if (mem a).toBNode.leaf then (mem a).toBNode.rows
    else (mem a).toBNode.kids.flatMap (leafRids mem n)

/-- The `RID`s in the leaves, as the pages of the pool have them. -/
def Mapped.leafRids (m : Mapped) : List RID :=
  MyJQL.leafRids m.pool.view (m.pool.file.length / pageSize).toNat
    (m.pool.view 0).toBCtrl.rootNode

omit [LinearOrder K] in
theorem Tree.Stored.leafRids : ∀ {h n : ℕ} {t : Tree Int RID K h}, t.Stored mem → h < n →
    leafRids mem n t.addr = names (t.leaves.flatMap Leaf.rows)
  | _, 0, _ => fun _ hn => absurd hn (Nat.not_lt_zero _)
  | 0, n + 1, t => fun ⟨b, hb, hl, _, hr⟩ _ => by
    change MyJQL.leafRids mem (n + 1) (Leaf.addr t) = _
    rw [MyJQL.leafRids, hb]
    simp only [Page.toBNode, hl, if_true]
    exact hr.trans (congrArg names (List.flatMap_singleton ..).symm)
  | h + 1, n + 1, t => fun ⟨⟨b, hb, hl, _, hk⟩, hst⟩ hn => by
    change MyJQL.leafRids mem (n + 1) (Inner.addr t) = _
    rw [MyJQL.leafRids, hb]
    simp only [Page.toBNode, hl, Bool.false_eq_true, if_false, hk]
    have hkids : ∀ ks : List (Tree Int RID K h), (∀ c ∈ ks, c.Stored mem) →
        (addrs ks).flatMap (MyJQL.leafRids mem n) =
          names ((ks.flatMap Tree.leaves).flatMap Leaf.rows) := fun ks hks => by
      induction ks with
      | nil => rfl
      | cons c ks ih =>
        rw [addrs, List.map_cons, List.flatMap_cons,
          (hks c List.mem_cons_self).leafRids (Nat.lt_of_succ_lt_succ hn),
          ih fun d hd => hks d (List.mem_cons_of_mem _ hd), List.flatMap_cons, List.flatMap_append]
        exact (List.map_append ..).symm
    exact hkids _ hst

/-! ## What the machine holds -/

/-- The machine `t` holds an index with the tree `tr`. -/
structure TreeHeld (spec : HandlerSpec D H i K) (recs : Records K) (tr : Tree Int RID K h)
    (sp : Space) (s : Flat) (t : Machine) : Prop where
  holds : Holds s t
  rep : IndexRep spec.toInsertSpec recs tr sp (s i) s

section Held

variable {tr : Tree Int RID K h}

theorem Holds.view (hs : Holds s t) {a : Int} (ha : a ≠ -1) : (t i).pool.view a = (s i).mem a := by
  obtain ⟨L, hL⟩ := hs i
  exact (hL.mem a ha).symm

theorem Holds.length (hs : Holds s t) : (t i).pool.file.length = (s i).length := by
  obtain ⟨L, hL⟩ := hs i
  exact hL.length.symm

theorem Space.Valid.ne_null {a : Int} (ha : sp.Valid a) : a ≠ -1 := by
  have := ha.1
  omega

theorem TreeHeld.stored (ht : TreeHeld spec recs tr sp s t) : tr.Stored (t i).pool.view :=
  ht.rep.stored.congr fun a ha => ht.holds.view (ht.rep.tiles.used a ha).1.1.ne_null

theorem TreeHeld.ctrl (ht : TreeHeld spec recs tr sp s t) :
    (t i).pool.view 0 = .bCtrl ⟨tr.addr, sp.free.headD (-1)⟩ :=
  (ht.holds.view (by decide)).trans ht.rep.ctl.ctrl

/-- **The leaves of the pool** have the rows of the tree. -/
theorem TreeHeld.leafRids (ht : TreeHeld spec recs tr sp s t) :
    (t i).leafRids = names (rowsOf tr.flat) := by
  rw [Mapped.leafRids, ht.ctrl, Tree.rows_leaves ht.rep.occ]
  refine ht.stored.leafRids ((Tree.height_lt_pages ht.rep.occ).trans_le ?_)
  have hlen := ht.rep.ctl.length
  rw [ht.holds.length, hlen]
  refine length_le_of_pages ht.rep.tiles.nodup (fun a ha => ?_) ht.rep.ctl.wf.len.2
  exact (ht.rep.tiles.used a ha).1.1

theorem TreeHeld.recs_leafRids (ht : TreeHeld spec recs tr sp s t) {r : RID}
    (hr : r ∈ (t i).leafRids) : ∃ k, recs r = some k ∧ (r, k) ∈ rowsOf tr.flat := by
  rw [ht.leafRids] at hr
  obtain ⟨x, hx, rfl⟩ := List.mem_map.mp hr
  exact ⟨x.2, ht.rep.live x hx, hx⟩

theorem TreeHeld.absent (ht : TreeHeld spec recs tr sp s t)
    (hn : ∀ r ∈ (t i).leafRids, recs r ≠ some k) : ∀ x ∈ rowsOf tr.flat, x.2 ≠ k := by
  rintro x hx rfl
  refine hn x.1 ?_ (ht.rep.live x hx)
  rw [ht.leafRids]
  exact List.mem_map_of_mem hx

theorem IndexRep.held {f : FlatPool} (hrep : IndexRep spec.toInsertSpec recs tr sp f s)
    (hs : Holds (Function.update s i f) t) :
    TreeHeld spec recs tr sp (Function.update s i f) t := by
  refine ⟨hs, ?_⟩
  rw [Function.update_self]
  exact ⟨hrep.ctl, hrep.stored, hrep.tiles, hrep.occ, hrep.sorted, hrep.linked, hrep.live,
    spec.frame hrep.inv, hrep.pins⟩

theorem TreeHeld.run {α : Type} {p : M α} {Q : α → Flat → Prop} {b : α}
    (ht : TreeHeld spec recs tr sp s t)
    (hw : wp (flatSem false) (procBody D H) p Q (Function.update s i (s i)))
    (hr : Returns machineSem (procBody D H) p t b t') :
    ∃ s', Holds s' t' ∧ Q b s' ∧ Returns checkedSem (procBody D H) p t b t' := by
  rw [Function.update_eq_self] at hw
  exact hw.of_machine ht.holds hr

/-- **An insertion**, if it returns. -/
theorem TreeHeld.insert (hD : 2 ≤ D) (ht : TreeHeld spec recs tr sp s t) (hk : recs r = some k)
    (hn : ∀ r' ∈ (t i).leafRids, recs r' ≠ some k) {b : RID}
    (hr : Returns machineSem (procBody D H) (bTreeInsert D i r) t b t') :
    Returns checkedSem (procBody D H) (bTreeInsert D i r) t b t' ∧
      ∃ (h' : ℕ) (tr' : Tree Int RID K h') (sp' : Space) (s' : Flat),
        TreeHeld spec recs tr' sp' s' t' ∧
        rowsOf tr'.flat = (rowsOf tr.flat).orderedInsert (fun a b => a.2 ≤ b.2) (r, k) := by
  obtain ⟨s', hs', ⟨-, h', tr', n, f', s₁, rfl, hrep, hrows⟩, hc⟩ := ht.run
    (wp_bTreeInsert (e := (r, k)) (by omega) ht.rep hk (ht.absent hn) nofun) hr
  exact ⟨hc, h', tr', _, _, hrep.held hs', hrows⟩

/-- **A deletion**, if it returns. -/
theorem TreeHeld.delete (hD : 2 ≤ D) (ht : TreeHeld spec recs tr sp s t)
    (hm : (r, k) ∈ rowsOf tr.flat)
    (hr : Returns machineSem (procBody D H) (bTreeDelete H i r) t () t') :
    Returns checkedSem (procBody D H) (bTreeDelete H i r) t () t' ∧
      ∃ (h' : ℕ) (tr' : Tree Int RID K h') (sp' : Space) (s' : Flat),
        TreeHeld spec recs tr' sp' s' t' ∧
        ∃ l l', rowsOf tr.flat = l ++ (r, k) :: l' ∧ rowsOf tr'.flat = l ++ l' := by
  obtain ⟨s', hs', ⟨h', tr', freed, f', s₁, rfl, hrep, hrows⟩, hc⟩ := ht.run
    (wp_bTreeDelete (e := (r, k)) hD ht.rep hm nofun) hr
  exact ⟨hc, h', tr', _, _, hrep.held hs', hrows⟩

/-- **A search**, if it returns. -/
theorem TreeHeld.search (hD : 2 ≤ D) (ht : TreeHeld spec recs tr sp s t) {key : ℕ → Byte}
    {size : ℕ} {b : RID}
    (hr : Returns machineSem (procBody D H) (bTreeSearch i key size) t b t') :
    Returns checkedSem (procBody D H) (bTreeSearch i key size) t b t' ∧
      b = lookup (rowsOf tr.flat) (spec.keyOf key size) ∧
      ∃ s', TreeHeld spec recs tr sp s' t' := by
  obtain ⟨s', hs', ⟨hb, s₁, f', rfl, hrep⟩, hc⟩ := ht.run
    (wp_bTreeSearch (by omega) ht.rep nofun) hr
  exact ⟨hc, hb, _, hrep.held hs'⟩

end Held

/-! ## Runs -/

/-- **The machines reached** from `b_tree_init` on an absent file by insertions of rows with absent
keys, deletions of rows that are present, searches, and steps of the caller, which keep the index
and the keys of its rows. -/
inductive TreeReach (spec : HandlerSpec D H i K) : Records K → Machine → Prop
  | init {recs : Records K} {t : Machine} {s : Flat} (hi : t i = Mapped.new (bTreeInit D none))
      (hs : Holds s t) (hinv : spec.Inv recs 0 s) : TreeReach spec recs t
  | insert {recs : Records K} {t t' : Machine} {r b : RID} {k : K} (ht : TreeReach spec recs t)
      (hk : recs r = some k) (hn : ∀ r' ∈ (t i).leafRids, recs r' ≠ some k)
      (hr : Returns machineSem (procBody D H) (bTreeInsert D i r) t b t') : TreeReach spec recs t'
  | delete {recs : Records K} {t t' : Machine} {r : RID} (ht : TreeReach spec recs t)
      (hm : r ∈ (t i).leafRids)
      (hr : Returns machineSem (procBody D H) (bTreeDelete H i r) t () t') : TreeReach spec recs t'
  | search {recs : Records K} {t t' : Machine} {key : ℕ → Byte} {size : ℕ} {b : RID}
      (ht : TreeReach spec recs t)
      (hr : Returns machineSem (procBody D H) (bTreeSearch i key size) t b t') :
      TreeReach spec recs t'
  | caller {recs recs' : Records K} {t t' : Machine} (ht : TreeReach spec recs t) (hi : t' i = t i)
      (hrecs : ∀ r ∈ (t i).leafRids, recs' r = recs r)
      (hc : ∀ S s, Holds s t → spec.Inv recs S s →
        ∃ s', Holds s' t' ∧ s' i = s i ∧ spec.Inv recs' S s') : TreeReach spec recs' t'

/-- The first index: one empty leaf. -/
def emptyTree : Tree Int RID K 0 := (⟨pageSize, -1, []⟩ : Leaf Int RID K)

variable (spec) in
/-- **`b_tree_init`** makes an empty index. -/
theorem TreeHeld.init (hi : t i = Mapped.new (bTreeInit D none)) (hs : Holds s t)
    (hinv : spec.Inv recs 0 s) :
    TreeHeld spec recs (emptyTree : Tree Int RID K 0) ⟨[], 2 * pageSize⟩ s t := by
  obtain ⟨L, hL⟩ := hs i
  have hmem : ∀ a ≠ -1, (s i).mem a = (bTreeInit D none).file.data a := fun a ha => by
    rw [hL.mem a ha, hi]
    exact BufferPool.view_new rfl ha
  have hpins : (s i).pins = 0 := by
    refine Multiset.eq_zero_of_forall_notMem fun a ha => ?_
    have hn := (hL.wf.valid a (hL.pins a ha)).ne_null
    have hr := hL.ref a hn
    rw [hi, BufferPool.refOf, BufferPool.frameOf_new rfl hn] at hr
    exact absurd (Int.natCast_eq_zero.mp hr.symm) (Multiset.count_ne_zero.mpr ha)
  refine ⟨hs, ⟨⟨by decide, List.nodup_nil, fun a ha => absurd ha List.not_mem_nil⟩, ?_,
    hmem 0 (by decide), trivial⟩, ?_, ⟨⟨List.nodup_singleton _, fun a ha => ?_⟩, fun a ha => ?_⟩,
    ⟨le_rfl, Nat.zero_le _⟩, List.Pairwise.nil, ⟨rfl, trivial⟩,
    fun x hx => absurd hx List.not_mem_nil, hinv, hpins⟩
  · rw [hL.length, hi]
    rfl
  · exact ⟨_, hmem pageSize (by decide), rfl, rfl, rfl⟩
  · obtain rfl := List.mem_singleton.mp ha
    exact ⟨⟨⟨show (0 : Int) ≤ pageSize by decide, show pageSize < 2 * pageSize by decide,
      show pageSize % pageSize = 0 by decide⟩, List.not_mem_nil⟩, show pageSize ≠ 0 by decide⟩
  · obtain ⟨⟨h1, h2, h3⟩, -⟩ := ha
    change a < 2 * pageSize at h2
    change a = 0 ∨ a ∈ [pageSize]
    rw [List.mem_singleton]
    simp only [pageSize] at *
    omega

/-- **Every machine reached holds an index.** -/
theorem TreeReach.held (hD : 2 ≤ D) (ht : TreeReach spec recs t) :
    ∃ (h : ℕ) (tr : Tree Int RID K h) (sp : Space) (s : Flat), TreeHeld spec recs tr sp s t := by
  induction ht with
  | init hi hs hinv => exact ⟨0, emptyTree, _, _, .init spec hi hs hinv⟩
  | insert _ hk hn hr ih =>
    obtain ⟨h, tr, sp, s, ht⟩ := ih
    obtain ⟨-, h', tr', sp', s', ht', -⟩ := ht.insert hD hk hn hr
    exact ⟨h', tr', sp', s', ht'⟩
  | delete _ hm hr ih =>
    obtain ⟨h, tr, sp, s, ht⟩ := ih
    obtain ⟨k, -, hm⟩ := ht.recs_leafRids hm
    obtain ⟨-, h', tr', sp', s', ht', -⟩ := ht.delete hD hm hr
    exact ⟨h', tr', sp', s', ht'⟩
  | search _ hr ih =>
    obtain ⟨h, tr, sp, s, ht⟩ := ih
    obtain ⟨-, -, s', ht'⟩ := ht.search hD hr
    exact ⟨h, tr, sp, s', ht'⟩
  | caller _ hi hrecs hc ih =>
    obtain ⟨h, tr, sp, s, ht⟩ := ih
    obtain ⟨s', hs', hi', hinv⟩ := hc _ s ht.holds ht.rep.inv
    refine ⟨h, tr, sp, s', hs', ?_⟩
    rw [hi']
    refine ⟨ht.rep.ctl, ht.rep.stored, ht.rep.tiles, ht.rep.occ, ht.rep.sorted, ht.rep.linked,
      fun x hx => ?_, hinv, ht.rep.pins⟩
    rw [hrecs x.1 (by rw [ht.leafRids]; exact List.mem_map_of_mem hx)]
    exact ht.rep.live x hx

/-- A call of the caller that changes the index. -/
inductive TreeOp
  | insert (r : RID)
  | delete (r : RID)

/-- Allowed calls one after the other, nested at most `fuel` deep. -/
def treeRun (D : ℕ) (H : Handlers) (i : PoolId) (recs : Records K) (fuel : ℕ) :
    List TreeOp → Machine → Option Machine
  | [], t => some t
  | .insert r :: ops, t =>
    if (recs r).isSome ∧ ∀ r' ∈ (t i).leafRids, recs r' ≠ recs r then
      (run machineSem (procBody D H) fuel (bTreeInsert D i r) t).bind fun b =>
        treeRun D H i recs fuel ops b.2
    else none
  | .delete r :: ops, t =>
    if r ∈ (t i).leafRids then
      (run machineSem (procBody D H) fuel (bTreeDelete H i r) t).bind fun b =>
        treeRun D H i recs fuel ops b.2
    else none

theorem TreeReach.run {fuel : ℕ} {ops : List TreeOp} (ht : TreeReach spec recs t)
    (h : treeRun D H i recs fuel ops t = some t') : TreeReach spec recs t' := by
  induction ops generalizing t with
  | nil =>
    obtain rfl := Option.some.inj h
    exact ht
  | cons op ops ih =>
    cases op with
    | insert r =>
      rw [treeRun] at h
      split_ifs at h with hc
      obtain ⟨k, hk⟩ := Option.isSome_iff_exists.mp hc.1
      obtain ⟨⟨b, t₁⟩, h₁, h⟩ := Option.bind_eq_some_iff.mp h
      exact ih (ht.insert hk (fun r' hr' => hk ▸ hc.2 r' hr') ⟨fuel, h₁⟩) h
    | delete r =>
      rw [treeRun] at h
      split_ifs at h with hc
      obtain ⟨⟨_, t₁⟩, h₁, h⟩ := Option.bind_eq_some_iff.mp h
      exact ih (ht.delete hc ⟨fuel, h₁⟩) h

/-! ## An index of numbers -/

/-- The rows with a block, by their index. -/
def idxRecs : Records Int := fun r => if r.blockAddr = -1 then none else some r.idx

/-- What `idxSpec` keeps: separators are rows themselves. -/
def IdxInv (recs : Records Int) (S : Multiset (RID × Int)) : Prop :=
  recs = idxRecs ∧ ∀ x ∈ S, x.1.blockAddr ≠ -1 ∧ x.1.idx = x.2

theorem IdxInv.key {recs : Records Int} {S : Multiset (RID × Int)} {x : RID × Int} {leaf : Bool}
    (h : IdxInv recs S) (hx : IsKey recs S leaf x) : x.1.blockAddr ≠ -1 ∧ x.1.idx = x.2 := by
  cases leaf with
  | false => exact h.2 x hx
  | true =>
    obtain ⟨rfl, -⟩ := h
    have hx : (if x.1.blockAddr = -1 then none else some x.1.idx) = some x.2 := hx
    split_ifs at hx with hn
    exact ⟨hn, Option.some.inj hx⟩

theorem IdxInv.cons {recs : Records Int} {S : Multiset (RID × Int)} {x : RID × Int} (leaf : Bool)
    (h : IdxInv recs S) (hx : IsKey recs S leaf x) : IdxInv recs (x ::ₘ S) := by
  refine ⟨h.1, fun y hy => ?_⟩
  rcases Multiset.mem_cons.mp hy with rfl | hy
  · exact h.key hx
  · exact h.2 y hy

/-- **Rows ordered by their index.** -/
def idxSpec (D : ℕ) (i : PoolId) : HandlerSpec D idxHandlers i Int where
  keyOf p _ := (p 0).toInt
  Inv recs S _ := IdxInv recs S
  frame h := h
  ne_null h hx := (h.2 _ hx).1
  cmpRow h ha hb := wp_pure ⟨by rw [← (h.key ha).2, ← (h.key hb).2]; omega, rfl, h⟩
  cmpPtr h hb := wp_pure ⟨by rw [← (h.key hb).2]; omega, by rw [← (h.key hb).2]; omega, rfl, h⟩
  insertHandler h hx := wp_pure ⟨rfl, h.cons true hx⟩
  copyHandler h hx := wp_pure ⟨rfl, h.cons false hx⟩
  deleteHandler h := wp_pure ⟨rfl, h.1, fun y hy => h.2 y (Multiset.mem_cons_of_mem hy)⟩

/-- The machine with a new index of degree `2`. -/
def idxMachine : Machine :=
  Function.update (fun _ => Mapped.new (initBufferPool none)) .bpIdx (Mapped.new (bTreeInit 2 none))

theorem idxMachine_holds : Holds
    (Function.update (fun _ => .ofFile (openFile none).2) .bpIdx (.ofFile (bTreeInit 2 none).file))
    idxMachine :=
  Holds.update (fun _ => cached_init le_rfl) (cached_new rfl rfl rfl (by decide) (by decide))

theorem idxMachine_reach : TreeReach (idxSpec 2 .bpIdx) idxRecs idxMachine :=
  .init (Function.update_self ..) idxMachine_holds ⟨rfl, fun _ hx => absurd hx (Multiset.notMem_zero _)⟩

/-- Seven rows, the first of which is deleted: two leaves are merged. -/
def treeOps : List TreeOp :=
  (List.range 7).map (fun k => .insert ⟨0, k⟩) ++ [.delete ⟨0, 0⟩]

/-! ## Shape -/

section Results

variable {tr : Tree Int RID K h}

/-- **Every index has the shape of a B+ tree.** In every machine reached the pages hold, from the
root on, a tree whose leaves all have the same depth `h`; its nodes are on distinct pages of the
file, and are half full, ordered and bounded by their separators, whose keys are those of
`spec.Inv`. -/
theorem bTree_shape (hD : 2 ≤ D) (ht : TreeReach spec recs t) :
    ∃ (h : ℕ) (tr : Tree Int RID K h) (s : Flat), Holds s t ∧ spec.Inv recs (sepsOf tr.flat) s ∧
      (∀ x ∈ rowsOf tr.flat, recs x.1 = some x.2) ∧
      ((t i).pool.view 0).toBCtrl.rootNode = tr.addr ∧ tr.Stored (t i).pool.view ∧
      tr.pages.Nodup ∧ (∀ a ∈ tr.pages, (t i).pool.file.Valid a) ∧ tr.Shaped D (rootMin h) := by
  obtain ⟨h, tr, sp, s, ht⟩ := ht.held hD
  refine ⟨h, tr, s, ht.holds, ht.rep.inv, ht.rep.live, ?_, ht.stored, ht.rep.tiles.nodup,
    fun a ha => ?_, Tree.shaped ht.rep.occ ht.rep.sorted⟩
  · rw [ht.ctrl]
    rfl
  · rw [FileInfo.Valid, ht.holds.length]
    exact ht.rep.ctl.valid (ht.rep.tiles.used a ha).1.1

omit [LinearOrder K] in
theorem Tree.Stored.inner (hst : tr.Stored mem) (hl : (mem tr.addr).toBNode.leaf = false) :
    0 < h := by
  cases h with
  | zero =>
    obtain ⟨b, hb, hleaf, -⟩ := hst
    change (mem (Leaf.addr tr)).toBNode.leaf = false at hl
    rw [hb, Page.toBNode, hleaf] at hl
    cases hl
  | succ h => exact Nat.succ_pos h

/-- The index after the first merge, whose root is not a leaf. -/
theorem bTree_shape_inner : ∃ (t : Machine) (h : ℕ) (tr : Tree Int RID Int h),
    treeRun 2 idxHandlers .bpIdx idxRecs 20 treeOps idxMachine = some t ∧
      (t .bpIdx).leafRids.length = 6 ∧ 0 < h ∧
      ((t .bpIdx).pool.view 0).toBCtrl.rootNode = tr.addr ∧ tr.Stored (t .bpIdx).pool.view ∧
      tr.Shaped 2 (rootMin h) := by
  have hrun : (treeRun 2 idxHandlers .bpIdx idxRecs 20 treeOps idxMachine).bind (fun t =>
      some (decide ((t .bpIdx).leafRids.length = 6 ∧ ((t .bpIdx).pool.view
        ((t .bpIdx).pool.view 0).toBCtrl.rootNode).toBNode.leaf = false))) = some true := by
    decide +kernel
  obtain ⟨t, hrun, hd⟩ := Option.bind_eq_some_iff.mp hrun
  obtain ⟨hlen, hleaf⟩ := of_decide_eq_true (Option.some.inj hd)
  have hreach : TreeReach (idxSpec 2 .bpIdx) idxRecs t := idxMachine_reach.run hrun
  obtain ⟨h, tr, s, -, -, -, hroot, hst, -, -, hshape⟩ := bTree_shape le_rfl hreach
  rw [hroot] at hleaf
  exact ⟨t, h, tr, hrun, hlen, hst.inner hleaf, hroot, hst, hshape⟩

/-! ## Contents -/

/-- The rows have known keys, which increase. -/
def SortedBy (recs : Records K) (l : List RID) : Prop :=
  ∃ ks : List K, l.map recs = ks.map some ∧ ks.Pairwise (· < ·)

/-- `l'` is `l` with the row `r` put before the first greater key `k`. -/
def InsertedAt (recs : Records K) (r : RID) (k : K) (l l' : List RID) : Prop :=
  ∃ l₁ l₂, l = l₁ ++ l₂ ∧ l' = l₁ ++ r :: l₂ ∧ (∀ x ∈ l₁, ∃ k', recs x = some k' ∧ k' < k) ∧
    ∀ x ∈ l₂, ∃ k', recs x = some k' ∧ k < k'

/-- `l'` is `l` without the row `r`. -/
def RemovedFrom (r : RID) (l l' : List RID) : Prop :=
  ∃ l₁ l₂, l = l₁ ++ r :: l₂ ∧ l' = l₁ ++ l₂ ∧ r ∉ l'

/-- `b` is the row with the key `k`, or the null `RID` if there is none. -/
def FoundIn (recs : Records K) (l : List RID) (k : K) (b : RID) : Prop :=
  b ∈ l ∧ recs b = some k ∨ b = RID.null ∧ ∀ x ∈ l, recs x ≠ some k

theorem Sorted.rows {l : List (Item RID K)} (hs : Sorted l) :
    (rowsOf l).Pairwise fun a b => a.2 < b.2 := by
  have hf := List.Pairwise.sublist (List.filter_sublist (p := Prod.snd)) hs
  rw [rowsOf, List.pairwise_map]
  refine hf.imp_of_mem fun {a b} ha hb hlt => ?_
  have ha := (List.mem_filter.mp ha).2
  have hb := (List.mem_filter.mp hb).2
  obtain ⟨a, _⟩ := a
  obtain ⟨b, _⟩ := b
  cases ha
  cases hb
  exact mark_row_lt.mp hlt

theorem TreeHeld.sortedBy (ht : TreeHeld spec recs tr sp s t) : SortedBy recs (t i).leafRids := by
  refine ⟨(rowsOf tr.flat).map Prod.snd, ?_, List.pairwise_map.mpr ht.rep.sorted.rows⟩
  rw [ht.leafRids, names, List.map_map, List.map_map]
  exact List.map_congr_left fun x hx => ht.rep.live x hx

theorem TreeHeld.insertedAt {h' : ℕ} {tr' : Tree Int RID K h'} {sp' : Space}
    (ht : TreeHeld spec recs tr sp s t) (ht' : TreeHeld spec recs tr' sp' s' t')
    (hn : ∀ r' ∈ (t i).leafRids, recs r' ≠ some k)
    (hrows : rowsOf tr'.flat = (rowsOf tr.flat).orderedInsert (fun a b => a.2 ≤ b.2) (r, k)) :
    InsertedAt recs r k (t i).leafRids (t' i).leafRids := by
  have hne := ht.absent hn
  have h1 : ∀ x ∈ (rowsOf tr.flat).take (rank k (rowsOf tr.flat)), x.2 < k := fun x hx =>
    lt_of_le_of_ne (le_of_mem_take_rank hx) (hne x (List.mem_of_mem_take hx))
  have h2 : ∀ x ∈ (rowsOf tr.flat).drop (rank k (rowsOf tr.flat)), k < x.2 := fun x hx =>
    lt_of_mem_drop_rank ht.rep.sorted.rows hx
  have hsplit := List.take_append_drop (rank k (rowsOf tr.flat)) (rowsOf tr.flat)
  rw [← hsplit, orderedInsert_between h1 h2] at hrows
  refine ⟨names ((rowsOf tr.flat).take (rank k (rowsOf tr.flat))),
    names ((rowsOf tr.flat).drop (rank k (rowsOf tr.flat))), ?_, ?_, fun x hx => ?_, fun x hx => ?_⟩
  · rw [ht.leafRids]
    exact (congrArg names hsplit).symm.trans (List.map_append ..)
  · rw [ht'.leafRids, hrows]
    exact List.map_append ..
  · obtain ⟨y, hy, rfl⟩ := List.mem_map.mp hx
    exact ⟨y.2, ht.rep.live y (List.mem_of_mem_take hy), h1 y hy⟩
  · obtain ⟨y, hy, rfl⟩ := List.mem_map.mp hx
    exact ⟨y.2, ht.rep.live y (List.mem_of_mem_drop hy), h2 y hy⟩

theorem TreeHeld.foundIn (ht : TreeHeld spec recs tr sp s t) (k : K) :
    FoundIn recs (t i).leafRids k (lookup (rowsOf tr.flat) k) := by
  by_cases hk : ∃ x ∈ rowsOf tr.flat, x.2 = k
  · obtain ⟨x, hx, rfl⟩ := hk
    obtain ⟨l, l', hl⟩ := List.append_of_mem hx
    have hs := ht.rep.sorted.rows
    rw [hl] at hs
    have hlt := (List.pairwise_append.mp hs).2.2
    rw [hl, lookup_append fun y hy => (hlt y hy x List.mem_cons_self).ne, lookup_cons rfl]
    refine Or.inl ⟨?_, ht.rep.live x hx⟩
    rw [ht.leafRids]
    exact List.mem_map_of_mem hx
  · push Not at hk
    refine Or.inr ⟨lookup_of_ne hk, fun r hr hrk => ?_⟩
    obtain ⟨k', hk', hm⟩ := ht.recs_leafRids hr
    exact hk _ hm (Option.some.inj (hk'.symm.trans hrk))

omit [LinearOrder K] in
theorem Tree.height_le (hocc : tr.Occ D (rootMin h))
    (hlt : (rowsOf tr.flat).length < 2 * (D + 1) ^ 13 * D) : h + 3 ≤ cachePage := by
  cases h with
  | zero => decide
  | succ h =>
    by_contra hh
    rw [show cachePage = 16 from rfl] at hh
    have hge := Tree.length_rows_ge hocc
    have hpow : (D + 1) ^ 13 ≤ (D + 1) ^ h := Nat.pow_le_pow_right (Nat.succ_pos D) (by omega)
    exact absurd (hlt.trans_le (Nat.mul_le_mul_right D (Nat.mul_le_mul_left 2 hpow)))
      (not_lt.mpr hge)

theorem TreeHeld.height_le (ht : TreeHeld spec recs tr sp s t)
    (hlt : (t i).leafRids.length < 2 * (D + 1) ^ 13 * D) : h + 3 ≤ cachePage := by
  rw [ht.leafRids, names, List.length_map] at hlt
  exact Tree.height_le ht.rep.occ hlt

theorem TreeHeld.returns {α : Type} {p : M α} {Q : α → Flat → Prop}
    (ht : TreeHeld spec recs tr sp s t)
    (hw : wp (flatSem true) (procBody D H) p Q (Function.update s i (s i))) :
    ∃ b t', Returns machineSem (procBody D H) p t b t' := by
  rw [Function.update_eq_self] at hw
  obtain ⟨b, -, t', hr, -, -⟩ := hw.simulated machine_simulates ht.holds
  exact ⟨b, t', hr⟩

/-- **The contents of the index.** In every machine reached the rows in the leaves are in key order;
an insertion of an absent key puts its row at its place, a deletion takes exactly its row out, and a
search returns the row with the key, or the null `RID`. With fewer than `2 * (D + 1) ^ 13 * D` rows,
for which the frames suffice, each of them returns. -/
theorem bTree_contents (hD : 2 ≤ D) (ht : TreeReach spec recs t) :
    SortedBy recs (t i).leafRids ∧
    (∀ r k, recs r = some k → (∀ r' ∈ (t i).leafRids, recs r' ≠ some k) →
      (∀ b t', Returns machineSem (procBody D H) (bTreeInsert D i r) t b t' →
        InsertedAt recs r k (t i).leafRids (t' i).leafRids) ∧
      ((t i).leafRids.length < 2 * (D + 1) ^ 13 * D →
        ∃ b t', Returns machineSem (procBody D H) (bTreeInsert D i r) t b t')) ∧
    (∀ r ∈ (t i).leafRids,
      (∀ b t', Returns machineSem (procBody D H) (bTreeDelete H i r) t b t' →
        RemovedFrom r (t i).leafRids (t' i).leafRids) ∧
      ((t i).leafRids.length < 2 * (D + 1) ^ 13 * D →
        ∃ b t', Returns machineSem (procBody D H) (bTreeDelete H i r) t b t')) ∧
    ∀ key size,
      (∀ b t', Returns machineSem (procBody D H) (bTreeSearch i key size) t b t' →
        (t' i).leafRids = (t i).leafRids ∧
          FoundIn recs (t i).leafRids (spec.keyOf key size) b) ∧
      ((t i).leafRids.length < 2 * (D + 1) ^ 13 * D →
        ∃ b t', Returns machineSem (procBody D H) (bTreeSearch i key size) t b t') := by
  obtain ⟨h, tr, sp, s, ht⟩ := ht.held hD
  refine ⟨ht.sortedBy, fun r k hk hn => ⟨fun b t' hr => ?_, fun hlt => ?_⟩,
    fun r hr => ⟨fun b t' hret => ?_, fun hlt => ?_⟩,
    fun key size => ⟨fun b t' hr => ?_, fun hlt => ?_⟩⟩
  · obtain ⟨-, h', tr', sp', s', ht', hrows⟩ := ht.insert hD hk hn hr
    exact ht.insertedAt ht' hn hrows
  · exact ht.returns (wp_bTreeInsert (e := (r, k)) (by omega) ht.rep hk (ht.absent hn) fun _ =>
      ht.height_le hlt)
  · obtain ⟨k, -, hm⟩ := ht.recs_leafRids hr
    obtain ⟨-, h', tr', sp', s', ht', l, l', hl, hl'⟩ := ht.delete hD hm hret
    have hnd : (names (rowsOf tr.flat)).Nodup := by
      refine List.pairwise_map.mpr (ht.rep.sorted.rows.imp_of_mem fun {x y} hx hy hlt e => ?_)
      have hxy : recs x.1 = recs y.1 := congrArg recs e
      rw [ht.rep.live x hx, ht.rep.live y hy] at hxy
      exact hlt.ne (Option.some.inj hxy)
    have e : names (rowsOf tr.flat) = names l ++ r :: names l' := by
      rw [hl]
      exact List.map_append ..
    have e' : names (rowsOf tr'.flat) = names l ++ names l' := by
      rw [hl']
      exact List.map_append ..
    rw [e] at hnd
    refine ⟨names l, names l', ht.leafRids.trans e, ht'.leafRids.trans e', ?_⟩
    rw [ht'.leafRids, e']
    exact (List.nodup_middle.mp hnd).notMem
  · obtain ⟨k, -, hm⟩ := ht.recs_leafRids hr
    exact ht.returns (wp_bTreeDelete (e := (r, k)) hD ht.rep hm fun _ => ht.height_le hlt)
  · obtain ⟨-, rfl, s', ht'⟩ := ht.search hD hr
    exact ⟨ht'.leafRids.trans ht.leafRids.symm, ht.foundIn _⟩
  · exact ht.returns (wp_bTreeSearch (by omega) ht.rep fun _ =>
      (Nat.le_succ _).trans (ht.height_le hlt))

/-- An insertion, a deletion and a search after the first merge. -/
theorem bTree_contents_merged : ∃ t b t₁ t₂ t₃,
    treeRun 2 idxHandlers .bpIdx idxRecs 20 treeOps idxMachine = some t ∧
    (t .bpIdx).leafRids = [⟨0, 1⟩, ⟨0, 2⟩, ⟨0, 3⟩, ⟨0, 4⟩, ⟨0, 5⟩, ⟨0, 6⟩] ∧
    Returns machineSem (procBody 2 idxHandlers) (bTreeInsert 2 .bpIdx ⟨0, 7⟩) t b t₁ ∧
    InsertedAt idxRecs ⟨0, 7⟩ 7 (t .bpIdx).leafRids (t₁ .bpIdx).leafRids ∧
    Returns machineSem (procBody 2 idxHandlers) (bTreeDelete idxHandlers .bpIdx ⟨0, 3⟩) t () t₂ ∧
    RemovedFrom ⟨0, 3⟩ (t .bpIdx).leafRids (t₂ .bpIdx).leafRids ∧
    Returns machineSem (procBody 2 idxHandlers) (bTreeSearch .bpIdx (fun _ => 5) 1) t ⟨0, 5⟩ t₃ := by
  have hrun : (treeRun 2 idxHandlers .bpIdx idxRecs 20 treeOps idxMachine).bind (fun t =>
      some (decide ((t .bpIdx).leafRids = [⟨0, 1⟩, ⟨0, 2⟩, ⟨0, 3⟩, ⟨0, 4⟩, ⟨0, 5⟩, ⟨0, 6⟩]))) =
      some true := by
    decide +kernel
  obtain ⟨t, hrun, hd⟩ := Option.bind_eq_some_iff.mp hrun
  have hrows := of_decide_eq_true (Option.some.inj hd)
  have hreach : TreeReach (idxSpec 2 .bpIdx) idxRecs t := idxMachine_reach.run hrun
  obtain ⟨-, hins, hdel, hsearch⟩ := bTree_contents le_rfl hreach
  have hfew : (t .bpIdx).leafRids.length < 2 * (2 + 1) ^ 13 * 2 := by
    rw [hrows]
    decide
  obtain ⟨hput, hret⟩ := hins ⟨0, 7⟩ 7 rfl (by rw [hrows]; decide)
  obtain ⟨b, t₁, h₁⟩ := hret hfew
  obtain ⟨htake, hret⟩ := hdel ⟨0, 3⟩ (by rw [hrows]; decide)
  obtain ⟨_, t₂, h₂⟩ := hret hfew
  obtain ⟨hfind, hret⟩ := hsearch (fun _ => 5) 1
  obtain ⟨c, t₃, h₃⟩ := hret hfew
  refine ⟨t, b, t₁, t₂, t₃, hrun, hrows, h₁, hput b t₁ h₁, h₂, htake () t₂ h₂, ?_⟩
  rcases (hfind c t₃ h₃).2 with ⟨hc, hkey⟩ | ⟨-, hno⟩
  · have hall : ∀ x ∈ (t .bpIdx).leafRids, idxRecs x = some 5 → x = ⟨0, 5⟩ := by
      rw [hrows]
      decide
    exact hall c hc hkey ▸ h₃
  · exact absurd rfl (hno ⟨0, 5⟩ (by rw [hrows]; decide))

/-! ## Pages -/

/-- Following `next` from `a` visits the nodes `l` and ends at `-1`. -/
def NodeWalk (mem : Int → Page) : Int → List Int → Prop
  | a, [] => a = -1
  | a, x :: l => a = x ∧ ∃ b, mem x = .bNode b ∧ NodeWalk mem b.next l

/-- The first leaf below page `a`. -/
def firstLeaf (mem : Int → Page) : ℕ → Int → Int
  | 0, a => a
  | n + 1, a =>
    if (mem a).toBNode.leaf then a else firstLeaf mem n ((mem a).toBNode.child 0)

omit [LinearOrder K] in
theorem FreeAt.walk {l : List Int} (hl : FreeAt mem l) : NodeWalk mem (l.headD (-1)) l := by
  induction l with
  | nil => rfl
  | cons x l ih =>
    obtain ⟨⟨b, hb, hn⟩, hl⟩ := hl
    exact ⟨rfl, b, hb, hn ▸ ih hl⟩

omit [LinearOrder K] in
theorem Linked.walk {l : List (Leaf Int RID K)} (hl : Linked l (-1))
    (hst : ∀ x ∈ l, LeafAt mem x.addr x.next (names x.rows)) :
    NodeWalk mem (start l (-1)) (l.map Leaf.addr) := by
  induction l with
  | nil => rfl
  | cons x l ih =>
    obtain ⟨b, hb, -, hn, -⟩ := hst x List.mem_cons_self
    refine ⟨rfl, b, hb, ?_⟩
    rw [hn, hl.1]
    exact ih hl.2 fun y hy => hst y (List.mem_cons_of_mem _ hy)

omit [LinearOrder K] in
theorem Tree.Stored.leaves : ∀ {h : ℕ} {t : Tree Int RID K h}, t.Stored mem →
    ∀ x ∈ t.leaves, LeafAt mem x.addr x.next (names x.rows)
  | 0, t => fun ht x hx => by
    obtain rfl := List.mem_singleton.mp hx
    exact ht
  | h + 1, t => fun ht x hx => by
    obtain ⟨c, hc, hx⟩ := List.mem_flatMap.mp hx
    exact (ht.2 c hc).leaves x hx

omit [LinearOrder K] in
theorem Tree.Stored.firstLeaf : ∀ {h n m : ℕ} {t : Tree Int RID K h}, t.Stored mem →
    t.Occ D m → h ≤ n → ∀ z, firstLeaf mem n t.addr = start t.leaves z
  | 0, n, _, t => fun ⟨b, hb, hl, _, _⟩ _ _ z => by
    change MyJQL.firstLeaf mem n (Leaf.addr t) = Leaf.addr t
    cases n with
    | zero => rfl
    | succ n =>
      rw [MyJQL.firstLeaf, hb]
      exact if_pos hl
  | _ + 1, 0, _, _ => fun _ _ hn => absurd hn (Nat.not_succ_le_zero _)
  | h + 1, n + 1, _, t => fun ⟨⟨b, hb, hl, _, hk⟩, hst⟩ hocc hn z => by
    obtain ⟨addr, rows, kids⟩ := t
    obtain ⟨-, hlen, hko⟩ := hocc
    have hlen : kids.length = rows.length + 1 := hlen
    cases kids with
    | nil => cases hlen
    | cons c ks =>
      have hc0 : b.child 0 = c.addr := BNode.child_eq hk rfl
      change MyJQL.firstLeaf mem (n + 1) addr = start (c.leaves ++ ks.flatMap Tree.leaves) z
      rw [MyJQL.firstLeaf, hb]
      simp only [Page.toBNode, hl, Bool.false_eq_true, if_false, hc0]
      rw [start_append]
      exact (hst c List.mem_cons_self).firstLeaf (hko c List.mem_cons_self)
        (Nat.le_of_succ_le_succ hn) _

/-- **The pages of the index.** In every machine reached every page after the control page is either
a node of the tree, once, or on the free list, once; the `next` pointers from the first leaf on
visit every leaf once, in key order, and end at `-1`; and the next operation passes the checks: its
file grows only when the free list is empty. -/
theorem bTree_pages (hD : 2 ≤ D) (ht : TreeReach spec recs t) :
    (∃ (h : ℕ) (tr : Tree Int RID K h) (free : List Int),
      ((t i).pool.view 0).toBCtrl.rootNode = tr.addr ∧ tr.Stored (t i).pool.view ∧
      NodeWalk (t i).pool.view ((t i).pool.view 0).toBCtrl.freeNodeHead free ∧
      (tr.pages ++ free).Nodup ∧
      (∀ a, a ∈ tr.pages ++ free ↔ (t i).pool.file.Valid a ∧ a ≠ 0) ∧
      NodeWalk (t i).pool.view (firstLeaf (t i).pool.view h tr.addr) (tr.leaves.map Leaf.addr) ∧
      (tr.leaves.flatMap Leaf.rows).Pairwise (fun a b => a.2 < b.2)) ∧
    (∀ r k, recs r = some k → (∀ r' ∈ (t i).leafRids, recs r' ≠ some k) → ∀ b t',
      Returns machineSem (procBody D H) (bTreeInsert D i r) t b t' →
      Returns checkedSem (procBody D H) (bTreeInsert D i r) t b t') ∧
    (∀ r ∈ (t i).leafRids, ∀ b t', Returns machineSem (procBody D H) (bTreeDelete H i r) t b t' →
      Returns checkedSem (procBody D H) (bTreeDelete H i r) t b t') ∧
    ∀ key size b t', Returns machineSem (procBody D H) (bTreeSearch i key size) t b t' →
      Returns checkedSem (procBody D H) (bTreeSearch i key size) t b t' := by
  obtain ⟨h, tr, sp, s, ht⟩ := ht.held hD
  refine ⟨⟨h, tr, sp.free, ?_, ht.stored, ?_, ?_, fun a => ?_, ?_, ?_⟩,
    fun r k hk hn b t' hr => (ht.insert hD hk hn hr).1, fun r hr b t' hret => ?_,
    fun key size b t' hr => (ht.search hD hr).1⟩
  · rw [ht.ctrl]
    rfl
  · rw [ht.ctrl]
    refine FreeAt.walk (ht.rep.ctl.chain.congr fun a ha => ht.holds.view ?_)
    exact (ht.rep.ctl.wf.valid a ha).1.ne_null
  · refine List.nodup_append.mpr ⟨ht.rep.tiles.nodup, ht.rep.ctl.wf.nodup, fun a ha b hb e => ?_⟩
    exact (ht.rep.tiles.used a ha).1.2 (e ▸ hb)
  · rw [FileInfo.Valid, ht.holds.length, ht.rep.ctl.length, List.mem_append]
    constructor
    · rintro (ha | ha)
      · exact ⟨(ht.rep.tiles.used a ha).1.1, (ht.rep.tiles.used a ha).2⟩
      · exact ht.rep.ctl.wf.valid a ha
    · rintro ⟨hv, h0⟩
      by_cases hf : a ∈ sp.free
      · exact Or.inr hf
      · exact Or.inl ((ht.rep.tiles.cover a ⟨hv, hf⟩).resolve_left h0)
  · rw [ht.stored.firstLeaf ht.rep.occ le_rfl (-1)]
    exact ht.rep.linked.walk ht.stored.leaves
  · rw [← Tree.rows_leaves ht.rep.occ]
    exact ht.rep.sorted.rows
  · obtain ⟨k, -, hm⟩ := ht.recs_leafRids hr
    exact (ht.delete hD hm hret).1

theorem NodeWalk.two_le {a : Int} {l : List Int} (hl : NodeWalk mem a l) (ha : a ≠ -1)
    (hn : (mem a).toBNode.next ≠ -1) : 2 ≤ l.length := by
  obtain _ | ⟨x, _ | ⟨y, l⟩⟩ := l
  · exact absurd hl ha
  · obtain ⟨rfl, b, hb, hnext⟩ := hl
    rw [hb] at hn
    exact absurd hnext hn
  · exact Nat.le_add_left 2 l.length

theorem firstLeaf_child {a : Int} (hh : 0 < h) (ha : (mem a).toBNode.leaf = false)
    (hc : (mem ((mem a).toBNode.child 0)).toBNode.leaf = true) :
    firstLeaf mem h a = (mem a).toBNode.child 0 := by
  obtain ⟨h, rfl⟩ := Nat.exists_eq_succ_of_ne_zero hh.ne'
  rw [Nat.succ_eq_add_one, firstLeaf, ha, if_neg Bool.false_ne_true]
  cases h with
  | zero => rfl
  | succ h => rw [firstLeaf, if_pos hc]

/-- The pages after the first merge: two leaves and a freed page. -/
theorem bTree_pages_merged : ∃ (t : Machine) (h : ℕ) (tr : Tree Int RID Int h) (free : List Int),
    treeRun 2 idxHandlers .bpIdx idxRecs 20 treeOps idxMachine = some t ∧
      2 ≤ tr.leaves.length ∧ free ≠ [] ∧ tr.Stored (t .bpIdx).pool.view ∧
      NodeWalk (t .bpIdx).pool.view ((t .bpIdx).pool.view 0).toBCtrl.freeNodeHead free ∧
      (tr.pages ++ free).Nodup ∧
      (∀ a, a ∈ tr.pages ++ free ↔ (t .bpIdx).pool.file.Valid a ∧ a ≠ 0) ∧
      NodeWalk (t .bpIdx).pool.view (firstLeaf (t .bpIdx).pool.view h tr.addr)
        (tr.leaves.map Leaf.addr) := by
  have hrun : (treeRun 2 idxHandlers .bpIdx idxRecs 20 treeOps idxMachine).bind (fun t =>
      let root := (t .bpIdx).pool.view ((t .bpIdx).pool.view 0).toBCtrl.rootNode
      let first := (t .bpIdx).pool.view (root.toBNode.child 0)
      some (decide (((t .bpIdx).pool.view 0).toBCtrl.freeNodeHead ≠ -1 ∧
        root.toBNode.leaf = false ∧ root.toBNode.child 0 ≠ -1 ∧ first.toBNode.leaf = true ∧
        first.toBNode.next ≠ -1))) = some true := by
    decide +kernel
  obtain ⟨t, hrun, hd⟩ := Option.bind_eq_some_iff.mp hrun
  obtain ⟨hhead, hinner, hc, hleaf, hnext⟩ := of_decide_eq_true (Option.some.inj hd)
  have hreach : TreeReach (idxSpec 2 .bpIdx) idxRecs t := idxMachine_reach.run hrun
  obtain ⟨⟨h, tr, free, hroot, hst, hfree, hnd, hpages, hleaves, -⟩, -⟩ :=
    bTree_pages le_rfl hreach
  rw [hroot] at hinner hc hleaf hnext
  refine ⟨t, h, tr, free, hrun, ?_, ?_, hst, hfree, hnd, hpages, hleaves⟩
  · have hwalk := hleaves
    rw [firstLeaf_child (hst.inner hinner) hinner hleaf] at hwalk
    have hlen := hwalk.two_le hc hnext
    rwa [List.length_map] at hlen
  · rintro rfl
    exact hhead hfree

end Results

end MyJQL
