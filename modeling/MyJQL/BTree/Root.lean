import MyJQL.BTree.Delete

/-!
# Deletion at the root

* `IndexRep.delete`: a deletion in the tree keeps order and chain, and loses one row;
* `IndexRep.deleted`: the index after a deletion, with its root in place;
* `IndexRep.collapsed`: and after the root has lost its last separator;
* **`wp_bTreeDelete`**: `b_tree_delete` takes the row out.
-/

set_option linter.unusedSimpArgs false

namespace MyJQL

variable {bd : Bool} {D : ℕ} {H : Handlers} {i : PoolId} {K : Type} [LinearOrder K] {h j : ℕ}
  {spec : HandlerSpec D H i K} {recs : Records K} {s s' : Flat} {f f' f'' : FlatPool} {sp : Space}
  {e : RID × K} {seps : ℕ → RID}

theorem one_le_rootMin (h0 : h ≠ 0) : 1 ≤ rootMin h := by rw [rootMin, if_neg h0]

/-- What `b_tree_delete` leaves: the index without the row, and pages given back. -/
def IndexDeleted (spec : HandlerSpec D H i K) (recs : Records K) (sp : Space)
    (rows : List (RID × K)) (e : RID × K) (st : Flat) : Prop :=
  ∃ (h' : ℕ) (t' : Tree Int RID K h') (freed : List Int) (f' : FlatPool) (s' : Flat),
    st = Function.update s' i f' ∧ IndexRep spec.toInsertSpec recs t' (sp.give freed) f' s' ∧
    ∃ l l', rows = l ++ e :: l' ∧ rowsOf t'.flat = l ++ l'

section Tree

variable {t : Tree Int RID K h}

/-- **A deletion in the tree** keeps order and chain, and loses one row. -/
theorem IndexRep.delete (hD : 1 ≤ D) (hrep : IndexRep spec.toInsertSpec recs t sp f s)
    (he : e ∈ rowsOf t.flat)
    (seps : ℕ → RID) : Sorted (t.delete D e.2 seps).tree.flat ∧
      Linked (t.delete D e.2 seps).tree.leaves (-1) ∧
      (∀ x ∈ rowsOf (t.delete D e.2 seps).tree.flat, recs x.1 = some x.2) ∧
      ∃ l l', rowsOf t.flat = l ++ e :: l' ∧ rowsOf (t.delete D e.2 seps).tree.flat = l ++ l' := by
  obtain ⟨l, l', hl, hr⟩ := Tree.delete_flat (k := e.2) hD hrep.occ one_le_rootMin
    hrep.sorted he rfl
  have hrows : rowsOf (t.delete D e.2 seps).tree.flat = rowsOf l ++ rowsOf l' := by
    rw [hr.rows, rowsOf_append]
  have hrows₀ : rowsOf t.flat = rowsOf l ++ e :: rowsOf l' := by
    rw [hl, rowsOf_append]
    rfl
  have hs := hrep.sorted
  rw [hl] at hs
  refine ⟨hr.sorted (hs.sublist (List.Sublist.append_left (List.sublist_cons_self _ _) _)),
    (Tree.delete_relinks hD hrep.occ one_le_rootMin).linked _ hrep.linked, fun x hx => ?_,
    rowsOf l, rowsOf l', hrows₀, hrows⟩
  refine hrep.live x ?_
  rw [hrows] at hx
  rw [hrows₀]
  exact (List.mem_append.mp hx).elim (List.mem_append_left _) fun hx =>
    List.mem_append_right _ (List.mem_cons_of_mem _ hx)

theorem IndexRep.tiles_delete (hD : 1 ≤ D) (hrep : IndexRep spec.toInsertSpec recs t sp f s) (k : K)
    (seps : ℕ → RID) :
    (sp.give (t.delete D k seps).freed).Tiles (t.delete D k seps).tree.pages := by
  have hpages := Tree.delete_pages k seps hD hrep.occ one_le_rootMin
  exact (hrep.tiles.perm (by rw [← hpages, Multiset.coe_add])).give

/-- **The index after a deletion**, with its root in place. -/
theorem IndexRep.deleted {f₀ : FlatPool} (hD : 1 ≤ D)
    (hrep : IndexRep spec.toInsertSpec recs t sp f s)
    (he : e ∈ rowsOf t.flat) (hocc : (t.delete D e.2 seps).tree.Occ D (rootMin h))
    (hd : Deleted spec recs 0 t f₀ t.addr sp (t.delete D e.2 seps) s' f') (hm : f''.mem = f'.mem)
    (hl : f''.length = f'.length) (hp : f''.pins = 0) :
    IndexDeleted spec recs sp (rowsOf t.flat) e (Function.update s' i f'') := by
  obtain ⟨hsort, hlink, hlive, hrows⟩ := hrep.delete hD he seps
  refine ⟨h, _, _, f'', s', rfl, ⟨?_, ?_, hrep.tiles_delete hD e.2 seps, hocc, hsort, hlink,
    hlive, ?_, hp⟩, hrows⟩
  · rw [Tree.delete_addr _ _ hD hrep.occ one_le_rootMin]
    exact hd.ctl.congr hl (by rw [hm]) fun _ _ => by rw [hm]
  · exact hd.stored.congr fun _ _ => by rw [hm]
  · simpa using hd.inv

end Tree

section Inner

variable {t : Inner Int RID K (Tree Int RID K h)} {old : RID}

theorem collapse_kids (hD : 1 ≤ D) (hocc : Tree.Occ (h := h + 1) D 1 t)
    (hg : (Tree.delete (h := h + 1) D e.2 seps t).merged = some j) (hn : ¬ 1 < t.rows.length) :
    ∃ x, Inner.rows (Tree.delete (h := h + 1) D e.2 seps t).tree = [] ∧
      Inner.kids (Tree.delete (h := h + 1) D e.2 seps t).tree = [x] ∧ (addrs t.kids)[0]? = some x.addr := by
  obtain ⟨hj, hrows, hkids⟩ := Tree.delete_some hD hocc le_rfl hg
  have hocc' := Tree.delete_occ e.2 seps hD hocc fun _ => le_rfl
  have hnil : Inner.rows (Tree.delete (h := h + 1) D e.2 seps t).tree = [] := by
    refine List.eq_nil_of_length_eq_zero ?_
    rw [hrows, List.length_eraseIdx_of_lt hj]
    omega
  obtain ⟨x, hx⟩ : ∃ x, Inner.kids (Tree.delete (h := h + 1) D e.2 seps t).tree = [x] := by
    have hl : (Inner.kids (Tree.delete (h := h + 1) D e.2 seps t).tree).length = _ := hocc'.2.1
    rw [hnil] at hl
    exact List.length_eq_one_iff.mp hl
  refine ⟨x, hnil, hx, ?_⟩
  rw [hx] at hkids
  have h0 := congrArg (·[0]?) hkids
  simp only [List.map_cons, List.map_nil, List.getElem?_cons_zero] at h0
  rw [h0, List.getElem?_eraseIdx_of_lt (Nat.succ_pos j)]

/-- **The index after its root has lost its last separator.** -/
theorem IndexRep.collapsed {f₀ : FlatPool} {s₁ : Flat} {x : Tree Int RID K h} (hD : 1 ≤ D)
    (hrep : IndexRep spec.toInsertSpec recs (h := h + 1) t sp f s) (he : e ∈ rowsOf (Tree.flat (h := h + 1) t))
    (hd : TreeDeleted spec recs 0 t f₀ t.addr sp (Tree.delete (h := h + 1) D e.2 seps t) old s₁ f')
    (hr : Inner.rows (Tree.delete (h := h + 1) D e.2 seps t).tree = [])
    (hx : Inner.kids (Tree.delete (h := h + 1) D e.2 seps t).tree = [x])
    (hinv : spec.Inv recs (sepsOf (Tree.delete (h := h + 1) D e.2 seps t).tree.flat + 0) s')
    (hl : f''.length = f'.length) (h0 : f''.mem 0 = .bCtrl ⟨x.addr, t.addr⟩)
    (hroot : ∃ b, f''.mem t.addr = .bNode b ∧
      b.next = (sp.give (Tree.delete (h := h + 1) D e.2 seps t).freed).free.headD (-1))
    (hm : ∀ c, c ≠ 0 → c ≠ t.addr → f''.mem c = f'.mem c) (hp : f''.pins = 0) :
    IndexDeleted spec recs sp (rowsOf (Tree.flat (h := h + 1) t)) e (Function.update s' i f'') := by
  obtain ⟨hsort, hlink, hlive, hrows⟩ := hrep.delete hD he seps
  have htiles := hrep.tiles_delete hD e.2 seps
  have haddr : (Tree.delete (h := h + 1) D e.2 seps t).tree.addr = t.addr :=
    Tree.delete_addr _ _ hD hrep.occ one_le_rootMin
  have hocc := Tree.delete_occ e.2 seps hD hrep.occ one_le_rootMin
  have hxk : x ∈ Inner.kids (Tree.delete (h := h + 1) D e.2 seps t).tree := by
    rw [hx]
    exact List.mem_cons_self
  have hflat : Tree.flat (Tree.delete (h := h + 1) D e.2 seps t).tree = x.flat := by
    simp [Tree.flat, hr, hx, weave, after]
  have hpages : Tree.pages (Tree.delete (h := h + 1) D e.2 seps t).tree = [t.addr] ++ x.pages := by
    rw [← haddr]
    simp [Tree.pages, hx]
    rfl
  have hleaves : Tree.leaves (Tree.delete (h := h + 1) D e.2 seps t).tree = x.leaves := by
    simp [Tree.leaves, hx]
  rw [hflat] at hsort hlive hrows hinv
  rw [hleaves] at hlink
  rw [hpages] at htiles
  have hctl : f''.Ctl x.addr ((sp.give (Tree.delete (h := h + 1) D e.2 seps t).freed).give
      [t.addr]) := by
    refine hd.ctl.give (htiles.toOwns.sublist (List.sublist_append_left _ _)) hl h0 hroot
      fun c hc => hm c (hd.ctl.wf.valid c hc).2 ?_
    rintro rfl
    exact (htiles.used t.addr List.mem_cons_self).1.2 hc
  rw [Space.give_give] at hctl
  refine ⟨h, x, _, f'', s', rfl, ⟨hctl, ?_, ?_, ?_, hsort, hlink, hlive, by simpa using hinv, hp⟩,
    hrows⟩
  · refine (hd.kids x hxk).congr fun c hc => hm c ?_ ?_
    · exact (htiles.used c (List.mem_append_right _ hc)).2
    · rintro rfl
      exact (List.nodup_append.mp htiles.nodup).2.2 t.addr List.mem_cons_self _ hc rfl
  · have ht := htiles.give
    rwa [Space.give_give] at ht
  · have hxo : x.Occ D D := hocc.2.2 x hxk
    refine hxo.of_le (le_trans ?_ hxo.rows.1)
    rw [rootMin]
    split_ifs <;> omega

/-- The index, once the pages still pinned are released. -/
def IndexPinned (spec : HandlerSpec D H i K) (recs : Records K) (sp : Space)
    (rows : List (RID × K)) (e : RID × K) (f : FlatPool) (st : Flat) : Prop :=
  ∃ s' f', st = Function.update s' i f' ∧ f.Keeps f' ∧ ∀ f'' : FlatPool, f''.mem = f'.mem →
    f''.length = f'.length → f''.pins = 0 →
    IndexDeleted spec recs sp rows e (Function.update s' i f'')

variable {f₀ : FlatPool} {ct pt : ℕ}

/-- **The root takes the merged separator out**, or gives way to its last child. -/
theorem wp_bTreeShrink (hD : 1 ≤ D) (hrep : IndexRep spec.toInsertSpec recs (h := h + 1) t sp f s)
    (he : e ∈ rowsOf (Tree.flat (h := h + 1) t))
    (hg : (Tree.delete (h := h + 1) D e.2 seps t).merged = some j)
    (hd : TreeDeleted spec recs 0 t f₀ t.addr sp (Tree.delete (h := h + 1) D e.2 seps t) old s' f')
    (hct : f'.Held ct 0) (hpt : f'.Held pt t.addr) :
    wp (flatSem bd) (procBody D H) (bTreeShrink H ⟨i, ct⟩ ⟨i, pt⟩ old)
      (fun _ st => IndexPinned spec recs sp (rowsOf (Tree.flat (h := h + 1) t)) e f' st)
      (Function.update s' i f') := by
  have hocc : Tree.Occ (h := h + 1) D 1 t := hrep.occ
  obtain ⟨hj, hrows, hkids⟩ := Tree.delete_some hD hocc le_rfl hg
  obtain ⟨k, b, hrank, hb, hbl, hbk, hkey, hinv⟩ := hd.entry hD hocc le_rfl hrep.sorted hg
  have hlen := hkey.length
  refine wp_bind (wp_bNode hpt.live hb (wp_ite (fun hn => ?_) fun hn => ?_))
  · -- a root with other separators
    refine wp_bind (wp_findIndex hinv hpt.live hb hkey (x := (old, k))
      (Multiset.mem_cons_self _ _) fun s₁ hs₁ => ?_)
    rw [hrank]
    refine wp_bind (spec.wp_deleteHandler (x := (old, k)) hs₁ fun s₂ hs₂ => ?_)
    refine wp_setBNode hpt.live hb ⟨s₂, _, rfl, FlatPool.keeps_put, fun f'' hm hl hp => ?_⟩
    have hdel := hd.deleted_some hD hrep.tiles.toOwns hocc le_rfl hg hbl hkey.eq hbk hs₂
    refine hrep.deleted hD he (Tree.Occ.of_le (Tree.delete_occ _ _ hD hocc fun _ => le_rfl) ?_) hdel hm hl
      hp
    change 1 ≤ (Inner.rows _).length
    rw [hrows, List.length_eraseIdx_of_lt hj]
    omega
  · -- the root gives way to its last child
    obtain ⟨x, hr, hx, hx0⟩ := collapse_kids hD hocc hg (by omega)
    obtain ⟨hu, ht0⟩ := hrep.tiles.used t.addr (Tree.addr_mem_pages (h := h + 1) t)
    have hctrl := hd.ctl.ctrl
    refine wp_bind (spec.wp_deleteHandler (x := (old, k)) hinv fun s₁ hs₁ => ?_)
    refine wp_bind (wp_bCtrl hct.live hctrl ?_)
    refine wp_bind (wp_setBNode hpt.live hb ?_)
    refine wp_bind (wp_setBCtrl (x := ⟨t.addr, _⟩) hct.put.live (by simpa [ht0.symm] using hctrl) ?_)
    refine wp_bind (wp_bNode (x := { b with
      n := b.n - 1
      next := (sp.give (Tree.delete (h := h + 1) D e.2 seps t).freed).free.headD (-1) })
      hpt.put.put.live (by simp [ht0]) ?_)
    refine wp_setBCtrl (x := ⟨t.addr, t.addr⟩) hct.put.put.live (by simp) ?_
    refine ⟨s₁, _, rfl, FlatPool.keeps_put.trans (FlatPool.keeps_put.trans FlatPool.keeps_put),
      fun f'' hm hl hp => ?_⟩
    have hroot : f''.mem t.addr = .bNode { b with
        n := b.n - 1
        next := (sp.give (Tree.delete (h := h + 1) D e.2 seps t).freed).free.headD (-1) } := by
      rw [hm]
      simp [ht0]
    refine hrep.collapsed hD he hd hr hx hs₁ hl ?_ ⟨_, hroot, rfl⟩ (fun c hc0 hct => ?_) hp
    · rw [hm]
      simp [BNode.child_eq hbk hx0]
    · rw [hm]
      simp [hc0, hct]

/-- `b_tree_delete` after the deletion below the root. -/
theorem wp_bTreeMend (hD : 1 ≤ D) (hrep : IndexRep spec.toInsertSpec recs (h := h + 1) t sp f s)
    (he : e ∈ rowsOf (Tree.flat (h := h + 1) t))
    (hd : TreeDeleted spec recs 0 t f₀ t.addr sp (Tree.delete (h := h + 1) D e.2 seps t) old s' f')
    (hct : f'.Held ct 0) (hpt : f'.Held pt t.addr) :
    wp (flatSem bd) (procBody D H)
      (Prog.when (old.blockAddr ≠ -1) (bTreeShrink H ⟨i, ct⟩ ⟨i, pt⟩ old))
      (fun _ st => IndexPinned spec recs sp (rowsOf (Tree.flat (h := h + 1) t)) e f' st)
      (Function.update s' i f') := by
  have hocc : Tree.Occ (h := h + 1) D 1 t := hrep.occ
  rcases hmg : (Tree.delete (h := h + 1) D e.2 seps t).merged with _ | j
  · obtain ⟨hold, hdel⟩ := hd.deleted_none hD hocc le_rfl hmg
    obtain ⟨hlen, -⟩ := Tree.delete_none hD hocc le_rfl hmg
    refine wp_when (fun hne => absurd hold hne) fun _ => ⟨s', f', rfl, .refl _, fun f'' hm hl hp =>
      hrep.deleted hD he (Tree.Occ.of_le (Tree.delete_occ _ _ hD hocc fun _ => le_rfl) ?_) hdel hm hl
        hp⟩
    rw [hlen]
    exact hocc.1.1
  · obtain ⟨k, -, -, -, -, -, -, hinv⟩ := hd.entry hD hocc le_rfl hrep.sorted hmg
    exact wp_when (fun _ => wp_bTreeShrink hD hrep he hmg hd hct hpt) fun h0 => absurd h0
      (not_not.mpr (spec.ne_null hinv (Multiset.mem_cons_self _ _)))

end Inner

/-- **`b_tree_delete`** takes the row out. -/
theorem wp_bTreeDelete {t : Tree Int RID K h} (hD : 2 ≤ D)
    (hrep : IndexRep spec.toInsertSpec recs t sp f s)
    (he : e ∈ rowsOf t.flat) (hbd : bd → h + 3 ≤ cachePage) :
    wp (flatSem bd) (procBody D H) (bTreeDelete H i e.1)
      (fun _ st => IndexDeleted spec recs sp (rowsOf t.flat) e st) (Function.update s i f) := by
  have hD1 : 1 ≤ D := by omega
  have hload : f.load = 1 := by simp [FlatPool.load, hrep.pins]
  obtain ⟨hrootu, hroot0⟩ := hrep.tiles.used t.addr t.addr_mem_pages
  have hload₂ : ((f.get 0).get t.addr).load ≤ 2 := by
    have := FlatPool.load_get_le (f := f.get 0) (a := t.addr)
    rw [FlatPool.load_get_zero] at this
    omega
  refine wp_bind (wp_getPage hrep.ctl.zero (fun h => FlatPool.fits_zero (by have := hbd h; omega)) ?_)
  have hct := FlatPool.held_get_self (f := f) (a := 0)
  refine wp_bind (wp_bCtrl hct.live hrep.ctl.ctrl ?_)
  refine wp_bind (wp_getPage (a := t.addr) (hrep.ctl.used hrootu) (fun h => FlatPool.fits_of_load (by
    have := hbd h
    rw [FlatPool.load_get_zero]
    omega)) ?_)
  have hpt := FlatPool.held_get_self (f := f.get 0) (a := t.addr)
  refine wp_bind (wp_bCtrl hct.get.live hrep.ctl.ctrl ?_)
  cases h with
  | zero =>
    obtain ⟨b, hb, hbl, hbn, hbr⟩ : LeafAt f.mem t.addr (Leaf.next t) (names (Leaf.rows t)) :=
      hrep.stored
    have hkey : Keyed recs (sepsOf t.flat) b (Leaf.rows t) := ⟨hbr, fun x hx => by
      rw [IsKey, if_pos hbl]
      exact hrep.live x (by rwa [show rowsOf t.flat = Leaf.rows t from rowsOf_leaf _]),
      sorted_leaf.mp hrep.sorted⟩
    obtain ⟨m, hm, hrank, hdel⟩ := leaf_row D hrep.sorted he
    refine wp_bind (wp_findIndex hrep.inv hpt.live hb hkey (x := e)
      (show IsKey recs _ true e from hrep.live e he) fun s₁ hs₁ => ?_)
    rw [hrank]
    refine wp_bind (wp_bNode hpt.live hb (wp_ite (fun _ => ?_) fun hne => absurd hbl hne))
    refine wp_bind (wp_setBNode hpt.live hb ?_)
    refine wp_bind (wp_release (by simp) (wp_release (by simp [hrep.pins]) ?_))
    have hd := Deleted.leaf (R := 0) (hrep.ctl.congr rfl rfl
      fun _ _ => rfl) hrootu hroot0 hbl hbn hbr hm (by
        rw [seps_flat_leaf] at hs₁
        exact hs₁)
    rw [← hdel fun _ => RID.null] at hd
    exact hrep.deleted hD1 he (Tree.delete_occ _ _ hD1 hrep.occ fun h0 => absurd rfl h0) hd rfl rfl
      (by simp [hrep.pins])
  | succ h =>
    obtain ⟨b, hb, hbl, hbr, hbk⟩ := hrep.stored.rootAt
    have hocc : Tree.Occ (h := h + 1) D 1 t := hrep.occ
    have hinv : spec.Inv recs (sepsOf t.flat + 0) s := by simpa using hrep.inv
    obtain ⟨c, hcc⟩ := Inner.exists_kid hocc.2.1 (rank_le (k := e.2))
    obtain ⟨hcu, -⟩ := hrep.tiles.used c.addr
      (Inner.mem_pages_kid hrep.tiles.nodup (List.mem_of_getElem? hcc) c.addr_mem_pages).1
    have hchild : b.child (rank e.2 (Inner.rows t)) = c.addr := BNode.child_eq hbk (by
      rw [List.getElem?_map, hcc]
      rfl)
    refine wp_bind (wp_findIndex hinv hpt.live hb (keyed_inner hocc.2.1 hrep.sorted hbl hbr) (x := e)
      (show IsKey recs _ true e from hrep.live e he) fun s₁ hs₁ => ?_)
    refine wp_bind (wp_bNode hpt.live hb (wp_ite (fun hl => ?_) fun _ => ?_))
    · rw [hbl] at hl
      cases hl
    refine wp_bind (wp_bNode hpt.live hb ?_)
    rw [hchild]
    refine wp_bind (wp_getPage (hrep.ctl.used hcu) (fun h => FlatPool.fits_of_load (by
      have := hbd h
      omega)) ?_)
    refine wp_bind (wp_bNode hpt.get.live hb ?_)
    rw [hchild]
    refine wp.seq (wp_proc (wp_treeDelete (m := 1) hD hs₁ (hrep.ctl.congr
      rfl rfl fun _ _ => rfl) hrep.stored
      hrep.tiles.toOwns hocc le_rfl hrep.sorted hrep.live he hcc hpt.get FlatPool.held_get_self
      fun h => ?_)) fun old st hst => ?_
    · have := hbd h
      have := FlatPool.load_get_le (f := (f.get 0).get t.addr) (a := c.addr)
      omega
    obtain ⟨seps, s₂, f₂, rfl, hd⟩ := hst
    refine wp.seq (wp_bTreeMend hD1 hrep he hd (hd.keeps.held _ _ hct.get.get)
      (hd.keeps.held _ _ hpt.get)) fun _ st hst => ?_
    obtain ⟨s₃, f₃, rfl, hk, hidx⟩ := hst
    have hpins : f₃.pins = c.addr ::ₘ t.addr ::ₘ 0 ::ₘ 0 := by
      rw [hk.pins, hd.keeps.pins, FlatPool.pins_get, FlatPool.pins_get, FlatPool.pins_get,
        hrep.pins]
    refine wp_bind (wp_release (by simp [hpins]) (wp_bind (wp_release (by simp [hpins])
      (wp_release (by simp [hpins]) ?_))))
    exact hidx _ rfl rfl (by simp [hpins])

end MyJQL
