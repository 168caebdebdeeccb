import MyJQL.BTree.Rep

/-!
# Searching an index

* `lookup rows k`: the row with the key `k`, or the null `RID`;
* **`wp_treeSearch`**: `tree_search` looks the key up, by induction on the height: the separators
  lead to the one subtree that can have it;
* **`wp_bTreeSearch`**: and `b_tree_search`.
-/

set_option linter.unusedSimpArgs false

namespace MyJQL

variable {bd : Bool} {D : ℕ} {H : Handlers} {i : PoolId} {K : Type} [LinearOrder K] {h : ℕ}
  {spec : HandlerSpec D H i K} {recs : Records K} {S R : Multiset (RID × K)} {s : Flat}
  {f : FlatPool} {root : Int} {sp : Space} {bt m : ℕ} {key : ℕ → Byte} {size : ℕ}

/-- The row with the key `k`, or the null `RID`. -/
def lookup (rows : List (RID × K)) (k : K) : RID :=
  ((rows.find? fun x => x.2 = k).map Prod.fst).getD RID.null

theorem lookup_append {l l' : List (RID × K)} {k : K} (hl : ∀ x ∈ l, x.2 ≠ k) :
    lookup (l ++ l') k = lookup l' k := by
  have hn : l.find? (fun x => decide (x.2 = k)) = none := List.find?_eq_none.mpr (by simpa using hl)
  rw [lookup, List.find?_append, hn]
  rfl

theorem lookup_append_left {l l' : List (RID × K)} {k : K} (hl : ∀ x ∈ l', x.2 ≠ k) :
    lookup (l ++ l') k = lookup l k := by
  have hn : l'.find? (fun x => decide (x.2 = k)) = none :=
    List.find?_eq_none.mpr (by simpa using hl)
  rw [lookup, lookup, List.find?_append, hn, Option.or_none]

theorem lookup_of_ne {l : List (RID × K)} {k : K} (hl : ∀ x ∈ l, x.2 ≠ k) :
    lookup l k = RID.null := by
  have : lookup (l ++ []) k = lookup [] k := lookup_append hl
  rwa [List.append_nil] at this

theorem lookup_cons {l : List (RID × K)} {k : K} {x : RID × K} (hx : x.2 = k) :
    lookup (x :: l) k = x.1 := by
  rw [lookup, List.find?_cons_of_pos (by simpa using hx)]
  rfl

/-- The state after a search: nothing has changed. -/
def Searched (spec : HandlerSpec D H i K) (recs : Records K) (S : Multiset (RID × K)) (f : FlatPool)
    (st : Flat) : Prop :=
  ∃ s' f', st = Function.update s' i f' ∧ f'.mem = f.mem ∧ f'.length = f.length ∧ f.Keeps f' ∧
    spec.Inv recs S s'

theorem Searched.release {a : Int} {st : Flat} {Q : Unit → Flat → Prop}
    (h : Searched spec recs S (f.get a) st) (hQ : ∀ st, Searched spec recs S f st → Q () st) :
    wp (flatSem bd) (procBody D H) (release i a) Q st := by
  obtain ⟨s', f', rfl, hm, hl, hk, hinv⟩ := h
  exact wp_release hk.mem_pins (hQ _ ⟨s', _, rfl, hm, hl, hk.bracket, hinv⟩)

theorem wp_searchLeaf {b : BNode} {rows : List (RID × K)} {a : Int} (hinv : spec.Inv recs S s)
    (hb : f.mem a = .bNode b) (hleaf : b.leaf = true) (hk : Keyed recs S b rows)
    (hheld : f.Held bt a) :
    wp (flatSem bd) (procBody D H) (treeSearch H i ⟨i, bt⟩ key size)
      (fun r st => r = lookup rows (spec.keyOf key size) ∧ Searched spec recs S f st)
      (Function.update s i f) := by
  have hn := hk.length
  refine wp_bind (wp_bNode hheld.live hb (wp_ite (fun _ => ?_) fun hne => absurd hleaf hne))
  refine wp_bind (wp_bNode hheld.live hb ?_)
  refine wp.seq (wp_forReturn (fun j st => (∃ s', st = Function.update s' i f ∧ spec.Inv recs S s') ∧
      j ≤ rows.length ∧ ∀ x ∈ rows.take j, x.2 ≠ spec.keyOf key size)
    (Q := fun o st => (∃ s', st = Function.update s' i f ∧ spec.Inv recs S s') ∧
      o.getD RID.null = lookup rows (spec.keyOf key size))
    ⟨⟨s, rfl, hinv⟩, Nat.zero_le _, by simp⟩ ?_ ?_) ?_
  · rintro j _ - hj ⟨⟨s₁, rfl, hs₁⟩, -, hne⟩
    have hjl : j < rows.length := by omega
    refine wp_bind (wp_bNode hheld.live hb ?_)
    rw [hk.rowPtr hjl]
    have hkey : IsKey recs S true rows[j] := hleaf ▸ hk.keys _ (List.getElem_mem hjl)
    refine wp_bind (spec.wp_cmpPtr hs₁ hkey fun r s₂ _ hr hs₂ => ?_)
    refine wp_ite (fun h0 => wp_bind (wp_bNode hheld.live hb (wp_pure ?_))) fun h0 => wp_pure ?_
    · refine ⟨⟨s₂, rfl, hs₂⟩, ?_⟩
      rw [hk.rowPtr hjl]
      conv_rhs => rw [← List.take_append_drop j rows, List.drop_eq_getElem_cons hjl]
      rw [lookup_append hne, lookup_cons (hr.mp h0).symm]
      rfl
    · refine ⟨⟨s₂, rfl, hs₂⟩, hjl, fun x hx => ?_⟩
      rw [List.take_add_one, List.getElem?_eq_getElem hjl] at hx
      rcases List.mem_append.mp hx with hx | hx
      · exact hne x hx
      · obtain rfl := List.mem_singleton.mp hx
        exact fun e => h0 (hr.mpr e.symm)
  · rintro _ ⟨hst, -, hne⟩
    refine ⟨hst, (lookup_of_ne fun x hx => hne x ?_).symm⟩
    rwa [List.take_of_length_le (by omega)]
  · rintro o _ ⟨⟨s₁, rfl, hs₁⟩, ho⟩
    have hend : Searched spec recs S f (Function.update s₁ i f) :=
      ⟨s₁, f, rfl, rfl, rfl, .refl f, hs₁⟩
    cases o with
    | none => exact wp_pure ⟨ho, hend⟩
    | some r => exact wp_pure ⟨ho, hend⟩

/-- **Searching an inner node**, when the descent into the child of the key's rank is known. -/
theorem wp_searchInner {b : BNode} {rows : List (RID × K)} {a : Int} {r₀ : RID}
    (hinv : spec.Inv recs S s) (hb : f.mem a = .bNode b) (hleaf : b.leaf = false)
    (hk : Keyed recs S b rows) (hpos : 0 < rows.length) (hheld : f.Held bt a)
    (hchild : ∀ s', spec.Inv recs S s' → wp (flatSem bd) (procBody D H)
      (searchChild i ⟨i, bt⟩ key size (rank (spec.keyOf key size) rows))
      (fun r st => r = r₀ ∧ Searched spec recs S f st) (Function.update s' i f)) :
    wp (flatSem bd) (procBody D H) (treeSearch H i ⟨i, bt⟩ key size)
      (fun r st => r = r₀ ∧ Searched spec recs S f st) (Function.update s i f) := by
  have hkeys : NodeKeys (flatSem bd) (procBody D H) ⟨i, bt⟩ b _ _ (spec.keyOf key size) _ :=
    hk.nodeKeys hheld.live hb (fun r => H.cmpPtr key size r false) fun s y hs hy =>
      spec.wp_cmpPtr hs (hleaf ▸ hy) fun r s' hr _ hs' => ⟨hr, s', rfl, hs'⟩
  refine wp_treeSearch_descend hkeys hleaf (hk.length ▸ hpos) ⟨s, rfl, hinv⟩ fun st hst => ?_
  obtain ⟨s', rfl, hs'⟩ := hst
  rw [hk.descend_eq]
  exact hchild s' hs'

/-- **`tree_search`** looks the key up. -/
theorem wp_treeSearch {t : Tree Int RID K h} (hinv : spec.Inv recs S s) (hc : f.Ctl root sp)
    (hst : t.Stored f.mem) (hown : sp.Owns t.pages) (hocc : t.Occ D m) (hm : h ≠ 0 → 1 ≤ m)
    (hD : 1 ≤ D) (hsort : Sorted t.flat) (hrec : ∀ x ∈ rowsOf t.flat, recs x.1 = some x.2)
    (hsep : ∀ x ∈ sepsOf t.flat, x ∈ S) (hheld : f.Held bt t.addr)
    (hbd : bd → f.load + h ≤ cachePage) :
    wp (flatSem bd) (procBody D H) (treeSearch H i ⟨i, bt⟩ key size)
      (fun r st => r = lookup (rowsOf t.flat) (spec.keyOf key size) ∧ Searched spec recs S f st)
      (Function.update s i f) := by
  induction h generalizing s f bt m with
  | zero =>
    obtain ⟨addr, next, rows⟩ := t
    obtain ⟨b, hb, hleaf, hnext, hrows⟩ := hst
    have hflat : rowsOf (Tree.flat (h := 0) (⟨addr, next, rows⟩ : Leaf Int RID K)) = rows :=
      rowsOf_leaf rows
    rw [hflat] at hrec ⊢
    exact wp_searchLeaf hinv hb hleaf ⟨hrows, fun x hx => by
      rw [IsKey, if_pos hleaf]
      exact hrec x hx, sorted_leaf.mp hsort⟩ hheld
  | succ h ih =>
    obtain ⟨addr, rows, kids⟩ := t
    obtain ⟨⟨b, hb, hleaf, hrows, hkids⟩, hkst⟩ := hst
    obtain ⟨⟨hm1, -⟩, hk, hko⟩ := hocc
    have hpos : 0 < rows.length := (hm h.succ_ne_zero).trans hm1
    obtain ⟨c, hcc⟩ := Inner.exists_kid hk (rank_le (k := spec.keyOf key size))
    have hcm := List.mem_of_getElem? hcc
    have hchild : b.child (rank (spec.keyOf key size) rows) = c.addr := BNode.child_eq hkids (by
      rw [List.getElem?_map, hcc]; rfl)
    have hcown : sp.Owns c.pages := hown.sublist (Inner.pages_kid_sublist hcm)
    obtain ⟨hcsort, hpre, hpost⟩ := Inner.sorted_kid hk hsort hcc
    have hflat := Inner.flat_eq hk rank_le hcc
    have hlookup : lookup (rowsOf (Tree.flat (h := h + 1) (⟨addr, rows, kids⟩ : Inner Int RID K _)))
        (spec.keyOf key size) = lookup (rowsOf c.flat) (spec.keyOf key size) := by
      rw [hflat, rowsOf_append, rowsOf_append, lookup_append_left, lookup_append]
      · exact fun x hx => (mark_row_lt.mp (hpre _ (mem_rowsOf.mp hx))).ne
      · exact fun x hx => (lt_mark_row.mp (hpost _ (mem_rowsOf.mp hx))).ne'
    rw [hlookup]
    refine wp_searchInner hinv hb hleaf ⟨hrows, fun x hx => ?_, Sorted.seps hsort (by simpa using hk)⟩
      hpos hheld fun s₁ hs₁ => ?_
    · rw [IsKey, hleaf, if_neg Bool.false_ne_true]
      exact hsep x (Inner.mem_seps hk hx)
    refine wp_bind (wp_bNode hheld.live hb ?_)
    rw [hchild]
    refine wp_bind (wp_getPage (hc.used (hcown.used _ c.addr_mem_pages).1)
      (fun h => FlatPool.fits_of_load (by have := hbd h; omega)) ?_)
    refine wp.seq (wp_proc (ih hs₁ (hc.congr rfl rfl fun _ _ => rfl)
      (hkst c hcm) hcown (hko c hcm) (fun _ => hD) hcsort
      (fun x hx => hrec x (by rw [hflat]; simp [hx])) (fun x hx => hsep x (by rw [hflat]; simp [hx]))
      FlatPool.held_get_self fun h => ?_)) fun r st hr => ?_
    · have := hbd h
      have := FlatPool.load_get_le (f := f) (a := c.addr)
      omega
    obtain ⟨hr, s₂, f₂, rfl, hm₂, hl₂, hk₂, hs₂⟩ := hr
    refine wp_bind (wp_bNode (hk₂.held _ _ hheld.get).live (by rw [hm₂]; exact hb) ?_)
    rw [hchild]
    exact wp_bind (Searched.release ⟨s₂, f₂, rfl, hm₂, hl₂, hk₂, hs₂⟩ fun st hst => wp_pure ⟨hr, hst⟩)

/-- **`b_tree_search`** looks the key up. -/
theorem wp_bTreeSearch {t : Tree Int RID K h} (hD : 1 ≤ D)
    (hrep : IndexRep spec.toInsertSpec recs t sp f s)
    (hbd : bd → h + 2 ≤ cachePage) :
    wp (flatSem bd) (procBody D H) (bTreeSearch i key size)
      (fun r st => r = lookup (rowsOf t.flat) (spec.keyOf key size) ∧
        ∃ s' f', st = Function.update s' i f' ∧ IndexRep spec.toInsertSpec recs t sp f' s')
      (Function.update s i f) := by
  have hload : f.load = 1 := by simp [FlatPool.load, hrep.pins]
  have hroot := hrep.tiles.used t.addr t.addr_mem_pages
  have hload₂ : ((f.get 0).get t.addr).load ≤ 2 := by
    have := FlatPool.load_get_le (f := f.get 0) (a := t.addr)
    rw [FlatPool.load_get_zero] at this
    omega
  refine wp_bind (wp_getPage hrep.ctl.zero (fun h => FlatPool.fits_zero (by have := hbd h; omega)) ?_)
  have hct := FlatPool.held_get_self (f := f) (a := 0)
  refine wp_bind (wp_bCtrl hct.live hrep.ctl.ctrl ?_)
  refine wp_bind (wp_getPage (a := t.addr) (hrep.ctl.used hroot.1) (fun h =>
    FlatPool.fits_of_load (by
      have := hbd h
      rw [FlatPool.load_get_zero]
      omega)) ?_)
  refine wp.seq (wp_proc (wp_treeSearch hrep.inv
    (hrep.ctl.congr rfl rfl fun _ _ => rfl) hrep.stored
    hrep.tiles.toOwns hrep.occ (fun h0 => by rw [rootMin, if_neg h0]) hD hrep.sorted hrep.live
    (fun x hx => hx) FlatPool.held_get_self fun h => by have := hbd h; omega)) fun r st hr => ?_
  obtain ⟨hr, s₂, f₂, rfl, hm₂, hl₂, hk₂, hs₂⟩ := hr
  refine wp_bind (wp_bCtrl (hk₂.held _ _ hct.get).live (x := ⟨t.addr, sp.free.headD (-1)⟩)
    (by rw [hm₂]; exact hrep.ctl.ctrl) ?_)
  refine wp_bind (Searched.release (a := t.addr) ⟨s₂, f₂, rfl, hm₂, hl₂, hk₂, hs₂⟩ fun st hst => ?_)
  refine wp_bind (Searched.release hst fun st hst => wp_pure ⟨hr, ?_⟩)
  obtain ⟨s₃, f₃, rfl, hm₃, hl₃, hk₃, hs₃⟩ := hst
  exact ⟨s₃, f₃, rfl, hrep.ctl.congr hl₃ (by rw [hm₃]) fun _ _ => by rw [hm₃],
    hrep.stored.congr fun _ _ => by rw [hm₃], hrep.tiles, hrep.occ, hrep.sorted, hrep.linked,
    hrep.live, hs₃, hk₃.pins.trans hrep.pins⟩

end MyJQL
