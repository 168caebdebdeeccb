import MyJQL.BTree.Index
import MyJQL.Store.Spec

/-!
# The operations of the store

* `Indexed D rows seps t sp f`: the pool holds an index with the rows `rows` and the separators
  `seps`;
* **`StoreRep D rows s`**: the state holds a store with these rows;
* `Denotes rows m`: the rows are the map `m`;
* **`wp_myjqlGet`**, **`wp_myjqlSet`**, **`wp_myjqlDel`**: the operations are those of a map.
-/

set_option linter.unusedSimpArgs false

namespace MyJQL

/-! ## Keys of rows -/

open Classical in
/-- The key of the row `r`. -/
noncomputable def keyIn (rows : Multiset Row) : Records (List ℤ) := fun r =>
  if h : ∃ row ∈ rows, row.rid = r then some h.choose.sortKey else none

variable {bd : Bool} {D h : ℕ} {m : Tables} {rows rest : Multiset Row} {seps : Multiset Str}
  {row : Row} {s s' : Flat} {f : FlatPool} {t : Tree Int RID (List ℤ) h} {sp : Space} {r : RID}
  {k : List ℤ}

theorem keyIn_of_mem (hnd : (rows.map Row.rid).Nodup) (hr : row ∈ rows) :
    keyIn rows row.rid = some row.sortKey := by
  have hex : ∃ row' ∈ rows, row'.rid = row.rid := ⟨row, hr, rfl⟩
  rw [keyIn, dif_pos hex,
    Multiset.inj_on_of_nodup_map hnd _ hex.choose_spec.1 _ hr hex.choose_spec.2]

theorem keyIn_eq (hk : keyIn rows r = some k) : ∃ row ∈ rows, row.entry = (r, k) := by
  rw [keyIn] at hk
  split_ifs at hk with hex
  exact ⟨hex.choose, hex.choose_spec.1, Prod.ext hex.choose_spec.2 (Option.some.inj hk)⟩

/-! ## The index -/

/-- **The pool holds an index** with the rows `rows` and the separators `seps`. -/
structure Indexed (D : ℕ) (rows : Multiset Row) (seps : Multiset Str) (t : Tree Int RID (List ℤ) h)
    (sp : Space) (f : FlatPool) : Prop where
  ctl : f.Ctl t.addr sp
  stored : t.Stored f.mem
  tiles : sp.Tiles t.pages
  occ : t.Occ D (rootMin h)
  sorted : Sorted t.flat
  linked : Linked t.leaves (-1)
  pins : f.pins = 0
  rows_eq : (rowsOf t.flat : Multiset (RID × List ℤ)) = rows.map Row.entry
  seps_eq : (sepsOf t.flat : Multiset (RID × List ℤ)) = seps.map sepOf
  short : ∀ c ∈ seps, (content c).length ≤ maxStrLen

theorem Indexed.rep {l : Multiset Row} (hi : Indexed D l seps t sp f) (hm : Heap m rows seps f s)
    (hl : ∀ row ∈ l, row ∈ rows) :
    IndexRep (storeSpec D rows).toInsertSpec (keyIn rows) t sp f s := by
  refine ⟨hi.ctl, hi.stored, hi.tiles, hi.occ, hi.sorted, hi.linked, fun x hx => ?_,
    ⟨fun r k hk => keyIn_eq hk, m, seps, hm.index.symm ▸ hm, hi.short, hi.seps_eq⟩, hi.pins⟩
  have hx : x ∈ (rowsOf t.flat : Multiset (RID × List ℤ)) := hx
  rw [hi.rows_eq] at hx
  obtain ⟨row, hr, rfl⟩ := Multiset.mem_map.mp hx
  exact keyIn_of_mem hm.owned.nodup (hl row hr)

theorem IndexRep.indexed {l : Multiset Row}
    (hrep : IndexRep (storeSpec D rows).toInsertSpec (keyIn rows) t sp f s)
    (hl : (rowsOf t.flat : Multiset (RID × List ℤ)) = l.map Row.entry) : ∃ m seps,
      Heap m rows seps f (Function.update s .bpIdx f) ∧ Indexed D l seps t sp f := by
  obtain ⟨-, m, seps, hm, hshort, hseps⟩ := hrep.inv
  exact ⟨m, seps, hm.withIndex, hrep.ctl, hrep.stored, hrep.tiles, hrep.occ, hrep.sorted, hrep.linked,
    hrep.pins, hl, hseps, hshort⟩

theorem Indexed.nodup (hi : Indexed D rows seps t sp f) : (rows.map Row.sortKey).Nodup := by
  have h1 : rows.map Row.sortKey = (((rowsOf t.flat).map Prod.snd : List _) : Multiset _) := by
    rw [← Multiset.map_coe, hi.rows_eq, Multiset.map_map]
    rfl
  rw [h1, Multiset.coe_nodup]
  exact List.pairwise_map.mpr (hi.sorted.rows.imp ne_of_lt)

theorem Indexed.lookup (hi : Indexed D rows seps t sp f) (k : List ℤ) :
    (∃ row ∈ rows, row.sortKey = k ∧ lookup (rowsOf t.flat) k = row.rid) ∨
      (∀ row ∈ rows, row.sortKey ≠ k) ∧ lookup (rowsOf t.flat) k = RID.null := by
  have hmem : ∀ x, x ∈ rowsOf t.flat ↔ x ∈ rows.map Row.entry := fun x => by
    rw [← hi.rows_eq]
    exact Iff.rfl
  by_cases hk : ∃ x ∈ rowsOf t.flat, x.2 = k
  · obtain ⟨x, hx, rfl⟩ := hk
    obtain ⟨row, hr, rfl⟩ := Multiset.mem_map.mp ((hmem x).mp hx)
    obtain ⟨l, l', hl⟩ := List.append_of_mem hx
    have hs := hi.sorted.rows
    rw [hl] at hs
    have hlt := (List.pairwise_append.mp hs).2.2
    refine Or.inl ⟨row, hr, rfl, ?_⟩
    rw [hl, lookup_append fun y hy => (hlt y hy _ List.mem_cons_self).ne, lookup_cons rfl]
    rfl
  · push Not at hk
    exact Or.inr ⟨fun row hr => hk _ ((hmem _).mpr (Multiset.mem_map_of_mem _ hr)), lookup_of_ne hk⟩

theorem Indexed.height_le (hi : Indexed D rows seps t sp f)
    (hlt : rows.card < 2 * (D + 1) ^ 13 * D) : h + 3 ≤ cachePage := by
  refine Tree.height_le hi.occ ?_
  have hcard := congrArg Multiset.card hi.rows_eq
  rw [Multiset.coe_card, Multiset.card_map] at hcard
  rwa [hcard]

/-! ## The store -/

/-- **The state holds a store** with the rows `rows`. -/
def StoreRep (D : ℕ) (rows : Multiset Row) (s : Flat) : Prop :=
  ∃ (h : ℕ) (t : Tree Int RID (List ℤ) h) (sp : Space) (m : Tables) (seps : Multiset Str)
    (f : FlatPool), Heap m rows seps f s ∧ Indexed D rows seps t sp f

/-- **`b_tree_search`** finds the row with the key, or none. -/
theorem StoreRep.search (hst : StoreRep D rows s) (hD : 1 ≤ D)
    (hbd : bd → rows.card < 2 * (D + 1) ^ 13 * D) (key : ℕ → Byte) (n : ℕ) :
    wp (flatSem bd) (procBody D storeHandlers) (bTreeSearch .bpIdx key n)
      (fun rid s' => StoreRep D rows s' ∧
        ((∃ row ∈ rows, content row.key = tabulate key n ∧ rid = row.rid) ∨
          (∀ row ∈ rows, content row.key ≠ tabulate key n) ∧ rid = RID.null)) s := by
  obtain ⟨h, t, sp, m, seps, f, hm, hi⟩ := hst
  have hs : Function.update s .bpIdx f = s := by rw [← hm.index, Function.update_eq_self]
  have hw : wp (flatSem bd) _ (bTreeSearch .bpIdx key n) _ _ :=
    wp_bTreeSearch hD (hi.rep hm fun _ hr => hr) fun hb =>
      (Nat.le_succ _).trans (hi.height_le (hbd hb))
  rw [hs] at hw
  refine hw.mono fun rid s' hr => ?_
  obtain ⟨rfl, s', f', rfl, hrep⟩ := hr
  obtain ⟨m', seps', hm', hi'⟩ := hrep.indexed hi.rows_eq
  refine ⟨⟨h, t, sp, m', seps', f', hm', hi'⟩, ?_⟩
  have hkey : ∀ row : Row, row.sortKey = signed (tabulate key n) ↔
      content row.key = tabulate key n :=
    fun row => signed_injective.eq_iff
  rcases hi.lookup (signed (tabulate key n)) with ⟨row, hr, hk, e⟩ | ⟨hne, e⟩
  · exact Or.inl ⟨row, hr, (hkey row).mp hk, e⟩
  · exact Or.inr ⟨fun row hr e' => hne row hr ((hkey row).mpr e'), e⟩

theorem StoreRep.ne_null (hst : StoreRep D rows s) (hr : row ∈ rows) :
    ¬ (row.rid.blockAddr = -1 ∧ row.rid.idx = 0) := fun e => by
  obtain ⟨h, t, sp, m, seps, f, hm, -⟩ := hst
  exact (hm.owned.record row hr).2 e.1

theorem StoreRep.key_ne (hst : StoreRep D (row ::ₘ rest) s) :
    ∀ r ∈ rest, content r.key ≠ content row.key := by
  intro r hr e
  obtain ⟨h, t, sp, m, seps, f, -, hi⟩ := hst
  have hnd := hi.nodup
  rw [Multiset.map_cons, Multiset.nodup_cons] at hnd
  refine hnd.1 (Multiset.mem_map.mpr ⟨r, hr, ?_⟩)
  rw [Row.sortKey, Row.sortKey, e]

/-- **`b_tree_delete`** takes a row out of the index. -/
theorem StoreRep.delete (hst : StoreRep D (row ::ₘ rest) s) (hD : 2 ≤ D)
    (hbd : bd → (row ::ₘ rest).card < 2 * (D + 1) ^ 13 * D) :
    wp (flatSem bd) (procBody D storeHandlers) (bTreeDelete storeHandlers .bpIdx row.rid)
      (fun _ s' => ∃ (h : ℕ) (t : Tree Int RID (List ℤ) h) (sp : Space) (m : Tables)
        (seps : Multiset Str) (f : FlatPool), Heap m (row ::ₘ rest) seps f s' ∧
          Indexed D rest seps t sp f) s := by
  obtain ⟨h, t, sp, m, seps, f, hm, hi⟩ := hst
  have hs : Function.update s .bpIdx f = s := by rw [← hm.index, Function.update_eq_self]
  have he : row.entry ∈ rowsOf t.flat := by
    have hmem : row.entry ∈ (row ::ₘ rest).map Row.entry :=
      Multiset.mem_map_of_mem _ (Multiset.mem_cons_self _ _)
    rw [← hi.rows_eq] at hmem
    exact hmem
  have hw := wp_bTreeDelete (e := row.entry) hD (hi.rep hm fun _ hr => hr) he fun hb =>
    hi.height_le (hbd hb)
  rw [hs] at hw
  refine hw.mono fun _ s' hr => ?_
  obtain ⟨h', t', freed, f', s', rfl, hrep, l, l', hl, hl'⟩ := hr
  have hrest : (rowsOf t'.flat : Multiset (RID × List ℤ)) = rest.map Row.entry := by
    have hrows := hi.rows_eq
    rw [hl, Multiset.map_cons, Multiset.coe_eq_coe.mpr List.perm_middle,
      ← Multiset.cons_coe] at hrows
    rw [hl']
    exact (Multiset.cons_inj_right _).mp hrows
  obtain ⟨m', seps', hm', hi'⟩ := hrep.indexed hrest
  exact ⟨h', t', _, m', seps', f', hm', hi'⟩

/-- **A new row**, of two strings that no row owns. -/
theorem Indexed.insertRow {c d : Str} (hi : Indexed D rest seps t sp f)
    (hm : Heap m rest (c ::ₘ d ::ₘ seps) f s) (hD : 2 ≤ D)
    (hbd : bd → rest.card < 2 * (D + 1) ^ 13 * D) (hlen : (content c).length ≤ maxStrLen)
    (hne : ∀ row ∈ rest, content row.key ≠ content c) :
    wp (flatSem bd) (procBody D storeHandlers)
      (do let rid ← writeRecord tblRec ⟨headRID c, headRID d⟩
          let _ ← bTreeInsert D .bpIdx rid
          return ())
      (fun _ s' => ∃ rid, StoreRep D (⟨rid, c, d⟩ ::ₘ rest) s') s := by
  refine (hm.writeRecord hlen).seq fun rid s₁ h₁ => ?_
  obtain ⟨m₁, h₁⟩ := h₁
  obtain ⟨row, hrow⟩ : ∃ row : Row, row = ⟨rid, c, d⟩ := ⟨_, rfl⟩
  rw [← hrow] at h₁
  have hs : Function.update s₁ .bpIdx f = s₁ := by rw [← h₁.index, Function.update_eq_self]
  have hkey : keyIn (row ::ₘ rest) row.rid = some row.sortKey :=
    keyIn_of_mem h₁.owned.nodup (Multiset.mem_cons_self _ _)
  have hfresh : ∀ x ∈ rowsOf t.flat, x.2 ≠ row.sortKey := fun x hx e => by
    have hx : x ∈ (rowsOf t.flat : Multiset (RID × List ℤ)) := hx
    rw [hi.rows_eq] at hx
    obtain ⟨r, hr, rfl⟩ := Multiset.mem_map.mp hx
    refine hne r hr ((signed_injective e).trans ?_)
    rw [hrow]
  have hw := wp_bTreeInsert (e := row.entry) (by omega)
    (hi.rep h₁ fun r hr => Multiset.mem_cons_of_mem hr) hkey hfresh fun hb => hi.height_le (hbd hb)
  rw [hs] at hw
  have hrid : row.entry.1 = rid := congrArg Row.rid hrow
  rw [hrid] at hw
  refine hw.seq fun r s₂ h₂ => wp_pure ?_
  obtain ⟨-, h', t', n, f', s', rfl, hrep, hrows⟩ := h₂
  have hl : (rowsOf t'.flat : Multiset (RID × List ℤ)) = (row ::ₘ rest).map Row.entry := by
    rw [hrows, Multiset.coe_eq_coe.mpr (List.perm_orderedInsert _ _ _), ← Multiset.cons_coe,
      hi.rows_eq, Multiset.map_cons]
  obtain ⟨m', seps', hm', hi'⟩ := hrep.indexed hl
  exact ⟨rid, hrow ▸ ⟨h', t', _, m', seps', f', hm', hi'⟩⟩

/-! ## The map -/

/-- A map from keys to values. -/
abbrev Bindings := List Byte → Option (List Byte)

/-- The rows are the map `m`. -/
def Denotes (rows : Multiset Row) (m : Bindings) : Prop :=
  ∀ k v, m k = some v ↔ ∃ row ∈ rows, content row.key = k ∧ content row.value = v

/-- The result of `myjql_get`, and the buffer afterwards. -/
def getResult (m : Bindings) (k : List Byte) (value : ℕ → Byte) (maxSize : ℕ) : Int × (ℕ → Byte) :=
  match m k with
  | none => (-1, value)
  | some v => ((min maxSize v.length : ℕ), fun i => if i < min maxSize v.length then v.getD i 0 else value i)

section Get

variable {mp : Bindings} {key : ℕ → Byte} {n : ℕ}

theorem Denotes.absent (hm : Denotes rows mp) {k : List Byte}
    (hne : ∀ row ∈ rows, content row.key ≠ k) : mp k = none := by
  refine Option.eq_none_iff_forall_ne_some.mpr fun v hv => ?_
  obtain ⟨row, hr, hk, -⟩ := (hm k v).mp hv
  exact hne row hr hk

/-- **`myjql_get`** returns the value of the key. -/
theorem wp_myjqlGet (hst : StoreRep D rows s) (hm : Denotes rows mp) (hD : 1 ≤ D)
    (hbd : bd → rows.card < 2 * (D + 1) ^ 13 * D) (value : ℕ → Byte) (maxSize : ℕ) :
    wp (flatSem bd) (procBody D storeHandlers) (myjqlGet key n value maxSize)
      (fun q s' => q = getResult mp (tabulate key n) value maxSize ∧ StoreRep D rows s') s := by
  refine (hst.search hD hbd key n).seq fun rid s₁ h₁ => ?_
  obtain ⟨hst₁, ⟨row, hr, hk, rfl⟩ | ⟨hne, rfl⟩⟩ := h₁
  · refine wp_ite (fun e => absurd e (hst₁.ne_null hr)) fun _ => ?_
    obtain ⟨h, t, sp, m, seps, f, hh, hi⟩ := hst₁
    refine (hh.readRecord hr).seq fun record s₂ h₂ => ?_
    obtain ⟨rfl, hh₂⟩ := h₂
    have hstr : IsStr m.strs row.value := hh₂.owned.strings.str _ (Multiset.mem_add.mpr
      (Or.inl (Multiset.mem_add.mpr (Or.inr (Multiset.mem_map_of_mem _ hr)))))
    refine (hh₂.readString hstr _).seq fun record s₃ h₃ => ?_
    refine wp.seq (wp_loadString (.start h₃.2.strTable : tblStr.At s₃ m.strs s₃) h₃.1 value maxSize)
      fun q s₄ h₄ => wp_pure ?_
    obtain ⟨rfl, h₄⟩ := h₄
    refine ⟨?_, h, t, sp, m, seps, f, h₃.2.onStrs h₄ hh.owned, hi⟩
    rw [getResult, (hm _ _).mpr ⟨row, hr, hk, rfl⟩]
    refine Prod.ext rfl (funext fun i => ?_)
    exact if_congr (by omega) rfl rfl
  · refine wp_ite (fun _ => wp_pure ⟨?_, hst₁⟩) fun e => absurd ⟨rfl, rfl⟩ e
    rw [getResult, hm.absent hne]

theorem Denotes.add (row : Row) (hm : Denotes rest mp)
    (hne : ∀ r ∈ rest, content r.key ≠ content row.key) :
    Denotes (row ::ₘ rest) (Function.update mp (content row.key) (some (content row.value))) := by
  intro k v
  by_cases hk : k = content row.key
  · subst hk
    rw [Function.update_self, Option.some.injEq]
    constructor
    · rintro rfl
      exact ⟨row, Multiset.mem_cons_self _ _, rfl, rfl⟩
    · rintro ⟨r, hr, hrk, hv⟩
      rcases Multiset.mem_cons.mp hr with rfl | hr
      · exact hv
      · exact absurd hrk (hne r hr)
  · rw [Function.update_of_ne hk, hm]
    constructor
    · rintro ⟨r, hr, h⟩
      exact ⟨r, Multiset.mem_cons_of_mem hr, h⟩
    · rintro ⟨r, hr, hrk, hv⟩
      rcases Multiset.mem_cons.mp hr with rfl | hr
      · exact absurd hrk.symm hk
      · exact ⟨r, hr, hrk, hv⟩

theorem Denotes.remove (hm : Denotes (row ::ₘ rest) mp)
    (hne : ∀ r ∈ rest, content r.key ≠ content row.key) :
    Denotes rest (Function.update mp (content row.key) none) := by
  intro k v
  by_cases hk : k = content row.key
  · subst hk
    rw [Function.update_self]
    refine iff_of_false nofun ?_
    rintro ⟨r, hr, hrk, -⟩
    exact hne r hr hrk
  · rw [Function.update_of_ne hk, hm]
    constructor
    · rintro ⟨r, hr, hrk, hv⟩
      rcases Multiset.mem_cons.mp hr with rfl | hr
      · exact absurd hrk.symm hk
      · exact ⟨r, hr, hrk, hv⟩
    · rintro ⟨r, hr, h⟩
      exact ⟨r, Multiset.mem_cons_of_mem hr, h⟩

/-- **`myjql_set`** binds the key. -/
theorem wp_myjqlSet (hst : StoreRep degree rows s) (hm : Denotes rows mp)
    (hbd : bd → rows.card < 2 * (degree + 1) ^ 13 * degree) (hn : n ≤ maxStrLen) (value : ℕ → Byte)
    (len : ℕ) :
    wp (flatSem bd) (procBody degree storeHandlers) (myjqlSet key n value len)
      (fun _ s' => ∃ rows', StoreRep degree rows' s' ∧
        Denotes rows' (Function.update mp (tabulate key n) (some (tabulate value len)))) s := by
  refine (hst.search (by decide) hbd key n).seq fun rid s₁ h₁ => ?_
  obtain ⟨hst₁, ⟨row, hr, hk, rfl⟩ | ⟨hne, rfl⟩⟩ := h₁
  · -- a bound key: its row is replaced
    refine wp_ite (fun e => absurd e (hst₁.ne_null hr)) fun _ => ?_
    obtain ⟨rest, rfl⟩ := Multiset.exists_cons_of_mem hr
    have hkey := hst₁.key_ne
    obtain ⟨h, t, sp, m, seps, f, hh, hi⟩ := hst₁
    have hshort := hh.owned.short row hr
    refine (hh.readRecord hr).seq fun record s₂ h₂ => ?_
    obtain ⟨rfl, hh₂⟩ := h₂
    have hst₂ : StoreRep degree (row ::ₘ rest) s₂ := ⟨h, t, sp, m, seps, f, hh₂, hi⟩
    refine (hst₂.delete le_rfl hbd).seq fun _ s₃ h₃ => ?_
    obtain ⟨h', t', sp', m', seps', f', hh₃, hi'⟩ := h₃
    refine hh₃.deleteRecord.seq fun _ s₄ h₄ => ?_
    obtain ⟨m₄, hh₄⟩ := h₄
    rw [Multiset.cons_swap] at hh₄
    refine hh₄.deleteString.seq fun _ s₅ hh₅ => ?_
    refine (hh₅.writeString value len).seq fun v s₆ h₆ => ?_
    obtain ⟨d, rfl, hd, hh₆⟩ := h₆
    rw [Multiset.cons_swap] at hh₆
    refine (hi'.insertRow hh₆ le_rfl (fun hb => ?_) hshort hkey).mono fun _ s' h' => ?_
    · have := hbd hb
      rw [Multiset.card_cons] at this
      omega
    · obtain ⟨rid, hst'⟩ := h'
      refine ⟨_, hst', ?_⟩
      have := (hm.remove hkey).add ⟨rid, row.key, d⟩ hkey
      rwa [Function.update_idem, hk, hd.content] at this
  · -- an unbound key
    refine wp_ite (fun _ => ?_) fun e => absurd ⟨rfl, rfl⟩ e
    obtain ⟨h, t, sp, m, seps, f, hh, hi⟩ := hst₁
    refine (hh.writeString key n).seq fun k s₂ h₂ => ?_
    obtain ⟨c, rfl, hc, hh₂⟩ := h₂
    refine (hh₂.writeString value len).seq fun v s₃ h₃ => ?_
    obtain ⟨d, rfl, hd, hh₃⟩ := h₃
    rw [Multiset.cons_swap] at hh₃
    rw [← hc.content] at hne
    refine (hi.insertRow hh₃ le_rfl hbd (by rwa [hc.content, length_tabulate]) hne).mono
      fun _ s' h' => ?_
    obtain ⟨rid, hst'⟩ := h'
    refine ⟨_, hst', ?_⟩
    have := hm.add ⟨rid, c, d⟩ hne
    rwa [hc.content, hd.content] at this

/-- **`myjql_del`** unbinds the key. -/
theorem wp_myjqlDel (hst : StoreRep D rows s) (hm : Denotes rows mp) (hD : 2 ≤ D)
    (hbd : bd → rows.card < 2 * (D + 1) ^ 13 * D) :
    wp (flatSem bd) (procBody D storeHandlers) (myjqlDel key n)
      (fun _ s' => ∃ rows', StoreRep D rows' s' ∧
        Denotes rows' (Function.update mp (tabulate key n) none)) s := by
  refine (hst.search (by omega) hbd key n).seq fun rid s₁ h₁ => ?_
  obtain ⟨hst₁, ⟨row, hr, hk, rfl⟩ | ⟨hne, rfl⟩⟩ := h₁
  · refine wp_ite (fun e => absurd e (hst₁.ne_null hr)) fun _ => ?_
    obtain ⟨rest, rfl⟩ := Multiset.exists_cons_of_mem hr
    have hkey := hst₁.key_ne
    refine (hst₁.delete hD hbd).seq fun _ s₂ h₂ => ?_
    obtain ⟨h', t', sp', m', seps', f', hh₂, hi'⟩ := h₂
    refine (hh₂.readRecord hr).seq fun record s₃ h₃ => ?_
    obtain ⟨rfl, hh₃⟩ := h₃
    refine hh₃.deleteRecord.seq fun _ s₄ h₄ => ?_
    obtain ⟨m₄, hh₄⟩ := h₄
    refine hh₄.deleteString.seq fun _ s₅ hh₅ => ?_
    refine hh₅.deleteString.mono fun _ s₆ hh₆ => ?_
    refine ⟨rest, ⟨h', t', sp', _, seps', f', hh₆, hi'⟩, ?_⟩
    rw [← hk]
    exact hm.remove hkey
  · refine wp_ite (fun _ => wp_pure ⟨rows, hst₁, ?_⟩) fun e => absurd ⟨rfl, rfl⟩ e
    rwa [← hm.absent hne, Function.update_eq_self]

end Get

end MyJQL
