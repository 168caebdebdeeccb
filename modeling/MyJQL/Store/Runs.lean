import MyJQL.Store.Map
import MyJQL.Storage.Array

/-!
# The store over whole runs

* `StoreReach`: the machines reached from `myjql_init` on absent files by calls of the store;
  **`StoreReach.held`**: each holds a store;
* **`store_pins`**: every call passes the checks, and leaves all reference counts at `0`;
* `Mapped.sepRids`: the `RID`s in the inner nodes; **`store_owned`**: every live item of the two
  tables has one owner.
-/

set_option linter.unusedSimpArgs false

namespace MyJQL

/-- **The machines reached** from absent files by calls with keys that fit. -/
inductive StoreReach : Machine → Prop
  | init : StoreReach storeMachine
  | op {t t' : Machine} {op : StoreOp} {r : Option (Int × (ℕ → Byte))} (ht : StoreReach t)
      (hn : op.keyLen ≤ maxStrLen)
      (hr : Returns machineSem (procBody degree storeHandlers) op.prog t r t') : StoreReach t'

/-- The machine holds a store with the rows `rows`. -/
def StoreHeld (rows : Multiset Row) (s : Flat) (t : Machine) : Prop :=
  Holds s t ∧ StoreRep degree rows s

variable {rows : Multiset Row} {s : Flat} {t t' : Machine} {op : StoreOp} {mp : Bindings}

/-- **Every machine reached holds a store.** -/
theorem StoreReach.held (ht : StoreReach t) :
    ∃ rows mp s, StoreHeld rows s t ∧ Denotes rows mp := by
  induction ht with
  | init => exact ⟨0, _, storeFlat, ⟨storeMachine_holds, storeFlat_rep⟩, denotes_empty⟩
  | op _ hn hr ih =>
    obtain ⟨rows, mp, s, ⟨hs, hst⟩, hm⟩ := ih
    obtain ⟨s', hs', ⟨-, rows', hst', hm'⟩, -⟩ := wp.of_machine hs (wp_storeOp hst hm nofun hn) hr
    exact ⟨rows', _, s', ⟨hs', hst'⟩, hm'⟩

theorem StoreReach.runOps {ops : List StoreOp} {rs : List (Option (Int × (ℕ → Byte)))}
    (ht : StoreReach t) (hn : ∀ op ∈ ops, op.keyLen ≤ maxStrLen)
    (hr : Returns machineSem (procBody degree storeHandlers) (runOps ops) t rs t') :
    StoreReach t' := by
  induction ops generalizing t rs with
  | nil =>
    obtain ⟨n, hr⟩ := hr
    obtain ⟨-, rfl⟩ := Prod.mk.inj (Option.some.inj hr)
    exact ht
  | cons op ops ih =>
    obtain ⟨r, t₁, h₁, hr⟩ := hr.of_bind
    obtain ⟨rs', t₂, h₂, n, hr⟩ := hr.of_bind
    obtain ⟨-, rfl⟩ := Prod.mk.inj (Option.some.inj hr)
    exact ih (ht.op (hn op List.mem_cons_self) h₁) (fun o ho => hn o (List.mem_cons_of_mem _ ho)) h₂

theorem exists_storeReach (ops : List StoreOp) (hn : ∀ op ∈ ops, op.keyLen ≤ maxStrLen)
    (hl : ops.length < maxKeys) : ∃ rows s t,
    Returns machineSem (procBody degree storeHandlers) (MyJQL.runOps ops) storeMachine
      (answers (fun _ => none) ops) t ∧
    StoreReach t ∧ StoreHeld rows s t ∧ Denotes rows (bindingsAfter (fun _ => none) ops) := by
  obtain ⟨rs, s, t, hr, hs, rfl, rows, hst, hm⟩ :=
    wp.simulated machine_simulates storeMachine_holds (wp_runOps ops storeFlat_rep denotes_empty
      (fun _ l hp => few_of_length (hp.length_le.trans_lt hl)) hn)
  exact ⟨rows, s, t, hr, StoreReach.init.runOps hn hr, ⟨hs, hst⟩, hm⟩

/-! ## Reference counts -/

theorem StoreRep.pins {D : ℕ} (hst : StoreRep D rows s) (i : PoolId) : (s i).pins = 0 := by
  obtain ⟨h, tr, sp, m, seps, f, hm, hi⟩ := hst
  cases i
  · rw [hm.index]
    exact hi.pins
  · exact hm.recTable.pins.1
  · exact hm.recTable.pins.2
  · exact hm.strTable.pins.1
  · exact hm.strTable.pins.2

theorem StoreHeld.tree (ht : StoreHeld rows s t) : ∃ (h : ℕ) (tr : Tree Int RID (List ℤ) h)
    (sp : Space) (m : Tables) (seps : Multiset Str), Heap m rows seps (s .bpIdx) s ∧
      Indexed degree rows seps tr sp (s .bpIdx) ∧
      TreeHeld (storeSpec degree rows) (keyIn rows) tr sp s t := by
  obtain ⟨hs, h, tr, sp, m, seps, f, hm, hi⟩ := ht
  have hf := hm.index
  subst hf
  exact ⟨h, tr, sp, m, seps, hm, hi, hs, hi.rep hm fun _ hr => hr⟩

theorem StoreHeld.leafRids (ht : StoreHeld rows s t) :
    ((t .bpIdx).leafRids : Multiset RID) = rows.map Row.rid := by
  obtain ⟨h, tr, sp, m, seps, -, hi, htr⟩ := ht.tree
  rw [htr.leafRids, names, ← Multiset.map_coe, hi.rows_eq, Multiset.map_map]
  rfl

/-- **Pins balance and suffice.** With fewer than `4 * 3 ^ 13` keys in the index every call returns,
every request finds its page cached, a frame unused or a reference count of `0`, no release finds a
reference count of `0`, and all reference counts are `0` afterwards. -/
theorem store_pins (ht : StoreReach t) (hf : (t .bpIdx).leafRids.length < 4 * 3 ^ 13)
    (hn : op.keyLen ≤ maxStrLen) :
    ∃ r t', Returns checkedSem (procBody degree storeHandlers) op.prog t r t' ∧
      ∀ i, ∀ k < cachePage, (t' i).pool.ref k = 0 := by
  obtain ⟨rows, mp, s, hst, hm⟩ := ht.held
  have hcard : rows.card < maxKeys := by
    have := congrArg Multiset.card hst.leafRids
    rw [Multiset.coe_card, Multiset.card_map] at this
    rwa [← this]
  have hfew : Few mp := by
    rw [Few, ← hst.2.card hm]
    exact hcard
  obtain ⟨r, s', t', hr, hs', -, rows', hst', -⟩ :=
    wp.simulated checked_simulates hst.1 (wp_storeOp hst.2 hm (fun _ => hfew) hn)
  exact ⟨r, t', hr, fun i => ((hs' i).idle_of_pins (hst'.pins i)).ref⟩

theorem storeMachine_leafRids : (storeMachine .bpIdx).leafRids = [] := by
  have h := StoreHeld.leafRids ⟨storeMachine_holds, storeFlat_rep⟩
  rw [Multiset.map_zero] at h
  exact (Multiset.coe_eq_zero _).mp h

/-- The first call. -/
theorem store_pins_first : ∃ r t',
    Returns checkedSem (procBody degree storeHandlers)
      (StoreOp.set (fun _ => 7) 1 (fun _ => 9) 5).prog storeMachine r t' ∧
    ∀ i, ∀ k < cachePage, (t' i).pool.ref k = 0 := by
  refine store_pins .init ?_ (by decide)
  rw [storeMachine_leafRids]
  decide

/-! ## Owners -/

/-- The `RID`s in the inner nodes from page `a` on. -/
def sepRids (mem : Int → Page) : ℕ → Int → List RID
  | 0, _ => []
  | n + 1, a =>
    if (mem a).toBNode.leaf then []
    else (mem a).toBNode.rows ++ (mem a).toBNode.kids.flatMap (sepRids mem n)

/-- The `RID`s in the inner nodes, as the pages of the pool have them. -/
def Mapped.sepRids (m : Mapped) : List RID :=
  MyJQL.sepRids m.pool.view (m.pool.file.length / pageSize).toNat (m.pool.view 0).toBCtrl.rootNode

theorem Tree.Stored.sepRids {K : Type} {D : ℕ} {mem : Int → Page} :
    ∀ {h n m : ℕ} {t : Tree Int RID K h},
    t.Stored mem → t.Occ D m → h < n → (sepRids mem n t.addr).Perm (names (sepsOf t.flat))
  | _, 0, _, _ => fun _ _ hn => absurd hn (Nat.not_lt_zero _)
  | 0, n + 1, _, t => fun ⟨b, hb, hl, _, _⟩ _ _ => by
    change (MyJQL.sepRids mem (n + 1) (Leaf.addr t)).Perm (names (sepsOf ((Leaf.rows t).map _)))
    rw [sepsOf_leaf, MyJQL.sepRids, hb]
    simp only [Page.toBNode, hl, if_true]
    exact List.Perm.refl _
  | h + 1, n + 1, _, t => fun ⟨⟨b, hb, hl, hr, hk⟩, hst⟩ ⟨_, hlen, hko⟩ hn => by
    change (MyJQL.sepRids mem (n + 1) (Inner.addr t)).Perm
      (names (sepsOf (weave (Inner.rows t) ((Inner.kids t).map Tree.flat))))
    rw [MyJQL.sepRids, hb]
    simp only [Page.toBNode, hl, Bool.false_eq_true, if_false, hr, hk]
    have hkids : ∀ ks : List (Tree Int RID K h), (∀ c ∈ ks, c.Stored mem ∧ c.Occ D D) →
        ((addrs ks).flatMap (MyJQL.sepRids mem n)).Perm
          (names ((ks.map Tree.flat).flatMap sepsOf)) := fun ks hks => by
      induction ks with
      | nil => exact List.Perm.refl _
      | cons c ks ih =>
        rw [addrs, List.map_cons, List.flatMap_cons, List.map_cons, List.flatMap_cons, names,
          List.map_append]
        obtain ⟨h1, h2⟩ := hks c List.mem_cons_self
        exact (h1.sepRids h2 (Nat.lt_of_succ_lt_succ hn)).append
          (ih fun d hd => hks d (List.mem_cons_of_mem _ hd))
    refine ((hkids _ fun c hc => ⟨hst c hc, hko c hc⟩).append_left _).trans ?_
    rw [names, names, ← List.map_append]
    refine List.Perm.map _ (sepsOf_weave ?_).symm
    rw [List.length_map, hlen]

theorem StoreHeld.sepRids {h : ℕ} {tr : Tree Int RID (List ℤ) h} {sp : Space} {seps : Multiset Str}
    (hi : Indexed degree rows seps tr sp (s .bpIdx))
    (ht : TreeHeld (storeSpec degree rows) (keyIn rows) tr sp s t) :
    ((t .bpIdx).sepRids : Multiset RID) = seps.map headRID := by
  have hlt : h < ((t .bpIdx).pool.file.length / pageSize).toNat := by
    refine (Tree.height_lt_pages ht.rep.occ).trans_le ?_
    have hlen := ht.rep.ctl.length
    rw [ht.holds.length, hlen]
    exact length_le_of_pages ht.rep.tiles.nodup (fun a ha => (ht.rep.tiles.used a ha).1.1)
      ht.rep.ctl.wf.len.2
  rw [Mapped.sepRids, ht.ctrl]
  change (MyJQL.sepRids _ _ tr.addr : Multiset RID) = _
  rw [Multiset.coe_eq_coe.mpr (ht.stored.sepRids ht.rep.occ hlt), names, ← Multiset.map_coe,
    hi.seps_eq, Multiset.map_map]
  rfl

/-- The record with the `RID` `r`. -/
def Machine.record (t : Machine) (r : RID) : Record :=
  .ofCells (copyTo ((t.items tblRec r).getD []) fun _ => default)

/-- **No leak and no dangling reference.** In every machine reached:

* the live items of `tbl_rec` are those named by the leaves, each once;
* the live items of `tbl_str` are the chunks of strings with a chunk each of its own: the key and the
  value of every record in the leaves, and one string for every entry of every inner node. -/
theorem store_owned (ht : StoreReach t) :
    (t .bpIdx).leafRids.Nodup ∧
    (∀ r, t.items tblRec r ≠ none ↔ r ∈ (t .bpIdx).leafRids) ∧
    ∃ strs : Multiset Str, Strings (t.items tblStr) strs ∧
      strs.map headRID = ((t .bpIdx).leafRids.map fun r => (t.record r).key : List RID) +
        ((t .bpIdx).leafRids.map fun r => (t.record r).value : List RID) +
        ((t .bpIdx).sepRids : Multiset RID) := by
  obtain ⟨rows, mp, s, hst, -⟩ := ht.held
  obtain ⟨h, tr, sp, m, seps, hm, hi, htr⟩ := hst.tree
  have hrids := hst.leafRids
  have hrecs : t.items tblRec = m.recs := TableHeld.items ⟨hst.1, hm.recTable⟩
  have hstrs : t.items tblStr = m.strs := TableHeld.items ⟨hst.1, hm.strTable⟩
  have hrecord : ∀ row ∈ rows, t.record row.rid = row.record := fun row hr => by
    rw [Machine.record, hrecs, (hm.owned.record row hr).1]
    exact Record.ofCells_copyTo _ _
  have hmap : ∀ g : Record → RID,
      (((t .bpIdx).leafRids.map fun r => g (t.record r) : List RID) : Multiset RID) =
        rows.map fun row => g row.record := fun g => by
    rw [← Multiset.map_coe, hrids, Multiset.map_map]
    exact Multiset.map_congr rfl fun row hr => congrArg g (hrecord row hr)
  have hmem : ∀ r, r ∈ (t .bpIdx).leafRids ↔ ∃ row ∈ rows, row.rid = r := fun r => by
    rw [← Multiset.mem_coe, hrids, Multiset.mem_map]
  refine ⟨?_, fun r => ?_, strsOf rows + seps, hstrs ▸ hm.owned.strings, ?_⟩
  · rw [← Multiset.coe_nodup, hrids]
    exact hm.owned.nodup
  · rw [hrecs, hmem]
    refine ⟨hm.owned.live r, ?_⟩
    rintro ⟨row, hr, rfl⟩
    rw [(hm.owned.record row hr).1]
    exact Option.some_ne_none _
  · rw [hmap Record.key, hmap Record.value, StoreHeld.sepRids hi htr, strsOf, Multiset.map_add,
      Multiset.map_add, Multiset.map_map, Multiset.map_map]
    rfl

theorem Tree.sepsOf_ne_nil {K : Type} {D h : ℕ} {tr : Tree Int RID K h}
    (hocc : tr.Occ D (rootMin h)) (hlt : 2 * D < (rowsOf tr.flat).length) :
    sepsOf tr.flat ≠ [] := by
  cases h with
  | zero =>
    rw [Tree.flat, rowsOf_leaf] at hlt
    exact absurd hlt (not_lt.mpr hocc.2)
  | succ h =>
    obtain ⟨⟨hmin, -⟩, hlen, -⟩ := hocc
    have hkids : ((Inner.kids tr).map Tree.flat).length = (Inner.rows tr).length + 1 := by
      rw [List.length_map, hlen]
    have hw := (sepsOf_weave hkids).length_eq
    intro hnil
    rw [Tree.flat] at hnil
    rw [hnil, List.length_append, List.length_nil] at hw
    have hpos := (one_le_rootMin (Nat.succ_ne_zero h)).trans hmin
    omega

theorem StoreHeld.sepRids_ne_nil (ht : StoreHeld rows s t) (hlt : 2 * degree < rows.card) :
    (t .bpIdx).sepRids ≠ [] := by
  obtain ⟨h, tr, sp, m, seps, -, hi, htr⟩ := ht.tree
  have hrows := congrArg Multiset.card hi.rows_eq
  rw [Multiset.coe_card, Multiset.card_map] at hrows
  intro hnil
  have hseps := StoreHeld.sepRids hi htr
  rw [hnil] at hseps
  have hz := hi.seps_eq
  rw [Multiset.map_eq_zero.mp hseps.symm, Multiset.map_zero] at hz
  exact Tree.sepsOf_ne_nil hi.occ (hrows ▸ hlt) ((Multiset.coe_eq_zero _).mp hz)

theorem Denotes.length_le (hm : Denotes rows mp) {l : List (List Byte)} (hl : l.Nodup)
    (hb : ∀ k ∈ l, mp k ≠ none) : l.length ≤ rows.card := by
  have hle : (l : Multiset (List Byte)) ≤ rows.map fun row => content row.key := by
    refine (Multiset.le_iff_subset (Multiset.coe_nodup.mpr hl)).mpr fun k hk => ?_
    obtain ⟨v, hv⟩ := Option.ne_none_iff_exists'.mp (hb k hk)
    obtain ⟨row, hrow, hkey, -⟩ := (hm k v).mp hv
    exact Multiset.mem_map.mpr ⟨row, hrow, hkey⟩
  have hcard := Multiset.card_le_card hle
  rwa [Multiset.coe_card, Multiset.card_map] at hcard

/-- Six keys are set and one is deleted. -/
def sixKeys : List StoreOp :=
  [1, 2, 3, 4, 5, 6].map (fun k => .set (fun _ => k) 1 (fun _ => 9) 25) ++ [.del (fun _ => 2) 1]

/-- The items of a store with five keys. -/
theorem store_owned_five : ∃ t,
    Returns machineSem (procBody degree storeHandlers) (runOps sixKeys) storeMachine
      (List.replicate 7 none) t ∧
    5 ≤ (t .bpIdx).leafRids.length ∧ (t .bpIdx).sepRids ≠ [] ∧
    (∀ r, t.items tblRec r ≠ none ↔ r ∈ (t .bpIdx).leafRids) ∧
    ∃ strs : Multiset Str, Strings (t.items tblStr) strs ∧ 11 ≤ strs.card := by
  obtain ⟨rows, s, t, hr, hreach, hheld, hm⟩ := exists_storeReach sixKeys (by decide)
    (by decide)
  have hcard : 5 ≤ rows.card := hm.length_le (l := [[1], [3], [4], [5], [6]]) (by decide) (by decide)
  have hrids := congrArg Multiset.card hheld.leafRids
  rw [Multiset.coe_card, Multiset.card_map] at hrids
  have hseps := hheld.sepRids_ne_nil hcard
  obtain ⟨-, hlive, strs, hstrs, hheads⟩ := store_owned hreach
  have hlen := congrArg Multiset.card hheads
  simp only [Multiset.card_map, Multiset.card_add, Multiset.coe_card, List.length_map] at hlen
  have hpos := List.length_pos_iff.mpr hseps
  exact ⟨t, hr, by omega, hseps, hlive, strs, hstrs, by omega⟩

end MyJQL
