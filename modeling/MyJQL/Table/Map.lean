import MyJQL.Table.Ops
import MyJQL.HashMap.Multimap

/-!
# A table is a finite map

* `Mapped.flat`: the contents of a buffer pool, as a flat pool;
* `TableReach`: the states reached from empty files by `table_insert`, `table_delete` and
  `table_read` of live `RID`s, with the map their results describe;
* `TableHeld`: a state that holds the map;
* **`table_refines_map`**, **`freeSpaceMap_agrees`**: in every state reached the live items are
  those of the map, and the free-space map lists every block once, under its free space.
-/

set_option linter.unusedSimpArgs false

namespace MyJQL

/-- The contents of a buffer pool, with nothing pinned. -/
def Mapped.flat (m : Mapped) : FlatPool := .ofFile { m.pool.file with data := m.pool.view }

section Flat

variable {f : FlatPool} {m : Mapped}

theorem Cached.length_flat (h : Cached f m) : m.flat.length = f.length := by
  obtain ⟨L, hL⟩ := h
  exact hL.length.symm

theorem Cached.mem_flat (h : Cached f m) {a : Int} (ha : a ≠ -1) : m.flat.mem a = f.mem a := by
  obtain ⟨L, hL⟩ := h
  exact (hL.mem a ha).symm

theorem Cached.valid_flat (h : Cached f m) {a : Int} : m.flat.Valid a ↔ f.Valid a := by
  rw [FlatPool.Valid, FlatPool.Valid, h.length_flat]

theorem Cached.blockAt_flat (h : Cached f m) {a : Int} (ha : f.Valid a) :
    m.flat.blockAt a = f.blockAt a := by
  rw [FlatPool.blockAt, h.mem_flat ha.ne_null]
  rfl

theorem Cached.item_flat (h : Cached f m) (rid : RID) : m.flat.item rid = f.item rid := by
  by_cases hc : f.Valid rid.blockAddr ∧ 0 ≤ rid.idx
  · rw [FlatPool.item, FlatPool.item, if_pos ⟨h.valid_flat.mpr hc.1, hc.2⟩, if_pos hc,
      h.blockAt_flat hc.1]
  · rw [FlatPool.item, FlatPool.item, if_neg fun h' => hc ⟨h.valid_flat.mp h'.1, h'.2⟩, if_neg hc]

theorem Cached.chosen_flat {f' : FlatPool} {m' : Mapped} (h : Cached f m) (h' : Cached f' m')
    {size : ℕ} {a : Int} (hc : f.Chosen size a f') : m.flat.Chosen size a m'.flat := by
  rcases hc with ⟨h1, h2, h3⟩ | ⟨h1, h2, h3, h4⟩
  · refine Or.inl ⟨by rw [h1, h.length_flat], by rw [h'.length_flat, h2, h.length_flat],
      fun x hx => ?_⟩
    have hx := h.valid_flat.mp hx
    rw [h.blockAt_flat hx]
    exact h3 x hx
  · refine Or.inr ⟨h.valid_flat.mpr h1, by rw [h'.length_flat, h2, h.length_flat],
      by rwa [h.blockAt_flat h1], fun x hx hs => ?_⟩
    have hx := h.valid_flat.mp hx
    rw [h.blockAt_flat hx] at hs ⊢
    rw [h.blockAt_flat h1]
    exact h4 x hx hs

end Flat

/-! ## Reachable tables -/

/-- The machine with the table `t` on absent files. -/
def tableMachine (t : Table) : Machine :=
  Function.update (Function.update (fun _ => Mapped.new (initBufferPool none)) t.data
    (Mapped.new (tableInit none none).1)) t.fsm (Mapped.new (tableInit none none).2)

/-- The states reached from empty files, each with the map that the calls and their results so far
describe. -/
inductive TableReach (D : ℕ) (H : Handlers) (t : Table) : Machine → ItemMap → Prop
  | init : TableReach D H t (tableMachine t) fun _ => none
  | insert {s s' : Machine} {m : ItemMap} {src : Cells} {size : ℕ} {rid : RID}
      (hs : TableReach D H t s m) (hpos : 1 ≤ size) (hmax : (size : Int) ≤ pageSize - 10)
      (hr : Returns machineSem (procBody D H) (tableInsert t src size) s rid s') :
      TableReach D H t s' (Function.update m rid (some (tabulate (fun k => src k) size)))
  | delete {s s' : Machine} {m : ItemMap} {rid : RID} {l : List Cell}
      (hs : TableReach D H t s m) (hl : m rid = some l)
      (hr : Returns machineSem (procBody D H) (tableDelete t rid) s () s') :
      TableReach D H t s' (Function.update m rid none)
  | read {s s' : Machine} {m : ItemMap} {rid : RID} {l : List Cell} {dest d : Cells}
      (hs : TableReach D H t s m) (hl : m rid = some l)
      (hr : Returns machineSem (procBody D H) (tableRead t rid dest) s d s') : TableReach D H t s' m

/-- The machine holds a table with the map `m`. -/
def TableHeld (t : Table) (m : ItemMap) (f : Flat) (s : Machine) : Prop :=
  Holds f s ∧ TableRep (f t.data) (f t.fsm) m

variable {D : ℕ} {H : Handlers} {t : Table} [ht : t.Proper] {s s' : Machine} {f : Flat} {m : ItemMap}
  {rid : RID} {l : List Cell}

theorem tableRep_empty : TableRep (.ofFile (openFile none).2)
    (.ofFile (hashTableInit none fsmBlocks).file) fun _ => none := by
  have hv : ∀ a, ¬ (FlatPool.ofFile (openFile (P := Page) none).2).Valid a := fun a ha =>
    absurd ha.2.1 (not_lt.mpr ha.1)
  refine ⟨fun a ha => absurd ha (hv a), fun rid => (if_neg fun h => hv _ h.1).symm,
    ⟨_, hashRep_init (by decide), fun k a => ?_⟩, ⟨rfl, rfl⟩, le_rfl, rfl⟩
  rw [if_neg fun h => hv a h.1]
  exact Multiset.count_zero a

theorem tableMachine_held : ∃ f, TableHeld t (fun _ => none) f (tableMachine t) := by
  refine ⟨t.set (fun _ => .ofFile (openFile none).2) (.ofFile (openFile none).2)
    (.ofFile (hashTableInit none fsmBlocks).file), ?_, ?_⟩
  · exact Holds.update (Holds.update (fun _ => cached_init le_rfl) (cached_init le_rfl))
      (cached_hashTableInit (by decide))
  · rw [Table.set_data, Table.set_fsm]
    exact tableRep_empty

theorem TableHeld.insert (h : TableHeld t m f s) {src : Cells} {size : ℕ} (hpos : 1 ≤ size)
    (hmax : (size : Int) ≤ pageSize - 10) :
    ∃ rid s' f', Returns machineSem (procBody D H) (tableInsert t src size) s rid s' ∧ m rid = none ∧
      (s t.data).flat.Chosen size rid.blockAddr (s' t.data).flat ∧
      TableHeld t (Function.update m rid (some (tabulate (fun k => src k) size))) f' s' := by
  have hw : wp (flatSem true) (procBody D H) (tableInsert t src size) _ _ :=
    wp_tableInsert (s := f) h.2 hpos (by simp only [pageSize] at hmax; omega)
  rw [Table.set_self] at hw
  obtain ⟨rid, _, s', hr, hs', h1, -, fd, fm, rfl, h2, h3⟩ := hw.simulated machine_simulates h.1
  have hd := hs' t.data
  rw [Table.set_data] at hd
  rw [length_tabulate] at h2
  exact ⟨rid, s', _, hr, h1, (h.1 t.data).chosen_flat hd h2, hs',
    by rwa [Table.set_data, Table.set_fsm]⟩

theorem TableHeld.delete (h : TableHeld t m f s) (hl : m rid = some l) :
    ∃ s' f', Returns machineSem (procBody D H) (tableDelete t rid) s () s' ∧
      TableHeld t (Function.update m rid none) f' s' := by
  have hw : wp (flatSem true) (procBody D H) (tableDelete t rid) _ _ :=
    wp_tableDelete (s := f) h.2 hl
  rw [Table.set_self] at hw
  obtain ⟨_, _, s', hr, hs', fd, fm, rfl, -, h1⟩ := hw.simulated machine_simulates h.1
  exact ⟨s', _, hr, hs', by rwa [Table.set_data, Table.set_fsm]⟩

theorem TableHeld.read (h : TableHeld t m f s) (hl : m rid = some l) (dest : Cells) :
    ∃ s' f', Returns machineSem (procBody D H) (tableRead t rid dest) s (copyTo l dest) s' ∧
      TableHeld t m f' s' := by
  have hw : wp (flatSem true) (procBody D H) (tableRead t rid dest) _ _ :=
    wp_tableRead (s := f) h.2 hl dest
  rw [Table.set_self] at hw
  obtain ⟨_, _, s', hr, hs', rfl, fd, rfl, h1⟩ := hw.simulated machine_simulates h.1
  exact ⟨s', _, hr, hs', by rwa [Table.set_data, Table.set_fsm]⟩

/-- **Every state reached holds the map.** -/
theorem TableReach.held (h : TableReach D H t s m) : ∃ f, TableHeld t m f s := by
  induction h with
  | init => exact tableMachine_held
  | insert hs hpos hmax hr ih =>
    obtain ⟨f, hf⟩ := ih
    obtain ⟨_, _, f', hr', -, -, hf'⟩ := hf.insert hpos hmax
    obtain ⟨rfl, rfl⟩ := hr.unique hr'
    exact ⟨f', hf'⟩
  | delete hs hl hr ih =>
    obtain ⟨f, hf⟩ := ih
    obtain ⟨_, f', hr', hf'⟩ := hf.delete hl
    obtain ⟨-, rfl⟩ := hr.unique hr'
    exact ⟨f', hf'⟩
  | read hs hl hr ih =>
    obtain ⟨f, hf⟩ := ih
    obtain ⟨_, f', hr', hf'⟩ := hf.read hl _
    obtain ⟨-, rfl⟩ := hr.unique hr'
    exact ⟨f', hf'⟩

/-- **A table is a finite map** from `RID`s to items. In every state reached, the used slots are the
live `RID`s of the map; `table_insert` returns an `RID` that is not live; `table_read` of a live
`RID` yields its item, and `table_delete` of it returns; and no block overflows. -/
theorem table_refines_map (h : TableReach D H t s m) :
    (∀ rid, (s t.data).flat.item rid = m rid) ∧
    (∀ src (size : ℕ), 1 ≤ size → (size : Int) ≤ pageSize - 10 → ∃ rid s',
      Returns machineSem (procBody D H) (tableInsert t src size) s rid s' ∧ m rid = none) ∧
    (∀ rid l, m rid = some l → ∀ dest, ∃ s',
      Returns machineSem (procBody D H) (tableRead t rid dest) s (copyTo l dest) s') ∧
    (∀ rid l, m rid = some l → ∃ s', Returns machineSem (procBody D H) (tableDelete t rid) s () s') ∧
    ∀ a, (s t.data).flat.Valid a →
      ∃ b, (s t.data).flat.mem a = .block b ∧ b.headPtr ≤ b.tailPtr := by
  obtain ⟨f, hf⟩ := h.held
  have hc := hf.1 t.data
  refine ⟨fun rid => ?_, fun src size hpos hmax => ?_, fun rid l hl dest => ?_, fun rid l hl => ?_,
    fun a ha => ?_⟩
  · rw [hc.item_flat, hf.2.item]
  · obtain ⟨rid, s', -, hr, h1, -⟩ := hf.insert (D := D) (H := H) hpos hmax
    exact ⟨rid, s', hr, h1⟩
  · obtain ⟨s', -, hr, -⟩ := hf.read (D := D) (H := H) hl dest
    exact ⟨s', hr⟩
  · obtain ⟨s', -, hr, -⟩ := hf.delete (D := D) (H := H) hl
    exact ⟨s', hr⟩
  · have ha := hc.valid_flat.mp ha
    obtain ⟨b, hb, hwf⟩ := hf.2.block a ha
    exact ⟨b, by rw [hc.mem_flat ha.ne_null, hb], hwf.head_le⟩

/-! ## A run -/

/-- Calls that change a table. -/
inductive TableOp
  | insert (src : Cells) (size : ℕ)
  | delete (rid : RID)

/-- Allowed calls one after the other, nested at most `fuel` deep, with the map of the table. -/
def tableRun (D : ℕ) (H : Handlers) (t : Table) (fuel : ℕ) :
    List TableOp → Machine → ItemMap → Option (Machine × ItemMap)
  | [], s, m => some (s, m)
  | .insert src size :: ops, s, m =>
    if 1 ≤ size ∧ (size : Int) ≤ pageSize - 10 then
      (run machineSem (procBody D H) fuel (tableInsert t src size) s).bind fun r =>
        tableRun D H t fuel ops r.2 (Function.update m r.1 (some (tabulate (fun k => src k) size)))
    else none
  | .delete rid :: ops, s, m =>
    if (m rid).isSome then
      (run machineSem (procBody D H) fuel (tableDelete t rid) s).bind fun r =>
        tableRun D H t fuel ops r.2 (Function.update m rid none)
    else none

omit ht in
theorem TableReach.run {fuel : ℕ} {ops : List TableOp} {m' : ItemMap} (h : TableReach D H t s m)
    (hr : tableRun D H t fuel ops s m = some (s', m')) : TableReach D H t s' m' := by
  induction ops generalizing s m with
  | nil =>
    obtain ⟨rfl, rfl⟩ := Prod.mk.inj (Option.some.inj hr)
    exact h
  | cons op ops ih =>
    cases op with
    | insert src size =>
      rw [tableRun] at hr
      split_ifs at hr with hc
      obtain ⟨⟨rid, s₁⟩, h₁, hr⟩ := Option.bind_eq_some_iff.mp hr
      exact ih (h.insert hc.1 hc.2 ⟨fuel, h₁⟩) hr
    | delete rid =>
      rw [tableRun] at hr
      split_ifs at hr with hc
      obtain ⟨l, hl⟩ := Option.isSome_iff_exists.mp hc
      obtain ⟨⟨_, s₁⟩, h₁, hr⟩ := Option.bind_eq_some_iff.mp hr
      exact ih (h.delete hl ⟨fuel, h₁⟩) hr

/-- Three items, the second of which is deleted. -/
def tableOps : List TableOp :=
  [.insert (fun _ => .byte 7) 3, .insert (fun _ => .byte 8) 5, .insert (fun _ => .byte 9) 2,
    .delete ⟨0, 1⟩]

/-- The third item, which the deletion has moved, is read back, and a fourth one is inserted. -/
theorem table_refines_map_read : ∃ s m rid s' s'',
    tableRun degree storeHandlers tblRec 20 tableOps (tableMachine tblRec) (fun _ => none) =
      some (s, m) ∧
    Returns machineSem (procBody degree storeHandlers) (tableRead tblRec ⟨0, 2⟩ fun _ => .byte 0) s
      (copyTo [.byte 9, .byte 9] fun _ => .byte 0) s' ∧
    Returns machineSem (procBody degree storeHandlers) (tableInsert tblRec (fun _ => .byte 3) 4) s
      rid s'' ∧ m rid = none := by
  have h : (tableRun degree storeHandlers tblRec 20 tableOps (tableMachine tblRec)
      fun _ => none).bind (fun r => some (r.2 ⟨0, 2⟩)) =
      some (some [.byte 9, .byte 9]) := by decide +kernel
  obtain ⟨⟨s, m⟩, hr, h⟩ := Option.bind_eq_some_iff.mp h
  have hreach : TableReach degree storeHandlers tblRec s m := TableReach.init.run hr
  obtain ⟨-, hins, hread, -⟩ := table_refines_map hreach
  obtain ⟨s', hs'⟩ := hread ⟨0, 2⟩ _ (Option.some.inj h) fun _ => .byte 0
  obtain ⟨rid, s'', hs'', hfresh⟩ := hins (fun _ => .byte 3) 4 (by decide) (by decide)
  exact ⟨s, m, rid, s', s'', hr, hs', hs'', hfresh⟩

/-- **The free-space map agrees with the blocks.** In every state reached it lists the address of
every block once, in the bucket numbered by its free space, and nothing else; the entry that
`table_delete` of a live `RID` pops is there; and `table_insert` appends a block only when no block
has room, otherwise it takes one with the least room that suffices. -/
theorem freeSpaceMap_agrees (h : TableReach D H t s m) :
    (∀ a (k : ℕ), (k : Int) < pageSize → ((s t.fsm).bucket k).count a =
      if (s t.data).flat.Valid a ∧ ((s t.data).flat.blockAt a).freeSpace = k then 1 else 0) ∧
    (∀ a, (s t.data).flat.Valid a → 0 ≤ ((s t.data).flat.blockAt a).freeSpace ∧
      ((s t.data).flat.blockAt a).freeSpace < pageSize) ∧
    (∀ rid l, m rid = some l → rid.blockAddr ∈
      (s t.fsm).bucket ((s t.data).flat.blockAt rid.blockAddr).freeSpace.toNat) ∧
    ∀ src (size : ℕ) rid s', 1 ≤ size → (size : Int) ≤ pageSize - 10 →
      Returns machineSem (procBody D H) (tableInsert t src size) s rid s' →
      (s t.data).flat.Chosen size rid.blockAddr (s' t.data).flat := by
  obtain ⟨f, hf⟩ := h.held
  have hc := hf.1 t.data
  obtain ⟨B, hB, hcount⟩ := hf.2.fsm
  have hbucket : ∀ k : ℕ, (k : Int) < pageSize → (s t.fsm).bucket k = B k := fun k hk =>
    HashHeld.bucket_eq (n := fsmBlocks) ⟨hf.1, hf.2.pins.2, hB⟩ (bucket_lt hk).1
  have hfs : ∀ a, (s t.data).flat.Valid a → 0 ≤ ((s t.data).flat.blockAt a).freeSpace ∧
      ((s t.data).flat.blockAt a).freeSpace < pageSize := fun a ha => by
    have ha := hc.valid_flat.mp ha
    obtain ⟨b, hb, hwf⟩ := hf.2.block a ha
    rw [hc.blockAt_flat ha, FlatPool.blockAt, hb]
    exact hwf.freeSpace_mem
  have hagree : ∀ a (k : ℕ), (k : Int) < pageSize → ((s t.fsm).bucket k).count a =
      if (s t.data).flat.Valid a ∧ ((s t.data).flat.blockAt a).freeSpace = k then 1 else 0 :=
    fun a k hk => by
      rw [hbucket k hk, hcount]
      by_cases ha : (f t.data).Valid a
      · rw [hc.blockAt_flat ha]
        exact if_congr (and_congr_left' hc.valid_flat.symm) rfl rfl
      · rw [if_neg fun h' => ha h'.1, if_neg fun h' => ha (hc.valid_flat.mp h'.1)]
  refine ⟨hagree, hfs, fun rid l hl => ?_, fun src size rid s' hpos hmax hr => ?_⟩
  · have ha := hc.valid_flat.mpr (hf.2.live hl).1
    obtain ⟨h1, h2⟩ := hfs _ ha
    rw [← Multiset.count_pos, hagree _ _ (by omega), if_pos ⟨ha, by omega⟩]
    exact Nat.one_pos
  · obtain ⟨rid', s'', -, hr', -, h1, -⟩ := hf.insert (D := D) (H := H) hpos hmax
    obtain ⟨rfl, rfl⟩ := hr.unique hr'
    exact h1

/-- A block with a slot given up is listed once, under its free space, and a fourth item goes to that
slot. -/
theorem freeSpaceMap_agrees_choice : ∃ (s s' : Machine) (m : ItemMap) (rid : RID),
    tableRun degree storeHandlers tblRec 20 tableOps (tableMachine tblRec) (fun _ => none) =
      some (s, m) ∧
    ((s tblRec.fsm).bucket 105).count 0 = 1 ∧
    (∀ k < 128, k ≠ 105 → ((s tblRec.fsm).bucket k).count 0 = 0) ∧
    Returns machineSem (procBody degree storeHandlers) (tableInsert tblRec (fun _ => .byte 3) 4) s
      rid s' ∧ rid = ⟨0, 1⟩ ∧ (s tblRec.data).flat.Chosen 4 0 (s' tblRec.data).flat := by
  have h : (tableRun degree storeHandlers tblRec 20 tableOps (tableMachine tblRec)
      fun _ => none).bind (fun r => (run machineSem (procBody degree storeHandlers) 20
        (tableInsert tblRec (fun _ => .byte 3) 4) r.1).bind fun r' => some (decide (r'.1 = ⟨0, 1⟩ ∧
          (r.1 tblRec.data).pool.file.length = 128 ∧
          ((r.1 tblRec.data).flat.blockAt 0).freeSpace = 105))) = some true := by decide +kernel
  obtain ⟨⟨s, m⟩, hr, h⟩ := Option.bind_eq_some_iff.mp h
  obtain ⟨⟨rid, s'⟩, hins, h⟩ := Option.bind_eq_some_iff.mp h
  obtain ⟨rfl, hlen, hfree⟩ := of_decide_eq_true (Option.some.inj h)
  have hreach : TableReach degree storeHandlers tblRec s m := TableReach.init.run hr
  obtain ⟨hcount, -, -, hchosen⟩ := freeSpaceMap_agrees hreach
  have hv : (s tblRec.data).flat.Valid 0 := ⟨by decide, lt_of_lt_of_eq (by decide) hlen.symm, rfl⟩
  refine ⟨s, s', m, ⟨0, 1⟩, hr, ?_, fun k hk hne => ?_, ⟨20, hins⟩, rfl,
    hchosen _ _ _ _ (by decide) (by decide) ⟨20, hins⟩⟩
  · rw [hcount 0 105 (by decide), if_pos ⟨hv, hfree⟩]
  · rw [hcount 0 k (by simp only [pageSize]; omega), if_neg fun hc => hne ?_]
    exact_mod_cast (hfree.symm.trans hc.2).symm

end MyJQL
