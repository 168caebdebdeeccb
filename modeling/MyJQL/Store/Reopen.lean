import MyJQL.Store.Runs

/-!
# Closing and reopening the store

* `FlatPool.calm`: a flat pool whose pointers are dead; `FlatPool.calm_cached`,
  **`Cached.reopened`**: a buffer pool without references, and the pool opened on the file it
  leaves, both hold it;
* `reopen t`: `myjql_close`, then `myjql_init` on the same files;
* **`store_reopen`**: later calls return what they would have returned.
-/

set_option linter.unusedSimpArgs false

namespace MyJQL

/-! ## Pools -/

/-- The flat pool, with all pointers dead. -/
def FlatPool.calm (f : FlatPool) : FlatPool := { f with recent := [], ptrs := fun _ => none }

variable {f : FlatPool} {m : Mapped}

theorem Cached.calm (h : Cached f m) : Cached f.calm m := by
  obtain ⟨L, hL⟩ := h
  exact ⟨L, hL.wf, hL.length, hL.mem, hL.ref, hL.pins, List.nil_prefix, hL.next,
    fun _ _ ht => nomatch ht.1.2⟩

/-- The pool opened on the file that `m` leaves. The requests go on counting: no pointer of before
is used again. -/
def Mapped.reopened (m : Mapped) : Mapped :=
  { m with pool := initBufferPool (some (closeBufferPool m.pool)) }

/-- **The file left has the contents of the pool.** -/
theorem Cached.reopened (h : Cached f m) (hp : f.pins = 0) : Cached f.calm m.reopened := by
  obtain ⟨L, hL⟩ := h
  obtain ⟨hlen, hdata⟩ := hL.wf.closeBufferPool
  have hfile : (openFile (some (closeBufferPool m.pool))).2 = closeBufferPool m.pool := by
    rw [openFile, if_neg (by rw [hlen]; exact not_not.mpr hL.wf.file_length.2)]
  have hc : Cached _ (Mapped.new (initBufferPool (some (closeBufferPool m.pool)))) :=
    cached_init (by rw [hfile, hlen]; exact hL.wf.file_length.1)
  obtain ⟨L', hL'⟩ := hc
  refine ⟨L', hL'.wf, ?_, fun a ha => ?_, fun a ha => ?_, fun a ha => ?_, List.nil_prefix, hL.next,
    fun _ _ ht => by cases ht.1.2⟩
  · change f.length = (openFile _).2.length
    rw [hfile, hlen, hL.length]
  · change f.mem a = (initBufferPool _).view a
    rw [BufferPool.view_init ha, hfile, hdata a ha, hL.mem a ha]
  · exact (hL'.ref a ha).trans (by rw [FlatPool.calm, hp]; rfl)
  · exact absurd ha (hp ▸ Multiset.notMem_zero a)

/-! ## Stores -/

/-- `myjql_close`, then `myjql_init` on the same files. -/
def reopen (t : Machine) : Machine := fun i =>
  { t i with pool := myjqlInit (fun j => some (myjqlClose (fun j => (t j).pool) j)) i }

variable {rows : Multiset Row} {seps : Multiset Str} {s : Flat} {t t' : Machine} {mp : Bindings}

theorem Indexed.calm {D h : ℕ} {tr : Tree Int RID (List ℤ) h} {sp : Space}
    (hi : Indexed D rows seps tr sp f) : Indexed D rows seps tr sp f.calm :=
  { hi with ctl := ⟨hi.ctl.wf, hi.ctl.length, hi.ctl.ctrl, hi.ctl.chain⟩ }

theorem TableRep.calm {fd fm : FlatPool} {m : ItemMap} (h : TableRep fd fm m) :
    TableRep fd.calm fm.calm m := ⟨h.block, h.item, h.fsm, h.pins, h.length⟩

theorem StoreRep.calm {D : ℕ} (hst : StoreRep D rows s) : StoreRep D rows fun i => (s i).calm := by
  obtain ⟨h, tr, sp, m, seps, f, hm, hi⟩ := hst
  exact ⟨h, tr, sp, m, seps, f.calm, ⟨hm.recTable.calm, hm.strTable.calm, hm.owned,
    congrArg FlatPool.calm hm.index⟩, hi.calm⟩

theorem TableRep.fsm_length {fd fm : FlatPool} {m : ItemMap} (h : TableRep fd fm m) :
    fm.length ≠ 0 := by
  obtain ⟨B, ⟨M, hM, -⟩, -⟩ := h.fsm
  have := hM.length.1
  simp only [pageSize, fsmBlocks] at this
  omega

/-- `myjql_init` on the files of a store opens them. -/
theorem StoreHeld.reopen_eq (ht : StoreHeld rows s t) (i : PoolId) :
    reopen t i = (t i).reopened := by
  have hlen : ∀ i, (openFile (some (closeBufferPool (t i).pool))).2.length = (s i).length := fun i => by
    obtain ⟨L, hL⟩ := ht.1 i
    have h := hL.wf.closeBufferPool.1
    rw [openFile, if_neg (by rw [h]; exact not_not.mpr hL.wf.file_length.2), hL.length, ← h]
  obtain ⟨hs, h, tr, sp, m, seps, f, hm, hi⟩ := ht
  have hidx : (s .bpIdx).length ≠ 0 := by
    rw [hm.index, hi.ctl.length]
    exact hi.ctl.wf.len.1.ne'
  unfold reopen Mapped.reopened
  cases i
  · exact congrArg (fun p => { t .bpIdx with pool := p })
      (if_neg fun e => hidx ((hlen .bpIdx).symm.trans e))
  · rfl
  · exact congrArg (fun p => { t .recFsm with pool := p })
      (if_neg fun e => hm.recTable.fsm_length ((hlen .recFsm).symm.trans e))
  · rfl
  · exact congrArg (fun p => { t .strFsm with pool := p })
      (if_neg fun e => hm.strTable.fsm_length ((hlen .strFsm).symm.trans e))

theorem StoreHeld.reopened (ht : StoreHeld rows s t) :
    StoreHeld rows (fun i => (s i).calm) t ∧ StoreHeld rows (fun i => (s i).calm) (reopen t) := by
  refine ⟨⟨fun i => (ht.1 i).calm, ht.2.calm⟩, fun i => ?_, ht.2.calm⟩
  rw [ht.reopen_eq]
  exact (ht.1 i).reopened (ht.2.pins i)

/-- **Closing and reopening preserves the store.** In every machine reached, every sequence of calls
returns the same results with and without `myjql_close` and `myjql_init` before it. -/
theorem store_reopen (ht : StoreReach t) {ops : List StoreOp}
    (hn : ∀ op ∈ ops, op.keyLen ≤ maxStrLen) (rs : List (Option (Int × (ℕ → Byte)))) :
    (∃ t', Returns machineSem (procBody degree storeHandlers) (runOps ops) t rs t') ↔
      ∃ t', Returns machineSem (procBody degree storeHandlers) (runOps ops) (reopen t) rs t' := by
  obtain ⟨rows, mp, s, hst, hm⟩ := ht.held
  obtain ⟨h₁, h₂⟩ := hst.reopened
  exact ⟨fun ⟨t', hr⟩ => wp.same_result h₁.1 h₂.1 (wp_runOps _ h₁.2 hm nofun hn) hr,
    fun ⟨t', hr⟩ => wp.same_result h₂.1 h₁.1 (wp_runOps _ h₁.2 hm nofun hn) hr⟩

/-- A key is set, the store is closed and reopened, and the key is read. -/
theorem store_reopen_get : ∃ t value t',
    Returns machineSem (procBody degree storeHandlers) (runOps [.set (fun _ => 7) 1 (fun _ => 9) 25])
      storeMachine [none] t ∧
    Returns machineSem (procBody degree storeHandlers) (runOps [.get (fun _ => 7) 1 (fun _ => 0) 23])
      (reopen t) [some (23, value)] t' ∧
    tabulate value 24 = List.replicate 23 9 ++ [0] := by
  obtain ⟨rows, s, t, hr, hreach, hheld, hm⟩ :=
    exists_storeReach [.set (fun _ => 7) 1 (fun _ => 9) 25] (by decide) (by decide)
  obtain ⟨rs, s', t', hr', -, rfl, -⟩ := wp.simulated machine_simulates hheld.1
    (wp_runOps [.get (fun _ => 7) 1 (fun _ => 0) 23] hheld.2 hm (fun _ l hl => by
      rw [bindingsAfter, bindingsAfter, ← List.foldl_append]
      refine few_of_length ?_
      have hl := hl.length_le
      rw [List.length_append]
      exact (Nat.add_le_add_left hl 1).trans_lt (by decide)) (by decide))
  obtain ⟨t'', hr''⟩ := (store_reopen hreach (by decide) _).mp ⟨t', hr'⟩
  exact ⟨t, _, t'', hr, hr'', by decide⟩

end MyJQL
