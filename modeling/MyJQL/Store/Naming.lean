import MyJQL.BTree.Recycle
import MyJQL.Storage.Pointers
import MyJQL.Store.Spec

/-!
# The names of the store's separators

* `hashTableInsert_inStep`, …, **`insertHandler_inStep`**: `insert_handler`, and every function it
  calls, does the same whatever the numbers of its pointers;
* **`ridRowRowCmp_reads`**: `rid_row_row_cmp` only reads;
* **`storeNaming`**: so a comparison does not change which `RID` the next separator gets;
* **`store_insert_recycled`**: an insertion into the index of the store makes the same tree on
  recycled and on fresh pages.
-/

set_option linter.unusedSimpArgs false

namespace MyJQL

section InStep

variable {i j : PoolId} {shift : PoolId → ℕ} {α : Type}

/-- Programs that do the same through pointers with other numbers, and nothing on pool `i`. -/
abbrev Alike (i : PoolId) (shift : PoolId → ℕ) (Q : α → α → Prop) (p p' : M α) : Prop :=
  InStep (EffMoved i shift) (ProcMoved i shift) Q p p'

variable {p q ctrl ctrl' block block' dir dir' : PagePtr}

theorem getPage_inStep (hj : j ≠ i) (addr : Int) :
    Alike i shift (PtrMoved i shift) (getPage j addr) (getPage j addr) := .eff (.getPage hj addr)

theorem release_inStep (hj : j ≠ i) (addr : Int) :
    Alike i shift Eq (release j addr) (release j addr) := .eff (.release hj addr)

theorem fileLength_inStep (hj : j ≠ i) : Alike i shift Eq (fileLength j) (fileLength j) :=
  .eff (.fileLength hj)

theorem writePageTo_inStep (hj : j ≠ i) (page : Page) (addr : Int) :
    Alike i shift Eq (writePageTo j page addr) (writePageTo j page addr) :=
  .eff (.writePage hj page addr)

theorem load_inStep (h : PtrMoved i shift p q) : Alike i shift Eq p.load q.load := .eff (.load h)

theorem store_inStep (h : PtrMoved i shift p q) (page : Page) :
    Alike i shift Eq (p.store page) (q.store page) := .eff (.store h page)

theorem read_inStep (h : PtrMoved i shift p q) (cast : Page → α) :
    Alike i shift Eq (p.load >>= fun x => pure (cast x)) (q.load >>= fun x => pure (cast x)) :=
  (load_inStep h).seq fun _ => .pure rfl

theorem write_inStep (h : PtrMoved i shift p q) (cast : Page → α) (page : α → Page) :
    Alike i shift Eq ((p.load >>= fun x => pure (cast x)) >>= fun a => p.store (page a))
      ((q.load >>= fun x => pure (cast x)) >>= fun a => q.store (page a)) :=
  (read_inStep h cast).seq fun _ => store_inStep h _

/-! ## The free-space map -/

theorem hashTableAddBlock_inStep (hj : j ≠ i) (hc : PtrMoved i shift ctrl ctrl')
    {link link' : Int → M Unit} (hl : ∀ a, Alike i shift Eq (link a) (link' a)) (addr : Int) :
    Alike i shift Eq (hashTableAddBlock j ctrl addr link) (hashTableAddBlock j ctrl' addr link') := by
  refine (read_inStep hc _).seq fun c => .ite ?_ ?_
  · exact (fileLength_inStep hj).seq fun a => (hl a).seq fun _ => (fileLength_inStep hj).seq fun b =>
      writePageTo_inStep hj _ _
  · refine (read_inStep hc _).seq fun c => (hl _).seq fun _ => (getPage_inStep hj _).bind
      fun p q hp => ?_
    exact (read_inStep hp _).seq fun b => (write_inStep hc _ _).seq fun _ =>
      (write_inStep hp _ _).seq fun _ => release_inStep hj _

theorem hashTableInsertLoop_inStep (hj : j ≠ i) (hc : PtrMoved i shift ctrl ctrl')
    (hb : PtrMoved i shift block block') (addr blockAddr temp : Int) (count flag : ℕ) :
    Alike i shift (Option.Rel fun r r' => PtrMoved i shift r.1 r'.1 ∧ r.2 = r'.2)
      (hashTableInsertLoop j ctrl block addr blockAddr temp count flag)
      (hashTableInsertLoop j ctrl' block' addr blockAddr temp count flag) := by
  refine (read_inStep hb _).seq fun b => .ite ?_ (.pure (.some ⟨hb, rfl⟩))
  refine InStep.seq (.ite ((release_inStep hj _).seq fun _ => .pure rfl) (.pure rfl)) fun flag =>
    (read_inStep hb _).seq fun b => .ite ?_ ?_
  · exact (hashTableAddBlock_inStep hj hc (fun a => write_inStep hb _ _) addr).seq fun _ =>
      (release_inStep hj _).seq fun _ => (release_inStep hj _).seq fun _ => InStep.pure Option.Rel.none
  · exact (read_inStep hb _).seq fun b => (read_inStep hb _).seq fun b =>
      (getPage_inStep hj _).bind fun p q hp => .proc (.hashTableInsertLoop hj hc hp ..)

theorem hashTableInsert_inStep (hj : j ≠ i) (size : Short) (addr : Int) :
    Alike i shift Eq (hashTableInsert j size addr) (hashTableInsert j size addr) := by
  refine (getPage_inStep hj _).bind fun ctrl ctrl' hc => (getPage_inStep hj _).bind
    fun dir dir' hd => (read_inStep hd _).seq fun d => (release_inStep hj _).seq fun _ => .ite ?_ ?_
  · exact (hashTableAddBlock_inStep hj hc (fun a => write_inStep hd _ _) addr).seq fun _ =>
      release_inStep hj _
  · refine (getPage_inStep hj _).bind fun block block' hb =>
      InStep.bind (.proc (.hashTableInsertLoop hj hc hb ..)) ?_
    rintro _ _ (@⟨⟨block, temp, flag⟩, ⟨block', _, _⟩, hp, e⟩ | _)
    · cases e
      exact (write_inStep hp _ _).seq fun _ => (InStep.when (release_inStep hj _)).seq fun _ =>
        (release_inStep hj _).seq fun _ => release_inStep hj _
    · exact .pure rfl

theorem hashTableUnlink_inStep (hc : PtrMoved i shift ctrl ctrl') (hb : PtrMoved i shift block block')
    {link link' : Int → M Unit} (hl : ∀ a, Alike i shift Eq (link a) (link' a)) (addr : Int) :
    Alike i shift Eq (hashTableUnlink ctrl block addr link)
      (hashTableUnlink ctrl' block' addr link') := by
  refine (read_inStep hb _).seq fun b => InStep.when ?_
  exact (read_inStep hb _).seq fun b => (hl _).seq fun _ => (read_inStep hc _).seq fun c =>
    (write_inStep hb _ _).seq fun _ => write_inStep hc _ _

theorem hashTableTakeLast_inStep (hj : j ≠ i) (hc : PtrMoved i shift ctrl ctrl') (dAddr : Int)
    (k : ℕ) : Alike i shift Eq (hashTableTakeLast j ctrl dAddr k)
      (hashTableTakeLast j ctrl' dAddr k) := by
  refine (getPage_inStep hj _).bind fun dir dir' hd => (read_inStep hd _).seq fun d => .ite ?_ ?_
  · refine (getPage_inStep hj _).bind fun block block' hb => (read_inStep hb _).seq fun b => ?_
    exact (write_inStep hb _ _).seq fun _ =>
      (hashTableUnlink_inStep hc hb (fun a => write_inStep hd _ _) _).seq fun _ =>
      (release_inStep hj _).seq fun _ => (release_inStep hj _).seq fun _ =>
      (release_inStep hj _).seq fun _ => .pure rfl
  · exact (release_inStep hj _).seq fun _ => .pure rfl

theorem hashTablePopLowerBound_inStep (hj : j ≠ i) (size : Short) :
    Alike i shift Eq (hashTablePopLowerBound j size) (hashTablePopLowerBound j size) := by
  refine (getPage_inStep hj _).bind fun ctrl ctrl' hc => (read_inStep hc _).seq fun c => ?_
  refine (InStep.forReturn (fun b => .ite (InStep.forReturn (fun k => ?_) _ _)
    (InStep.forReturn (fun k => ?_) _ _)) _ _).seq fun ans => ?_
  · exact hashTableTakeLast_inStep hj hc _ _
  · exact hashTableTakeLast_inStep hj hc _ _
  · cases ans with
    | some ans => exact .pure rfl
    | none => exact (release_inStep hj _).seq fun _ => .pure rfl

/-! ## Tables and strings -/

variable {t : Table}

theorem tableRead_inStep (ht : t.data ≠ i) (rid : RID) (dest : Cells) :
    Alike i shift Eq (tableRead t rid dest) (tableRead t rid dest) := by
  refine (getPage_inStep ht _).bind fun p q hp => (read_inStep hp _).seq fun b => ?_
  refine InStep.seq (.ite (.pure rfl) ?_) fun d => (release_inStep ht _).seq fun _ => .pure rfl
  cases b.getItem rid.idx with
  | some offset => exact .pure rfl
  | none => exact .op .undefined fun b => b.elim

theorem tableInsert_inStep (hd : t.data ≠ i) (hf : t.fsm ≠ i) (src : Cells) (size : ℕ) :
    Alike i shift Eq (tableInsert t src size) (tableInsert t src size) := by
  refine (hashTablePopLowerBound_inStep hf _).seq fun a => .ite ?_ ?_
  · exact (fileLength_inStep hd).seq fun b => (fileLength_inStep hd).seq fun c =>
      (hashTableInsert_inStep hf _ _).seq fun _ => (fileLength_inStep hd).seq fun d =>
      (writePageTo_inStep hd _ _).seq fun _ => .pure rfl
  · refine (getPage_inStep hd _).bind fun p q hp => (read_inStep hp _).seq fun b => ?_
    exact (store_inStep hp _).seq fun _ => (read_inStep hp _).seq fun b =>
      (hashTableInsert_inStep hf _ _).seq fun _ => (release_inStep hd _).seq fun _ => .pure rfl

theorem nextChar_inStep (ht : t.data ≠ i) (record : StringRecord) :
    Alike i shift Eq (nextChar t record) (nextChar t record) :=
  .ite (.pure rfl) (InStep.seq ((tableRead_inStep ht _ _).seq fun _ => .pure rfl) fun _ => .pure rfl)

theorem loadLoop_inStep (ht : t.data ≠ i) (n count : ℕ) (record : StringRecord)
    (dest : ℕ → Byte) :
    Alike i shift Eq (loadLoop t n count record dest) (loadLoop t n count record dest) := by
  induction n generalizing count record dest with
  | zero => exact .pure rfl
  | succ n ih => exact .ite ((nextChar_inStep ht record).seq fun r => ih _ _ _) (.pure rfl)

theorem writeChunks_inStep (hd : t.data ≠ i) (hf : t.fsm ≠ i) (data : ℕ → Byte) (n off : ℕ)
    (chunk : Cells) (rid : RID) :
    Alike i shift Eq (writeChunks t data n off chunk rid) (writeChunks t data n off chunk rid) :=
  (InStep.forFold (fun _ _ => (tableInsert_inStep hd hf _ _).seq fun _ => .pure rfl) _ _ _).seq
    fun _ => .pure rfl

theorem writeString_inStep (hd : t.data ≠ i) (hf : t.fsm ≠ i) (data : ℕ → Byte) (size : ℕ) :
    Alike i shift Eq (writeString t data size) (writeString t data size) :=
  .ite (tableInsert_inStep hd hf _ _) (.ite
    ((tableInsert_inStep hd hf _ _).seq fun _ => writeChunks_inStep hd hf _ _ _ _ _)
    ((tableInsert_inStep hd hf _ _).seq fun _ => writeChunks_inStep hd hf _ _ _ _ _))

/-- **`insert_handler`** does the same whatever the numbers of its pointers. -/
theorem insertHandler_inStep (rid : RID) (leaf : Bool) :
    Alike .bpIdx shift Eq (insertHandler rid leaf) (insertHandler rid leaf) := by
  have hstr : ∀ rid record, Alike .bpIdx shift Eq (readString tblStr rid record)
      (readString tblStr rid record) := fun rid record =>
    (tableRead_inStep (by decide) _ _).seq fun _ => .pure rfl
  refine InStep.seq (.ite ?_ (hstr _ _)) fun aa =>
    (loadLoop_inStep (by decide) _ _ _ _).seq fun r => writeString_inStep (by decide) (by decide) _ _
  exact InStep.seq ((tableRead_inStep (by decide) _ _).seq fun _ => .pure rfl) fun record => hstr _ _

theorem procBody_inStep {D : ℕ} {H : Handlers} :
    BodiesInStep (EffMoved i shift) (ProcMoved i shift) (procBody D H) := by
  intro β c c' P hc
  cases hc with
  | hashTableInsertLoop hj hc hb => exact hashTableInsertLoop_inStep hj hc hb ..

end InStep

/-! ## Comparisons -/

/-- The loop of `compare_string_record`. -/
inductive ProcReads : ∀ β : Type, Proc β → Prop
  | compareLoop (t : Table) (aa bb : StringRecord) : ProcReads _ (.compareLoop t aa bb)

section Reads

variable {α : Type} {t : Table}

/-- Programs that only read. -/
abbrev Reads (p : M α) : Prop := Only EffReads ProcReads p

theorem tableRead_reads (rid : RID) (dest : Cells) : Reads (tableRead t rid dest) := by
  refine Only.bind (.eff trivial) fun p => Only.bind (Only.bind (.eff trivial) fun _ => .pure _)
    fun b => Only.bind (.ite (.pure _) ?_) fun d => Only.bind (.eff trivial) fun _ => .pure _
  cases b.getItem rid.idx with
  | some offset => exact .pure _
  | none => exact .op trivial fun b => b.elim

theorem readString_reads (rid : RID) (record : StringRecord) : Reads (readString t rid record) :=
  (tableRead_reads _ _).bind fun _ => .pure _

theorem nextChar_reads (record : StringRecord) : Reads (nextChar t record) :=
  .ite (.pure _) ((readString_reads _ _).bind fun _ => .pure _)

theorem compareLoop_reads (aa bb : StringRecord) : Reads (compareLoop t aa bb) :=
  .ite ((nextChar_reads _).bind fun _ => (nextChar_reads _).bind fun _ =>
    .ite (.proc (.compareLoop ..)) (.ite (.pure _) (.pure _)))
    (.ite (.pure _) (.ite (.pure _) (.pure _)))

theorem readKey_reads (rid : RID) (leaf : Bool) : Reads (readKey rid leaf) :=
  .ite (Only.bind ((tableRead_reads _ _).bind fun _ => .pure _) fun _ => readString_reads _ _)
    (readString_reads _ _)

/-- **`rid_row_row_cmp`** only reads. -/
theorem ridRowRowCmp_reads (a b : RID) (aleaf bleaf : Bool) :
    Reads (ridRowRowCmp a b aleaf bleaf) :=
  (readKey_reads _ _).bind fun _ => (readKey_reads _ _).bind fun _ => .proc (.compareLoop ..)

theorem procBody_reads {D : ℕ} {H : Handlers} {β : Type} (c : Proc β) (hc : ProcReads β c) :
    Reads (procBody D H c) := by
  cases hc with
  | compareLoop t aa bb => exact compareLoop_reads aa bb

end Reads

/-! ## Names -/

/-- The pages of the tables; those of the index do not count. -/
def tablePages (s : Flat) : PoolId → (Int → Page) × Int := fun j =>
  if j = .bpIdx then (fun _ => .empty, 0) else (s j).pages

/-- Arrays with these pages, before the first request. -/
def freshArrays (c : PoolId → (Int → Page) × Int) : Arrays := fun j =>
  ⟨(c j).1, (c j).2, fun _ => 0, 0⟩

open Classical in
/-- The `RID` that `insert_handler` gives on these pages. -/
noncomputable def sepName (D : ℕ) (c : PoolId → (Int → Page) × Int) (r : RID) : RID :=
  if h : ∃ b u', Returns arraySem (procBody D storeHandlers) (insertHandler r true) (freshArrays c)
    b u' then h.choose else RID.null

/-- The pages and pointers of a flat pool. -/
def FlatPool.array (f : FlatPool) : PageArray :=
  ⟨f.mem, f.length, fun n => if n < f.next then (f.ptrs n).getD 0 else 0, f.next⟩

theorem FlatPool.onArray (f : FlatPool) : f.OnArray f.array :=
  ⟨rfl, rfl, rfl, fun n a h => (if_pos h.1).trans (by rw [h.2, Option.getD_some])⟩

theorem arraysMoved_fresh (s : Flat) : ArraysMoved .bpIdx (fun j => (s j).next)
    (fun j => (s j).array) (freshArrays (tablePages s)) := by
  intro j hj
  simp only [freshArrays, tablePages, if_neg hj]
  exact ⟨rfl, rfl, (Nat.zero_add _).symm, fun n => if_neg (Nat.le_add_left _ n).not_gt⟩

/-- **`insert_handler`** gives the `RID` that the pages of the tables determine. -/
theorem insertHandler_eq_sepName {bd : Bool} {D : ℕ} {r rid : RID} {s s' : Flat}
    (h : Returns (flatSem bd) (procBody D storeHandlers) (insertHandler r true) s rid s') :
    rid = sepName D (tablePages s) r := by
  obtain ⟨n, hn⟩ := h
  obtain ⟨u', hu, -⟩ := run_sim (array_simulates bd)
    (fun j => (s j).onArray : OnArrays s fun j => (s j).array) hn
  obtain ⟨b, v', hv, rfl, -⟩ := run_inStep array_moved procBody_inStep
    (insertHandler_inStep r true) (arraysMoved_fresh s) ⟨n, hu⟩
  have hex : ∃ b u', Returns arraySem (procBody D storeHandlers) (insertHandler r true)
    (freshArrays (tablePages s)) b u' := ⟨rid, v', hv⟩
  rw [sepName, dif_pos hex]
  obtain ⟨w, hw⟩ := hex.choose_spec
  exact (hv.unique hw).1

/-- **The store names its separators** after the pages of its tables, which comparisons keep. -/
noncomputable def storeNaming (D : ℕ) (rows : Multiset Row) :
    Naming (storeSpec D rows).toInsertSpec (PoolId → (Int → Page) × Int) where
  content := tablePages
  name := sepName D
  frame s f := by
    funext j
    by_cases hj : j = .bpIdx
    · rw [tablePages, tablePages, if_pos hj, if_pos hj]
    · rw [tablePages, tablePages, Function.update_of_ne hj]
  cmpRow h ha hb := by
    obtain ⟨b, s', hr, -⟩ := (storeSpec D rows).cmpRow h ha hb
    refine ⟨b, s', hr, ?_⟩
    have hkeep := run_only (flat_keeps true) procBody_reads (ridRowRowCmp_reads _ _ _ _) hr
    funext j
    rw [tablePages, tablePages, congrFun hkeep j]
  insertHandler h hx := by
    obtain ⟨b, s', hr, -⟩ := (storeSpec D rows).insertHandler h hx
    exact ⟨b, s', hr, insertHandler_eq_sepName hr⟩

/-- **The index of the store**: recycled and fresh pages give the same tree, the `RID`s of the
separators included. -/
theorem store_insert_recycled {D : ℕ} {rows : Multiset Row} {recs : Records (List ℤ)}
    {t t₂ : Machine} {r : RID} {k : List ℤ} (hD : 2 ≤ D) (ht : TreeReach (storeSpec D rows) recs t)
    (hcut : CutFree .bpIdx t t₂) (hk : recs r = some k)
    (hn : ∀ r' ∈ (t .bpIdx).leafRids, recs r' ≠ some k)
    (hlt : (t .bpIdx).leafRids.length < 2 * (D + 1) ^ 13 * D) : ∃ b t' t₂',
    Returns machineSem (procBody D storeHandlers) (bTreeInsert D .bpIdx r) t b t' ∧
    Returns machineSem (procBody D storeHandlers) (bTreeInsert D .bpIdx r) t₂ b t₂' ∧
    SameTree (List ℤ) (t .bpIdx) (t' .bpIdx) (t₂' .bpIdx) := by
  obtain ⟨⟨b, t', hr⟩, b₂, t₂', hr₂⟩ := ht.insert_returns hD hcut hk hn hlt
  obtain ⟨rfl, hsame⟩ := ht.insert_sameTree hD (storeNaming D rows) hcut hk hn hr hr₂
  exact ⟨b₂, t', t₂', hr, hr₂, hsame⟩

end MyJQL
