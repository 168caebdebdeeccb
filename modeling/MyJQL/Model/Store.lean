import MyJQL.Model.BTree
import MyJQL.Model.Str

/-!
# The store

`myjql.c`: an index of records, a table of records (`tbl_rec`) and a table of strings (`tbl_str`),
which also holds a copy of the key for every separator of the index.

`procBody` closes the recursion of the whole engine: the body of each recursive function.
-/

set_option linter.unusedSimpArgs false

namespace MyJQL

/-- `MAX_STR_LEN`. -/
abbrev maxStrLen : ℕ := 1024

def tblRec : Table := ⟨.recData, .recFsm⟩

def tblStr : Table := ⟨.strData, .strFsm⟩

/-! ## Records -/

/-- `Record`. -/
structure Record where
  key : RID
  value : RID
  deriving DecidableEq, Repr

/-- `sizeof(Record)`. -/
abbrev recordSize : ℕ := 20

/-- The bytes of a record. -/
def Record.toCells (record : Record) : Cells :=
  writeRID (writeRID (fun _ => default) 0 record.key) 10 record.value

/-- The record at the start of a buffer. -/
def Record.ofCells (m : Cells) : Record := ⟨readRID m 0, readRID m 10⟩

/-- `read_record`. -/
def readRecord (t : Table) (rid : RID) : M Record := do
  return .ofCells (← tableRead t rid fun _ => default)

/-- `write_record`. -/
def writeRecord (t : Table) (record : Record) : M RID := tableInsert t record.toCells recordSize

/-- `delete_record`. -/
def deleteRecord (t : Table) (rid : RID) : M Unit := tableDelete t rid

/-! ## Comparisons and handlers -/

/-- The string of a record's key, or of a separator. -/
def readKey (rid : RID) (leaf : Bool) : M StringRecord := do
  if leaf then do
    let record ← readRecord tblRec rid
    readString tblStr record.key ⟨fun _ => default, 0⟩
  else readString tblStr rid ⟨fun _ => default, 0⟩

/-- `rid_row_row_cmp`. -/
def ridRowRowCmp (a b : RID) (aleaf bleaf : Bool) : M Int := do
  let aa ← readKey a aleaf
  let bb ← readKey b bleaf
  compareStringRecord tblStr aa bb

/-- `rid_ptr_row_cmp`. -/
def ridPtrRowCmp (p : ℕ → Byte) (size : ℕ) (b : RID) (leaf : Bool) : M Int := do
  let rid ← writeString tblStr p size
  let aa ← readString tblStr rid ⟨fun _ => default, 0⟩
  let bb ← readKey b leaf
  let ans ← compareStringRecord tblStr aa bb
  deleteString tblStr rid
  return ans

/-- `insert_handler`. -/
def insertHandler (rid : RID) (leaf : Bool) : M RID := do
  let aa ← readKey rid leaf
  let (size, p) ← loadString tblStr aa (fun _ => default) maxStrLen
  writeString tblStr p size

/-- `delete_handler`. -/
def deleteHandler (rid : RID) : M Unit := deleteString tblStr rid

/-- The functions `myjql.c` passes to the index. -/
def storeHandlers : Handlers where
  cmpRow := ridRowRowCmp
  cmpPtr := ridPtrRowCmp
  insertHandler := insertHandler
  deleteHandler := deleteHandler

/-- The body of each recursive function. -/
def procBody (D : ℕ) (H : Handlers) : Bodies Eff Proc
  | _, .hashTableInsertLoop i ctrl block addr blockAddr temp count flag =>
    hashTableInsertLoop i ctrl block addr blockAddr temp count flag
  | _, .hashTablePopLoop i ctrl block size addr blockAddr =>
    hashTablePopLoop i ctrl block size addr blockAddr
  | _, .compareLoop t aa bb => compareLoop t aa bb
  | _, .deleteLoop t rid chunk => deleteLoop t rid chunk
  | _, .treeSearch i bnode key size => treeSearch H i bnode key size
  | _, .treeInsert i bnode rid newchildentry => treeInsert D H i bnode rid newchildentry
  | _, .treeDelete i parent child rid oldchildentry => treeDelete D H i parent child rid oldchildentry

/-! ## The interface -/

/-- `DEGREE`: two entries for a page of 128 bytes. -/
abbrev degree : ℕ := (128 - 8 - 2 * 8 - 4) / 2 / (8 + 10)

/-- `myjql_init`, on the file found under each name, or on none. -/
def myjqlInit (disk : PoolId → Option (FileInfo Page)) : PoolId → BufferPool Page
  | .bpIdx => bTreeInit degree (disk .bpIdx)
  | .recData => (tableInit (disk .recData) (disk .recFsm)).1
  | .recFsm => (tableInit (disk .recData) (disk .recFsm)).2
  | .strData => (tableInit (disk .strData) (disk .strFsm)).1
  | .strFsm => (tableInit (disk .strData) (disk .strFsm)).2

/-- `myjql_close`: the files left on disk. -/
def myjqlClose (pools : PoolId → BufferPool Page) : PoolId → FileInfo Page
  | .bpIdx => bTreeClose (pools .bpIdx)
  | .recData => (tableClose (pools .recData) (pools .recFsm)).1
  | .recFsm => (tableClose (pools .recData) (pools .recFsm)).2
  | .strData => (tableClose (pools .strData) (pools .strFsm)).1
  | .strFsm => (tableClose (pools .strData) (pools .strFsm)).2

/-- `myjql_get`: the result, and the buffer of the value afterwards. -/
def myjqlGet (key : ℕ → Byte) (keyLen : ℕ) (value : ℕ → Byte) (maxSize : ℕ) :
    M (Int × (ℕ → Byte)) := do
  let rid ← bTreeSearch .bpIdx key keyLen
  if rid.blockAddr = -1 ∧ rid.idx = 0 then return (-1, value)
  else do
    let record ← readRecord tblRec rid
    let strrecord ← readString tblStr record.value ⟨fun _ => default, 0⟩
    let (size, value) ← loadString tblStr strrecord value maxSize
    return (size, value)

/-- `myjql_set`. -/
def myjqlSet (key : ℕ → Byte) (keyLen : ℕ) (value : ℕ → Byte) (valueLen : ℕ) : M Unit := do
  let rid ← bTreeSearch .bpIdx key keyLen
  if rid.blockAddr = -1 ∧ rid.idx = 0 then do
    let k ← writeString tblStr key keyLen
    let v ← writeString tblStr value valueLen
    let rid ← writeRecord tblRec ⟨k, v⟩
    let _ ← bTreeInsert degree .bpIdx rid
    return ()
  else do
    let record ← readRecord tblRec rid
    bTreeDelete storeHandlers .bpIdx rid
    deleteRecord tblRec rid
    deleteString tblStr record.value
    let v ← writeString tblStr value valueLen
    let rid ← writeRecord tblRec { record with value := v }
    let _ ← bTreeInsert degree .bpIdx rid
    return ()

/-- `myjql_del`. -/
def myjqlDel (key : ℕ → Byte) (keyLen : ℕ) : M Unit := do
  let rid ← bTreeSearch .bpIdx key keyLen
  if rid.blockAddr = -1 ∧ rid.idx = 0 then return ()
  else do
    bTreeDelete storeHandlers .bpIdx rid
    let record ← readRecord tblRec rid
    deleteRecord tblRec rid
    deleteString tblStr record.key
    deleteString tblStr record.value

/-- A call of the interface, with the buffers it is given. -/
inductive StoreOp
  | get (key : ℕ → Byte) (keyLen : ℕ) (value : ℕ → Byte) (maxSize : ℕ)
  | set (key : ℕ → Byte) (keyLen : ℕ) (value : ℕ → Byte) (valueLen : ℕ)
  | del (key : ℕ → Byte) (keyLen : ℕ)

namespace StoreOp

def keyLen : StoreOp → ℕ
  | get _ keyLen _ _ => keyLen
  | set _ keyLen _ _ => keyLen
  | del _ keyLen => keyLen

/-- The result of `myjql_get`, with its buffer afterwards; the other calls return nothing. -/
def prog : StoreOp → M (Option (Int × (ℕ → Byte)))
  | get key keyLen value maxSize => do return some (← myjqlGet key keyLen value maxSize)
  | set key keyLen value valueLen => do
    myjqlSet key keyLen value valueLen
    return none
  | del key keyLen => do
    myjqlDel key keyLen
    return none

end StoreOp

/-- Calls one after another, with their results. -/
def runOps : List StoreOp → M (List (Option (Int × (ℕ → Byte))))
  | [] => return []
  | op :: ops => do
    let r ← op.prog
    let rs ← runOps ops
    return r :: rs

end MyJQL
