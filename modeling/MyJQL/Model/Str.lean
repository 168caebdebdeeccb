import MyJQL.Model.Table

/-!
# Strings

`str.c`. A string is a chain of chunks in a table, each with the `RID` of the next, its length and
its bytes.
-/

set_option linter.unusedSimpArgs false

namespace MyJQL

/-- `STR_CHUNK_MAX_SIZE`. -/
abbrev strChunkMaxSize : ℕ := 32

/-- `STR_CHUNK_MAX_LEN`. -/
abbrev strChunkMaxLen : ℕ := 20

/-- `get_str_chunk_rid(chunk)`. -/
def strChunkRID (chunk : Cells) : RID := readRID chunk 0

/-- `get_str_chunk_size(chunk)`. -/
def strChunkSize (chunk : Cells) : Int := readScalar 2 chunk 10

/-- `get_str_chunk_data_ptr(chunk)[i]`. -/
def strChunkData (chunk : Cells) (i : Int) : Byte := (chunk (12 + i)).toByte

/-- `calc_str_chunk_size(len)`. -/
def calcStrChunkSize (len : ℕ) : ℕ := len + 12

/-! ## Reading -/

/-- `read_string`. -/
def readString (t : Table) (rid : RID) (record : StringRecord) : M StringRecord := do
  return ⟨← tableRead t rid record.chunk, 0⟩

/-- `has_next_char`. -/
def hasNextChar (record : StringRecord) : Bool :=
  record.idx ≠ strChunkSize record.chunk ∨ (strChunkRID record.chunk).blockAddr ≠ -1

/-- `next_char`. -/
def nextChar (t : Table) (record : StringRecord) : M (Byte × StringRecord) := do
  if record.idx ≠ strChunkSize record.chunk then
    return (strChunkData record.chunk record.idx, { record with idx := record.idx + 1 })
  else do
    let record ← readString t (strChunkRID record.chunk) record
    return (strChunkData record.chunk record.idx, { record with idx := record.idx + 1 })

/-- The `do … while (x == y)` of `compare_string_record`, and what follows it. -/
def compareLoop (t : Table) (aa bb : StringRecord) : M Int := do
  if hasNextChar aa && hasNextChar bb then do
    let (x, aa) ← nextChar t aa
    let (y, bb) ← nextChar t bb
    if x = y then Prog.proc (.compareLoop t aa bb)
    else if x.slt y then return -1
    else return 1
  else if hasNextChar aa then return 1
  else if hasNextChar bb then return -1
  else return 0

/-- `compare_string_record`. -/
def compareStringRecord (t : Table) (a b : StringRecord) : M Int := Prog.proc (.compareLoop t a b)

/-- The loop of `load_string`, with `n` characters to go and `count` loaded. -/
def loadLoop (t : Table) : ℕ → ℕ → StringRecord → (ℕ → Byte) → M (ℕ × (ℕ → Byte))
  | 0, count, _, dest => return (count, dest)
  | n + 1, count, record, dest => do
    if hasNextChar record then do
      let (c, record) ← nextChar t record
      loadLoop t n (count + 1) record (Function.update dest count c)
    else return (count, dest)

/-- `load_string`: the number of characters loaded, and the destination afterwards. -/
def loadString (t : Table) (record : StringRecord) (dest : ℕ → Byte) (maxSize : ℕ) :
    M (ℕ × (ℕ → Byte)) := loadLoop t maxSize 0 record dest

/-! ## Writing -/

/-- Fill a chunk with `len` bytes from `ptr`. -/
def fillChunk (chunk : Cells) (rid : RID) (len : ℕ) (ptr : ℕ → Byte) : Cells :=
  forUp 0 len (fun i m => Function.update m (12 + i : Int) (.byte (ptr i)))
    (writeScalar 2 (writeRID chunk 0 rid) 10 len)

/-- The loop that writes full chunks backwards from `data + off`. -/
def writeChunks (t : Table) (data : ℕ → Byte) (n off : ℕ) (chunk : Cells) (rid : RID) : M RID := do
  let r ← Prog.forFold (fun _ (s : ℕ × Cells × RID) => do
    let off := s.1 - strChunkMaxLen
    let chunk := fillChunk s.2.1 s.2.2 strChunkMaxLen fun j => data (off + j)
    let rid ← tableInsert t chunk strChunkMaxSize
    return (off, chunk, rid)) 0 n (off, chunk, rid)
  return r.2.2

/-- `write_string`. -/
def writeString (t : Table) (data : ℕ → Byte) (size : ℕ) : M RID := do
  if size = 0 then
    tableInsert t (fillChunk default RID.null 0 data) (calcStrChunkSize 0)
  else do
    let lastChunkLength := size % strChunkMaxLen
    if lastChunkLength ≠ 0 then do
      let off := size - lastChunkLength
      let chunk := fillChunk default RID.null lastChunkLength fun i => data (off + i)
      let rid ← tableInsert t chunk (calcStrChunkSize lastChunkLength)
      writeChunks t data (size / strChunkMaxLen) off chunk rid
    else do
      let off := size - strChunkMaxLen
      let chunk := fillChunk default RID.null strChunkMaxLen fun i => data (off + i)
      let rid ← tableInsert t chunk strChunkMaxSize
      writeChunks t data (size / strChunkMaxLen - 1) off chunk rid

/-- The loop of `delete_string`. -/
def deleteLoop (t : Table) (rid : RID) (chunk : Cells) : M Unit := do
  if rid.blockAddr ≠ -1 then do
    let chunk ← tableRead t rid chunk
    tableDelete t rid
    Prog.proc (.deleteLoop t (strChunkRID chunk) chunk)
  else return ()

/-- `delete_string`. -/
def deleteString (t : Table) (rid : RID) : M Unit := Prog.proc (.deleteLoop t rid default)

end MyJQL
