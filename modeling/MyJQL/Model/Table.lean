import MyJQL.Model.HashMap

/-!
# Blocks of items and tables

`block.c`: a page of items of variable size, with their identifiers growing from the front and their
bytes from the back. `table.c`: a file of blocks, and a free-space map that lists each block under
its free space.
-/

set_option linter.unusedSimpArgs false

namespace MyJQL

/-! ## Item identifiers -/

/-- `ItemID`. -/
abbrev ItemID := ℕ

/-- `get_item_id_availability`. -/
def itemIDAvailability (id : ItemID) : ℕ := (id >>> 30) &&& 1

/-- `get_item_id_offset`. -/
def itemIDOffset (id : ItemID) : ℕ := (id >>> 15) &&& (2 ^ 15 - 1)

/-- `get_item_id_size`. -/
def itemIDSize (id : ItemID) : ℕ := id &&& (2 ^ 15 - 1)

/-- `compose_item_id`; the masks keep the low bits of each field. -/
def composeItemID (availability offset size : Int) : ItemID :=
  (availability % 2).toNat <<< 30 ||| (offset % 2 ^ 15).toNat <<< 15 ||| (size % 2 ^ 15).toNat

namespace Block

/-! ## The header -/

/-- Assignment to a `short` at `o`. -/
def setShort (block : Block) (o v : Int) : Block :=
  ⟨writeScalar 2 block.cells o (BitVec.ofInt 16 v).toInt⟩

/-- `n_items`. -/
def nItems (block : Block) : Int := readScalar 2 block.cells 0

/-- `head_ptr`. -/
def headPtr (block : Block) : Int := readScalar 2 block.cells 2

/-- `tail_ptr`. -/
def tailPtr (block : Block) : Int := readScalar 2 block.cells 4

/-- `n_items = v`. -/
def setNItems (block : Block) (v : Int) : Block := block.setShort 0 v

/-- `head_ptr = v`. -/
def setHeadPtr (block : Block) (v : Int) : Block := block.setShort 2 v

/-- `tail_ptr = v`. -/
def setTailPtr (block : Block) (v : Int) : Block := block.setShort 4 v

/-- `get_item_id(block, idx)`. -/
def itemID (block : Block) (idx : Int) : ItemID :=
  (readScalar 4 block.cells (6 + 4 * idx) % 2 ^ 32).toNat

/-- `get_item_id(block, idx) = id`. -/
def setItemID (block : Block) (idx : Int) (id : ItemID) : Block :=
  ⟨writeScalar 4 block.cells (6 + 4 * idx) id⟩

/-- `*((char *)block + o) = c`. -/
def setByte (block : Block) (o : Int) (c : Cell) : Block := ⟨Function.update block.cells o c⟩

/-! ## Blocks -/

/-- `init_block`. -/
def init (block : Block) : Block := ((block.setNItems 0).setHeadPtr 6).setTailPtr pageSize

/-- `get_item`: the offset of the item, or `none` for `NULL`. -/
def getItem (block : Block) (idx : Int) : Option Int :=
  if idx < 0 ∨ idx ≥ block.nItems then none
  else if itemIDAvailability (block.itemID idx) ≠ 0 then none
  else some (itemIDOffset (block.itemID idx))

/-- The first identifier available for reuse. -/
def firstAvailable (block : Block) : Option ℕ :=
  (List.range block.nItems.toNat).find? fun i => itemIDAvailability (block.itemID i) = 1

/-- `for (i = 0; i < size; i++) *((char *)block + block->tail_ptr + i) = item[i]`. -/
def putBytes (block : Block) (item : Cells) (size : ℕ) : Block :=
  forUp 0 size (fun i block => block.setByte (block.tailPtr + i) (item i)) block

/-- `new_item`. -/
def newItem (block : Block) (item : Cells) (size : ℕ) : Int × Block :=
  match block.firstAvailable with
  | some i =>
    let block := block.setTailPtr (block.tailPtr - size)
    let block := block.setItemID i (composeItemID 0 block.tailPtr size)
    (i, block.putBytes item size)
  | none =>
    let block := block.setHeadPtr (block.headPtr + 4)
    let block := block.setTailPtr (block.tailPtr - size)
    let block := block.setItemID block.nItems (composeItemID 0 block.tailPtr size)
    let block := block.setNItems (block.nItems + 1)
    let block := block.putBytes item size
    (block.nItems - 1, block)

/-- The loop that slides the bytes between `tail_ptr` and `offset` up by `size`; its bound is at most
the difference of an offset and a `short`. -/
def slide (block : Block) (offset : Int) (size : ℕ) : Block :=
  forWhile (fun i block => (i : Int) < offset - block.tailPtr)
    (fun i block => block.setByte (offset + size - 1 - i) (block.cells (offset - 1 - i)))
    (2 ^ 16) 0 block

/-- The loop that adds `size` to the offsets of the used items below `offset`. -/
def shiftOffsets (block : Block) (offset : Int) (size : ℕ) : Block :=
  forWhile (fun i block => (i : Int) < block.nItems)
    (fun i block =>
      let id := block.itemID i
      if (itemIDOffset id : Int) < offset ∧ itemIDAvailability id = 0 then
        block.setItemID i (composeItemID (itemIDAvailability id) (itemIDOffset id + size)
          (itemIDSize id))
      else block)
    (2 ^ 15) 0 block

/-- `delete_item`. -/
def deleteItem (block : Block) (idx : Int) : Block :=
  let id := block.itemID idx
  let offset : Int := itemIDOffset id
  let size := itemIDSize id
  let block :=
    if idx = block.nItems - 1 then
      let block := block.setNItems (block.nItems - 1)
      block.setHeadPtr (block.headPtr - 4)
    else block.setItemID idx (composeItemID 1 0 0)
  let block := (block.slide offset size).shiftOffsets offset size
  block.setTailPtr (block.tailPtr + size)

/-- `free_space`. -/
def freeSpace (block : Block) : Int :=
  let ans := (BitVec.ofInt 16 (block.tailPtr - block.headPtr - 4)).toInt
  match block.firstAvailable with
  | some _ => (BitVec.ofInt 16 (block.tailPtr - block.headPtr)).toInt
  | none => if ans < 0 then 0 else ans

end Block

/-! ## Tables -/

/-- The number of directory blocks of a table's free-space map. -/
abbrev fsmBlocks : ℕ := 8

/-- `table_init`: the data pool and the free-space pool. -/
def tableInit (data fsm : Option (FileInfo Page)) : BufferPool Page × BufferPool Page :=
  (initBufferPool data, hashTableInit fsm fsmBlocks)

/-- `table_close`: the data file and the free-space file. -/
def tableClose (data fsm : BufferPool Page) : FileInfo Page × FileInfo Page :=
  (closeBufferPool data, hashTableClose fsm)

/-- `table_read`: the destination afterwards. -/
def tableRead (t : Table) (rid : RID) (dest : Cells) : M Cells := do
  let block ← getPage t.data rid.blockAddr
  let b ← block.block
  let size := itemIDSize (b.itemID rid.idx)
  let dest ← (if size = 0 then pure dest else
    match b.getItem rid.idx with
    | some offset =>
      pure (forUp 0 size (fun i m => Function.update m (i : Int) (b.cells (offset + i))) dest)
    | none => undefined : M Cells)
  release t.data rid.blockAddr
  return dest

/-- `table_insert`. -/
def tableInsert (t : Table) (src : Cells) (size : ℕ) : M RID := do
  let blockAddr ← hashTablePopLowerBound t.fsm (BitVec.ofNat 16 size)
  if blockAddr = -1 then do
    let (idx, block) := (Page.toBlock .empty).init.newItem src size
    let blockAddr ← fileLength t.data
    hashTableInsert t.fsm (BitVec.ofInt 16 block.freeSpace) (← fileLength t.data)
    writePageTo t.data (.block block) (← fileLength t.data)
    return ⟨blockAddr, idx⟩
  else do
    let block ← getPage t.data blockAddr
    let (idx, b) := (← block.block).newItem src size
    block.store (.block b)
    hashTableInsert t.fsm (BitVec.ofInt 16 (← block.block).freeSpace) blockAddr
    release t.data blockAddr
    return ⟨blockAddr, idx⟩

/-- `table_delete`. -/
def tableDelete (t : Table) (rid : RID) : M Unit := do
  let block ← getPage t.data rid.blockAddr
  hashTablePop t.fsm (BitVec.ofInt 16 (← block.block).freeSpace) rid.blockAddr
  block.setBlock (·.deleteItem rid.idx)
  hashTableInsert t.fsm (BitVec.ofInt 16 (← block.block).freeSpace) rid.blockAddr
  release t.data rid.blockAddr

end MyJQL
