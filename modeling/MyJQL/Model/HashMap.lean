import MyJQL.Storage.Effects

/-!
# The free-space hash map

`hash_map.c`. A bucket is a chain of pages of up to `HASH_MAP_BLOCK_SIZE` addresses each, reached
from its directory entry. Code that the source repeats is one definition here: a new last page
(`hashTableAddBlock`), the retirement of an emptied page (`hashTableUnlink`) and the two bodies of
the scan (`hashTableTakeLast`).
-/

set_option linter.unusedSimpArgs false

namespace MyJQL

/-! ## Opening -/

/-- The control page written by `hash_table_init`. -/
def initHashCtrl (nDirectoryBlocks : ℕ) : HashMapControlBlock where
  freeBlockHead := -1
  nDirectoryBlocks := nDirectoryBlocks
  maxSize := nDirectoryBlocks * hashMapDirBlockSize

/-- `hash_table_init`; the address `PAGE_SIZE * (i + 1)` is an `int`. -/
def hashTableInit (disk : Option (FileInfo Page)) (nDirectoryBlocks : ℕ) : BufferPool Page :=
  let pool := initBufferPool disk
  if pool.file.length = 0 then
    let file := (writePage (.hashCtrl (initHashCtrl nDirectoryBlocks)) pool.file 0).2
    { pool with
      file := forUp 0 nDirectoryBlocks
        (fun i file => (writePage (.hashDir ⟨fun _ => -1⟩) file
          (BitVec.ofInt 32 (pageSize * (i + 1))).toInt).2) file }
  else pool

/-- `hash_table_close`. -/
def hashTableClose (pool : BufferPool Page) : FileInfo Page := closeBufferPool pool

/-! ## Pages of a bucket -/

/-- `size` as an operand of `HASH_MAP_DIR_BLOCK_SIZE`, which is a `size_t`. -/
def sizeT (size : Short) : BitVec 64 := size.signExtend 64

/-- `(size / HASH_MAP_DIR_BLOCK_SIZE + 1 + i) * PAGE_SIZE`. -/
def dirPage (size : Short) (i : ℕ) : Int := ((sizeT size / 16#64 + 1#64 + i) * 128#64).toInt

/-- `size % HASH_MAP_DIR_BLOCK_SIZE`. -/
def dirSlot (size : Short) : ℕ := (sizeT size % 16#64).toNat

namespace HashMapBlock

/-- A fresh page with one entry. -/
def singleton (addr : Int) : HashMapBlock where
  next := -1
  nItems := 1
  table := fun i => if i = 0 then addr else -1

/-- A recycled page with one entry. -/
def reuse (block : HashMapBlock) (addr : Int) : HashMapBlock :=
  { block with nItems := 1, next := -1, table := Function.update block.table 0 addr }

/-- Append an entry. -/
def push (block : HashMapBlock) (addr : Int) : HashMapBlock :=
  { block with
    table := Function.update block.table block.nItems addr
    nItems := block.nItems + 1 }

/-- Drop the last entry. -/
def dropLast (block : HashMapBlock) : HashMapBlock :=
  { block with
    nItems := block.nItems - 1
    table := Function.update block.table (block.nItems - 1) (-1) }

/-- The first `i` with `table[i] == addr`. -/
def indexOf (block : HashMapBlock) (addr : Int) : Option ℕ :=
  (List.range block.nItems).find? fun i => block.table i = addr

/-- Remove entry `i`. -/
def remove (block : HashMapBlock) (i : ℕ) : HashMapBlock :=
  { block with
    table := Function.update
      (forUp i (block.nItems - 1) (fun j t => Function.update t j (t (j + 1))) block.table)
      (block.nItems - 1) (-1)
    nItems := block.nItems - 1 }

end HashMapBlock

/-- `dir->directory[k] = addr`. -/
def HashMapDirectoryBlock.set (dir : HashMapDirectoryBlock) (k : ℕ) (addr : Int) :
    HashMapDirectoryBlock := ⟨Function.update dir.directory k addr⟩

/-! ## Insertion -/

/-- The page of a bucket's new last entry: appended to the file, or taken from the free list. Its
address is stored by `link` first. -/
def hashTableAddBlock (i : PoolId) (ctrl : PagePtr) (addr : Int) (link : Int → M Unit) : M Unit := do
  if (← ctrl.hashCtrl).freeBlockHead = -1 then do
    link (← fileLength i)
    writePageTo i (.hashBlock (.singleton addr)) (← fileLength i)
  else do
    let temp := (← ctrl.hashCtrl).freeBlockHead
    link temp
    let freeBlock ← getPage i temp
    let next := (← freeBlock.hashBlock).next
    ctrl.setHashCtrl fun c => { c with freeBlockHead := next }
    freeBlock.setHashBlock (·.reuse addr)
    release i temp

/-- `while (block->n_items == HASH_MAP_BLOCK_SIZE)`: the block, `temp` and `flag` after the loop, or
`none` if the function returned inside it. -/
def hashTableInsertLoop (i : PoolId) (ctrl block : PagePtr) (addr blockAddr temp : Int)
    (count flag : ℕ) : M (Option (PagePtr × Int × ℕ)) := do
  if (← block.hashBlock).nItems = hashMapBlockSize then do
    let count := count + 1
    let flag ← (if count ≠ 1 then do release i temp; pure flag else pure 1 : M ℕ)
    if (← block.hashBlock).next = -1 then do
      hashTableAddBlock i ctrl addr fun a => block.setHashBlock fun b => { b with next := a }
      release i blockAddr
      release i 0
      return none
    else do
      let temp := (← block.hashBlock).next
      let block ← getPage i (← block.hashBlock).next
      Prog.proc (.hashTableInsertLoop i ctrl block addr blockAddr temp count flag)
  else return some (block, temp, flag)

/-- `hash_table_insert`. -/
def hashTableInsert (i : PoolId) (size : Short) (addr : Int) : M Unit := do
  let ctrl ← getPage i 0
  let dir ← getPage i (dirPage size 0)
  let blockAddr := (← dir.hashDir).directory (dirSlot size)
  release i (dirPage size 0)
  if blockAddr = -1 then do
    hashTableAddBlock i ctrl addr fun a => dir.setHashDir (·.set (dirSlot size) a)
    release i 0
  else do
    let block ← getPage i blockAddr
    match ← Prog.proc (.hashTableInsertLoop i ctrl block addr blockAddr 0 0 0) with
    | none => return ()
    | some (block, temp, flag) => do
      block.setHashBlock (·.push addr)
      Prog.when (flag = 1) (release i temp)
      release i blockAddr
      release i 0

/-- `if (block->n_items == 0)`: the page at `addr` leaves its chain for the free list; `link` stores
the link that led to it. -/
def hashTableUnlink (ctrl block : PagePtr) (addr : Int) (link : Int → M Unit) : M Unit := do
  Prog.when ((← block.hashBlock).nItems = 0) do
    link (← block.hashBlock).next
    let free := (← ctrl.hashCtrl).freeBlockHead
    block.setHashBlock fun b => { b with next := free }
    ctrl.setHashCtrl fun c => { c with freeBlockHead := addr }

/-! ## Taking the last entry of a bucket -/

/-- The body of the scan: take the last entry of bucket `k` of the directory page at `dAddr`. -/
def hashTableTakeLast (i : PoolId) (ctrl : PagePtr) (dAddr : Int) (k : ℕ) : M (Option Int) := do
  let dir ← getPage i dAddr
  let blockAddr := (← dir.hashDir).directory k
  if blockAddr ≠ -1 then do
    let block ← getPage i blockAddr
    let b ← block.hashBlock
    let ans := b.table (b.nItems - 1)
    block.setHashBlock (·.dropLast)
    hashTableUnlink ctrl block blockAddr fun a => dir.setHashDir (·.set k a)
    release i blockAddr
    release i dAddr
    release i 0
    return some ans
  else do
    release i dAddr
    return none

/-- `hash_table_pop_lower_bound`. -/
def hashTablePopLowerBound (i : PoolId) (size : Short) : M Int := do
  let ctrl ← getPage i 0
  let blocks := BitVec.ofInt 64 (← ctrl.hashCtrl).nDirectoryBlocks - sizeT size / 16#64
  let ans ← Prog.forReturn (fun b =>
    if b = 0 then
      Prog.forReturn (fun j => hashTableTakeLast i ctrl (dirPage size b) (dirSlot size + j))
        0 (hashMapDirBlockSize - dirSlot size)
    else
      Prog.forReturn (fun j => hashTableTakeLast i ctrl (dirPage size b) j)
        0 hashMapDirBlockSize) 0 blocks.toNat
  match ans with
  | some ans => return ans
  | none => do
    release i 0
    return -1

/-! ## Removing an entry -/

/-- `while (block->next != -1)`: whether the function returned inside the loop. -/
def hashTablePopLoop (i : PoolId) (ctrl block : PagePtr) (size : Short) (addr blockAddr : Int) :
    M Bool := do
  if (← block.hashBlock).next ≠ -1 then do
    let nextBlock ← getPage i (← block.hashBlock).next
    let temp := (← block.hashBlock).next
    match (← nextBlock.hashBlock).indexOf addr with
    | some k => do
      nextBlock.setHashBlock (·.remove k)
      hashTableUnlink ctrl nextBlock temp fun a => block.setHashBlock fun b => { b with next := a }
      release i temp
      release i blockAddr
      release i (dirPage size 0)
      release i 0
      return true
    | none => do
      release i temp
      Prog.proc (.hashTablePopLoop i ctrl nextBlock size addr blockAddr)
  else return false

/-- `hash_table_pop`. -/
def hashTablePop (i : PoolId) (size : Short) (addr : Int) : M Unit := do
  let ctrl ← getPage i 0
  let dir ← getPage i (dirPage size 0)
  let blockAddr := (← dir.hashDir).directory (dirSlot size)
  let block ← getPage i blockAddr
  match (← block.hashBlock).indexOf addr with
  | some k => do
    block.setHashBlock (·.remove k)
    hashTableUnlink ctrl block blockAddr fun a => dir.setHashDir (·.set (dirSlot size) a)
    release i blockAddr
    release i (dirPage size 0)
    release i 0
  | none => do
    if ← Prog.proc (.hashTablePopLoop i ctrl block size addr blockAddr) then return ()
    else do
      release i blockAddr
      release i (dirPage size 0)
      release i 0

end MyJQL
