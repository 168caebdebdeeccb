import MyJQL.Lib.Prog
import MyJQL.Storage.Page
import MyJQL.BufferPool.Model

/-!
# Programs over the buffer pools

The storage engine is written once, as programs over the effects `Eff`: requests and releases of
pages, reads and writes through the pointers returned, and writes behind the cache. `PagePtr` names
a pointer by the request that returned it.

* `PoolId`, `PagePtr`, `Eff`, `Proc`, `M`: pools, pointers, effects, procedures and programs;
* `Pool`, `Machine`, **`machineSem`**: the effects on the buffer pools of `buffer_pool.c`.
-/

set_option linter.unusedSimpArgs false

namespace MyJQL

/-- The five buffer pools: `bp_idx`, and the data and free-space pools of `tbl_rec` and
`tbl_str`. -/
inductive PoolId
  | bpIdx
  | recData
  | recFsm
  | strData
  | strFsm
  deriving DecidableEq, Repr

/-- A `Page *` into a pool: the number of the request that returned it. -/
structure PagePtr where
  pool : PoolId
  id : ℕ
  deriving DecidableEq, Repr

/-- What programs do to the pools. -/
inductive Eff : Type → Type
  | getPage (i : PoolId) (addr : Int) : Eff PagePtr
  | release (i : PoolId) (addr : Int) : Eff Unit
  | load (p : PagePtr) : Eff Page
  | store (p : PagePtr) (page : Page) : Eff Unit
  | fileLength (i : PoolId) : Eff Int
  | writePage (i : PoolId) (page : Page) (addr : Int) : Eff Unit
  | undefined : Eff Empty

/-- `Table`: its two pools. -/
structure Table where
  data : PoolId
  fsm : PoolId

/-- `StringRecord`: a chunk and a position in it. -/
structure StringRecord where
  chunk : Cells
  idx : Int

/-- The recursive functions, and the unbounded loops, of the engine. -/
inductive Proc : Type → Type
  | hashTableInsertLoop (i : PoolId) (ctrl block : PagePtr) (addr blockAddr temp : Int)
      (count flag : ℕ) : Proc (Option (PagePtr × Int × ℕ))
  | hashTablePopLoop (i : PoolId) (ctrl block : PagePtr) (size : Short) (addr blockAddr : Int) :
      Proc Bool
  | compareLoop (t : Table) (aa bb : StringRecord) : Proc Int
  | deleteLoop (t : Table) (rid : RID) (chunk : Cells) : Proc Unit
  | treeSearch (i : PoolId) (bnode : PagePtr) (key : ℕ → Byte) (size : ℕ) : Proc RID
  | treeInsert (i : PoolId) (bnode : PagePtr) (rid : RID) (newchildentry : ChildEntry) :
      Proc ChildEntry
  | treeDelete (i : PoolId) (parent child : PagePtr) (rid oldchildentry : RID) : Proc RID

/-- Programs of the engine. -/
abbrev M := Prog Eff Proc

section Effects

def getPage (i : PoolId) (addr : Int) : M PagePtr := .eff (.getPage i addr)

def release (i : PoolId) (addr : Int) : M Unit := .eff (.release i addr)

/-- `pool->file.length`. -/
def fileLength (i : PoolId) : M Int := .eff (.fileLength i)

/-- `write_page(&page, &pool->file, addr)`. -/
def writePageTo (i : PoolId) (page : Page) (addr : Int) : M Unit := .eff (.writePage i page addr)

/-- Undefined behaviour. -/
def undefined {α : Type} : M α := .op .undefined Empty.elim

namespace PagePtr

/-- `*p`. -/
def load (p : PagePtr) : M Page := .eff (.load p)

def store (p : PagePtr) (page : Page) : M Unit := .eff (.store p page)

def bNode (p : PagePtr) : M BNode := do return (← p.load).toBNode

def setBNode (p : PagePtr) (f : BNode → BNode) : M Unit := do p.store (.bNode (f (← p.bNode)))

def bCtrl (p : PagePtr) : M BCtrlBlock := do return (← p.load).toBCtrl

def setBCtrl (p : PagePtr) (f : BCtrlBlock → BCtrlBlock) : M Unit := do
  p.store (.bCtrl (f (← p.bCtrl)))

def hashCtrl (p : PagePtr) : M HashMapControlBlock := do return (← p.load).toHashCtrl

def setHashCtrl (p : PagePtr) (f : HashMapControlBlock → HashMapControlBlock) : M Unit := do
  p.store (.hashCtrl (f (← p.hashCtrl)))

def hashDir (p : PagePtr) : M HashMapDirectoryBlock := do return (← p.load).toHashDir

def setHashDir (p : PagePtr) (f : HashMapDirectoryBlock → HashMapDirectoryBlock) : M Unit := do
  p.store (.hashDir (f (← p.hashDir)))

def hashBlock (p : PagePtr) : M HashMapBlock := do return (← p.load).toHashBlock

def setHashBlock (p : PagePtr) (f : HashMapBlock → HashMapBlock) : M Unit := do
  p.store (.hashBlock (f (← p.hashBlock)))

def block (p : PagePtr) : M Block := do return (← p.load).toBlock

def setBlock (p : PagePtr) (f : Block → Block) : M Unit := do p.store (.block (f (← p.block)))

end PagePtr

end Effects

end MyJQL
