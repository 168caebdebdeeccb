import MyJQL.Lib.Loop

/-!
# The contents of pages

* `RID`, `Cell`, `readScalar`, `writeScalar`: raw memory, for the items of data blocks and the
  buffers they are copied to. A cell is a byte or one part of a stored scalar, so that a scalar is
  read back from the bytes it was stored in, wherever they have been moved;
* `BNode`, `BCtrlBlock`, `HashMapControlBlock`, `HashMapDirectoryBlock`, `HashMapBlock`, `Block`:
  the structures that pages are cast to, and `Page`, their union. Reading a page at another
  structure than the one stored yields an unspecified default.
-/

set_option linter.unusedSimpArgs false

namespace MyJQL

/-- `char`. -/
abbrev Byte := BitVec 8

/-- `short`. -/
abbrev Short := BitVec 16

/-- `RID`. -/
structure RID where
  blockAddr : Int
  idx : Int
  deriving DecidableEq, Repr

/-- `rid_null`. -/
def RID.null : RID := ⟨-1, 0⟩

instance : Inhabited RID := ⟨RID.null⟩

/-! ## Raw memory -/

/-- One byte of memory: a plain byte, or byte `k` of the scalar `v`. -/
inductive Cell
  | byte (b : Byte)
  | part (v : Int) (k : ℕ)
  deriving DecidableEq, Repr

instance : Inhabited Cell := ⟨.byte 0⟩

/-- The value of a `char`. -/
def Cell.toByte : Cell → Byte
  | .byte b => b
  | .part v k => BitVec.ofInt 8 (v / 256 ^ k)

/-- The number that bytes encode, the lowest first. -/
def littleEndian : List Byte → ℕ
  | [] => 0
  | b :: l => b.toNat + 256 * littleEndian l

/-- Memory from some base address on. -/
abbrev Cells := Int → Cell

/-- The scalar of `w` bytes at `o`: the one stored there, or what the bytes found there encode. -/
def readScalar (w : ℕ) (m : Cells) (o : Int) : Int :=
  let bytes := (List.range w).map fun k : ℕ => (m (o + k)).toByte
  match m o with
  | .part v _ =>
    if ∀ k < w, m (o + k) = .part v k then v else (BitVec.ofNat (8 * w) (littleEndian bytes)).toInt
  | .byte _ => (BitVec.ofNat (8 * w) (littleEndian bytes)).toInt

/-- Store a scalar of `w` bytes at `o`. -/
def writeScalar (w : ℕ) (m : Cells) (o v : Int) : Cells := fun j =>
  if o ≤ j ∧ j < o + w then .part v (j - o).toNat else m j

/-- An `RID` at `o`: an `off_t` and a `short`. -/
def readRID (m : Cells) (o : Int) : RID := ⟨readScalar 8 m o, readScalar 2 m (o + 8)⟩

def writeRID (m : Cells) (o : Int) (rid : RID) : Cells :=
  writeScalar 2 (writeScalar 8 m o rid.blockAddr) (o + 8) rid.idx

/-! ## The structures of pages -/

/-- `BNode`; `child` and `rowPtr` are used below `2 * DEGREE + 1` and `2 * DEGREE`. -/
structure BNode where
  n : ℕ
  next : Int
  child : ℕ → Int
  rowPtr : ℕ → RID
  leaf : Bool

/-- `BCtrlBlock`. -/
structure BCtrlBlock where
  rootNode : Int
  freeNodeHead : Int

/-- `ChildEntry`. -/
structure ChildEntry where
  addr : Int
  rid : RID

/-- `HashMapControlBlock`. -/
structure HashMapControlBlock where
  freeBlockHead : Int
  nDirectoryBlocks : Int
  maxSize : Int

/-- `HASH_MAP_DIR_BLOCK_SIZE`. -/
abbrev hashMapDirBlockSize : ℕ := 16

/-- `HashMapDirectoryBlock`. -/
structure HashMapDirectoryBlock where
  directory : ℕ → Int

/-- `HASH_MAP_BLOCK_SIZE`. -/
abbrev hashMapBlockSize : ℕ := 14

/-- `HashMapBlock`. -/
structure HashMapBlock where
  next : Int
  nItems : ℕ
  table : ℕ → Int

/-- `Block`: the bytes of a page, the header in the first six. -/
structure Block where
  cells : Cells

/-- `Page`. -/
inductive Page
  | empty
  | bNode (x : BNode)
  | bCtrl (x : BCtrlBlock)
  | hashCtrl (x : HashMapControlBlock)
  | hashDir (x : HashMapDirectoryBlock)
  | hashBlock (x : HashMapBlock)
  | block (x : Block)

instance : Inhabited Page := ⟨.empty⟩

namespace Page

/-- `(BNode *)page`. -/
def toBNode : Page → BNode
  | bNode x => x
  | _ => ⟨0, 0, fun _ => 0, fun _ => ⟨0, 0⟩, false⟩

/-- `(BCtrlBlock *)page`. -/
def toBCtrl : Page → BCtrlBlock
  | bCtrl x => x
  | _ => ⟨0, 0⟩

/-- `(HashMapControlBlock *)page`. -/
def toHashCtrl : Page → HashMapControlBlock
  | hashCtrl x => x
  | _ => ⟨0, 0, 0⟩

/-- `(HashMapDirectoryBlock *)page`. -/
def toHashDir : Page → HashMapDirectoryBlock
  | hashDir x => x
  | _ => ⟨fun _ => 0⟩

/-- `(HashMapBlock *)page`. -/
def toHashBlock : Page → HashMapBlock
  | hashBlock x => x
  | _ => ⟨0, 0, fun _ => 0⟩

/-- `(Block *)page`. -/
def toBlock : Page → Block
  | block x => x
  | _ => ⟨fun _ => default⟩

/-- The head of the free list that a control page starts; other pages start none. -/
def freeHead : Page → Int
  | bCtrl x => x.freeNodeHead
  | hashCtrl x => x.freeBlockHead
  | _ => -1

end Page

end MyJQL
