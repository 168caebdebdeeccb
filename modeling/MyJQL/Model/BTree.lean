import MyJQL.Model.HashMap

/-!
# The B+ tree

`b_tree.c`, for a given `DEGREE` and given comparison functions and handlers (`Handlers`). What the
source does to the arrays of one or two nodes between two calls is a function on `BNode`s here,
loop by loop; the splits for a fresh and for a recycled page run the same loops and share them.

`row_ptr` and `child` are indexed from `0`; the loops that start at `index - 1` compare it with an
unsigned bound, so they do nothing when `index` is `0`.
-/

set_option linter.unusedSimpArgs false

namespace MyJQL

/-- `b_tree_row_row_cmp_t`, `b_tree_ptr_row_cmp_t` and the two handlers. -/
structure Handlers where
  cmpRow : RID → RID → Bool → Bool → M Int
  cmpPtr : (ℕ → Byte) → ℕ → RID → Bool → M Int
  insertHandler : RID → Bool → M RID
  deleteHandler : RID → M Unit

/-! ## Opening -/

/-- `b_tree_init`. -/
def bTreeInit (D : ℕ) (disk : Option (FileInfo Page)) : BufferPool Page :=
  let pool := initBufferPool disk
  if pool.file.length = 0 then
    let file := (writePage (.bCtrl ⟨pageSize, -1⟩) pool.file 0).2
    let bnode : BNode :=
      { n := 0
        next := -1
        child := forUp 0 (2 * D + 1) (fun i c => Function.update c i (-1)) fun _ => 0
        rowPtr := forUp 0 (2 * D) (fun i r => Function.update r i RID.null) fun _ => ⟨0, 0⟩
        leaf := true }
    { pool with file := (writePage (.bNode bnode) file pageSize).2 }
  else pool

/-- `b_tree_close`. -/
def bTreeClose (pool : BufferPool Page) : FileInfo Page := closeBufferPool pool

/-! ## Arrays -/

/-- `for (i = index - 1; i < last; i++) a[i] = a[i + 1]`. -/
def shiftLeft {α : Type} (index last : ℕ) (a : ℕ → α) : ℕ → α :=
  if index = 0 then a else forUp (index - 1) last (fun i a => Function.update a i (a (i + 1))) a

/-- `for (i = n - 1; i >= index; i--) a[i + 1] = a[i]`. -/
def shiftRight {α : Type} (index n : ℕ) (a : ℕ → α) : ℕ → α :=
  forDown index n (fun i a => Function.update a (i + 1) (a i)) a

/-- `for (i = n - 1; i > index; i--) a[i] = a[i - 1]`. -/
def pullRight {α : Type} (index n : ℕ) (a : ℕ → α) : ℕ → α :=
  forDown (index + 1) n (fun i a => Function.update a i (a (i - 1))) a

/-- `for (i = lo; i < hi; i++) a[i] = f(i)`. -/
def fill {α : Type} (lo hi : ℕ) (f : ℕ → α) (a : ℕ → α) : ℕ → α :=
  forUp lo hi (fun i a => Function.update a i (f i)) a

/-- `for (i = 0; i < n; i++) { a[i] = b[i + d]; b[i + d] = c; }`. -/
def moveOut {α : Type} (n d : ℕ) (c : α) (a b : ℕ → α) : (ℕ → α) × (ℕ → α) :=
  forUp 0 n (fun i t => (Function.update t.1 i (t.2 (i + d)), Function.update t.2 (i + d) c)) (a, b)

namespace BNode

/-! ## Nodes -/

/-- The empty node written before a split: `n`, `leaf`, and arrays of null entries. -/
def clear (D n : ℕ) (leaf : Bool) (node : BNode) : BNode :=
  { node with
    n := n
    leaf := leaf
    child := fill 0 (2 * D + 1) (fun _ => -1) node.child
    rowPtr := fill 0 (2 * D) (fun _ => RID.null) node.rowPtr }

/-- Insert `rid` into a leaf with room. -/
def insertRow (index : ℕ) (rid : RID) (bnode : BNode) : BNode :=
  { bnode with
    rowPtr := Function.update (shiftRight index bnode.n bnode.rowPtr) index rid
    n := bnode.n + 1 }

/-- Insert a new child and its separator into an inner node with room. -/
def insertChild (index : ℕ) (entry : ChildEntry) (bnode : BNode) : BNode :=
  { bnode with
    rowPtr := Function.update (shiftRight index bnode.n bnode.rowPtr) index entry.rid
    child := Function.update (shiftRight (index + 1) (bnode.n + 1) bnode.child) (index + 1) entry.addr
    n := bnode.n + 1 }

/-- Split a full leaf, with `rid` at position `index`: the new node and the old one. -/
def leafSplit (D index : ℕ) (rid : RID) (bnode node : BNode) : BNode × BNode :=
  let node := node.clear D (D + 1) true
  if index ≥ D then
    let rows := fill 0 (index - D) (fun i => bnode.rowPtr (i + D)) node.rowPtr
    let rows := Function.update rows (index - D) rid
    let rows := fill (index - D + 1) (D + 1) (fun i => bnode.rowPtr (i + D - 1)) rows
    ({ node with rowPtr := rows },
      { bnode with rowPtr := fill D (2 * D) (fun _ => RID.null) bnode.rowPtr, n := D })
  else
    let rows := moveOut (D + 1) (D - 1) RID.null node.rowPtr bnode.rowPtr
    ({ node with rowPtr := rows.1 },
      { bnode with rowPtr := Function.update (shiftRight index (D - 1) rows.2) index rid, n := D })

/-- Split a full inner node, with the new child at position `index + 1`: the new node, the old one
and the separator that goes up. -/
def innerSplit (D index : ℕ) (entry : ChildEntry) (bnode node : BNode) : BNode × BNode × RID :=
  let node := node.clear D D false
  if index > D then
    let ridTemp := bnode.rowPtr D
    let rows := fill 0 (index - D - 1) (fun i => bnode.rowPtr (i + D + 1)) node.rowPtr
    let rows := Function.update rows (index - D - 1) entry.rid
    let rows := fill (index - D) D (fun i => bnode.rowPtr (i + D)) rows
    let children := fill 0 (index - D) (fun i => bnode.child (i + D + 1)) node.child
    let children := Function.update children (index - D) entry.addr
    let children := fill (index - D + 1) (D + 1) (fun i => bnode.child (i + D)) children
    let children := fill (D + 1) (2 * D) (fun _ => -1) children
    ({ node with rowPtr := rows, child := children },
      { bnode with rowPtr := fill D (2 * D) (fun _ => RID.null) bnode.rowPtr, n := D }, ridTemp)
  else if index = D then
    let rows := moveOut D D RID.null node.rowPtr bnode.rowPtr
    let children := Function.update node.child 0 entry.addr
    let children := fill 1 (D + 1) (fun i => bnode.child (i + D)) children
    ({ node with rowPtr := rows.1, child := children },
      { bnode with rowPtr := rows.2, n := D }, entry.rid)
  else
    let ridTemp := bnode.rowPtr (D - 1)
    let rows := moveOut D D RID.null node.rowPtr bnode.rowPtr
    let children := fill 0 (D + 1) (fun i => bnode.child (i + D)) node.child
    ({ node with rowPtr := rows.1, child := children },
      { bnode with
        rowPtr := Function.update (pullRight index D rows.2) index entry.rid
        child := Function.update (pullRight (index + 1) (D + 1) bnode.child) (index + 1) entry.addr
        n := D }, ridTemp)

/-- The new root above `root` and the node of `entry`. -/
def newRoot (D : ℕ) (root : Int) (entry : ChildEntry) (node : BNode) : BNode :=
  let node := node.clear D 1 false
  { node with
    rowPtr := Function.update node.rowPtr 0 entry.rid
    child := Function.update (Function.update node.child 0 root) 1 entry.addr }

/-- Remove entry `index - 1` of a leaf. -/
def removeRow (index : ℕ) (bnode : BNode) : BNode :=
  { bnode with
    rowPtr := Function.update (shiftLeft index (bnode.n - 1) bnode.rowPtr) (bnode.n - 1) RID.null
    n := bnode.n - 1 }

/-- Remove entry `index - 1` of an inner node, and the child after it. -/
def removeChild (index : ℕ) (bnode : BNode) : BNode :=
  { bnode with
    rowPtr := Function.update (shiftLeft index (bnode.n - 1) bnode.rowPtr) (bnode.n - 1) RID.null
    child := Function.update
      (forUp index bnode.n (fun i c => Function.update c i (c (i + 1))) bnode.child) bnode.n (-1)
    n := bnode.n - 1 }

/-- Remove the first entry of a node. -/
def dropFirstRow (bnode : BNode) : BNode :=
  { bnode with
    rowPtr := Function.update
      (forUp 0 (bnode.n - 1) (fun i r => Function.update r i (r (i + 1))) bnode.rowPtr)
      (bnode.n - 1) RID.null
    n := bnode.n - 1 }

/-- Remove the first entry and the first child of an inner node. -/
def dropFirstChild (bnode : BNode) : BNode :=
  { bnode with
    rowPtr := Function.update
      (forUp 0 (bnode.n - 1) (fun i r => Function.update r i (r (i + 1))) bnode.rowPtr)
      (bnode.n - 1) RID.null
    child := Function.update
      (forUp 0 bnode.n (fun i c => Function.update c i (c (i + 1))) bnode.child) bnode.n (-1)
    n := bnode.n - 1 }

/-- Remove the last entry of a leaf. -/
def dropLastRow (bnode : BNode) : BNode :=
  { bnode with
    rowPtr := Function.update bnode.rowPtr (bnode.n - 1) RID.null
    n := bnode.n - 1 }

/-- Remove the last entry and the last child of an inner node. -/
def dropLastChild (bnode : BNode) : BNode :=
  { bnode with
    rowPtr := Function.update bnode.rowPtr (bnode.n - 1) RID.null
    child := Function.update bnode.child bnode.n (-1)
    n := bnode.n - 1 }

/-- `row_ptr[index] = rid`. -/
def setRow (index : ℕ) (rid : RID) (bnode : BNode) : BNode :=
  { bnode with rowPtr := Function.update bnode.rowPtr index rid }

end BNode

section Tree

variable (D : ℕ) (H : Handlers)

/-! ## Searching -/

/-- `find_index`. -/
def findIndex (bnode : PagePtr) (rid : RID) (ridLeaf : Bool) : M ℕ := do
  if (← bnode.bNode).n = 0 then return 0
  else do
    let b ← bnode.bNode
    if (← H.cmpRow rid (b.rowPtr 0) ridLeaf b.leaf) < 0 then return 0
    else do
      let index ← Prog.forReturn (fun i => do
        let b ← bnode.bNode
        if (← H.cmpRow rid (b.rowPtr i) ridLeaf b.leaf) ≥ 0 then do
          let b ← bnode.bNode
          if (← H.cmpRow rid (b.rowPtr (i + 1)) ridLeaf b.leaf) < 0 then return some (i + 1)
          else return none
        else return none) 0 ((← bnode.bNode).n - 1)
      match index with
      | some index => return index
      | none => do
        let b ← bnode.bNode
        if (← H.cmpRow rid (b.rowPtr (b.n - 1)) ridLeaf b.leaf) ≥ 0 then return (← bnode.bNode).n
        else undefined

/-- The descent of `tree_search` into child `k`. -/
def searchChild (i : PoolId) (bnode : PagePtr) (key : ℕ → Byte) (size k : ℕ) : M RID := do
  let node ← getPage i ((← bnode.bNode).child k)
  let rid ← Prog.proc (.treeSearch i node key size)
  release i ((← bnode.bNode).child k)
  return rid

/-- `tree_search`. -/
def treeSearch (i : PoolId) (bnode : PagePtr) (key : ℕ → Byte) (size : ℕ) : M RID := do
  if (← bnode.bNode).leaf then do
    let rid ← Prog.forReturn (fun k => do
      if (← H.cmpPtr key size ((← bnode.bNode).rowPtr k) true) = 0 then
        return some ((← bnode.bNode).rowPtr k)
      else return none) 0 (← bnode.bNode).n
    match rid with
    | some rid => return rid
    | none => return RID.null
  else if (← H.cmpPtr key size ((← bnode.bNode).rowPtr 0) false) < 0 then
    searchChild i bnode key size 0
  else do
    let rid ← Prog.forReturn (fun k => do
      if (← H.cmpPtr key size ((← bnode.bNode).rowPtr k) false) ≥ 0 then do
        if (← H.cmpPtr key size ((← bnode.bNode).rowPtr (k + 1)) false) < 0 then do
          return some (← searchChild i bnode key size (k + 1))
        else return none
      else return none) 0 ((← bnode.bNode).n - 1)
    match rid with
    | some rid => return rid
    | none => do
      let b ← bnode.bNode
      if (← H.cmpPtr key size (b.rowPtr (b.n - 1)) false) ≥ 0 then
        searchChild i bnode key size (← bnode.bNode).n
      else undefined

/-- `b_tree_search`. -/
def bTreeSearch (i : PoolId) (key : ℕ → Byte) (size : ℕ) : M RID := do
  let ctrl ← getPage i 0
  let bnode ← getPage i (← ctrl.bCtrl).rootNode
  let rid ← Prog.proc (.treeSearch i bnode key size)
  release i (← ctrl.bCtrl).rootNode
  release i 0
  return rid

/-! ## Insertion -/

/-- The leaf split of `tree_insert`. -/
def treeInsertLeafSplit (i : PoolId) (ctrl bnode : PagePtr) (index : ℕ) (rid : RID) :
    M ChildEntry := do
  if (← ctrl.bCtrl).freeNodeHead = -1 then do
    let b ← bnode.bNode
    let (node, b) := b.leafSplit D index rid (Page.toBNode .empty)
    let node := { node with next := b.next }
    let addr ← fileLength i
    bnode.store (.bNode { b with next := addr })
    let sep ← H.insertHandler (node.rowPtr 0) true
    writePageTo i (.bNode node) (← fileLength i)
    return ⟨addr, sep⟩
  else do
    let node ← getPage i (← ctrl.bCtrl).freeNodeHead
    let addr := (← ctrl.bCtrl).freeNodeHead
    let free := (← node.bNode).next
    ctrl.setBCtrl fun c => { c with freeNodeHead := free }
    let b ← bnode.bNode
    let (n, b) := b.leafSplit D index rid (← node.bNode)
    node.store (.bNode { n with next := b.next })
    bnode.store (.bNode { b with next := addr })
    let sep ← H.insertHandler ((← node.bNode).rowPtr 0) true
    release i addr
    return ⟨addr, sep⟩

/-- The inner split of `tree_insert`. -/
def treeInsertInnerSplit (i : PoolId) (ctrl bnode : PagePtr) (index : ℕ) (entry : ChildEntry) :
    M ChildEntry := do
  if (← ctrl.bCtrl).freeNodeHead = -1 then do
    let b ← bnode.bNode
    let (node, b, sep) := b.innerSplit D index entry { Page.toBNode .empty with next := -1 }
    bnode.store (.bNode b)
    let addr ← fileLength i
    writePageTo i (.bNode node) (← fileLength i)
    return ⟨addr, sep⟩
  else do
    let node ← getPage i (← ctrl.bCtrl).freeNodeHead
    let b ← bnode.bNode
    let (n, b, sep) := b.innerSplit D index entry (← node.bNode)
    node.store (.bNode n)
    bnode.store (.bNode b)
    let addr := (← ctrl.bCtrl).freeNodeHead
    let free := (← node.bNode).next
    ctrl.setBCtrl fun c => { c with freeNodeHead := free }
    node.setBNode fun n => { n with next := -1 }
    release i addr
    return ⟨addr, sep⟩

/-- `tree_insert`: `*newchildentry` afterwards. -/
def treeInsert (i : PoolId) (bnode : PagePtr) (rid : RID) (newchildentry : ChildEntry) :
    M ChildEntry := do
  let ctrl ← getPage i 0
  let index ← findIndex H bnode rid true
  if (← bnode.bNode).leaf then do
    let entry ← (if (← bnode.bNode).n < 2 * D then do
        bnode.setBNode (·.insertRow index rid)
        return { newchildentry with addr := -1 }
      else treeInsertLeafSplit D H i ctrl bnode index rid : M ChildEntry)
    release i 0
    return entry
  else do
    let node ← getPage i ((← bnode.bNode).child index)
    let entry ← Prog.proc (.treeInsert i node rid newchildentry)
    release i ((← bnode.bNode).child index)
    if entry.addr = -1 then do
      release i 0
      return entry
    else do
      let entry ← (if (← bnode.bNode).n < 2 * D then do
          bnode.setBNode (·.insertChild index entry)
          return { entry with addr := -1 }
        else treeInsertInnerSplit D i ctrl bnode index entry : M ChildEntry)
      release i 0
      return entry

/-- The new root of `b_tree_insert`. -/
def bTreeGrow (i : PoolId) (ctrl : PagePtr) (entry : ChildEntry) : M Unit := do
  let root := (← ctrl.bCtrl).rootNode
  if (← ctrl.bCtrl).freeNodeHead = -1 then do
    let node := BNode.newRoot D root entry { Page.toBNode .empty with next := -1 }
    let addr ← fileLength i
    ctrl.setBCtrl fun c => { c with rootNode := addr }
    writePageTo i (.bNode node) (← fileLength i)
  else do
    let bnode ← getPage i (← ctrl.bCtrl).freeNodeHead
    bnode.setBNode (BNode.newRoot D root entry)
    ctrl.setBCtrl fun c => { c with rootNode := c.freeNodeHead }
    let free := (← bnode.bNode).next
    ctrl.setBCtrl fun c => { c with freeNodeHead := free }
    bnode.setBNode fun n => { n with next := -1 }
    release i (← ctrl.bCtrl).rootNode

/-- `b_tree_insert`. -/
def bTreeInsert (i : PoolId) (rid : RID) : M RID := do
  let ctrl ← getPage i 0
  let bnode ← getPage i (← ctrl.bCtrl).rootNode
  let temp := (← ctrl.bCtrl).rootNode
  let entry ← Prog.proc (.treeInsert i bnode rid ⟨-1, RID.null⟩)
  Prog.when (entry.addr ≠ -1) (bTreeGrow D i ctrl entry)
  release i temp
  release i 0
  return rid

/-! ## Deletion -/

/-- A leaf with `DEGREE - 1` entries left takes one from its right sibling, or absorbs it. -/
def treeDeleteLeafRight (i : PoolId) (ctrl parent child : PagePtr) (index index1 : ℕ) : M RID := do
  let sibling ← getPage i ((← parent.bNode).child (index1 + 1))
  child.setBNode fun c => { c with rowPtr := shiftLeft index (D - 1) c.rowPtr }
  let old ← (if (← sibling.bNode).n > D then do
      let first := (← sibling.bNode).rowPtr 0
      child.setBNode (·.setRow (D - 1) first)
      sibling.setBNode (·.dropFirstRow)
      H.deleteHandler ((← parent.bNode).rowPtr index1)
      let sep ← H.insertHandler ((← sibling.bNode).rowPtr 0) true
      parent.setBNode (·.setRow index1 sep)
      return RID.null
    else do
      let s ← sibling.bNode
      child.setBNode fun c =>
        { c with rowPtr := fill (D - 1) (2 * D - 1) (fun i => s.rowPtr (i + 1 - D)) c.rowPtr }
      let old := (← parent.bNode).rowPtr index1
      let next := (← sibling.bNode).next
      let free := (← ctrl.bCtrl).freeNodeHead
      child.setBNode fun c => { c with next := next, n := 2 * D - 1 }
      sibling.setBNode fun s => { s with next := free }
      let addr := (← parent.bNode).child (index1 + 1)
      ctrl.setBCtrl fun c => { c with freeNodeHead := addr }
      return old : M RID)
  release i ((← parent.bNode).child (index1 + 1))
  return old

/-- A last leaf with `DEGREE - 1` entries left takes one from its left sibling, or is absorbed. -/
def treeDeleteLeafLeft (i : PoolId) (ctrl parent child : PagePtr) (index index1 : ℕ) : M RID := do
  let sibling ← getPage i ((← parent.bNode).child (index1 - 1))
  child.setBNode fun c => { c with rowPtr := pullRight 0 index c.rowPtr }
  let old ← (if (← sibling.bNode).n > D then do
      let s ← sibling.bNode
      child.setBNode (·.setRow 0 (s.rowPtr (s.n - 1)))
      sibling.setBNode (·.dropLastRow)
      H.deleteHandler ((← parent.bNode).rowPtr (index1 - 1))
      let sep ← H.insertHandler ((← child.bNode).rowPtr 0) true
      parent.setBNode (·.setRow (index1 - 1) sep)
      return RID.null
    else do
      let c ← child.bNode
      sibling.setBNode fun s =>
        { s with rowPtr := fill D (2 * D - 1) (fun i => c.rowPtr (i - D + 1)) s.rowPtr }
      let old := (← parent.bNode).rowPtr (index1 - 1)
      let next := (← child.bNode).next
      let free := (← ctrl.bCtrl).freeNodeHead
      sibling.setBNode fun s => { s with next := next, n := 2 * D - 1 }
      child.setBNode fun c => { c with next := free }
      let addr := (← parent.bNode).child index1
      ctrl.setBCtrl fun c => { c with freeNodeHead := addr }
      return old : M RID)
  release i ((← parent.bNode).child (index1 - 1))
  return old

/-- An inner node with `DEGREE - 1` entries takes one through its parent from its right sibling, or
absorbs it. -/
def treeDeleteInnerRight (i : PoolId) (ctrl parent child : PagePtr) (index1 : ℕ) : M RID := do
  let sibling ← getPage i ((← parent.bNode).child (index1 + 1))
  let old ← (if (← sibling.bNode).n > D then do
      let p ← parent.bNode
      let s ← sibling.bNode
      child.setBNode fun c =>
        { c with
          rowPtr := Function.update c.rowPtr c.n (p.rowPtr index1)
          child := Function.update c.child (c.n + 1) (s.child 0)
          n := c.n + 1 }
      parent.setBNode (·.setRow index1 (s.rowPtr 0))
      sibling.setBNode (·.dropFirstChild)
      return RID.null
    else do
      let old := (← parent.bNode).rowPtr index1
      let sep ← H.insertHandler ((← parent.bNode).rowPtr index1) false
      let s ← sibling.bNode
      child.setBNode fun c =>
        { c with
          rowPtr := fill D (2 * D) (fun i => s.rowPtr (i - D)) (Function.update c.rowPtr c.n sep)
          child := fill D (2 * D + 1) (fun i => s.child (i - D)) c.child
          next := s.next
          n := 2 * D }
      let free := (← ctrl.bCtrl).freeNodeHead
      sibling.setBNode fun s => { s with next := free }
      let addr := (← parent.bNode).child (index1 + 1)
      ctrl.setBCtrl fun c => { c with freeNodeHead := addr }
      return old : M RID)
  release i ((← parent.bNode).child (index1 + 1))
  return old

/-- A last inner node with `DEGREE - 1` entries takes one through its parent from its left sibling,
or is absorbed. -/
def treeDeleteInnerLeft (i : PoolId) (ctrl parent child : PagePtr) (index1 : ℕ) : M RID := do
  let sibling ← getPage i ((← parent.bNode).child (index1 - 1))
  let old ← (if (← sibling.bNode).n > D then do
      let p ← parent.bNode
      let s ← sibling.bNode
      child.setBNode fun c =>
        { c with
          rowPtr := Function.update (pullRight 0 D c.rowPtr) 0 (p.rowPtr (index1 - 1))
          child := Function.update (pullRight 0 (D + 1) c.child) 0 (s.child s.n)
          n := c.n + 1 }
      parent.setBNode (·.setRow (index1 - 1) (s.rowPtr (s.n - 1)))
      sibling.setBNode (·.dropLastChild)
      return RID.null
    else do
      let old := (← parent.bNode).rowPtr (index1 - 1)
      let sep ← H.insertHandler ((← parent.bNode).rowPtr (index1 - 1)) false
      let c ← child.bNode
      sibling.setBNode fun s =>
        { s with
          rowPtr := fill (D + 1) (2 * D) (fun i => c.rowPtr (i - D - 1))
            (Function.update s.rowPtr D sep)
          child := fill (D + 1) (2 * D + 1) (fun i => c.child (i - D - 1)) s.child
          next := c.next
          n := 2 * D }
      let free := (← ctrl.bCtrl).freeNodeHead
      child.setBNode fun c => { c with next := free }
      let addr := (← parent.bNode).child index1
      ctrl.setBCtrl fun c => { c with freeNodeHead := addr }
      return old : M RID)
  release i ((← parent.bNode).child (index1 - 1))
  return old

/-- `tree_delete`: `*oldchildentry` afterwards. -/
def treeDelete (i : PoolId) (parent child : PagePtr) (rid oldchildentry : RID) : M RID := do
  let ctrl ← getPage i 0
  let index ← findIndex H child rid true
  if (← child.bNode).leaf then do
    let old ← (if (← child.bNode).n > D then do
        child.setBNode (·.removeRow index)
        return RID.null
      else do
        let c ← child.bNode
        let index1 ← findIndex H parent (c.rowPtr 0) c.leaf
        if index1 ≠ (← parent.bNode).n then treeDeleteLeafRight D H i ctrl parent child index index1
        else treeDeleteLeafLeft D H i ctrl parent child index index1 : M RID)
    release i 0
    return old
  else do
    let grandson ← getPage i ((← child.bNode).child index)
    let old ← Prog.proc (.treeDelete i child grandson rid oldchildentry)
    release i ((← child.bNode).child index)
    if old.blockAddr = -1 then do
      release i 0
      return old
    else do
      let index1 ← findIndex H child old false
      H.deleteHandler old
      child.setBNode (·.removeChild index1)
      let old ← (if (← child.bNode).n ≥ D then return RID.null
        else do
          let c ← child.bNode
          let index1 ← findIndex H parent (c.rowPtr 0) c.leaf
          if index1 ≠ (← parent.bNode).n then treeDeleteInnerRight D H i ctrl parent child index1
          else treeDeleteInnerLeft D H i ctrl parent child index1 : M RID)
      release i 0
      return old

/-- The removal of the merged entry `old` from the root in `b_tree_delete`. -/
def bTreeShrink (ctrl parent : PagePtr) (old : RID) : M Unit := do
  if (← parent.bNode).n > 1 then do
    let index ← findIndex H parent old false
    H.deleteHandler old
    parent.setBNode (·.removeChild index)
  else do
    H.deleteHandler old
    let free := (← ctrl.bCtrl).freeNodeHead
    parent.setBNode fun p => { p with n := p.n - 1, next := free }
    ctrl.setBCtrl fun c => { c with freeNodeHead := c.rootNode }
    let child := (← parent.bNode).child 0
    ctrl.setBCtrl fun c => { c with rootNode := child }

/-- `b_tree_delete`. -/
def bTreeDelete (i : PoolId) (rid : RID) : M Unit := do
  let ctrl ← getPage i 0
  let parent ← getPage i (← ctrl.bCtrl).rootNode
  let temp := (← ctrl.bCtrl).rootNode
  let index ← findIndex H parent rid true
  if (← parent.bNode).leaf then do
    parent.setBNode (·.removeRow index)
    release i temp
    release i 0
  else do
    let child ← getPage i ((← parent.bNode).child index)
    let temp1 := (← parent.bNode).child index
    let old ← Prog.proc (.treeDelete i parent child rid RID.null)
    Prog.when (old.blockAddr ≠ -1) (bTreeShrink H ctrl parent old)
    release i temp1
    release i temp
    release i 0

end Tree

end MyJQL
