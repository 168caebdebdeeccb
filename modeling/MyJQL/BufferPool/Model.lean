import MyJQL.Lib.Loop

/-!
# Files of pages and the buffer pool

* `FileInfo`, `openFile`, `readPage`, `writePage`: `file_io.c`, with the stream replaced by the page
  at each address;
* `BufferPool`, `initBufferPool`, `closeBufferPool`, `getPage`, `release`: `buffer_pool.c`. A
  `Page *` into the pool is the number of its frame. `getPage` is `none` where the C function runs
  off its end without returning.

Reference counts are integers, so a count released below `0` is nonzero, as it is in the source's
`size_t`.
-/

set_option linter.unusedSimpArgs false

namespace MyJQL

/-- `PAGE_SIZE`. -/
abbrev pageSize : Int := 128

/-- `CACHE_PAGE`. -/
abbrev cachePage : ℕ := 16

variable {P : Type}

/-! ## Files -/

/-- An open file: the page at each address, and the length in bytes. -/
structure FileInfo (P : Type) where
  data : Int → P
  length : Int

inductive FileIOResult
  | success
  | failed
  | invalidLen
  | invalidAddr
  | addrOutOfRange
  deriving DecidableEq, Repr

/-- `open_file`, on the file found under the name, or on none. -/
def openFile [Inhabited P] (disk : Option (FileInfo P)) : FileIOResult × FileInfo P :=
  match disk with
  | some file =>
    if file.length % pageSize ≠ 0 then (.invalidLen, ⟨fun _ => default, 0⟩) else (.success, file)
  | none => (.success, ⟨fun _ => default, 0⟩)

/-- `read_page`: the result, and the contents of the page buffer afterwards. -/
def readPage (page : P) (file : FileInfo P) (addr : Int) : FileIOResult × P :=
  if addr % pageSize ≠ 0 then (.invalidAddr, page)
  else if addr < 0 ∨ addr ≥ file.length then (.addrOutOfRange, page)
  else (.success, file.data addr)

/-- `write_page`: the result, and the file afterwards. -/
def writePage (page : P) (file : FileInfo P) (addr : Int) : FileIOResult × FileInfo P :=
  if addr % pageSize ≠ 0 then (.invalidAddr, file)
  else if addr < 0 ∨ addr > file.length then (.addrOutOfRange, file)
  else (.success,
    { data := Function.update file.data addr page
      length := if addr = file.length then file.length + pageSize else file.length })

/-! ## The pool -/

structure BufferPool (P : Type) where
  file : FileInfo P
  pages : ℕ → P
  addrs : ℕ → Int
  lru : ℕ → Int
  ref : ℕ → Int

/-- `init_buffer_pool`. -/
def initBufferPool [Inhabited P] (disk : Option (FileInfo P)) : BufferPool P where
  file := (openFile disk).2
  pages := fun _ => default
  addrs := fun _ => -1
  lru := fun _ => -1
  ref := fun _ => 0

/-- `close_buffer_pool`: the file left on disk. -/
def closeBufferPool (pool : BufferPool P) : FileInfo P :=
  forUp 0 cachePage (fun i file => (writePage (pool.pages i) file (pool.addrs i)).2) pool.file

namespace BufferPool

/-- The first frame `i` with `addrs[i] == addr`. -/
def frameOf (pool : BufferPool P) (addr : Int) : Option ℕ :=
  (List.range cachePage).find? fun i => pool.addrs i = addr

/-- The first position `j` with `lru[j] == addr`. -/
def lruIndex (pool : BufferPool P) (addr : Int) : Option ℕ :=
  (List.range cachePage).find? fun j => pool.lru j = addr

/-- The eviction loops, from position `n - 1` of `lru` down: the first pair `(i, j)` with
`addrs[j] == lru[i]` and `ref[j] == 0`. -/
def victimBelow (pool : BufferPool P) : ℕ → Option (ℕ × ℕ)
  | 0 => none
  | i + 1 =>
    match (List.range cachePage).find? fun j => pool.addrs j = pool.lru i ∧ pool.ref j = 0 with
    | some j => some (i, j)
    | none => victimBelow pool i

/-- `get_page` on a cached page, in frame `i`. -/
def hit (pool : BufferPool P) (addr : Int) (i : ℕ) : BufferPool P :=
  { pool with
    ref := Function.update pool.ref i (pool.ref i + 1)
    lru := match pool.lruIndex addr with
      | some j =>
        let temp := pool.lru j
        Function.update
          (forDown 1 (j + 1) (fun k l => Function.update l k (l (k - 1))) pool.lru) 0 temp
      | none => pool.lru }

/-- `get_page` into the empty frame `i`. -/
def fill (pool : BufferPool P) (addr : Int) (i : ℕ) : BufferPool P :=
  { pool with
    pages := Function.update pool.pages i (readPage (pool.pages i) pool.file addr).2
    addrs := Function.update pool.addrs i addr
    ref := Function.update pool.ref i (pool.ref i + 1)
    lru := Function.update
      (forDown 0 (cachePage - 1) (fun j l => Function.update l (j + 1) (l j)) pool.lru) 0 addr }

/-- `get_page` into frame `j`, whose page is at position `i` of `lru` and is written back first. -/
def evict (pool : BufferPool P) (addr : Int) (i j : ℕ) : BufferPool P :=
  let file := (writePage (pool.pages j) pool.file (pool.addrs j)).2
  { file := file
    pages := Function.update pool.pages j (readPage (pool.pages j) file addr).2
    addrs := Function.update pool.addrs j addr
    ref := Function.update pool.ref j (pool.ref j + 1)
    lru := Function.update
      (forDown 0 i (fun k l => Function.update l (k + 1) (l k)) pool.lru) 0 addr }

/-- `get_page`: the frame returned, and the pool afterwards. -/
def getPage (pool : BufferPool P) (addr : Int) : Option (ℕ × BufferPool P) :=
  match pool.frameOf addr with
  | some i => some (i, pool.hit addr i)
  | none =>
    match pool.frameOf (-1) with
    | some i => some (i, pool.fill addr i)
    | none =>
      match pool.victimBelow cachePage with
      | some (i, j) => some (j, pool.evict addr i j)
      | none => none

/-- `release`. -/
def release (pool : BufferPool P) (addr : Int) : BufferPool P :=
  match pool.frameOf addr with
  | some i => { pool with ref := Function.update pool.ref i (pool.ref i - 1) }
  | none => pool

end BufferPool

end MyJQL
