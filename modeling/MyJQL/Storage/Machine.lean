import MyJQL.Storage.Effects
import MyJQL.BufferPool.Coherence

/-!
# The machine and the flat store

Two interpretations of the programs of the engine.

* `Machine`, `machineSem`: five buffer pools, with the frame of every pointer handed out;
* `Checked`, `checkedSem`: the same effects, stopped where a request finds no room, a reference
  count would fall below `0`, or a file grows although its control page starts a free list;
* `Flat`, `flatSem`: five arrays of pages without any cache. A flat pool counts the requests not yet
  released (`pins`) and remembers the last two requested pages (`recent`); a pointer may be used
  while its page is pinned or recent, and dies when its page is requested again after that. A file
  grows only without free pages. With `bounded` set, a request must leave at most sixteen distinct
  pages pinned, itself included;
* `FlatPool.At`, `FlatPool.Live`: the page of a pointer, and whether it may be used.
-/

set_option linter.unusedSimpArgs false

namespace MyJQL

/-! ## Buffer pools -/

/-- A buffer pool, and the frame returned by each request so far. -/
structure Mapped where
  pool : BufferPool Page
  frames : ℕ → ℕ
  next : ℕ

/-- The state of the engine. -/
abbrev Machine := PoolId → Mapped

/-- A pool just opened. -/
def Mapped.new (pool : BufferPool Page) : Mapped := ⟨pool, fun _ => 0, 0⟩

/-- The effects on the buffer pools. -/
def machineSem : Sem Eff Machine
  | _, .getPage i addr, s =>
    match (s i).pool.getPage addr with
    | some (k, pool) =>
      some (⟨i, (s i).next⟩, Function.update s i
        { pool := pool
          frames := Function.update (s i).frames (s i).next k
          next := (s i).next + 1 })
    | none => none
  | _, .release i addr, s =>
    some ((), Function.update s i { s i with pool := (s i).pool.release addr })
  | _, .load p, s =>
    if p.id < (s p.pool).next then
      some ((s p.pool).pool.pages ((s p.pool).frames p.id), s)
    else none
  | _, .store p page, s =>
    if p.id < (s p.pool).next then
      some ((), Function.update s p.pool
        { s p.pool with pool := (s p.pool).pool.setPage ((s p.pool).frames p.id) page })
    else none
  | _, .fileLength i, s => some ((s i).pool.file.length, s)
  | _, .writePage i page addr, s =>
    some ((), Function.update s i
      { s i with pool :=
        { (s i).pool with file := (writePage page (s i).pool.file addr).2 } })
  | _, .undefined, _ => none

namespace BufferPool

variable {P : Type} (pool : BufferPool P) (a : Int)

/-- The page is cached, a frame is unused, or some frame has reference count `0`. -/
def Room : Prop :=
  (∃ k < cachePage, pool.addrs k = a) ∨ (∃ k < cachePage, pool.addrs k = -1) ∨
    ∃ k < cachePage, pool.ref k = 0

/-- The reference count that a release decrements is positive. -/
def Releasable : Prop := ∃ k < cachePage, pool.addrs k = a ∧ 0 < pool.ref k

instance : Decidable (pool.Room a) := by unfold Room; infer_instance

instance : Decidable (pool.Releasable a) := by unfold Releasable; infer_instance

end BufferPool

/-- The control page of the file, if it has one, starts an empty free list. -/
def Mapped.MayGrow (m : Mapped) : Prop := 0 < m.pool.file.length → (m.pool.view 0).freeHead = -1

instance (m : Mapped) : Decidable m.MayGrow := by unfold Mapped.MayGrow; infer_instance

/-- What every effect should find: a request has room, a release decrements no reference count of
`0`, and a file grows only when its free list is empty. -/
def Checked : {β : Type} → Eff β → Machine → Prop
  | _, .getPage i addr, t => (t i).pool.Room addr
  | _, .release i addr, t => (t i).pool.Releasable addr
  | _, .writePage i _ _, t => (t i).MayGrow
  | _, _, _ => True

instance {β : Type} (e : Eff β) (t : Machine) : Decidable (Checked e t) := by
  cases e <;> unfold Checked <;> infer_instance

/-- The effects on the buffer pools, stopped at the first that is not as it should be. -/
def checkedSem : Sem Eff Machine := fun e t => if Checked e t then machineSem e t else none

/-! ## Flat pools -/

/-- An array of pages, with the requests not yet released, the last two pages requested and the page
of every pointer handed out. -/
structure FlatPool where
  mem : Int → Page
  length : Int
  pins : Multiset Int
  recent : List Int
  ptrs : ℕ → Option Int
  next : ℕ

namespace FlatPool

/-- An address of a page. -/
def Valid (f : FlatPool) (a : Int) : Prop := 0 ≤ a ∧ a < f.length ∧ a % pageSize = 0

instance (f : FlatPool) (a : Int) : Decidable (f.Valid a) := by unfold Valid; infer_instance

/-- The page cannot have been evicted. -/
def Resident (f : FlatPool) (a : Int) : Prop := a ∈ f.pins ∨ a ∈ f.recent

instance (f : FlatPool) (a : Int) : Decidable (f.Resident a) := by unfold Resident; infer_instance

/-- Requesting `a`, and evicting none of `l`, leaves at most sixteen pages that must be cached. -/
def Fits (f : FlatPool) (l : List Int) : Prop :=
  ((l : Multiset Int) + f.pins).toFinset.card ≤ cachePage

instance (f : FlatPool) (l : List Int) : Decidable (f.Fits l) := by unfold Fits; infer_instance

/-- The recent pages after a request for `a`. -/
def touch (f : FlatPool) (a : Int) : List Int :=
  a :: ((f.recent.erase a).take 1).filter fun m => f.Fits [a, m]

/-- The control page, if there is one, starts an empty free list. -/
def MayGrow (f : FlatPool) : Prop := 0 < f.length → (f.mem 0).freeHead = -1

instance (f : FlatPool) : Decidable f.MayGrow := by unfold MayGrow; infer_instance

/-- A request. -/
def get (f : FlatPool) (a : Int) : FlatPool :=
  { f with
    pins := a ::ₘ f.pins
    recent := f.touch a
    ptrs := fun t =>
      if t = f.next then some a
      else if f.ptrs t = some a ∧ ¬ f.Resident a then none
      else f.ptrs t
    next := f.next + 1 }

/-- A release. -/
def release (f : FlatPool) (a : Int) : FlatPool := { f with pins := f.pins.erase a }

/-- A write to a page. -/
def put (f : FlatPool) (a : Int) (page : Page) : FlatPool :=
  { f with mem := Function.update f.mem a page }

/-- A new last page. -/
def append (f : FlatPool) (page : Page) : FlatPool :=
  { f with
    mem := Function.update f.mem f.length page
    length := f.length + pageSize }

/-- Pointer `t` was returned for page `a`, which has been resident ever since. -/
def At (f : FlatPool) (t : ℕ) (a : Int) : Prop := t < f.next ∧ f.ptrs t = some a

/-- Pointer `t` may be used, for page `a`. -/
def Live (f : FlatPool) (t : ℕ) (a : Int) : Prop := f.At t a ∧ f.Resident a

/-- The page that pointer `t` may be used for. -/
def deref (f : FlatPool) (t : ℕ) : Option Int :=
  if t < f.next then (f.ptrs t).filter fun a => f.Resident a else none

theorem deref_eq_some {f : FlatPool} {t : ℕ} {a : Int} : f.deref t = some a ↔ f.Live t a := by
  unfold deref Live At
  split_ifs with h <;> simp [h, Option.filter_eq_some_iff]

end FlatPool

/-- The flat state of the engine. -/
abbrev Flat := PoolId → FlatPool

/-- The effects on flat pools. -/
def flatSem (bounded : Bool) : Sem Eff Flat
  | _, .getPage i addr, s =>
    if (s i).Valid addr ∧ (bounded → (s i).Fits [addr]) then
      some (⟨i, (s i).next⟩, Function.update s i ((s i).get addr))
    else none
  | _, .release i addr, s =>
    if addr ∈ (s i).pins then some ((), Function.update s i ((s i).release addr)) else none
  | _, .load p, s =>
    match (s p.pool).deref p.id with
    | some a => some ((s p.pool).mem a, s)
    | none => none
  | _, .store p page, s =>
    match (s p.pool).deref p.id with
    | some a => some ((), Function.update s p.pool ((s p.pool).put a page))
    | none => none
  | _, .fileLength i, s => some ((s i).length, s)
  | _, .writePage i page addr, s =>
    if addr = (s i).length ∧ (s i).MayGrow then
      some ((), Function.update s i ((s i).append page))
    else none
  | _, .undefined, _ => none

end MyJQL
