import MyJQL.Lib.Process
import MyJQL.Storage.Page

/-!
# Programs over sockets

What the server's threads and the driver do: they receive and send bytes, allocate memory, lock, and
call the store.

* `CInt`: an `int`, with its bytes in memory; `Buf`: memory at a `char *`;
* `NetEff`, `NetProc`, `Net`: effects, procedures and programs.
-/

set_option linter.unusedSimpArgs false

namespace MyJQL

/-! ## Memory -/

/-- `int`. -/
abbrev CInt := BitVec 32

namespace CInt

/-- Byte `i` of an `int` in memory. -/
def byte (x : CInt) (i : ℕ) : Byte := x.extractLsb' (8 * i) 8

/-- The bytes of an `int`. -/
def bytes (x : CInt) : List Byte := [x.byte 0, x.byte 1, x.byte 2, x.byte 3]

/-- The `int` with the bytes `b`. -/
def ofBytes (b : ℕ → Byte) : CInt := b 3 ++ b 2 ++ b 1 ++ b 0

/-- The `int` after its first bytes have been overwritten. -/
def overwrite (x : CInt) (l : List Byte) : CInt := ofBytes fun i => l.getD i (x.byte i)

/-- `(size_t)x`. -/
def sizeT (x : CInt) : ℕ := (x.signExtend 64).toNat

end CInt

/-- Memory at a `char *`. -/
abbrev Buf := Int → Byte

namespace Buf

/-- The first `n` bytes. -/
def read (p : Buf) (n : ℕ) : List Byte := tabulate (fun i => p i) n

/-- The memory after its first bytes have been overwritten. -/
def write (p : Buf) (l : List Byte) : Buf := fun i => if 0 ≤ i then l.getD i.toNat (p i) else p i

end Buf

/-! ## Programs -/

/-- What programs do. A `recv` into `NULL` is marked; it returns the bytes received, or `none` for
`SOCKET_ERROR`. `malloc` returns the memory as it is found, or `none` for `NULL`. Nothing follows
`exit`, which ends the process. -/
inductive NetEff : Type → Type
  | recv (null : Bool) (n : ℕ) : NetEff (Option (List Byte))
  | send (data : List Byte) : NetEff Bool
  | shutdown : NetEff Bool
  | closesocket : NetEff Unit
  | malloc (size : ℕ) : NetEff (Option Buf)
  | enterCriticalSection : NetEff Unit
  | leaveCriticalSection : NetEff Unit
  | myjqlGet (key : List Byte) (value : Buf) (maxSize : ℕ) : NetEff (Int × Buf)
  | myjqlSet (key value : List Byte) : NetEff Unit
  | myjqlDel (key : List Byte) : NetEff Unit
  | myjqlClose : NetEff Unit
  | exit : NetEff Unit
  | undefined : NetEff Empty

/-- The endless loop of the server. -/
inductive NetProc : Type → Type
  | instanceThread (code : CInt) : NetProc Int

/-- Programs over sockets. -/
abbrev Net := Prog NetEff NetProc

namespace Net

variable {ε : Type}

/-- `recv`. -/
def recv (null : Bool) (n : ℕ) : ExceptT ε Net (Option (List Byte)) :=
  ExceptT.lift (.eff (.recv null n))

/-- `send`; false for `SOCKET_ERROR`. -/
def send (data : List Byte) : ExceptT ε Net Bool := ExceptT.lift (.eff (.send data))

/-- `closesocket`. -/
def closesocket : ExceptT ε Net Unit := ExceptT.lift (.eff .closesocket)

/-- `malloc`. -/
def malloc (size : ℕ) : ExceptT ε Net (Option Buf) := ExceptT.lift (.eff (.malloc size))

/-- Undefined behaviour. -/
def undefined {α : Type} : ExceptT ε Net α := ExceptT.mk (.op .undefined Empty.elim)

end Net

end MyJQL
