import MyJQL.Lib.Prog
import MyJQL.Storage.Page

/-!
# The shell

`myjqlshell.cpp`: lines are read from the standard input into `input_buffer`, and executed.

* `ShellEff`, `ShellProc`, `ShellProg`: effects, loops and programs of the shell;
* `readInput`, `main`: the functions of the source. A function that exits with `r` throws `r`;
* `Terminal`, `terminalSem`: the standard input, and what the shell has done.
-/

set_option linter.unusedSimpArgs false

namespace MyJQL.Shell

/-- `INPUT_BUFFER_SIZE`. -/
abbrev inputBufferSize : ℕ := 1024

/-- `EOF`. -/
abbrev eof : Int := -1

/-- `input_buffer`. -/
structure InputBuffer where
  buffer : ℕ → Byte
  length : ℕ

/-- `InputResult`. -/
inductive InputResult
  | inputSuccess
  | inputTooLong
  deriving DecidableEq, Repr

/-- What the shell prints of its own, and the lines it executes. -/
inductive Event
  | prompt
  | tooLong
  | bye
  | execute (line : List Byte)
  deriving DecidableEq, Repr

/-- What the shell does. -/
inductive ShellEff : Type → Type
  | getchar : ShellEff Int
  | emit (e : Event) : ShellEff Unit

/-- The loops of the shell. -/
inductive ShellProc : Type → Type
  | readLoop (buf : InputBuffer) : ShellProc InputBuffer
  | drainLoop : ShellProc Unit
  | mainLoop (buf : InputBuffer) : ShellProc (Except Int Int)

/-- Programs of the shell. -/
abbrev ShellProg := Prog ShellEff ShellProc

namespace InputBuffer

/-- `buffer[length - 1]`, as an `int`. -/
def last (buf : InputBuffer) : Int := (buf.buffer (buf.length - 1)).toInt

/-- `buffer[length++] = c`. -/
def push (buf : InputBuffer) (c : Byte) : InputBuffer :=
  ⟨Function.update buf.buffer buf.length c, buf.length + 1⟩

/-- The bytes read. -/
def line (buf : InputBuffer) : List Byte := tabulate buf.buffer buf.length

/-- The string in `buffer`. -/
def cString (buf : InputBuffer) : List Byte :=
  (tabulate buf.buffer (inputBufferSize + 1)).takeWhile (· ≠ 0)

end InputBuffer

/-- The first loop of `read_input`. `getchar` is narrowed to a `char`, which is signed. -/
def readLoop (buf : InputBuffer) : ShellProg InputBuffer := do
  if buf.length ≤ inputBufferSize then do
    let c ← .eff .getchar
    let buf := buf.push (BitVec.ofInt 8 c)
    if buf.last ≠ 10 ∧ buf.last ≠ eof then .proc (.readLoop buf) else return buf
  else return buf

/-- `while (getchar() != '\n');`. -/
def drainLoop : ShellProg Unit := do
  let c ← .eff .getchar
  if c ≠ 10 then .proc .drainLoop else return ()

/-- `read_input`, after its first loop. -/
def readResult (buf : InputBuffer) : ExceptT Int ShellProg (InputResult × InputBuffer) := do
  if buf.last = eof then throw 0
  else do
    let buf := { buf with length := buf.length - 1 }
    if buf.length = inputBufferSize ∧ (buf.buffer buf.length).toInt ≠ 10 then do
      ExceptT.lift (.proc .drainLoop)
      return (.inputTooLong, buf)
    else
      return (.inputSuccess, { buf with buffer := Function.update buf.buffer buf.length 0 })

/-- `read_input`. -/
def readInput (buf : InputBuffer) : ExceptT Int ShellProg (InputResult × InputBuffer) := do
  let buf ← ExceptT.lift (.proc (.readLoop { buf with length := 0 }))
  readResult buf

/-- `"exit"`. -/
def exitWord : List Byte := [101, 120, 105, 116]

/-- One round of the loop of `main`, and the loop again unless the line is `exit`. -/
def mainRound (buf : InputBuffer) : ExceptT Int ShellProg Int := do
  ExceptT.lift (.eff (.emit .prompt))
  let (r, buf) ← readInput buf
  if r = .inputTooLong then do
    ExceptT.lift (.eff (.emit .tooLong))
    ExceptT.mk (.proc (.mainLoop buf))
  else if buf.cString = exitWord then do
    ExceptT.lift (.eff (.emit .bye))
    return 0
  else do
    ExceptT.lift (.eff (.emit (.execute buf.cString)))
    ExceptT.mk (.proc (.mainLoop buf))

/-- The bodies of the loops. -/
def shellProcs : Bodies ShellEff ShellProc
  | _, .readLoop buf => readLoop buf
  | _, .drainLoop => drainLoop
  | _, .mainLoop buf => (mainRound buf).run

/-- `main`; `input_buffer` is zero at first. -/
def main : ExceptT Int ShellProg Int := ExceptT.mk (.proc (.mainLoop ⟨fun _ => 0, 0⟩))

/-- The standard input that is left, whether its end has been met, and what the shell has done. -/
structure Terminal where
  input : List Byte
  atEnd : Bool
  log : List Event

/-- The effects. -/
def terminalSem : Sem ShellEff Terminal := fun e s =>
  match e with
  | .getchar =>
    match s.input with
    | [] => some (eof, { s with atEnd := true })
    | b :: l => some ((b.toNat : Int), { s with input := l })
  | .emit e => some ((), { s with log := s.log ++ [e] })

end MyJQL.Shell
