import MyJQL.Model.Net

/-!
# The server

`myjqlserver.c`: a thread for each client, which receives requests and calls the store inside a
critical section, and the handler that closes the store and exits.

A function that returns `r` early throws `r`. The variable `code` is passed on from each request to
the next, since a short `recv` overwrites a part of it only.
-/

set_option linter.unusedSimpArgs false

namespace MyJQL.Server

open Net

/-- `MAX_STR_LEN`. -/
abbrev maxStrLen : ℕ := 1024

/-! ## Messages -/

/-- `recv(ClientSocket, (char*)&code, sizeof(code), 0)`: `code` afterwards. -/
def recvCode (code : CInt) : ExceptT Int Net CInt := do
  match ← recv false 4 with
  | some bytes => return code.overwrite bytes
  | none => do
    closesocket
    throw 1

/-- `char *p = malloc(code + 1); recv(ClientSocket, p, code, 0); p[code] = 0;`. -/
def recvString (code : CInt) : ExceptT Int Net Buf := do
  let p ← malloc (code + 1).sizeT
  match ← recv p.isNone code.sizeT with
  | none => do
    closesocket
    throw 1
  | some bytes =>
    match p with
    | none => undefined
    | some p => return Function.update (p.write bytes) code.toInt 0

/-- `send`. -/
def sendBytes (data : List Byte) : ExceptT Int Net Unit := do
  if ← send data then return ()
  else do
    closesocket
    throw 1

/-- `send(ClientSocket, (char*)&code, sizeof(code), 0)`. -/
def sendCode (code : CInt) : ExceptT Int Net Unit := sendBytes code.bytes

/-- `EnterCriticalSection`, a call of the store, `LeaveCriticalSection`. -/
def critical {α : Type} (call : NetEff α) : ExceptT Int Net α := ExceptT.lift do
  Prog.eff .enterCriticalSection
  let a ← Prog.eff call
  Prog.eff .leaveCriticalSection
  return a

/-! ## Requests -/

/-- The reply to `get key`: `code` afterwards. -/
def getReply (code : CInt) (key : Buf) : ExceptT Int Net CInt := do
  if code.toInt > maxStrLen then do
    sendCode 2
    return 2
  else do
    match ← malloc (maxStrLen + 1) with
    | none => undefined
    | some value => do
      let (valueLen, value) ← critical (.myjqlGet (key.read code.sizeT) value maxStrLen)
      if valueLen = -1 then do
        sendCode 0
        return 0
      else do
        sendCode 1
        let code : CInt := BitVec.ofInt 32 valueLen
        sendCode code
        sendBytes (value.read code.sizeT)
        return code

/-- `get key`: `code` afterwards. -/
def getRequest (code : CInt) : ExceptT Int Net CInt := do
  let code ← recvCode code
  let key ← recvString code
  getReply code key

/-- The reply to `set key value`: `code` afterwards. -/
def setReply (keyLen : CInt) (key : Buf) (valueLen : CInt) (value : Buf) : ExceptT Int Net CInt := do
  if keyLen.toInt > maxStrLen then do
    sendCode 2
    return 2
  else if valueLen.toInt > maxStrLen then do
    sendCode 3
    return 3
  else do
    critical (.myjqlSet (key.read keyLen.sizeT) (value.read valueLen.sizeT))
    sendCode 1
    return 1

/-- `set key value`: `code` afterwards. -/
def setRequest (code : CInt) : ExceptT Int Net CInt := do
  let keyLen ← recvCode code
  let key ← recvString keyLen
  let valueLen ← recvCode keyLen
  let value ← recvString valueLen
  setReply keyLen key valueLen value

/-- The reply to `del key`: `code` afterwards. -/
def delReply (code : CInt) (key : Buf) : ExceptT Int Net CInt := do
  if code.toInt > maxStrLen then do
    sendCode 2
    return 2
  else do
    critical (.myjqlDel (key.read code.sizeT))
    sendCode 1
    return 1

/-- `del key`: `code` afterwards. -/
def delRequest (code : CInt) : ExceptT Int Net CInt := do
  let code ← recvCode code
  let key ← recvString code
  delReply code key

/-- One round of the loop, from the opcode on: `code` afterwards, or `none` for `break`. -/
def serve (code : CInt) : ExceptT Int Net (Option CInt) := do
  if code = 0 then return some (← getRequest code)
  else if code = 1 then return some (← setRequest code)
  else if code = 2 then return some (← delRequest code)
  else if code = 3 then do
    sendCode 1
    return none
  else return some code

/-- One round of the loop of `InstanceThread`. -/
def round (code : CInt) : ExceptT Int Net (Option CInt) := do
  let code ← recvCode code
  serve code

/-- One round of the loop, and what follows the loop: the value returned, or `code` for the next
round. -/
def instanceThreadRound (code : CInt) : Net (Int ⊕ CInt) := do
  match ← (round code).run with
  | .error r => return .inl r
  | .ok (some code) => return .inr code
  | .ok none => do
    if ← Prog.eff .shutdown then do
      Prog.eff .closesocket
      return .inl 0
    else do
      Prog.eff .closesocket
      return .inl 1

/-- `for (; ; )`. -/
def instanceThreadLoop (code : CInt) : Net Int :=
  (instanceThreadRound code).bind (Sum.elim .pure fun code => .proc (.instanceThread code))

/-- `InstanceThread`, with `code` as it is found. -/
def instanceThread (code : CInt) : Net Int := .proc (.instanceThread code)

/-- The bodies of the server's loops. -/
def procs : Bodies NetEff NetProc
  | _, .instanceThread code => instanceThreadLoop code

/-- `exit_nicely`; the mutex is destroyed before `exit`. -/
def exitNicely : Net Unit := do
  Prog.eff .enterCriticalSection
  Prog.eff .myjqlClose
  Prog.eff .leaveCriticalSection
  Prog.eff .closesocket
  Prog.eff .exit

end MyJQL.Server
