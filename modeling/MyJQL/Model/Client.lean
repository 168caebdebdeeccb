import MyJQL.Model.Net

/-!
# The driver

`myjqlclient.cpp`: the calls of a client, and its end. `WSAGetLastError` returns `0`.
-/

set_option linter.unusedSimpArgs false

namespace MyJQL.Client

open Net

/-- What the calls throw: `system_error`, `key_too_long` and `value_too_long`. -/
inductive Error
  | systemError (what : String) (code : Int)
  | keyTooLong
  | valueTooLong
  deriving DecidableEq, Repr

/-- `send`. -/
def sendBytes (data : List Byte) : ExceptT Error Net Unit := do
  if ← send data then return () else throw (.systemError "send" 0)

/-- `recv(ConnectSocket, (char*)&code, sizeof(code), 0)`: `code` afterwards. -/
def recvCode (code : CInt) : ExceptT Error Net CInt := do
  match ← recv false 4 with
  | some bytes => return code.overwrite bytes
  | none => throw (.systemError "recv" 0)

/-- Send `(int)s.size()` and so many characters of `s`: the `int` sent. -/
def sendString (s : List Byte) : ExceptT Error Net CInt := do
  let code : CInt := BitVec.ofNat 32 s.length
  sendBytes code.bytes
  sendBytes (s.take code.sizeT)
  return code

/-- `std::string res = buf`: the characters before the first `0`, which is at most at `n`. -/
def stringOf (buf : Buf) (n : ℕ) : List Byte := (buf.read (n + 1)).takeWhile (· ≠ 0)

/-- `client::get`. -/
def get (key : List Byte) : ExceptT Error Net (Option (List Byte)) := do
  sendBytes (CInt.bytes 0)
  let code ← sendString key
  let code ← recvCode code
  if code = 0 then return none
  else if code = 1 then do
    let code ← recvCode code
    let buf ← malloc (code + 1).sizeT
    match ← recv buf.isNone code.sizeT with
    | none => throw (.systemError "recv" 0)
    | some bytes =>
      if (bytes.length : Int) ≠ code.toInt then throw (.systemError "incomplete response" 0)
      else
        match buf with
        | none => undefined
        | some buf =>
          return some (stringOf (Function.update (buf.write bytes) code.toInt 0) code.sizeT)
  else if code = 2 then throw .keyTooLong
  else throw (.systemError "unknown return code" code.toInt)

/-- `client::set`. -/
def set (key value : List Byte) : ExceptT Error Net Unit := do
  sendBytes (CInt.bytes 1)
  let _ ← sendString key
  let code ← sendString value
  let code ← recvCode code
  if code = 1 then return ()
  else if code = 2 then throw .keyTooLong
  else if code = 3 then throw .valueTooLong
  else throw (.systemError "unknown return code" code.toInt)

/-- `client::del`. -/
def del (key : List Byte) : ExceptT Error Net Unit := do
  sendBytes (CInt.bytes 2)
  let code ← sendString key
  let code ← recvCode code
  if code = 1 then return ()
  else if code = 2 then throw .keyTooLong
  else throw (.systemError "unknown return code" code.toInt)

/-- `client::~client`. `WSACleanup` does nothing. -/
def destructor : Net Unit := do
  if ← Prog.eff (.send (CInt.bytes 3)) then do
    match ← Prog.eff (.recv false 4) with
    | none => Prog.eff .closesocket
    | some _ =>
      if ← Prog.eff .shutdown then Prog.eff .closesocket
      else Prog.eff .closesocket
  else Prog.eff .closesocket

end MyJQL.Client
