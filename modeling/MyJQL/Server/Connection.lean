import MyJQL.Model.Client
import MyJQL.Lib.Pipe
import MyJQL.Server.Protocol

/-!
# The driver and a server thread on a connection

* `netAct`: what the effects of both programs do on the connection between them;
* `Call.drive`: a call of a client; `Call.reply`, `Call.made`, `Call.answer`: what the server
  replies to its request, what it calls, and what the driver makes of the reply;
* `port_recv`, `driver_send`, `thread_receive`, …: one rule for each function of either program;
* **`driver_call`**: the driver by itself sends the request and takes the reply; **`thread_round`**:
  one round of `InstanceThread` by itself takes the request and sends the reply;
* **`call_duet`**: both together.
-/

set_option linter.unusedSimpArgs false

namespace MyJQL.Server

/-! ## The connection -/

/-- The call of the store that an effect is, if it is one. -/
def storeCall : ∀ {β : Type}, NetEff β → Option Call
  | _, .myjqlGet key _ _ => some (.get key)
  | _, .myjqlSet key value => some (.set key value)
  | _, .myjqlDel key => some (.del key)
  | _, _ => none

/-- What a call of the store returns, with the map `m` in it. -/
def StoreAnswer (m : KV) : ∀ {β : Type}, NetEff β → β → Prop
  | _, .myjqlGet key value maxSize, b => b = getAnswer m key value maxSize
  | _, _, _ => True

/-- What an effect does on the connection, when every `send` and `recv` transfers its full length. A
`recv` into `NULL` fails and leaves the bytes where they are; `malloc` fails only above
`PTRDIFF_MAX`. The state of a side is the calls of the store it has made, and `view` the map that
the store has at the next call. -/
def netAct (view : List Call → KV) : ∀ β, NetEff β → Act Byte (List Call) β
  | _, .recv null n => .recv n null fun l => if null ∧ l ≠ [] then none else some l
  | _, .send data => .send data true
  | _, .shutdown => .close fun _ => True
  | _, .closesocket => .close fun _ => True
  | _, .malloc n => .own fun calls b calls' =>
    (if n < 2 ^ 63 then ∃ p, b = some p else b = none) ∧ calls' = calls
  | _, .enterCriticalSection => .own fun calls _ calls' => calls' = calls
  | _, .leaveCriticalSection => .own fun calls _ calls' => calls' = calls
  | _, .myjqlClose => .own fun _ _ _ => False
  | _, .exit => .own fun _ _ _ => False
  | _, .undefined => .own fun _ _ _ => False
  | _, e => .own fun calls b calls' =>
    StoreAnswer (view calls) e b ∧ calls' = calls ++ (storeCall e).toList

/-- A call of a client, with the value that `get` returns. -/
def Call.drive : Call → ExceptT Client.Error Net (Option (List Byte))
  | .get key => Client.get key
  | .set key value => do
    Client.set key value
    return none
  | .del key => do
    Client.del key
    return none

/-- The last `recv` of the server for the request, and the last one of the driver for the reply, are
for some bytes. -/
structure Call.Completes (m : KV) (c : Call) : Prop where
  request : c.strings.getLast? ≠ some []
  reply : ∀ key, c = .get key → key.length ≤ maxStrLen → m key ≠ some []

/-- What the server calls for a request: nothing if a string is too long. -/
def Call.made : Call → List Call
  | .get key => if key.length > maxStrLen then [] else [.get key]
  | .set key value =>
    if key.length > maxStrLen then [] else if value.length > maxStrLen then [] else [.set key value]
  | .del key => if key.length > maxStrLen then [] else [.del key]

/-- What the server replies, with the map `m` in its store. -/
def Call.reply (m : KV) : Call → List Byte
  | .get key =>
    if key.length > maxStrLen then CInt.bytes 2
    else
      match m key with
      | none => CInt.bytes 0
      | some v => CInt.bytes 1 ++ encodeString (v.take maxStrLen)
  | .set key value =>
    CInt.bytes (if key.length > maxStrLen then 2 else if value.length > maxStrLen then 3 else 1)
  | .del key => CInt.bytes (if key.length > maxStrLen then 2 else 1)

/-- What the call returns or throws for this reply. A value ends at its first `0`. -/
def Call.answer (m : KV) : Call → Except Client.Error (Option (List Byte))
  | .get key =>
    if key.length > maxStrLen then .error .keyTooLong
    else .ok ((m key).map fun v => (v.take maxStrLen).takeWhile (· ≠ 0))
  | .set key value =>
    if key.length > maxStrLen then .error .keyTooLong
    else if value.length > maxStrLen then .error .valueTooLong
    else .ok none
  | .del key => if key.length > maxStrLen then .error .keyTooLong else .ok none

/-! ## Rules -/

section Rules

variable {view : List Call → KV} {ready : List Call → Prop} {shut : Prop} {i : Side} {live : Prop}
  {inc a : List Byte} {cs : List Call} {ε α : Type}
  {T : ε → Port Byte (List Call) → Prop}

theorem port_recv {n : ℕ} {l : List Byte} {Q : Option (List Byte) → Port Byte (List Call) → Prop}
    (hn : l.length = n) (hne : l ++ inc ≠ []) (hc : i = .client → a = [])
    (h : Q (some l) ⟨inc, a, cs⟩) :
    espec (portEnv shut (netAct view) ready i) live (fun _ => True) (Net.recv false n) Q T
      ⟨l ++ inc, a, cs⟩ := by
  subst hn
  refine espec_lift (spec_eff trivial
    (fun _ => ⟨_, _, (portEnv_recv rfl).mpr ⟨by simp, hne, hc, rfl, rfl⟩⟩) fun b q hq => ?_)
  obtain ⟨-, -, -, rfl, rfl⟩ := (portEnv_recv rfl).mp hq
  simpa using h

theorem port_send {data : List Byte} {Q : Bool → Port Byte (List Call) → Prop}
    (hs : i = .server → inc = [] ∧ ready cs) (h : Q true ⟨inc, a, cs⟩) :
    espec (portEnv shut (netAct view) ready i) live (fun _ => True) (Net.send data) Q T
      ⟨inc, data ++ a, cs⟩ := by
  refine espec_lift (spec_eff trivial
    (fun _ => ⟨_, _, (portEnv_send rfl).mpr ⟨fun hi _ => hs hi, rfl, a, rfl, rfl⟩⟩) fun b q hq => ?_)
  obtain ⟨-, rfl, rest, hu, rfl⟩ := (portEnv_send rfl).mp hq
  obtain rfl := List.append_cancel_left hu
  exact h

theorem port_malloc {n : ℕ} {Q : Option Buf → Port Byte (List Call) → Prop} (hn : n < 2 ^ 63)
    (h : ∀ p, Q (some p) ⟨inc, a, cs⟩) :
    espec (portEnv shut (netAct view) ready i) live (fun _ => True) (Net.malloc n) Q T
      ⟨inc, a, cs⟩ := by
  refine espec_lift (spec_eff trivial (fun _ => ⟨some fun _ => 0, _, (portEnv_own rfl).mpr
    ⟨cs, ⟨(if_pos hn).mpr ⟨_, rfl⟩, rfl⟩, rfl⟩⟩) fun b q hq => ?_)
  obtain ⟨_, ⟨hb, rfl⟩, rfl⟩ := (portEnv_own rfl).mp hq
  obtain ⟨p, rfl⟩ := (if_pos hn).mp hb
  exact h p

end Rules

/-! ## The driver -/

section Driver

variable {view : List Call → KV} {ready : List Call → Prop} {shut live : Prop} {inc a : List Byte}
  {cs : List Call} {α : Type}
  {T : Client.Error → Port Byte (List Call) → Prop}

theorem driver_send {data : List Byte} {Q : Unit → Port Byte (List Call) → Prop}
    (h : Q () ⟨inc, a, cs⟩) : espec (portEnv shut (netAct view) ready .client) live (fun _ => True)
      (Client.sendBytes data) Q T ⟨inc, data ++ a, cs⟩ :=
  espec_bind (port_send nofun h)

theorem driver_recvCode {x code : CInt} {Q : CInt → Port Byte (List Call) → Prop}
    (h : Q x ⟨inc, [], cs⟩) : espec (portEnv shut (netAct view) ready .client) live (fun _ => True)
      (Client.recvCode code) Q T ⟨x.bytes ++ inc, [], cs⟩ := by
  refine espec_bind (port_recv x.length_bytes nofun (fun _ => rfl) ?_)
  rw [← CInt.overwrite_bytes code x] at h
  exact espec_pure h

theorem driver_sendString {str : List Byte} {Q : CInt → Port Byte (List Call) → Prop}
    (hlen : str.length < 2 ^ 31) (h : Q (BitVec.ofNat 32 str.length) ⟨inc, a, cs⟩) :
    espec (portEnv shut (netAct view) ready .client) live (fun _ => True)
      (Client.sendString str) Q T
      ⟨inc, encodeString str ++ a, cs⟩ := by
  rw [encodeString, List.append_assoc]
  refine espec_bind (driver_send (espec_bind ?_))
  have e : str.take (CInt.sizeT (BitVec.ofNat 32 str.length)) = str := by
    rw [sizeT_length hlen, List.take_length]
  rw [e]
  exact driver_send (espec_pure h)

theorem allocates_length {n : ℕ} (h : n < 2 ^ 31 - 1) : Allocates (BitVec.ofNat 32 n) := by
  rw [allocates_iff, toInt_length (by omega)]
  omega

/-- `std::string res = buf`, of a string received whole. -/
theorem stringOf_received (p : Buf) {l : List Byte} (hl : l.length < 2 ^ 31) :
    Client.stringOf (Function.update (p.write l) (BitVec.ofNat 32 l.length).toInt 0)
      (CInt.sizeT (BitVec.ofNat 32 l.length)) = l.takeWhile (· ≠ 0) := by
  have hread : Buf.read (Function.update (p.write l) l.length 0) (l.length + 1) = l ++ [0] := by
    refine List.ext_getElem (by simp [Buf.read]) fun j h1 h2 => ?_
    simp only [Buf.read, getElem_tabulate, List.getElem_append]
    split_ifs with hj
    · rw [Function.update_of_ne (by omega), Buf.write, if_pos (by omega), Int.toNat_natCast]
      exact List.getD_eq_getElem _ _ hj
    · have hj : j = l.length := by
        simp only [List.length_append, List.length_singleton] at h2
        omega
      subst hj
      rw [Function.update_self, List.getElem_singleton]
  rw [toInt_length hl, sizeT_length hl, Client.stringOf, hread, List.takeWhile_append]
  split_ifs with h
  · rw [List.takeWhile_cons_of_neg (by decide), List.append_nil]
    exact ((List.takeWhile_prefix _).eq_of_length h).symm
  · rfl

variable (cs) in
/-- **The driver** sends a request, and makes of the reply what it says. -/
theorem driver_call (m' : KV) (c : Call) (hs : ∀ str ∈ c.strings, str.length < 2 ^ 31)
    (hc : c.Completes m') :
    espec (portEnv shut (netAct view) ready .client) live (fun _ => True) c.drive
      (fun r q => c.answer m' = .ok r ∧ q = ⟨[], [], cs⟩)
      (fun e q => c.answer m' = .error e ∧ q = ⟨[], [], cs⟩) ⟨c.reply m', c.encode, cs⟩ := by
  cases c with
  | get key =>
    have hk := hs key List.mem_cons_self
    rw [Call.encode, ← List.append_nil (encodeString key)]
    refine espec_bind (driver_send (espec_bind (driver_sendString hk ?_)))
    rw [Call.reply, Call.answer]
    by_cases hlong : key.length > maxStrLen
    · rw [if_pos hlong, if_pos hlong, ← List.append_nil (CInt.bytes 2)]
      refine espec_bind (driver_recvCode ?_)
      refine espec_ite (fun h => absurd h (by decide)) fun _ => ?_
      refine espec_ite (fun h => absurd h (by decide)) fun _ => ?_
      exact espec_ite (fun _ => espec_throw ⟨rfl, rfl⟩) fun h => absurd rfl h
    · rw [if_neg hlong, if_neg hlong]
      have hne := hc.reply key rfl (not_lt.mp hlong)
      cases hv : m' key with
      | none =>
        rw [← List.append_nil (CInt.bytes 0)]
        refine espec_bind (driver_recvCode ?_)
        exact espec_ite (fun _ => espec_pure ⟨rfl, rfl⟩) fun h => absurd rfl h
      | some v =>
        dsimp only
        have hlen : (v.take maxStrLen).length < 2 ^ 31 - 1 := by
          rw [List.length_take, maxStrLen]
          omega
        have hl0 : v.take maxStrLen ≠ [] := fun h => by
          rcases List.take_eq_nil_iff.mp h with h | h
          · cases h
          · exact hne (hv.trans (congrArg some h))
        generalize hl : v.take maxStrLen = l at hlen hl0 ⊢
        refine espec_bind (driver_recvCode ?_)
        refine espec_ite (fun h => absurd h (by decide)) fun _ => ?_
        refine espec_ite (fun _ => ?_) fun h => absurd rfl h
        have henc : encodeString l = CInt.bytes (BitVec.ofNat 32 l.length) ++ (l ++ []) := by
          rw [List.append_nil, encodeString]
        rw [henc]
        refine espec_bind (driver_recvCode (espec_bind
          (port_malloc (allocates_length hlen) fun p => ?_)))
        refine espec_bind (port_recv (sizeT_length (by omega)).symm (by simpa using hl0)
          (fun _ => rfl) ?_)
        have hint : (l.length : Int) = (BitVec.ofNat 32 l.length).toInt :=
          (toInt_length (by omega)).symm
        refine espec_ite (fun h => absurd hint h) fun _ => ?_
        refine espec_pure ⟨?_, rfl⟩
        rw [stringOf_received p (by omega), ← hl]
        rfl
  | set key value =>
    have hk := hs key List.mem_cons_self
    have hv := hs value (List.mem_cons_of_mem _ List.mem_cons_self)
    rw [Call.encode, ← List.append_nil (encodeString value)]
    refine espec_bind (espec_bind (driver_send (espec_bind (driver_sendString hk
      (espec_bind (driver_sendString hv ?_))))))
    rw [Call.reply, Call.answer, ← List.append_nil (CInt.bytes _)]
    refine espec_bind (driver_recvCode ?_)
    by_cases hlong : key.length > maxStrLen
    · rw [if_pos hlong, if_pos hlong]
      refine espec_ite (fun h => absurd h (by decide)) fun _ => ?_
      exact espec_ite (fun _ => espec_throw ⟨rfl, rfl⟩) fun h => absurd rfl h
    rw [if_neg hlong, if_neg hlong]
    by_cases hlong' : value.length > maxStrLen
    · rw [if_pos hlong', if_pos hlong']
      refine espec_ite (fun h => absurd h (by decide)) fun _ => ?_
      refine espec_ite (fun h => absurd h (by decide)) fun _ => ?_
      exact espec_ite (fun _ => espec_throw ⟨rfl, rfl⟩) fun h => absurd rfl h
    · rw [if_neg hlong', if_neg hlong']
      exact espec_ite (fun _ => espec_pure (espec_pure ⟨rfl, rfl⟩)) fun h => absurd rfl h
  | del key =>
    have hk := hs key List.mem_cons_self
    rw [Call.encode, ← List.append_nil (encodeString key)]
    refine espec_bind (espec_bind (driver_send (espec_bind (driver_sendString hk ?_))))
    rw [Call.reply, Call.answer, ← List.append_nil (CInt.bytes _)]
    refine espec_bind (driver_recvCode ?_)
    by_cases hlong : key.length > maxStrLen
    · rw [if_pos hlong, if_pos hlong]
      refine espec_ite (fun h => absurd h (by decide)) fun _ => ?_
      exact espec_ite (fun _ => espec_throw ⟨rfl, rfl⟩) fun h => absurd rfl h
    · rw [if_neg hlong, if_neg hlong]
      exact espec_ite (fun _ => espec_pure (espec_pure ⟨rfl, rfl⟩)) fun h => absurd rfl h

end Driver

/-! ## The server -/

section Thread

variable {view : List Call → KV} {ready : List Call → Prop} {shut live : Prop} {inc a : List Byte}
  {cs : List Call} {α : Type} {code : CInt} {str : List Byte}
  {T : Int → Port Byte (List Call) → Prop}

theorem thread_recvCode {x : CInt} {Q : CInt → Port Byte (List Call) → Prop}
    (h : Q x ⟨inc, a, cs⟩) : espec (portEnv shut (netAct view) ready .server) live (fun _ => True)
      (recvCode code) Q T ⟨x.bytes ++ inc, a, cs⟩ := by
  refine espec_bind (port_recv x.length_bytes nofun nofun ?_)
  rw [← CInt.overwrite_bytes code x] at h
  exact espec_pure h

theorem thread_recvString {Q : Buf → Port Byte (List Call) → Prop} (hlen : str.length < 2 ^ 31 - 1)
    (hne : str ++ inc ≠ [])
    (h : ∀ p : Buf, p.read (CInt.sizeT (BitVec.ofNat 32 str.length)) = str → Q p ⟨inc, a, cs⟩) :
    espec (portEnv shut (netAct view) ready .server) live (fun _ => True)
      (recvString (BitVec.ofNat 32 str.length)) Q T ⟨str ++ inc, a, cs⟩ := by
  have hsize : str.length = CInt.sizeT (BitVec.ofNat 32 str.length) :=
    (sizeT_length (by omega)).symm
  refine espec_bind (port_malloc (allocates_length hlen) fun p => ?_)
  exact espec_bind (port_recv hsize hne nofun
    (espec_pure (h _ (Buf.read_received_whole p _ hsize))))

theorem thread_receive {Q : α → Port Byte (List Call) → Prop} {g : CInt → Buf → ExceptT Int Net α}
    (hlen : str.length < 2 ^ 31 - 1) (hne : str ++ inc ≠ [])
    (h : ∀ p : Buf, p.read (CInt.sizeT (BitVec.ofNat 32 str.length)) = str →
      espec (portEnv shut (netAct view) ready .server) live (fun _ => True)
        (g (BitVec.ofNat 32 str.length) p) Q T ⟨inc, a, cs⟩) :
    espec (portEnv shut (netAct view) ready .server) live (fun _ => True) (do
      let code ← recvCode code
      let p ← recvString code
      g code p) Q T ⟨encodeString str ++ inc, a, cs⟩ := by
  rw [encodeString, List.append_assoc]
  exact espec_bind (thread_recvCode (espec_bind (thread_recvString hlen hne h)))

theorem thread_sendBytes {data : List Byte} {Q : Unit → Port Byte (List Call) → Prop}
    (hr : ready cs) (h : Q () ⟨[], a, cs⟩) :
    espec (portEnv shut (netAct view) ready .server) live (fun _ => True)
      (sendBytes data) Q T ⟨[], data ++ a, cs⟩ :=
  espec_bind (port_send (fun _ => ⟨rfl, hr⟩) (espec_pure h))

theorem thread_sendLast {data : List Byte} {Q : Unit → Port Byte (List Call) → Prop}
    (hr : ready cs) (h : Q () ⟨[], [], cs⟩) :
    espec (portEnv shut (netAct view) ready .server) live (fun _ => True)
      (sendBytes data) Q T ⟨[], data, cs⟩ := by
  have e : (⟨[], data, cs⟩ : Port Byte (List Call)) = ⟨[], data ++ [], cs⟩ := by
    rw [List.append_nil]
  rw [e]
  exact thread_sendBytes hr h

/-- A critical section. -/
theorem thread_critical {e : NetEff α} {Q : α → Port Byte (List Call) → Prop} {c : Call}
    (ha : netAct view α e = .own fun calls b calls' =>
      StoreAnswer (view calls) e b ∧ calls' = calls ++ [c])
    (hex : ∃ b, StoreAnswer (view cs) e b)
    (h : ∀ b, StoreAnswer (view cs) e b → Q b ⟨inc, a, cs ++ [c]⟩) :
    espec (portEnv shut (netAct view) ready .server) live (fun _ => True) (critical e) Q T
      ⟨inc, a, cs⟩ := by
  obtain ⟨b₀, h₀⟩ := hex
  refine espec_lift (spec_bind (spec_eff trivial
    (fun _ => ⟨(), _, (portEnv_own rfl).mpr ⟨cs, rfl, rfl⟩⟩) fun _ q hq => ?_))
  obtain ⟨_, rfl, rfl⟩ := (portEnv_own rfl).mp hq
  refine spec_bind (spec_eff trivial
    (fun _ => ⟨b₀, _, (portEnv_own ha).mpr ⟨_, ⟨h₀, rfl⟩, rfl⟩⟩) fun b q hq => ?_)
  obtain ⟨_, ⟨hb, rfl⟩, rfl⟩ := (portEnv_own ha).mp hq
  refine spec_bind (spec_eff trivial
    (fun _ => ⟨(), _, (portEnv_own rfl).mpr ⟨_, rfl, rfl⟩⟩) fun _ q hq => ?_)
  obtain ⟨_, rfl, rfl⟩ := (portEnv_own rfl).mp hq
  exact spec_pure (h b hb)

theorem read_write (p : Buf) (l : List Byte) : Buf.read (p.write l) l.length = l := by
  refine List.ext_getElem (by simp [Buf.read]) fun i _ hi => ?_
  simp only [Buf.read, getElem_tabulate]
  rw [Buf.write, if_pos (by omega), Int.toNat_natCast]
  exact List.getD_eq_getElem _ _ hi

theorem toInt_gt_iff {n : ℕ} (h : n < 2 ^ 31) :
    (BitVec.ofNat 32 n).toInt > maxStrLen ↔ n > maxStrLen := by
  rw [toInt_length h]
  exact Nat.cast_lt

theorem thread_getReply {key : List Byte} {p : Buf} (hr : ready (cs ++ (Call.get key).made))
    (hlen : key.length < 2 ^ 31)
    (hp : p.read (CInt.sizeT (BitVec.ofNat 32 key.length)) = key) :
    espec (portEnv shut (netAct view) ready .server) live (fun _ => True)
      (getReply (BitVec.ofNat 32 key.length) p) (fun _ q => q = ⟨[], [], cs ++ (Call.get key).made⟩)
      T ⟨[], (Call.get key).reply (view cs), cs⟩ := by
  rw [Call.made] at hr
  rw [Call.reply, Call.made]
  refine espec_ite (fun hlong => ?_) fun hshort => ?_
  · rw [toInt_gt_iff hlen] at hlong
    rw [if_pos hlong, List.append_nil] at hr
    rw [if_pos hlong, if_pos hlong, List.append_nil]
    exact espec_bind (thread_sendLast hr (espec_pure rfl))
  · rw [toInt_gt_iff hlen] at hshort
    rw [if_neg hshort] at hr
    rw [if_neg hshort, if_neg hshort]
    refine espec_bind (port_malloc (by decide) fun value => ?_)
    refine espec_bind (thread_critical (c := .get key) (by rw [hp]; rfl) ⟨_, rfl⟩ ?_)
    rintro _ rfl
    rw [hp, getAnswer]
    cases view cs key with
    | none =>
      refine espec_ite (fun _ => ?_) fun h => absurd rfl h
      exact espec_bind (thread_sendLast hr (espec_pure rfl))
    | some v =>
      refine espec_ite (fun h => ?_) fun _ => ?_
      · exact absurd (show min (v.length : Int) maxStrLen = -1 from h) (by omega)
      have hcode : BitVec.ofInt 32 (min (v.length : Int) (maxStrLen : ℕ)) =
          BitVec.ofNat 32 (v.take maxStrLen).length := by
        rw [List.length_take, min_comm, ← Nat.cast_min]
        exact BitVec.ofInt_natCast ..
      have hread : Buf.read (value.write (v.take maxStrLen))
          (CInt.sizeT (BitVec.ofNat 32 (v.take maxStrLen).length)) = v.take maxStrLen := by
        rw [sizeT_length (by rw [List.length_take, maxStrLen]; omega), read_write]
      dsimp only
      rw [hcode, hread]
      refine espec_bind (thread_sendBytes hr (espec_bind (thread_sendBytes hr (espec_bind ?_))))
      exact thread_sendLast hr (espec_pure rfl)

theorem thread_setReply {key value : List Byte} {p p' : Buf}
    (hr : ready (cs ++ (Call.set key value).made)) (hlen : key.length < 2 ^ 31)
    (hlen' : value.length < 2 ^ 31) (hp : p.read (CInt.sizeT (BitVec.ofNat 32 key.length)) = key)
    (hp' : p'.read (CInt.sizeT (BitVec.ofNat 32 value.length)) = value) :
    espec (portEnv shut (netAct view) ready .server) live (fun _ => True)
      (setReply (BitVec.ofNat 32 key.length) p (BitVec.ofNat 32 value.length) p')
      (fun _ q => q = ⟨[], [], cs ++ (Call.set key value).made⟩) T
      ⟨[], (Call.set key value).reply (view cs), cs⟩ := by
  rw [Call.made] at hr
  rw [Call.reply, Call.made]
  refine espec_ite (fun hlong => ?_) fun hshort => espec_ite (fun hlong => ?_) fun hshort' => ?_
  · rw [toInt_gt_iff hlen] at hlong
    rw [if_pos hlong, List.append_nil] at hr
    rw [if_pos hlong, if_pos hlong, List.append_nil]
    exact espec_bind (thread_sendLast hr (espec_pure rfl))
  · rw [toInt_gt_iff hlen] at hshort
    rw [toInt_gt_iff hlen'] at hlong
    rw [if_neg hshort, if_pos hlong, List.append_nil] at hr
    rw [if_neg hshort, if_neg hshort, if_pos hlong, if_pos hlong, List.append_nil]
    exact espec_bind (thread_sendLast hr (espec_pure rfl))
  · rw [toInt_gt_iff hlen] at hshort
    rw [toInt_gt_iff hlen'] at hshort'
    rw [if_neg hshort, if_neg hshort'] at hr
    rw [if_neg hshort, if_neg hshort, if_neg hshort', if_neg hshort', hp, hp']
    refine espec_bind (thread_critical rfl ⟨(), trivial⟩ fun _ _ => ?_)
    exact espec_bind (thread_sendLast hr (espec_pure rfl))

theorem thread_delReply {key : List Byte} {p : Buf} (hr : ready (cs ++ (Call.del key).made))
    (hlen : key.length < 2 ^ 31)
    (hp : p.read (CInt.sizeT (BitVec.ofNat 32 key.length)) = key) :
    espec (portEnv shut (netAct view) ready .server) live (fun _ => True)
      (delReply (BitVec.ofNat 32 key.length) p) (fun _ q => q = ⟨[], [], cs ++ (Call.del key).made⟩)
      T ⟨[], (Call.del key).reply (view cs), cs⟩ := by
  rw [Call.made] at hr
  rw [Call.reply, Call.made]
  refine espec_ite (fun hlong => ?_) fun hshort => ?_
  · rw [toInt_gt_iff hlen] at hlong
    rw [if_pos hlong, List.append_nil] at hr
    rw [if_pos hlong, if_pos hlong, List.append_nil]
    exact espec_bind (thread_sendLast hr (espec_pure rfl))
  · rw [toInt_gt_iff hlen] at hshort
    rw [if_neg hshort] at hr
    rw [if_neg hshort, if_neg hshort, hp]
    refine espec_bind (thread_critical rfl ⟨(), trivial⟩ fun _ _ => ?_)
    exact espec_bind (thread_sendLast hr (espec_pure rfl))

variable (view live code cs) in
/-- **One round** of `InstanceThread` serves a request. -/
theorem thread_round (c : Call) (hr : ready (cs ++ c.made))
    (hs : ∀ str ∈ c.strings, str.length < 2 ^ 31 - 1) (hl : c.strings.getLast? ≠ some []) :
    (instanceThreadRound code).spec (portEnv shut (netAct view) ready .server) live (fun _ => True)
      (fun r q => (∃ code', r = .inr code') ∧ q = ⟨[], [], cs ++ c.made⟩)
      ⟨c.encode, c.reply (view cs), cs⟩ := by
  have hround : espec (portEnv shut (netAct view) ready .server) live (fun _ => True) (round code)
      (fun r q => (∃ code', r = some code') ∧ q = ⟨[], [], cs ++ c.made⟩) (fun _ _ => False)
      ⟨c.encode, c.reply (view cs), cs⟩ := by
    cases c with
    | get key =>
      have hk := hs key List.mem_cons_self
      refine espec_bind (thread_recvCode ?_)
      refine espec_ite (fun _ => espec_bind ?_) fun h => absurd rfl h
      have hne : key ≠ [] := fun h => hl (congrArg some h)
      rw [← List.append_nil (encodeString key)]
      refine thread_receive hk (by simpa using hne) fun p hp => ?_
      exact (thread_getReply hr (by omega) hp).mono (fun code' q h => espec_pure ⟨⟨code', rfl⟩, h⟩)
        fun _ _ h => h
    | set key value =>
      have hk := hs key List.mem_cons_self
      have hv := hs value (List.mem_cons_of_mem _ List.mem_cons_self)
      refine espec_bind (thread_recvCode ?_)
      refine espec_ite (fun h => absurd h (by decide)) fun _ => ?_
      refine espec_ite (fun _ => espec_bind ?_) fun h => absurd rfl h
      have hne : value ≠ [] := fun h => hl (congrArg some h)
      refine thread_receive hk (by simp [encodeString, CInt.bytes]) fun p hp => ?_
      rw [← List.append_nil (encodeString value)]
      refine thread_receive hv (by simpa using hne) fun p' hp' => ?_
      exact (thread_setReply hr (by omega) (by omega) hp hp').mono
        (fun code' q h => espec_pure ⟨⟨code', rfl⟩, h⟩) fun _ _ h => h
    | del key =>
      have hk := hs key List.mem_cons_self
      refine espec_bind (thread_recvCode ?_)
      refine espec_ite (fun h => absurd h (by decide)) fun _ => ?_
      refine espec_ite (fun h => absurd h (by decide)) fun _ => ?_
      refine espec_ite (fun _ => espec_bind ?_) fun h => absurd rfl h
      have hne : key ≠ [] := fun h => hl (congrArg some h)
      rw [← List.append_nil (encodeString key)]
      refine thread_receive hk (by simpa using hne) fun p hp => ?_
      exact (thread_delReply hr (by omega) hp).mono (fun code' q h => espec_pure ⟨⟨code', rfl⟩, h⟩)
        fun _ _ h => h
  refine spec_bind (Prog.spec.mono hround ?_)
  rintro (e | r) q h
  · exact h.elim
  · obtain ⟨⟨code', rfl⟩, rfl⟩ := h
    exact spec_pure ⟨⟨code', rfl⟩, rfl⟩

end Thread

/-! ## A call -/

/-- How a call ends. -/
abbrev Outcome := Except Client.Error (Option (List Byte))

/-- What the two sides return. -/
abbrev Outcomes : Side → Type
  | .client => Outcome
  | .server => Int

/-- A client and a server thread. -/
def sides (client : Net Outcome) (thread : Net Int) : Threads NetEff NetProc Outcomes
  | .client => client
  | .server => thread

section Sides

variable {envs : Side → Env NetEff (Link Byte (List Call))} {client client' : Net Outcome}
  {thread thread' : Net Int} {l l' : Link Byte (List Call)}

theorem sides_client :
    Function.update (sides client thread) .client client' = sides client' thread := by
  funext i
  cases i <;> rfl

theorem sides_server :
    Function.update (sides client thread) .server thread' = sides client thread' := by
  funext i
  cases i <;> rfl

theorem parStep_client (h : Step (envs .client) procs (client, l) (client', l')) :
    ParStep envs procs (sides client thread, l) (sides client' thread, l') := by
  have hs : ParStep envs procs (sides client thread, l)
      (Function.update (sides client thread) .client client', l') := .step Side.client h
  rwa [sides_client] at hs

theorem parStep_server (h : Step (envs .server) procs (thread, l) (thread', l')) :
    ParStep envs procs (sides client thread, l) (sides client thread', l') := by
  have hs : ParStep envs procs (sides client thread, l)
      (Function.update (sides client thread) .server thread', l') := .step Side.server h
  rwa [sides_server] at hs

end Sides

/-- The server is about to read an opcode. -/
def AtOpcode (cs : List Call) (x : Net Int × Port Byte (List Call)) : Prop :=
  (∃ code, x.1 = instanceThreadLoop code) ∧ x.2 = ⟨[], [], cs⟩

/-- Where a call comes to that the server answers from the map `m`. -/
def Ended (m : KV) (cs : List Call) (c : Call) :
    (i : Side) → Prog NetEff NetProc (Outcomes i) × Port Byte (List Call) → Prop
  | .client => fun x => x.1 = .pure (c.answer m) ∧ x.2.incoming = [] ∧ x.2.unsent = []
  | .server => AtOpcode (cs ++ c.made)

/-- The ports at the start of a call. -/
def callPorts (m : KV) (c : Call) (own : Side → List Call) : Side → Port Byte (List Call)
  | .client => ⟨c.reply m, c.encode, own .client⟩
  | .server => ⟨c.encode, c.reply m, own .server⟩

section Calls

variable {m : KV} {view : List Call → KV} {ready ready' : List Call → Prop} {thread : Net Int}
  {l : Link Byte (List Call)} {c : Call} {cs s : List Call}

theorem ended_finished (i : Side) (x : Prog NetEff NetProc (Outcomes i) × Port Byte (List Call))
    (hx : Ended m cs c i x) : Finished False (netAct view) x := by
  obtain ⟨p, q⟩ := x
  cases i with
  | client =>
    obtain ⟨rfl, hin, hun⟩ := hx
    exact ⟨hin, hun, trivial⟩
  | server =>
    obtain ⟨⟨code, rfl⟩, rfl⟩ := hx
    exact ⟨rfl, rfl, not_false, 4, false, _, rfl⟩

theorem eventually_served (hr : ready (cs ++ c.made))
    (hs : ∀ str ∈ c.strings, str.length < 2 ^ 31 - 1) (hl : c.strings.getLast? ≠ some [])
    (hv : Eventually (Step (portEnv False (netAct view) ready' .server) procs) (AtOpcode cs)
      (thread, ⟨[], [], s⟩)) :
    Eventually (Step (portEnv False (netAct view) ready .server) procs) (AtOpcode (cs ++ c.made))
      (thread, ⟨c.encode, c.reply (view cs), s⟩) := by
  refine hv.later.trans ?_
  rintro ⟨p, q⟩ ⟨_, ⟨⟨code, rfl⟩, rfl⟩, rfl⟩
  refine (thread_round view True cs code c hr hs hl).eventually_bind ?_
  rintro _ _ ⟨⟨code', rfl⟩, rfl⟩
  refine eventually_call (.now ⟨⟨code', ?_⟩, rfl⟩)
  rw [Prog.bind_pure]
  rfl

theorem eventually_driven (hs : ∀ str ∈ c.strings, str.length < 2 ^ 31 - 1) (hc : c.Completes m) :
    Eventually (Step (portEnv False (netAct view) ready .client) procs) (Ended m cs c .client)
      (c.drive.run, ⟨c.reply m, c.encode, s⟩) := by
  rw [← Prog.bind_pure c.drive.run]
  refine Prog.spec.eventually_bind
    (driver_call s m c (fun str hstr => (hs str hstr).trans (by decide)) hc) ?_
  rintro (e | r) q ⟨ha, rfl⟩
  · exact .now ⟨congrArg _ ha.symm, rfl, rfl⟩
  · exact .now ⟨congrArg _ ha.symm, rfl, rfl⟩

/-- **A call** on a connection with nothing on the way. -/
theorem call_duet (hp : ∀ i, l.pipe i = []) (hopen : ∀ i, l.closed i = false)
    (hr : ready (cs ++ c.made)) (hs : ∀ str ∈ c.strings, str.length < 2 ^ 31 - 1)
    (hc : c.Completes (view cs))
    (hv : Eventually (Step (portEnv False (netAct view) ready' .server) procs) (AtOpcode cs)
      (thread, ⟨[], [], l.own .server⟩)) :
    Duet False (netAct view) ready procs (Ended (view cs) cs c) (c.reply (view cs))
      (sides c.drive.run thread) l (callPorts (view cs) c l.own) := by
  refine ⟨.of_opened (fun i => ?_) hopen fun i => ?_, fun i => ?_, Or.inl rfl⟩
  · rw [hp]
    cases i <;> rfl
  · cases i <;> rfl
  · cases i with
    | client => exact eventually_driven hs hc
    | server => exact eventually_served hr hs hc.request hv

theorem Call.reply_ne_nil (c : Call) (m : KV) : c.reply m ≠ [] := by
  cases c with
  | get key =>
    rw [Call.reply]
    split_ifs
    · nofun
    · cases m key <;> nofun
  | set key value => nofun
  | del key => nofun

end Calls

end MyJQL.Server
