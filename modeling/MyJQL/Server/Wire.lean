import MyJQL.Model.Server

/-!
# A server thread and its peer

* `CInt.byte_ofBytes`, `CInt.sizeT_eq`, `Buf.read_received`: `int`s and strings in memory;
* `Call`, `KV`: calls of the store, and the store as a map;
* `Peer`, `Wire`, `env`: how a connection delivers bytes, what has been sent and not received, and
  the environment of a server thread on it;
* `espec_recvCode`, `espec_recvString`, …: one rule for each function of the thread.
-/

set_option linter.unusedSimpArgs false

namespace MyJQL

/-! ## Numbers and strings in memory -/

namespace CInt

theorem ofBytes_byte (x : CInt) : ofBytes x.byte = x := by
  apply BitVec.eq_of_getLsbD_eq
  intro i hi
  simp only [ofBytes, byte, BitVec.getLsbD_append, BitVec.getLsbD_extractLsb']
  split_ifs with h1 h2 h3
  · simp [h1]
  · have e : 8 * 1 + (i - 8) = i := by omega
    simp only [e, h2, decide_true, Bool.true_and]
  · have e : 8 * 2 + (i - 8 - 8) = i := by omega
    have e' : i - 8 - 8 < 8 := by omega
    simp only [e, e', decide_true, Bool.true_and]
  · have e : 8 * 3 + (i - 8 - 8 - 8) = i := by omega
    have e' : i - 8 - 8 - 8 < 8 := by omega
    simp only [e, e', decide_true, Bool.true_and]

theorem byte_ofBytes (b : ℕ → Byte) {i : ℕ} (hi : i < 4) : (ofBytes b).byte i = b i := by
  apply BitVec.eq_of_getLsbD_eq
  intro j hj
  have hi' : i = 0 ∨ i = 1 ∨ i = 2 ∨ i = 3 := by omega
  rcases hi' with rfl | rfl | rfl | rfl <;>
    simp only [ofBytes, byte, BitVec.getLsbD_append, BitVec.getLsbD_extractLsb'] <;>
    simp [hj] <;> grind

theorem sizeT_eq (x : CInt) :
    (x.sizeT : Int) = if x.toInt < 0 then x.toInt + 2 ^ 64 else x.toInt := by
  have h := x.isLt
  rw [sizeT, BitVec.toNat_signExtend, BitVec.toInt_eq_msb_cond]
  cases x.msb <;> simp <;> omega

theorem eq_zero_of_sizeT {x : CInt} (h : x.sizeT = 0) : x = 0 := by
  have hs := x.sizeT_eq
  have hle := x.le_toInt
  refine BitVec.eq_of_toInt_eq ?_
  change x.toInt = 0
  split_ifs at hs <;> omega

theorem ofBytes_congr {b b' : ℕ → Byte} (h : ∀ i < 4, b i = b' i) : ofBytes b = ofBytes b' := by
  rw [ofBytes, ofBytes, h 0 (by decide), h 1 (by decide), h 2 (by decide), h 3 (by decide)]

@[simp] theorem length_bytes (x : CInt) : x.bytes.length = 4 := rfl

theorem getD_bytes (x : CInt) (d : Byte) {i : ℕ} (hi : i < 4) : x.bytes.getD i d = x.byte i := by
  have hi' : i = 0 ∨ i = 1 ∨ i = 2 ∨ i = 3 := by omega
  rcases hi' with rfl | rfl | rfl | rfl <;> rfl

theorem overwrite_eq (x y : CInt) {l : List Byte} (h : 4 ≤ l.length) :
    x.overwrite l = y.overwrite l :=
  ofBytes_congr fun i hi => by
    rw [List.getD_eq_getElem _ _ (by omega), List.getD_eq_getElem _ _ (by omega)]

@[simp] theorem overwrite_bytes (x y : CInt) : x.overwrite y.bytes = y := by
  rw [overwrite, ← ofBytes_byte y]
  exact ofBytes_congr fun i hi => by rw [getD_bytes _ _ hi, ofBytes_byte]

@[simp] theorem overwrite_nil (x : CInt) : x.overwrite [] = x := ofBytes_byte x

end CInt

namespace Buf

theorem read_received (p : Buf) (code : CInt) {l : List Byte} (hl : l.length ≤ code.sizeT) :
    Buf.read (Function.update (p.write l) code.toInt 0) code.sizeT =
      l ++ (p.read code.sizeT).drop l.length := by
  refine List.ext_getElem (by simp [read]; omega) fun i h1 h2 => ?_
  have hi : i < code.sizeT := by simpa [read] using h1
  have hs := code.sizeT_eq
  have hne : (i : Int) ≠ code.toInt := by
    split_ifs at hs <;> omega
  simp only [read, getElem_tabulate, List.getElem_append, List.getElem_drop]
  rw [Function.update_of_ne hne, write, if_pos (by omega), Int.toNat_natCast]
  split_ifs with hil
  · exact List.getD_eq_getElem _ _ hil
  · rw [List.getD_eq_default _ _ (by omega), Nat.add_sub_cancel' (by omega)]

theorem read_received_whole (p : Buf) (code : CInt) {l : List Byte} (hl : l.length = code.sizeT) :
    Buf.read (Function.update (p.write l) code.toInt 0) code.sizeT = l := by
  rw [read_received p code hl.le, List.drop_of_length_le (by simp [read, hl]), List.append_nil]

end Buf

namespace Server

/-! ## The store -/

/-- The store, as a map from keys to values. -/
abbrev KV := List Byte → Option (List Byte)

/-- A call of the store. -/
inductive Call
  | get (key : List Byte)
  | set (key value : List Byte)
  | del (key : List Byte)
  deriving DecidableEq, Repr

/-- What a call makes of the store. -/
def Call.apply : Call → KV → KV
  | .get _, m => m
  | .set key value, m => Function.update m key (some value)
  | .del key, m => Function.update m key none

/-- The store after some calls. -/
def storeAfter (m : KV) (calls : List Call) : KV := calls.foldl (fun m c => c.apply m) m

theorem storeAfter_append (m : KV) (calls calls' : List Call) :
    storeAfter m (calls ++ calls') = storeAfter (storeAfter m calls) calls' :=
  List.foldl_append

/-- The answer of `myjql_get`: its result, and the buffer afterwards. -/
def getAnswer (m : KV) (key : List Byte) (value : Buf) (maxSize : ℕ) : Int × Buf :=
  match m key with
  | none => (-1, value)
  | some v => (min v.length maxSize, value.write (v.take maxSize))

/-! ## The environment -/

/-- A connection: of the next `avail` bytes, `recv` for `n` of them may return `k`; whether `send`
may fail; and what `malloc` may find in memory. -/
structure Peer where
  deliver : ℕ → ℕ → ℕ → Prop
  sendFails : Prop
  memory : Buf → Prop
  found : ∃ p, memory p

theorem exists_buf : ∃ _ : Buf, True := ⟨fun _ => 0, trivial⟩

/-- The bytes sent to a thread and not received, and its calls of the store so far. -/
structure Wire where
  incoming : List Byte
  calls : List Call

/-- The environment of a thread whose store was `m`. `malloc` fails only above `PTRDIFF_MAX`. -/
def env (peer : Peer) (m : KV) : Env NetEff Wire
  | _, .recv null n, s, b, s' =>
    ∃ k, peer.deliver n s.incoming.length k ∧
      if null ∧ k ≠ 0 then b = none ∧ s' = s
      else b = some (s.incoming.take k) ∧ s' = { s with incoming := s.incoming.drop k }
  | _, .send _, s, b, s' => s' = s ∧ (b = true ∨ peer.sendFails ∧ b = false)
  | _, .shutdown, s, _, s' => s' = s
  | _, .closesocket, s, _, s' => s' = s
  | _, .malloc n, s, b, s' => s' = s ∧ if n < 2 ^ 63 then ∃ p, peer.memory p ∧ b = some p else b = none
  | _, .enterCriticalSection, s, _, s' => s' = s
  | _, .leaveCriticalSection, s, _, s' => s' = s
  | _, .myjqlGet key value maxSize, s, b, s' =>
    b = getAnswer (storeAfter m s.calls) key value maxSize ∧
      s' = { s with calls := s.calls ++ [.get key] }
  | _, .myjqlSet key value, s, _, s' => s' = { s with calls := s.calls ++ [.set key value] }
  | _, .myjqlDel key, s, _, s' => s' = { s with calls := s.calls ++ [.del key] }
  | _, .myjqlClose, _, _, _ => False
  | _, .exit, _, _, _ => False
  | _, .undefined, _, _, _ => False

/-! ## Rules -/

section Rules

variable {peer : Peer} {m : KV} {live : Prop} {I : Wire → Prop} {s : Wire} {code : CInt}
  {T : Int → Wire → Prop}

theorem espec_closesocket {α : Type} {p : ExceptT Int Net α} {Q : α → Wire → Prop} (hI : I s)
    (h : espec (env peer m) live I p Q T s) :
    espec (env peer m) live I (do Net.closesocket; p) Q T s := by
  refine espec_bind (espec_lift (spec_eff hI (fun _ => ⟨(), s, rfl⟩) ?_))
  rintro _ _ rfl
  exact h

theorem espec_recvCode {Q : CInt → Wire → Prop} (hI : I s)
    (hl : live → ∃ k, peer.deliver 4 s.incoming.length k)
    (h : ∀ k, peer.deliver 4 s.incoming.length k →
      Q (code.overwrite (s.incoming.take k)) { s with incoming := s.incoming.drop k }) :
    espec (env peer m) live I (recvCode code) Q T s := by
  refine espec_bind (espec_lift (spec_eff hI (fun hlive => ?_) ?_))
  · obtain ⟨k, hk⟩ := hl hlive
    exact ⟨_, _, k, hk, rfl, rfl⟩
  · rintro _ _ ⟨k, hk, rfl, rfl⟩
    exact espec_pure (h k hk)

/-- Whether `malloc(code + 1)` succeeds. -/
def Allocates (code : CInt) : Prop := (code + 1).sizeT < 2 ^ 63

instance (code : CInt) : Decidable (Allocates code) := by unfold Allocates; infer_instance

theorem allocates_iff (code : CInt) :
    Allocates code ↔ -1 ≤ code.toInt ∧ code.toInt ≠ 2 ^ 31 - 1 := by
  have h := (code + 1).sizeT_eq
  have h1 : (code + 1).toInt = (code.toInt + 1).bmod (2 ^ 32) := BitVec.toInt_add code 1
  have h2 := code.toInt_lt
  have h3 := code.le_toInt
  rw [Allocates]
  rw [Int.bmod_def] at h1
  split_ifs at h h1 <;> omega

theorem espec_recvString {Q : Buf → Wire → Prop} (hI : I s) (hc : Allocates code)
    (hl : live → ∃ k, peer.deliver code.sizeT s.incoming.length k)
    (h : ∀ k p, peer.memory p → peer.deliver code.sizeT s.incoming.length k →
      Q (Function.update (Buf.write p (s.incoming.take k)) code.toInt 0)
        { s with incoming := s.incoming.drop k }) :
    espec (env peer m) live I (recvString code) Q T s := by
  obtain ⟨p₀, hp₀⟩ := peer.found
  refine espec_bind (espec_lift (spec_eff hI (fun _ => ⟨some p₀, s, rfl, ?_⟩) ?_))
  · exact (if_pos (show (code + 1).sizeT < 2 ^ 63 from hc)).mpr ⟨_, hp₀, rfl⟩
  rintro b _ ⟨rfl, hb⟩
  obtain ⟨p, hp, rfl⟩ := (if_pos (show (code + 1).sizeT < 2 ^ 63 from hc)).mp hb
  refine espec_bind (espec_lift (spec_eff hI (fun hlive => ?_) ?_))
  · obtain ⟨k, hk⟩ := hl hlive
    exact ⟨_, _, k, hk, (if_neg (by simp)).mpr ⟨rfl, rfl⟩⟩
  · rintro b s' ⟨k, hk, hb⟩
    rw [if_neg (by simp)] at hb
    obtain ⟨rfl, rfl⟩ := hb
    exact espec_pure (h k p hp hk)

/-- `recvString`, when there is no memory for it: the thread gives up. -/
theorem espec_recvString_null {Q : Buf → Wire → Prop} (hI : I s) (hc : ¬ Allocates code)
    (hlive : ¬ live) (h : T 1 s) : espec (env peer m) live I (recvString code) Q T s := by
  refine espec_bind (espec_lift (spec_eff hI (fun h => absurd h hlive) ?_))
  rintro b _ ⟨rfl, hb⟩
  obtain rfl := (if_neg (show ¬ (code + 1).sizeT < 2 ^ 63 from hc)).mp hb
  refine espec_bind (espec_lift (spec_eff hI (fun h => absurd h hlive) ?_))
  rintro b s' ⟨k, -, hb⟩
  by_cases hk0 : k = 0
  · rw [if_neg (by simp [hk0])] at hb
    obtain ⟨rfl, rfl⟩ := hb
    subst hk0
    exact ⟨hI, fun h => absurd h hlive, fun _ _ hb => hb.elim⟩
  · rw [if_pos ⟨rfl, hk0⟩] at hb
    obtain ⟨rfl, rfl⟩ := hb
    exact espec_closesocket hI (espec_throw h)

theorem espec_sendBytes {data : List Byte} {Q : Unit → Wire → Prop} (hI : I s) (h : Q () s)
    (hT : peer.sendFails → T 1 s) : espec (env peer m) live I (sendBytes data) Q T s := by
  refine espec_bind (espec_lift (spec_eff hI (fun _ => ⟨true, s, rfl, Or.inl rfl⟩) ?_))
  rintro b _ ⟨rfl, rfl | ⟨hf, rfl⟩⟩
  · exact espec_pure h
  · exact espec_closesocket hI (espec_throw (hT hf))

theorem espec_sendCode {Q : Unit → Wire → Prop} (hI : I s) (h : Q () s)
    (hT : peer.sendFails → T 1 s) : espec (env peer m) live I (sendCode code) Q T s :=
  espec_sendBytes hI h hT

theorem espec_malloc {n : ℕ} {α : Type} {f : Option Buf → ExceptT Int Net α} {Q : α → Wire → Prop}
    (hI : I s) (hn : n < 2 ^ 63) (h : ∀ p, espec (env peer m) live I (f (some p)) Q T s) :
    espec (env peer m) live I (Net.malloc n >>= f) Q T s := by
  obtain ⟨p₀, hp₀⟩ := peer.found
  refine espec_bind (espec_lift (spec_eff hI (fun _ => ⟨some p₀, s, rfl, ?_⟩) ?_))
  · rw [if_pos hn]
    exact ⟨_, hp₀, rfl⟩
  · rintro b _ ⟨rfl, hb⟩
    rw [if_pos hn] at hb
    obtain ⟨p, -, rfl⟩ := hb
    exact h p

theorem espec_critical {α : Type} {e : NetEff α} {Q : α → Wire → Prop} (hI : I s)
    (hl : ∃ a s', env peer m α e s a s')
    (h : ∀ a s', env peer m α e s a s' → I s' ∧ Q a s') :
    espec (env peer m) live I (critical e) Q T s := by
  refine espec_lift (spec_bind (spec_eff hI (fun _ => ⟨(), s, rfl⟩) ?_))
  rintro _ _ rfl
  refine spec_bind (spec_eff hI (fun _ => hl) fun a s' ha => ?_)
  refine spec_bind (spec_eff (h a s' ha).1 (fun _ => ⟨(), s', rfl⟩) ?_)
  rintro _ _ rfl
  exact spec_pure (h a _ ha).2

end Rules

end Server

end MyJQL
