import MyJQL.Server.Wire

/-!
# The requests of a stream

* `Request`, `Cut`: a request received whole, and where a stream ends inside one; `parse`,
  `requests`: the first request of a stream, and all of them;
* `Request.call`, `Request.code`: what a request calls, and the variable `code` after it;
* `Call.encode`: a request as the driver sends it; `requests_encode`;
* **`spec_round`**: on a connection that delivers whole fields, one round of `InstanceThread` serves
  the first request.
-/

set_option linter.unusedSimpArgs false

namespace MyJQL.Server

/-! ## Requests -/

/-- A request: its length fields and its strings. -/
inductive Request
  | get (keyLen : CInt) (key : List Byte)
  | set (keyLen : CInt) (key : List Byte) (valueLen : CInt) (value : List Byte)
  | del (keyLen : CInt) (key : List Byte)
  | other (op : CInt)
  deriving DecidableEq, Repr

/-- Where a stream ends: inside a field of a request, of which some bytes have come; at the request
to exit; or at a length for which there is no memory. -/
inductive Cut
  | opcode (bytes : List Byte)
  | keyLen (op : CInt) (bytes : List Byte)
  | key (op keyLen : CInt) (bytes : List Byte)
  | valueLen (keyLen : CInt) (bytes : List Byte)
  | value (keyLen valueLen : CInt) (bytes : List Byte)
  | exit
  | refused
  deriving DecidableEq, Repr

namespace Request

/-- The length fields. -/
def lengths : Request → List CInt
  | .get keyLen _ => [keyLen]
  | .set keyLen _ valueLen _ => [keyLen, valueLen]
  | .del keyLen _ => [keyLen]
  | .other _ => []

/-- The call of the store. -/
def call : Request → Option Call
  | .get keyLen key => if keyLen.toInt > maxStrLen then none else some (.get key)
  | .set keyLen key valueLen value =>
    if keyLen.toInt > maxStrLen then none
    else if valueLen.toInt > maxStrLen then none
    else some (.set key value)
  | .del keyLen key => if keyLen.toInt > maxStrLen then none else some (.del key)
  | .other _ => none

end Request

/-- `code` after the reply to `get`. -/
def getCode (m : KV) (key : List Byte) : CInt :=
  match m key with
  | none => 0
  | some v => BitVec.ofNat 32 (min v.length maxStrLen)

/-- `code` after the request has been served. -/
def Request.code (m : KV) : Request → CInt
  | .get keyLen key => if keyLen.toInt > maxStrLen then 2 else getCode m key
  | .set keyLen _ valueLen _ =>
    if keyLen.toInt > maxStrLen then 2 else if valueLen.toInt > maxStrLen then 3 else 1
  | .del keyLen _ => if keyLen.toInt > maxStrLen then 2 else 1
  | .other op => op

/-! ## Streams -/

/-- A whole string at the front of a stream: its length, its bytes and what follows. -/
def parseString (s : List Byte) (cutLen : List Byte → Cut) (cut : CInt → List Byte → Cut) :
    Except Cut (CInt × List Byte × List Byte) :=
  if s.length < 4 then .error (cutLen s)
  else
    let len := CInt.overwrite 0 (s.take 4)
    let s := s.drop 4
    if ¬ Allocates len then .error .refused
    else if s.length < len.sizeT then .error (cut len s)
    else .ok (len, s.take len.sizeT, s.drop len.sizeT)

/-- The first request of a stream, and what follows it. -/
def parse (s : List Byte) : Except Cut (Request × List Byte) :=
  if s.length < 4 then .error (.opcode s)
  else
    let op := CInt.overwrite 0 (s.take 4)
    let s := s.drop 4
    if op = 0 then do
      let (keyLen, key, s) ← parseString s (.keyLen 0) (.key 0)
      return (.get keyLen key, s)
    else if op = 1 then do
      let (keyLen, key, s) ← parseString s (.keyLen 1) (.key 1)
      let (valueLen, value, s) ← parseString s (.valueLen keyLen) (.value keyLen)
      return (.set keyLen key valueLen value, s)
    else if op = 2 then do
      let (keyLen, key, s) ← parseString s (.keyLen 2) (.key 2)
      return (.del keyLen key, s)
    else if op = 3 then .error .exit
    else .ok (.other op, s)

section Parse

variable {s s' rest str : List Byte} {lc : List Byte → Cut} {c : CInt → List Byte → Cut} {len : CInt}
  {r : Request}

theorem parseString_ok (h : parseString s lc c = .ok (len, str, rest)) :
    4 ≤ s.length ∧ len = CInt.overwrite 0 (s.take 4) ∧ Allocates len ∧
      len.sizeT ≤ (s.drop 4).length ∧ str = (s.drop 4).take len.sizeT ∧
      rest = (s.drop 4).drop len.sizeT := by
  simp only [parseString] at h
  split_ifs at h with h1 h2 h3
  cases h
  exact ⟨not_lt.mp h1, rfl, h2, not_lt.mp h3, rfl, rfl⟩

theorem parseString_length (h : parseString s lc c = .ok (len, str, rest)) :
    rest.length ≤ s.length := by
  obtain ⟨-, -, -, -, -, rfl⟩ := parseString_ok h
  simp only [List.length_drop]
  omega

theorem parse_ok (h : parse s = .ok (r, rest)) : 4 ≤ s.length ∧
    ((∃ keyLen key, CInt.overwrite 0 (s.take 4) = 0 ∧ r = .get keyLen key ∧
        parseString (s.drop 4) (.keyLen 0) (.key 0) = .ok (keyLen, key, rest)) ∨
      (∃ keyLen key t valueLen value, CInt.overwrite 0 (s.take 4) = 1 ∧
        r = .set keyLen key valueLen value ∧
        parseString (s.drop 4) (.keyLen 1) (.key 1) = .ok (keyLen, key, t) ∧
        parseString t (.valueLen keyLen) (.value keyLen) = .ok (valueLen, value, rest)) ∨
      (∃ keyLen key, CInt.overwrite 0 (s.take 4) = 2 ∧ r = .del keyLen key ∧
        parseString (s.drop 4) (.keyLen 2) (.key 2) = .ok (keyLen, key, rest)) ∨
      ∃ op, CInt.overwrite 0 (s.take 4) = op ∧ op ≠ 0 ∧ op ≠ 1 ∧ op ≠ 2 ∧ op ≠ 3 ∧ r = .other op ∧
        rest = s.drop 4) := by
  simp only [parse] at h
  split_ifs at h with h1 h2 h3 h4 h5
  · refine ⟨not_lt.mp h1, Or.inl ?_⟩
    cases hp : parseString (s.drop 4) (.keyLen 0) (.key 0) with
    | error e => rw [hp] at h; cases h
    | ok t =>
      rw [hp] at h
      cases h
      exact ⟨_, _, h2, rfl, rfl⟩
  · refine ⟨not_lt.mp h1, Or.inr (Or.inl ?_)⟩
    cases hp : parseString (s.drop 4) (.keyLen 1) (.key 1) with
    | error e => rw [hp] at h; cases h
    | ok t =>
      rw [hp] at h
      change (parseString t.2.2 (.valueLen t.1) (.value t.1)).bind _ = _ at h
      cases hq : parseString t.2.2 (.valueLen t.1) (.value t.1) with
      | error e => rw [hq] at h; cases h
      | ok u =>
        rw [hq] at h
        cases h
        exact ⟨_, _, _, _, _, h3, rfl, rfl, hq⟩
  · refine ⟨not_lt.mp h1, Or.inr (Or.inr (Or.inl ?_))⟩
    cases hp : parseString (s.drop 4) (.keyLen 2) (.key 2) with
    | error e => rw [hp] at h; cases h
    | ok t =>
      rw [hp] at h
      cases h
      exact ⟨_, _, h4, rfl, rfl⟩
  · cases h
    exact ⟨not_lt.mp h1, Or.inr (Or.inr (Or.inr ⟨_, rfl, h2, h3, h4, h5, rfl, rfl⟩))⟩

theorem parseString_error {cut : Cut} (h : parseString s lc c = .error cut) :
    (s.length < 4 ∧ cut = lc s) ∨
      4 ≤ s.length ∧ ((¬ Allocates (CInt.overwrite 0 (s.take 4)) ∧ cut = .refused) ∨
        (Allocates (CInt.overwrite 0 (s.take 4)) ∧
          (s.drop 4).length < (CInt.overwrite 0 (s.take 4)).sizeT ∧
          cut = c (CInt.overwrite 0 (s.take 4)) (s.drop 4))) := by
  simp only [parseString] at h
  split_ifs at h with h1 h2 h3
  · cases h
    exact Or.inl ⟨h1, rfl⟩
  · cases h
    exact Or.inr ⟨not_lt.mp h1, Or.inr ⟨h2, h3, rfl⟩⟩
  · cases h
    exact Or.inr ⟨not_lt.mp h1, Or.inl ⟨h2, rfl⟩⟩

theorem parse_error {cut : Cut} (h : parse s = .error cut) :
    (s.length < 4 ∧ cut = .opcode s) ∨ 4 ≤ s.length ∧
      ((CInt.overwrite 0 (s.take 4) = 0 ∧
        parseString (s.drop 4) (.keyLen 0) (.key 0) = .error cut) ∨
      (CInt.overwrite 0 (s.take 4) = 1 ∧
        parseString (s.drop 4) (.keyLen 1) (.key 1) = .error cut) ∨
      (CInt.overwrite 0 (s.take 4) = 1 ∧ ∃ keyLen key t,
        parseString (s.drop 4) (.keyLen 1) (.key 1) = .ok (keyLen, key, t) ∧
        parseString t (.valueLen keyLen) (.value keyLen) = .error cut) ∨
      (CInt.overwrite 0 (s.take 4) = 2 ∧
        parseString (s.drop 4) (.keyLen 2) (.key 2) = .error cut) ∨
      CInt.overwrite 0 (s.take 4) = 3 ∧ cut = .exit) := by
  simp only [parse] at h
  split_ifs at h with h1 h2 h3 h4 h5
  · cases h
    exact Or.inl ⟨h1, rfl⟩
  · refine Or.inr ⟨not_lt.mp h1, Or.inl ⟨h2, ?_⟩⟩
    cases hp : parseString (s.drop 4) (.keyLen 0) (.key 0) with
    | error e =>
      rw [hp] at h
      cases h
      rfl
    | ok t => rw [hp] at h; cases h
  · refine Or.inr ⟨not_lt.mp h1, Or.inr ?_⟩
    cases hp : parseString (s.drop 4) (.keyLen 1) (.key 1) with
    | error e =>
      rw [hp] at h
      cases h
      exact Or.inl ⟨h3, rfl⟩
    | ok t =>
      rw [hp] at h
      change (parseString t.2.2 (.valueLen t.1) (.value t.1)).bind _ = _ at h
      cases hq : parseString t.2.2 (.valueLen t.1) (.value t.1) with
      | error e =>
        rw [hq] at h
        cases h
        exact Or.inr (Or.inl ⟨h3, _, _, _, rfl, hq⟩)
      | ok u => rw [hq] at h; cases h
  · refine Or.inr ⟨not_lt.mp h1, Or.inr (Or.inr (Or.inr (Or.inl ⟨h4, ?_⟩)))⟩
    cases hp : parseString (s.drop 4) (.keyLen 2) (.key 2) with
    | error e =>
      rw [hp] at h
      cases h
      rfl
    | ok t => rw [hp] at h; cases h
  · cases h
    exact Or.inr ⟨not_lt.mp h1, Or.inr (Or.inr (Or.inr (Or.inr ⟨h5, rfl⟩)))⟩

theorem parse_length (h : parse s = .ok (r, rest)) : rest.length < s.length := by
  obtain ⟨h4, ⟨_, _, -, -, hp⟩ | ⟨_, _, _, _, _, -, -, hp, hq⟩ | ⟨_, _, -, -, hp⟩ |
    ⟨_, -, -, -, -, -, -, rfl⟩⟩ := parse_ok h
  · have := parseString_length hp
    rw [List.length_drop] at this
    omega
  · have h1 := parseString_length hp
    have h2 := parseString_length hq
    rw [List.length_drop] at h1
    omega
  · have := parseString_length hp
    rw [List.length_drop] at this
    omega
  · rw [List.length_drop]
    omega

end Parse

/-- The requests of a stream, and where it ends. -/
def requests (s : List Byte) : List Request × Cut :=
  match h : parse s with
  | .error cut => ([], cut)
  | .ok (r, rest) =>
    have := parse_length h
    (r :: (requests rest).1, (requests rest).2)
termination_by s.length

theorem requests_error {s : List Byte} {cut : Cut} (h : parse s = .error cut) :
    requests s = ([], cut) := by
  rw [requests]
  split <;> simp_all

theorem requests_ok {s rest : List Byte} {r : Request} (h : parse s = .ok (r, rest)) :
    requests s = (r :: (requests rest).1, (requests rest).2) := by
  rw [requests]
  split <;> simp_all

/-- The calls for a stream. -/
abbrev callsOf (stream : List Byte) : List Call := (requests stream).1.filterMap Request.call

theorem append_callsOf {stream rest : List Byte} {r : Request} (hp : parse stream = .ok (r, rest))
    (done : List Call) : done ++ callsOf stream = done ++ r.call.toList ++ callsOf rest := by
  simp only [callsOf, requests_ok hp]
  cases hc : r.call <;> simp [List.filterMap_cons, hc]

/-! ## Open connections -/

/-- The last `recv` for a request is for no bytes. -/
def Request.Waits (r : Request) : Prop := r.lengths.getLast? = some 0

instance (r : Request) : Decidable r.Waits := by unfold Request.Waits; infer_instance

/-- The requests of a stream that are served while the connection is open: where the last `recv` is
for no bytes, it waits for a byte that follows. -/
def served (s : List Byte) : List Request :=
  match h : parse s with
  | .error _ => []
  | .ok (r, rest) =>
    have := parse_length h
    if r.Waits ∧ rest = [] then [] else r :: served rest
termination_by s.length

/-- The calls of these requests. -/
abbrev servedCalls (s : List Byte) : List Call := (served s).filterMap Request.call

section Served

variable {s rest : List Byte} {r : Request} {cut : Cut}

theorem served_error (h : parse s = .error cut) : served s = [] := by
  rw [served]
  split <;> simp_all

theorem served_waits (h : parse s = .ok (r, [])) (hw : r.Waits) : served s = [] := by
  rw [served]
  split <;> simp_all

theorem served_ok (h : parse s = .ok (r, rest)) (hw : ¬ (r.Waits ∧ rest = [])) :
    served s = r :: served rest := by
  rw [served]
  split <;> simp_all

theorem append_servedCalls (h : parse s = .ok (r, rest)) (hw : ¬ (r.Waits ∧ rest = []))
    (done : List Call) : done ++ servedCalls s = done ++ r.call.toList ++ servedCalls rest := by
  simp only [servedCalls, served_ok h hw]
  cases hc : r.call <;> simp [List.filterMap_cons, hc]

theorem served_initial (s : List Byte) : served s <+: (requests s).1 := by
  induction hn : s.length using Nat.strong_induction_on generalizing s with
  | _ n ih =>
    subst hn
    cases hp : parse s with
    | error cut =>
      rw [served_error hp]
      exact List.nil_prefix
    | ok x =>
      obtain ⟨r, rest⟩ := x
      rw [requests_ok hp]
      by_cases hw : r.Waits ∧ rest = []
      · obtain ⟨hw, rfl⟩ := hw
        rw [served_waits hp hw]
        exact List.nil_prefix
      · rw [served_ok hp hw]
        exact List.cons_prefix_cons.mpr ⟨rfl, ih _ (parse_length hp) rest rfl⟩

theorem servedCalls_initial (s : List Byte) : servedCalls s <+: callsOf s :=
  (served_initial s).filterMap _

end Served

/-! ## What the driver sends -/

/-- A string as the driver sends it. -/
def encodeString (s : List Byte) : List Byte := CInt.bytes (BitVec.ofNat 32 s.length) ++ s

/-- A request as the driver sends it. -/
def Call.encode : Call → List Byte
  | .get key => CInt.bytes 0 ++ encodeString key
  | .set key value => CInt.bytes 1 ++ (encodeString key ++ encodeString value)
  | .del key => CInt.bytes 2 ++ encodeString key

/-- The request for a call. -/
def Call.request : Call → Request
  | .get key => .get (BitVec.ofNat 32 key.length) key
  | .set key value => .set (BitVec.ofNat 32 key.length) key (BitVec.ofNat 32 value.length) value
  | .del key => .del (BitVec.ofNat 32 key.length) key

/-- The strings of a call. -/
def Call.strings : Call → List (List Byte)
  | .get key => [key]
  | .set key value => [key, value]
  | .del key => [key]

section Encode

variable {str rest : List Byte} {lc : List Byte → Cut} {c : CInt → List Byte → Cut}

theorem toInt_length {n : ℕ} (h : n < 2 ^ 31) : (BitVec.ofNat 32 n).toInt = n := by
  rw [BitVec.toInt_eq_toNat_bmod, BitVec.toNat_ofNat, Nat.mod_eq_of_lt (by omega), Int.bmod_def]
  split_ifs <;> omega

theorem sizeT_length {n : ℕ} (h : n < 2 ^ 31) : CInt.sizeT (BitVec.ofNat 32 n) = n := by
  have := CInt.sizeT_eq (BitVec.ofNat 32 n)
  rw [toInt_length h] at this
  split_ifs at this <;> omega

theorem take_bytes (x : CInt) (s : List Byte) : (x.bytes ++ s).take 4 = x.bytes :=
  List.take_left' rfl

theorem drop_bytes (x : CInt) (s : List Byte) : (x.bytes ++ s).drop 4 = s := List.drop_left' rfl

theorem parseString_encode (h : str.length < 2 ^ 31 - 1) :
    parseString (encodeString str ++ rest) lc c = .ok (BitVec.ofNat 32 str.length, str, rest) := by
  have hlen : str.length < 2 ^ 31 := by omega
  have hal : Allocates (BitVec.ofNat 32 str.length) := by
    rw [allocates_iff, toInt_length hlen]
    omega
  simp only [parseString, encodeString, List.append_assoc, take_bytes, drop_bytes,
    CInt.overwrite_bytes]
  rw [if_neg (by simp), if_neg (not_not.mpr hal), if_neg (by rw [sizeT_length hlen]; simp),
    sizeT_length hlen, List.take_left, List.drop_left]

/-- **Encoding and parsing a request.** -/
theorem parse_encode {call : Call} (h : ∀ str ∈ call.strings, str.length < 2 ^ 31 - 1) :
    parse (call.encode ++ rest) = .ok (call.request, rest) := by
  cases call with
  | get key =>
    simp only [parse, Call.encode, List.append_assoc, take_bytes, drop_bytes, CInt.overwrite_bytes]
    rw [if_neg (by simp), if_pos trivial, parseString_encode (h key (by simp [Call.strings]))]
    rfl
  | set key value =>
    simp only [parse, Call.encode, List.append_assoc, take_bytes, drop_bytes, CInt.overwrite_bytes]
    rw [if_neg (by simp), if_neg (by decide), if_pos trivial,
      parseString_encode (h key (by simp [Call.strings]))]
    change (parseString (encodeString value ++ rest) _ _).bind _ = _
    rw [parseString_encode (h value (by simp [Call.strings]))]
    rfl
  | del key =>
    simp only [parse, Call.encode, List.append_assoc, take_bytes, drop_bytes, CInt.overwrite_bytes]
    rw [if_neg (by simp), if_neg (by decide), if_neg (by decide), if_pos trivial,
      parseString_encode (h key (by simp [Call.strings]))]
    rfl

/-- **The requests of a conversation.** -/
theorem requests_encode {calls : List Call}
    (h : ∀ call ∈ calls, ∀ str ∈ call.strings, str.length < 2 ^ 31 - 1) :
    requests (calls.flatMap Call.encode ++ rest) =
      (calls.map Call.request ++ (requests rest).1, (requests rest).2) := by
  induction calls with
  | nil => rfl
  | cons call calls ih =>
    rw [List.flatMap_cons, List.append_assoc,
      requests_ok (parse_encode (h call List.mem_cons_self)),
      ih fun c hc => h c (List.mem_cons_of_mem _ hc)]
    rfl

theorem Call.request_call {call : Call} (h : ∀ str ∈ call.strings, str.length ≤ maxStrLen) :
    call.request.call = some call := by
  have key : ∀ str ∈ call.strings, ¬ (BitVec.ofNat 32 str.length).toInt > maxStrLen :=
    fun str hs => by
    have := h str hs
    simp only [maxStrLen] at this ⊢
    rw [toInt_length (by omega)]
    omega
  cases call with
  | get k => exact if_neg (key k (by simp [strings]))
  | set k v =>
    exact (if_neg (key k (by simp [strings]))).trans (if_neg (key v (by simp [strings])))
  | del k => exact if_neg (key k (by simp [strings]))

/-- **The calls of a conversation.** -/
theorem callsOf_encode {calls : List Call}
    (h : ∀ call ∈ calls, ∀ str ∈ call.strings, str.length ≤ maxStrLen) :
    callsOf (calls.flatMap Call.encode) = calls := by
  have hlen : ∀ call ∈ calls, ∀ str ∈ call.strings, str.length < 2 ^ 31 - 1 :=
    fun call hc str hs => by
    have := h call hc str hs
    simp only [maxStrLen] at this
    omega
  have hnil : requests [] = ([], .opcode []) := requests_error rfl
  have he : requests (calls.flatMap Call.encode ++ []) = _ := requests_encode hlen
  rw [List.append_nil, hnil, List.append_nil] at he
  rw [callsOf, he, List.filterMap_map]
  conv_rhs => rw [← List.filterMap_some (l := calls)]
  exact List.filterMap_congr fun call hc => Call.request_call (h call hc)

end Encode

/-! ## One round -/

/-- `recv` of `n` bytes returns all of them, once they have come; `recv` of none may wait for a byte
that follows. -/
structure Peer.Whole (peer : Peer) (n : ℕ) : Prop where
  all : ∀ avail k, n ≤ avail → peer.deliver n avail k → k = n
  comes : ∀ avail, n ≤ avail → 0 < avail → peer.deliver n avail n

/-- The last `recv` for a request, of which the whole has come, returns. -/
def Request.Completes (r : Request) (peer : Peer) (rest : List Byte) : Prop :=
  r.Waits → rest = [] → peer.deliver 0 0 0

section Round

variable {peer : Peer} {m : KV} {live : Prop} {P : List Call → Prop} {s : Wire} {code : CInt}
  {T : Int → Wire → Prop} {rest : List Byte}

theorem espec_recvCode_whole {Q : CInt → Wire → Prop} (hP : P s.calls) (h4 : peer.Whole 4)
    (hlen : 4 ≤ s.incoming.length)
    (h : Q (CInt.overwrite 0 (s.incoming.take 4)) ⟨s.incoming.drop 4, s.calls⟩) :
    espec (env peer m) live (fun s => P s.calls) (recvCode code) Q T s := by
  refine espec_recvCode hP (fun _ => ⟨4, h4.comes _ hlen (by omega)⟩) fun k hk => ?_
  obtain rfl := h4.all _ k hlen hk
  rwa [CInt.overwrite_eq code 0 (by simp [hlen])]

theorem espec_recvString_whole {α : Type} {Q : α → Wire → Prop} {len : CInt} {str : List Byte}
    {lc : List Byte → Cut} {c : CInt → List Byte → Cut} {g : CInt → Buf → ExceptT Int Net α}
    (hP : P s.calls) (hp : parseString s.incoming lc c = .ok (len, str, rest)) (h4 : peer.Whole 4)
    (hn : peer.Whole len.sizeT) (hl : live → len = 0 → rest = [] → peer.deliver 0 0 0)
    (h : (len = 0 → rest = [] → peer.deliver 0 0 0) → ∀ p : Buf, p.read len.sizeT = str →
      espec (env peer m) live (fun s => P s.calls) (g len p) Q T ⟨rest, s.calls⟩) :
    espec (env peer m) live (fun s => P s.calls) (do
      let code ← recvCode code
      let p ← recvString code
      g code p) Q T s := by
  obtain ⟨hlen, hint, hal, hfit, rfl, rfl⟩ := parseString_ok hp
  refine espec_bind (espec_recvCode_whole hP h4 hlen ?_)
  rw [← hint]
  refine espec_bind (espec_recvString hP hal (fun hlive => ⟨len.sizeT, ?_⟩) fun k p _ hk => ?_)
  · rcases Nat.eq_zero_or_pos (s.incoming.drop 4).length with h0 | h0
    · have hz : len.sizeT = 0 := by omega
      rw [hz, h0]
      refine hl hlive (CInt.eq_zero_of_sizeT hz) ?_
      rw [hz, List.drop_zero]
      exact List.eq_nil_of_length_eq_zero h0
    · exact hn.comes _ hfit h0
  · obtain rfl := hn.all _ k hfit hk
    refine h (fun h0 hr => ?_) _ (Buf.read_received_whole p len (by simpa using hfit))
    subst h0
    change (s.incoming.drop 4).drop 0 = [] at hr
    rw [List.drop_zero] at hr
    rwa [hr] at hk

/-- A call that is made inside the critical section. -/
theorem espec_critical_call {α : Type} {e : NetEff α} {call : Call} {Q : α → Wire → Prop}
    (hP : P s.calls) (hP' : P (s.calls ++ [call]))
    (he : ∀ a s', env peer m α e s a s' → s' = { s with calls := s.calls ++ [call] })
    (hl : ∃ a s', env peer m α e s a s')
    (h : ∀ a s', env peer m α e s a s' → Q a { s with calls := s.calls ++ [call] }) :
    espec (env peer m) live (fun s => P s.calls) (critical e) Q T s := by
  refine espec_critical hP hl fun a s' ha => ?_
  have hQ := h a s' ha
  obtain rfl := he a s' ha
  exact ⟨hP', hQ⟩

/-- The request has been served: `code`, the bytes left and the calls afterwards. -/
def Request.Done (r : Request) (m : KV) (s : Wire) (rest : List Byte) (code : CInt) (s' : Wire) :
    Prop :=
  code = r.code (storeAfter m s.calls) ∧ s' = ⟨rest, s.calls ++ r.call.toList⟩

theorem Request.done_none {r : Request} {code : CInt} (hc : code = r.code (storeAfter m s.calls))
    (h : r.call = none) : r.Done m s s.incoming code s := by
  refine ⟨hc, ?_⟩
  rw [h, Option.toList_none, List.append_nil]

theorem Request.done_some {r : Request} {call : Call} {code : CInt}
    (hc : code = r.code (storeAfter m s.calls)) (h : r.call = some call) :
    r.Done m s s.incoming code { s with calls := s.calls ++ [call] } := by
  refine ⟨hc, ?_⟩
  rw [h, Option.toList_some]

theorem espec_getReply {keyLen : CInt} {key : List Byte} {p : Buf} (hP : P s.calls)
    (hp : p.read keyLen.sizeT = key) (hP' : P (s.calls ++ (Request.get keyLen key).call.toList))
    (hT : peer.sendFails → ∀ s' : Wire, P s'.calls → T 1 s') :
    espec (env peer m) live (fun s => P s.calls) (getReply keyLen p)
      ((Request.get keyLen key).Done m s s.incoming) T s := by
  refine espec_ite (fun hlong => ?_) fun hshort => ?_
  · exact espec_bind (espec_sendCode hP (espec_pure (Request.done_none (if_pos hlong).symm
      (if_pos hlong))) fun hf => hT hf _ hP)
  · have hcall : (Request.get keyLen key).call = some (.get key) := if_neg hshort
    have hcode : (Request.get keyLen key).code (storeAfter m s.calls) =
        getCode (storeAfter m s.calls) key := if_neg hshort
    rw [hcall, Option.toList_some] at hP'
    refine espec_malloc hP (by decide) fun value => espec_bind (espec_critical_call hP hP' ?_ ?_ ?_)
    · rintro a s' ⟨-, rfl⟩
      rw [hp]
    · exact ⟨_, _, rfl, rfl⟩
    rintro a s' ⟨rfl, -⟩
    rw [hp, getAnswer]
    unfold getCode at hcode
    cases hv : storeAfter m s.calls key with
    | none =>
      rw [hv] at hcode
      refine espec_ite (fun _ => ?_) fun h => absurd rfl h
      exact espec_bind (espec_sendCode hP' (espec_pure (Request.done_some hcode.symm hcall))
        fun hf => hT hf _ hP')
    | some v =>
      rw [hv] at hcode
      refine espec_ite (fun h => ?_) fun _ => ?_
      · exact absurd (show min (v.length : Int) maxStrLen = -1 from h) (by omega)
      refine espec_bind (espec_sendCode hP' ?_ fun hf => hT hf _ hP')
      refine espec_bind (espec_sendCode hP' ?_ fun hf => hT hf _ hP')
      refine espec_bind (espec_sendBytes hP' ?_ fun hf => hT hf _ hP')
      refine espec_pure (Request.done_some ?_ hcall)
      rw [hcode]
      change BitVec.ofInt 32 (min (v.length : Int) (maxStrLen : ℕ)) = _
      rw [← Nat.cast_min]
      exact BitVec.ofInt_natCast ..

theorem espec_setReply {keyLen valueLen : CInt} {key value : List Byte} {p p' : Buf}
    (hP : P s.calls)
    (hp : p.read keyLen.sizeT = key) (hp' : p'.read valueLen.sizeT = value)
    (hP' : P (s.calls ++ (Request.set keyLen key valueLen value).call.toList))
    (hT : peer.sendFails → ∀ s' : Wire, P s'.calls → T 1 s') :
    espec (env peer m) live (fun s => P s.calls) (setReply keyLen p valueLen p')
      ((Request.set keyLen key valueLen value).Done m s s.incoming) T s := by
  refine espec_ite (fun hlong => ?_) fun hshort => espec_ite (fun hlong => ?_) fun hshort' => ?_
  · exact espec_bind (espec_sendCode hP (espec_pure (Request.done_none (if_pos hlong).symm
      (if_pos hlong))) fun hf => hT hf _ hP)
  · exact espec_bind (espec_sendCode hP (espec_pure (Request.done_none
      ((if_neg hshort).trans (if_pos hlong)).symm ((if_neg hshort).trans (if_pos hlong))))
      fun hf => hT hf _ hP)
  · have hcall : (Request.set keyLen key valueLen value).call = some (.set key value) :=
      (if_neg hshort).trans (if_neg hshort')
    rw [hcall, Option.toList_some] at hP'
    refine espec_bind (espec_critical_call hP hP' ?_ ⟨(), _, rfl⟩ fun _ _ _ => ?_)
    · rintro a s' rfl
      rw [hp, hp']
    · exact espec_bind (espec_sendCode hP' (espec_pure (Request.done_some
        ((if_neg hshort).trans (if_neg hshort')).symm hcall)) fun hf => hT hf _ hP')

theorem espec_delReply {keyLen : CInt} {key : List Byte} {p : Buf} (hP : P s.calls)
    (hp : p.read keyLen.sizeT = key) (hP' : P (s.calls ++ (Request.del keyLen key).call.toList))
    (hT : peer.sendFails → ∀ s' : Wire, P s'.calls → T 1 s') :
    espec (env peer m) live (fun s => P s.calls) (delReply keyLen p)
      ((Request.del keyLen key).Done m s s.incoming) T s := by
  refine espec_ite (fun hlong => ?_) fun hshort => ?_
  · exact espec_bind (espec_sendCode hP (espec_pure (Request.done_none (if_pos hlong).symm
      (if_pos hlong))) fun hf => hT hf _ hP)
  · have hcall : (Request.del keyLen key).call = some (.del key) := if_neg hshort
    rw [hcall, Option.toList_some] at hP'
    refine espec_bind (espec_critical_call hP hP' ?_ ⟨(), _, rfl⟩ fun _ _ _ => ?_)
    · rintro a s' rfl
      rw [hp]
    · exact espec_bind (espec_sendCode hP' (espec_pure (Request.done_some (if_neg hshort).symm
        hcall)) fun hf => hT hf _ hP')

/-- The sizes of the fields of a request. -/
def Request.sizes (r : Request) : List ℕ := 4 :: r.lengths.map CInt.sizeT

theorem spec_instanceThreadRound {I : Wire → Prop} {Q : Int ⊕ CInt → Wire → Prop}
    (h : espec (env peer m) live I (round code)
      (fun x s' => x.elim (I s' ∧ Q (.inl 0) s' ∧ Q (.inl 1) s') fun code' => Q (.inr code') s')
      (fun r s' => Q (.inl r) s') s) :
    (instanceThreadRound code).spec (env peer m) live I Q s := by
  refine spec_bind (Prog.spec.mono h ?_)
  rintro (r | _ | code') s' h'
  · exact spec_pure h'
  · refine spec_bind (spec_eff h'.1 (fun _ => ⟨true, s', rfl⟩) ?_)
    rintro b _ rfl
    refine spec_ite (fun _ => ?_) fun _ => ?_
    · refine spec_bind (spec_eff h'.1 (fun _ => ⟨(), _, rfl⟩) ?_)
      rintro _ _ rfl
      exact spec_pure h'.2.1
    · refine spec_bind (spec_eff h'.1 (fun _ => ⟨(), _, rfl⟩) ?_)
      rintro _ _ rfl
      exact spec_pure h'.2.2
  · exact spec_pure h'

variable (m code) in
/-- **One round** of `InstanceThread` serves the first request of the stream, if its fields are
delivered whole. -/
theorem spec_round {r : Request} (hP : P s.calls) (hr : parse s.incoming = .ok (r, rest))
    (hw : ∀ n ∈ r.sizes, peer.Whole n) (hl : live → r.Completes peer rest)
    (hP' : r.Completes peer rest → P (s.calls ++ r.call.toList)) :
    (instanceThreadRound code).spec (env peer m) live (fun s => P s.calls) (fun res s' =>
      (∃ code', res = .inr code' ∧ r.Completes peer rest ∧ r.Done m s rest code' s') ∨
        (peer.sendFails ∧ res = .inl 1 ∧ P s'.calls)) s := by
  obtain ⟨h4, hcases⟩ := parse_ok hr
  have hw4 : peer.Whole 4 := hw 4 List.mem_cons_self
  have hT : peer.sendFails → ∀ s' : Wire, P s'.calls → (∃ code', (.inl 1 : Int ⊕ CInt) = .inr code' ∧
      r.Completes peer rest ∧ r.Done m s rest code' s') ∨
      (peer.sendFails ∧ (.inl 1 : Int ⊕ CInt) = .inl 1 ∧ P s'.calls) :=
    fun hf s' h => Or.inr ⟨hf, rfl, h⟩
  refine spec_instanceThreadRound (espec_bind (espec_recvCode_whole hP hw4 h4 ?_))
  rcases hcases with ⟨keyLen, key, hop, rfl, hp⟩ | ⟨keyLen, key, t, valueLen, value, hop, rfl, hp, hq⟩ |
    ⟨keyLen, key, hop, rfl, hp⟩ | ⟨op, hop, h0, h1, h2, h3, rfl, rfl⟩
  · rw [hop]
    refine espec_ite (fun _ => espec_bind ?_) fun h => absurd rfl h
    refine espec_recvString_whole hP hp hw4 (hw _ (by simp [Request.sizes, Request.lengths]))
      (fun hlive h => hl hlive (congrArg some h)) fun hc p hpr => ?_
    have hc' : (Request.get keyLen key).Completes peer rest := fun h => hc (Option.some.inj h)
    exact (espec_getReply (s := ⟨rest, s.calls⟩) hP hpr (hP' hc') hT).mono
      (fun x s' h => espec_pure (Or.inl ⟨x, rfl, hc', h⟩)) fun _ _ h => h
  · rw [hop]
    refine espec_ite (fun h => absurd h (by decide)) fun _ => ?_
    refine espec_ite (fun _ => espec_bind ?_) fun h => absurd rfl h
    have ht : t ≠ [] := List.ne_nil_of_length_pos (by have := (parseString_ok hq).1; omega)
    refine espec_recvString_whole hP hp hw4 (hw _ (by simp [Request.sizes, Request.lengths]))
      (fun _ _ h => absurd h ht) fun _ p hpr => ?_
    refine espec_recvString_whole (s := ⟨t, s.calls⟩) hP hq hw4
      (hw _ (by simp [Request.sizes, Request.lengths]))
      (fun hlive h => hl hlive (congrArg some h)) fun hc p' hpr' => ?_
    have hc' : (Request.set keyLen key valueLen value).Completes peer rest :=
      fun h => hc (Option.some.inj h)
    exact (espec_setReply (s := ⟨rest, s.calls⟩) hP hpr hpr' (hP' hc') hT).mono
      (fun x s' h => espec_pure (Or.inl ⟨x, rfl, hc', h⟩)) fun _ _ h => h
  · rw [hop]
    refine espec_ite (fun h => absurd h (by decide)) fun _ => ?_
    refine espec_ite (fun h => absurd h (by decide)) fun _ => ?_
    refine espec_ite (fun _ => espec_bind ?_) fun h => absurd rfl h
    refine espec_recvString_whole hP hp hw4 (hw _ (by simp [Request.sizes, Request.lengths]))
      (fun hlive h => hl hlive (congrArg some h)) fun hc p hpr => ?_
    have hc' : (Request.del keyLen key).Completes peer rest := fun h => hc (Option.some.inj h)
    exact (espec_delReply (s := ⟨rest, s.calls⟩) hP hpr (hP' hc') hT).mono
      (fun x s' h => espec_pure (Or.inl ⟨x, rfl, hc', h⟩)) fun _ _ h => h
  · rw [hop]
    refine espec_ite (fun h => absurd h h0) fun _ => ?_
    refine espec_ite (fun h => absurd h h1) fun _ => ?_
    refine espec_ite (fun h => absurd h h2) fun _ => ?_
    refine espec_ite (fun h => absurd h h3) fun _ => ?_
    refine espec_pure (Or.inl ⟨op, rfl, (fun h => by cases h), rfl, ?_⟩)
    change (⟨_, s.calls⟩ : Wire) = ⟨_, s.calls ++ []⟩
    rw [List.append_nil]

end Round

end MyJQL.Server
