import MyJQL.Server.Run

/-!
# A client that vanishes

* `closing`: a peer that has closed the connection: `recv` returns what is left of its stream, and
  then nothing;
* `Taken`: the request that a thread takes from such a stream, made up of what came and of what
  `code` and the memory held; **`spec_round_closing`**: one round of `InstanceThread`;
* `Harmless`: where a stream may end;
* **`vanished_iff`**: the thread performs no update but those of the whole requests, if and only if
  the stream ends at such a place.
-/

set_option linter.unusedSimpArgs false

namespace MyJQL.Server

/-! ## The connection -/

/-- A peer that has closed the connection behind what it has sent. -/
def closing (fails : Prop) (mem : Buf → Prop) (h : ∃ p, mem p) : Peer where
  deliver n avail k := k = min n avail
  sendFails := fails
  memory := mem
  found := h

/-- Where `malloc` may find anything in memory. -/
def closed (fails : Prop) : Peer := closing fails (fun _ => True) exists_buf

/-- Where `send` does not fail and `malloc` finds `p`. -/
def closedAt (p : Buf) : Peer := closing False (· = p) ⟨p, rfl⟩

theorem closedAt_le (p : Buf) (fails : Prop) (m : KV) :
    Env.Le (env (closedAt p) m) (env (closed fails) m) := by
  intro β e s b s' h
  cases e with
  | send data => exact ⟨h.1, Or.inl (h.2.resolve_right fun h => h.1)⟩
  | malloc n =>
    refine ⟨h.1, ?_⟩
    have h2 := h.2
    split_ifs at h2 ⊢ with hn
    · obtain ⟨q, -, hq⟩ := h2
      exact ⟨q, trivial, hq⟩
    · exact h2
  | _ => exact h

theorem closing_whole {fails : Prop} {mem : Buf → Prop} {h : ∃ p, mem p} (n : ℕ) :
    (closing fails mem h).Whole n where
  all _ _ hn hk := hk.trans (min_eq_left hn)
  comes _ hn _ := (min_eq_left hn).symm

theorem closing_completes {fails : Prop} {mem : Buf → Prop} {h : ∃ p, mem p} (r : Request)
    (rest : List Byte) : r.Completes (closing fails mem h) rest := fun _ _ => rfl

/-! ## What is taken from the stream -/

/-- A string of which only some bytes have come: the others were found in memory. -/
def Found (mem : Buf → Prop) (len : CInt) (bytes str : List Byte) : Prop :=
  ∃ p, mem p ∧ str = bytes ++ (p.read len.sizeT).drop bytes.length

/-- A string taken from a stream, where `code` was the `int` before. -/
structure TakenString (mem : Buf → Prop) (code : CInt) (s : List Byte) (len : CInt)
    (str rest : List Byte) : Prop where
  len_eq : len = code.overwrite (s.take 4)
  allocates : Allocates len
  found : Found mem len ((s.drop 4).take len.sizeT) str
  rest_eq : rest = (s.drop 4).drop len.sizeT

/-- A request taken from a stream, where `code` was the `int` before. -/
inductive Taken (mem : Buf → Prop) (code : CInt) (s : List Byte) : Request → List Byte → Prop
  | get {keyLen key rest} (hop : code.overwrite (s.take 4) = 0)
      (hkey : TakenString mem 0 (s.drop 4) keyLen key rest) :
      Taken mem code s (.get keyLen key) rest
  | set {keyLen key t valueLen value rest} (hop : code.overwrite (s.take 4) = 1)
      (hkey : TakenString mem 1 (s.drop 4) keyLen key t)
      (hvalue : TakenString mem keyLen t valueLen value rest) :
      Taken mem code s (.set keyLen key valueLen value) rest
  | del {keyLen key rest} (hop : code.overwrite (s.take 4) = 2)
      (hkey : TakenString mem 2 (s.drop 4) keyLen key rest) :
      Taken mem code s (.del keyLen key) rest
  | other {op} (hop : code.overwrite (s.take 4) = op) (h0 : op ≠ 0) (h1 : op ≠ 1) (h2 : op ≠ 2)
      (h3 : op ≠ 3) : Taken mem code s (.other op) (s.drop 4)

/-- The lengths that are read from a stream. -/
def lengthsRead (code : CInt) (s : List Byte) : List CInt :=
  let op := code.overwrite (s.take 4)
  let keyLen := op.overwrite ((s.drop 4).take 4)
  if op = 0 ∨ op = 2 then [keyLen]
  else if op = 1 then
    [keyLen, keyLen.overwrite ((((s.drop 4).drop 4).drop keyLen.sizeT).take 4)]
  else []

/-! ## One round -/

section Round

variable {fails : Prop} {mem : Buf → Prop} {hmem : ∃ p, mem p} {m : KV} {live : Prop}
  {P : List Call → Prop} {s : Wire} {code : CInt} {T : Int → Wire → Prop}

theorem take_min_length (l : List Byte) (n : ℕ) : l.take (min n l.length) = l.take n :=
  List.take_eq_take_min.symm

theorem drop_min_length (l : List Byte) (n : ℕ) : l.drop (min n l.length) = l.drop n := by
  rcases le_total n l.length with h | h
  · rw [min_eq_left h]
  · rw [min_eq_right h, List.drop_length, List.drop_of_length_le h]

theorem espec_string_closing {α : Type} {Q : α → Wire → Prop} {g : CInt → Buf → ExceptT Int Net α}
    (hP : P s.calls) (hl : live → Allocates (code.overwrite (s.incoming.take 4)))
    (hT : ¬ live → ∀ s' : Wire, P s'.calls → T 1 s')
    (h : ∀ len (p : Buf) rest, TakenString mem code s.incoming len (p.read len.sizeT) rest →
      espec (env (closing fails mem hmem) m) live (fun s => P s.calls) (g len p) Q T
        ⟨rest, s.calls⟩) :
    espec (env (closing fails mem hmem) m) live (fun s => P s.calls) (do
      let code ← recvCode code
      let p ← recvString code
      g code p) Q T s := by
  refine espec_bind (espec_recvCode hP (fun _ => ⟨_, rfl⟩) ?_)
  rintro _ rfl
  rw [take_min_length, drop_min_length]
  by_cases hc : Allocates (code.overwrite (s.incoming.take 4))
  · refine espec_bind (espec_recvString hP hc (fun _ => ⟨_, rfl⟩) ?_)
    rintro _ p hp rfl
    rw [take_min_length, drop_min_length]
    refine h _ _ _ ⟨rfl, hc, ⟨p, hp, ?_⟩, rfl⟩
    exact Buf.read_received p _ (List.length_take_le ..)
  · exact espec_bind (espec_recvString_null hP hc (fun h => hc (hl h)) (hT (fun h => hc (hl h)) _ hP))

variable (fails m live) in
/-- **One round** of `InstanceThread`, whatever is left of the stream. -/
theorem spec_round_closing (hP : P s.calls)
    (hP' : ∀ r rest, Taken mem code s.incoming r rest → P (s.calls ++ r.call.toList))
    (hl : live → ∀ len ∈ lengthsRead code s.incoming, Allocates len) :
    (instanceThreadRound code).spec (env (closing fails mem hmem) m) live (fun s => P s.calls)
      (fun res s' => (∃ r rest code', Taken mem code s.incoming r rest ∧ res = .inr code' ∧
        r.Done m s rest code' s') ∨ (∃ i, res = .inl i) ∧ P s'.calls ∧
        (live → fails ∨ code.overwrite (s.incoming.take 4) = 3)) s := by
  refine spec_instanceThreadRound (espec_bind (espec_recvCode hP (fun _ => ⟨_, rfl⟩) ?_))
  rintro _ rfl
  rw [take_min_length, drop_min_length]
  have hT : (live → fails) → ∀ s' : Wire, P s'.calls → (∃ r rest code',
      Taken mem code s.incoming r rest ∧ (.inl 1 : Int ⊕ CInt) = .inr code' ∧
      r.Done m s rest code' s') ∨ (∃ i, (.inl 1 : Int ⊕ CInt) = .inl i) ∧ P s'.calls ∧
      (live → fails ∨ code.overwrite (s.incoming.take 4) = 3) :=
    fun hf s' h => Or.inr ⟨⟨1, rfl⟩, h, fun hl => Or.inl (hf hl)⟩
  have hT' : ¬ live → _ := fun hl => hT fun h => absurd h hl
  have hT'' : fails → _ := fun hf => hT fun _ => hf
  have hl' : live → ∀ len ∈ lengthsRead code s.incoming, Allocates len := hl
  simp only [lengthsRead] at hl'
  refine espec_ite (fun h0 => espec_bind ?_) fun h0 => espec_ite (fun h1 => espec_bind ?_) fun h1 =>
    espec_ite (fun h2 => espec_bind ?_) fun h2 => espec_ite (fun h3 => ?_) fun h3 => ?_
  · rw [if_pos (Or.inl h0)] at hl'
    refine espec_string_closing hP (fun h => hl' h _ List.mem_cons_self) hT' fun len p rest ht => ?_
    have ht' : Taken mem code s.incoming (.get len (p.read len.sizeT)) rest := .get h0 (h0 ▸ ht)
    exact (espec_getReply (s := ⟨rest, s.calls⟩) hP rfl (hP' _ _ ht') hT'').mono
      (fun x s' h => espec_pure (Or.inl ⟨_, _, x, ht', rfl, h⟩)) fun _ _ h => h
  · rw [if_neg (by rw [h1]; decide), if_pos h1, h1] at hl'
    rw [h1] at hT' hT'' ⊢
    refine espec_string_closing hP (fun h => hl' h _ List.mem_cons_self) hT' fun len p t ht => ?_
    obtain rfl := ht.len_eq
    obtain rfl := ht.rest_eq
    refine espec_string_closing (s := ⟨_, s.calls⟩) hP
      (fun h => hl' h _ (List.mem_cons_of_mem _ List.mem_cons_self)) hT' fun len' p' rest ht₂ => ?_
    have ht' : Taken mem code s.incoming (.set _ (p.read _) len' (p'.read len'.sizeT)) rest :=
      .set h1 ht ht₂
    exact (espec_setReply (s := ⟨rest, s.calls⟩) hP rfl rfl (hP' _ _ ht') hT'').mono
      (fun x s' h => espec_pure (Or.inl ⟨_, _, x, ht', rfl, h⟩)) fun _ _ h => h
  · rw [if_pos (Or.inr h2)] at hl'
    refine espec_string_closing hP (fun h => hl' h _ List.mem_cons_self) hT' fun len p rest ht => ?_
    have ht' : Taken mem code s.incoming (.del len (p.read len.sizeT)) rest := .del h2 (h2 ▸ ht)
    exact (espec_delReply (s := ⟨rest, s.calls⟩) hP rfl (hP' _ _ ht') hT'').mono
      (fun x s' h => espec_pure (Or.inl ⟨_, _, x, ht', rfl, h⟩)) fun _ _ h => h
  · exact espec_bind (espec_sendCode hP (espec_pure ⟨hP, Or.inr ⟨⟨0, rfl⟩, hP, fun _ => Or.inr h3⟩,
      Or.inr ⟨⟨1, rfl⟩, hP, fun _ => Or.inr h3⟩⟩) fun hf => hT'' hf _ hP)
  · refine espec_pure (Or.inl ⟨_, _, _, .other rfl h0 h1 h2 h3, rfl, rfl, ?_⟩)
    change (⟨_, s.calls⟩ : Wire) = ⟨_, s.calls ++ []⟩
    rw [List.append_nil]

end Round

/-! ## Where a stream may end -/

/-- Whether a call changes the store. -/
def Call.isUpdate : Call → Bool
  | .get _ => false
  | .set _ _ => true
  | .del _ => true

/-- The updates among some calls. -/
def updates (calls : List Call) : List Call := calls.filter Call.isUpdate

/-- What `code` may hold at the end of the stream, where it is taken for an opcode, for the lengths
and for the opcode again. -/
def IdleHarmless (m : KV) (code : CInt) : Prop :=
  code ≠ 1 ∧ code ≠ 2 ∧ (code = 0 → getCode m [] ≠ 1 ∧ getCode m [] ≠ 2)

/-- Where a `get` may end of whose key some bytes have come. -/
def StrayGet (m : KV) (keyLen : CInt) (bytes : List Byte) : Prop :=
  keyLen.toInt ≤ maxStrLen ∧
    ∀ key : List Byte, key.length = keyLen.sizeT → bytes <+: key → IdleHarmless m (getCode m key)

/-- **Where a stream may end**, if `code` and the store are as after its last whole request. -/
def Harmless (m : KV) (code : CInt) : Cut → Prop
  | .opcode bytes => IdleHarmless m (code.overwrite bytes)
  | .keyLen op bytes => op = 0 ∧ StrayGet m (op.overwrite bytes) []
  | .key op keyLen bytes => op = 0 ∧ StrayGet m keyLen bytes
  | .valueLen keyLen bytes => ¬ Allocates (keyLen.overwrite bytes) ∨
      keyLen.toInt ≤ maxStrLen ∧ (keyLen.overwrite bytes).toInt > maxStrLen
  | .value keyLen valueLen _ => keyLen.toInt ≤ maxStrLen ∧ valueLen.toInt > maxStrLen
  | .exit => True
  | .refused => True

/-- A request that does not change the store, and after which `code` may be left. -/
def Request.Harmless (m : KV) (r : Request) : Prop :=
  (∀ call, r.call = some call → call.isUpdate = false) ∧ IdleHarmless m (r.code m)

section Harmless

variable {m : KV} {code keyLen valueLen : CInt} {key value s rest : List Byte} {cut : Cut}

theorem harmless_get : (Request.get keyLen key).Harmless m ↔
    keyLen.toInt ≤ maxStrLen ∧ IdleHarmless m (getCode m key) := by
  simp only [Request.Harmless, Request.call, Request.code]
  split_ifs with h
  · refine iff_of_false (fun h' => h'.2.2.1 rfl) fun h' => ?_
    exact absurd h'.1 (not_le.mpr h)
  · refine ⟨fun h' => ⟨not_lt.mp h, h'.2⟩, fun h' => ⟨?_, h'.2⟩⟩
    rintro _ ⟨⟩
    rfl

theorem harmless_set : (Request.set keyLen key valueLen value).Harmless m ↔
    keyLen.toInt ≤ maxStrLen ∧ valueLen.toInt > maxStrLen := by
  simp only [Request.Harmless, Request.call, Request.code]
  split_ifs with h h'
  · exact iff_of_false (fun h' => h'.2.2.1 rfl) fun h' => absurd h'.1 (not_le.mpr h)
  · refine iff_of_true ⟨?_, by decide, by decide, fun h => absurd h (by decide)⟩ ⟨not_lt.mp h, h'⟩
    rintro _ ⟨⟩
  · exact iff_of_false (fun h' => h'.2.1 rfl) fun h'' => absurd h''.2 h'

theorem not_harmless_del : ¬ (Request.del keyLen key).Harmless m := by
  simp only [Request.Harmless, Request.call, Request.code]
  split_ifs
  · exact fun h => h.2.2.1 rfl
  · exact fun h => h.2.1 rfl

theorem harmless_other : (Request.other code).Harmless m ↔ IdleHarmless m code := by
  refine ⟨And.right, fun h => ⟨?_, h⟩⟩
  rintro _ ⟨⟩

/-! ### Strings at the end of a stream -/

theorem found_any {len : CInt} {bytes str : List Byte} (hb : bytes.length ≤ len.sizeT) :
    Found (fun _ => True) len bytes str ↔ str.length = len.sizeT ∧ bytes <+: str := by
  constructor
  · rintro ⟨p, -, rfl⟩
    refine ⟨?_, List.prefix_append ..⟩
    simp [Buf.read]
    omega
  · rintro ⟨hlen, t, rfl⟩
    refine ⟨fun i => (bytes ++ t).getD i.toNat 0, trivial, congrArg _ ?_⟩
    have hread : Buf.read (fun i => (bytes ++ t).getD i.toNat 0) len.sizeT = bytes ++ t := by
      refine List.ext_getElem (by simpa [Buf.read] using hlen.symm) fun i h1 h2 => ?_
      simp only [Buf.read, getElem_tabulate, Int.toNat_natCast]
      exact List.getD_eq_getElem _ _ h2
    rw [hread, List.drop_left]

theorem takenString_any {len : CInt} {str : List Byte} :
    TakenString (fun _ => True) code s len str rest ↔ len = code.overwrite (s.take 4) ∧
      Allocates len ∧ str.length = len.sizeT ∧ (s.drop 4).take len.sizeT <+: str ∧
      rest = (s.drop 4).drop len.sizeT := by
  have hb : ((s.drop 4).take len.sizeT).length ≤ len.sizeT := List.length_take_le ..
  constructor
  · rintro ⟨h1, h2, h3, h4⟩
    obtain ⟨h5, h6⟩ := (found_any hb).mp h3
    exact ⟨h1, h2, h5, h6, h4⟩
  · rintro ⟨h1, h2, h3, h4, h5⟩
    exact ⟨h1, h2, (found_any hb).mpr ⟨h3, h4⟩, h5⟩

theorem allocates_of_byte (h : code.byte 3 = 0) : Allocates code := by
  have h' := congrArg BitVec.toNat h
  rw [CInt.byte, BitVec.extractLsb'_toNat, Nat.shiftRight_eq_div_pow] at h'
  change _ = 0 at h'
  have hlt := code.isLt
  have hint : code.toInt = code.toNat := by
    rw [BitVec.toInt_eq_toNat_bmod, Int.bmod_def]
    split_ifs <;> omega
  rw [allocates_iff, hint]
  omega

theorem byte_overwrite {l : List Byte} (h : l.length < 4) :
    (code.overwrite l).byte 3 = code.byte 3 := by
  rw [CInt.overwrite, CInt.byte_ofBytes _ (by decide), List.getD_eq_default _ _ (by omega)]

/-- What is left of an opcode at the end of a stream is a small length. -/
theorem allocates_overwrite {l : List Byte} (hl : l.length < 4) (h : code.byte 3 = 0) :
    Allocates (code.overwrite l) := allocates_of_byte ((byte_overwrite hl).trans h)

/-! ### Requests at the end of a stream -/

variable {mem : Buf → Prop} {r : Request}

theorem taken_get (hop : code.overwrite (s.take 4) = 0) : Taken mem code s r rest ↔
    ∃ len key, r = .get len key ∧ TakenString mem 0 (s.drop 4) len key rest := by
  constructor
  · rintro (⟨_, h⟩ | ⟨h, _, _⟩ | ⟨h, _⟩ | ⟨rfl, h, _, _, _⟩)
    · exact ⟨_, _, rfl, h⟩
    · exact absurd (hop.symm.trans h) (by decide)
    · exact absurd (hop.symm.trans h) (by decide)
    · exact absurd hop h
  · rintro ⟨len, key, rfl, h⟩
    exact .get hop h

theorem taken_set (hop : code.overwrite (s.take 4) = 1) : Taken mem code s r rest ↔
    ∃ len key t len' value, r = .set len key len' value ∧ TakenString mem 1 (s.drop 4) len key t ∧
      TakenString mem len t len' value rest := by
  constructor
  · rintro (⟨h, _⟩ | ⟨_, h, h'⟩ | ⟨h, _⟩ | ⟨rfl, _, h, _, _⟩)
    · exact absurd (hop.symm.trans h) (by decide)
    · exact ⟨_, _, _, _, _, rfl, h, h'⟩
    · exact absurd (hop.symm.trans h) (by decide)
    · exact absurd hop h
  · rintro ⟨len, key, t, len', value, rfl, h, h'⟩
    exact .set hop h h'

theorem taken_del (hop : code.overwrite (s.take 4) = 2) : Taken mem code s r rest ↔
    ∃ len key, r = .del len key ∧ TakenString mem 2 (s.drop 4) len key rest := by
  constructor
  · rintro (⟨h, _⟩ | ⟨h, _, _⟩ | ⟨_, h⟩ | ⟨rfl, _, _, h, _⟩)
    · exact absurd (hop.symm.trans h) (by decide)
    · exact absurd (hop.symm.trans h) (by decide)
    · exact ⟨_, _, rfl, h⟩
    · exact absurd hop h
  · rintro ⟨len, key, rfl, h⟩
    exact .del hop h

theorem not_taken_exit (hop : code.overwrite (s.take 4) = 3) : ¬ Taken mem code s r rest := by
  rintro (⟨h, _⟩ | ⟨h, _, _⟩ | ⟨h, _⟩ | ⟨rfl, _, _, _, h⟩)
  · exact absurd (hop.symm.trans h) (by decide)
  · exact absurd (hop.symm.trans h) (by decide)
  · exact absurd (hop.symm.trans h) (by decide)
  · exact absurd hop h

theorem taken_other (h0 : code.overwrite (s.take 4) ≠ 0) (h1 : code.overwrite (s.take 4) ≠ 1)
    (h2 : code.overwrite (s.take 4) ≠ 2) (h3 : code.overwrite (s.take 4) ≠ 3) :
    Taken mem code s r rest ↔ r = .other (code.overwrite (s.take 4)) ∧ rest = s.drop 4 := by
  constructor
  · rintro (⟨h, _⟩ | ⟨h, _, _⟩ | ⟨h, _⟩ | ⟨rfl, _, _, _, _⟩)
    · exact absurd h h0
    · exact absurd h h1
    · exact absurd h h2
    · exact ⟨rfl, rfl⟩
  · rintro ⟨rfl, rfl⟩
    exact .other rfl h0 h1 h2 h3

theorem takenString_len {len : CInt} {str : List Byte} (h4 : s.length < 4) :
    TakenString (fun _ => True) code s len str rest ↔
      len = code.overwrite s ∧ Allocates len ∧ str.length = len.sizeT ∧ rest = [] := by
  rw [takenString_any, List.take_of_length_le (by omega), List.drop_of_length_le (by omega),
    List.take_nil, List.drop_nil]
  simp

theorem takenString_bytes {len : CInt} {str : List Byte} (h4 : 4 ≤ s.length)
    (hlt : (s.drop 4).length < (CInt.overwrite 0 (s.take 4)).sizeT) :
    TakenString (fun _ => True) code s len str rest ↔ len = CInt.overwrite 0 (s.take 4) ∧
      Allocates len ∧ str.length = len.sizeT ∧ s.drop 4 <+: str ∧ rest = [] := by
  rw [takenString_any, CInt.overwrite_eq code 0 (by simp [h4])]
  refine and_congr_right ?_
  rintro rfl
  rw [List.take_of_length_le hlt.le, List.drop_of_length_le hlt.le]

theorem takenString_whole {lc : List Byte → Cut} {c : CInt → List Byte → Cut} {len len' : CInt}
    {str str' t : List Byte} (hp : parseString s lc c = .ok (len', str', t)) :
    TakenString (fun _ => True) code s len str rest ↔ len = len' ∧ str = str' ∧ rest = t := by
  obtain ⟨h4, rfl, ha, hfit, rfl, rfl⟩ := parseString_ok hp
  rw [takenString_any, CInt.overwrite_eq code 0 (by simp [h4])]
  refine and_congr_right ?_
  rintro rfl
  have htake : ((s.drop 4).take (CInt.overwrite 0 (s.take 4)).sizeT).length =
      (CInt.overwrite 0 (s.take 4)).sizeT := List.length_take_of_le hfit
  refine ⟨fun h => ⟨?_, h.2.2.2⟩, fun h => ⟨ha, ?_, ?_, h.2⟩⟩
  · exact (h.2.2.1.eq_of_length (htake.trans h.2.1.symm)).symm
  · rw [h.1, htake]
  · rw [h.1]

theorem not_takenString {len : CInt} {str : List Byte} (h4 : 4 ≤ s.length)
    (ha : ¬ Allocates (CInt.overwrite 0 (s.take 4))) : ¬ TakenString mem code s len str rest := by
  intro h
  refine ha ?_
  rw [← CInt.overwrite_eq code 0 (by simp [h4]), ← h.len_eq]
  exact h.allocates

theorem exists_string (len : CInt) (bytes : List Byte) (h : bytes.length ≤ len.sizeT) :
    ∃ str : List Byte, str.length = len.sizeT ∧ bytes <+: str := by
  refine ⟨bytes ++ List.replicate (len.sizeT - bytes.length) 0, ?_, List.prefix_append ..⟩
  simp
  omega

theorem harmless_get_cut (hp : parseString s (.keyLen 0) (.key 0) = .error cut) :
    Harmless m code cut ↔ ∀ len key rest, TakenString (fun _ => True) 0 s len key rest →
      len.toInt ≤ maxStrLen ∧ IdleHarmless m (getCode m key) := by
  rcases parseString_error hp with ⟨h4, rfl⟩ | ⟨h4, ⟨ha, rfl⟩ | ⟨ha, hlt, rfl⟩⟩
  · have ha : Allocates (CInt.overwrite 0 s) := allocates_overwrite h4 rfl
    refine ⟨fun h len key rest ht => ?_, fun h => ⟨rfl, ?_, fun key hk _ => ?_⟩⟩
    · obtain ⟨rfl, -, hk, -⟩ := (takenString_len h4).mp ht
      exact ⟨h.2.1, h.2.2 key hk (List.nil_prefix)⟩
    · obtain ⟨key, hk, -⟩ := exists_string (CInt.overwrite 0 s) [] (Nat.zero_le _)
      exact (h _ key [] ((takenString_len h4).mpr ⟨rfl, ha, hk, rfl⟩)).1
    · exact (h _ key [] ((takenString_len h4).mpr ⟨rfl, ha, hk, rfl⟩)).2
  · exact iff_of_true trivial fun _ _ _ ht => absurd ht (not_takenString h4 ha)
  · refine ⟨fun h len key rest ht => ?_, fun h => ⟨rfl, ?_, fun key hk hb => ?_⟩⟩
    · obtain ⟨rfl, -, hk, hb, -⟩ := (takenString_bytes h4 hlt).mp ht
      exact ⟨h.2.1, h.2.2 key hk hb⟩
    · obtain ⟨key, hk, hb⟩ := exists_string _ _ hlt.le
      exact (h _ key [] ((takenString_bytes h4 hlt).mpr ⟨rfl, ha, hk, hb, rfl⟩)).1
    · exact (h _ key [] ((takenString_bytes h4 hlt).mpr ⟨rfl, ha, hk, hb, rfl⟩)).2

theorem harmless_key_cut {op : CInt} (hop : op ≠ 0) (h3 : op.byte 3 = 0)
    (hp : parseString s (.keyLen op) (.key op) = .error cut) :
    Harmless m code cut ↔ ∀ len key rest, ¬ TakenString (fun _ => True) op s len key rest := by
  rcases parseString_error hp with ⟨h4, rfl⟩ | ⟨h4, ⟨ha, rfl⟩ | ⟨ha, hlt, rfl⟩⟩
  · refine iff_of_false (fun h => hop h.1) fun h => ?_
    obtain ⟨key, hk, -⟩ := exists_string (op.overwrite s) [] (Nat.zero_le _)
    exact h _ key [] ((takenString_len h4).mpr ⟨rfl, allocates_overwrite h4 h3, hk, rfl⟩)
  · exact iff_of_true trivial fun _ _ _ => not_takenString h4 ha
  · refine iff_of_false (fun h => hop h.1) fun h => ?_
    obtain ⟨key, hk, hb⟩ := exists_string _ _ hlt.le
    exact h _ key [] ((takenString_bytes h4 hlt).mpr ⟨rfl, ha, hk, hb, rfl⟩)

theorem harmless_value_cut (hp : parseString s (.valueLen keyLen) (.value keyLen) = .error cut) :
    Harmless m code cut ↔ ∀ len value rest, TakenString (fun _ => True) keyLen s len value rest →
      keyLen.toInt ≤ maxStrLen ∧ len.toInt > maxStrLen := by
  rcases parseString_error hp with ⟨h4, rfl⟩ | ⟨h4, ⟨ha, rfl⟩ | ⟨ha, hlt, rfl⟩⟩
  · refine ⟨fun h len value rest ht => ?_, fun h => ?_⟩
    · obtain ⟨rfl, ha, -⟩ := (takenString_len h4).mp ht
      exact h.resolve_left (not_not.mpr ha)
    · refine or_iff_not_imp_left.mpr fun ha => ?_
      obtain ⟨value, hv, -⟩ := exists_string (keyLen.overwrite s) [] (Nat.zero_le _)
      exact h _ value [] ((takenString_len h4).mpr ⟨rfl, not_not.mp ha, hv, rfl⟩)
  · exact iff_of_true trivial fun _ _ _ ht => absurd ht (not_takenString h4 ha)
  · refine ⟨fun h len value rest ht => ?_, fun h => ?_⟩
    · obtain ⟨rfl, -⟩ := (takenString_bytes h4 hlt).mp ht
      exact h
    · obtain ⟨value, hv, hb⟩ := exists_string _ _ hlt.le
      exact h _ value [] ((takenString_bytes h4 hlt).mpr ⟨rfl, ha, hv, hb, rfl⟩)

theorem TakenString.rest_nil {lc : List Byte → Cut} {c : CInt → List Byte → Cut} {len : CInt}
    {str : List Byte} (h : TakenString mem code s len str rest)
    (hp : parseString s lc c = .error cut) : rest = [] := by
  rw [h.rest_eq, h.len_eq]
  rcases parseString_error hp with ⟨h4, -⟩ | ⟨h4, ⟨ha, -⟩ | ⟨-, hlt, -⟩⟩
  · rw [List.drop_of_length_le (by omega : s.length ≤ 4), List.drop_nil]
  · exact absurd h.allocates (by rwa [h.len_eq, CInt.overwrite_eq code 0 (by simp [h4])])
  · rw [CInt.overwrite_eq code 0 (by simp [h4])]
    exact List.drop_of_length_le hlt.le

theorem takenString_nil {len : CInt} {str : List Byte} :
    TakenString (fun _ => True) code [] len str rest ↔
      len = code ∧ Allocates len ∧ str.length = len.sizeT ∧ rest = [] := by
  rw [takenString_len (by decide), CInt.overwrite_nil]

theorem harmless_opcode (h4 : s.length < 4) : IdleHarmless m (code.overwrite s) ↔
    ∀ r rest, Taken (fun _ => True) code s r rest → r.Harmless m := by
  have htake : s.take 4 = s := List.take_of_length_le (by omega)
  have hdrop : s.drop 4 = [] := List.drop_of_length_le (by omega)
  by_cases h0 : code.overwrite s = 0
  · simp only [h0, taken_get (htake.symm ▸ h0), hdrop, takenString_nil]
    refine ⟨?_, fun h => ?_⟩
    · rintro h _ _ ⟨len, key, rfl, rfl, -, hk, -⟩
      obtain rfl := List.eq_nil_of_length_eq_zero hk
      exact harmless_get.mpr ⟨by decide, (h.2.2 rfl).1, (h.2.2 rfl).2, fun _ => h.2.2 rfl⟩
    · have h' := (harmless_get.mp (h _ [] ⟨0, [], rfl, rfl, by decide, rfl, rfl⟩)).2
      exact ⟨by decide, by decide, fun _ => ⟨h'.1, h'.2.1⟩⟩
  by_cases h1 : code.overwrite s = 1
  · simp only [h1, taken_set (htake.symm ▸ h1), hdrop, takenString_nil]
    refine iff_of_false (fun h => h.1 rfl) fun h => ?_
    have h' := harmless_set.mp (h _ [] ⟨1, [0], [], 1, [0], rfl, ⟨rfl, by decide, rfl, rfl⟩,
      takenString_nil.mpr ⟨rfl, by decide, rfl, rfl⟩⟩)
    exact absurd h'.2 (by decide)
  by_cases h2 : code.overwrite s = 2
  · simp only [h2, taken_del (htake.symm ▸ h2), hdrop, takenString_nil]
    refine iff_of_false (fun h => h.2.1 rfl) fun h => ?_
    exact not_harmless_del (h _ [] ⟨2, [0, 0], rfl, rfl, by decide, rfl, rfl⟩)
  by_cases h3 : code.overwrite s = 3
  · rw [h3]
    exact iff_of_true ⟨by decide, by decide, fun h => absurd h (by decide)⟩
      fun _ _ ht => absurd ht (not_taken_exit (htake.symm ▸ h3))
  · simp only [taken_other (htake.symm ▸ h0) (htake.symm ▸ h1) (htake.symm ▸ h2)
      (htake.symm ▸ h3), htake]
    refine ⟨?_, fun h => harmless_other.mp (h _ _ ⟨rfl, rfl⟩)⟩
    rintro h _ _ ⟨rfl, -⟩
    exact harmless_other.mpr h

/-- **The places where a stream may end** are those where only harmless requests can be made up. -/
theorem harmless_iff (h : parse s = .error cut) : Harmless m code cut ↔
    ∀ r rest, Taken (fun _ => True) code s r rest → r.Harmless m := by
  rcases parse_error h with ⟨h4, rfl⟩ | ⟨h4, h⟩
  · exact harmless_opcode h4
  have hcode : code.overwrite (s.take 4) = CInt.overwrite 0 (s.take 4) :=
    CInt.overwrite_eq code 0 (by simp [h4])
  rw [← hcode] at h
  rcases h with ⟨hop, hp⟩ | ⟨hop, hp⟩ | ⟨hop, keyLen, key, t, hp, hq⟩ | ⟨hop, hp⟩ | ⟨hop, rfl⟩
  · rw [harmless_get_cut hp]
    simp only [taken_get hop]
    refine ⟨?_, fun h len key rest ht => harmless_get.mp (h _ rest ⟨len, key, rfl, ht⟩)⟩
    rintro h _ rest ⟨len, key, rfl, ht⟩
    exact harmless_get.mpr (h len key rest ht)
  · rw [harmless_key_cut (by decide) rfl hp]
    simp only [taken_set hop]
    refine ⟨?_, fun h len key rest ht => ?_⟩
    · rintro h _ _ ⟨len, key, t, _, _, rfl, ht, -⟩
      exact absurd ht (h len key t)
    · obtain rfl := ht.rest_nil hp
      obtain ⟨value, hv, -⟩ := exists_string len [] (Nat.zero_le _)
      have h' := harmless_set.mp (h _ [] ⟨len, key, [], len, value, rfl, ht,
        takenString_nil.mpr ⟨rfl, ht.allocates, hv, rfl⟩⟩)
      exact absurd h'.1 (not_le.mpr h'.2)
  · rw [harmless_value_cut hq]
    simp only [taken_set hop]
    refine ⟨?_, fun h len value rest ht => harmless_set.mp (h _ rest
      ⟨keyLen, key, t, len, value, rfl, (takenString_whole hp).mpr ⟨rfl, rfl, rfl⟩, ht⟩)⟩
    rintro h _ rest ⟨_, _, _, len, value, rfl, ht, ht'⟩
    obtain ⟨rfl, rfl, rfl⟩ := (takenString_whole hp).mp ht
    exact harmless_set.mpr (h len value rest ht')
  · rw [harmless_key_cut (by decide) rfl hp]
    simp only [taken_del hop]
    refine ⟨?_, fun h len key rest ht => not_harmless_del (h _ rest ⟨len, key, rfl, ht⟩)⟩
    rintro h _ rest ⟨len, key, rfl, ht⟩
    exact absurd ht (h len key rest)
  · exact iff_of_true trivial fun _ _ ht => absurd ht (not_taken_exit hop)

theorem Taken.rest_nil (ht : Taken mem code s r rest) (h : parse s = .error cut) : rest = [] := by
  rcases parse_error h with ⟨h4, rfl⟩ | ⟨h4, h⟩
  · have hdrop : s.drop 4 = [] := List.drop_of_length_le (by omega)
    have hs : ∀ {code len : CInt} {str rest}, TakenString mem code [] len str rest → rest = [] :=
      fun h => by simpa using h.rest_eq
    cases ht with
    | get hop hkey => exact hs (hdrop ▸ hkey)
    | set hop hkey hvalue =>
      obtain rfl := hs (hdrop ▸ hkey)
      exact hs hvalue
    | del hop hkey => exact hs (hdrop ▸ hkey)
    | other hop h0 h1 h2 h3 => exact hdrop
  have hcode : code.overwrite (s.take 4) = CInt.overwrite 0 (s.take 4) :=
    CInt.overwrite_eq code 0 (by simp [h4])
  rw [← hcode] at h
  rcases h with ⟨hop, hp⟩ | ⟨hop, hp⟩ | ⟨hop, keyLen, key, t, hp, hq⟩ | ⟨hop, hp⟩ | ⟨hop, rfl⟩
  · obtain ⟨_, _, -, ht⟩ := (taken_get hop).mp ht
    exact ht.rest_nil hp
  · obtain ⟨_, _, t, _, _, -, ht, ht'⟩ := (taken_set hop).mp ht
    obtain rfl := ht.rest_nil hp
    simpa using ht'.rest_eq
  · obtain ⟨_, _, t', _, _, -, ht, ht'⟩ := (taken_set hop).mp ht
    obtain ⟨h4', hlen, -, -, -, rfl⟩ := parseString_ok hp
    have e : CInt.overwrite 1 ((s.drop 4).take 4) = keyLen := by
      rw [hlen]
      exact CInt.overwrite_eq 1 0 (by simpa using h4')
    obtain rfl : t' = _ := ht.rest_eq
    rw [ht.len_eq, e] at ht'
    exact ht'.rest_nil hq
  · obtain ⟨_, _, -, ht⟩ := (taken_del hop).mp ht
    exact ht.rest_nil hp
  · exact absurd ht (not_taken_exit hop)

theorem TakenString.of_nil {len : CInt} {str : List Byte}
    (h : TakenString mem code [] len str rest) :
    len = code ∧ rest = [] ∧ Found mem code [] str := by
  have hlen : len = code := h.len_eq.trans (code.overwrite_nil)
  subst hlen
  exact ⟨rfl, by simpa using h.rest_eq, by simpa using h.found⟩

theorem Taken.allocates (ht : Taken mem code s r rest) :
    ∀ len ∈ lengthsRead code s, Allocates len := by
  have hlen : ∀ {code len : CInt} {s str rest : List Byte}, TakenString mem code s len str rest →
      Allocates (code.overwrite (s.take 4)) := fun h => h.len_eq ▸ h.allocates
  intro len h
  cases ht with
  | get hop hkey =>
    simp only [lengthsRead, hop, true_or, if_true, List.mem_singleton] at h
    exact h ▸ hlen hkey
  | set hop hkey hvalue =>
    have h10 : ¬ ((1 : CInt) = 0 ∨ (1 : CInt) = 2) := by decide
    simp only [lengthsRead, hop, h10, if_true, if_false, List.mem_cons, List.not_mem_nil,
      or_false] at h
    rcases h with rfl | rfl
    · exact hlen hkey
    · have h' := hlen hvalue
      rwa [hkey.rest_eq, hkey.len_eq] at h'
  | del hop hkey =>
    simp only [lengthsRead, hop, or_true, if_true, List.mem_singleton] at h
    exact h ▸ hlen hkey
  | other hop h0 h1 h2 h3 =>
    simp only [lengthsRead, hop, h0, h1, h2, or_self, if_false, List.not_mem_nil] at h

/-- Where harm can be done, some contents of the memory do it. -/
theorem exists_memory (ht : Taken (fun _ => True) code s r rest) (hr : ¬ r.Harmless m) :
    ∃ p : Buf, ∀ r' rest', Taken (· = p) code s r' rest' → ¬ r'.Harmless m := by
  cases ht with
  | get hop hkey =>
    obtain ⟨p, -, hp⟩ := hkey.found
    refine ⟨p, fun r' rest' ht => ?_⟩
    obtain ⟨len, key, rfl, hs⟩ := (taken_get hop).mp ht
    obtain ⟨_, rfl, hp'⟩ := hs.found
    rw [hs.len_eq] at hp'
    rw [hkey.len_eq] at hp hr
    rw [hs.len_eq, hp', ← hp]
    exact hr
  | set hop hkey hvalue =>
    refine ⟨fun _ => 0, fun r' rest' ht => ?_⟩
    obtain ⟨len, key, t, len', value, rfl, hs, hs'⟩ := (taken_set hop).mp ht
    obtain rfl : t = _ := hs.rest_eq.trans (by rw [hs.len_eq, ← hkey.len_eq, ← hkey.rest_eq])
    rw [harmless_set] at hr ⊢
    rwa [hs'.len_eq, hs.len_eq, ← hkey.len_eq, ← hvalue.len_eq]
  | del hop hkey =>
    refine ⟨fun _ => 0, fun r' rest' ht => ?_⟩
    obtain ⟨len, key, rfl, -⟩ := (taken_del hop).mp ht
    exact not_harmless_del
  | other hop h0 h1 h2 h3 =>
    subst hop
    refine ⟨fun _ => 0, fun r' rest' ht => ?_⟩
    obtain ⟨rfl, -⟩ := (taken_other h0 h1 h2 h3).mp ht
    exact hr

end Harmless

/-! ## Runs -/

/-- `code` after some requests. -/
def codeAfter : KV → CInt → List Request → CInt
  | _, code, [] => code
  | m, _, r :: rs => codeAfter (storeAfter m r.call.toList) (r.code m) rs

section Runs

variable {m : KV} {code : CInt} {s : Wire} {c : List Call} {r : Request} {fails : Prop} {p : Buf}

theorem updates_append (calls calls' : List Call) :
    updates (calls ++ calls') = updates calls ++ updates calls' := List.filter_append ..

variable (m c) in
theorem Request.keeps (h1 : ∀ call, r.call = some call → call.isUpdate = false) :
    updates (c ++ r.call.toList) = updates c ∧
      storeAfter m (c ++ r.call.toList) = storeAfter m c := by
  cases hc : r.call with
  | none => simp
  | some call =>
    have hu := h1 call hc
    cases call with
    | get key =>
      rw [updates_append, storeAfter_append]
      exact ⟨List.append_nil _, rfl⟩
    | set key value => cases hu
    | del key => cases hu

/-- A call that is an update is one update more. -/
theorem not_prefix_update {f : Call} (h : f.isUpdate = true) :
    ¬ updates (c ++ [f]) <+: updates c := by
  intro hp
  have hlen := hp.length_le
  rw [updates_append, List.length_append, updates, updates, List.filter_cons_of_pos h] at hlen
  simp at hlen

theorem always_harmless {cut : Cut} (hp : parse s.incoming = .error cut)
    (h : Harmless (storeAfter m s.calls) code cut) :
    Always (env (closed fails) m) procs (fun s' => updates s'.calls <+: updates s.calls)
      (instanceThread code, s) := by
  refine always_loop False (fun (code : CInt) (s' : Wire) => updates s'.calls <+: updates s.calls ∧
    ∃ cut, parse s'.incoming = .error cut ∧ Harmless (storeAfter m s'.calls) code cut)
    instanceThreadRound .instanceThread (fun _ => rfl) ?_ ⟨List.prefix_refl _, cut, hp, h⟩
    (List.prefix_refl _)
  rintro code s' ⟨hI, cut, hp, h⟩
  have hr := fun r rest ht => (harmless_iff hp).mp h r rest ht
  refine Prog.spec.mono (spec_round_closing fails m False
    (P := fun calls => updates calls <+: updates s.calls) hI (fun r rest ht => ?_) fun h => h.elim) ?_
  · have h' := Request.keeps m s'.calls (hr r rest ht).1
    rwa [h'.1]
  · rintro res s'' (⟨r, rest, code', ht, rfl, rfl, rfl⟩ | ⟨⟨i, rfl⟩, hP, -⟩)
    · obtain rfl := ht.rest_nil hp
      obtain ⟨h1, h2⟩ := Request.keeps m s'.calls (hr r [] ht).1
      have hidle := (hr r [] ht).2
      refine ⟨by rwa [h1], fun y hy => ⟨by rwa [h1], .opcode [], rfl, ?_⟩⟩
      cases hy
      rw [h2]
      change IdleHarmless _ (CInt.overwrite _ [])
      rwa [CInt.overwrite_nil]
    · exact ⟨hP, fun y hy => by cases hy⟩

/-- **A thread whose stream ends in a harmless place** performs the updates of the whole
requests. -/
theorem always_closed {stream : List Byte} (done : List Call)
    (h : Harmless (storeAfter m (done ++ callsOf stream))
      (codeAfter (storeAfter m done) code (requests stream).1) (requests stream).2) :
    Always (env (closed fails) m) procs (fun s => updates s.calls <+: updates (done ++ callsOf stream))
      (instanceThread code, ⟨stream, done⟩) := by
  induction hn : stream.length using Nat.strong_induction_on generalizing stream done code with
  | _ n ih =>
    subst hn
    cases hp : parse stream with
    | error cut =>
      simp only [callsOf, requests_error hp, List.filterMap_nil, List.append_nil, codeAfter] at h ⊢
      exact always_harmless (s := ⟨stream, done⟩) hp h
    | ok x =>
      obtain ⟨r, rest⟩ := x
      have hpre : ∀ calls, updates done <+: updates (done ++ calls) := fun calls =>
        updates_append done calls ▸ List.prefix_append ..
      simp only [requests_ok hp, codeAfter, ← storeAfter_append] at h
      rw [append_callsOf hp] at h ⊢
      have hI : updates done <+: updates (done ++ r.call.toList ++ callsOf rest) :=
        List.append_assoc done _ _ ▸ hpre _
      refine always_round hI (spec_round m code (s := ⟨stream, done⟩)
        (P := fun calls => updates calls <+: updates (done ++ r.call.toList ++ callsOf rest))
        hI hp (fun n _ => closing_whole n) (fun h : False => h.elim) fun _ => ?_) ?_ ?_
      · exact updates_append (done ++ r.call.toList) _ ▸ List.prefix_append ..
      · rintro i s' (⟨_, hi, -⟩ | ⟨-, -, hP⟩)
        · cases hi
        · exact hP
      · rintro code' s' (⟨_, hi, -, rfl, rfl⟩ | ⟨-, hi, -⟩)
        · cases hi
          exact ih _ (parse_length hp) _ h rfl
        · cases hi

/-- More updates than `c` has. -/
def MoreUpdates (c : List Call) (x : Net Int × Wire) : Prop := ¬ updates x.2.calls <+: updates c

theorem eventually_taken {R : Net Int × Wire → Prop} (hlen : ∀ len ∈ lengthsRead code s.incoming,
      Allocates len) (hne : code.overwrite (s.incoming.take 4) ≠ 3)
    (h : ∀ r rest, Taken (· = p) code s.incoming r rest →
      Eventually (Step (env (closedAt p) m) procs) R
        (instanceThread (r.code (storeAfter m s.calls)), ⟨rest, s.calls ++ r.call.toList⟩)) :
    Eventually (Step (env (closedAt p) m) procs) R (instanceThread code, s) := by
  refine eventually_round (spec_round_closing False m True (P := fun _ => True) trivial
    (fun _ _ _ => trivial) fun _ => hlen) ?_ ?_
  · rintro i s' (⟨_, _, _, _, hi, -⟩ | ⟨-, -, hf⟩)
    · cases hi
    · exact absurd ((hf trivial).resolve_left id) hne
  · rintro code' s' (⟨r, rest, _, ht, hi, rfl, rfl⟩ | ⟨⟨_, hi⟩, -⟩)
    · cases hi
      exact h r rest ht
    · cases hi

theorem eventually_taken_nil {R : Net Int × Wire → Prop} (hs : s.incoming = [])
    (h3 : code.byte 3 = 0) (hne : code ≠ 3)
    (h : ∀ r rest, Taken (· = p) code [] r rest → Eventually (Step (env (closedAt p) m) procs) R
      (instanceThread (r.code (storeAfter m s.calls)), ⟨rest, s.calls ++ r.call.toList⟩)) :
    Eventually (Step (env (closedAt p) m) procs) R (instanceThread code, s) := by
  refine eventually_taken (fun len hlen => ?_) ?_ (hs ▸ h)
  · simp only [lengthsRead, hs, List.take_nil, List.drop_nil, CInt.overwrite_nil] at hlen
    have hlen' : len = code := by
      split_ifs at hlen
      · exact List.mem_singleton.mp hlen
      · simpa using hlen
      · exact absurd hlen List.not_mem_nil
    exact hlen' ▸ allocates_of_byte h3
  · rwa [hs, List.take_nil, CInt.overwrite_nil]

theorem eventually_idle_update (hs : s.incoming = []) (hc : updates s.calls = updates c)
    (hcode : code = 1 ∨ code = 2) :
    Eventually (Step (env (closedAt p) m) procs) (MoreUpdates c) (instanceThread code, s) := by
  refine eventually_taken_nil hs ?_ ?_ fun r rest ht => .now ?_
  · rcases hcode with rfl | rfl <;> rfl
  · rcases hcode with rfl | rfl <;> decide
  have hop : code.overwrite (List.take 4 []) = code := code.overwrite_nil
  change ¬ updates (s.calls ++ r.call.toList) <+: updates c
  rw [← hc]
  rcases hcode with rfl | rfl
  · obtain ⟨len, key, t, len', value, rfl, hk, hv⟩ := (taken_set hop).mp ht
    obtain ⟨rfl, rfl, -⟩ := hk.of_nil
    obtain ⟨rfl, -, -⟩ := hv.of_nil
    exact not_prefix_update (f := .set key value) rfl
  · obtain ⟨len, key, rfl, hk⟩ := (taken_del hop).mp ht
    obtain ⟨rfl, -, -⟩ := hk.of_nil
    exact not_prefix_update (f := .del key) rfl

/-- Where it is not harmless to go on after the end of the stream, an update is made up. -/
theorem eventually_idle (hs : s.incoming = []) (hc : updates s.calls = updates c)
    (h : ¬ IdleHarmless (storeAfter m s.calls) code) :
    Eventually (Step (env (closedAt p) m) procs) (MoreUpdates c) (instanceThread code, s) := by
  by_cases h12 : code = 1 ∨ code = 2
  · exact eventually_idle_update hs hc h12
  obtain ⟨h1, h2⟩ := not_or.mp h12
  by_cases h0 : code = 0
  · have hop : code.overwrite (List.take 4 []) = code := code.overwrite_nil
    subst h0
    have h' : getCode (storeAfter m s.calls) [] = 1 ∨ getCode (storeAfter m s.calls) [] = 2 := by
      by_contra hn
      exact h ⟨h1, h2, fun _ => not_or.mp hn⟩
    -- a `get` of the empty key, whose answer leaves one of these opcodes
    refine eventually_taken_nil hs rfl (by decide) fun r rest ht => ?_
    obtain ⟨len, key, rfl, hk⟩ := (taken_get hop).mp ht
    obtain ⟨rfl, rfl, q, rfl, rfl⟩ := hk.of_nil
    refine eventually_idle_update rfl ?_ h'
    change updates (s.calls ++ [.get _]) = updates c
    rw [updates_append, hc]
    exact List.append_nil _
  · exact absurd ⟨h1, h2, fun h => absurd h h0⟩ h

/-- **Where the stream does not end in a harmless place**, an update is made up. -/
theorem eventually_update {cut : Cut} (hp : parse s.incoming = .error cut)
    (h : ¬ Harmless (storeAfter m s.calls) code cut) :
    ∃ p, Eventually (Step (env (closedAt p) m) procs) (MoreUpdates s.calls)
      (instanceThread code, s) := by
  have h' := h
  rw [harmless_iff hp] at h'
  push Not at h'
  obtain ⟨r, rest, ht, hr⟩ := h'
  obtain ⟨p, hmem⟩ := exists_memory ht hr
  have hne : code.overwrite (s.incoming.take 4) ≠ 3 := fun h3 => not_taken_exit h3 ht
  refine ⟨p, eventually_taken ht.allocates hne fun r rest ht => ?_⟩
  have hr := hmem r rest ht
  by_cases hu : ∀ call, r.call = some call → call.isUpdate = false
  · have hidle : ¬ IdleHarmless (storeAfter m s.calls) (r.code (storeAfter m s.calls)) :=
      fun h => hr ⟨hu, h⟩
    obtain ⟨h1, h2⟩ := Request.keeps m s.calls hu
    obtain rfl := ht.rest_nil hp
    exact eventually_idle rfl h1 (h2.symm ▸ hidle)
  · push Not at hu
    obtain ⟨call, hc, hu⟩ := hu
    refine .now ?_
    change ¬ updates (s.calls ++ r.call.toList) <+: updates s.calls
    rw [hc]
    exact not_prefix_update (by simpa using hu)

/-- **A thread whose stream does not end in a harmless place** performs more updates. -/
theorem eventually_more {stream : List Byte} (done : List Call)
    (h : ¬ Harmless (storeAfter m (done ++ callsOf stream))
      (codeAfter (storeAfter m done) code (requests stream).1) (requests stream).2) :
    ∃ p, Eventually (Step (env (closedAt p) m) procs) (MoreUpdates (done ++ callsOf stream))
      (instanceThread code, ⟨stream, done⟩) := by
  induction hn : stream.length using Nat.strong_induction_on generalizing stream done code with
  | _ n ih =>
    subst hn
    cases hp : parse stream with
    | error cut =>
      simp only [callsOf, requests_error hp, List.filterMap_nil, List.append_nil, codeAfter] at h ⊢
      exact eventually_update (s := ⟨stream, done⟩) hp h
    | ok x =>
      obtain ⟨r, rest⟩ := x
      simp only [requests_ok hp, codeAfter, ← storeAfter_append] at h
      rw [append_callsOf hp] at h ⊢
      obtain ⟨p, hev⟩ := ih _ (parse_length hp) _ h rfl
      refine ⟨p, eventually_round (spec_round m code (s := ⟨stream, done⟩) (P := fun _ => True)
        trivial hp (fun n _ => closing_whole n) (fun _ => closing_completes r rest)
        fun _ => trivial) ?_ ?_⟩
      · rintro i s' (⟨_, hi, -⟩ | ⟨hf, -⟩)
        · cases hi
        · exact hf.elim
      · rintro code' s' (⟨_, hi, -, rfl, rfl⟩ | ⟨-, hi, -⟩)
        · cases hi
          exact hev
        · cases hi

end Runs

/-- **A vanished client.** Let the peer close the connection behind any stream of bytes. Whatever
`code`, the memory and the store are found to hold, and whether or not `send` fails from then on,
the thread performs no update but those of the requests that have come whole, if and only if the
stream ends at a harmless place. -/
theorem vanished_iff (fails : Prop) (m : KV) (code : CInt) (stream : List Byte) :
    Always (env (closed fails) m) procs
        (fun s => updates s.calls <+: updates ((requests stream).1.filterMap Request.call))
        (instanceThread code, ⟨stream, []⟩) ↔
      Harmless (storeAfter m ((requests stream).1.filterMap Request.call))
        (codeAfter m code (requests stream).1) (requests stream).2 := by
  refine ⟨fun ha => ?_, fun h => always_closed [] h⟩
  by_contra h
  obtain ⟨p, hev⟩ := eventually_more [] h
  exact ha.not_eventually (closedAt_le p fails m) hev

/-- **A client that has set a value and vanishes** goes on changing the store. -/
theorem not_vanished_set : ¬ Always (env (closed True) fun _ => none) procs
    (fun s => updates s.calls <+: [.set [107] [118]])
    (instanceThread 0, ⟨Call.encode (.set [107] [118]), []⟩) := by
  have hreq : requests (Call.encode (.set [107] [118])) =
      ([.set 1 [107] 1 [118]], .opcode []) := by
    have hnil : requests [] = ([], .opcode []) := requests_error rfl
    have h : requests ([Call.set [107] [118]].flatMap Call.encode ++ []) = _ :=
      requests_encode (by decide)
    rw [hnil] at h
    exact h
  have hcalls : callsOf (Call.encode (.set [107] [118])) = [.set [107] [118]] := by
    rw [callsOf, hreq]
    rfl
  intro ha
  obtain ⟨p, hev⟩ : ∃ p, Eventually (Step (env (closedAt p) fun _ => none) procs)
      (MoreUpdates ([] ++ callsOf (Call.encode (.set [107] [118]))))
      (instanceThread 0, ⟨Call.encode (.set [107] [118]), []⟩) := by
    refine eventually_more [] ?_
    rw [hreq]
    -- the reply leaves the opcode of `set`
    exact fun h => h.1 (CInt.overwrite_nil 1)
  rw [List.nil_append, hcalls] at hev
  exact ha.not_eventually (closedAt_le p True _) hev

end MyJQL.Server
