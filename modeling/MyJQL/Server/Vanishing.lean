import MyJQL.Server.Dialogue

/-!
# A server that vanishes

The driver, when the connection ends before its call has been answered. `recv` then returns `0`,
which is no error, and leaves the variable `code` as it is.

* `Call.heard`: what a call makes of the bytes that come before the end; **`driver_heard`**;
* `Misled`, **`vanishing_iff`**: wherever the reply breaks off, the call throws `system_error` or
  returns what the whole reply would have told it, except exactly where it is misled.
-/

set_option linter.unusedSimpArgs false

namespace MyJQL.Server

/-! ## Calls to a server that has gone -/

/-- `code` after a `recv` of an `int`, of which the bytes `s` come. -/
def heardCode (code : CInt) (s : List Byte) : CInt := code.overwrite (s.take 4)

/-- What a call makes of a return code, and of the bytes `rest`, after which the connection ends. -/
def Call.told (rest : List Byte) (code : CInt) : Call → Outcome
  | .get _ =>
    if code = 0 then .ok none
    else if code = 1 then
      let len := heardCode code rest
      let str := (rest.drop 4).take len.sizeT
      if (str.length : Int) ≠ len.toInt then .error (.systemError "incomplete response" 0)
      else .ok (some (str.takeWhile (· ≠ 0)))
    else if code = 2 then .error .keyTooLong
    else .error (.systemError "unknown return code" code.toInt)
  | .set _ _ =>
    if code = 1 then .ok none
    else if code = 2 then .error .keyTooLong
    else if code = 3 then .error .valueTooLong
    else .error (.systemError "unknown return code" code.toInt)
  | .del _ =>
    if code = 1 then .ok none
    else if code = 2 then .error .keyTooLong
    else .error (.systemError "unknown return code" code.toInt)

/-- The length that is sent last, and stays in `code`. -/
def Call.lastLength : Call → ℕ
  | .get key => key.length
  | .set _ value => value.length
  | .del key => key.length

/-- What a call makes of the bytes `s`, after which the connection ends. -/
def Call.heard (s : List Byte) (c : Call) : Outcome :=
  c.told (s.drop 4) (heardCode (BitVec.ofNat 32 c.lastLength) s)

/-- The server has gone, and the bytes `s` are still to be received. -/
structure Gone (s : List Byte) (l : Link Byte (List Call)) : Prop where
  pipe : l.pipe .client = s
  closed : l.closed .server = true

section Gone

variable {view : List Call → KV} {live : Prop} {s : List Byte} {l : Link Byte (List Call)}
  {T : Client.Error → Link Byte (List Call) → Prop} {code : CInt} {str : List Byte}

theorem gone_recv {n : ℕ} {Q : Option (List Byte) → Link Byte (List Call) → Prop} (hl : Gone s l)
    (h : ∀ l, Gone (s.drop n) l → Q (some (s.take n)) l) :
    espec (linkEnv (netAct view) .client) live (fun _ => True) (Net.recv false n) Q T l := by
  refine espec_lift (spec_eff trivial (fun _ => ⟨_, _, (linkEnv_recv rfl).mpr
    ⟨Or.inr hl.closed, rfl, rfl⟩⟩) fun b l' hb => ?_)
  obtain ⟨-, rfl, rfl⟩ := (linkEnv_recv rfl).mp hb
  obtain rfl := hl.pipe
  exact h _ ⟨Function.update_self Side.client _ l.pipe, hl.closed⟩

theorem gone_send {data : List Byte} {Q : Unit → Link Byte (List Call) → Prop} (hl : Gone s l)
    (h : ∀ l, Gone s l → Q () l) :
    espec (linkEnv (netAct view) .client) live (fun _ => True) (Client.sendBytes data) Q T l := by
  refine espec_bind (espec_lift (spec_eff trivial
    (fun _ => ⟨_, _, (linkEnv_send rfl).mpr ⟨rfl, rfl⟩⟩) fun b l' hb => ?_))
  obtain ⟨rfl, rfl⟩ := (linkEnv_send rfl).mp hb
  refine espec_pure (h _ ⟨?_, hl.closed⟩)
  dsimp only
  rw [Function.update_of_ne (by decide), hl.pipe]

theorem gone_malloc {n : ℕ} {Q : Option Buf → Link Byte (List Call) → Prop} (hl : Gone s l)
    (hn : n < 2 ^ 63) (h : ∀ p l, Gone s l → Q (some p) l) :
    espec (linkEnv (netAct view) .client) live (fun _ => True) (Net.malloc n) Q T l := by
  refine espec_lift (spec_eff trivial (fun _ => ⟨some fun _ => 0, _, (linkEnv_own rfl).mpr
    ⟨_, ⟨(if_pos hn).mpr ⟨_, rfl⟩, rfl⟩, rfl⟩⟩) fun b l' hb => ?_)
  obtain ⟨_, ⟨hp, rfl⟩, rfl⟩ := (linkEnv_own rfl).mp hb
  obtain ⟨p, rfl⟩ := (if_pos hn).mp hp
  exact h p _ ⟨hl.pipe, hl.closed⟩

theorem gone_sendString {Q : CInt → Link Byte (List Call) → Prop} (hl : Gone s l)
    (h : ∀ l, Gone s l → Q (BitVec.ofNat 32 str.length) l) :
    espec (linkEnv (netAct view) .client) live (fun _ => True) (Client.sendString str) Q T l :=
  espec_bind (gone_send hl fun _ hl => espec_bind (gone_send hl fun _ hl => espec_pure (h _ hl)))

theorem gone_recvCode {Q : CInt → Link Byte (List Call) → Prop} (hl : Gone s l)
    (h : ∀ l, Gone (s.drop 4) l → Q (heardCode code s) l) :
    espec (linkEnv (netAct view) .client) live (fun _ => True) (Client.recvCode code) Q T l :=
  espec_bind (gone_recv hl fun _ hl => espec_pure (h _ hl))

theorem ofNat_length {len : CInt} (h : (str.length : Int) = len.toInt) :
    len = BitVec.ofNat 32 str.length ∧ str.length < 2 ^ 31 := by
  have := len.isLt
  rw [BitVec.toInt_eq_toNat_cond] at h
  split_ifs at h with hc
  · exact ⟨BitVec.eq_of_toNat_eq (by simp; omega), by omega⟩
  · omega

/-- **The driver** makes of what comes what `heard` says. -/
theorem driver_heard (c : Call) (ha : Allocates (heardCode 1 (s.drop 4))) (hl : Gone s l) :
    espec (linkEnv (netAct view) .client) live (fun _ => True) c.drive
      (fun r _ => c.heard s = .ok r) (fun e _ => c.heard s = .error e) l := by
  cases c with
  | get key =>
    refine espec_bind (gone_send hl fun _ hl => espec_bind (gone_sendString hl fun _ hl =>
      espec_bind (gone_recvCode hl fun _ hl => ?_)))
    rw [Call.heard, Call.lastLength, Call.told]
    dsimp only
    generalize heardCode (BitVec.ofNat 32 key.length) s = code
    refine espec_ite (fun h => ?_) fun h => ?_
    · rw [if_pos h]
      exact espec_pure rfl
    rw [if_neg h]
    refine espec_ite (fun h => ?_) fun h => ?_
    · subst h
      rw [if_pos rfl]
      refine espec_bind (gone_recvCode hl fun _ hl => espec_bind (gone_malloc hl ha fun p _ hl =>
        espec_bind (gone_recv hl fun _ hl => ?_)))
      rw [List.drop_drop]
      generalize heardCode 1 (s.drop 4) = len
      generalize (s.drop (4 + 4)).take len.sizeT = str
      refine espec_ite (fun hlen => ?_) fun hlen => ?_
      · rw [if_pos hlen]
        exact espec_throw rfl
      rw [if_neg hlen]
      obtain ⟨rfl, hshort⟩ := ofNat_length (not_not.mp hlen)
      refine espec_pure ?_
      rw [stringOf_received p hshort]
    rw [if_neg h]
    refine espec_ite (fun h => ?_) fun h => ?_
    · rw [if_pos h]
      exact espec_throw rfl
    · rw [if_neg h]
      exact espec_throw rfl
  | set key value =>
    refine espec_bind (espec_bind (gone_send hl fun _ hl => espec_bind (gone_sendString hl fun _ hl =>
      espec_bind (gone_sendString hl fun _ hl => espec_bind (gone_recvCode hl fun _ hl => ?_)))))
    rw [Call.heard, Call.lastLength, Call.told]
    split_ifs
    · exact espec_pure (espec_pure rfl)
    · exact espec_throw rfl
    · exact espec_throw rfl
    · exact espec_throw rfl
  | del key =>
    refine espec_bind (espec_bind (gone_send hl fun _ hl => espec_bind (gone_sendString hl fun _ hl =>
      espec_bind (gone_recvCode hl fun _ hl => ?_))))
    rw [Call.heard, Call.lastLength, Call.told]
    split_ifs
    · exact espec_pure (espec_pure rfl)
    · exact espec_throw rfl
    · exact espec_throw rfl

end Gone

/-! ## Replies that break off -/

section Bytes

variable {x y r r' : CInt} {i j n : ℕ} {s t : List Byte}

theorem toNat_byte (x : CInt) (i : ℕ) : (x.byte i).toNat = x.toNat / 2 ^ (8 * i) % 2 ^ 8 := by
  simp [CInt.byte, BitVec.extractLsb'_toNat, Nat.shiftRight_eq_div_pow]

theorem eq_of_byte (h : ∀ i < 4, x.byte i = y.byte i) : x = y := by
  rw [← CInt.ofBytes_byte x, ← CInt.ofBytes_byte y]
  exact CInt.ofBytes_congr h

/-- The bytes of an `int` of which `j` have been overwritten. -/
theorem byte_heardCode (hs : s <+: y.bytes ++ t) (hi : i < 4) :
    (heardCode x s).byte i = if i < s.length then y.byte i else x.byte i := by
  obtain ⟨u, hu⟩ := hs
  rw [heardCode, CInt.overwrite, CInt.byte_ofBytes _ hi]
  split_ifs with hlen
  · have hget : (s ++ u).getD i (x.byte i) = y.byte i := by
      rw [hu, List.getD_append _ _ _ _ (by simpa using hi), CInt.getD_bytes _ _ hi]
    rw [← hget, List.getD_append _ _ _ _ hlen, List.getD_eq_getElem _ _ hlen,
      List.getD_eq_getElem _ _ (by simp; omega), List.getElem_take]
  · rw [List.getD_eq_default]
    simp
    omega

/-- A number of one byte. -/
def OneByte (x : CInt) : Prop := ∀ i < 4, i ≠ 0 → x.byte i = 0

/-- The first byte of a code of one byte says all. -/
theorem heardCode_oneByte (hs : s <+: r.bytes ++ t) (hne : s ≠ []) (hr : OneByte r)
    (hr' : OneByte r')
    (h : heardCode x s = r') : r' = r := by
  refine eq_of_byte fun i hi => ?_
  by_cases h0 : i = 0
  · rw [← h, byte_heardCode hs hi, if_pos (by rw [h0]; exact List.length_pos_of_ne_nil hne)]
  · rw [hr i hi h0, hr' i hi h0]

theorem heardCode_whole (hs : y.bytes <+: s) : heardCode x s = y := by
  obtain ⟨u, rfl⟩ := hs
  rw [heardCode, List.take_append_of_le_length (by simp), List.take_of_length_le (by simp),
    CInt.overwrite_bytes]

theorem heardCode_nil : heardCode x [] = x := CInt.overwrite_nil x

end Bytes

/-- The call throws `system_error`, or some of the reply has come and it returns what the whole reply
says. -/
def Justified (m : KV) (s : List Byte) (c : Call) (r : Outcome) : Prop :=
  (∃ what code, r = .error (.systemError what code)) ∨ s ≠ [] ∧ r = c.answer m

/-- The call takes a length for a return code, or a part of a length for the length of the value. -/
def Misled (m : KV) (s : List Byte) : Call → Prop
  | .get key => s = [] ∧ (key.length = 0 ∨ key.length = 2) ∨
    s.length = 5 ∧ ∃ b v, m key = some (b :: v) ∧ b ≠ 0 ∧ 256 ∣ ((b :: v).take maxStrLen).length
  | .set _ value => s = [] ∧ (value.length = 1 ∨ value.length = 2 ∨ value.length = 3)
  | .del key => s = [] ∧ (key.length = 1 ∨ key.length = 2)

section Justified

variable {m : KV} {key value s : List Byte} {c : Call} {what : String} {code : Int} {n k : ℕ}

theorem justified_error : Justified m s c (.error (.systemError what code)) := Or.inl ⟨_, _, rfl⟩

theorem justified_nil {r : Outcome} :
    Justified m [] c r ↔ ∃ what code, r = .error (.systemError what code) :=
  or_iff_left fun h => h.1 rfl

theorem ofNat_inj (hn : n < 2 ^ 31) (hk : k < 2 ^ 31) :
    BitVec.ofNat 32 n = BitVec.ofNat 32 k ↔ n = k := by
  refine ⟨fun h => ?_, fun h => h ▸ rfl⟩
  have h := congrArg BitVec.toNat h
  rwa [BitVec.toNat_ofNat, BitVec.toNat_ofNat, Nat.mod_eq_of_lt (by omega),
    Nat.mod_eq_of_lt (by omega)]
    at h

theorem oneByte_ofNat (hn : n < 4) : OneByte (BitVec.ofNat 32 n) := by
  unfold OneByte
  interval_cases n <;> decide

theorem justified_told {r : CInt} {t rest : List Byte} (hs : s <+: r.bytes ++ t) (hne : s ≠ [])
    (hr : OneByte r) (ha : c.told rest r = c.answer m) {x : CInt} :
    Justified m s c (c.told rest (heardCode x s)) := by
  have hcode : ∀ n < 4, heardCode x s = BitVec.ofNat 32 n →
      Justified m s c (c.told rest (heardCode x s)) := fun n hn h => by
    rw [h, heardCode_oneByte hs hne hr (oneByte_ofNat hn) h]
    exact Or.inr ⟨hne, ha⟩
  by_cases h0 : heardCode x s = 0
  · exact hcode 0 (by decide) h0
  by_cases h1 : heardCode x s = 1
  · exact hcode 1 (by decide) h1
  by_cases h2 : heardCode x s = 2
  · exact hcode 2 (by decide) h2
  by_cases h3 : heardCode x s = 3
  · exact hcode 3 (by decide) h3
  cases c <;> simp only [Call.told, h0, h1, h2, h3, if_false] <;> exact justified_error

theorem told_nil_one (key : List Byte) :
    (Call.get key).told [] 1 = .error (.systemError "incomplete response" 0) := rfl

theorem heard_nil_iff (hn : c.lastLength < 2 ^ 31) :
    Justified m [] c (c.heard []) ↔ ¬ Misled m [] c := by
  have hof : ∀ k < 4, BitVec.ofNat 32 c.lastLength = BitVec.ofNat 32 k ↔ c.lastLength = k :=
    fun k hk => ofNat_inj hn (by omega)
  rw [Call.heard, heardCode_nil, justified_nil, List.drop_nil]
  generalize BitVec.ofNat 32 c.lastLength = code at hof
  have h0 : code = 0 ↔ c.lastLength = 0 := hof 0 (by decide)
  have h1 : code = 1 ↔ c.lastLength = 1 := hof 1 (by decide)
  have h2 : code = 2 ↔ c.lastLength = 2 := hof 2 (by decide)
  have h3 : code = 3 ↔ c.lastLength = 3 := hof 3 (by decide)
  cases c with
  | get key =>
    rw [Call.lastLength] at h0 h1 h2
    by_cases hone : code = 1
    · subst hone
      refine iff_of_true ⟨_, _, told_nil_one key⟩ ?_
      simp [Misled, h1.mp rfl]
    · simp only [Misled, ← h0, ← h2, Call.told, if_neg hone]
      split_ifs with a0 a2
      · simp [a0]
      · simp [a2]
      · refine iff_of_true ⟨_, _, rfl⟩ ?_
        rintro (⟨-, h | h⟩ | ⟨h, -⟩)
        · exact a0 h
        · exact a2 h
        · cases h
  | set key value =>
    rw [Call.lastLength] at h1 h2 h3
    simp only [Misled, ← h1, ← h2, ← h3, Call.told]
    split_ifs with a1 a2 a3
    · simp [a1]
    · simp [a2]
    · simp [a3]
    · refine iff_of_true ⟨_, _, rfl⟩ ?_
      rintro ⟨-, h | h | h⟩
      · exact a1 h
      · exact a2 h
      · exact a3 h
  | del key =>
    rw [Call.lastLength] at h1 h2
    simp only [Misled, ← h1, ← h2, Call.told]
    split_ifs with a1 a2
    · simp [a1]
    · simp [a2]
    · refine iff_of_true ⟨_, _, rfl⟩ ?_
      rintro ⟨-, h | h⟩
      · exact a1 h
      · exact a2 h

theorem heardLength {l u : List Byte} (hl : l.length ≤ maxStrLen) (hu : u <+: encodeString l)
    (hne : u ≠ []) (hlt : u.length < 4) :
    heardCode 1 u = 0 ↔ 256 ∣ l.length ∧ (u.length = 1 ∨ l.length = 0) := by
  have hpos := List.length_pos_of_ne_nil hne
  rw [maxStrLen] at hl
  have hbyte : ∀ i < 4, (heardCode 1 u).byte i =
      if i < u.length then CInt.byte (BitVec.ofNat 32 l.length) i else CInt.byte 1 i :=
    fun i hi => byte_heardCode hu hi
  have hl0 : CInt.byte (BitVec.ofNat 32 l.length) 0 = 0 ↔ 256 ∣ l.length := by
    rw [← BitVec.toNat_inj, toNat_byte, BitVec.toNat_ofNat]
    simp
    omega
  constructor
  · intro h
    have b0 := hbyte 0 (by decide)
    have b1 := hbyte 1 (by decide)
    rw [h, if_pos hpos] at b0
    have hdvd : 256 ∣ l.length := hl0.mp b0.symm
    refine ⟨hdvd, or_iff_not_imp_left.mpr fun hlen => ?_⟩
    rw [h, if_pos (by omega), eq_comm, ← BitVec.toNat_inj, toNat_byte, BitVec.toNat_ofNat,
      show (CInt.byte 0 1).toNat = 0 from rfl] at b1
    omega
  · rintro ⟨hdvd, h⟩
    refine eq_of_byte fun i hi => ?_
    rw [hbyte i hi]
    rcases Nat.eq_zero_or_pos i with rfl | hi0
    · rw [if_pos hpos]
      exact hl0.mpr hdvd
    · split_ifs with hlt
      · rw [h.resolve_left (by omega)]
        rfl
      · interval_cases i <;> rfl

theorem allocates_heardCode {l u : List Byte} (hl : l.length ≤ maxStrLen)
    (hu : u <+: encodeString l) :
    Allocates (heardCode 1 u) := by
  rw [maxStrLen] at hl
  have hbyte : ∀ i < 4, 2 ≤ i → ((heardCode 1 u).byte i).toNat = 0 := fun i hi h2 => by
    rw [byte_heardCode hu hi]
    split_ifs
    · rw [toNat_byte, BitVec.toNat_ofNat]
      interval_cases i <;> omega
    · interval_cases i <;> rfl
  have h2 := hbyte 2 (by decide) le_rfl
  have h3 := hbyte 3 (by decide) (by decide)
  rw [toNat_byte] at h2 h3
  have hlt := (heardCode 1 u).isLt
  rw [allocates_iff, BitVec.toInt_eq_toNat_cond, if_pos (by omega)]
  omega

theorem told_value (key u : List Byte) {len : CInt} (h : heardCode 1 u = len) :
    (Call.get key).told u 1 =
      if (((u.drop 4).take len.sizeT).length : Int) ≠ len.toInt
      then .error (.systemError "incomplete response" 0)
      else .ok (some (((u.drop 4).take len.sizeT).takeWhile (· ≠ 0))) := by
  subst h
  rfl

theorem justified_code {t : List Byte} (hs : s <+: CInt.bytes 1 ++ t) (hne : s ≠ [])
    (h4 : s.length ≤ 4) :
    Justified m s (.get key) ((Call.get key).heard s) := by
  have hcode : ∀ n < 4, heardCode (BitVec.ofNat 32 (Call.get key).lastLength) s = BitVec.ofNat 32 n →
      BitVec.ofNat 32 n = (1 : CInt) := fun n hn h =>
    heardCode_oneByte hs hne (oneByte_ofNat (n := 1) (by decide)) (oneByte_ofNat hn) h
  rw [Call.heard, List.drop_of_length_le h4]
  generalize heardCode (BitVec.ofNat 32 (Call.get key).lastLength) s = code at hcode ⊢
  by_cases h1 : code = 1
  · rw [h1, told_nil_one]
    exact justified_error
  have h0 : code ≠ 0 := fun h => absurd (hcode 0 (by decide) h) (by decide)
  have h2 : code ≠ 2 := fun h => absurd (hcode 2 (by decide) h) (by decide)
  rw [Call.told, if_neg h0, if_neg h1, if_neg h2]
  exact justified_error

/-- A part of the length comes. It is taken for the length only if it is `0`. -/
theorem justified_length_iff {u v : List Byte} (hans : (Call.get key).answer m =
      .ok (some ((v.take maxStrLen).takeWhile (· ≠ 0))))
    (hu : u <+: encodeString (v.take maxStrLen)) (hne : u ≠ []) (hlt : u.length < 4) (hs : s ≠ []) :
    Justified m s (.get key) ((Call.get key).told u 1) ↔ ¬ (u.length = 1 ∧
      ∃ b v', v = b :: v' ∧ b ≠ 0 ∧ 256 ∣ ((b :: v').take maxStrLen).length) := by
  have hzero := heardLength (by simp) hu hne hlt
  rw [told_value key u rfl, List.drop_of_length_le hlt.le, List.take_nil, List.length_nil,
      Nat.cast_zero]
  by_cases hz : heardCode 1 u = 0
  · obtain ⟨hdvd, h1⟩ := hzero.mp hz
    have hjust : Justified m s (.get key) (.ok (some [])) ↔
        (v.take maxStrLen).takeWhile (· ≠ 0) = [] := by
      simp only [Justified, hans, reduceCtorEq, exists_const, false_or, Except.ok.injEq,
        Option.some.injEq]
      exact ⟨fun h => h.2.symm, fun h => ⟨hs, h.symm⟩⟩
    rw [hz, if_neg (by decide), List.takeWhile_nil, hjust]
    cases v with
    | nil => simp
    | cons b v =>
      have hlen : u.length = 1 := h1.resolve_right (by simp)
      have htake : (b :: v).take maxStrLen = b :: v.take 1023 := rfl
      by_cases hb : b = 0
      · refine iff_of_true ?_ ?_
        · rw [htake, List.takeWhile_cons_of_neg (by simp [hb])]
        · rintro ⟨-, b', v', h, hb', -⟩
          cases h
          exact hb' hb
      · refine iff_of_false ?_ (not_not.mpr ⟨hlen, b, v, rfl, hb, hdvd⟩)
        rw [htake, List.takeWhile_cons_of_pos (by simpa using hb)]
        exact List.cons_ne_nil _ _
  · have hint : (0 : Int) ≠ (heardCode 1 u).toInt := fun h => hz (BitVec.eq_of_toInt_eq h.symm)
    rw [if_pos hint]
    refine iff_of_true justified_error ?_
    rintro ⟨h1, b, v', rfl, -, hdvd⟩
    exact hz (hzero.mpr ⟨hdvd, Or.inl h1⟩)

theorem justified_value {l w : List Byte} (hl : l.length < 2 ^ 31) (hw : w.length < l.length) :
    Justified m s (.get key)
      ((Call.get key).told (CInt.bytes (BitVec.ofNat 32 l.length) ++ w) 1) := by
  rw [told_value key _ (heardCode_whole (List.prefix_append _ _)), List.drop_left' (by rfl),
    sizeT_length hl, toInt_length hl, List.take_of_length_le hw.le, if_pos (by omega)]
  exact justified_error

theorem heard_value_iff {v : List Byte} (hk : key.length ≤ maxStrLen) (hv : m key = some v)
    (hs : s <+: CInt.bytes 1 ++ encodeString (v.take maxStrLen))
    (hne : s ≠ CInt.bytes 1 ++ encodeString (v.take maxStrLen)) (hnil : s ≠ []) :
    Justified m s (.get key) ((Call.get key).heard s) ↔ ¬ Misled m s (.get key) := by
  by_cases h4 : s.length ≤ 4
  · exact iff_of_true (justified_code hs hnil h4) (not_or.mpr ⟨fun h => hnil h.1, fun h => by omega⟩)
  obtain ⟨u, rfl⟩ : CInt.bytes 1 <+: s :=
    List.prefix_of_prefix_length_le (List.prefix_append _ _) hs (by simp; omega)
  rw [Call.heard, heardCode_whole (List.prefix_append _ _), List.drop_left' (by rfl)]
  rw [List.prefix_append_right_inj] at hs
  have hmisled : Misled m (CInt.bytes 1 ++ u) (.get key) ↔ u.length = 1 ∧
      ∃ b v', v = b :: v' ∧ b ≠ 0 ∧ 256 ∣ ((b :: v').take maxStrLen).length := by
    rw [Misled, hv]
    simp only [List.length_append, CInt.length_bytes, List.append_eq_nil_iff, Option.some.injEq]
    constructor
    · rintro (⟨⟨h, -⟩, -⟩ | ⟨h, hb⟩)
      · cases h
      · exact ⟨by omega, hb⟩
    · rintro ⟨h, hb⟩
      exact Or.inr ⟨by omega, hb⟩
  rw [hmisled]
  by_cases h8 : u.length < 4
  · refine justified_length_iff ?_ hs ?_ h8 hnil
    · rw [Call.answer, if_neg (by omega), hv]
      rfl
    · rintro rfl
      simp at h4
  · obtain ⟨w, rfl⟩ : CInt.bytes (BitVec.ofNat 32 (v.take maxStrLen).length) <+: u :=
      List.prefix_of_prefix_length_le (List.prefix_append _ _) hs (by simp; omega)
    rw [encodeString, List.prefix_append_right_inj] at hs
    have hw : w.length < (v.take maxStrLen).length :=
      hs.length_le.lt_of_ne fun h => hne (by rw [hs.eq_of_length h, encodeString])
    refine iff_of_true (justified_value ?_ hw) fun h => ?_
    · exact (List.length_take_le _ _).trans_lt (by decide)
    · have h1 := h.1
      rw [List.length_append, CInt.length_bytes] at h1
      omega

/-- **What a broken reply says.** -/
theorem heard_iff (hn : c.lastLength < 2 ^ 31) (hs : s <+: c.reply m) (hne : s ≠ c.reply m) :
    Justified m s c (c.heard s) ↔ ¬ Misled m s c := by
  by_cases hnil : s = []
  · subst hnil
    exact heard_nil_iff hn
  have short : ∀ n < 4, c.reply m = CInt.bytes (BitVec.ofNat 32 n) →
      c.told (s.drop 4) (BitVec.ofNat 32 n) = c.answer m → (Justified m s c (c.heard s) ↔ ¬ Misled m s c) :=
    fun n hn hr ha => by
      have hlen := hs.length_le
      rw [hr, CInt.length_bytes] at hlen
      rw [hr, ← List.append_nil (CInt.bytes _)] at hs
      refine iff_of_true (justified_told hs hnil (oneByte_ofNat hn) ha) fun h => ?_
      cases c with
      | get key =>
        rcases h with h | h
        · exact hnil h.1
        · omega
      | set key value => exact hnil h.1
      | del key => exact hnil h.1
  cases c with
  | get key =>
    by_cases hk : key.length > maxStrLen
    · exact short 2 (by decide) (if_pos hk) (by rw [Call.answer, if_pos hk]; rfl)
    cases hv : m key with
    | none =>
      refine short 0 (by decide) ?_ ?_
      · rw [Call.reply, if_neg hk, hv]
        rfl
      · rw [Call.answer, if_neg hk, hv]
        rfl
    | some v =>
      have hr : (Call.get key).reply m = CInt.bytes 1 ++ encodeString (v.take maxStrLen) := by
        rw [Call.reply, if_neg hk, hv]
      rw [hr] at hs hne
      exact heard_value_iff (by omega) hv hs hne hnil
  | set key value =>
    by_cases hk : key.length > maxStrLen
    · refine short 2 (by decide) ?_ ?_
      · rw [Call.reply, if_pos hk]
        rfl
      · rw [Call.answer, if_pos hk]
        rfl
    by_cases hv : value.length > maxStrLen
    · refine short 3 (by decide) ?_ ?_
      · rw [Call.reply, if_neg hk, if_pos hv]
        rfl
      · rw [Call.answer, if_neg hk, if_pos hv]
        rfl
    · refine short 1 (by decide) ?_ ?_
      · rw [Call.reply, if_neg hk, if_neg hv]
        rfl
      · rw [Call.answer, if_neg hk, if_neg hv]
        rfl
  | del key =>
    by_cases hk : key.length > maxStrLen
    · refine short 2 (by decide) ?_ ?_
      · rw [Call.reply, if_pos hk]
        rfl
      · rw [Call.answer, if_pos hk]
        rfl
    · refine short 1 (by decide) ?_ ?_
      · rw [Call.reply, if_neg hk]
        rfl
      · rw [Call.answer, if_neg hk]
        rfl

theorem allocates_rest (hs : s <+: c.reply m) : Allocates (heardCode 1 (s.drop 4)) := by
  have short : ∀ code : CInt, c.reply m = code.bytes → Allocates (heardCode 1 (s.drop 4)) :=
    fun code h => by
    have hlen := hs.length_le
    rw [h, CInt.length_bytes] at hlen
    rw [List.drop_of_length_le hlen]
    exact allocates_heardCode (l := []) (by simp) List.nil_prefix
  cases c with
  | get key =>
    rw [Call.reply] at short hs
    split_ifs at short hs with hk
    · exact short _ rfl
    cases hv : m key with
    | none =>
      rw [hv] at short
      exact short _ rfl
    | some v =>
      rw [hv] at hs
      exact allocates_heardCode (by simp) (hs.drop 4)
  | set key value => exact short _ rfl
  | del key => exact short _ rfl

/-- **A server that vanishes.** Wherever the reply to a call breaks off, the call comes to its end.
It throws `system_error`, or returns what the whole reply would have told it although a part of it has
come only, exactly unless it is misled. -/
theorem vanishing_iff {view : List Call → KV} {l : Link Byte (List Call)}
    (hc : ∀ str ∈ c.strings, str.length < 2 ^ 31) (hs : s <+: c.reply m) (hne : s ≠ c.reply m)
    (hl : Gone s l) :
    ∃ r, Eventually (Step (linkEnv (netAct view) .client) procs) (fun x => x.1 = .pure r)
      (c.drive.run, l) ∧ (Justified m s c r ↔ ¬ Misled m s c) := by
  have hn : c.lastLength < 2 ^ 31 := by
    cases c with
    | get key => exact hc key List.mem_cons_self
    | set key value => exact hc value (List.mem_cons_of_mem _ List.mem_cons_self)
    | del key => exact hc key List.mem_cons_self
  refine ⟨c.heard s, ?_, heard_iff hn hs hne⟩
  rw [← Prog.bind_pure c.drive.run]
  refine Prog.spec.eventually_bind (driver_heard c (allocates_rest hs) hl) ?_
  rintro (e | r) l' h
  · exact .now (congrArg _ h.symm)
  · exact .now (congrArg _ h.symm)

/-- `set` with a value of one byte, when nothing of the reply comes. -/
theorem vanishing_set :
    ∃ r, Eventually (Step (linkEnv (netAct (storeAfter fun _ => none)) .client) procs)
    (fun x => x.1 = .pure r) ((Call.set [97] [98]).drive.run, ⟨fun _ => [], fun _ => true, fun _ => []⟩) ∧
      ¬ Justified (fun _ => none) [] (.set [97] [98]) r := by
  obtain ⟨r, hr, hiff⟩ := vanishing_iff (m := fun _ => none) (c := .set [97] [98]) (by decide)
    List.nil_prefix (by decide) (l := ⟨fun _ => [], fun _ => true, fun _ => []⟩) ⟨rfl, rfl⟩
  exact ⟨r, hr, fun h => hiff.mp h ⟨rfl, Or.inl rfl⟩⟩

end Justified

end MyJQL.Server
