import MyJQL.Server.Run

/-!
# The lengths a peer may send

* `wholeFields`: an open connection that delivers whole fields; a `recv` for a negative number of
  bytes returns what there is;
* `lengthsOf`: the length fields of a stream;
* **`lengths_checked`**: the store is called with short strings only, and only for the requests of
  the stream, as long as no length field is `-1`; where the last one is, it is called with a string
  of length `2 ^ 64 - 1`.
-/

set_option linter.unusedSimpArgs false

namespace MyJQL.Server

/-! ## The connection -/

/-- An open connection that delivers whole fields. -/
def wholeFields (fails : Prop) : Peer where
  deliver n avail k := if n < 2 ^ 31 then k = n ∧ n ≤ avail ∧ 0 < avail else 1 ≤ k ∧ k ≤ avail
  sendFails := fails
  memory _ := True
  found := exists_buf

theorem wholeFields_reliable {fails : Prop} {n : ℕ} (h : n < 2 ^ 31) :
    (wholeFields fails).Reliable n := fun _ _ => iff_of_eq (if_pos h)

theorem wholeFields_any {fails : Prop} {n avail k : ℕ} (h : ¬ n < 2 ^ 31) :
    (wholeFields fails).deliver n avail k ↔ 1 ≤ k ∧ k ≤ avail := iff_of_eq (if_neg h)

theorem wholeFields_le (fails : Prop) (m : KV) :
    Env.Le (env (wholeFields False) m) (env (wholeFields fails) m) := by
  intro β e s b s' h
  cases e with
  | send data => exact ⟨h.1, Or.inl (h.2.resolve_right fun h => h.1)⟩
  | _ => exact h

/-! ## Length fields -/

/-- A call with short strings. -/
def Call.Short (call : Call) : Prop := ∀ str ∈ call.strings, str.length ≤ maxStrLen

section Lengths

variable {len : CInt} {s rest str : List Byte} {lc : List Byte → Cut} {c : CInt → List Byte → Cut}
  {r : Request} {cut : Cut}

theorem sizeT_lt (h : Allocates len) (hne : len ≠ -1) : len.sizeT < 2 ^ 31 := by
  have hs := len.sizeT_eq
  have hne' : len.toInt ≠ -1 := fun h => hne (BitVec.eq_of_toInt_eq h)
  rw [allocates_iff] at h
  have := len.toInt_lt
  split_ifs at hs <;> omega

theorem parseString_short (h : parseString s lc c = .ok (len, str, rest)) (hne : len ≠ -1)
    (hle : ¬ len.toInt > maxStrLen) : str.length ≤ maxStrLen := by
  obtain ⟨-, -, ha, hfit, rfl, -⟩ := parseString_ok h
  have hlt := sizeT_lt ha hne
  have hs := len.sizeT_eq
  have hmin := len.le_toInt
  simp only [maxStrLen] at hle ⊢
  rw [List.length_take_of_le hfit]
  split_ifs at hs <;> omega

theorem parse_short (h : parse s = .ok (r, rest)) (hne : ∀ len ∈ r.lengths, len ≠ -1) :
    ∀ call, r.call = some call → call.Short := by
  intro call hc
  obtain ⟨-, ⟨keyLen, key, -, rfl, hp⟩ | ⟨keyLen, key, t, valueLen, value, -, rfl, hp, hq⟩ |
    ⟨keyLen, key, -, rfl, hp⟩ | ⟨op, -, -, -, -, -, rfl, -⟩⟩ := parse_ok h
  · simp only [Request.call] at hc
    split_ifs at hc with hle
    cases hc
    simpa [Call.Short, Call.strings] using parseString_short hp (hne _ (by simp [Request.lengths])) hle
  · simp only [Request.call] at hc
    split_ifs at hc with hle hle'
    cases hc
    simpa [Call.Short, Call.strings] using
      ⟨parseString_short hp (hne _ (by simp [Request.lengths])) hle,
        parseString_short hq (hne _ (by simp [Request.lengths])) hle'⟩
  · simp only [Request.call] at hc
    split_ifs at hc with hle
    cases hc
    simpa [Call.Short, Call.strings] using parseString_short hp (hne _ (by simp [Request.lengths])) hle
  · cases hc

theorem callsOf_short (h : ∀ len ∈ lengthsOf s, len ≠ -1) : ∀ call ∈ callsOf s, call.Short := by
  induction hn : s.length using Nat.strong_induction_on generalizing s with
  | _ n ih =>
    subst hn
    cases hp : parse s with
    | error cut =>
      rw [callsOf, requests_error hp]
      exact fun _ hc => absurd hc List.not_mem_nil
    | ok x =>
      obtain ⟨r, rest⟩ := x
      rw [lengthsOf_ok hp, firstLengths_ok hp] at h
      intro call hc
      rw [← List.nil_append (callsOf s), append_callsOf hp, List.nil_append, List.mem_append,
        Option.mem_toList] at hc
      rcases hc with hc | hc
      · exact parse_short hp (fun len hl => h len (List.mem_append_left _ hl)) call hc
      · exact ih _ (parse_length hp) (fun len hl => h len (List.mem_append_right _ hl)) rfl call hc

end Lengths

/-! ## One round -/

section Round

variable {fails : Prop} {m : KV} {P : List Call → Prop} {s : Wire} {code : CInt} {cut : Cut}
  {T : Int → Wire → Prop}

/-- A `recv` into a string of length `-1`, of which some bytes have come. -/
theorem espec_recvString_overrun {Q : Buf → Wire → Prop} {live : Prop} (hP : P s.calls)
    (hne : s.incoming ≠ [])
    (h : ∀ (p : Buf) s', s'.calls = s.calls → Q p s') :
    espec (env (wholeFields fails) m) live (fun s => P s.calls) (recvString (-1)) Q T s := by
  have hlen : 1 ≤ s.incoming.length := List.length_pos_iff.mpr hne
  refine espec_recvString hP (by decide) (fun _ => ⟨1, ?_⟩) fun k p _ _ => h _ _ rfl
  exact (wholeFields_any (by decide)).mpr ⟨le_rfl, hlen⟩

/-- A stream that ends in the last string of its request, of length `-1`. -/
def Overrun : Cut → Prop
  | .key op len bytes => op ≠ 1 ∧ len = -1 ∧ bytes ≠ []
  | .value keyLen len bytes => keyLen ≠ -1 ∧ keyLen.toInt ≤ maxStrLen ∧ len = -1 ∧ bytes ≠ []
  | _ => False

theorem not_short (call : Call) (p : Buf) (h : p.read (CInt.sizeT (-1)) ∈ call.strings) :
    ¬ call.Short := by
  intro hs
  have hlen := hs _ h
  rw [Buf.read, length_tabulate] at hlen
  exact absurd hlen (by decide)

theorem espec_string_overrun {α : Type} {Q : α → Wire → Prop} {g : CInt → Buf → ExceptT Int Net α}
    (h4 : 4 ≤ s.incoming.length) (hlen : CInt.overwrite 0 (s.incoming.take 4) = -1)
    (hne : s.incoming.drop 4 ≠ []) (h : ∀ (p : Buf) s', s'.calls = s.calls →
      espec (env (wholeFields fails) m) True (fun _ => True) (g (-1) p) Q T s') :
    espec (env (wholeFields fails) m) True (fun _ => True) (do
      let code ← recvCode code
      let p ← recvString code
      g code p) Q T s := by
  refine espec_bind (espec_recvCode_whole (P := fun _ => True) trivial
    (wholeFields_reliable (by decide)).whole h4 ?_)
  rw [hlen]
  exact espec_bind (espec_recvString_overrun (P := fun _ => True) trivial hne h)

theorem Request.Done.not_short {r : Request} {call : Call} {rest : List Byte} {s' : Wire}
    (h : r.Done m s rest code s') (hc : r.call = some call) (hs : ¬ call.Short) :
    ∃ call ∈ s'.calls, ¬ call.Short := by
  obtain ⟨-, rfl⟩ := h
  rw [hc]
  exact ⟨call, by simp, hs⟩

theorem overrun_cases (hp : parse s.incoming = .error cut) (h : Overrun cut) :
    4 ≤ s.incoming.length ∧ 4 ≤ (s.incoming.drop 4).length ∧
    (((CInt.overwrite 0 (s.incoming.take 4) = 0 ∨ CInt.overwrite 0 (s.incoming.take 4) = 2) ∧
        CInt.overwrite 0 ((s.incoming.drop 4).take 4) = -1 ∧ (s.incoming.drop 4).drop 4 ≠ []) ∨
      (CInt.overwrite 0 (s.incoming.take 4) = 1 ∧ ∃ keyLen key t,
        parseString (s.incoming.drop 4) (.keyLen 1) (.key 1) = .ok (keyLen, key, t) ∧
        keyLen ≠ -1 ∧ keyLen.toInt ≤ maxStrLen ∧ 4 ≤ t.length ∧
        CInt.overwrite 0 (t.take 4) = -1 ∧ t.drop 4 ≠ [])) := by
  rcases parse_error hp with ⟨h4, rfl⟩ | ⟨h4, ⟨hop, hq⟩ | ⟨hop, hq⟩ | ⟨hop, keyLen, key, t, hq, hr⟩ |
    ⟨hop, hq⟩ | ⟨hop, rfl⟩⟩
  · exact h.elim
  · rcases parseString_error hq with ⟨-, rfl⟩ | ⟨h4', ⟨-, rfl⟩ | ⟨-, -, rfl⟩⟩
    · exact h.elim
    · exact h.elim
    · exact ⟨h4, h4', Or.inl ⟨Or.inl hop, h.2⟩⟩
  · rcases parseString_error hq with ⟨-, rfl⟩ | ⟨h4', ⟨-, rfl⟩ | ⟨-, -, rfl⟩⟩
    · exact h.elim
    · exact h.elim
    · exact absurd rfl h.1
  · have h4' := (parseString_ok hq).1
    rcases parseString_error hr with ⟨-, rfl⟩ | ⟨h4'', ⟨-, rfl⟩ | ⟨-, -, rfl⟩⟩
    · exact h.elim
    · exact h.elim
    · exact ⟨h4, h4', Or.inr ⟨hop, keyLen, key, t, hq, h.1, h.2.1, h4'', h.2.2⟩⟩
  · rcases parseString_error hq with ⟨-, rfl⟩ | ⟨h4', ⟨-, rfl⟩ | ⟨-, -, rfl⟩⟩
    · exact h.elim
    · exact h.elim
    · exact ⟨h4, h4', Or.inl ⟨Or.inr hop, h.2⟩⟩
  · exact h.elim

/-- **One round** at such an end of the stream. -/
theorem spec_round_overrun (hp : parse s.incoming = .error cut) (h : Overrun cut) :
    (instanceThreadRound code).spec (env (wholeFields False) m) True (fun _ => True)
      (fun res s' => (∃ code', res = .inr code') ∧ ∃ call ∈ s'.calls, ¬ call.Short) s := by
  have h4' : (wholeFields False).Whole 4 := (wholeFields_reliable (by decide)).whole
  have hcheck : ¬ (-1 : CInt).toInt > maxStrLen := by decide
  have hf : ¬ (wholeFields False).sendFails := id
  obtain ⟨h4, h4'', hcases⟩ := overrun_cases hp h
  refine spec_instanceThreadRound (espec_bind (espec_recvCode_whole (P := fun _ => True) trivial
    h4' h4 ?_))
  rcases hcases with ⟨hop | hop, hlen, hne⟩ | ⟨hop, keyLen, key, t, hq, hk, hle, ht, hlen, hne⟩
  · rw [hop]
    refine espec_ite (fun _ => espec_bind ?_) fun h => absurd rfl h
    refine espec_string_overrun h4'' hlen hne fun p s' _ => ?_
    have hs := not_short (.get (p.read (CInt.sizeT (-1)))) p (List.mem_singleton_self _)
    have hcall : (Request.get (-1) (p.read (CInt.sizeT (-1)))).call =
        some (.get (p.read (CInt.sizeT (-1)))) := by
      rw [Request.call, if_neg hcheck]
    exact (espec_getReply (P := fun _ => True) trivial rfl trivial fun h => absurd h hf).mono
      (fun x s'' h => espec_pure ⟨⟨x, rfl⟩, h.not_short hcall hs⟩) fun _ _ h => h
  · rw [hop]
    refine espec_ite (fun h => absurd h (by decide)) fun _ => ?_
    refine espec_ite (fun h => absurd h (by decide)) fun _ => ?_
    refine espec_ite (fun _ => espec_bind ?_) fun h => absurd rfl h
    refine espec_string_overrun h4'' hlen hne fun p s' _ => ?_
    have hs := not_short (.del (p.read (CInt.sizeT (-1)))) p (List.mem_singleton_self _)
    have hcall : (Request.del (-1) (p.read (CInt.sizeT (-1)))).call =
        some (.del (p.read (CInt.sizeT (-1)))) := by
      rw [Request.call, if_neg hcheck]
    exact (espec_delReply (P := fun _ => True) trivial rfl trivial fun h => absurd h hf).mono
      (fun x s'' h => espec_pure ⟨⟨x, rfl⟩, h.not_short hcall hs⟩) fun _ _ h => h
  · rw [hop]
    refine espec_ite (fun h => absurd h (by decide)) fun _ => ?_
    refine espec_ite (fun _ => espec_bind ?_) fun h => absurd rfl h
    have hsize := sizeT_lt (parseString_ok hq).2.2.1 hk
    have ht' : t ≠ [] := List.ne_nil_of_length_pos (by omega)
    refine espec_recvString_whole (P := fun _ => True) trivial hq h4'
      (wholeFields_reliable hsize).whole (fun _ _ h => absurd h ht') fun _ p _ => ?_
    refine espec_string_overrun (s := ⟨t, s.calls⟩) ht hlen hne fun p' s' _ => ?_
    have hs := not_short (.set (p.read keyLen.sizeT) (p'.read (CInt.sizeT (-1)))) p'
      (List.mem_cons_of_mem _ (List.mem_singleton_self _))
    have hcall : (Request.set keyLen (p.read keyLen.sizeT) (-1) (p'.read (CInt.sizeT (-1)))).call =
        some (.set (p.read keyLen.sizeT) (p'.read (CInt.sizeT (-1)))) := by
      rw [Request.call, if_neg (not_lt.mpr hle), if_neg hcheck]
    exact (espec_setReply (P := fun _ => True) trivial rfl rfl trivial fun h => absurd h hf).mono
      (fun x s'' h => espec_pure ⟨⟨x, rfl⟩, h.not_short hcall hs⟩) fun _ _ h => h

end Round

/-! ## Runs -/

section Runs

variable {fails : Prop} {m : KV} {code : CInt} {stream : List Byte}

/-- Only the requests of the stream, and only short strings. -/
def Checked (stream : List Byte) (calls : List Call) : Prop :=
  calls <+: callsOf stream ∧ ∀ call ∈ calls, call.Short

theorem wholeFields_delivers {lengths : List CInt} (h : ∀ len ∈ lengths, len ≠ -1) :
    (wholeFields fails).Delivers lengths :=
  ⟨wholeFields_reliable (by decide), fun len hl ha => wholeFields_reliable (sizeT_lt ha (h len hl))⟩

/-- **A stream that ends in the length `-1`.** -/
theorem eventually_overrun (h : ∀ r ∈ (requests stream).1, ∀ len ∈ r.lengths, len ≠ -1)
    (hcut : Overrun (requests stream).2) :
    Eventually (Step (env (wholeFields False) m) procs) (fun c => ∃ call ∈ c.2.calls, ¬ call.Short)
      (instanceThread code, ⟨stream, []⟩) := by
  refine eventually_servedCalls _ _ id [] (fun r hr => wholeFields_delivers (h r hr)) ?_
  rintro code rest (hp | hnil)
  · refine eventually_round (spec_round_overrun (s := ⟨rest, _⟩) hp hcut) ?_ ?_
    · rintro i s' ⟨⟨_, hi⟩, -⟩
      cases hi
    · exact fun code' s' h => .now h.2
  · rw [hnil] at hcut
    exact hcut.elim

end Runs

/-- **Length checks.** Let a peer send any stream of bytes. If no length field of it is `-1`, the
thread calls the store for the requests of the stream whose lengths are in range, with their
strings, and for no others; if `-1` is the length of the last string of its last request, and the
others of that request are in range, the thread calls the store with a string of length `2 ^ 64 -
1`. -/
theorem lengths_checked (fails : Prop) (m : KV) (code : CInt) (stream : List Byte) :
    ((∀ len ∈ lengthsOf stream, len ≠ -1) → Always (env (wholeFields fails) m) procs
      (fun s => Checked stream s.calls) (instanceThread code, ⟨stream, []⟩)) ∧
    ((∀ r ∈ (requests stream).1, ∀ len ∈ r.lengths, len ≠ -1) → Overrun (requests stream).2 →
      ¬ Always (env (wholeFields fails) m) procs (fun s => Checked stream s.calls)
        (instanceThread code, ⟨stream, []⟩)) := by
  refine ⟨fun h c hc => ?_, fun h hcut ha => ?_⟩
  · have hcalls := always_requests [] (wholeFields_delivers h) c hc
    exact ⟨hcalls, fun call hmem => callsOf_short h call (hcalls.subset hmem)⟩
  refine ha.not_eventually (wholeFields_le fails m) ((eventually_overrun h hcut).mono ?_)
  rintro c ⟨call, hmem, hshort⟩ hc
  exact hshort (hc.2 call hmem)

theorem requests_get_negative : requests (CInt.bytes 0 ++ (CInt.bytes (-1) ++ [97])) =
    ([], .key 0 (-1) [97]) := by
  refine requests_error ?_
  simp only [parse, take_bytes, drop_bytes, CInt.overwrite_bytes]
  rw [if_neg (by simp), if_pos trivial, parseString]
  simp only [take_bytes, drop_bytes, CInt.overwrite_bytes]
  rw [if_neg (by simp), if_neg (by decide), if_pos (by decide)]
  rfl

/-- A stream that asks for the value of one key. -/
theorem lengths_checked_get : Always (env (wholeFields True) fun _ => none) procs
    (fun s => Checked (Call.encode (.get [107])) s.calls)
    (instanceThread 0, ⟨Call.encode (.get [107]), []⟩) := by
  refine (lengths_checked True (fun _ => none) 0 (Call.encode (.get [107]))).1 ?_
  have hp : parse (Call.encode (.get [107]) ++ []) = .ok (Call.request (.get [107]), []) :=
    parse_encode (by decide)
  rw [List.append_nil] at hp
  have hnil : parse [] = .error (.opcode []) := rfl
  rw [lengthsOf_ok hp, firstLengths_ok hp, lengthsOf_error hnil]
  intro len h
  have h' : len = 1 := by simpa [Call.request, Request.lengths, firstLengths, lengthAt] using h
  rw [h']
  decide

/-- **A key of length `-1`** is looked up. -/
theorem not_checked_negative : ¬ Always (env (wholeFields False) fun _ => none) procs
    (fun s => ∀ call ∈ s.calls, call.Short)
    (instanceThread 0, ⟨CInt.bytes 0 ++ (CInt.bytes (-1) ++ [97]), []⟩) := by
  intro ha
  refine ha.not_eventually (fun _ _ _ _ _ h => h) ((eventually_overrun ?_ ?_).mono ?_)
  · rw [requests_get_negative]
    exact fun _ h => absurd h List.not_mem_nil
  · rw [requests_get_negative]
    exact ⟨by decide, rfl, by decide⟩
  · rintro c ⟨call, hmem, hshort⟩ hc
    exact hshort (hc call hmem)

end MyJQL.Server
