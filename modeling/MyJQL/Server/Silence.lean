import MyJQL.Server.Lengths
import MyJQL.Server.Close

/-!
# A client whose thread never calls the store

* `NeverCalls`: a server thread, by itself on its connection, never calls the store;
* **`neverCalls_open_iff`**: on an open connection without a length `-1`, it never does if and only if no
  request is served that reaches the store;
* `Silent`: where a stream may end, if the peer closes the connection behind it;
  **`neverCalls_closed_iff`**: on a closed connection, it never does if and only if no request reaches
  the store and the stream ends at such a place.
-/

set_option linter.unusedSimpArgs false

namespace MyJQL.Server

/-- The thread never calls the store, whatever it finds in memory. -/
def NeverCalls (peer : Peer) (m : KV) (code : CInt) (stream : List Byte) : Prop :=
  Always (env peer m) procs (fun s => s.calls = []) (instanceThread code, ⟨stream, []⟩)

section Silence

variable {fails : Prop} {m : KV} {code keyLen valueLen : CInt} {s stream rest : List Byte}
  {cut : Cut} {p : Buf} {w : Wire} {r : Request}

/-! ## Open connections -/

/-- **An open connection.** -/
theorem neverCalls_open_iff (h : ∀ len ∈ lengthsOf stream, len ≠ -1) :
    NeverCalls (wholeFields fails) m code stream ↔ servedCalls stream = [] := by
  constructor
  · intro hnever
    by_contra hne
    refine hnever.not_eventually (wholeFields_le fails m) ?_
    refine eventually_servedCalls _ _ id [] (fun r hr => wholeFields_delivers fun len hl => ?_)
      fun _ _ _ => .now hne
    exact h len (mem_lengthsOf hr hl)
  · intro h0 c hc
    have hcalls : c.2.calls <+: [] ++ servedCalls stream :=
      always_servedCalls _ _ [] (wholeFields_delivers h) c hc
    rw [h0] at hcalls
    exact List.prefix_nil.mp hcalls

/-! ## Closed connections -/

/-- What `code` may hold after the end of the stream. -/
def SilentCode (code : CInt) : Prop := code ≠ 0 ∧ code ≠ 1 ∧ code ≠ 2

/-- **Where a stream may end**, if `code` is as after its last whole request. -/
def Silent (code : CInt) : Cut → Prop
  | .opcode bytes => SilentCode (code.overwrite bytes)
  | .keyLen _ _ => False
  | .key _ _ _ => False
  | .valueLen keyLen bytes => ¬ Allocates (keyLen.overwrite bytes) ∨
      keyLen.toInt ≤ maxStrLen ∧ (keyLen.overwrite bytes).toInt > maxStrLen
  | .value keyLen valueLen _ => keyLen.toInt ≤ maxStrLen ∧ valueLen.toInt > maxStrLen
  | .exit => True
  | .refused => True

/-- A request, made up or not, that calls nothing and leaves no opcode of such a request. -/
def Request.Silent : Request → Prop
  | .get _ _ => False
  | .set keyLen _ valueLen _ => keyLen.toInt ≤ maxStrLen ∧ valueLen.toInt > maxStrLen
  | .del _ _ => False
  | .other op => SilentCode op

theorem Request.Silent.call_eq (h : r.Silent) : r.call = none := by
  cases r with
  | get keyLen key => exact h.elim
  | set keyLen key valueLen value => exact (if_neg (not_lt.mpr h.1)).trans (if_pos h.2)
  | del keyLen key => exact h.elim
  | other op => rfl

theorem Request.Silent.silentCode (h : r.Silent) : SilentCode (r.code m) := by
  cases r with
  | get keyLen key => exact h.elim
  | set keyLen key valueLen value =>
    have hcode : (Request.set keyLen key valueLen value).code m = 3 :=
      (if_neg (not_lt.mpr h.1)).trans (if_pos h.2)
    rw [hcode]
    exact ⟨by decide, by decide, by decide⟩
  | del keyLen key => exact h.elim
  | other op => exact h

theorem Request.call_or_code (m : KV) (h : ¬ r.Silent) :
    r.call ≠ none ∨ ¬ SilentCode (r.code m) := by
  have two : ¬ SilentCode 2 := fun h => h.2.2 rfl
  cases r with
  | get keyLen key =>
    by_cases hlong : keyLen.toInt > maxStrLen
    · exact Or.inr (by simpa only [Request.code, if_pos hlong] using two)
    · exact Or.inl (by simp only [Request.call, if_neg hlong, ne_eq, reduceCtorEq, not_false_iff])
  | set keyLen key valueLen value =>
    by_cases hlong : keyLen.toInt > maxStrLen
    · exact Or.inr (by simpa only [Request.code, if_pos hlong] using two)
    · have hlong' : ¬ valueLen.toInt > maxStrLen := fun h' => h ⟨not_lt.mp hlong, h'⟩
      refine Or.inl ?_
      simp only [Request.call, if_neg hlong, if_neg hlong', ne_eq, reduceCtorEq, not_false_iff]
  | del keyLen key =>
    by_cases hlong : keyLen.toInt > maxStrLen
    · exact Or.inr (by simpa only [Request.code, if_pos hlong] using two)
    · exact Or.inl (by simp only [Request.call, if_neg hlong, ne_eq, reduceCtorEq, not_false_iff])
  | other op => exact Or.inr h

/-- A key that is cut is taken all the same, unless there is no memory for it. -/
theorem silent_key_cut {op : CInt} (h3 : op.byte 3 = 0)
    (hp : parseString s (.keyLen op) (.key op) = .error cut) :
    Silent code cut ↔ ∀ len key rest, ¬ TakenString (fun _ => True) op s len key rest := by
  rcases parseString_error hp with ⟨h4, rfl⟩ | ⟨h4, ⟨ha, rfl⟩ | ⟨ha, hlt, rfl⟩⟩
  · refine iff_of_false id fun h => ?_
    obtain ⟨key, hk, -⟩ := exists_string (op.overwrite s) [] (Nat.zero_le _)
    exact h _ key [] ((takenString_len h4).mpr ⟨rfl, allocates_overwrite h4 h3, hk, rfl⟩)
  · exact iff_of_true trivial fun _ _ _ => not_takenString h4 ha
  · refine iff_of_false id fun h => ?_
    obtain ⟨key, hk, hb⟩ := exists_string _ _ hlt.le
    exact h _ key [] ((takenString_bytes h4 hlt).mpr ⟨rfl, ha, hk, hb, rfl⟩)

theorem silent_value_cut (hp : parseString s (.valueLen keyLen) (.value keyLen) = .error cut) :
    Silent code cut ↔ ∀ len value rest, TakenString (fun _ => True) keyLen s len value rest →
      keyLen.toInt ≤ maxStrLen ∧ len.toInt > maxStrLen := by
  have h : Harmless (fun _ => none) code cut ↔ _ := harmless_value_cut hp
  rcases parseString_error hp with ⟨-, rfl⟩ | ⟨-, ⟨-, rfl⟩ | ⟨-, -, rfl⟩⟩ <;> exact h

theorem silent_opcode (h4 : s.length < 4) : SilentCode (code.overwrite s) ↔
    ∀ r rest, Taken (fun _ => True) code s r rest → r.Silent := by
  have htake : s.take 4 = s := List.take_of_length_le (by omega)
  have hdrop : s.drop 4 = [] := List.drop_of_length_le (by omega)
  by_cases h0 : code.overwrite s = 0
  · simp only [h0, taken_get (htake.symm ▸ h0), hdrop, takenString_nil]
    exact iff_of_false (fun h => h.1 rfl) fun h => h _ [] ⟨0, [], rfl, rfl, by decide, rfl, rfl⟩
  by_cases h1 : code.overwrite s = 1
  · simp only [h1, taken_set (htake.symm ▸ h1), hdrop, takenString_nil]
    refine iff_of_false (fun h => h.2.1 rfl) fun h => ?_
    have h' : Request.Silent (.set 1 [0] 1 [0]) := h _ [] ⟨1, [0], [], 1, [0], rfl,
      ⟨rfl, by decide, rfl, rfl⟩, takenString_nil.mpr ⟨rfl, by decide, rfl, rfl⟩⟩
    exact absurd h'.2 (by decide)
  by_cases h2 : code.overwrite s = 2
  · simp only [h2, taken_del (htake.symm ▸ h2), hdrop, takenString_nil]
    exact iff_of_false (fun h => h.2.2 rfl) fun h =>
      h _ [] ⟨2, [0, 0], rfl, rfl, by decide, rfl, rfl⟩
  by_cases h3 : code.overwrite s = 3
  · rw [h3]
    exact iff_of_true ⟨by decide, by decide, by decide⟩
      fun _ _ ht => absurd ht (not_taken_exit (htake.symm ▸ h3))
  · simp only [taken_other (htake.symm ▸ h0) (htake.symm ▸ h1) (htake.symm ▸ h2)
      (htake.symm ▸ h3), htake]
    refine iff_of_true ⟨h0, h1, h2⟩ ?_
    rintro _ _ ⟨rfl, -⟩
    exact ⟨h0, h1, h2⟩

/-- **The places where a stream may end** are those where nothing can be made up that calls the
store. -/
theorem silent_iff (h : parse s = .error cut) : Silent code cut ↔
    ∀ r rest, Taken (fun _ => True) code s r rest → r.Silent := by
  rcases parse_error h with ⟨h4, rfl⟩ | ⟨h4, h⟩
  · exact silent_opcode h4
  have hcode : code.overwrite (s.take 4) = CInt.overwrite 0 (s.take 4) :=
    CInt.overwrite_eq code 0 (by simp [h4])
  rw [← hcode] at h
  rcases h with ⟨hop, hp⟩ | ⟨hop, hp⟩ | ⟨hop, keyLen, key, t, hp, hq⟩ | ⟨hop, hp⟩ | ⟨hop, rfl⟩
  · rw [silent_key_cut rfl hp]
    simp only [taken_get hop]
    refine ⟨?_, fun h len key rest ht => h _ rest ⟨len, key, rfl, ht⟩⟩
    rintro h _ rest ⟨len, key, rfl, ht⟩
    exact absurd ht (h len key rest)
  · rw [silent_key_cut rfl hp]
    simp only [taken_set hop]
    refine ⟨?_, fun h len key rest ht => ?_⟩
    · rintro h _ _ ⟨len, key, t, _, _, rfl, ht, -⟩
      exact absurd ht (h len key t)
    · obtain rfl := ht.rest_nil hp
      obtain ⟨value, hv, -⟩ := exists_string len [] (Nat.zero_le _)
      have h' : Request.Silent (.set len key len value) := h _ [] ⟨len, key, [], len, value, rfl, ht,
        takenString_nil.mpr ⟨rfl, ht.allocates, hv, rfl⟩⟩
      exact absurd h'.1 (not_le.mpr h'.2)
  · rw [silent_value_cut hq]
    simp only [taken_set hop]
    refine ⟨?_, fun h len value rest ht => h _ rest
      ⟨keyLen, key, t, len, value, rfl, (takenString_whole hp).mpr ⟨rfl, rfl, rfl⟩, ht⟩⟩
    rintro h _ rest ⟨_, _, _, len, value, rfl, ht, ht'⟩
    obtain ⟨rfl, rfl, rfl⟩ := (takenString_whole hp).mp ht
    exact h len value rest ht'
  · rw [silent_key_cut rfl hp]
    simp only [taken_del hop]
    refine ⟨?_, fun h len key rest ht => h _ rest ⟨len, key, rfl, ht⟩⟩
    rintro h _ rest ⟨len, key, rfl, ht⟩
    exact absurd ht (h len key rest)
  · exact iff_of_true trivial fun _ _ ht => absurd ht (not_taken_exit hop)

/-- Whether a request is silent is told by its opcode and its lengths. -/
theorem exists_taken_silent {mem : Buf → Prop} {r' : Request} {rest' : List Byte}
    (ht : Taken (fun _ => True) code s r rest) (ht' : Taken mem code s r' rest') :
    r'.Silent ↔ r.Silent := by
  cases ht with
  | get hop hkey =>
    obtain ⟨_, _, rfl, -⟩ := (taken_get hop).mp ht'
    rfl
  | set hop hkey hvalue =>
    obtain ⟨len, key, t, len', value, rfl, hs, hs'⟩ := (taken_set hop).mp ht'
    obtain rfl : t = _ := hs.rest_eq.trans (by rw [hs.len_eq, ← hkey.len_eq, ← hkey.rest_eq])
    change _ ∧ _ ↔ _ ∧ _
    rw [hs'.len_eq, hs.len_eq, ← hkey.len_eq, ← hvalue.len_eq]
  | del hop hkey =>
    obtain ⟨_, _, rfl, -⟩ := (taken_del hop).mp ht'
    rfl
  | other hop h0 h1 h2 h3 =>
    subst hop
    obtain ⟨rfl, -⟩ := (taken_other h0 h1 h2 h3).mp ht'
    rfl

/-! ## Runs -/

theorem always_silent (hp : parse w.incoming = .error cut) (hw : w.calls = [])
    (h : Silent code cut) :
    Always (env (closed fails) m) procs (fun s => s.calls = []) (instanceThread code, w) := by
  refine always_loop False (fun (code : CInt) (s' : Wire) => s'.calls = [] ∧
    ∃ cut, parse s'.incoming = .error cut ∧ Silent code cut)
    instanceThreadRound .instanceThread (fun _ => rfl) ?_ ⟨hw, cut, hp, h⟩ hw
  rintro code s' ⟨hI, cut, hp, h⟩
  have hr := (silent_iff hp).mp h
  refine Prog.spec.mono (spec_round_closing fails m False (P := fun calls => calls = []) hI
    (fun r rest ht => ?_) fun h => h.elim) ?_
  · rw [(hr r rest ht).call_eq, hI]
    rfl
  · rintro res s'' (⟨r, rest, code', ht, rfl, rfl, rfl⟩ | ⟨⟨i, rfl⟩, hP, -⟩)
    · obtain rfl := ht.rest_nil hp
      have hcalls : s'.calls ++ r.call.toList = [] := by
        rw [(hr r [] ht).call_eq, hI]
        rfl
      refine ⟨hcalls, fun y hy => ⟨hcalls, .opcode [], rfl, ?_⟩⟩
      cases hy
      change SilentCode (CInt.overwrite _ [])
      rw [CInt.overwrite_nil]
      exact (hr r [] ht).silentCode
    · exact ⟨hP, fun y hy => by cases hy⟩

/-- The thread has called the store. -/
abbrev Called (x : Net Int × Wire) : Prop := x.2.calls ≠ []

theorem eventually_called_nil (hs : w.incoming = []) (hcode : ¬ SilentCode code) :
    Eventually (Step (env (closedAt p) m) procs) Called (instanceThread code, w) := by
  have hcode' : code = 0 ∨ code = 1 ∨ code = 2 := by
    by_contra hn
    push Not at hn
    exact hcode hn
  have h3 : code.byte 3 = 0 ∧ code ≠ 3 := by
    rcases hcode' with rfl | rfl | rfl <;> exact ⟨rfl, by decide⟩
  have hop : code.overwrite (List.take 4 []) = code := code.overwrite_nil
  refine eventually_taken_nil hs h3.1 h3.2 fun r rest ht => .now ?_
  change w.calls ++ r.call.toList ≠ []
  suffices hcall : r.call ≠ none by
    cases hc : r.call with
    | none => exact absurd hc hcall
    | some call => simp
  rcases hcode' with rfl | rfl | rfl
  · obtain ⟨len, key, rfl, hk⟩ := (taken_get hop).mp ht
    obtain ⟨rfl, -, -⟩ := hk.of_nil
    simp [Request.call, maxStrLen]
  · obtain ⟨len, key, t, len', value, rfl, hk, hv⟩ := (taken_set hop).mp ht
    obtain ⟨rfl, rfl, -⟩ := hk.of_nil
    obtain ⟨rfl, -, -⟩ := hv.of_nil
    exact fun h => by cases h
  · obtain ⟨len, key, rfl, hk⟩ := (taken_del hop).mp ht
    obtain ⟨rfl, -, -⟩ := hk.of_nil
    exact fun h => by cases h

/-- **Where the stream does not end in a silent place**, a call is made up. -/
theorem eventually_called (hp : parse w.incoming = .error cut) (h : ¬ Silent code cut) :
    Eventually (Step (env (closedAt p) m) procs) Called (instanceThread code, w) := by
  rw [silent_iff hp] at h
  push Not at h
  obtain ⟨r, rest, ht, hr⟩ := h
  have hne : code.overwrite (w.incoming.take 4) ≠ 3 := fun h3 => not_taken_exit h3 ht
  refine eventually_taken ht.allocates hne fun r' rest' ht' => ?_
  obtain rfl := ht'.rest_nil hp
  rcases Request.call_or_code (storeAfter m w.calls)
    (fun h => hr ((exists_taken_silent ht ht').mp h)) with hc | hc
  · refine .now ?_
    change w.calls ++ r'.call.toList ≠ []
    cases hcall : r'.call with
    | none => exact absurd hcall hc
    | some call => simp
  · exact eventually_called_nil rfl hc

/-- **One round** of such a thread. -/
theorem neverCalls_closed_round (hp : parse stream = .ok (r, rest)) :
    NeverCalls (closed fails) m code stream ↔ r.call = none ∧ NeverCalls (closed fails) m (r.code m) rest := by
  have hw : ∀ n ∈ r.sizes, (closed fails).Whole n := fun n _ => closing_whole n
  constructor
  · intro hnever
    -- a run of the first round
    obtain ⟨c, hc, rfl⟩ : ∃ c, Steps (env (closedAt fun _ => 0) m) procs
        (instanceThread code, ⟨stream, []⟩) c ∧
        c = (instanceThread (r.code m), ⟨rest, r.call.toList⟩) := by
      refine Eventually.exists_run (eventually_round (spec_round m code (s := ⟨stream, []⟩)
        (P := fun _ => True) trivial hp (fun n _ => closing_whole n)
        (fun _ => closing_completes r rest) fun _ => trivial) ?_ ?_)
      · rintro i s' (⟨_, hi, -⟩ | ⟨hf, -⟩)
        · cases hi
        · exact hf.elim
      · rintro code' s' (⟨_, hi, -, rfl, rfl⟩ | ⟨-, hi, -⟩)
        · cases hi
          exact .now rfl
        · cases hi
    have hc' := Steps.mono (closedAt_le (fun _ => 0) fails m) hc
    have hcall : r.call.toList = [] := hnever _ hc'
    refine ⟨Option.toList_eq_nil_iff.mp hcall, fun d hd => hnever d (hc'.trans ?_)⟩
    rwa [hcall]
  · rintro ⟨hcall, hnever⟩
    refine always_round rfl (spec_round m code (s := ⟨stream, []⟩)
      (P := fun calls => calls = []) rfl hp hw (fun h : False => h.elim) fun _ => ?_) ?_ ?_
    · rw [hcall]
      rfl
    · rintro i s' (⟨_, hi, -⟩ | ⟨-, -, hP⟩)
      · cases hi
      · exact hP
    · rintro code' s' (⟨_, hi, -, rfl, rfl⟩ | ⟨-, hi, -⟩)
      · cases hi
        rw [hcall]
        exact hnever
      · cases hi

/-- **A closed connection.** -/
theorem neverCalls_closed_iff : NeverCalls (closed fails) m code stream ↔
    callsOf stream = [] ∧ Silent (codeAfter m code (requests stream).1) (requests stream).2 := by
  induction hn : stream.length using Nat.strong_induction_on generalizing stream code with
  | _ n ih =>
    subst hn
    cases hp : parse stream with
    | error cut =>
      simp only [callsOf, requests_error hp, List.filterMap_nil, codeAfter, true_and]
      refine ⟨fun hnever => ?_, fun h => always_silent (w := ⟨stream, []⟩) hp rfl h⟩
      by_contra h
      exact hnever.not_eventually (closedAt_le (fun _ => 0) fails m)
        (eventually_called (w := ⟨stream, []⟩) hp h)
    | ok x =>
      obtain ⟨r, rest⟩ := x
      rw [neverCalls_closed_round hp, ih _ (parse_length hp) rfl]
      simp only [callsOf, requests_ok hp, codeAfter]
      cases hc : r.call with
      | none => simp [List.filterMap_cons, hc, storeAfter]
      | some call => simp [List.filterMap_cons, hc]

end Silence

end MyJQL.Server
