import MyJQL.Server.Run

/-!
# Segmentation of the stream

* `segmented P`: a connection on which `recv` for `n` bytes returns `k` of the next ones, for any
  `k` with `P n k`;
* `Exact P calls`: whatever the connection does, `InstanceThread` performs exactly the `calls` it is
  sent, in that order;
* `exact_iff_whole`: where no field is cut, it does unless the last field is empty;
* `Exact.whole`: it does only where no field is cut. The runs are those on which as few bytes come
  as may (`shortest`); the bytes that have come are counted (`length_le_of_performs`);
* **`segmentation_exact`**: both together.
-/

set_option linter.unusedSimpArgs false

namespace MyJQL.Server

/-- A connection that delivers `k` bytes to a `recv` for `n` of them, if `P n k` and they have
come. A `recv` for none waits for a byte. -/
def segmented (P : ℕ → ℕ → Prop) : Peer where
  deliver n avail k := if n = 0 then k = 0 ∧ 0 < avail else P n k ∧ k ≤ avail
  sendFails := False
  memory _ := True
  found := exists_buf

/-- Any number of bytes from one to `n`. -/
def anySegment (n k : ℕ) : Prop := 1 ≤ k ∧ k ≤ n

/-- A thread, and the requests sent to it. -/
def Serving (code : CInt) (calls : List Call) : Net Int × Wire :=
  (instanceThread code, ⟨calls.flatMap Call.encode, []⟩)

/-- **Exactly the calls** that are sent are performed, in that order: no other, and all of them,
whatever `code` and the memory are found to hold. -/
def Exact (P : ℕ → ℕ → Prop) (calls : List Call) : Prop :=
  ∀ code m, Always (env (segmented P) m) procs (fun s => s.calls <+: calls) (Serving code calls) ∧
    Eventually (Step (env (segmented P) m) procs) (fun c => c.2.calls = calls) (Serving code calls)

variable {P : ℕ → ℕ → Prop} {calls : List Call} {m : KV} {code : CInt}

theorem segmented_pos {n avail k : ℕ} (hn : n ≠ 0) :
    (segmented P).deliver n avail k ↔ P n k ∧ k ≤ avail := iff_of_eq (if_neg hn)

theorem segmented_zero {avail k : ℕ} : (segmented P).deliver 0 avail k ↔ k = 0 ∧ 0 < avail := by
  simp [segmented]

theorem reliable_segmented {n : ℕ} (h : n ≠ 0 → ∀ k, P n k ↔ k = n) : (segmented P).Reliable n := by
  intro avail k
  rcases eq_or_ne n 0 with rfl | hn
  · rw [segmented_zero]
    simp
  · rw [segmented_pos hn, h hn k]
    constructor
    · rintro ⟨rfl, hle⟩
      exact ⟨rfl, hle, by omega⟩
    · rintro ⟨rfl, hle, -⟩
      exact ⟨rfl, hle⟩

/-! ## Whole fields -/

theorem spec_round_nil (hP : ∀ n k, P n k → 1 ≤ k) {s : Wire} {I : Wire → Prop} (hI : I s)
    (hs : s.incoming = []) {Q : Int ⊕ CInt → Wire → Prop} :
    (instanceThreadRound code).spec (env (segmented P) m) False I Q s := by
  refine Prog.spec.seq (R := fun _ _ => False) ?_ fun _ _ h => h.elim
  refine Prog.spec.mono (?_ : espec _ _ _ (round code) (fun _ _ => False) (fun _ _ => False) s) ?_
  · refine espec_bind (espec_recvCode hI (fun h => h.elim) fun k hk => ?_)
    obtain ⟨hk, hle⟩ := (segmented_pos (by decide)).mp hk
    have h1 := hP 4 k hk
    rw [hs, List.length_nil] at hle
    omega
  · rintro (e | a) s' h <;> exact h

theorem exact_nil (hP : ∀ n k, P n k → 1 ≤ k) : Exact P [] := by
  refine fun code m => ⟨?_, .now rfl⟩
  have hround : (instanceThreadRound code).spec (env (segmented P) m) False
      (fun s => s.calls <+: []) (fun _ _ => False) ⟨[], []⟩ :=
    spec_round_nil hP (List.prefix_refl []) rfl
  exact always_round (List.prefix_refl []) hround (fun _ _ h => h.elim) fun _ _ h => h.elim

/-- **Where no field is cut**, the calls that are served are performed. -/
theorem exact_iff_whole (hP : ∀ n k, P n k → 1 ≤ k)
    (hshort : ∀ call ∈ calls, ∀ str ∈ call.strings, str.length ≤ maxStrLen)
    (hw : ∀ call ∈ calls, ∀ n ∈ call.request.sizes, n ≠ 0 → ∀ k, P n k ↔ k = n) :
    Exact P calls ↔ ¬ EndsEmpty calls := by
  rcases eq_or_ne calls [] with rfl | hne
  · exact iff_of_true (exact_nil hP) (by simp [EndsEmpty])
  obtain ⟨c₀, hc₀⟩ := List.exists_mem_of_ne_nil _ hne
  have h4 : (segmented P).Reliable 4 := reliable_segmented (hw c₀ hc₀ 4 List.mem_cons_self)
  have hd : ∀ call ∈ calls, (segmented P).Delivers call.request.lengths := fun call hc =>
    ⟨h4, fun len hlen _ => reliable_segmented (hw call hc _
      (List.mem_cons_of_mem _ (List.mem_map_of_mem hlen)))⟩
  have hd' : (segmented P).Delivers (lengthsOf (calls.flatMap Call.encode)) := by
    rw [lengthsOf_encode hshort]
    refine ⟨h4, fun len hlen => ?_⟩
    obtain ⟨call, hc, hlen⟩ := List.mem_flatMap.mp hlen
    exact (hd call hc).string len hlen
  have hreq : (requests (calls.flatMap Call.encode)).1 = calls.map Call.request := by
    have hnil : requests [] = ([], .opcode []) := requests_error rfl
    have he : requests (calls.flatMap Call.encode ++ []) = _ :=
      requests_encode fun call hc => strings_lt (hshort call hc)
    rw [List.append_nil, hnil, List.append_nil] at he
    rw [he]
  have hcalls : callsOf (calls.flatMap Call.encode) = calls := callsOf_encode hshort
  have halways := fun m code => always_servedCalls m code [] hd'
  have hev := fun m code => eventually_servedCalls m code
    (R := fun c => c.2.calls = servedCalls (calls.flatMap Call.encode)) (show ¬ False from id) []
    (fun r hr => by
      obtain ⟨call, hc, rfl⟩ := List.mem_map.mp (hreq ▸ hr)
      exact hd call hc) fun _ _ _ => .now rfl
  rw [← servedCalls_encode hshort]
  constructor
  · intro h
    obtain ⟨c, hc, he⟩ := (h 0 fun _ => none).2.exists_run
    have h1 : c.2.calls <+: servedCalls (calls.flatMap Call.encode) := halways _ 0 c hc
    have h2 := servedCalls_initial (calls.flatMap Call.encode)
    rw [he] at h1
    rw [hcalls] at h2
    exact h2.eq_of_length_le h1.length_le
  · intro h code m
    rw [h] at halways hev
    exact ⟨halways m code, hev m code⟩

/-! ## The fewest bytes -/

/-- A connection that delivers as few bytes as `P` allows, where `malloc` finds `p`. -/
def shortest (P : ℕ → ℕ → Prop) (p : Buf) : Peer where
  deliver n avail k := if n = 0 then k = 0 ∧ 0 < avail else IsLeast {k | P n k} k ∧ k ≤ avail
  sendFails := False
  memory := (· = p)
  found := exists_eq

section Shortest

variable {p : Buf} {n avail k : ℕ}

theorem shortest_pos (hn : n ≠ 0) :
    (shortest P p).deliver n avail k ↔ IsLeast {k | P n k} k ∧ k ≤ avail := iff_of_eq (if_neg hn)

theorem shortest_zero : (shortest P p).deliver 0 avail k ↔ k = 0 ∧ 0 < avail := by simp [shortest]

theorem exists_shortest (h : (segmented P).deliver n avail k) :
    ∃ j, (shortest P p).deliver n avail j := by
  classical
  rcases eq_or_ne n 0 with rfl | hn
  · exact ⟨0, shortest_zero.mpr ⟨rfl, (segmented_zero.mp h).2⟩⟩
  · obtain ⟨hk, hle⟩ := (segmented_pos hn).mp h
    have hex : ∃ k, P n k := ⟨k, hk⟩
    exact ⟨Nat.find hex, (shortest_pos hn).mpr ⟨⟨Nat.find_spec hex, fun j => Nat.find_min' hex⟩,
      (Nat.find_min' hex hk).trans hle⟩⟩

theorem shortest_fits (h : (shortest P p).deliver n avail k) : k ≤ avail := by
  rcases eq_or_ne n 0 with rfl | hn
  · exact ((shortest_zero.mp h).1).le.trans (Nat.zero_le _)
  · exact ((shortest_pos hn).mp h).2

theorem shortest_le_size (hP : ∀ n k, P n k → k ≤ n) (h : (shortest P p).deliver n avail k) :
    k ≤ n := by
  rcases eq_or_ne n 0 with rfl | hn
  · exact ((shortest_zero.mp h).1).le
  · exact hP n k ((shortest_pos hn).mp h).1.1

theorem shortest_unique {k' : ℕ} (h : (shortest P p).deliver n avail k)
    (h' : (shortest P p).deliver n avail k') : k' = k := by
  rcases eq_or_ne n 0 with rfl | hn
  · rw [(shortest_zero.mp h).1, (shortest_zero.mp h').1]
  · exact ((shortest_pos hn).mp h').1.unique ((shortest_pos hn).mp h).1

theorem shortest_le (p : Buf) : Env.Le (env (shortest P p) m) (env (segmented P) m) := by
  intro β e s b s' h
  cases e with
  | recv null n =>
    obtain ⟨k, hd, hb⟩ := h
    refine ⟨k, ?_, hb⟩
    rcases eq_or_ne n 0 with rfl | hn
    · exact segmented_zero.mpr (shortest_zero.mp hd)
    · obtain ⟨hk, hle⟩ := (shortest_pos hn).mp hd
      exact (segmented_pos hn).mpr ⟨hk.1, hle⟩
  | malloc n =>
    refine ⟨h.1, ?_⟩
    have h2 := h.2
    split_ifs at h2 ⊢ with hn
    · obtain ⟨q, -, hq⟩ := h2
      exact ⟨q, trivial, hq⟩
    · exact h2
  | _ => exact h

/-- Where a step can be taken, one can be taken with as few bytes as may come. -/
theorem exists_step_shortest (p : Buf) {c c' : Net Int × Wire}
    (h : Step (env (segmented P) m) procs c c') :
    ∃ c', Step (env (shortest P p) m) procs c c' := by
  cases h with
  | call => exact ⟨_, .call⟩
  | @op β e k s s' b hb =>
    cases e with
    | recv null n =>
      obtain ⟨k', hd, -⟩ := hb
      obtain ⟨j, hj⟩ := exists_shortest (p := p) hd
      by_cases hn : null ∧ j ≠ 0
      · have hstep : env (shortest P p) m _ (.recv null n) s none s :=
          ⟨j, hj, (if_pos hn).mpr ⟨rfl, rfl⟩⟩
        exact ⟨_, .op hstep⟩
      · have hstep : env (shortest P p) m _ (.recv null n) s (some (s.incoming.take j))
            { s with incoming := s.incoming.drop j } := ⟨j, hj, (if_neg hn).mpr ⟨rfl, rfl⟩⟩
        exact ⟨_, .op hstep⟩
    | malloc n =>
      by_cases hn : n < 2 ^ 63
      · have hstep : env (shortest P p) m _ (.malloc n) s (some p) s :=
          ⟨rfl, (if_pos hn).mpr ⟨p, rfl, rfl⟩⟩
        exact ⟨_, .op hstep⟩
      · have hstep : env (shortest P p) m _ (.malloc n) s none s := ⟨rfl, (if_neg hn).mpr rfl⟩
        exact ⟨_, .op hstep⟩
    | _ => exact ⟨(k b, s'), .op hb⟩

theorem eventually_shortest (p : Buf) {R : Net Int × Wire → Prop} {c : Net Int × Wire}
    (h : Eventually (Step (env (segmented P) m) procs) R c) :
    Eventually (Step (env (shortest P p) m) procs) R c := by
  induction h with
  | now h => exact .now h
  | step hs _ ih =>
    obtain ⟨c', hc'⟩ := hs
    exact .step (exists_step_shortest p hc') fun d hd => ih d (hd.mono (shortest_le p))

end Shortest

/-! ## What is received by the fewest bytes -/

/-- A string received by as few bytes as may come: the others are found in memory. -/
structure ShortString (P : ℕ → ℕ → Prop) (p : Buf) (s : List Byte) (len : CInt)
    (str rest : List Byte) : Prop where
  int : IsLeast {k | P 4 k} 4
  length : 4 ≤ s.length
  len_eq : len = CInt.overwrite 0 (s.take 4)
  allocates : Allocates len
  bytes : ∃ k, (shortest P p).deliver len.sizeT (s.drop 4).length k ∧ k ≤ len.sizeT ∧
    str = (s.drop 4).take k ++ (p.read len.sizeT).drop k ∧ rest = (s.drop 4).drop k

/-- A request received in this way. -/
inductive ShortRequest (P : ℕ → ℕ → Prop) (p : Buf) (s : List Byte) : Request → List Byte → Prop
  | get {keyLen key rest} (h4 : 4 ≤ s.length) (hop : CInt.overwrite 0 (s.take 4) = 0)
      (hkey : ShortString P p (s.drop 4) keyLen key rest) :
      ShortRequest P p s (.get keyLen key) rest
  | set {keyLen key t valueLen value rest} (h4 : 4 ≤ s.length)
      (hop : CInt.overwrite 0 (s.take 4) = 1) (hkey : ShortString P p (s.drop 4) keyLen key t)
      (hvalue : ShortString P p t valueLen value rest) :
      ShortRequest P p s (.set keyLen key valueLen value) rest
  | del {keyLen key rest} (h4 : 4 ≤ s.length) (hop : CInt.overwrite 0 (s.take 4) = 2)
      (hkey : ShortString P p (s.drop 4) keyLen key rest) :
      ShortRequest P p s (.del keyLen key) rest
  | other {op} (hint : IsLeast {k | P 4 k} 4) (h4 : 4 ≤ s.length)
      (hop : CInt.overwrite 0 (s.take 4) = op) (h0 : op ≠ 0) (h1 : op ≠ 1) (h2 : op ≠ 2)
      (h3 : op ≠ 3) : ShortRequest P p s (.other op) (s.drop 4)

section Short

variable {p q : Buf} {s str str' rest rest' : List Byte} {len len' : CInt} {r r' : Request}

theorem ShortString.same (h : ShortString P p s len str rest)
    (h' : ShortString P q s len' str' rest') : len' = len ∧ rest' = rest := by
  obtain rfl : len' = len := h'.len_eq.trans h.len_eq.symm
  obtain ⟨k, hk, -, -, rfl⟩ := h.bytes
  obtain ⟨k', hk', -, -, rfl⟩ := h'.bytes
  obtain rfl : k' = k := shortest_unique hk hk'
  exact ⟨rfl, rfl⟩

theorem ShortString.length_le (h : ShortString P p s len str rest) :
    rest.length + 4 ≤ s.length := by
  obtain ⟨k, -, -, -, rfl⟩ := h.bytes
  have := h.length
  simp only [List.length_drop]
  omega

/-- A string that is the same whatever memory holds has come whole. -/
theorem ShortString.whole (h : ∀ p, ShortString P p s len str rest) :
    (encodeString str).length + rest.length = s.length ∧
      (str ≠ [] → IsLeast {k | P str.length k} str.length) := by
  obtain ⟨k, hk, hle, hstr, hrest⟩ := (h fun _ => 0).bytes
  obtain ⟨k', hk', -, hstr', -⟩ := (h fun _ => 1).bytes
  obtain rfl : k' = k := shortest_unique hk hk'
  have h4 := (h fun _ => 0).length
  -- a byte that has not come would differ
  obtain rfl : k' = len.sizeT := by
    by_contra hne
    have hlt : 0 < len.sizeT - k' := by omega
    have he := List.append_cancel_left (hstr.symm.trans hstr')
    have h0 := congrArg (fun l => l[0]?) he
    simp [Buf.read, hlt] at h0
  have hfit := shortest_fits hk
  have hlen : str.length = len.sizeT := by
    rw [hstr, List.length_append, List.length_take_of_le hfit]
    simp [Buf.read]
  refine ⟨?_, fun hne => ?_⟩
  · rw [hrest, encodeString]
    simp only [List.length_append, CInt.length_bytes, List.length_drop] at hfit ⊢
    omega
  · rw [hlen]
    exact ((shortest_pos (hlen ▸ mt List.eq_nil_of_length_eq_zero hne)).mp hk).1

theorem ShortRequest.same (h : ShortRequest P p s r rest) (h' : ShortRequest P q s r' rest') :
    rest' = rest ∧ (r'.call = none ↔ r.call = none) := by
  cases h with
  | get h4 hop hkey =>
    cases h' with
    | get h4' hop' hkey' =>
      obtain ⟨rfl, rfl⟩ := hkey.same hkey'
      exact ⟨rfl, by simp only [Request.call, ite_eq_left_iff, reduceCtorEq, imp_false]⟩
    | set h4' hop' => exact absurd (hop.symm.trans hop') (by decide)
    | del h4' hop' => exact absurd (hop.symm.trans hop') (by decide)
    | other hint h4' hop' h0 => exact absurd (hop'.symm.trans hop) h0
  | set h4 hop hkey hvalue =>
    cases h' with
    | get h4' hop' => exact absurd (hop.symm.trans hop') (by decide)
    | set h4' hop' hkey' hvalue' =>
      obtain ⟨rfl, rfl⟩ := hkey.same hkey'
      obtain ⟨rfl, rfl⟩ := hvalue.same hvalue'
      refine ⟨rfl, ?_⟩
      simp only [Request.call]
      split_ifs <;> simp
    | del h4' hop' => exact absurd (hop.symm.trans hop') (by decide)
    | other hint h4' hop' h0 h1 => exact absurd (hop'.symm.trans hop) h1
  | del h4 hop hkey =>
    cases h' with
    | get h4' hop' => exact absurd (hop.symm.trans hop') (by decide)
    | set h4' hop' => exact absurd (hop.symm.trans hop') (by decide)
    | del h4' hop' hkey' =>
      obtain ⟨rfl, rfl⟩ := hkey.same hkey'
      exact ⟨rfl, by simp only [Request.call, ite_eq_left_iff, reduceCtorEq, imp_false]⟩
    | other hint h4' hop' h0 h1 h2 => exact absurd (hop'.symm.trans hop) h2
  | other hint h4 hop h0 h1 h2 =>
    cases h' with
    | get h4' hop' => exact absurd (hop.symm.trans hop') h0
    | set h4' hop' => exact absurd (hop.symm.trans hop') h1
    | del h4' hop' => exact absurd (hop.symm.trans hop') h2
    | other => exact ⟨rfl, Iff.rfl⟩

theorem ShortRequest.length_lt (h : ShortRequest P p s r rest) : rest.length < s.length := by
  have hd : ∀ {l : List Byte}, 4 ≤ l.length → (l.drop 4).length + 4 = l.length := fun h => by
    simp only [List.length_drop]
    omega
  cases h with
  | get h4 hop hkey =>
    have := hkey.length_le
    have := hd h4
    omega
  | set h4 hop hkey hvalue =>
    have := hkey.length_le
    have := hvalue.length_le
    have := hd h4
    omega
  | del h4 hop hkey =>
    have := hkey.length_le
    have := hd h4
    omega
  | other hint h4 =>
    have := hd h4
    omega

theorem ShortRequest.int (h : ShortRequest P p s r rest) :
    IsLeast {k | P 4 k} 4 ∧ 4 ≤ s.length := by
  cases h with
  | get h4 hop hkey => exact ⟨hkey.int, h4⟩
  | set h4 hop hkey => exact ⟨hkey.int, h4⟩
  | del h4 hop hkey => exact ⟨hkey.int, h4⟩
  | other hint h4 => exact ⟨hint, h4⟩

/-- The strings of the request. -/
theorem ShortRequest.strings (h : ShortRequest P p s r rest) :
    CInt.overwrite 0 (s.take 4) ≠ 3 ∧ (CInt.overwrite 0 (s.take 4) = 0 ∨
        CInt.overwrite 0 (s.take 4) = 1 ∨ CInt.overwrite 0 (s.take 4) = 2 →
      ∃ len str t, ShortString P p (s.drop 4) len str t ∧ (CInt.overwrite 0 (s.take 4) = 1 →
        ∃ len str rest, ShortString P p t len str rest)) := by
  cases h with
  | get h4 hop hkey =>
    refine ⟨hop.trans_ne (by decide), fun _ => ⟨_, _, _, hkey, fun h => ?_⟩⟩
    exact absurd (hop.symm.trans h) (by decide)
  | set h4 hop hkey hvalue =>
    exact ⟨hop.trans_ne (by decide), fun _ => ⟨_, _, _, hkey, fun _ => ⟨_, _, _, hvalue⟩⟩⟩
  | del h4 hop hkey =>
    refine ⟨hop.trans_ne (by decide), fun _ => ⟨_, _, _, hkey, fun h => ?_⟩⟩
    exact absurd (hop.symm.trans h) (by decide)
  | other hint h4 hop h0 h1 h2 h3 =>
    refine ⟨hop.trans_ne h3, fun h => ?_⟩
    rw [hop] at h
    rcases h with h | h | h
    · exact absurd h h0
    · exact absurd h h1
    · exact absurd h h2

/-- Strings received in this way, one after the other. -/
def ShortStrings (P : ℕ → ℕ → Prop) (p : Buf) :
    List Byte → List (List Byte) → List Byte → Prop
  | s, [], rest => rest = s
  | s, str :: strs, rest => ∃ len t, ShortString P p s len str t ∧ ShortStrings P p t strs rest

theorem ShortRequest.of_call {call : Call} (h : ShortRequest P p s r rest)
    (hc : r.call = some call) : ShortStrings P p (s.drop 4) call.strings rest := by
  cases h with
  | get h4 hop hkey =>
    simp only [Request.call] at hc
    split_ifs at hc
    obtain rfl := Option.some.inj hc
    exact ⟨_, _, hkey, rfl⟩
  | set h4 hop hkey hvalue =>
    simp only [Request.call] at hc
    split_ifs at hc
    obtain rfl := Option.some.inj hc
    exact ⟨_, _, hkey, _, _, hvalue, rfl⟩
  | del h4 hop hkey =>
    simp only [Request.call] at hc
    split_ifs at hc
    obtain rfl := Option.some.inj hc
    exact ⟨_, _, hkey, rfl⟩
  | other => cases hc

/-- Strings that are the same whatever memory holds have come whole. -/
theorem ShortStrings.whole {strs : List (List Byte)} (h : ∀ p, ShortStrings P p s strs rest) :
    (strs.flatMap encodeString).length + rest.length = s.length ∧
      ∀ str ∈ strs, str ≠ [] → IsLeast {k | P str.length k} str.length := by
  induction strs generalizing s with
  | nil =>
    obtain rfl := h fun _ => 0
    simp
  | cons str strs ih =>
    obtain ⟨len, t, hs, -⟩ := h fun _ => 0
    have hall : ∀ p, ShortString P p s len str t ∧ ShortStrings P p t strs rest := fun p => by
      obtain ⟨len', t', hs', ht⟩ := h p
      obtain ⟨rfl, rfl⟩ := hs.same hs'
      exact ⟨hs', ht⟩
    obtain ⟨h1, h2⟩ := ShortString.whole fun p => (hall p).1
    obtain ⟨h3, h4⟩ := ih fun p => (hall p).2
    refine ⟨?_, List.forall_mem_cons.mpr ⟨h2, h4⟩⟩
    rw [List.flatMap_cons, List.length_append]
    omega

theorem ShortRequest.whole {call : Call}
    (h : ∀ p, ∃ r, ShortRequest P p s r rest ∧ r.call = some call) :
    call.encode.length + rest.length = s.length ∧ IsLeast {k | P 4 k} 4 ∧
      ∀ str ∈ call.strings, str ≠ [] → IsLeast {k | P str.length k} str.length := by
  obtain ⟨r, hr, -⟩ := h fun _ => 0
  obtain ⟨h1, h2⟩ := ShortStrings.whole fun p => by
    obtain ⟨r', hr', hc⟩ := h p
    exact hr'.of_call hc
  refine ⟨?_, hr.int.1, h2⟩
  have hd : (s.drop 4).length + 4 = s.length := by
    have := hr.int.2
    simp only [List.length_drop]
    omega
  have he : call.encode.length = 4 + (call.strings.flatMap encodeString).length := by
    cases call <;> simp [Call.encode, Call.strings]
  omega

/-! ## One round -/

section Round

variable {live : Prop} {Q : List Call → Prop} {T : Int → Wire → Prop} {t : Wire}

theorem espec_string_shortest {α : Type} {R : α → Wire → Prop} {g : CInt → Buf → ExceptT Int Net α}
    (hint : ∀ k, P 4 k → k = 4) (hP : ∀ n k, P n k → k ≤ n) (hQ : Q t.calls)
    (hl : live → ∃ len str rest, ShortString P p t.incoming len str rest)
    (hT : ¬ live → ∀ t' : Wire, Q t'.calls → T 1 t')
    (h : ∀ len (b : Buf) rest, ShortString P p t.incoming len (b.read len.sizeT) rest →
      espec (env (shortest P p) m) live (fun t => Q t.calls) (g len b) R T ⟨rest, t.calls⟩) :
    espec (env (shortest P p) m) live (fun t => Q t.calls) (do
      let code ← recvCode code
      let p ← recvString code
      g code p) R T t := by
  refine espec_bind (espec_recvCode hQ (fun hlive => ?_) fun k hk => ?_)
  · obtain ⟨len, str, rest, hs⟩ := hl hlive
    exact ⟨4, (shortest_pos (by decide)).mpr ⟨hs.int, hs.length⟩⟩
  obtain ⟨hleast, h4⟩ := (shortest_pos (by decide)).mp hk
  obtain rfl := hint k hleast.1
  rw [CInt.overwrite_eq code 0 (by simp [h4])]
  by_cases hc : Allocates (CInt.overwrite 0 (t.incoming.take 4))
  · refine espec_bind (espec_recvString hQ hc (fun hlive => ?_) fun k b hb hk => ?_)
    · obtain ⟨len, str, rest, hs⟩ := hl hlive
      obtain ⟨k, hk, -⟩ := hs.bytes
      exact ⟨k, hs.len_eq ▸ hk⟩
    · obtain rfl := hb
      have hle := shortest_le_size hP hk
      have hkl : ((t.incoming.drop 4).take k).length = k :=
        List.length_take_of_le (shortest_fits hk)
      refine h _ _ _ ⟨hleast, h4, rfl, hc, k, hk, hle, ?_, rfl⟩
      rw [Buf.read_received _ _ (hkl.trans_le hle), hkl]
  · refine espec_bind (espec_recvString_null hQ hc (fun hlive => ?_) (hT (fun hlive => ?_) _ hQ))
    all_goals
      obtain ⟨len, str, rest, hs⟩ := hl hlive
      exact hc (hs.len_eq ▸ hs.allocates)

variable (m code) in
/-- **One round** of `InstanceThread`, when as few bytes come as may. -/
theorem spec_round_shortest (hint : ∀ k, P 4 k → k = 4) (hP : ∀ n k, P n k → k ≤ n) (hQ : Q t.calls)
    (hQ' : ∀ r rest, ShortRequest P p t.incoming r rest → Q (t.calls ++ r.call.toList))
    (hl : live → ∃ r rest, ShortRequest P p t.incoming r rest) :
    (instanceThreadRound code).spec (env (shortest P p) m) live (fun t => Q t.calls)
      (fun res t' => (∃ r rest code', ShortRequest P p t.incoming r rest ∧ res = .inr code' ∧
        r.Done m t rest code' t') ∨ (∃ i, res = .inl i) ∧ ¬ live ∧ Q t'.calls) t := by
  refine spec_instanceThreadRound (espec_bind (espec_recvCode hQ (fun hlive => ?_) fun k hk => ?_))
  · obtain ⟨r, rest, hr⟩ := hl hlive
    exact ⟨4, (shortest_pos (by decide)).mpr hr.int⟩
  obtain ⟨hleast, h4⟩ := (shortest_pos (by decide)).mp hk
  obtain rfl := hint k hleast.1
  rw [CInt.overwrite_eq code 0 (by simp [h4])]
  have hT : ¬ live → ∀ t' : Wire, Q t'.calls → (∃ r rest code', ShortRequest P p t.incoming r rest ∧
      (.inl 1 : Int ⊕ CInt) = .inr code' ∧ r.Done m t rest code' t') ∨
      (∃ i, (.inl 1 : Int ⊕ CInt) = .inl i) ∧ ¬ live ∧ Q t'.calls :=
    fun hl t' h => Or.inr ⟨⟨1, rfl⟩, hl, h⟩
  have hf : ¬ (shortest P p).sendFails := id
  have hkey : live → CInt.overwrite 0 (t.incoming.take 4) = 0 ∨
      CInt.overwrite 0 (t.incoming.take 4) = 1 ∨ CInt.overwrite 0 (t.incoming.take 4) = 2 →
      ∃ len str u, ShortString P p (t.incoming.drop 4) len str u ∧
        (CInt.overwrite 0 (t.incoming.take 4) = 1 →
          ∃ len str rest, ShortString P p u len str rest) := fun hlive h => by
    obtain ⟨r, rest, hr⟩ := hl hlive
    exact hr.strings.2 h
  refine espec_ite (fun h0 => espec_bind ?_) fun h0 => espec_ite (fun h1 => espec_bind ?_) fun h1 =>
    espec_ite (fun h2 => espec_bind ?_) fun h2 => espec_ite (fun h3 => ?_) fun h3 => ?_
  · refine espec_string_shortest hint hP hQ (fun hlive => ?_) hT fun len b rest hs => ?_
    · obtain ⟨len, str, u, hs, -⟩ := hkey hlive (Or.inl h0)
      exact ⟨len, str, u, hs⟩
    have hr : ShortRequest P p t.incoming (.get len (b.read len.sizeT)) rest := .get h4 h0 hs
    exact (espec_getReply (s := ⟨rest, t.calls⟩) hQ rfl (hQ' _ _ hr) fun h => absurd h hf).mono
      (fun x t' h => espec_pure (Or.inl ⟨_, _, x, hr, rfl, h⟩)) fun _ _ h => h
  · refine espec_string_shortest hint hP hQ (fun hlive => ?_) hT fun len b u hs => ?_
    · obtain ⟨len, str, u, hs, -⟩ := hkey hlive (Or.inr (Or.inl h1))
      exact ⟨len, str, u, hs⟩
    refine espec_string_shortest (t := ⟨u, t.calls⟩) hint hP hQ (fun hlive => ?_) hT
      fun len' b' rest hs' => ?_
    · obtain ⟨_, _, u', hs₁, h⟩ := hkey hlive (Or.inr (Or.inl h1))
      obtain ⟨-, rfl⟩ := hs.same hs₁
      exact h h1
    have hr : ShortRequest P p t.incoming (.set len (b.read _) len' (b'.read len'.sizeT)) rest :=
      .set h4 h1 hs hs'
    exact (espec_setReply (s := ⟨rest, t.calls⟩) hQ rfl rfl (hQ' _ _ hr) fun h => absurd h hf).mono
      (fun x t' h => espec_pure (Or.inl ⟨_, _, x, hr, rfl, h⟩)) fun _ _ h => h
  · refine espec_string_shortest hint hP hQ (fun hlive => ?_) hT fun len b rest hs => ?_
    · obtain ⟨len, str, u, hs, -⟩ := hkey hlive (Or.inr (Or.inr h2))
      exact ⟨len, str, u, hs⟩
    have hr : ShortRequest P p t.incoming (.del len (b.read len.sizeT)) rest := .del h4 h2 hs
    exact (espec_delReply (s := ⟨rest, t.calls⟩) hQ rfl (hQ' _ _ hr) fun h => absurd h hf).mono
      (fun x t' h => espec_pure (Or.inl ⟨_, _, x, hr, rfl, h⟩)) fun _ _ h => h
  · have hn : ¬ live := fun hlive => by
      obtain ⟨r, rest, hr⟩ := hl hlive
      exact hr.strings.1 h3
    exact espec_bind (espec_sendCode hQ (espec_pure ⟨hQ, Or.inr ⟨⟨0, rfl⟩, hn, hQ⟩,
      Or.inr ⟨⟨1, rfl⟩, hn, hQ⟩⟩) fun h => absurd h hf)
  · refine espec_pure (Or.inl ⟨_, _, _, .other hleast h4 rfl h0 h1 h2 h3, rfl, rfl, ?_⟩)
    change (⟨_, t.calls⟩ : Wire) = ⟨_, t.calls ++ []⟩
    rw [List.append_nil]

end Round

end Short

/-! ## Runs by the fewest bytes -/

theorem calls_of_steps {peer : Peer} {c c' : Net Int × Wire} (h : Steps (env peer m) procs c c') :
    c.2.calls <+: c'.2.calls := by
  induction h with
  | refl => exact List.prefix_refl _
  | tail _ hs ih =>
    refine ih.trans ?_
    cases hs with
    | call => exact List.prefix_refl _
    | @op β e k s s' b hb =>
      cases e with
      | recv null n =>
        obtain ⟨k, -, hb⟩ := hb
        split_ifs at hb
        all_goals
          obtain ⟨-, rfl⟩ := hb
          exact List.prefix_refl _
      | send data =>
        obtain ⟨rfl, -⟩ := hb
        exact List.prefix_refl _
      | malloc n =>
        obtain ⟨rfl, -⟩ := hb
        exact List.prefix_refl _
      | myjqlGet key value maxSize =>
        obtain ⟨-, rfl⟩ := hb
        exact List.prefix_append ..
      | myjqlSet key value =>
        obtain rfl := hb
        exact List.prefix_append ..
      | myjqlDel key =>
        obtain rfl := hb
        exact List.prefix_append ..
      | myjqlClose => exact hb.elim
      | exit => exact hb.elim
      | undefined => exact hb.elim
      | _ =>
        obtain rfl := hb
        exact List.prefix_refl _

/-- The thread performs exactly the `calls`, when as few bytes come as may. -/
structure Performs (P : ℕ → ℕ → Prop) (p : Buf) (m : KV) (c : Net Int × Wire) (calls : List Call) :
    Prop where
  only : Always (env (shortest P p) m) procs (fun t => t.calls <+: calls) c
  all : Eventually (Step (env (shortest P p) m) procs) (fun c => c.2.calls = calls) c

section Performs

variable {p : Buf} {c c' : Net Int × Wire} {s : List Byte} {done : List Call} {call : Call}

theorem Exact.performs (h : Exact P calls) (p : Buf) (m : KV) (code : CInt) :
    Performs P p m (Serving code calls) calls :=
  ⟨fun c hc => (h code m).1 c (hc.mono (shortest_le p)), eventually_shortest p (h code m).2⟩

theorem Performs.along (h : Performs P p m c calls) (hc : Steps (env (shortest P p) m) procs c c') :
    Performs P p m c' calls := by
  refine ⟨fun d hd => h.only d (hc.trans hd), ?_⟩
  rcases h.all.reaches hc with ⟨d, -, hd, hdc⟩ | h'
  · have h1 := calls_of_steps hdc
    rw [hd] at h1
    exact .now ((h.only c' hc).eq_of_length_le h1.length_le)
  · exact h'

/-- The next request is received, or no call is made. -/
theorem Performs.request (hint : ∀ k, P 4 k → k = 4) (hP : ∀ n k, P n k → k ≤ n)
    (h : Performs P p m (instanceThread code, ⟨s, done⟩) (done ++ call :: calls)) :
    ∃ r rest code', ShortRequest P p s r rest ∧ (r.call = none ∨ r.call = some call) ∧
      Performs P p m (instanceThread code', ⟨rest, done ++ r.call.toList⟩)
        (done ++ call :: calls) := by
  by_cases hex : ∃ r rest, ShortRequest P p s r rest
  · have hround : Eventually (Step (env (shortest P p) m) procs) (fun c => ∃ r rest code',
        ShortRequest P p s r rest ∧ c = (instanceThread code', ⟨rest, done ++ r.call.toList⟩))
        (instanceThread code, ⟨s, done⟩) := by
      refine eventually_round (spec_round_shortest m code (Q := fun _ => True)
        hint hP trivial (fun _ _ _ => trivial) fun _ : True => hex) ?_ ?_
      · rintro i t (⟨_, _, _, -, hi, -⟩ | ⟨-, hn, -⟩)
        · cases hi
        · exact absurd trivial hn
      · rintro code' t (⟨r, rest, _, hr, hi, -, rfl⟩ | ⟨⟨_, hi⟩, -⟩)
        · cases hi
          exact .now ⟨r, rest, _, hr, rfl⟩
        · cases hi
    obtain ⟨_, hrun, r, rest, code', hr, rfl⟩ := hround.exists_run
    refine ⟨r, rest, code', hr, ?_, h.along hrun⟩
    have hpre := h.only _ hrun
    cases hc : r.call with
    | none => exact Or.inl rfl
    | some c =>
      rw [hc, List.prefix_append_right_inj] at hpre
      exact Or.inr (congrArg some (List.cons_prefix_cons.mp hpre).1)
  · have hnone : Always (env (shortest P p) m) procs (fun t => t.calls = done)
        (instanceThread code, ⟨s, done⟩) := by
      refine always_round (I := fun t => t.calls = done) rfl (spec_round_shortest m code
        (Q := fun calls => calls = done) hint hP rfl
        (fun r rest hr => absurd ⟨r, rest, hr⟩ hex) fun h : False => h.elim) ?_ ?_
      · rintro i t (⟨_, _, _, -, hi, -⟩ | ⟨-, -, ht⟩)
        · cases hi
        · exact ht
      · rintro code' t (⟨r, rest, _, hr, -⟩ | ⟨⟨_, hi⟩, -⟩)
        · exact absurd ⟨r, rest, hr⟩ hex
        · cases hi
    obtain ⟨c, hc, hcalls⟩ := h.all.exists_run
    have h0 := (hnone c hc).symm.trans hcalls
    simp at h0

/-- The calls take as many bytes as the driver sends for them: no field is cut. -/
theorem length_le_of_performs (hint : ∀ k, P 4 k → k = 4) (hP : ∀ n k, P n k → k ≤ n)
    (h : ∀ p, ∃ code, Performs P p m (instanceThread code, ⟨s, done⟩) (done ++ calls)) :
    (calls.flatMap Call.encode).length ≤ s.length ∧ ((calls.flatMap Call.encode).length = s.length →
      ∀ call ∈ calls, IsLeast {k | P 4 k} 4 ∧
        ∀ str ∈ call.strings, str ≠ [] → IsLeast {k | P str.length k} str.length) := by
  induction hn : s.length using Nat.strong_induction_on generalizing s done calls with
  | _ n ih =>
    subst hn
    cases calls with
    | nil => exact ⟨Nat.zero_le _, fun _ => nofun⟩
    | cons call calls =>
      have hreq : ∀ p, _ := fun p => (h p).choose_spec.request hint hP
      obtain ⟨r, rest, -, hr, hcall, -⟩ := hreq fun _ => 0
      rcases hcall with hnone | hsome
      · -- a request that is none of the calls only takes bytes away
        have hrest : ∀ p, ∃ code, Performs P p m (instanceThread code, ⟨rest, done⟩)
            (done ++ call :: calls) := fun p => by
          obtain ⟨r', rest', code', hr', -, hp⟩ := hreq p
          obtain ⟨rfl, hc⟩ := hr.same hr'
          rw [hc.mpr hnone, Option.toList_none, List.append_nil] at hp
          exact ⟨code', hp⟩
        have hle := (ih rest.length hr.length_lt hrest rfl).1
        have hlt := hr.length_lt
        exact ⟨by omega, fun he => absurd he (by omega)⟩
      · have hall : ∀ p, (∃ r, ShortRequest P p s r rest ∧ r.call = some call) ∧
            ∃ code, Performs P p m (instanceThread code, ⟨rest, done ++ [call]⟩)
              (done ++ [call] ++ calls) := fun p => by
          obtain ⟨r', rest', code', hr', hcall', hp⟩ := hreq p
          obtain ⟨rfl, hc⟩ := hr.same hr'
          have hsome' : r'.call = some call := hcall'.resolve_left fun h' => by
            rw [hc.mp h'] at hsome
            cases hsome
          rw [hsome', Option.toList_some] at hp
          exact ⟨⟨r', hr', hsome'⟩, code', by simpa using hp⟩
        obtain ⟨h1, h2⟩ := ShortRequest.whole fun p => (hall p).1
        obtain ⟨h3, h4⟩ := ih rest.length hr.length_lt (fun p => (hall p).2) rfl
        rw [List.flatMap_cons, List.length_append]
        exact ⟨by omega, fun he => List.forall_mem_cons.mpr ⟨h2, h4 (by omega)⟩⟩

end Performs

/-! ## Cut opcodes -/

/-- An `int` of which the last byte is not overwritten is no opcode. -/
theorem not_opcode {l : List Byte} (hl : l.length < 4) (h3 : code.byte 3 = 255) :
    (code.overwrite l).byte 3 = 255 ∧ code.overwrite l ≠ 0 ∧ code.overwrite l ≠ 1 ∧
      code.overwrite l ≠ 2 ∧ code.overwrite l ≠ 3 := by
  have h : (code.overwrite l).byte 3 = 255 := by
    rw [CInt.overwrite, CInt.byte_ofBytes _ (by decide), List.getD_eq_default _ _ (by omega), h3]
  refine ⟨h, ?_, ?_, ?_, ?_⟩ <;>
  · intro e
    rw [e] at h
    exact absurd h (by decide)

/-- If every `int` is cut, and `code` is found to hold no opcode, no call is made. -/
theorem always_cut {p : Buf} (hcut : ∀ k, IsLeast {k | P 4 k} k → k < 4) (h3 : code.byte 3 = 255)
    (incoming : List Byte) :
    Always (env (shortest P p) m) procs (fun s => s.calls = [])
      (instanceThread code, ⟨incoming, []⟩) := by
  refine always_loop False (fun code s => code.byte 3 = 255 ∧ s.calls = []) instanceThreadRound
    .instanceThread (fun _ => rfl) ?_ ⟨h3, rfl⟩ rfl
  rintro code s ⟨h3, hs⟩
  refine Prog.spec.seq (R := fun r s' => ∃ code' : CInt, r = .ok (some code') ∧ code'.byte 3 = 255 ∧
    s'.calls = []) ?_ ?_
  · refine Prog.spec.mono (?_ : espec _ _ _ (round code)
      (fun a s' => ∃ code' : CInt, a = some code' ∧ code'.byte 3 = 255 ∧ s'.calls = [])
      (fun _ _ => False) s) ?_
    · refine espec_bind (espec_recvCode hs (fun h => h.elim) fun k hk => ?_)
      have hlt : (s.incoming.take k).length < 4 := by
        rw [List.length_take]
        have := hcut k ((shortest_pos (by decide)).mp hk).1
        omega
      obtain ⟨h, h0, h1, h2, h3⟩ := not_opcode hlt h3
      refine espec_ite (fun e => absurd e h0) fun _ => ?_
      refine espec_ite (fun e => absurd e h1) fun _ => ?_
      refine espec_ite (fun e => absurd e h2) fun _ => ?_
      refine espec_ite (fun e => absurd e h3) fun _ => ?_
      exact espec_pure ⟨_, rfl, h, hs⟩
    · rintro (e | a) s' h
      · exact h.elim
      · obtain ⟨code', rfl, h⟩ := h
        exact ⟨code', rfl, h⟩
  · rintro _ s' ⟨code', rfl, h, hs'⟩
    refine spec_pure ⟨hs', fun y hy => ?_⟩
    cases hy
    exact ⟨h, hs'⟩

/-- Where an `int` may be cut, a thread may perform no call at all. -/
theorem not_exact_of_cut {k₀ : ℕ} (hk₀ : P 4 k₀) (hlt : k₀ < 4) (hne : calls ≠ []) :
    ¬ Exact P calls := by
  intro h
  obtain ⟨c, hc, hcalls⟩ := (h.performs (fun _ => 0) (fun _ => none) (-1)).all.exists_run
  have hnone : c.2.calls = [] :=
    always_cut (fun k hk => (hk.2 hk₀).trans_lt hlt) (by decide) _ c hc
  exact hne (hcalls.symm.trans hnone)

theorem mem_sizes_request {call : Call} {n : ℕ}
    (h : ∀ str ∈ call.strings, str.length ≤ maxStrLen) (hn : n ∈ call.request.sizes) :
    n = 4 ∨ ∃ str ∈ call.strings, n = str.length := by
  have hsize : ∀ str ∈ call.strings, CInt.sizeT (BitVec.ofNat 32 str.length) = str.length :=
    fun str hs => sizeT_length ((strings_lt h str hs).trans_le (by decide))
  have hlengths : call.request.lengths =
      call.strings.map fun str => (BitVec.ofNat 32 str.length : CInt) := by cases call <;> rfl
  rw [Request.sizes, List.mem_cons, hlengths, List.map_map] at hn
  refine hn.imp_right fun hn => ?_
  obtain ⟨str, hs, rfl⟩ := List.mem_map.mp hn
  exact ⟨str, hs, hsize str hs⟩

/-- Calls that are performed come in fields that cannot be cut. -/
theorem Exact.whole (hP : ∀ n k, P n k → anySegment n k)
    (hshort : ∀ call ∈ calls, ∀ str ∈ call.strings, str.length ≤ maxStrLen) (h : Exact P calls) :
    ∀ call ∈ calls, ∀ n ∈ call.request.sizes, n ≠ 0 → ∀ k, P n k ↔ k = n := by
  intro call hcall
  have hint : ∀ k, P 4 k → k = 4 := fun k hk => by
    by_contra hne
    have hlt : k < 4 := lt_of_le_of_ne (hP 4 k hk).2 hne
    exact not_exact_of_cut hk hlt (List.ne_nil_of_mem hcall) h
  have hperf : ∀ p, ∃ code, Performs P p (fun _ => none)
      (instanceThread code, ⟨calls.flatMap Call.encode, []⟩) ([] ++ calls) :=
    fun p => ⟨0, h.performs p _ 0⟩
  obtain ⟨h4, hstrs⟩ := (length_le_of_performs hint (fun n k hk => (hP n k hk).2) hperf).2 rfl
    call hcall
  have hleast : ∀ n, IsLeast {k | P n k} n → ∀ k, P n k ↔ k = n := fun n hn k =>
    ⟨fun hk => le_antisymm (hP n k hk).2 (hn.2 hk), fun e => e ▸ hn.1⟩
  intro n hn hpos
  rcases mem_sizes_request (hshort call hcall) hn with rfl | ⟨str, hs, rfl⟩
  · exact hleast 4 h4
  · exact hleast _ (hstrs str hs (List.ne_nil_of_length_pos (by omega)))

/-- **Segmentation.** Let `recv` for `n > 0` bytes return `k` bytes, `1 ≤ k ≤ n`, whenever `P n k`,
and let `recv` for none wait for a byte. The thread performs exactly the calls of the requests if
and only if all bytes of every field come at once, and the last field is not empty. -/
theorem segmentation_exact (P : ℕ → ℕ → Prop) (calls : List Call)
    (hP : ∀ n k, P n k → anySegment n k)
    (hshort : ∀ call ∈ calls, ∀ str ∈ call.strings, str.length ≤ maxStrLen) :
    Exact P calls ↔
      (∀ call ∈ calls, ∀ n ∈ call.request.sizes, n ≠ 0 → ∀ k, P n k ↔ k = n) ∧
        ¬ EndsEmpty calls := by
  have hpos : ∀ n k, P n k → 1 ≤ k := fun n k h => (hP n k h).1
  constructor
  · intro h
    have hw := h.whole hP hshort
    exact ⟨hw, (exact_iff_whole hpos hshort hw).mp h⟩
  · rintro ⟨hw, hlast⟩
    exact (exact_iff_whole hpos hshort hw).mpr hlast

/-- A connection that cuts nothing, an empty value, and a request behind it. -/
theorem segmentation_exact_whole :
    Exact (fun n k => k = n ∧ 1 ≤ k) [.set [107] [], .get [107]] :=
  (segmentation_exact (fun n k => k = n ∧ 1 ≤ k) [.set [107] [], .get [107]]
    (fun _ _ h => ⟨h.2, h.1.le⟩) (by decide)).mpr
    ⟨fun _ _ n _ h0 k => ⟨And.left, fun h => ⟨h, h ▸ Nat.one_le_iff_ne_zero.mpr h0⟩⟩,
      by simp [EndsEmpty, Call.strings]⟩

/-- **The thread is not insensitive to segmentation**: one request, delivered in any segments. -/
theorem not_exact_anySegment : ¬ Exact anySegment [.set [107] [118]] :=
  not_exact_of_cut ⟨le_rfl, by decide⟩ (by decide) (by decide)

end MyJQL.Server
