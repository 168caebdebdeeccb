import MyJQL.Server.Protocol

/-!
# Runs of a server thread

* `always_round`, `eventually_round`: the loop of `InstanceThread`, round by round;
* `lengthsOf`: the length fields of a stream; `Peer.Reliable`: a connection that delivers them and
  the strings whole, or not at all;
* `spec_round_cut`: a round at the end of the stream;
* **`always_servedCalls`**, **`eventually_servedCalls`**: on a reliable connection the thread
  performs the calls of the requests of its stream that are served, and no others;
* `servedCalls_encode`: of what the driver sends, all is served unless the last field is empty.
-/

set_option linter.unusedSimpArgs false

namespace MyJQL.Server

/-! ## The loop -/

section Loop

variable {peer : Peer} {m : KV} {live : Prop} {I : Wire → Prop} {s : Wire} {code : CInt}
  {Q : Int ⊕ CInt → Wire → Prop} {R : Net Int × Wire → Prop}

theorem always_round (hI : I s) (h : (instanceThreadRound code).spec (env peer m) live I Q s)
    (hr : ∀ r s', Q (.inl r) s' → I s')
    (hn : ∀ code' s', Q (.inr code') s' →
      Always (env peer m) procs I (instanceThread code', s')) :
    Always (env peer m) procs I (instanceThread code, s) := by
  refine always_call hI ?_
  rw [Prog.bind_pure]
  refine h.always_bind fun r s' hQ => ?_
  cases r with
  | inl r => exact always_pure (hr r s' hQ)
  | inr code' => exact hn code' s' hQ

theorem eventually_round (h : (instanceThreadRound code).spec (env peer m) True I Q s)
    (hr : ∀ r s', Q (.inl r) s' → R (.pure r, s'))
    (hn : ∀ code' s', Q (.inr code') s' →
      Eventually (Step (env peer m) procs) R (instanceThread code', s')) :
    Eventually (Step (env peer m) procs) R (instanceThread code, s) := by
  refine eventually_call ?_
  rw [Prog.bind_pure]
  refine h.eventually_bind fun r s' hQ => ?_
  cases r with
  | inl r => exact .now (hr r s' hQ)
  | inr code' => exact hn code' s' hQ

end Loop

/-! ## Length fields -/

/-- The length field at the front of a stream. -/
def lengthAt (s : List Byte) : List CInt :=
  if s.length < 4 then [] else [CInt.overwrite 0 (s.take 4)]

/-- The length fields of the first request of a stream. -/
def firstLengths (s : List Byte) : List CInt :=
  let op := CInt.overwrite 0 (s.take 4)
  let keyLen := CInt.overwrite 0 ((s.drop 4).take 4)
  if op = 0 ∨ op = 2 then lengthAt (s.drop 4)
  else if op = 1 then lengthAt (s.drop 4) ++ lengthAt (((s.drop 4).drop 4).drop keyLen.sizeT)
  else []

/-- The length fields of a stream. -/
def lengthsOf (s : List Byte) : List CInt :=
  firstLengths s ++ match h : parse s with
    | .error _ => []
    | .ok (_, rest) =>
      have := parse_length h
      lengthsOf rest
termination_by s.length

theorem lengthsOf_error {s : List Byte} {cut : Cut} (h : parse s = .error cut) :
    lengthsOf s = firstLengths s := by
  rw [lengthsOf]
  split <;> simp_all

theorem lengthsOf_ok {s rest : List Byte} {r : Request} (h : parse s = .ok (r, rest)) :
    lengthsOf s = firstLengths s ++ lengthsOf rest := by
  rw [lengthsOf]
  split <;> simp_all

section Lengths

variable {len : CInt} {s rest str : List Byte} {lc : List Byte → Cut} {c : CInt → List Byte → Cut}
  {r : Request} {cut : Cut}

theorem firstLengths_key (hop : CInt.overwrite 0 (s.take 4) = 0 ∨ CInt.overwrite 0 (s.take 4) = 2) :
    firstLengths s = lengthAt (s.drop 4) := by
  simp only [firstLengths]
  exact if_pos hop

theorem firstLengths_set (hop : CInt.overwrite 0 (s.take 4) = 1) : firstLengths s =
    lengthAt (s.drop 4) ++
      lengthAt (((s.drop 4).drop 4).drop (CInt.overwrite 0 ((s.drop 4).take 4)).sizeT) := by
  have h02 : ¬ (CInt.overwrite 0 (s.take 4) = 0 ∨ CInt.overwrite 0 (s.take 4) = 2) := by
    rw [hop]
    decide
  simp only [firstLengths]
  rw [if_neg h02, if_pos hop]

theorem lengthAt_ok (h : parseString s lc c = .ok (len, str, rest)) : lengthAt s = [len] := by
  obtain ⟨h4, rfl, -⟩ := parseString_ok h
  exact if_neg (not_lt.mpr h4)

theorem firstLengths_ok (h : parse s = .ok (r, rest)) : firstLengths s = r.lengths := by
  obtain ⟨-, ⟨keyLen, key, hop, rfl, hp⟩ | ⟨keyLen, key, t, valueLen, value, hop, rfl, hp, hq⟩ |
    ⟨keyLen, key, hop, rfl, hp⟩ | ⟨op, hop, h0, h1, h2, -, rfl, -⟩⟩ := parse_ok h
  · exact (firstLengths_key (Or.inl hop)).trans (lengthAt_ok hp)
  · obtain ⟨-, hlen, -, -, -, ht⟩ := parseString_ok hp
    rw [firstLengths_set hop, lengthAt_ok hp, ← hlen, ← ht, lengthAt_ok hq]
    rfl
  · exact (firstLengths_key (Or.inr hop)).trans (lengthAt_ok hp)
  · simp only [firstLengths]
    rw [hop, if_neg (not_or.mpr ⟨h0, h2⟩), if_neg h1]
    rfl

theorem mem_lengthsOf (hr : r ∈ (requests s).1) (hl : len ∈ r.lengths) : len ∈ lengthsOf s := by
  induction hn : s.length using Nat.strong_induction_on generalizing s with
  | _ n ih =>
    subst hn
    cases hp : parse s with
    | error cut =>
      rw [requests_error hp] at hr
      cases hr
    | ok x =>
      obtain ⟨r', rest⟩ := x
      rw [requests_ok hp] at hr
      rw [lengthsOf_ok hp, firstLengths_ok hp]
      rcases List.mem_cons.mp hr with rfl | hr
      · exact List.mem_append_left _ hl
      · exact List.mem_append_right _ (ih _ (parse_length hp) hr rfl)

end Lengths

/-! ## The end of the stream -/

/-- `recv` of `n` bytes returns them when they have come, and waits before; `recv` of none waits for
a byte that follows. -/
def Peer.Reliable (peer : Peer) (n : ℕ) : Prop :=
  ∀ avail k, peer.deliver n avail k ↔ k = n ∧ n ≤ avail ∧ 0 < avail

theorem Peer.Reliable.whole {peer : Peer} {n : ℕ} (h : peer.Reliable n) : peer.Whole n where
  all avail k _ hk := ((h avail k).mp hk).1
  comes avail hn h0 := (h avail n).mpr ⟨rfl, hn, h0⟩

/-- The fields with these lengths are delivered whole. -/
structure Peer.Delivers (peer : Peer) (lengths : List CInt) : Prop where
  int : peer.Reliable 4
  string : ∀ len ∈ lengths, Allocates len → peer.Reliable len.sizeT

theorem Peer.Delivers.mono {peer : Peer} {l l' : List CInt} (h : peer.Delivers l) (hl : l' ⊆ l) :
    peer.Delivers l' := ⟨h.int, fun len hlen => h.string len (hl hlen)⟩

section Round

variable {peer : Peer} {m : KV} {P : List Call → Prop} {s : Wire} {code : CInt} {cut : Cut}
  {T : Int → Wire → Prop}

theorem espec_recvCode_waits {Q : CInt → Wire → Prop} (hP : P s.calls) (h4 : peer.Reliable 4)
    (hlen : s.incoming.length < 4) :
    espec (env peer m) False (fun s => P s.calls) (recvCode code) Q T s := by
  refine espec_recvCode hP (fun h => h.elim) fun k hk => ?_
  have hk' := ((h4 _ _).mp hk).2.1
  omega

theorem espec_string_cut {α : Type} {Q : α → Wire → Prop} {g : CInt → Buf → ExceptT Int Net α}
    {lc : List Byte → Cut} {c : CInt → List Byte → Cut} (hP : P s.calls)
    (hp : parseString s.incoming lc c = .error cut) (hd : peer.Delivers (lengthAt s.incoming))
    (hT : ∀ s' : Wire, s'.calls = s.calls → T 1 s') :
    espec (env peer m) False (fun s => P s.calls) (do
      let code ← recvCode code
      let p ← recvString code
      g code p) Q T s := by
  rcases parseString_error hp with ⟨h4, -⟩ | ⟨h4, ⟨ha, -⟩ | ⟨ha, hlt, rfl⟩⟩
  · exact espec_bind (espec_recvCode_waits hP hd.int h4)
  · refine espec_bind (espec_recvCode_whole hP hd.int.whole h4 ?_)
    exact espec_bind (espec_recvString_null hP ha id (hT _ rfl))
  · refine espec_bind (espec_recvCode_whole hP hd.int.whole h4 ?_)
    have hsize := hd.string _ (by rw [lengthAt, if_neg (not_lt.mpr h4)]; simp) ha
    refine espec_bind (espec_recvString hP ha (fun h => h.elim) fun k p _ hk => ?_)
    have hk' : _ ≤ (s.incoming.drop 4).length := ((hsize _ _).mp hk).2.1
    omega

/-- **One round** at the end of the stream calls nothing. -/
theorem spec_round_cut (hP : P s.calls) (hp : parse s.incoming = .error cut)
    (hd : peer.Delivers (firstLengths s.incoming)) :
    (instanceThreadRound code).spec (env peer m) False (fun s => P s.calls)
      (fun res s' => (∃ i, res = .inl i) ∧ P s'.calls) s := by
  have hT : ∀ s' : Wire, s'.calls = s.calls →
      (∃ i, (.inl 1 : Int ⊕ CInt) = .inl i) ∧ P s'.calls := fun s' h => ⟨⟨1, rfl⟩, h ▸ hP⟩
  rcases parse_error hp with ⟨h4, -⟩ | ⟨h4, h⟩
  · exact spec_instanceThreadRound (espec_bind (espec_recvCode_waits hP hd.int h4))
  refine spec_instanceThreadRound (espec_bind (espec_recvCode_whole hP hd.int.whole h4 ?_))
  rcases h with ⟨hop, hq⟩ | ⟨hop, hq⟩ | ⟨hop, keyLen, key, t, hq, hr⟩ | ⟨hop, hq⟩ | ⟨hop, -⟩
  · rw [firstLengths_key (Or.inl hop)] at hd
    rw [hop]
    refine espec_ite (fun _ => espec_bind ?_) fun h => absurd rfl h
    exact espec_string_cut hP hq hd hT
  · rw [firstLengths_set hop] at hd
    rw [hop]
    refine espec_ite (fun h => absurd h (by decide)) fun _ => ?_
    refine espec_ite (fun _ => espec_bind ?_) fun h => absurd rfl h
    exact espec_string_cut hP hq (hd.mono (List.subset_append_left ..)) hT
  · obtain ⟨-, hlen, ha, -, -, ht⟩ := parseString_ok hq
    rw [firstLengths_set hop, lengthAt_ok hq, ← hlen, ← ht] at hd
    rw [hop]
    refine espec_ite (fun h => absurd h (by decide)) fun _ => ?_
    refine espec_ite (fun _ => espec_bind ?_) fun h => absurd rfl h
    have hsize := hd.string keyLen (List.mem_append_left _ (List.mem_singleton_self _)) ha
    refine espec_recvString_whole hP hq hd.int.whole hsize.whole (fun h => h.elim) fun _ p _ => ?_
    exact espec_string_cut (s := ⟨t, s.calls⟩) hP hr (hd.mono (List.subset_append_right ..)) hT
  · rw [firstLengths_key (Or.inr hop)] at hd
    rw [hop]
    refine espec_ite (fun h => absurd h (by decide)) fun _ => ?_
    refine espec_ite (fun h => absurd h (by decide)) fun _ => ?_
    refine espec_ite (fun _ => espec_bind ?_) fun h => absurd rfl h
    exact espec_string_cut hP hq hd hT
  · rw [hop]
    refine espec_ite (fun h => absurd h (by decide)) fun _ => ?_
    refine espec_ite (fun h => absurd h (by decide)) fun _ => ?_
    refine espec_ite (fun h => absurd h (by decide)) fun _ => ?_
    refine espec_ite (fun _ => ?_) fun h => absurd rfl h
    exact espec_bind (espec_sendCode hP (espec_pure ⟨hP, ⟨⟨0, rfl⟩, hP⟩, ⟨1, rfl⟩, hP⟩)
      fun _ => hT _ rfl)

end Round

/-! ## Whole streams -/

section Stream

variable {peer : Peer} {m : KV} {code : CInt} {stream rest : List Byte} {r : Request}

theorem parse_allocates (h : parse stream = .ok (r, rest)) : ∀ len ∈ r.lengths, Allocates len := by
  obtain ⟨-, ⟨keyLen, key, -, rfl, hp⟩ | ⟨keyLen, key, t, valueLen, value, -, rfl, hp, hq⟩ |
    ⟨keyLen, key, -, rfl, hp⟩ | ⟨op, -, -, -, -, -, rfl, -⟩⟩ := parse_ok h
  · simpa [Request.lengths] using (parseString_ok hp).2.2.1
  · simpa [Request.lengths] using ⟨(parseString_ok hp).2.2.1, (parseString_ok hq).2.2.1⟩
  · simpa [Request.lengths] using (parseString_ok hp).2.2.1
  · simp [Request.lengths]

theorem Peer.Delivers.sizes (hd : peer.Delivers r.lengths) (h : parse stream = .ok (r, rest)) :
    ∀ n ∈ r.sizes, peer.Whole n := by
  intro n hn
  rcases List.mem_cons.mp hn with rfl | hn
  · exact hd.int.whole
  · obtain ⟨len, hlen, rfl⟩ := List.mem_map.mp hn
    exact (hd.string len hlen (parse_allocates h len hlen)).whole

/-- A request whose last field is empty is served once a byte follows. -/
theorem Peer.Delivers.completes (hd : peer.Delivers r.lengths) (h : parse stream = .ok (r, rest)) :
    r.Completes peer rest ↔ ¬ (r.Waits ∧ rest = []) := by
  refine ⟨fun hc hw => ?_, fun hn hw hr => absurd ⟨hw, hr⟩ hn⟩
  have hmem : (0 : CInt) ∈ r.lengths := List.mem_of_getLast? hw.1
  have h0 := ((hd.string 0 hmem (parse_allocates h 0 hmem) 0 0).mp (hc hw.1 hw.2)).2.2
  exact absurd h0 (lt_irrefl 0)

variable (m code) in
/-- **The calls of the requests that are served**, and no others, on a reliable connection. -/
theorem always_servedCalls (done : List Call) (hd : peer.Delivers (lengthsOf stream)) :
    Always (env peer m) procs (fun s => s.calls <+: done ++ servedCalls stream)
      (instanceThread code, ⟨stream, done⟩) := by
  induction hn : stream.length using Nat.strong_induction_on generalizing stream done code with
  | _ n ih =>
    subst hn
    have hI : done <+: done ++ servedCalls stream := List.prefix_append ..
    cases hp : parse stream with
    | error cut =>
      rw [lengthsOf_error hp] at hd
      refine always_round hI (spec_round_cut (s := ⟨stream, done⟩)
        (P := fun calls => calls <+: done ++ servedCalls stream) hI hp hd) (fun _ _ h => h.2) ?_
      rintro code' s' ⟨⟨_, hi⟩, -⟩
      cases hi
    | ok x =>
      obtain ⟨r, rest⟩ := x
      rw [lengthsOf_ok hp, firstLengths_ok hp] at hd
      have hd' := hd.mono (List.subset_append_left ..)
      have hc := hd'.completes hp
      refine always_round hI (spec_round m code (s := ⟨stream, done⟩)
        (P := fun calls => calls <+: done ++ servedCalls stream) hI hp (hd'.sizes hp)
        (fun h : False => h.elim) fun h => ?_) ?_ ?_
      · rw [append_servedCalls hp (hc.mp h)]
        exact List.prefix_append ..
      · rintro i s' (⟨_, hi, -⟩ | ⟨-, -, hP⟩)
        · cases hi
        · exact hP
      · rintro code' s' (⟨_, hi, h, rfl, rfl⟩ | ⟨-, hi, -⟩)
        · cases hi
          rw [append_servedCalls hp (hc.mp h)]
          exact ih _ (parse_length hp) _ _ (hd.mono (List.subset_append_right ..)) rfl
        · cases hi

/-- **The calls of the requests**, and no others. -/
theorem always_requests (done : List Call) (hd : peer.Delivers (lengthsOf stream)) :
    Always (env peer m) procs (fun s => s.calls <+: done ++ callsOf stream)
      (instanceThread code, ⟨stream, done⟩) := fun c hc =>
  (always_servedCalls _ _ done hd c hc).trans
    ((List.prefix_append_right_inj done).mpr (servedCalls_initial stream))

variable (m code) in
/-- **All of these calls**, unless `send` fails. -/
theorem eventually_servedCalls {R : Net Int × Wire → Prop} (hs : ¬ peer.sendFails) (done : List Call)
    (hd : ∀ r ∈ (requests stream).1, peer.Delivers r.lengths)
    (hR : ∀ code rest, parse rest = .error (requests stream).2 ∨ (requests stream).2 = .opcode [] →
      Eventually (Step (env peer m) procs) R
        (instanceThread code, ⟨rest, done ++ servedCalls stream⟩)) :
    Eventually (Step (env peer m) procs) R (instanceThread code, ⟨stream, done⟩) := by
  induction hn : stream.length using Nat.strong_induction_on generalizing stream done code with
  | _ n ih =>
    subst hn
    cases hp : parse stream with
    | error cut =>
      have h := hR code stream (Or.inl (by rw [hp, requests_error hp]))
      rwa [servedCalls, served_error hp, List.filterMap_nil, List.append_nil] at h
    | ok x =>
      obtain ⟨r, rest⟩ := x
      rw [requests_ok hp] at hd hR
      have hd' := hd r List.mem_cons_self
      by_cases hw : r.Waits ∧ rest = []
      · obtain ⟨hw, rfl⟩ := hw
        have hnil : requests [] = ([], .opcode []) := requests_error rfl
        have h := hR code stream (Or.inr (by rw [hnil]))
        rwa [servedCalls, served_waits hp hw, List.filterMap_nil, List.append_nil] at h
      rw [append_servedCalls hp hw] at hR
      refine eventually_round (spec_round m code (s := ⟨stream, done⟩) (P := fun _ => True)
        trivial hp (hd'.sizes hp) (fun _ => (hd'.completes hp).mpr hw) fun _ => trivial) ?_ ?_
      · rintro i s' (⟨_, hi, -⟩ | ⟨hf, -⟩)
        · cases hi
        · exact absurd hf hs
      · rintro code' s' (⟨_, hi, -, rfl, rfl⟩ | ⟨-, hi, -⟩)
        · cases hi
          exact ih _ (parse_length hp) _ _ (fun r hr => hd r (List.mem_cons_of_mem _ hr)) hR rfl
        · cases hi

end Stream

/-! ## What the driver sends -/

section Sent

variable {calls : List Call}

/-- The last field that is sent is empty. -/
def EndsEmpty (calls : List Call) : Prop := ∃ call ∈ calls.getLast?, call.strings.getLast? = some []

theorem strings_lt {call : Call} (h : ∀ str ∈ call.strings, str.length ≤ maxStrLen) :
    ∀ str ∈ call.strings, str.length < 2 ^ 31 - 1 := fun str hs => by
  have := h str hs
  simp only [maxStrLen] at this
  omega

theorem lengthsOf_encode (h : ∀ call ∈ calls, ∀ str ∈ call.strings, str.length ≤ maxStrLen) :
    lengthsOf (calls.flatMap Call.encode) = calls.flatMap fun call => call.request.lengths := by
  induction calls with
  | nil => exact lengthsOf_error (show parse [] = .error (.opcode []) from rfl)
  | cons call calls ih =>
    have hp : parse (call.encode ++ calls.flatMap Call.encode) = .ok (call.request, _) :=
      parse_encode (strings_lt (h call List.mem_cons_self))
    rw [List.flatMap_cons, List.flatMap_cons, lengthsOf_ok hp, firstLengths_ok hp,
      ih fun c hc => h c (List.mem_cons_of_mem _ hc)]

theorem flatMap_encode_eq_nil : calls.flatMap Call.encode = [] ↔ calls = [] := by
  cases calls with
  | nil => simp
  | cons call calls => cases call <;> simp [Call.encode, CInt.bytes]

theorem waits_request {call : Call} (h : ∀ str ∈ call.strings, str.length ≤ maxStrLen) :
    call.request.Waits ↔ call.strings.getLast? = some [] := by
  have key : ∀ str ∈ call.strings, (BitVec.ofNat 32 str.length : CInt) = 0 ↔ str = [] :=
    fun str hs => by
    have hlt := strings_lt h str hs
    constructor
    · intro h0
      have hz := congrArg CInt.sizeT h0
      rw [sizeT_length (by omega)] at hz
      exact List.eq_nil_of_length_eq_zero hz
    · rintro rfl
      rfl
  cases call with
  | get k =>
    have hk := key k (by simp [Call.strings])
    simpa [Request.Waits, Call.request, Request.lengths, Call.strings] using hk
  | set k v =>
    have hv := key v (by simp [Call.strings])
    simpa [Request.Waits, Call.request, Request.lengths, Call.strings] using hv
  | del k =>
    have hk := key k (by simp [Call.strings])
    simpa [Request.Waits, Call.request, Request.lengths, Call.strings] using hk

theorem servedCalls_encode (h : ∀ call ∈ calls, ∀ str ∈ call.strings, str.length ≤ maxStrLen) :
    servedCalls (calls.flatMap Call.encode) = calls ↔ ¬ EndsEmpty calls := by
  induction calls with
  | nil => simp [servedCalls, served_error (show parse [] = .error (.opcode []) from rfl), EndsEmpty]
  | cons call calls ih =>
    have hcall := h call List.mem_cons_self
    have hp : parse (call.encode ++ calls.flatMap Call.encode) = .ok (call.request, _) :=
      parse_encode (strings_lt hcall)
    have ih := ih fun c hc => h c (List.mem_cons_of_mem _ hc)
    rw [List.flatMap_cons]
    by_cases hw : call.request.Waits ∧ calls.flatMap Call.encode = []
    · obtain ⟨hw, hnil⟩ := hw
      obtain rfl := flatMap_encode_eq_nil.mp hnil
      rw [servedCalls, served_waits hp hw]
      refine iff_of_false (by simp) (not_not.mpr ⟨call, rfl, (waits_request hcall).mp hw⟩)
    · rw [← List.nil_append (servedCalls _), append_servedCalls hp hw, Call.request_call hcall]
      simp only [Option.toList_some, List.nil_append, List.singleton_append, List.cons.injEq,
        true_and]
      rw [ih]
      cases calls with
      | nil =>
        have hw' : ¬ call.request.Waits := fun h => hw ⟨h, rfl⟩
        rw [waits_request hcall] at hw'
        simpa [EndsEmpty] using hw'
      | cons c cs => rw [EndsEmpty, EndsEmpty, List.getLast?_cons_cons]

end Sent

end MyJQL.Server
