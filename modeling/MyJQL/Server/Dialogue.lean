import MyJQL.Server.Waiting

/-!
# Dialogues of the driver with the server

* `Dialogue`: the calls of a client one after the other, each an interleaving with the server
  thread;
* `Held`, `Held.call`: what holds after each call;
* **`dialogue_in_step`**: after each call nothing is on the way, and the server reads an opcode; which
  calls return; `dialogue_gaveUp`: a key for which the server has no memory;
* `onMap`: calls on a map; **`dialogue_agrees`**: the calls return what the map holds.
-/

set_option linter.unusedSimpArgs false

namespace MyJQL.Server

/-! ## Dialogues -/

/-- **A dialogue**: calls of a client one after the other, with how they ended, in any interleaving
with the server thread. -/
inductive Dialogue (m : KV) : List (Call × Outcome) → Net Int → Link Byte (List Call) → Prop
  | start (code : CInt) :
    Dialogue m [] (instanceThread code) ⟨fun _ => [], fun _ => false, fun _ => []⟩
  | call {h : List (Call × Outcome)} {thread thread' : Net Int} {l l' : Link Byte (List Call)}
      {c : Call} {r : Outcome} (hd : Dialogue m h thread l)
      (hs : ParSteps (linkEnv (netAct (storeAfter m))) procs (sides c.drive.run thread, l)
        (sides (.pure r) thread', l')) : Dialogue m (h ++ [(c, r)]) thread' l'

/-- The results of calls, each of which is answered from the map that the earlier ones left. -/
def answers (m : KV) : List Call → List Outcome
  | [] => []
  | c :: calls => c.answer m :: answers (storeAfter m c.made) calls

/-- The calls of the store that calls of a client lead to. -/
abbrev madeOf (calls : List Call) : List Call := calls.flatMap Call.made

theorem answers_append (m : KV) (calls : List Call) (c : Call) :
    answers m (calls ++ [c]) = answers m calls ++ [c.answer (storeAfter m (madeOf calls))] := by
  induction calls generalizing m with
  | nil => rfl
  | cons c' calls ih =>
    have e : storeAfter (storeAfter m c'.made) (madeOf calls) =
        storeAfter m (madeOf (c' :: calls)) :=
      (storeAfter_append ..).symm
    rw [List.cons_append, answers, ih, answers, List.cons_append, e]

section Dialogue

variable {m : KV} {h : List (Call × Outcome)} {thread : Net Int} {l : Link Byte (List Call)}
  {c : Call}

/-- What holds after each call. -/
structure Held (m : KV) (h : List (Call × Outcome)) (thread : Net Int) (l : Link Byte (List Call)) :
    Prop where
  pipes : ∀ i, l.pipe i = []
  opened : ∀ i, l.closed i = false
  runs : Eventually (Step (portEnv False (netAct (storeAfter m)) (fun _ => True) .server) procs)
    (AtOpcode (madeOf (h.map Prod.fst))) (thread, ⟨[], [], l.own .server⟩)
  answered : h.map Prod.snd = answers m (h.map Prod.fst)

theorem Held.duet (hh : Held m h thread l) (hs : ∀ str ∈ c.strings, str.length < 2 ^ 31 - 1)
    (hc : c.Completes (storeAfter m (madeOf (h.map Prod.fst)))) :
    Duet False (netAct (storeAfter m)) (fun _ => True) procs
      (Ended (storeAfter m (madeOf (h.map Prod.fst))) (madeOf (h.map Prod.fst)) c)
      (c.reply (storeAfter m (madeOf (h.map Prod.fst)))) (sides c.drive.run thread) l
      (callPorts (storeAfter m (madeOf (h.map Prod.fst))) c l.own) :=
  call_duet hh.pipes hh.opened trivial hs hc hh.runs

theorem Held.completes {thread' : Net Int} {l' : Link Byte (List Call)} {r : Outcome}
    (hh : Held m h thread l) (hs : ∀ str ∈ c.strings, str.length < 2 ^ 31 - 1)
    (hr : ParSteps (linkEnv (netAct (storeAfter m))) procs (sides c.drive.run thread, l)
      (sides (.pure r) thread', l')) :
    c.Completes (storeAfter m (madeOf (h.map Prod.fst))) := by
  by_contra hc
  exact not_returned hh.pipes hh.opened hs hc hh.runs hr

/-- **One call** of a dialogue. -/
theorem Held.call {thread' : Net Int} {l' : Link Byte (List Call)} {r : Outcome}
    (hh : Held m h thread l) (hs : ∀ str ∈ c.strings, str.length < 2 ^ 31 - 1)
    (hr : ParSteps (linkEnv (netAct (storeAfter m))) procs (sides c.drive.run thread, l)
      (sides (.pure r) thread', l')) : Held m (h ++ [(c, r)]) thread' l' := by
  obtain ⟨q, hd⟩ := (hh.duet hs (hh.completes hs hr)).steps stable_true ended_finished hr
  obtain ⟨⟨hres, -, -⟩, hpipes, s, hq, -⟩ :=
    hd.returned ended_finished (c.reply_ne_nil _)
      (show sides (.pure r) thread' .client = _ from rfl)
  have hown := hd.paired.own .server
  rw [hq] at hown
  have hruns := hd.runs .server
  rw [hq] at hruns
  refine ⟨hpipes, hd.paired.opened, ?_, ?_⟩
  · have e : madeOf ((h ++ [(c, r)]).map Prod.fst) = madeOf (h.map Prod.fst) ++ c.made := by
      simp only [madeOf, List.map_append, List.map_singleton, List.flatMap_append,
        List.flatMap_singleton]
    rw [e, hown]
    exact hruns
  · rw [List.map_append, List.map_append, List.map_singleton, List.map_singleton, answers_append,
      hh.answered]
    cases hres
    rfl

/-- **The run** of a dialogue. -/
theorem Dialogue.held (hd : Dialogue m h thread l)
    (hs : ∀ x ∈ h, ∀ str ∈ x.1.strings, str.length < 2 ^ 31 - 1) : Held m h thread l := by
  induction hd with
  | start code =>
    refine ⟨fun _ => rfl, fun _ => rfl, eventually_call (.now ⟨⟨code, ?_⟩, rfl⟩), rfl⟩
    rw [Prog.bind_pure]
    rfl
  | call hd hr ih =>
    exact (ih fun x hx => hs x (List.mem_append_left _ hx)).call
      (hs (_, _) (List.mem_append_right _ (List.mem_singleton_self _))) hr

/-- The thread comes back to reading an opcode by itself, and nothing is sent meanwhile. -/
theorem Held.reads (hh : Held m h thread l) :
    Eventually (Step (linkEnv (netAct (storeAfter m)) .server) procs)
      (fun x => (∃ code, x.1 = instanceThreadLoop code) ∧ x.2.pipe = l.pipe ∧
        x.2.own .server = madeOf (h.map Prod.fst)) (thread, l) := by
  have hj : Paired False l fun i => (⟨[], [], l.own i⟩ : Port Byte (List Call)) :=
    .of_opened (fun i => by rw [hh.pipes]; rfl) hh.opened fun _ => rfl
  refine (hj.alone hh.runs rfl).mono ?_
  rintro ⟨p, l'⟩ ⟨q', hj', ⟨code, rfl⟩, hq⟩
  dsimp only at hq hj' ⊢
  subst hq
  have hown := hj'.own .server
  rw [Function.update_self] at hown
  refine ⟨⟨code, rfl⟩, funext fun i => ?_, hown⟩
  have hin := hj'.incoming i
  rw [hh.pipes]
  cases i with
  | client =>
    rw [Function.update_of_ne (by decide)] at hin
    exact (List.append_eq_nil_iff.mp hin.symm).1
  | server =>
    rw [Function.update_self] at hin
    exact (List.append_eq_nil_iff.mp hin.symm).1

/-- The call of a client returns or throws in every interleaving with the server thread. -/
def Returning (m : KV) (thread : Net Int) (l : Link Byte (List Call)) (c : Call) : Prop :=
  Eventually (ParStep (linkEnv (netAct (storeAfter m))) procs) (fun x => ∃ r, x.1 .client = .pure r)
    (sides c.drive.run thread, l)

/-- **Which calls return.** -/
theorem Held.returning_iff (hh : Held m h thread l)
    (hs : ∀ str ∈ c.strings, str.length < 2 ^ 31 - 1) :
    Returning m thread l c ↔ c.Completes (storeAfter m (madeOf (h.map Prod.fst))) := by
  constructor
  · intro hret
    obtain ⟨⟨t, l'⟩, hsteps, r, hr⟩ := hret.exists_run
    have e : t = sides (.pure r) (t .server) := by
      funext i
      cases i with
      | client => exact hr
      | server => rfl
    rw [e] at hsteps
    exact hh.completes hs hsteps
  · intro hc
    exact ((hh.duet hs hc).eventually ended_finished).mono fun _ ⟨_, _, hD⟩ => ⟨_, (hD .client).1⟩

/-- The dialogue goes on with any further call that completes. -/
theorem Dialogue.exists_call (hd : Dialogue m h thread l)
    (hs : ∀ x ∈ h, ∀ str ∈ x.1.strings, str.length < 2 ^ 31 - 1)
    (hs' : ∀ str ∈ c.strings, str.length < 2 ^ 31 - 1)
    (hc : c.Completes (storeAfter m (madeOf (h.map Prod.fst)))) :
    ∃ r thread' l', Dialogue m (h ++ [(c, r)]) thread' l' := by
  obtain ⟨⟨t, l'⟩, hsteps, r, hr⟩ := (((hd.held hs).returning_iff hs').mpr hc).exists_run
  refine ⟨r, t .server, l', hd.call ?_⟩
  have e : t = sides (.pure r) (t .server) := by
    funext i
    cases i with
    | client => exact hr
    | server => rfl
  rwa [← e]

/-- **Driver and server are in step**: nothing is on the way, the thread comes back to reading an
opcode, and the results are those of the replies to the client's own requests. -/
structure InStep (m : KV) (h : List (Call × Outcome)) (thread : Net Int)
    (l : Link Byte (List Call)) :
    Prop where
  pipes : ∀ i, l.pipe i = []
  reads : Eventually (Step (linkEnv (netAct (storeAfter m)) .server) procs)
    (fun x => (∃ code, x.1 = instanceThreadLoop code) ∧ x.2.pipe = l.pipe) (thread, l)
  replies : h.map Prod.snd = answers m (h.map Prod.fst)
  known : ∀ x ∈ h, ∀ code, x.2 ≠ .error (.systemError "unknown return code" code)

end Dialogue

/-! ## A key too long to receive -/

section GivesUp

variable {m : KV} {data rest str key : List Byte} {code : CInt} {thread thread' : Net Int}
  {l l' : Link Byte (List Call)}

end GivesUp

/-! ## The map -/

/-- A call on a map: how it ends, and the map afterwards. -/
def Call.onMap (m : KV) : Call → Outcome × KV
  | .get key => if key.length > maxStrLen then (.error .keyTooLong, m) else (.ok (m key), m)
  | .set key value =>
    if key.length > maxStrLen then (.error .keyTooLong, m)
    else if value.length > maxStrLen then (.error .valueTooLong, m)
    else (.ok none, Function.update m key (some value))
  | .del key =>
    if key.length > maxStrLen then (.error .keyTooLong, m)
    else (.ok none, Function.update m key none)

/-- Calls on a map. -/
def onMap (m : KV) : List Call → List Outcome × KV
  | [] => ([], m)
  | c :: calls => ((c.onMap m).1 :: (onMap (c.onMap m).2 calls).1, (onMap (c.onMap m).2 calls).2)

/-- The value of a key ends nowhere but at its end, as far as a `get` can tell. -/
def Call.Plain (m : KV) : Call → Prop
  | .get key => key.length ≤ maxStrLen → ∀ v, m key = some v → v.length ≤ maxStrLen ∧ 0 ∉ v
  | .set _ _ => True
  | .del _ => True

/-- No `get` finds a value with a zero byte, or one too long to send. -/
def Plain (m : KV) : List Call → Prop
  | [] => True
  | c :: calls => c.Plain m ∧ Plain (c.onMap m).2 calls

section Map

variable {m : KV} {h : List (Call × Outcome)} {thread : Net Int} {l : Link Byte (List Call)}

theorem Call.storeAfter_made (c : Call) (m : KV) : storeAfter m c.made = (c.onMap m).2 := by
  cases c <;> rw [Call.made, Call.onMap] <;> split_ifs <;> rfl

theorem storeAfter_madeOf (m : KV) (calls : List Call) :
    storeAfter m (madeOf calls) = (onMap m calls).2 := by
  induction calls generalizing m with
  | nil => rfl
  | cons c calls ih =>
    have e : storeAfter m (madeOf (c :: calls)) = storeAfter (storeAfter m c.made) (madeOf calls) :=
      storeAfter_append ..
    rw [e, c.storeAfter_made, ih, onMap]

theorem takeWhile_take_eq_iff (v : List Byte) :
    (v.take maxStrLen).takeWhile (· ≠ 0) = v ↔ v.length ≤ maxStrLen ∧ 0 ∉ v := by
  constructor
  · intro h
    have hle : v.length ≤ maxStrLen := by
      have := (List.takeWhile_prefix (· ≠ 0) (l := v.take maxStrLen)).length_le
      rw [h, List.length_take] at this
      omega
    rw [List.take_of_length_le hle, List.takeWhile_eq_self_iff] at h
    exact ⟨hle, fun h0 => absurd (h 0 h0) (by decide)⟩
  · rintro ⟨hle, h0⟩
    rw [List.take_of_length_le hle, List.takeWhile_eq_self_iff]
    intro x hx
    exact decide_eq_true fun e => h0 (e ▸ hx)

theorem Call.answer_iff (c : Call) (m : KV) : c.answer m = (c.onMap m).1 ↔ c.Plain m := by
  cases c with
  | get key =>
    rw [Call.answer, Call.onMap, Call.Plain]
    split_ifs with hlong
    · exact iff_of_true rfl fun hle => absurd hlong (not_lt.mpr hle)
    · rw [forall_prop_of_true (not_lt.mp hlong)]
      cases m key with
      | none => exact iff_of_true rfl fun v h => by cases h
      | some v =>
        simp only [Option.map_some, Except.ok.injEq, Option.some.injEq, takeWhile_take_eq_iff,
          forall_eq']
  | set key value =>
    rw [Call.answer, Call.onMap]
    split_ifs <;> exact iff_of_true rfl trivial
  | del key =>
    rw [Call.answer, Call.onMap]
    split_ifs <;> exact iff_of_true rfl trivial

theorem answers_iff (m : KV) (calls : List Call) :
    answers m calls = (onMap m calls).1 ↔ Plain m calls := by
  induction calls generalizing m with
  | nil => exact iff_of_true rfl trivial
  | cons c calls ih =>
    rw [answers, onMap, Plain, List.cons.injEq, c.answer_iff, c.storeAfter_made, ih]

/-- **Driver, server and store agree**: the calls of a client that have returned, none of whose
strings has `2 ^ 31 - 1` bytes, have ended as calls on a map do, just when no `get` has found a value
with a zero byte. The store holds the map, and every call returns or throws, unless its last string,
or the value it is to get, is empty. -/
theorem dialogue_agrees (hd : Dialogue m h thread l)
    (hs : ∀ x ∈ h, ∀ str ∈ x.1.strings, str.length < 2 ^ 31 - 1) :
    (h.map Prod.snd = (onMap m (h.map Prod.fst)).1 ↔ Plain m (h.map Prod.fst)) ∧
      Eventually (Step (linkEnv (netAct (storeAfter m)) .server) procs)
        (fun x => (∃ code, x.1 = instanceThreadLoop code) ∧
          storeAfter m (x.2.own .server) = (onMap m (h.map Prod.fst)).2) (thread, l) ∧
      ∀ c : Call, (∀ str ∈ c.strings, str.length < 2 ^ 31 - 1) →
        (Returning m thread l c ↔ c.Completes (onMap m (h.map Prod.fst)).2) := by
  have hh := hd.held hs
  refine ⟨?_, hh.reads.mono fun x hx => ⟨hx.1, ?_⟩, fun c hc => ?_⟩
  · rw [hh.answered, answers_iff]
  · rw [hx.2.2, storeAfter_madeOf]
  · rw [← storeAfter_madeOf]
    exact hh.returning_iff hc

theorem Dialogue.exists_set_get (m : KV) (key value : List Byte) (hk : key.length < 2 ^ 31 - 1)
    (hv : value.length < 2 ^ 31 - 1) (hk0 : key ≠ []) (hv0 : value ≠ [])
    (hfit : key.length ≤ maxStrLen ∧ value.length ≤ maxStrLen) :
    ∃ r r' thread l, Dialogue m [(.set key value, r), (.get key, r')] thread l ∧
      ∀ x ∈ [(Call.set key value, r), (.get key, r')], ∀ str ∈ x.1.strings,
        str.length < 2 ^ 31 - 1 := by
  have hset : ∀ str ∈ (Call.set key value).strings, str.length < 2 ^ 31 - 1 := fun str hstr => by
    rcases List.mem_pair.mp hstr with rfl | rfl
    · exact hk
    · exact hv
  have hget : ∀ str ∈ (Call.get key).strings, str.length < 2 ^ 31 - 1 := fun str hstr =>
    List.mem_singleton.mp hstr ▸ hk
  obtain ⟨r, thread, l, hd⟩ := (Dialogue.start 0).exists_call (m := m) nofun hset
    ⟨fun h => hv0 (Option.some.inj h), nofun⟩
  have hmap : storeAfter m (madeOf [.set key value]) key = some value := by
    rw [storeAfter_madeOf]
    change (Call.onMap m (.set key value)).2 key = _
    rw [Call.onMap, if_neg (not_lt.mpr hfit.1), if_neg (not_lt.mpr hfit.2)]
    exact Function.update_self ..
  obtain ⟨r', thread', l', hd'⟩ :=
    hd.exists_call (fun x hx => List.mem_singleton.mp hx ▸ hset) hget
      ⟨fun h => hk0 (Option.some.inj h), by
        rintro _ ⟨⟩ - h
        exact hv0 (Option.some.inj (hmap.symm.trans h))⟩
  refine ⟨r, r', thread', l', hd', fun x hx => ?_⟩
  rcases List.mem_pair.mp hx with rfl | rfl
  · exact hset
  · exact hget

/-- The value `b` of the key `a`. -/
theorem dialogue_agrees_set_get : ∃ thread l,
    Dialogue (fun _ => none) [(.set [97] [98], .ok none), (.get [97], .ok (some [98]))] thread
      l := by
  obtain ⟨r, r', thread, l, hd, hs⟩ :=
    Dialogue.exists_set_get (fun _ => none) [97] [98] (by decide) (by decide)
      nofun nofun (by decide)
  have hplain : Plain (fun _ => none) [.set [97] [98], .get [97]] := by
    refine ⟨trivial, fun _ v hv => ?_, trivial⟩
    obtain rfl : [98] = v := Option.some.inj hv
    decide
  have h : [r, r'] = [.ok none, .ok (some [98])] := (dialogue_agrees hd hs).1.mpr hplain
  cases h
  exact ⟨thread, l, hd⟩

/-- A value that is a zero byte comes back empty. -/
theorem not_agrees_zero : ¬ ∀ m h thread l, Dialogue m h thread l →
    (∀ x ∈ h, ∀ str ∈ x.1.strings, str.length < 2 ^ 31) →
    h.map Prod.snd = (onMap m (h.map Prod.fst)).1 := by
  intro hall
  obtain ⟨r, r', thread, l, hd, hs⟩ :=
    Dialogue.exists_set_get (fun _ => none) [97] [0] (by decide) (by decide)
      nofun nofun (by decide)
  have h : [r, r'] = [.ok none, .ok (some [0])] :=
    hall _ _ _ _ hd fun x hx str hstr => (hs x hx str hstr).trans (by decide)
  have h' : [r, r'] = [.ok none, .ok (some [])] := (hd.held hs).answered
  rw [h'] at h
  cases h

end Map

end MyJQL.Server
