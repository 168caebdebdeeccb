import MyJQL.Lib.Callers
import MyJQL.Server.Stack
import MyJQL.Shell.Commands
import MyJQL.Shell.ReadInput

/-!
# Sessions of the shell

* `Console`, `consoleSem`, `clientCall`: the input and the output of a shell, and its calls of the
  driver;
* `Command.effect`, `session`: what commands and whole inputs do on a map; **`session_eq`**: it is
  what `main` executes, line by line;
* **`shell_orderly`**: a shell comes to its end whatever its calls return; **`shell_session`**: with
  calls of a map, it prints what a session on this map prints.
-/

set_option linter.unusedSimpArgs false

namespace MyJQL.Shell

open Server

/-! ## The console -/

/-- The standard input that is left, whether its end has been met, and what has been printed. -/
structure Console where
  input : List Byte
  atEnd : Bool
  out : List Byte

/-- What a shell does at its console. -/
def consoleSem : Sem (SumEff ShellEff CommandEff) Console := fun e s =>
  match e with
  | .inl .getchar =>
    match s.input with
    | [] => some (eof, { s with atEnd := true })
    | b :: l => some ((b.toNat : Int), { s with input := l })
  | .inl (.emit e) => some ((), { s with out := s.out ++ e.text })
  | .inr (.printf text) => some ((), { s with out := s.out ++ text })
  | .inr (.client _) => none
  | .inr .undefined => none

/-- The calls of the driver. -/
def clientCall : ∀ β, SumEff ShellEff CommandEff β → Option (CallOf Call Outcome β)
  | _, .inr (.client c) => some (.call c)
  | _, _ => none

/-! ## Sessions on a map -/

/-- What a command prints, and the map afterwards. -/
def Command.effect (m : KV) : Command → List Byte × KV
  | .call (.get key) =>
    match m key with
    | some value => (value ++ ascii "\n", m)
    | none => (ascii "(not found)\n", m)
  | .call (.set key value) => (ascii "OK\n", Function.update m key (some value))
  | .call (.del key) => (ascii "OK\n", Function.update m key none)
  | .invalidInput => (ascii "Invalid input.\n", m)
  | .invalidCommand => (ascii "Invalid command.\n", m)

/-- **A session** on a map: what is printed for these lines, and the map afterwards. It ends with the
line `exit`, or with the input. -/
def session (m : KV) : List (List Byte) → List Byte × KV
  | [] => (ascii "myjql> ", m)
  | line :: lines =>
    if inputBufferSize < line.length then
      (ascii "myjql> " ++ ascii "Input is too long.\n" ++ (session m lines).1, (session m lines).2)
    else if line.takeWhile (· ≠ 0) = exitWord then (ascii "myjql> " ++ ascii "bye~\n", m)
    else
      let r := (parse line).effect m
      (ascii "myjql> " ++ r.1 ++ (session r.2 lines).1, (session r.2 lines).2)

/-- What an event of `main` prints, and the map afterwards. -/
def Event.effect (m : KV) : Event → List Byte × KV
  | .execute line => (parse line).effect m
  | e => (e.text, m)

/-- What events print, and the map afterwards. -/
def replay (m : KV) (log : List Event) : List Byte × KV :=
  log.foldl (fun x e => (x.1 ++ (e.effect x.2).1, (e.effect x.2).2)) ([], m)

section Replay

variable {m : KV} {line : List Byte} {log : List Event}

theorem replay_snoc (m : KV) (log : List Event) (e : Event) : replay m (log ++ [e]) =
    ((replay m log).1 ++ (e.effect (replay m log).2).1, (e.effect (replay m log).2).2) := by
  rw [replay, List.foldl_append, List.foldl_cons, List.foldl_nil, replay]

theorem replay_append (m : KV) (log log' : List Event) : replay m (log ++ log') =
    ((replay m log).1 ++ (replay (replay m log).2 log').1, (replay (replay m log).2 log').2) := by
  induction log' using List.reverseRecOn with
  | nil =>
    rw [List.append_nil]
    exact Prod.ext (List.append_nil _).symm rfl
  | append_singleton log' e ih =>
    rw [← List.append_assoc, replay_snoc, ih, replay_snoc, List.append_assoc]

theorem replay_cons (m : KV) (e : Event) (log : List Event) : replay m (e :: log) =
    ((e.effect m).1 ++ (replay (e.effect m).2 log).1, (replay (e.effect m).2 log).2) :=
  replay_append m [e] log

theorem parse_takeWhile (line : List Byte) : parse (line.takeWhile (· ≠ 0)) = parse line := by
  have h : words (line.takeWhile (· ≠ 0)) = words line := by
    rw [words, words, List.takeWhile_takeWhile]
    simp
  rw [parse, parse, h]

/-- **A session is what `main` executes**, line by line. -/
theorem session_eq (m : KV) (lines : List (List Byte)) :
    replay m (transcript lines) = session m lines := by
  induction lines generalizing m with
  | nil => rfl
  | cons line lines ih =>
    rw [transcript, session]
    split_ifs with hlong hexit
    · rw [replay_cons, replay_cons]
      dsimp only [Event.effect, Event.text]
      rw [ih, List.append_assoc]
    · rw [replay_cons, replay_cons]
      rfl
    · rw [replay_cons, replay_cons]
      dsimp only [Event.effect, Event.text]
      rw [ih, parse_takeWhile, List.append_assoc]

end Replay

/-! ## A shell by itself -/

/-- The lines that have been executed fit into the buffer, and their calls are `ok`. -/
def Fine (ok : Call → Prop) (o : Terminal) : Prop := ∀ line, .execute line ∈ o.log →
  line.length ≤ inputBufferSize ∧ ∀ c, parse line = .call c → ok c

/-- The console has the input of the terminal. -/
def SameInput (o : Terminal) (s : Console) : Prop := s.input = o.input ∧ s.atEnd = o.atEnd

section Linked

variable {ok : Call → Prop} {o o' : Terminal} {s : Console} {m m' : KV} {line text : List Byte} {c : Call}
  {β : Type}

/-- `getchar`, at the terminal and at the console. -/
theorem getchar_eq (o : Terminal) : ∃ b input atEnd,
    terminalSem .getchar o = some (b, ⟨input, atEnd, o.log⟩) ∧
      ∀ s : Console, SameInput o s →
        consoleSem (.inl .getchar) s = some (b, ⟨input, atEnd, s.out⟩) := by
  obtain ⟨input, atEnd, log⟩ := o
  cases input with
  | nil =>
    refine ⟨_, _, _, rfl, ?_⟩
    rintro ⟨input, atEnd, out⟩ ⟨hin, hend⟩
    dsimp only at hin hend
    subst hin hend
    rfl
  | cons b l =>
    refine ⟨_, _, _, rfl, ?_⟩
    rintro ⟨input, atEnd, out⟩ ⟨hin, hend⟩
    dsimp only at hin hend
    subst hin hend
    rfl

theorem fine_backward : Backward (Fine ok) terminalSem := by
  intro β e o b o' he hP line hline
  cases e with
  | getchar =>
    obtain ⟨b', input, atEnd, h, -⟩ := getchar_eq o
    cases h.symm.trans he
    exact hP line hline
  | emit e =>
    cases he
    exact hP line (List.mem_append_left _ hline)

variable (m m') in
theorem console_outer {e : ShellEff β} {b : β} (hi : commands β e = none)
    (he : terminalSem e o = some (b, o')) (hR : SameInput o s) :
    ∃ s', consoleSem (.inl e) s = some (b, s') ∧ SameInput o' s' ∧
      (replay m o.log = (s.out, m') → replay m o'.log = (s'.out, m')) := by
  cases e with
  | getchar =>
    obtain ⟨b', input, atEnd, h, hs⟩ := getchar_eq o
    cases h.symm.trans he
    exact ⟨_, hs s hR, ⟨rfl, rfl⟩, id⟩
  | emit e =>
    cases he
    refine ⟨_, rfl, hR, fun h => ?_⟩
    rw [replay_snoc, h]
    cases e with
    | execute line => cases hi
    | prompt => rfl
    | tooLong => rfl
    | bye => rfl

variable (ok) in
theorem linked_any : LinkedAs commands terminalSem (Fine ok)
    (anyEnv clientCall (semEnv consoleSem) ok) SameInput where
  backward := fine_backward
  outer e o b o' s hi he hR := by
    obtain ⟨s', hs, hR', -⟩ := console_outer (fun _ => none) (fun _ => none) hi he hR
    refine ⟨⟨b, s', hs⟩, fun b' s'' hs' => ?_⟩
    cases hs.symm.trans hs'
    exact ⟨rfl, hR'⟩
  inner e p o b o' s hi he hP hR := by
    have hprint : ∀ (text : List Byte) (s : Console), SameInput o' s →
        (printf text).spec (fun β e => anyEnv clientCall (semEnv consoleSem) ok β (.inr e)) True
          (fun _ => True) (fun _ s' => SameInput o' s') s := by
      intro text s hR
      refine ⟨trivial, fun _ => ⟨(), _, rfl⟩, fun b s' hs => ?_⟩
      cases hs
      exact hR
    cases e with
    | getchar => cases hi
    | emit e =>
      cases e with
      | execute line =>
        cases hi
        cases he
        obtain ⟨hlen, hok⟩ := hP line (List.mem_append_right _ (List.mem_singleton_self _))
        rw [execute_eq hlen]
        refine Prog.spec.mono ?_ fun _ s' h => ⟨rfl, h⟩
        cases hp : parse line with
        | invalidInput => exact hprint _ s hR
        | invalidCommand => exact hprint _ s hR
        | call c =>
          refine ⟨trivial, fun _ => ⟨.ok none, s, hok c hp, rfl⟩, fun r s' hs => ?_⟩
          obtain ⟨-, rfl⟩ := hs
          exact hprint _ s' hR
      | prompt => cases hi
      | tooLong => cases hi
      | bye => cases hi

theorem sendable_of_parse (hlen : line.length ≤ inputBufferSize) (h : parse line = .call c) :
    c.Sendable ∧ ∀ str ∈ c.strings, str.length ≤ Server.maxStrLen := by
  have hshort : ∀ str ∈ c.strings, str.length ≤ Server.maxStrLen := fun str hstr =>
    (length_le_of_mem_words (strings_of_parse h str hstr)).trans hlen
  have hlast : c.strings.getLast? ≠ some [] := fun hlast =>
    ne_nil_of_mem_words (strings_of_parse h _ (List.mem_of_getLast? hlast)) rfl
  refine ⟨⟨⟨fun str hstr => (hshort str hstr).trans_lt (by decide), hlast⟩, ?_⟩, hshort⟩
  rintro key value rfl
  exact zero_not_mem_words (strings_of_parse h value (by simp [Call.strings]))

/-- **What is printed for a call**: no call of a command fails. -/
theorem effect_call (hm : Server.Readable m)
    (hs : ∀ str ∈ c.strings, str.length ≤ Server.maxStrLen) :
    (Command.call c).effect m = (said c (c.onMap m).1, (c.onMap m).2) := by
  cases c with
  | get key =>
    rw [Call.onMap, if_neg (not_lt.mpr (hs key List.mem_cons_self)), Command.effect]
    dsimp only [said]
    cases hk : m key with
    | none => rfl
    | some v =>
      have h0 : v.takeWhile (· ≠ 0) = v := List.takeWhile_eq_self_iff.mpr fun b hb =>
        decide_eq_true fun e => (hm key v hk).2.2 (e ▸ hb)
      rw [report, h0]
  | set key value =>
    rw [Call.onMap, if_neg (not_lt.mpr (hs key (by simp [Call.strings]))),
      if_neg (not_lt.mpr (hs value (by simp [Call.strings])))]
    rfl
  | del key =>
    rw [Call.onMap, if_neg (not_lt.mpr (hs key List.mem_cons_self))]
    rfl

/-- The console and the map are what the events make of the map `m`. -/
def Replayed (m : KV) (o : Terminal) (s : Console × KV) : Prop :=
  SameInput o s.1 ∧ replay m o.log = (s.1.out, s.2) ∧ Server.Readable s.2

variable (m ok) in
theorem linked_map : LinkedAs commands terminalSem (Fine ok)
    (callerEnv clientCall (semEnv consoleSem) fun c m => c.onMap m) (Replayed m) where
  backward := fine_backward
  outer e o b o' s hi he hR := by
    obtain ⟨s', hs, hR', hreplay⟩ := console_outer m s.2 hi he hR.1
    refine ⟨⟨b, (s', s.2), hs, rfl⟩, fun b' s'' ⟨hs', h2⟩ => ?_⟩
    cases hs.symm.trans hs'
    exact ⟨rfl, hR', h2 ▸ hreplay hR.2.1, h2 ▸ hR.2.2⟩
  inner e p o b o' s hi he hP hR := by
    have hprint : ∀ (text : List Byte) (s : Console × KV), SameInput o' s.1 →
        Server.Readable s.2 → replay m o'.log = (s.1.out ++ text, s.2) →
        (printf text).spec (fun β e => callerEnv clientCall (semEnv consoleSem)
          (fun c m => c.onMap m) β (.inr e)) True (fun _ => True) (fun _ s' => Replayed m o' s') s := by
      intro text s hR hm hreplay
      refine ⟨trivial, fun _ => ⟨(), (_, s.2), rfl, rfl⟩, fun b s' ⟨hs, h2⟩ => ?_⟩
      obtain ⟨s1, s2⟩ := s'
      cases h2
      cases hs
      exact ⟨hR, hreplay, hm⟩
    cases e with
    | getchar => cases hi
    | emit e =>
      cases e with
      | execute line =>
        cases hi
        cases he
        obtain ⟨hlen, -⟩ := hP line (List.mem_append_right _ (List.mem_singleton_self _))
        obtain ⟨hin, hreplay, hm⟩ := hR
        rw [execute_eq hlen]
        refine Prog.spec.mono ?_ fun _ s' h => ⟨rfl, h⟩
        dsimp only at hprint
        rw [replay_snoc, hreplay, Event.effect] at hprint
        cases hp : parse line with
        | invalidInput =>
          rw [hp] at hprint
          exact hprint _ s hin hm rfl
        | invalidCommand =>
          rw [hp] at hprint
          exact hprint _ s hin hm rfl
        | call c =>
          obtain ⟨hsend, hshort⟩ := sendable_of_parse hlen hp
          rw [hp, effect_call hm hshort] at hprint
          refine ⟨trivial, fun _ => ⟨(c.onMap s.2).1, (s.1, (c.onMap s.2).2), rfl, rfl⟩,
            fun r s' ⟨hs, h1⟩ => ?_⟩
          obtain ⟨s1, s2⟩ := s'
          cases h1
          obtain ⟨rfl, rfl⟩ : r = (c.onMap s.2).1 ∧ s2 = (c.onMap s.2).2 := Prod.ext_iff.mp hs
          exact hprint _ _ hin (hm.onMap hsend) rfl
      | prompt => cases hi
      | tooLong => cases hi
      | bye => cases hi

end Linked

/-! ## Whole inputs -/

section Inputs

variable {ok : Call → Prop} {lines : List (List Byte)} {line stdin : List Byte} {m : KV}

theorem execute_mem_transcript (h : .execute line ∈ transcript lines) :
    ∃ l ∈ lines, l.length ≤ inputBufferSize ∧ line = l.takeWhile (· ≠ 0) := by
  induction lines with
  | nil => simp [transcript] at h
  | cons l lines ih =>
    rw [transcript] at h
    split_ifs at h with hlong hexit
    · obtain ⟨l', hl', h'⟩ := ih (by simpa using h)
      exact ⟨l', List.mem_cons_of_mem _ hl', h'⟩
    · simp at h
    · rcases List.mem_cons.mp h with h | h
      · cases h
      · rcases List.mem_cons.mp h with h | h
        · cases h
          exact ⟨l, List.mem_cons_self, not_lt.mp hlong, rfl⟩
        · obtain ⟨l', hl', h'⟩ := ih h
          exact ⟨l', List.mem_cons_of_mem _ hl', h'⟩

/-- The calls of the lines of an input that fit into the buffer are `ok`. -/
def Calls (ok : Call → Prop) (stdin : List Byte) : Prop :=
  ∀ line ∈ (splitLines stdin).1, line.length ≤ inputBufferSize → ∀ c, parse line = .call c → ok c

theorem calls_sendable (stdin : List Byte) : Calls Call.Sendable stdin :=
  fun _ _ hlen _ hc => (sendable_of_parse hlen hc).1

/-- An input with a line `exit`, up to which no byte is taken for `EOF`. -/
abbrev ExitInput (stdin : List Byte) : Prop := Exits (splitLines stdin).1

/-- **`main`** by itself, at the terminal. -/
theorem main_returns (hr : ExitInput stdin) (hok : Calls ok stdin) :
    ∃ o, Returns terminalSem shellProcs main.run ⟨stdin, false, []⟩ (.ok 0) o ∧ Fine ok o ∧
      o.log = transcript (splitLines stdin).1 := by
  have hmain : wp terminalSem shellProcs main.run
      (fun r o => r = .ok 0 ∧ o.log = transcript (splitLines stdin).1) ⟨stdin, false, []⟩ :=
    main_lines (newline_not_mem_splitLines stdin).1 hr (joinLines_splitLines stdin).symm
  obtain ⟨_, o, hret, rfl, hlog⟩ := hmain
  refine ⟨o, hret, fun line hline => ?_, hlog⟩
  rw [hlog] at hline
  obtain ⟨l, hl, hlen, rfl⟩ := execute_mem_transcript hline
  refine ⟨(List.takeWhile_prefix _).length_le.trans hlen, fun c hc => hok l hl hlen c ?_⟩
  rwa [parse_takeWhile] at hc

/-- **A shell leaves its loop and returns**, whatever its calls return. -/
theorem shell_orderly (hr : ExitInput stdin) (hok : Calls ok stdin) :
    Eventually (Step (anyEnv clientCall (semEnv consoleSem) ok) shellBodies)
      (fun c => c.1 = .pure (.ok 0)) (shell, ⟨stdin, false, []⟩) := by
  obtain ⟨o, hret, hfine, -⟩ := main_returns hr hok
  exact ((linked_any ok).eventually hret hfine ⟨rfl, rfl⟩).mono fun c hc => hc.1

/-- **A shell whose calls are those of a map** prints what a session prints. -/
theorem shell_session (hr : ExitInput stdin) (hm : Server.Readable m) :
    Eventually (Step (callerEnv clientCall (semEnv consoleSem) fun c m => c.onMap m) shellBodies)
      (fun c => c.1 = .pure (.ok 0) ∧ (c.2.1.out, c.2.2) = session m (splitLines stdin).1)
      (shell, (⟨stdin, false, []⟩, m)) := by
  have hok : Calls (fun _ => True) stdin := fun _ _ _ _ _ => trivial
  obtain ⟨o, hret, hfine, hlog⟩ := main_returns hr hok
  have hstart : Replayed m ⟨stdin, false, []⟩ (⟨stdin, false, []⟩, m) := ⟨⟨rfl, rfl⟩, rfl, hm⟩
  refine ((linked_map (fun _ => True) m).eventually hret hfine hstart).mono ?_
  rintro c ⟨hp, -, hreplay, -⟩
  exact ⟨hp, by rw [← hreplay, hlog, session_eq]⟩

end Inputs

end MyJQL.Shell
