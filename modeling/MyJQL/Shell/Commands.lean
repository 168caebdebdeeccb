import MyJQL.Lib.Linking
import MyJQL.Model.Shell
import MyJQL.Server.Dialogue

/-!
# The commands of the shell

`myjqlshell.cpp`, from the lines that `main` executes on.

* `scanWord`, `scanf`, `sscanf`: `sscanf` with formats of `%s` and `%*s`;
* `attempt`, `execute`: a call of the driver, and the rest of the loop of `main` on a line;
* `Event.text`, `commands`, `shell`: what `main` prints, and `main` with the commands;
* `words`, `Command`, `parse`: what a line says; **`execute_eq`**: the shell does what it says.
-/

set_option linter.unusedSimpArgs false

namespace MyJQL.Shell

open Server

/-! ## The program -/

/-- The bytes of a text. -/
def ascii (s : String) : List Byte := s.toList.map fun c => BitVec.ofNat 8 c.toNat

/-- `isspace`. -/
def isSpace (b : Byte) : Bool := b == 32 || (9 ≤ b.toNat && b.toNat ≤ 13)

/-- What `%s` takes: neither white space nor the end of the string. -/
def isWordChar (b : Byte) : Bool := b != 0 && !isSpace b

/-- `%s`: the next word, and what follows it. -/
def scanWord (l : List Byte) : Option (List Byte × List Byte) :=
  match (l.dropWhile isSpace).span isWordChar with
  | ([], _) => none
  | (w, rest) => some (w, rest)

/-- The words that a format stores. Each `%s` is `true`, each `%*s` is `false`. -/
def scanf : List Bool → List Byte → List (List Byte)
  | [], _ => []
  | store :: format, l =>
    match scanWord l with
    | none => []
    | some (w, rest) => if store then w :: scanf format rest else scanf format rest

/-- What a command does: it prints, or calls the driver. -/
inductive CommandEff : Type → Type
  | printf (text : List Byte) : CommandEff Unit
  | client (c : Call) : CommandEff Outcome
  | undefined : CommandEff Empty

/-- No procedures. -/
abbrev NoProc : Type → Type := fun _ => Empty

/-- Programs of commands. -/
abbrev CommandProg := Prog CommandEff NoProc

/-- `printf`. -/
def printf (text : List Byte) : CommandProg Unit := .eff (.printf text)

/-- `sscanf` into arrays of `INPUT_BUFFER_SIZE + 1` characters. -/
def sscanf (format : List Bool) (line : List Byte) : CommandProg (List (List Byte)) :=
  if ∀ w ∈ scanf format line, w.length ≤ inputBufferSize then return scanf format line
  else .op .undefined Empty.elim

/-- `what` of an exception of the driver. -/
def what : Client.Error → String
  | .systemError msg _ => msg
  | .keyTooLong => "key is too long"
  | .valueTooLong => "value is too long"

/-- What is printed for the result of a call. -/
def report : Call → Option (List Byte) → List Byte
  | .get _, some value => value.takeWhile (· ≠ 0) ++ ascii "\n"
  | .get _, none => ascii "(not found)\n"
  | .set _ _, _ => ascii "OK\n"
  | .del _, _ => ascii "OK\n"

/-- `"Invalid input.\n"`. -/
def invalidInput : List Byte := ascii "Invalid input.\n"

/-- What is printed for a call that returns or throws. -/
def said (c : Call) : Outcome → List Byte
  | .ok r => report c r
  | .error e => ascii "Error: " ++ ascii (what e) ++ ascii "\n"

/-- A call of the driver, and what is printed for it. -/
def attempt (c : Call) : CommandProg Unit := do
  let r ← .eff (.client c)
  printf (said c r)

/-- The loop of `main`, on a line that is not `exit`. -/
def execute (line : List Byte) : CommandProg Unit := do
  match ← sscanf [true] line with
  | [command] =>
    if command = ascii "get" then do
      match ← sscanf [false, true] line with
      | [key] => attempt (.get key)
      | _ => printf invalidInput
    else if command = ascii "set" then do
      match ← sscanf [false, true, true] line with
      | [key, value] => attempt (.set key value)
      | _ => printf invalidInput
    else if command = ascii "del" then do
      match ← sscanf [false, true] line with
      | [key] => attempt (.del key)
      | _ => printf invalidInput
    else printf (ascii "Invalid command.\n")
  | _ => printf invalidInput

/-- What `main` prints itself. -/
def Event.text : Event → List Byte
  | .prompt => ascii "myjql> "
  | .tooLong => ascii "Input is too long.\n"
  | .bye => ascii "bye~\n"
  | .execute _ => []

/-- The lines that `main` executes, as programs. -/
def commands : ∀ β, ShellEff β → Option (CommandProg β)
  | _, .emit (.execute line) => some (execute line)
  | _, _ => none

/-- `main`, with the commands. -/
def shell : Prog (SumEff ShellEff CommandEff) (SumProc ShellEff ShellProc NoProc) (Except Int Int) :=
  main.run.link commands

/-- The bodies of the loops. -/
def shellBodies : Bodies (SumEff ShellEff CommandEff) (SumProc ShellEff ShellProc NoProc) :=
  linkBodies commands shellProcs fun c => c.elim

/-! ## Words -/

/-- The words of a line. -/
def words (l : List Byte) : List (List Byte) :=
  ((l.takeWhile (· ≠ 0)).splitOnP isSpace).filter (· ≠ [])

section Words

variable {l w rest : List Byte} {b : Byte}

theorem isWordChar_eq_true : isWordChar b = true ↔ b ≠ 0 ∧ isSpace b = false := by
  simp [isWordChar]

theorem words_dropWhile (l : List Byte) : words (l.dropWhile isSpace) = words l := by
  induction l with
  | nil => rfl
  | cons b l ih =>
    rw [List.dropWhile_cons]
    split_ifs with hb
    · have hne : b ≠ 0 := by
        rintro rfl
        cases hb
      rw [ih, words, words,
        List.takeWhile_cons_of_pos (by simpa using hne), List.splitOnP_cons_eq_if_modifyHead,
        if_pos hb, List.filter_cons_of_neg (by simp)]
    · rfl

theorem splitOnP_word (hw : ∀ b ∈ w, isWordChar b = true) (rest : List Byte) :
    ((w ++ rest).takeWhile (· ≠ 0)).splitOnP isSpace =
      ((rest.takeWhile (· ≠ 0)).splitOnP isSpace).modifyHead (w ++ ·) := by
  induction w with
  | nil => exact (congrFun List.modifyHead_id _).symm
  | cons b w ih =>
    obtain ⟨hb, hs⟩ := isWordChar_eq_true.mp (hw b List.mem_cons_self)
    rw [List.cons_append,
      List.takeWhile_cons_of_pos (by simpa using hb), List.splitOnP_cons_eq_if_modifyHead,
      if_neg (by simp [hs]), ih fun c hc => hw c (List.mem_cons_of_mem _ hc), List.modifyHead_modifyHead]
    rfl

/-- What does not begin with a character of a word. -/
def Bare (l : List Byte) : Prop := ∀ b r, l = b :: r → isWordChar b = false

theorem splitOnP_bare (h : Bare rest) :
    ∃ tail, (rest.takeWhile (· ≠ 0)).splitOnP isSpace = [] :: tail := by
  cases rest with
  | nil => exact ⟨[], rfl⟩
  | cons b rest =>
    have hb := h b rest rfl
    by_cases h0 : b = 0
    · exact ⟨[], by rw [h0]; rfl⟩
    · have hs : isSpace b = true := by
        by_contra hs
        exact absurd (isWordChar_eq_true.mpr ⟨h0, Bool.eq_false_iff.mpr hs⟩) (by simp [hb])
      refine ⟨(rest.takeWhile (· ≠ 0)).splitOnP isSpace, ?_⟩
      rw [List.takeWhile_cons_of_pos (by simpa using h0), List.splitOnP_cons_eq_if_modifyHead,
        if_pos hs]

theorem words_append (hw : ∀ b ∈ w, isWordChar b = true) (hne : w ≠ []) (h : Bare rest) :
    words (w ++ rest) = w :: words rest := by
  obtain ⟨tail, ht⟩ := splitOnP_bare h
  rw [words, splitOnP_word hw, words, ht, List.modifyHead_cons, List.append_nil,
    List.filter_cons_of_pos (by simpa using hne), List.filter_cons_of_neg (by simp)]

theorem words_eq_nil (h : Bare l) (hs : ∀ b r, l = b :: r → isSpace b = false) : words l = [] := by
  cases l with
  | nil => rfl
  | cons b l =>
    have h0 : b = 0 := by
      by_contra h0
      exact absurd (isWordChar_eq_true.mpr ⟨h0, hs b l rfl⟩) (by simp [h b l rfl])
    rw [h0]
    rfl

theorem head_dropWhile (p : Byte → Bool) (l : List Byte) :
    ∀ b r, l.dropWhile p = b :: r → p b = false := by
  intro b r h
  have hne : l.dropWhile p ≠ [] := by
    rw [h]
    exact List.cons_ne_nil b r
  have := List.head_dropWhile_not p hne
  simpa [h] using this

/-- **`%s` takes the next word.** -/
theorem words_scanWord (l : List Byte) : words l = match scanWord l with
    | none => []
    | some (w, rest) => w :: words rest := by
  rw [← words_dropWhile l, scanWord, List.span_eq_takeWhile_dropWhile]
  generalize hl : l.dropWhile isSpace = l'
  have hbare : Bare (l'.dropWhile isWordChar) := head_dropWhile isWordChar l'
  cases hw : l'.takeWhile isWordChar with
  | nil =>
    refine words_eq_nil (fun b r h => ?_) (hl ▸ head_dropWhile isSpace l)
    by_contra hb
    rw [h, List.takeWhile_cons_of_pos (by simpa using hb)] at hw
    cases hw
  | cons b w =>
    have e : l' = (b :: w) ++ l'.dropWhile isWordChar := by
      rw [← hw, List.takeWhile_append_dropWhile]
    dsimp only
    rw [← words_append (fun c hc => List.mem_takeWhile_imp (hw ▸ hc)) (List.cons_ne_nil b w) hbare,
      ← e]

/-- **A format stores the words** at its places. -/
theorem scanf_eq (format : List Bool) (l : List Byte) :
    scanf format l = ((format.zip (words l)).filter Prod.fst).map Prod.snd := by
  induction format generalizing l with
  | nil => rfl
  | cons store format ih =>
    rw [words_scanWord, scanf]
    cases scanWord l with
    | none => rfl
    | some x =>
      obtain ⟨w, rest⟩ := x
      dsimp only
      rw [List.zip_cons_cons]
      cases store with
      | true => rw [if_pos rfl, List.filter_cons_of_pos rfl, List.map_cons, ih]
      | false => rw [if_neg Bool.false_ne_true, List.filter_cons_of_neg Bool.false_ne_true, ih]

theorem sublist_of_mem_splitOnP {p : Byte → Bool} (l : List Byte) :
    ∀ w ∈ l.splitOnP p, w.Sublist l := by
  induction l with
  | nil => simp
  | cons b l ih =>
    intro w hw
    rw [List.splitOnP_cons_eq_if_modifyHead] at hw
    split_ifs at hw with hb
    · rcases List.mem_cons.mp hw with rfl | hw
      · exact List.nil_sublist _
      · exact (ih w hw).cons b
    · cases hs : l.splitOnP p with
      | nil =>
        rw [hs] at hw
        cases hw
      | cons v tail =>
        rw [hs, List.modifyHead_cons] at hw
        rw [hs] at ih
        rcases List.mem_cons.mp hw with rfl | hw
        · exact (ih v List.mem_cons_self).cons_cons b
        · exact (ih w (List.mem_cons_of_mem _ hw)).cons b

theorem sublist_of_mem_words (hw : w ∈ words l) : w.Sublist (l.takeWhile (· ≠ 0)) :=
  sublist_of_mem_splitOnP _ w (List.mem_of_mem_filter hw)

theorem ne_nil_of_mem_words (hw : w ∈ words l) : w ≠ [] :=
  of_decide_eq_true (List.mem_filter.mp hw).2

theorem length_le_of_mem_words (hw : w ∈ words l) : w.length ≤ l.length :=
  (sublist_of_mem_words hw).length_le.trans (List.takeWhile_prefix _).length_le

theorem zero_not_mem_words (hw : w ∈ words l) : 0 ∉ w := by
  intro h0
  have h := List.mem_takeWhile_imp ((sublist_of_mem_words hw).subset h0)
  exact absurd h (by decide)

end Words

/-! ## What a line says -/

/-- What a line says. -/
inductive Command
  | call (c : Call)
  | invalidInput
  | invalidCommand

/-- The command of a line: the words after the ones it takes are ignored. -/
def parse (line : List Byte) : Command :=
  match words line with
  | [] => .invalidInput
  | name :: args =>
    if name = ascii "get" then
      match args with
      | key :: _ => .call (.get key)
      | [] => .invalidInput
    else if name = ascii "set" then
      match args with
      | key :: value :: _ => .call (.set key value)
      | _ => .invalidInput
    else if name = ascii "del" then
      match args with
      | key :: _ => .call (.del key)
      | [] => .invalidInput
    else .invalidCommand

/-- What the shell does for it. -/
def Command.run : Command → CommandProg Unit
  | .call c => attempt c
  | .invalidInput => printf Shell.invalidInput
  | .invalidCommand => printf (ascii "Invalid command.\n")

section Parse

variable {line : List Byte} {format : List Bool} {c : Call}

theorem sscanf_eq (h : line.length ≤ inputBufferSize) :
    sscanf format line = pure (((format.zip (words line)).filter Prod.fst).map Prod.snd) := by
  rw [← scanf_eq]
  refine if_pos fun w hw => (length_le_of_mem_words ?_).trans h
  rw [scanf_eq] at hw
  obtain ⟨x, hx, rfl⟩ := List.mem_map.mp hw
  exact (List.of_mem_zip (List.mem_of_mem_filter hx)).2

/-- **The shell does what a line says.** -/
theorem execute_eq (h : line.length ≤ inputBufferSize) : execute line = (parse line).run := by
  rw [execute, sscanf_eq h, sscanf_eq h, sscanf_eq h, parse]
  rcases words line with _ | ⟨name, _ | ⟨key, _ | ⟨value, args⟩⟩⟩
  · rfl
  all_goals
    change (if name = ascii "get" then _ else if name = ascii "set" then _
      else if name = ascii "del" then _ else _ : CommandProg Unit) =
        Command.run (if name = ascii "get" then _ else if name = ascii "set" then _
          else if name = ascii "del" then _ else _)
    split_ifs <;> rfl

theorem strings_of_parse (h : parse line = .call c) : ∀ str ∈ c.strings, str ∈ words line := by
  rw [parse] at h
  generalize words line = ws at h ⊢
  rcases ws with _ | ⟨name, _ | ⟨key, _ | ⟨value, args⟩⟩⟩
  · cases h
  all_goals
    dsimp only at h
    split_ifs at h <;> cases h <;> simp [Call.strings]

end Parse

end MyJQL.Shell
