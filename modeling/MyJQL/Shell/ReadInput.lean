import MyJQL.Model.Shell

/-!
# Reading lines

* `splitLines`: the newline-terminated lines of an input, and what follows the last newline;
* `ReadCalls buf s outs t`: successive calls of `read_input`, up to the one that exits;
* `readInput_line`, `readInput_long`, `readInput_eofByte`, `readInput_end`, `readInput_stuck`: a
  call at each kind of input;
* `LineReading`: the calls return the lines; **`read_input_iff`**: they do if and only if no byte is
  taken for `EOF` and the input does not end inside an over-long line.
-/

set_option linter.unusedSimpArgs false

namespace MyJQL.Shell

variable {buf : InputBuffer} {s : Terminal} {l p q more : List Byte} {α β : Type}

/-! ## Lines -/

/-- `'\n'`. -/
abbrev newline : Byte := 10

/-- The byte that is `EOF` as a `char`. -/
abbrev eofByte : Byte := 0xFF

/-- The lines ended by a newline, and what follows the last newline. -/
def splitLines : List Byte → List (List Byte) × List Byte
  | [] => ([], [])
  | b :: l =>
    if b = newline then ([] :: (splitLines l).1, (splitLines l).2)
    else
      match (splitLines l).1 with
      | [] => ([], b :: (splitLines l).2)
      | x :: xs => ((b :: x) :: xs, (splitLines l).2)

/-- The text with these lines, and this behind them. -/
def joinLines (lines : List (List Byte)) (rest : List Byte) : List Byte :=
  lines.flatMap (· ++ [newline]) ++ rest

theorem joinLines_splitLines (l : List Byte) : joinLines (splitLines l).1 (splitLines l).2 = l := by
  induction l with
  | nil => rfl
  | cons b l ih =>
    rw [splitLines]
    split_ifs with hb
    · rw [hb]
      exact congrArg (newline :: ·) ih
    · revert ih
      rcases (splitLines l).1 with _ | ⟨x, xs⟩
      · exact fun ih => congrArg (b :: ·) ih
      · exact fun ih => congrArg (b :: ·) ih

theorem newline_not_mem_splitLines (l : List Byte) :
    (∀ x ∈ (splitLines l).1, newline ∉ x) ∧ newline ∉ (splitLines l).2 := by
  induction l with
  | nil => exact ⟨fun x hx => absurd hx List.not_mem_nil, List.not_mem_nil⟩
  | cons b l ih =>
    rw [splitLines]
    split_ifs with hb
    · refine ⟨fun x hx => ?_, ih.2⟩
      rcases List.mem_cons.mp hx with rfl | hx
      · exact List.not_mem_nil
      · exact ih.1 x hx
    · revert ih
      rcases (splitLines l).1 with _ | ⟨x, xs⟩
      · refine fun ih => ⟨ih.1, fun h => ?_⟩
        rcases List.mem_cons.mp h with h | h
        · exact hb h.symm
        · exact ih.2 h
      · refine fun ih => ⟨fun y hy => ?_, ih.2⟩
        rcases List.mem_cons.mp hy with rfl | hy
        · intro h
          rcases List.mem_cons.mp h with h | h
          · exact hb h.symm
          · exact ih.1 x List.mem_cons_self h
        · exact ih.1 y (List.mem_cons_of_mem _ hy)

/-- Bytes that end no loop. -/
def Plain (l : List Byte) : Prop := newline ∉ l ∧ eofByte ∉ l

/-! ## The buffer -/

namespace InputBuffer

/-- The buffer after more bytes have been read. -/
def pushAll (buf : InputBuffer) (l : List Byte) : InputBuffer := l.foldl push buf

theorem line_push (buf : InputBuffer) (c : Byte) : (buf.push c).line = buf.line ++ [c] := by
  change tabulate (Function.update buf.buffer buf.length c) (buf.length + 1) = _
  rw [tabulate, List.range_succ, List.map_append, List.map_singleton, Function.update_self]
  refine congrArg (· ++ [c]) (tabulate_congr fun i hi => ?_)
  exact Function.update_of_ne hi.ne _ _

theorem last_push (buf : InputBuffer) (c : Byte) : (buf.push c).last = c.toInt :=
  congrArg BitVec.toInt (Function.update_self _ _ _)

theorem length_pushAll (l : List Byte) (buf : InputBuffer) :
    (buf.pushAll l).length = buf.length + l.length := by
  induction l generalizing buf with
  | nil => rfl
  | cons b l ih =>
    change ((buf.push b).pushAll l).length = _
    rw [ih]
    change buf.length + 1 + l.length = buf.length + (l.length + 1)
    omega

theorem line_pushAll (l : List Byte) (buf : InputBuffer) :
    (buf.pushAll l).line = buf.line ++ l := by
  induction l generalizing buf with
  | nil => exact (List.append_nil _).symm
  | cons b l ih =>
    change ((buf.push b).pushAll l).line = _
    rw [ih, line_push, List.append_assoc, List.singleton_append]

end InputBuffer

theorem toInt_eq_eof (b : Byte) : b.toInt = eof ↔ b = eofByte :=
  ⟨fun h => BitVec.eq_of_toInt_eq h, fun h => by rw [h]; rfl⟩

theorem toInt_eq_newline (b : Byte) : b.toInt = 10 ↔ b = newline :=
  ⟨fun h => BitVec.eq_of_toInt_eq h, fun h => by rw [h]; rfl⟩

/-! ## The loops -/

theorem wp_getchar {Q : Int → Terminal → Prop} {b : Byte} (hs : s.input = b :: l)
    (h : Q b.toNat { s with input := l }) :
    wp terminalSem shellProcs (.eff .getchar) Q s :=
  wp_eff (show terminalSem .getchar s = _ by simp only [terminalSem, hs]) h

theorem wp_getchar_end {Q : Int → Terminal → Prop} (hs : s.input = [])
    (h : Q eof { s with atEnd := true }) : wp terminalSem shellProcs (.eff .getchar) Q s :=
  wp_eff (show terminalSem .getchar s = _ by simp only [terminalSem, hs]) h

theorem ofInt_toNat (b : Byte) : BitVec.ofInt 8 (b.toNat : Int) = b := by
  rw [BitVec.ofInt_natCast, BitVec.ofNat_toNat, BitVec.setWidth_eq]

theorem wp_readLoop_plain {Q : InputBuffer → Terminal → Prop} (hp : Plain l)
    (hlen : buf.length + l.length ≤ inputBufferSize + 1) (hs : s.input = l ++ more)
    (h : wp terminalSem shellProcs (.proc (.readLoop (buf.pushAll l))) Q { s with input := more }) :
    wp terminalSem shellProcs (.proc (.readLoop buf)) Q s := by
  induction l generalizing buf s with
  | nil =>
    obtain ⟨input, atEnd, log⟩ := s
    cases hs
    exact h
  | cons b l ih =>
    have hb : b.toInt ≠ 10 ∧ b.toInt ≠ eof := by
      rw [Ne, Ne, toInt_eq_newline, toInt_eq_eof]
      exact ⟨fun e => hp.1 (e ▸ List.mem_cons_self), fun e => hp.2 (e ▸ List.mem_cons_self)⟩
    rw [List.length_cons] at hlen
    refine wp_proc ?_
    change wp _ _ (readLoop buf) Q s
    rw [readLoop, if_pos (by omega)]
    refine wp_bind (wp_getchar hs ?_)
    dsimp only
    rw [ofInt_toNat, InputBuffer.last_push, if_pos hb]
    refine ih ⟨fun hm => hp.1 (List.mem_cons_of_mem _ hm), fun hm => hp.2 (List.mem_cons_of_mem _ hm)⟩
      ?_ rfl h
    change buf.length + 1 + l.length ≤ _
    omega

/-- The loop ends at a newline, and at a byte that is taken for `EOF`. -/
theorem wp_readLoop_stop {Q : InputBuffer → Terminal → Prop} {b : Byte}
    (hb : b = newline ∨ b = eofByte) (hlen : buf.length ≤ inputBufferSize)
    (hs : s.input = b :: more) (h : Q (buf.push b) { s with input := more }) :
    wp terminalSem shellProcs (.proc (.readLoop buf)) Q s := by
  refine wp_proc ?_
  change wp _ _ (readLoop buf) Q s
  rw [readLoop, if_pos hlen]
  refine wp_bind (wp_getchar hs ?_)
  dsimp only
  rw [ofInt_toNat, InputBuffer.last_push, if_neg fun hn => hb.elim
    (fun e => hn.1 ((toInt_eq_newline b).mpr e)) fun e => hn.2 ((toInt_eq_eof b).mpr e)]
  exact wp_pure h

theorem wp_readLoop_end {Q : InputBuffer → Terminal → Prop} (hlen : buf.length ≤ inputBufferSize)
    (hs : s.input = []) (h : Q (buf.push eofByte) { s with atEnd := true }) :
    wp terminalSem shellProcs (.proc (.readLoop buf)) Q s := by
  refine wp_proc ?_
  change wp _ _ (readLoop buf) Q s
  rw [readLoop, if_pos hlen]
  refine wp_bind (wp_getchar_end hs ?_)
  dsimp only
  rw [show BitVec.ofInt 8 eof = eofByte from rfl, InputBuffer.last_push,
    if_neg fun hn => hn.2 ((toInt_eq_eof _).mpr rfl)]
  exact wp_pure h

theorem wp_readLoop_full {Q : InputBuffer → Terminal → Prop} (hlen : inputBufferSize < buf.length)
    (h : Q buf s) : wp terminalSem shellProcs (.proc (.readLoop buf)) Q s := by
  refine wp_proc ?_
  change wp _ _ (readLoop buf) Q s
  rw [readLoop, if_neg (by omega)]
  exact wp_pure h

theorem toNat_ne_newline {b : Byte} (hb : b ≠ newline) : ((b.toNat : Int) ≠ 10) := fun h =>
  hb (BitVec.eq_of_toNat_eq (show b.toNat = 10 by omega))

theorem wp_drainLoop {Q : Unit → Terminal → Prop} (hl : newline ∉ l)
    (hs : s.input = l ++ newline :: more) (h : Q () { s with input := more }) :
    wp terminalSem shellProcs (.proc .drainLoop) Q s := by
  induction l generalizing s with
  | nil =>
    refine wp_proc (wp_bind (wp_getchar hs ?_))
    rw [if_neg fun hn => hn rfl]
    exact wp_pure h
  | cons b l ih =>
    refine wp_proc (wp_bind (wp_getchar hs ?_))
    rw [if_pos (toNat_ne_newline fun e => hl (e ▸ List.mem_cons_self))]
    exact ih (fun hm => hl (List.mem_cons_of_mem _ hm)) rfl h

/-- Without a newline the rest of a line is skipped for ever. -/
theorem drainLoop_stuck (hs : newline ∉ s.input) (n : ℕ) :
    runProc terminalSem shellProcs n .drainLoop s = none := by
  induction n generalizing s with
  | zero => rfl
  | succ n ih =>
    change drainLoop.eval terminalSem (runProc terminalSem shellProcs n) s = none
    rw [drainLoop, eval_bind, eval_eff]
    obtain ⟨input, atEnd, log⟩ := s
    cases input with
    | nil =>
      simp only [terminalSem, Option.bind_some]
      rw [if_pos (by decide), eval_proc]
      exact ih hs
    | cons b l =>
      simp only [terminalSem, Option.bind_some]
      rw [if_pos (toNat_ne_newline fun e => hs (e ▸ List.mem_cons_self)), eval_proc]
      exact ih fun hm => hs (List.mem_cons_of_mem _ hm)

/-! ## The function -/

theorem wp_elift {g : α → ExceptT Int ShellProg β} {p : ShellProg α}
    {Q : Except Int β → Terminal → Prop}
    (h : wp terminalSem shellProcs p (fun a t => wp terminalSem shellProcs (g a).run Q t) s) :
    wp terminalSem shellProcs (ExceptT.lift p >>= g).run Q s :=
  wp_bind (f := ExceptT.bindCont g)
    (wp_bind (f := fun a => pure (Except.ok a)) (h.mono fun _ _ h' => wp_pure h'))

theorem returns_elift {g : α → ExceptT Int ShellProg β} {p : ShellProg α} {r : Except Int β}
    {t : Terminal} (h : Returns terminalSem shellProcs (ExceptT.lift p >>= g).run s r t) :
    ∃ a u, Returns terminalSem shellProcs p s a u ∧
      Returns terminalSem shellProcs (g a).run u r t := by
  obtain ⟨a, u, hl, hg⟩ := Returns.of_bind (f := ExceptT.bindCont g) h
  obtain ⟨b, v, hp, ⟨n, hn⟩⟩ := Returns.of_bind (f := fun a => pure (Except.ok a)) hl
  obtain ⟨rfl, rfl⟩ := Prod.mk.inj (Option.some.inj hn)
  exact ⟨b, v, hp, hg⟩

theorem wp_readInput {Q : Except Int (InputResult × InputBuffer) → Terminal → Prop} (hp : Plain l)
    (hlen : l.length ≤ inputBufferSize + 1) (hs : s.input = l ++ more)
    (h : wp terminalSem shellProcs (.proc (.readLoop ({ buf with length := 0 }.pushAll l)))
      (fun b t => wp terminalSem shellProcs (readResult b).run Q t) { s with input := more }) :
    wp terminalSem shellProcs (readInput buf).run Q s :=
  wp_elift (wp_readLoop_plain hp ((Nat.zero_add _).trans_le hlen) hs h)

theorem line_pushAll_zero (buf : InputBuffer) (l : List Byte) :
    (({ buf with length := 0 } : InputBuffer).pushAll l).line = l := by
  rw [InputBuffer.line_pushAll]
  rfl

theorem length_pushAll_zero (buf : InputBuffer) (l : List Byte) :
    (({ buf with length := 0 } : InputBuffer).pushAll l).length = l.length := by
  rw [InputBuffer.length_pushAll]
  exact Nat.zero_add _

theorem readInput_line (hp : Plain l) (hlen : l.length ≤ inputBufferSize)
    (hs : s.input = l ++ newline :: more) :
    wp terminalSem shellProcs (readInput buf).run (fun r t => t = { s with input := more } ∧
      ∃ b : InputBuffer, r = .ok (.inputSuccess, b) ∧ b.line = l ∧ b.buffer b.length = 0) s := by
  refine wp_readInput hp (by omega) hs (wp_readLoop_stop (Or.inl rfl) ?_ rfl ?_)
  · rw [length_pushAll_zero]
    exact hlen
  have hl : (({ buf with length := 0 } : InputBuffer).pushAll l).line = l := line_pushAll_zero buf l
  generalize (({ buf with length := 0 } : InputBuffer).pushAll l) = c at hl
  rw [readResult, InputBuffer.last_push, if_neg (by decide)]
  change wp _ _ (if _ then _ else _ : ExceptT Int ShellProg (InputResult × InputBuffer)).run _ _
  rw [if_neg]
  · refine wp_pure ⟨rfl, _, rfl, ?_, Function.update_self _ _ _⟩
    refine Eq.trans (tabulate_congr fun i hi => ?_) hl
    exact (Function.update_of_ne hi.ne _ _).trans (Function.update_of_ne hi.ne _ _)
  · have hn : Function.update c.buffer c.length newline c.length = newline :=
      Function.update_self ..
    exact fun h => h.2 ((toInt_eq_newline _).mpr hn)

/-- The result once the buffer is full of plain bytes: the rest of the line is to be skipped. -/
theorem readResult_full (hp : Plain p) (hlen : p.length = inputBufferSize + 1) :
    ∃ b : InputBuffer, readResult (({ buf with length := 0 } : InputBuffer).pushAll p) =
      (do ExceptT.lift (.proc .drainLoop); return (.inputTooLong, b)) := by
  rcases List.eq_nil_or_concat' p with rfl | ⟨p', c, rfl⟩
  · cases hlen
  rw [List.length_append, List.length_singleton] at hlen
  have hl : (({ buf with length := 0 } : InputBuffer).pushAll p').length = inputBufferSize := by
    rw [length_pushAll_zero]
    exact Nat.succ_injective hlen
  have hc : c ∈ p' ++ [c] := List.mem_append_right _ List.mem_cons_self
  rw [show ({ buf with length := 0 } : InputBuffer).pushAll (p' ++ [c]) =
    (({ buf with length := 0 } : InputBuffer).pushAll p').push c from List.foldl_append ..]
  generalize ({ buf with length := 0 } : InputBuffer).pushAll p' = d at hl
  rw [readResult, InputBuffer.last_push,
    if_neg fun h => hp.2 ((toInt_eq_eof c).mp h ▸ hc)]
  refine ⟨_, if_pos ⟨hl, fun h => hp.1 ?_⟩⟩
  have hn : Function.update d.buffer d.length c d.length = newline := (toInt_eq_newline _).mp h
  rw [Function.update_self] at hn
  exact hn ▸ hc

theorem readInput_long (hp : Plain p) (hlen : p.length = inputBufferSize + 1) (hq : newline ∉ q)
    (hs : s.input = p ++ (q ++ newline :: more)) :
    wp terminalSem shellProcs (readInput buf).run (fun r t => t = { s with input := more } ∧
      ∃ b : InputBuffer, r = .ok (.inputTooLong, b)) s := by
  refine wp_readInput hp hlen.le hs (wp_readLoop_full ?_ ?_)
  · rw [length_pushAll_zero]
    omega
  obtain ⟨b, hb⟩ := readResult_full hp hlen
  rw [hb]
  exact wp_elift (wp_drainLoop hq rfl (wp_pure ⟨rfl, b, rfl⟩))

theorem readInput_stuck (hp : Plain p) (hlen : p.length = inputBufferSize + 1) (hq : newline ∉ q)
    (hs : s.input = p ++ q) {r : Except Int (InputResult × InputBuffer)} {t : Terminal} :
    ¬ Returns terminalSem shellProcs (readInput buf).run s r t := by
  intro h
  obtain ⟨a, u, hloop, h⟩ := returns_elift h
  have hfull : wp terminalSem shellProcs (.proc (.readLoop { buf with length := 0 }))
      (fun a t => a = ({ buf with length := 0 } : InputBuffer).pushAll p ∧
        t = { s with input := q }) s := by
    refine wp_readLoop_plain hp ((Nat.zero_add _).trans_le hlen.le) hs
      (wp_readLoop_full ?_ ⟨rfl, rfl⟩)
    rw [length_pushAll_zero]
    omega
  obtain ⟨rfl, rfl⟩ := hfull.of_returns hloop
  obtain ⟨c, hc⟩ := readResult_full hp hlen
  rw [hc] at h
  obtain ⟨u, v, ⟨n, hn⟩, -⟩ := returns_elift h
  have hd := (eval_proc terminalSem (runProc terminalSem shellProcs n) .drainLoop _).symm.trans hn
  rw [drainLoop_stuck hq] at hd
  cases hd

theorem readInput_eofByte (hp : Plain p) (hlen : p.length ≤ inputBufferSize)
    (hs : s.input = p ++ eofByte :: more) :
    wp terminalSem shellProcs (readInput buf).run
      (fun r t => t = { s with input := more } ∧ r = .error 0) s := by
  refine wp_readInput hp (by omega) hs (wp_readLoop_stop (Or.inr rfl) ?_ rfl ?_)
  · rw [length_pushAll_zero]
    exact hlen
  rw [readResult, InputBuffer.last_push, if_pos (by decide)]
  exact wp_pure ⟨rfl, rfl⟩

theorem readInput_end (hp : Plain p) (hlen : p.length ≤ inputBufferSize) (hs : s.input = p) :
    wp terminalSem shellProcs (readInput buf).run
      (fun r t => t = { s with input := [], atEnd := true } ∧ r = .error 0) s := by
  refine wp_readInput hp (by omega) (hs.trans (List.append_nil p).symm) (wp_readLoop_end ?_ rfl ?_)
  · rw [length_pushAll_zero]
    exact hlen
  rw [readResult, InputBuffer.last_push, if_pos (by decide)]
  exact wp_pure ⟨rfl, rfl⟩

/-! ## Successive calls -/

/-- Successive calls of `read_input`, up to the one that exits. -/
inductive ReadCalls : InputBuffer → Terminal → List (InputResult × InputBuffer) → Terminal → Prop
  | exit {buf : InputBuffer} {s t : Terminal} {e : Int}
      (h : Returns terminalSem shellProcs (readInput buf).run s (.error e) t) : ReadCalls buf s [] t
  | next {buf : InputBuffer} {s u t : Terminal} {out : InputResult × InputBuffer}
      {outs : List (InputResult × InputBuffer)}
      (h : Returns terminalSem shellProcs (readInput buf).run s (.ok out) u)
      (hc : ReadCalls out.2 u outs t) : ReadCalls buf s (out :: outs) t

/-- What a call returns for a line. -/
def ReadAs (line : List Byte) (out : InputResult × InputBuffer) : Prop :=
  if line.length ≤ inputBufferSize then
    out.1 = .inputSuccess ∧ out.2.line = line ∧ out.2.buffer out.2.length = 0
  else out.1 = .inputTooLong

/-- From the input left, the calls return these lines, and the program exits at its real end. -/
def ReadsLines (buf : InputBuffer) (s : Terminal) (lines : List (List Byte)) : Prop :=
  ∃ outs t, ReadCalls buf s outs t ∧ List.Forall₂ ReadAs lines outs ∧ t.input = [] ∧ t.atEnd = true

/-- The calls of `read_input` return the lines of the input in order, and the program exits at its
real end. -/
def LineReading (buf : InputBuffer) (stdin : List Byte) : Prop :=
  ReadsLines buf ⟨stdin, false, []⟩ (splitLines stdin).1

/-- No byte that is looked for `EOF` is taken for it, and the input does not end inside an over-long
line. -/
def Readable (lines : List (List Byte)) (rest : List Byte) : Prop :=
  (∀ line ∈ lines, eofByte ∉ line.take (inputBufferSize + 1)) ∧ eofByte ∉ rest ∧
    rest.length ≤ inputBufferSize

variable (buf) in
/-- **One call** reads one line. -/
theorem readInput_next (hl : newline ∉ l) (hf : eofByte ∉ l.take (inputBufferSize + 1))
    (hs : s.input = l ++ newline :: more) :
    wp terminalSem shellProcs (readInput buf).run
      (fun r t => t = { s with input := more } ∧ ∃ out, r = .ok out ∧ ReadAs l out) s := by
  by_cases hlen : l.length ≤ inputBufferSize
  · rw [List.take_of_length_le (by omega)] at hf
    refine (readInput_line ⟨hl, hf⟩ hlen hs).mono ?_
    rintro r t ⟨rfl, b, rfl, hb, h0⟩
    refine ⟨rfl, _, rfl, ?_⟩
    rw [ReadAs, if_pos hlen]
    exact ⟨rfl, hb, h0⟩
  · rw [← List.take_append_drop (inputBufferSize + 1) l, List.append_assoc] at hs
    refine (readInput_long ⟨fun h => hl (List.mem_of_mem_take h), hf⟩ ?_
      (fun h => hl (List.mem_of_mem_drop h)) hs).mono ?_
    · rw [List.length_take]
      omega
    · rintro r t ⟨rfl, b, rfl⟩
      refine ⟨rfl, _, rfl, ?_⟩
      rw [ReadAs, if_neg hlen]

/-- A byte that is taken for `EOF` ends the program before the end of the input is met. -/
theorem readInput_early (hl : newline ∉ l) (hf : eofByte ∈ l.take (inputBufferSize + 1))
    (hs : s.input = l ++ more) :
    wp terminalSem shellProcs (readInput buf).run
      (fun r t => t.atEnd = s.atEnd ∧ r = .error 0) s := by
  obtain ⟨p, q, hpq, hp⟩ := List.eq_append_cons_of_mem hf
  have hlen := congrArg List.length hpq
  rw [List.length_take, List.length_append, List.length_cons] at hlen
  have hsub : ∀ b ∈ p, b ∈ l := fun b hb =>
    List.mem_of_mem_take (hpq ▸ List.mem_append_left _ hb)
  rw [← List.take_append_drop (inputBufferSize + 1) l, hpq, List.append_assoc, List.append_assoc,
    List.cons_append] at hs
  refine (readInput_eofByte ⟨fun h => hl (hsub _ h), hp⟩ (by omega) hs).mono ?_
  rintro r t ⟨rfl, rfl⟩
  exact ⟨rfl, rfl⟩

/-- **The calls** on an input of these lines. -/
theorem readsLines_iff {lines : List (List Byte)} {rest : List Byte}
    (hl : ∀ line ∈ lines, newline ∉ line) (hr : newline ∉ rest)
    (hs : s.input = joinLines lines rest) (he : s.atEnd = false) :
    ReadsLines buf s lines ↔ Readable lines rest := by
  induction lines generalizing buf s with
  | nil =>
    by_cases hf : eofByte ∈ rest.take (inputBufferSize + 1)
    · refine iff_of_false ?_ fun h => h.2.1 (List.mem_of_mem_take hf)
      rintro ⟨outs, t, hc, hlines, -, hend⟩
      cases hlines
      cases hc with
      | exit h =>
        have := ((readInput_early hr hf (hs.trans (List.append_nil rest).symm)).of_returns h).1
        rw [hend, he] at this
        cases this
    · by_cases hlen : rest.length ≤ inputBufferSize
      · rw [List.take_of_length_le (by omega)] at hf
        refine iff_of_true ?_ ⟨fun _ h => absurd h List.not_mem_nil, hf, hlen⟩
        obtain ⟨r, t, hret, rfl, rfl⟩ := readInput_end ⟨hr, hf⟩ hlen hs
        exact ⟨[], _, .exit hret, .nil, rfl, rfl⟩
      · refine iff_of_false ?_ fun h => hlen h.2.2
        rintro ⟨outs, t, hc, hlines, -, -⟩
        cases hlines
        cases hc with
        | exit h =>
          refine readInput_stuck ⟨fun h => hr (List.mem_of_mem_take h), hf⟩ ?_
            (fun h => hr (List.mem_of_mem_drop h))
            (hs.trans (List.take_append_drop (inputBufferSize + 1) rest).symm) h
          rw [List.length_take]
          omega
  | cons line lines ih =>
    have hline := hl line List.mem_cons_self
    have hs' : s.input = line ++ newline :: joinLines lines rest := by
      rw [hs, joinLines, List.flatMap_cons, List.append_assoc, List.append_assoc]
      rfl
    by_cases hf : eofByte ∈ line.take (inputBufferSize + 1)
    · refine iff_of_false ?_ fun h => h.1 line List.mem_cons_self hf
      rintro ⟨outs, t, hc, hlines, -, -⟩
      cases hc with
      | exit h => cases hlines
      | next h hc => cases ((readInput_early hline hf hs').of_returns h).2
    · have hnext := readInput_next buf hline hf hs'
      have hiff : ∀ b, ReadsLines b { s with input := joinLines lines rest } lines ↔
          Readable lines rest := fun b =>
        ih (fun x hx => hl x (List.mem_cons_of_mem _ hx)) rfl he
      constructor
      · rintro ⟨outs, t, hc, hlines, hend⟩
        cases hc with
        | exit h => cases hlines
        | next h hc =>
          obtain ⟨rfl, -⟩ := hnext.of_returns h
          cases hlines with
          | cons _ hlines =>
            obtain ⟨h1, h2⟩ := (hiff _).mp ⟨_, t, hc, hlines, hend⟩
            refine ⟨fun x hx => ?_, h2⟩
            rcases List.mem_cons.mp hx with rfl | hx
            · exact hf
            · exact h1 x hx
      · rintro ⟨h1, h2⟩
        obtain ⟨r, u, hret, rfl, out, rfl, hout⟩ := hnext
        obtain ⟨outs, t, hc, hlines, hend⟩ := (hiff out.2).mpr
          ⟨fun x hx => h1 x (List.mem_cons_of_mem _ hx), h2⟩
        exact ⟨_, t, .next hret hc, .cons hout hlines, hend⟩

/-- **Line reading.** The calls of `read_input` return the lines of the input, and the program exits
at its real end, if and only if no byte is taken for `EOF` and the input does not end inside an
over-long line. -/
theorem read_input_iff (buf : InputBuffer) (stdin : List Byte) :
    LineReading buf stdin ↔ Readable (splitLines stdin).1 (splitLines stdin).2 :=
  readsLines_iff (newline_not_mem_splitLines stdin).1 (newline_not_mem_splitLines stdin).2
    (joinLines_splitLines stdin).symm rfl

/-- The line `get \xFF` ends the program, with the line `exit` still to come. -/
theorem not_lineReading_get : ¬ LineReading ⟨fun _ => 0, 0⟩
    [103, 101, 116, 32, 0xFF, 10, 101, 120, 105, 116, 10] := by
  intro h
  have hs : splitLines [103, 101, 116, 32, 0xFF, 10, 101, 120, 105, 116, 10] =
      ([[103, 101, 116, 32, 0xFF], [101, 120, 105, 116]], []) := by decide
  rw [LineReading, hs] at h
  have h := (readsLines_iff (by decide) List.not_mem_nil (by decide) rfl).mp h
  exact h.1 _ List.mem_cons_self (by decide)

/-! ## The program -/

/-- What `main` does with lines: it stops at the line `exit`. -/
def transcript : List (List Byte) → List Event
  | [] => [.prompt]
  | line :: lines =>
    if inputBufferSize < line.length then .prompt :: .tooLong :: transcript lines
    else if line.takeWhile (· ≠ 0) = exitWord then [.prompt, .bye]
    else .prompt :: .execute (line.takeWhile (· ≠ 0)) :: transcript lines

theorem InputBuffer.cString_eq (h0 : buf.buffer buf.length = 0)
    (hlen : buf.length ≤ inputBufferSize) : buf.cString = buf.line.takeWhile (· ≠ 0) := by
  obtain ⟨k, hk⟩ := Nat.exists_eq_add_of_le (Nat.succ_le_succ hlen)
  rw [InputBuffer.cString, show inputBufferSize + 1 = buf.length + (k + 1) by omega, tabulate,
    List.range_add, List.map_append, List.range_succ_eq_map, List.map_cons, List.map_cons]
  change List.takeWhile _ (buf.line ++ buf.buffer buf.length :: _) = _
  rw [h0, List.takeWhile_append]
  split_ifs with hall
  · rw [List.takeWhile_cons_of_neg (by decide), List.append_nil]
    exact ((List.takeWhile_prefix _).eq_of_length hall).symm
  · rfl

/-- The line is `exit`. -/
def IsExit (line : List Byte) : Prop :=
  line.length ≤ inputBufferSize ∧ line.takeWhile (· ≠ 0) = exitWord

/-- There is a line `exit`, and no byte up to it is taken for `EOF`. -/
def Exits : List (List Byte) → Prop
  | [] => False
  | line :: lines => eofByte ∉ line.take (inputBufferSize + 1) ∧ (IsExit line ∨ Exits lines)

/-- **`main`** executes the lines in order, up to the line `exit`, and returns. -/
theorem main_lines {lines : List (List Byte)} {rest : List Byte}
    (hl : ∀ line ∈ lines, newline ∉ line) (h : Exits lines) (hs : s.input = joinLines lines rest) :
    wp terminalSem shellProcs (.proc (.mainLoop buf))
      (fun r t => r = .ok 0 ∧ t.log = s.log ++ transcript lines) s := by
  induction lines generalizing buf s with
  | nil => exact h.elim
  | cons line lines ih =>
    obtain ⟨heof, h⟩ := h
    have hs' : s.input = line ++ newline :: joinLines lines rest := by
      rw [hs, joinLines, List.flatMap_cons, List.append_assoc, List.append_assoc]
      rfl
    have hmore : ¬ IsExit line → ∀ (buf : InputBuffer) (e : Event),
        wp terminalSem shellProcs (.proc (.mainLoop buf))
          (fun r t => r = .ok 0 ∧ t.log = s.log ++ .prompt :: e :: transcript lines)
          { s with input := joinLines lines rest, log := s.log ++ [.prompt] ++ [e] } := by
      intro hexit buf e
      refine (ih (fun x hx => hl x (List.mem_cons_of_mem _ hx)) (h.resolve_left hexit) rfl).mono ?_
      rintro r t ⟨hr, ht⟩
      exact ⟨hr, ht.trans (by rw [List.append_assoc, List.append_assoc]; rfl)⟩
    refine wp_proc (wp_elift (wp_eff rfl ?_))
    refine wp_bind (f := ExceptT.bindCont _)
      ((readInput_next _ (s := { s with log := s.log ++ [.prompt] }) (hl line List.mem_cons_self)
        heof hs').mono ?_)
    rintro r t ⟨rfl, ⟨r, b⟩, rfl, hout⟩
    rw [ReadAs] at hout
    change wp _ _ (if _ then _ else _ : ExceptT Int ShellProg Int).run _ _
    split_ifs at hout with hlen
    · obtain ⟨hres, hb, h0⟩ := hout
      dsimp only at hres hb h0
      have hbl : b.length ≤ inputBufferSize := by
        rw [← hb, InputBuffer.line, length_tabulate] at hlen
        exact hlen
      rw [if_neg (by rw [hres]; decide), InputBuffer.cString_eq h0 hbl, hb, transcript,
        if_neg (Nat.not_lt.mpr hlen)]
      by_cases hexit : line.takeWhile (· ≠ 0) = exitWord
      · rw [if_pos hexit, if_pos hexit]
        exact wp_elift (wp_eff rfl (wp_pure ⟨rfl, List.append_assoc ..⟩))
      · rw [if_neg hexit, if_neg hexit]
        exact wp_elift (wp_eff rfl (hmore (fun he => hexit he.2) _ _))
    · rw [if_pos hout, transcript, if_pos (Nat.not_le.mp hlen)]
      exact wp_elift (wp_eff rfl (hmore (fun he => hlen he.1) _ _))

end MyJQL.Shell
