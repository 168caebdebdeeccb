import Mathlib

/-!
# Programs over effects, with recursive procedures

A program is a tree of *effects* (`E`), answered by an interpretation of the state, and *calls*
(`C`), answered by running the procedure's body. Recursion and unbounded loops are calls; `run`
bounds the depth of calls, and everything stated about programs quantifies the bound away.

* `Prog`, `Prog.bind`, `eval`, `runProc`, `run`;
* `run_mono`: a larger depth keeps every result; **`Returns.unique`**: results are unique;
* `wp`: total weakest preconditions without any depth, with one rule for each construct;
* **`run_sim`**: an interpretation that simulates another effect by effect simulates it on every
  program; **`run_restrict`**: a run that succeeds in a lax interpretation, and in the simulating
  one, already succeeds in the strict interpretation.
-/

set_option linter.unusedSimpArgs false

namespace MyJQL

variable {E C : Type → Type} {σ τ α β : Type}

/-- Programs that perform effects `E` and call procedures `C`. -/
inductive Prog (E C : Type → Type) (α : Type) : Type 1
  | pure (a : α)
  | op {β : Type} (e : E β) (k : β → Prog E C α)
  | call {β : Type} (c : C β) (k : β → Prog E C α)

namespace Prog

/-- Sequencing. -/
def bind : Prog E C α → (α → Prog E C β) → Prog E C β
  | .pure a, f => f a
  | .op e k, f => .op e fun b => (k b).bind f
  | .call c k, f => .call c fun b => (k b).bind f

instance : Monad (Prog E C) where
  pure := .pure
  bind := .bind

/-- Perform one effect. -/
def eff (e : E α) : Prog E C α := .op e .pure

/-- Call one procedure. -/
def proc (c : C α) : Prog E C α := .call c .pure

/-- `if (c) p;`. -/
def when (c : Prop) [Decidable c] (p : Prog E C Unit) : Prog E C Unit := if c then p else .pure ()

/-- `for (i = lo; i < lo + n; i++) body(i)`, with a body that may return from the function. -/
def forReturn (body : ℕ → Prog E C (Option α)) : ℕ → ℕ → Prog E C (Option α)
  | _, 0 => .pure none
  | lo, n + 1 => (body lo).bind fun r =>
    match r with
    | some a => .pure (some a)
    | none => forReturn body (lo + 1) n

/-- `for (i = lo; i < lo + n; i++) s = body(i, s)`. -/
def forFold (body : ℕ → σ → Prog E C σ) : ℕ → ℕ → σ → Prog E C σ
  | _, 0, s => .pure s
  | lo, n + 1, s => (body lo s).bind fun s' => forFold body (lo + 1) n s'

end Prog

/-- An interpretation of effects (or of procedures) as partial state transformers. -/
abbrev Sem (E : Type → Type) (σ : Type) : Type 1 := ∀ {β : Type}, E β → σ → Option (β × σ)

/-- Procedure bodies. -/
abbrev Bodies (E C : Type → Type) : Type 1 := ∀ {β : Type}, C β → Prog E C β

/-- Run a program, given the effects and the procedures. -/
def Prog.eval (sem : Sem E σ) (h : Sem C σ) : Prog E C α → σ → Option (α × σ)
  | .pure a, s => some (a, s)
  | .op e k, s => (sem e s).bind fun r => (k r.1).eval sem h r.2
  | .call c k, s => (h c s).bind fun r => (k r.1).eval sem h r.2

/-- Procedures, with calls nested at most `n` deep. -/
def runProc (sem : Sem E σ) (body : Bodies E C) : ℕ → Sem C σ
  | 0 => fun _ _ => none
  | n + 1 => fun c s => (body c).eval sem (runProc sem body n) s

/-- Run a program, with calls nested at most `n` deep. -/
def run (sem : Sem E σ) (body : Bodies E C) (n : ℕ) (p : Prog E C α) (s : σ) : Option (α × σ) :=
  p.eval sem (runProc sem body n) s

/-- The program returns `a` in state `s'`. -/
def Returns (sem : Sem E σ) (body : Bodies E C) (p : Prog E C α) (s : σ) (a : α) (s' : σ) : Prop :=
  ∃ n, run sem body n p s = some (a, s')

/-! ## Evaluation -/

section Eval

variable (sem : Sem E σ) (h : Sem C σ)

theorem eval_bind (p : Prog E C α) (f : α → Prog E C β) (s : σ) :
    (p >>= f).eval sem h s = (p.eval sem h s).bind fun r => (f r.1).eval sem h r.2 := by
  change (p.bind f).eval sem h s = _
  induction p generalizing s with
  | pure a => rfl
  | op e k ih =>
    simp only [Prog.bind, Prog.eval, Option.bind_assoc]
    exact congrArg _ (funext fun r => ih r.1 r.2)
  | call c k ih =>
    simp only [Prog.bind, Prog.eval, Option.bind_assoc]
    exact congrArg _ (funext fun r => ih r.1 r.2)

theorem eval_eff (e : E α) (s : σ) : (Prog.eff e : Prog E C α).eval sem h s = sem e s := by
  simp only [Prog.eff, Prog.eval]
  cases sem e s <;> rfl

theorem eval_proc (c : C α) (s : σ) : (Prog.proc c : Prog E C α).eval sem h s = h c s := by
  simp only [Prog.proc, Prog.eval]
  cases h c s <;> rfl

variable {sem h}

theorem eval_mono {h' : Sem C σ}
    (hh : ∀ {β : Type} (c : C β) s r, h c s = some r → h' c s = some r) (p : Prog E C α) :
    ∀ s r, p.eval sem h s = some r → p.eval sem h' s = some r := by
  induction p with
  | pure a => exact fun s r hr => hr
  | op e k ih =>
    intro s r hr
    obtain ⟨x, hx, hk⟩ := Option.bind_eq_some_iff.mp hr
    exact Option.bind_eq_some_iff.mpr ⟨x, hx, ih _ _ _ hk⟩
  | call c k ih =>
    intro s r hr
    obtain ⟨x, hx, hk⟩ := Option.bind_eq_some_iff.mp hr
    exact Option.bind_eq_some_iff.mpr ⟨x, hh c s x hx, ih _ _ _ hk⟩

end Eval

/-! ## Runs -/

section Run

variable {sem : Sem E σ} {body : Bodies E C}

theorem runProc_succ (n : ℕ) : ∀ {β : Type} (c : C β) s r,
    runProc sem body n c s = some r → runProc sem body (n + 1) c s = some r := by
  induction n with
  | zero => intro β c s r hr; cases hr
  | succ n ih => exact fun c s r hr => eval_mono ih _ s r hr

theorem runProc_mono {m n : ℕ} (hmn : m ≤ n) {β : Type} (c : C β) (s : σ) (r : β × σ)
    (hr : runProc sem body m c s = some r) : runProc sem body n c s = some r := by
  induction hmn with
  | refl => exact hr
  | step _ ih => exact runProc_succ _ c s r ih

/-- **A larger depth keeps every result.** -/
theorem run_mono {m n : ℕ} (hmn : m ≤ n) {p : Prog E C α} {s : σ} {r : α × σ}
    (hr : run sem body m p s = some r) : run sem body n p s = some r :=
  eval_mono (fun c s r => runProc_mono hmn c s r) p s r hr

/-- **Results are unique.** -/
theorem Returns.unique {p : Prog E C α} {s : σ} {a b : α} {s' s'' : σ}
    (h : Returns sem body p s a s') (h' : Returns sem body p s b s'') : a = b ∧ s' = s'' := by
  obtain ⟨m, hm⟩ := h
  obtain ⟨n, hn⟩ := h'
  have := (run_mono (le_max_left m n) hm).symm.trans (run_mono (le_max_right m n) hn)
  exact ⟨congrArg Prod.fst (Option.some.inj this), congrArg Prod.snd (Option.some.inj this)⟩

theorem Returns.of_bind {p : Prog E C α} {f : α → Prog E C β} {s : σ} {b : β} {s' : σ}
    (h : Returns sem body (p >>= f) s b s') :
    ∃ a t, Returns sem body p s a t ∧ Returns sem body (f a) t b s' := by
  obtain ⟨n, hn⟩ := h
  rw [run, eval_bind] at hn
  obtain ⟨⟨a, t⟩, hp, hf⟩ := Option.bind_eq_some_iff.mp hn
  exact ⟨a, t, ⟨n, hp⟩, ⟨n, hf⟩⟩

end Run

/-! ## Weakest preconditions -/

/-- From `s` the program returns, and its result satisfies `Q`. -/
def wp (sem : Sem E σ) (body : Bodies E C) (p : Prog E C α) (Q : α → σ → Prop) (s : σ) : Prop :=
  ∃ a s', Returns sem body p s a s' ∧ Q a s'

section Wp

variable {sem : Sem E σ} {body : Bodies E C}

theorem wp_pure {a : α} {Q : α → σ → Prop} {s : σ} (h : Q a s) :
    wp sem body (pure a) Q s := ⟨a, s, ⟨0, rfl⟩, h⟩

/-- The rule of consequence. -/
theorem wp.mono {p : Prog E C α} {Q Q' : α → σ → Prop} {s : σ} (h : wp sem body p Q s)
    (hQ : ∀ a s', Q a s' → Q' a s') : wp sem body p Q' s := by
  obtain ⟨a, s', hr, h⟩ := h
  exact ⟨a, s', hr, hQ a s' h⟩

theorem wp.and {p : Prog E C α} {Q Q' : α → σ → Prop} {s : σ} (h : wp sem body p Q s)
    (h' : wp sem body p Q' s) : wp sem body p (fun a s' => Q a s' ∧ Q' a s') s := by
  obtain ⟨a, s', hr, hQ⟩ := h
  obtain ⟨b, s'', hr', hQ'⟩ := h'
  obtain ⟨rfl, rfl⟩ := hr.unique hr'
  exact ⟨a, s', hr, hQ, hQ'⟩

theorem wp_bind {p : Prog E C α} {f : α → Prog E C β} {Q : β → σ → Prop} {s : σ}
    (h : wp sem body p (fun a s' => wp sem body (f a) Q s') s) : wp sem body (p >>= f) Q s := by
  obtain ⟨a, s₁, ⟨m, hm⟩, b, s₂, ⟨n, hn⟩, hQ⟩ := h
  refine ⟨b, s₂, ⟨max m n, ?_⟩, hQ⟩
  rw [run, eval_bind]
  exact Option.bind_eq_some_iff.mpr
    ⟨(a, s₁), run_mono (le_max_left m n) hm, run_mono (le_max_right m n) hn⟩

theorem wp.seq {p : Prog E C α} {f : α → Prog E C β} {R : α → σ → Prop} {Q : β → σ → Prop} {s : σ}
    (h : wp sem body p R s) (hf : ∀ a s', R a s' → wp sem body (f a) Q s') :
    wp sem body (p >>= f) Q s := wp_bind (h.mono hf)

theorem wp_eff {e : E α} {Q : α → σ → Prop} {s : σ} {a : α} {s' : σ} (he : sem e s = some (a, s'))
    (h : Q a s') : wp sem body (Prog.eff e) Q s :=
  ⟨a, s', ⟨0, (eval_eff sem _ e s).trans he⟩, h⟩

theorem wp_proc {c : C α} {Q : α → σ → Prop} {s : σ} (h : wp sem body (body c) Q s) :
    wp sem body (Prog.proc c) Q s := by
  obtain ⟨a, s', ⟨n, hn⟩, hQ⟩ := h
  exact ⟨a, s', ⟨n + 1, (eval_proc sem _ c s).trans hn⟩, hQ⟩

theorem wp_ite {c : Prop} [Decidable c] {p q : Prog E C α} {Q : α → σ → Prop} {s : σ}
    (hp : c → wp sem body p Q s) (hq : ¬ c → wp sem body q Q s) :
    wp sem body (if c then p else q) Q s := by
  split_ifs with h
  · exact hp h
  · exact hq h

theorem wp_when {c : Prop} [Decidable c] {p : Prog E C Unit} {Q : Unit → σ → Prop} {s : σ}
    (hp : c → wp sem body p Q s) (hq : ¬ c → Q () s) : wp sem body (Prog.when c p) Q s := by
  rw [Prog.when]
  split_ifs with h
  · exact hp h
  · exact wp_pure (hq h)

/-- The invariant rule of a loop that carries a value. -/
theorem wp_forFold {f : ℕ → τ → Prog E C τ} (I : ℕ → τ → σ → Prop) {Q : τ → σ → Prop} {lo n : ℕ}
    {x : τ} {s : σ} (h0 : I lo x s)
    (hs : ∀ i y t, lo ≤ i → i < lo + n → I i y t → wp sem body (f i y) (I (i + 1)) t)
    (hQ : ∀ y t, I (lo + n) y t → Q y t) : wp sem body (Prog.forFold f lo n x) Q s := by
  induction n generalizing lo x s with
  | zero => exact wp_pure (hQ x s h0)
  | succ n ih =>
    refine wp.seq (hs lo x s le_rfl (by omega) h0) fun y t hy => ih hy ?_ ?_
    · exact fun i z u h1 h2 => hs i z u (by omega) (by omega)
    · exact fun z u hz => hQ z u (by rwa [show lo + (n + 1) = lo + 1 + n by omega])

/-- The invariant rule of a loop that may return: `I i` before the rounds from `i` on, `R` of a
value returned. -/
theorem wp_forReturn {f : ℕ → Prog E C (Option α)} (I : ℕ → σ → Prop) {Q : Option α → σ → Prop}
    {lo n : ℕ} {s : σ} (h0 : I lo s)
    (hs : ∀ i t, lo ≤ i → i < lo + n → I i t →
      wp sem body (f i) (fun r t' => r.elim (I (i + 1) t') fun a => Q (some a) t') t)
    (hQ : ∀ t, I (lo + n) t → Q none t) : wp sem body (Prog.forReturn f lo n) Q s := by
  induction n generalizing lo s with
  | zero => exact wp_pure (hQ s h0)
  | succ n ih =>
    refine wp.seq (hs lo s le_rfl (by omega) h0) fun r t hr => ?_
    cases r with
    | some a => exact wp_pure hr
    | none =>
      refine ih hr ?_ ?_
      · exact fun i u h1 h2 => hs i u (by omega) (by omega)
      · exact fun u hu => hQ u (by rwa [show lo + (n + 1) = lo + 1 + n by omega])

theorem wp.of_returns {p : Prog E C α} {Q : α → σ → Prop} {s : σ} (h : wp sem body p Q s) {a : α}
    {s' : σ} (hr : Returns sem body p s a s') : Q a s' := by
  obtain ⟨b, s'', hr', hQ⟩ := h
  obtain ⟨rfl, rfl⟩ := hr.unique hr'
  exact hQ

end Wp

/-! ## From the end of a run -/

section Backward

variable {sem : Sem E σ} {P : σ → Prop}

/-- What leads to a state in `P` starts from one. -/
def Backward (P : σ → Prop) (sem : Sem E σ) : Prop :=
  ∀ {β : Type} (e : E β) s b s', sem e s = some (b, s') → P s' → P s

theorem eval_backward {h : Sem C σ} (hE : Backward P sem) (hC : Backward P h)
    (p : Prog E C α) {s : σ} {a : α} {s' : σ} (hp : p.eval sem h s = some (a, s')) (hP : P s') :
    P s := by
  induction p generalizing s with
  | pure b =>
    cases hp
    exact hP
  | op e k ih =>
    obtain ⟨⟨b, s₁⟩, hb, hk⟩ := Option.bind_eq_some_iff.mp hp
    exact hE e s b s₁ hb (ih b hk)
  | call c k ih =>
    obtain ⟨⟨b, s₁⟩, hb, hk⟩ := Option.bind_eq_some_iff.mp hp
    exact hC c s b s₁ hb (ih b hk)

theorem runProc_backward (body : Bodies E C) (hE : Backward P sem) (n : ℕ) :
    Backward P (runProc sem body n) := by
  induction n with
  | zero => intro β c s b s' h; cases h
  | succ n ih => exact fun c s b s' h hP => eval_backward hE ih (body c) h hP

end Backward

/-! ## Simulation -/

section Simulation

variable {semσ : Sem E σ} {semτ : Sem E τ} {R : σ → τ → Prop}

/-- Every effect that succeeds in `semσ` succeeds in `semτ` with the same answer. -/
def Simulates (R : σ → τ → Prop) (semσ : Sem E σ) (semτ : Sem E τ) : Prop :=
  ∀ {β : Type} (e : E β) s t a s', R s t → semσ e s = some (a, s') →
    ∃ t', semτ e t = some (a, t') ∧ R s' t'

theorem eval_sim {hσ : Sem C σ} {hτ : Sem C τ} (hE : Simulates R semσ semτ)
    (hC : Simulates R hσ hτ) (p : Prog E C α) :
    ∀ s t a s', R s t → p.eval semσ hσ s = some (a, s') →
      ∃ t', p.eval semτ hτ t = some (a, t') ∧ R s' t' := by
  induction p with
  | pure b =>
    intro s t a s' hR h
    cases h
    exact ⟨t, rfl, hR⟩
  | op e k ih =>
    intro s t a s' hR h
    obtain ⟨⟨b, s₁⟩, hb, hk⟩ := Option.bind_eq_some_iff.mp h
    obtain ⟨t₁, ht₁, hR₁⟩ := hE e s t b s₁ hR hb
    obtain ⟨t', ht', hR'⟩ := ih b s₁ t₁ a s' hR₁ hk
    exact ⟨t', Option.bind_eq_some_iff.mpr ⟨(b, t₁), ht₁, ht'⟩, hR'⟩
  | call c k ih =>
    intro s t a s' hR h
    obtain ⟨⟨b, s₁⟩, hb, hk⟩ := Option.bind_eq_some_iff.mp h
    obtain ⟨t₁, ht₁, hR₁⟩ := hC c s t b s₁ hR hb
    obtain ⟨t', ht', hR'⟩ := ih b s₁ t₁ a s' hR₁ hk
    exact ⟨t', Option.bind_eq_some_iff.mpr ⟨(b, t₁), ht₁, ht'⟩, hR'⟩

theorem runProc_sim (body : Bodies E C) (hE : Simulates R semσ semτ) (n : ℕ) :
    Simulates R (runProc semσ body n) (runProc semτ body n) := by
  induction n with
  | zero => intro β c s t a s' _ h; cases h
  | succ n ih => exact fun c => eval_sim hE ih (body c)

/-- **A simulation of the effects simulates every program.** -/
theorem run_sim {body : Bodies E C} (hE : Simulates R semσ semτ) {n : ℕ} {p : Prog E C α} {s : σ}
    {t : τ} {a : α} {s' : σ} (hR : R s t) (h : run semσ body n p s = some (a, s')) :
    ∃ t', run semτ body n p t = some (a, t') ∧ R s' t' :=
  eval_sim hE (runProc_sim body hE n) p s t a s' hR h

/-- What the program's weakest precondition promises, a simulating run delivers. -/
theorem wp.simulated {body : Bodies E C} (hE : Simulates R semσ semτ) {p : Prog E C α}
    {Q : α → σ → Prop} {s : σ} {t : τ} (hR : R s t) (h : wp semσ body p Q s) :
    ∃ a s' t', Returns semτ body p t a t' ∧ R s' t' ∧ Q a s' := by
  obtain ⟨a, s', ⟨n, hn⟩, hQ⟩ := h
  obtain ⟨t', ht', hR'⟩ := run_sim hE hR hn
  exact ⟨a, s', t', ⟨n, ht'⟩, hR', hQ⟩

/-- In related states, success in `semσ` and in `semτ` gives success in the strict `semσ'`. -/
def Restricts (R : σ → τ → Prop) (semσ semσ' : Sem E σ) (semτ : Sem E τ) : Prop :=
  ∀ {β : Type} (e : E β) s t r q, R s t → semσ e s = some r → semτ e t = some q →
    semσ' e s = some r

theorem eval_restrict {semσ' : Sem E σ} {hσ hσ' : Sem C σ} {hτ : Sem C τ}
    (hE : Simulates R semσ' semτ) (hC : Simulates R hσ' hτ)
    (hE' : Restricts R semσ semσ' semτ) (hC' : Restricts R hσ hσ' hτ) (p : Prog E C α) :
    ∀ s t r q, R s t → p.eval semσ hσ s = some r → p.eval semτ hτ t = some q →
      p.eval semσ' hσ' s = some r := by
  induction p with
  | pure b => exact fun s t r q _ h _ => h
  | op e k ih =>
    intro s t r q hR h h'
    obtain ⟨⟨b, s₁⟩, hb, hk⟩ := Option.bind_eq_some_iff.mp h
    obtain ⟨⟨b', t₁⟩, hb', hk'⟩ := Option.bind_eq_some_iff.mp h'
    have hs := hE' e s t _ _ hR hb hb'
    obtain ⟨t₂, ht₂, hR₁⟩ := hE e s t b s₁ hR hs
    obtain ⟨rfl, rfl⟩ := Prod.mk.inj (Option.some.inj (ht₂.symm.trans hb'))
    exact Option.bind_eq_some_iff.mpr ⟨(b, s₁), hs, ih b s₁ t₂ r q hR₁ hk hk'⟩
  | call c k ih =>
    intro s t r q hR h h'
    obtain ⟨⟨b, s₁⟩, hb, hk⟩ := Option.bind_eq_some_iff.mp h
    obtain ⟨⟨b', t₁⟩, hb', hk'⟩ := Option.bind_eq_some_iff.mp h'
    have hs := hC' c s t _ _ hR hb hb'
    obtain ⟨t₂, ht₂, hR₁⟩ := hC c s t b s₁ hR hs
    obtain ⟨rfl, rfl⟩ := Prod.mk.inj (Option.some.inj (ht₂.symm.trans hb'))
    exact Option.bind_eq_some_iff.mpr ⟨(b, s₁), hs, ih b s₁ t₂ r q hR₁ hk hk'⟩

theorem runProc_restrict {semσ' : Sem E σ} (body : Bodies E C) (hE : Simulates R semσ' semτ)
    (hE' : Restricts R semσ semσ' semτ) (n : ℕ) :
    Restricts R (runProc semσ body n) (runProc semσ' body n) (runProc semτ body n) := by
  induction n with
  | zero => intro β c s t r q _ h _; cases h
  | succ n ih => exact fun c => eval_restrict hE (runProc_sim body hE n) hE' ih (body c)

/-- **A run that succeeds in the lax interpretation and in the simulating one succeeds in the
strict interpretation.** -/
theorem run_restrict {semσ' : Sem E σ} {body : Bodies E C} (hE : Simulates R semσ' semτ)
    (hE' : Restricts R semσ semσ' semτ) {n : ℕ} {p : Prog E C α} {s : σ} {t : τ} {r : α × σ}
    {q : α × τ} (hR : R s t) (h : run semσ body n p s = some r)
    (h' : run semτ body n p t = some q) :
    run semσ' body n p s = some r :=
  eval_restrict hE (runProc_sim body hE n) hE' (runProc_restrict body hE hE' n) p s t r q hR h h'

end Simulation

end MyJQL
