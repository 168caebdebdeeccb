import MyJQL.Lib.Prog

/-!
# Programs in step

* `InStep RE RC Q p p'`: two programs that perform corresponding effects and calls, whatever the
  corresponding answers, and return values in `Q`; `InStep.bind` and the rules of the loops;
* **`run_inStep`**: in related states they run alike;
* `Only ok okC p`: a program all of whose effects are in `ok`; **`run_only`**: what these effects
  keep, the program keeps.
-/

set_option linter.unusedSimpArgs false

namespace MyJQL

variable {E C : Type → Type} {σ α β : Type}

/-- Which effects, or calls, correspond, and which of their answers. -/
abbrev Corresp (E : Type → Type) : Type 1 := ∀ β : Type, E β → E β → (β → β → Prop) → Prop

/-! ## Two programs -/

/-- Two programs whose effects and calls correspond one by one. -/
inductive InStep (RE : Corresp E) (RC : Corresp C) (Q : α → α → Prop) :
    Prog E C α → Prog E C α → Prop
  | pure {a a' : α} (h : Q a a') : InStep RE RC Q (.pure a) (.pure a')
  | op {β : Type} {e e' : E β} {P : β → β → Prop} {k k' : β → Prog E C α} (he : RE _ e e' P)
      (hk : ∀ b b', P b b' → InStep RE RC Q (k b) (k' b')) : InStep RE RC Q (.op e k) (.op e' k')
  | call {β : Type} {c c' : C β} {P : β → β → Prop} {k k' : β → Prog E C α} (hc : RC _ c c' P)
      (hk : ∀ b b', P b b' → InStep RE RC Q (k b) (k' b')) :
      InStep RE RC Q (.call c k) (.call c' k')

namespace InStep

variable {RE : Corresp E} {RC : Corresp C} {P : α → α → Prop} {Q : β → β → Prop}

theorem bind {p p' : Prog E C α} {f f' : α → Prog E C β} (h : InStep RE RC P p p')
    (hf : ∀ a a', P a a' → InStep RE RC Q (f a) (f' a')) :
    InStep RE RC Q (p >>= f) (p' >>= f') := by
  change InStep RE RC Q (p.bind f) (p'.bind f')
  induction h with
  | pure h => exact hf _ _ h
  | op he _ ih => exact .op he ih
  | call hc _ ih => exact .call hc ih

theorem seq {p p' : Prog E C α} {f f' : α → Prog E C β} (h : InStep RE RC Eq p p')
    (hf : ∀ a, InStep RE RC Q (f a) (f' a)) : InStep RE RC Q (p >>= f) (p' >>= f') :=
  h.bind fun a _ e => e ▸ hf a

theorem eff {e e' : E α} (he : RE _ e e' P) : InStep RE RC P (Prog.eff e) (Prog.eff e') :=
  .op he fun _ _ h => .pure h

theorem proc {c c' : C α} (hc : RC _ c c' P) : InStep RE RC P (Prog.proc c) (Prog.proc c') :=
  .call hc fun _ _ h => .pure h

theorem ite {c : Prop} [Decidable c] {p p' q q' : Prog E C α} (hp : InStep RE RC P p p')
    (hq : InStep RE RC P q q') : InStep RE RC P (if c then p else q) (if c then p' else q') := by
  split_ifs
  · exact hp
  · exact hq

theorem when {c : Prop} [Decidable c] {p p' : Prog E C Unit} (hp : InStep RE RC Eq p p') :
    InStep RE RC Eq (Prog.when c p) (Prog.when c p') := ite hp (.pure rfl)

theorem forReturn {f f' : ℕ → Prog E C (Option α)} (hf : ∀ i, InStep RE RC Eq (f i) (f' i))
    (lo n : ℕ) : InStep RE RC Eq (Prog.forReturn f lo n) (Prog.forReturn f' lo n) := by
  induction n generalizing lo with
  | zero => exact .pure rfl
  | succ n ih =>
    refine (hf lo).bind ?_
    rintro (_ | a) _ rfl
    · exact ih (lo + 1)
    · exact .pure rfl

theorem forFold {f f' : ℕ → α → Prog E C α} (hf : ∀ i a, InStep RE RC Eq (f i a) (f' i a))
    (lo n : ℕ) (a : α) : InStep RE RC Eq (Prog.forFold f lo n a) (Prog.forFold f' lo n a) := by
  induction n generalizing lo a with
  | zero => exact .pure rfl
  | succ n ih =>
    refine (hf lo a).bind ?_
    rintro b _ rfl
    exact ih (lo + 1) b

end InStep

/-- Corresponding effects take related states to related states, with corresponding answers. -/
def Corresponds (RE : Corresp E) (R : σ → σ → Prop) (sem : Sem E σ) : Prop :=
  ∀ {β : Type} (e e' : E β) (P : β → β → Prop) s t a s', RE _ e e' P → R s t →
    sem e s = some (a, s') → ∃ a' t', sem e' t = some (a', t') ∧ P a a' ∧ R s' t'

section Run

variable {RE : Corresp E} {RC : Corresp C} {R : σ → σ → Prop} {sem : Sem E σ} {body : Bodies E C}

theorem eval_inStep {h : Sem C σ} (hE : Corresponds RE R sem) (hC : Corresponds RC R h)
    {Q : α → α → Prop} {p p' : Prog E C α} (hp : InStep RE RC Q p p') {s t : σ} {a : α} {s' : σ}
    (hR : R s t) (hr : p.eval sem h s = some (a, s')) :
    ∃ a' t', p'.eval sem h t = some (a', t') ∧ Q a a' ∧ R s' t' := by
  induction hp generalizing s t with
  | pure hq =>
    obtain ⟨rfl, rfl⟩ := Prod.mk.inj (Option.some.inj hr)
    exact ⟨_, t, rfl, hq, hR⟩
  | op he _ ih =>
    obtain ⟨⟨b, s₁⟩, hb, hk⟩ := Option.bind_eq_some_iff.mp hr
    obtain ⟨b', t₁, hb', hP, hR₁⟩ := hE _ _ _ s t b s₁ he hR hb
    obtain ⟨a', t', hr', hq, hR'⟩ := ih b b' hP hR₁ hk
    exact ⟨a', t', Option.bind_eq_some_iff.mpr ⟨_, hb', hr'⟩, hq, hR'⟩
  | call hc _ ih =>
    obtain ⟨⟨b, s₁⟩, hb, hk⟩ := Option.bind_eq_some_iff.mp hr
    obtain ⟨b', t₁, hb', hP, hR₁⟩ := hC _ _ _ s t b s₁ hc hR hb
    obtain ⟨a', t', hr', hq, hR'⟩ := ih b b' hP hR₁ hk
    exact ⟨a', t', Option.bind_eq_some_iff.mpr ⟨_, hb', hr'⟩, hq, hR'⟩

/-- The bodies of corresponding calls are in step. -/
def BodiesInStep (RE : Corresp E) (RC : Corresp C) (body : Bodies E C) : Prop :=
  ∀ {β : Type} (c c' : C β) (P : β → β → Prop), RC _ c c' P → InStep RE RC P (body c) (body c')

theorem runProc_inStep (hE : Corresponds RE R sem) (hB : BodiesInStep RE RC body) (n : ℕ) :
    Corresponds RC R (runProc sem body n) := by
  induction n with
  | zero => intro β c c' P s t a s' _ _ h; cases h
  | succ n ih => exact fun c c' P s t a s' hc hR h => eval_inStep hE ih (hB c c' P hc) hR h

/-- **Programs in step** run alike in related states. -/
theorem run_inStep (hE : Corresponds RE R sem) (hB : BodiesInStep RE RC body) {Q : α → α → Prop}
    {p p' : Prog E C α} (hp : InStep RE RC Q p p') {s t : σ} {a : α} {s' : σ} (hR : R s t)
    (hr : Returns sem body p s a s') : ∃ a' t', Returns sem body p' t a' t' ∧ Q a a' ∧ R s' t' := by
  obtain ⟨n, hn⟩ := hr
  obtain ⟨a', t', hr', hq, hR'⟩ := eval_inStep hE (runProc_inStep hE hB n) hp hR hn
  exact ⟨a', t', ⟨n, hr'⟩, hq, hR'⟩

end Run

/-! ## The effects of a program -/

/-- All effects of the program are in `ok`, and all its calls in `okC`. -/
inductive Only (ok : ∀ β : Type, E β → Prop) (okC : ∀ β : Type, C β → Prop) :
    Prog E C α → Prop
  | pure (a : α) : Only ok okC (.pure a)
  | op {β : Type} {e : E β} {k : β → Prog E C α} (he : ok _ e) (hk : ∀ b, Only ok okC (k b)) :
      Only ok okC (.op e k)
  | call {β : Type} {c : C β} {k : β → Prog E C α} (hc : okC _ c) (hk : ∀ b, Only ok okC (k b)) :
      Only ok okC (.call c k)

section Only

variable {ok : ∀ β : Type, E β → Prop} {okC : ∀ β : Type, C β → Prop}

theorem Only.bind {p : Prog E C α} {f : α → Prog E C β} (h : Only ok okC p)
    (hf : ∀ a, Only ok okC (f a)) : Only ok okC (p >>= f) := by
  change Only ok okC (p.bind f)
  induction h with
  | pure a => exact hf a
  | op he _ ih => exact .op he ih
  | call hc _ ih => exact .call hc ih

theorem Only.eff {e : E α} (he : ok _ e) : Only (C := C) ok okC (Prog.eff e) := .op he fun b => .pure b

theorem Only.proc {c : C α} (hc : okC _ c) : Only (E := E) ok okC (Prog.proc c) :=
  .call hc fun b => .pure b

theorem Only.ite {c : Prop} [Decidable c] {p q : Prog E C α} (hp : Only ok okC p)
    (hq : Only ok okC q) : Only ok okC (if c then p else q) := by
  split_ifs
  · exact hp
  · exact hq

/-- The effects and calls in `ok` keep what a state shows. -/
def Keeps {γ : Type} (ok : ∀ β : Type, E β → Prop) (view : σ → γ) (sem : Sem E σ) : Prop :=
  ∀ {β : Type} (e : E β) s a s', ok _ e → sem e s = some (a, s') → view s' = view s

variable {γ : Type} {view : σ → γ} {sem : Sem E σ} {body : Bodies E C}

theorem eval_only {h : Sem C σ} (hE : Keeps ok view sem) (hC : Keeps okC view h)
    {p : Prog E C α} (hp : Only ok okC p) {s : σ} {a : α} {s' : σ}
    (hr : p.eval sem h s = some (a, s')) : view s' = view s := by
  induction hp generalizing s with
  | pure a =>
    obtain ⟨rfl, rfl⟩ := Prod.mk.inj (Option.some.inj hr)
    rfl
  | op he _ ih =>
    obtain ⟨⟨b, s₁⟩, hb, hk⟩ := Option.bind_eq_some_iff.mp hr
    exact (ih b hk).trans (hE _ s b s₁ he hb)
  | call hc _ ih =>
    obtain ⟨⟨b, s₁⟩, hb, hk⟩ := Option.bind_eq_some_iff.mp hr
    exact (ih b hk).trans (hC _ s b s₁ hc hb)

/-- **What the effects keep, the program keeps.** -/
theorem run_only (hE : Keeps ok view sem)
    (hB : ∀ {β : Type} (c : C β), okC _ c → Only ok okC (body c)) {p : Prog E C α}
    (hp : Only ok okC p) {s : σ} {a : α} {s' : σ} (hr : Returns sem body p s a s') :
    view s' = view s := by
  obtain ⟨n, hn⟩ := hr
  have hC : ∀ n, Keeps okC view (runProc sem body n) := fun n => by
    induction n with
    | zero => intro β c s a s' _ h; cases h
    | succ n ih => exact fun c s a s' hc h => eval_only hE ih (hB c hc) h
  exact eval_only hE (hC n) hp hn

end Only

end MyJQL
