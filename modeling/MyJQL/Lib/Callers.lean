import MyJQL.Lib.Atomic
import MyJQL.Lib.Parallel

/-!
# Programs that call an object

Programs side by side, each with a state of its own, that call an object which they share.

* `CallOf`, `AtCall`: effects that are calls of the object;
* `CallerStep`: the programs with a system that takes their calls, and returns from them later;
* `callerEnv`, `AtomicCallerStep`: the same programs with an object whose calls take effect at once;
* `Ahead`, `Together`: a program during its call, and the same program with the call at once;
  **`CallerStep.together`**: one step;
* `anyEnv`, `eventually_callers`: programs that come to their ends whatever the calls return.
-/

set_option linter.unusedSimpArgs false

namespace MyJQL

variable {E C : Type → Type} {Op Res σ τ α β κ : Type}

/-! ## Calls -/

/-- A call of an object. -/
inductive CallOf (Op Res : Type) : Type → Type
  | call (op : Op) : CallOf Op Res Res

/-- What the object `f` makes of a call. -/
def CallOf.answer (f : Op → τ → Res × τ) : CallOf Op Res β → τ → β × τ
  | .call op => f op

/-- Which calls are made. -/
def CallOf.op : CallOf Op Res β → Op
  | .call op => op

/-- The program is about to call the object, and goes on with the result as `g`. -/
inductive AtCall (callOf : ∀ β, E β → Option (CallOf Op Res β)) :
    Prog E C α → Op → (Res → Prog E C α) → Prop
  | mk {e : E Res} {op : Op} {g : Res → Prog E C α} (h : callOf Res e = some (.call op)) :
    AtCall callOf (.op e g) op g

/-- The effects that are not calls. -/
def ownEnv (callOf : ∀ β, E β → Option (CallOf Op Res β)) (env : Env E σ) : Env E σ :=
  fun β e s b s' => callOf β e = none ∧ env β e s b s'

/-- The effects with an object whose calls take effect at once. -/
def callerEnv (callOf : ∀ β, E β → Option (CallOf Op Res β)) (env : Env E σ)
    (f : Op → τ → Res × τ) : Env E (σ × τ) := fun β e s b s' =>
  match callOf β e with
  | some c => (b, s'.2) = c.answer f s.2 ∧ s'.1 = s.1
  | none => env β e s.1 b s'.1 ∧ s'.2 = s.2

/-- The effects with an object that takes the calls that are `ok`, and returns anything. -/
def anyEnv (callOf : ∀ β, E β → Option (CallOf Op Res β)) (env : Env E σ) (ok : Op → Prop) :
    Env E σ := fun β e s b s' =>
  match callOf β e with
  | some c => ok c.op ∧ s' = s
  | none => env β e s b s'

/-! ## Systems -/

variable [DecidableEq κ]

/-- Programs that call an object which a system implements: a call begins as a step of the system,
and is done with as another. -/
inductive CallerStep {γ : Type*} (callOf : ∀ β, E β → Option (CallOf Op Res β)) (env : Env E σ)
    (body : Bodies E C) (sys : γ → Option (Event κ Op Res) → γ → Prop) :
    (κ → Prog E C α × σ) × γ → (κ → Prog E C α × σ) × γ → Prop
  | own (k : κ) {t : κ → Prog E C α × σ} {c : Prog E C α × σ} {x : γ}
    (h : Step (ownEnv callOf env) body (t k) c) :
    CallerStep callOf env body sys (t, x) (Function.update t k c, x)
  | silent {t : κ → Prog E C α × σ} {x x' : γ} (hs : sys x none x') :
    CallerStep callOf env body sys (t, x) (t, x')
  | invoke (k : κ) {t : κ → Prog E C α × σ} {x x' : γ} {op : Op} {g : Res → Prog E C α}
    (h : AtCall callOf (t k).1 op g) (hs : sys x (some (.invoke k op)) x') :
    CallerStep callOf env body sys (t, x) (t, x')
  | result (k : κ) {t : κ → Prog E C α × σ} {x x' : γ} {op : Op} {g : Res → Prog E C α} {r : Res}
    (h : AtCall callOf (t k).1 op g) (hs : sys x (some (.result k r)) x') :
    CallerStep callOf env body sys (t, x) (Function.update t k (g r, (t k).2), x')

/-- Programs that call an object whose calls take effect at once. -/
inductive AtomicCallerStep (callOf : ∀ β, E β → Option (CallOf Op Res β)) (env : Env E σ)
    (body : Bodies E C) (f : Op → τ → Res × τ) :
    (κ → Prog E C α × σ) × τ → (κ → Prog E C α × σ) × τ → Prop
  | step (k : κ) {t : κ → Prog E C α × σ} {p : Prog E C α} {s : σ} {m m' : τ}
    (h : Step (callerEnv callOf env f) body ((t k).1, ((t k).2, m)) (p, (s, m'))) :
    AtomicCallerStep callOf env body f (t, m) (Function.update t k (p, s), m')

section Steps

variable {callOf : ∀ β, E β → Option (CallOf Op Res β)} {env : Env E σ} {body : Bodies E C}
  {f : Op → τ → Res × τ} {ok : Op → Prop} {p : Prog E C α} {c c' : Prog E C α × σ} {op : Op}
  {g : Res → Prog E C α} {m : τ}

theorem Step.callerEnv_own (h : Step (ownEnv callOf env) body c c') :
    Step (callerEnv callOf env f) body (c.1, (c.2, m)) (c'.1, (c'.2, m)) := by
  cases h with
  | op he =>
    refine .op ?_
    simp only [callerEnv, he.1]
    exact ⟨he.2, trivial⟩
  | call => exact .call

theorem AtCall.callerEnv_call {s : σ} (h : AtCall callOf p op g) :
    Step (callerEnv callOf env f) body (p, (s, m)) (g (f op m).1, (s, (f op m).2)) := by
  obtain ⟨h⟩ := h
  refine .op ?_
  simp only [callerEnv, h]
  exact ⟨rfl, trivial⟩

theorem AtCall.not_own {s : σ} (h : AtCall callOf p op g) :
    ¬ Step (ownEnv callOf env) body (p, s) c' := by
  obtain ⟨h⟩ := h
  intro hs
  cases hs with
  | op he => cases h.symm.trans he.1

theorem AtCall.unique {op' : Op} {g' : Res → Prog E C α} (h : AtCall callOf p op g)
    (h' : AtCall callOf p op' g') : op = op' ∧ g = g' := by
  obtain ⟨h⟩ := h
  cases h' with
  | mk h' =>
    cases h.symm.trans h'
    exact ⟨rfl, rfl⟩

/-- **What a program does next**: it is at a call, or it does something of its own. -/
theorem Step.own_or_call {s : σ} (hs : ∃ c', Step (anyEnv callOf env ok) body (p, s) c') :
    (∃ c', Step (ownEnv callOf env) body (p, s) c') ∨ ∃ op g, ok op ∧ AtCall callOf p op g := by
  obtain ⟨_, hs⟩ := hs
  cases hs with
  | call => exact Or.inl ⟨_, .call⟩
  | @op β e k _ _ b he =>
    cases hc : callOf β e with
    | none =>
      simp only [anyEnv, hc] at he
      exact Or.inl ⟨_, .op ⟨hc, he⟩⟩
    | some c =>
      simp only [anyEnv, hc] at he
      cases c with
      | call op => exact Or.inr ⟨op, k, he.1, .mk hc⟩

theorem Step.anyEnv_own (h : Step (ownEnv callOf env) body c c') :
    Step (anyEnv callOf env ok) body c c' := by
  cases h with
  | op he =>
    refine .op ?_
    simp only [anyEnv, he.1]
    exact he.2
  | call => exact .call

theorem AtCall.anyEnv_call {s : σ} {r : Res} (h : AtCall callOf p op g) (hok : ok op) :
    Step (anyEnv callOf env ok) body (p, s) (g r, s) := by
  obtain ⟨h⟩ := h
  refine .op ?_
  simp only [anyEnv, h]
  exact ⟨hok, trivial⟩

/-- **A step with the object**: one of the program's own, or a call. -/
theorem Step.callerEnv_cases {s s' : σ} {p' : Prog E C α} {m' : τ}
    (h : Step (callerEnv callOf env f) body (p, (s, m)) (p', (s', m'))) :
    (Step (ownEnv callOf env) body (p, s) (p', s') ∧ m' = m) ∨
      ∃ op g, AtCall callOf p op g ∧ p' = g (f op m).1 ∧ s' = s ∧ m' = (f op m).2 := by
  cases h with
  | call => exact Or.inl ⟨.call, rfl⟩
  | @op β e k _ _ b he =>
    cases hc : callOf β e with
    | none =>
      simp only [callerEnv, hc] at he
      exact Or.inl ⟨.op ⟨hc, he.1⟩, he.2⟩
    | some c =>
      simp only [callerEnv, hc] at he
      cases c with
      | call op =>
        obtain ⟨hb, rfl⟩ := he
        obtain ⟨rfl, rfl⟩ := Prod.ext_iff.mp hb
        exact Or.inr ⟨op, k, .mk hc, rfl, rfl, rfl⟩

end Steps

/-! ## Calls at once -/

/-- A program in a phase of its call, which is `ok`, and the same program with the call at once. -/
inductive Ahead (callOf : ∀ β, E β → Option (CallOf Op Res β)) (ok : Op → Prop) :
    Prog E C α × σ → Prog E C α × σ → Phase Op Res → Prop
  | idle {c : Prog E C α × σ} : Ahead callOf ok c c .idle
  | waiting {c : Prog E C α × σ} {op : Op} {g : Res → Prog E C α} (h : AtCall callOf c.1 op g)
    (hok : ok op) : Ahead callOf ok c c (.waiting op)
  | done {p : Prog E C α} {s : σ} {op : Op} {g : Res → Prog E C α} {r : Res}
    (h : AtCall callOf p op g) (hok : ok op) : Ahead callOf ok (p, s) (g r, s) (.done r)

/-- How far a caller is from the next effect on the object: it is to return, to call, or has
called. -/
def Phase.lead : Phase Op Res → ℕ
  | .idle => 1
  | .waiting _ => 0
  | .done _ => 2

section Together

variable {callOf : ∀ β, E β → Option (CallOf Op Res β)} {env : Env E σ} {body : Bodies E C}
  {f : Op → τ → Res × τ} {ok : Op → Prop} {t t' : κ → Prog E C α × σ} {k : κ} {op : Op}
  {g : Res → Prog E C α} {r : Res}

/-- The programs during their calls, and the same programs with the calls at once. -/
def Together (callOf : ∀ β, E β → Option (CallOf Op Res β)) (ok : Op → Prop)
    (t t' : κ → Prog E C α × σ) (ph : κ → Phase Op Res) : Prop := ∀ k, Ahead callOf ok (t k) (t' k) (ph k)

theorem Ahead.of_idle {c c' : Prog E C α × σ} (h : Ahead callOf ok c c' (.idle : Phase Op Res)) :
    c' = c := by
  cases h
  rfl

theorem Ahead.of_waiting {c c' : Prog E C α × σ}
    (h : Ahead callOf ok c c' (.waiting op : Phase Op Res)) :
    c' = c ∧ ok op ∧ ∃ g, AtCall callOf c.1 op g := by
  cases h with
  | waiting hat hok => exact ⟨rfl, hok, _, hat⟩

theorem Ahead.of_done {c c' : Prog E C α × σ} (h : Ahead callOf ok c c' (.done r : Phase Op Res)) :
    ∃ (op : Op) (g : Res → Prog E C α), ok op ∧ AtCall callOf c.1 op g ∧ c' = (g r, c.2) := by
  cases h with
  | done hat hok => exact ⟨_, _, hok, hat, rfl⟩

theorem Ahead.same {c c' : Prog E C α × σ} {p : Phase Op Res} (h : Ahead callOf ok c c' p) :
    c'.2 = c.2 := by
  cases h <;> rfl

omit [DecidableEq κ] in
theorem Together.change {t₁ t₁' : κ → Prog E C α × σ} {ph ph₁ : κ → Phase Op Res}
    (h : Together callOf ok t t' ph) (ht : ∀ j ≠ k, t₁ j = t j) (ht' : ∀ j ≠ k, t₁' j = t' j)
    (hph : ∀ j ≠ k, ph₁ j = ph j) (hk : Ahead callOf ok (t₁ k) (t₁' k) (ph₁ k)) :
    Together callOf ok t₁ t₁' ph₁ := by
  intro j
  by_cases hj : j = k
  · exact hj ▸ hk
  · rw [ht j hj, ht' j hj, hph j hj]
    exact h j

theorem Together.perform {ph ph' : κ → Phase Op Res} {m m' : τ} (h : Together callOf ok t t' ph)
    (hs : AtomicStep f (ph, m) none (ph', m')) :
    ∃ t'', AtomicCallerStep callOf env body f (t', m) (t'', m') ∧ Together callOf ok t t'' ph' := by
  cases hs with
  | @perform _ _ k op hph =>
    obtain ⟨hk, hok, g, hat⟩ := Ahead.of_waiting (hph ▸ h k)
    have hstep : Step (callerEnv callOf env f) body ((t' k).1, ((t' k).2, m))
        (g (f op m).1, ((t k).2, (f op m).2)) := by
      rw [hk]
      exact hat.callerEnv_call
    refine ⟨_, .step k hstep, h.change (k := k) (fun _ _ => rfl)
      (fun j hj => Function.update_of_ne hj ..) (fun j hj => Function.update_of_ne hj ..) ?_⟩
    rw [Function.update_self, Function.update_self]
    exact .done hat hok

theorem Together.invoke {ph ph' : κ → Phase Op Res} {m m' : τ} (h : Together callOf ok t t' ph)
    (hat : AtCall callOf (t k).1 op g) (hok : ok op)
    (hs : AtomicStep f (ph, m) (some (.invoke k op)) (ph', m')) :
    m' = m ∧ Together callOf ok t t' ph' ∧ ph k = .idle ∧
      ph' = Function.update ph k (.waiting op) := by
  cases hs with
  | invoke hph =>
    refine ⟨rfl, h.change (k := k) (fun _ _ => rfl) (fun _ _ => rfl)
      (fun j hj => Function.update_of_ne hj ..) ?_, hph, rfl⟩
    have hk := h k
    rw [hph] at hk
    rw [Function.update_self, hk.of_idle]
    exact .waiting hat hok

theorem Together.result {ph ph' : κ → Phase Op Res} {m m' : τ} (h : Together callOf ok t t' ph)
    (hat : AtCall callOf (t k).1 op g)
    (hs : AtomicStep f (ph, m) (some (.result k r)) (ph', m')) :
    m' = m ∧ Together callOf ok (Function.update t k (g r, (t k).2)) t' ph' ∧ ph k = .done r ∧
      ph' = Function.update ph k .idle := by
  cases hs with
  | result hph =>
    obtain ⟨op', g', -, hat', hk⟩ := Ahead.of_done (hph ▸ h k)
    obtain ⟨rfl, rfl⟩ := hat.unique hat'
    refine ⟨rfl, h.change (k := k) (fun j hj => Function.update_of_ne hj ..) (fun _ _ => rfl)
      (fun j hj => Function.update_of_ne hj ..) ?_, hph, rfl⟩
    rw [Function.update_self, Function.update_self, hk]
    exact .idle

theorem Together.own {ph : κ → Phase Op Res} {m : τ} {c : Prog E C α × σ}
    (h : Together callOf ok t t' ph) (hs : Step (ownEnv callOf env) body (t k) c) :
    AtomicCallerStep callOf env body f (t', m) (Function.update t' k c, m) ∧
      Together callOf ok (Function.update t k c) (Function.update t' k c) ph := by
  have hno : ∀ op g, ¬ AtCall callOf (t k).1 op g := fun op g hat => hat.not_own hs
  have hph : ph k = .idle ∧ t' k = t k := by
    have hk := h k
    cases hp : ph k with
    | idle => exact ⟨rfl, Ahead.of_idle (hp ▸ hk)⟩
    | waiting op =>
      obtain ⟨-, -, g, hat⟩ := Ahead.of_waiting (hp ▸ hk)
      exact absurd hat (hno op g)
    | done r =>
      obtain ⟨op, g, -, hat, -⟩ := Ahead.of_done (hp ▸ hk)
      exact absurd hat (hno op g)
  refine ⟨.step k (hph.2 ▸ hs.callerEnv_own), h.change (k := k)
    (fun j hj => Function.update_of_ne hj ..) (fun j hj => Function.update_of_ne hj ..)
    (fun _ _ => rfl) ?_⟩
  rw [Function.update_self, Function.update_self, hph.1]
  exact .idle

/-- **A system that is an object**: `S` goes on, as long as the calls are `ok`. -/
structure IsObject {γ : Type*} (sys : γ → Option (Event κ Op Res) → γ → Prop) (f : Op → τ → Res × τ)
    (ok : Op → Prop) (S : γ → (κ → Phase Op Res) × τ → Prop) : Prop where
  step : ∀ x z e x', S x z → (∀ k op, e = some (.invoke k op) → ok op) → sys x e x' →
    ∃ z', Does f z e z' ∧ S x' z'

/-- **One step** of the programs with a system that is an object: a step with the calls at once, or
none, and then a call has come further or the system has done something by itself. -/
theorem CallerStep.together [Fintype κ] {γ : Type*} {sys : γ → Option (Event κ Op Res) → γ → Prop}
    {ok : Op → Prop} {S : γ → (κ → Phase Op Res) × τ → Prop} {ph : κ → Phase Op Res} {m : τ}
    {x x₁ : γ} {t₁ : κ → Prog E C α × σ} (ho : IsObject sys f ok S) (hS : S x (ph, m))
    (hok : ∀ k op g, AtCall callOf (t k).1 op g → ok op) (h : Together callOf ok t t' ph)
    (hs : CallerStep callOf env body sys (t, x) (t₁, x₁)) :
    ∃ t'' ph' m', S x₁ (ph', m') ∧ Together callOf ok t₁ t'' ph' ∧
      (AtomicCallerStep callOf env body f (t', m) (t'', m') ∨ t'' = t' ∧ m' = m ∧
        (∑ k, (ph' k).lead < ∑ k, (ph k).lead ∨ ph' = ph ∧ sys x none x₁)) := by
  cases hs with
  | own k hs =>
    obtain ⟨hat, h'⟩ := h.own hs
    exact ⟨_, ph, m, hS, h', Or.inl hat⟩
  | silent hs =>
    obtain ⟨⟨ph', m'⟩, hd, hS'⟩ := ho.step _ _ _ _ hS (fun _ _ e => by cases e) hs
    cases hd with
    | nothing => exact ⟨t', ph, m, hS', h, Or.inr ⟨rfl, rfl, Or.inr ⟨rfl, hs⟩⟩⟩
    | step hd =>
      obtain ⟨t'', hat, h'⟩ := h.perform hd
      exact ⟨t'', ph', m', hS', h', Or.inl hat⟩
  | invoke k hat hs =>
    obtain ⟨⟨ph', m'⟩, hd, hS'⟩ :=
      ho.step _ _ _ _ hS (fun _ _ e => by cases e; exact hok k _ _ hat) hs
    cases hd with
    | step hd =>
      obtain ⟨rfl, h', hph, rfl⟩ := h.invoke hat (hok k _ _ hat) hd
      refine ⟨t', _, m', hS', h', Or.inr ⟨rfl, rfl, Or.inl (sum_update_lt Phase.lead ?_)⟩⟩
      rw [hph]
      exact Nat.zero_lt_one
  | result k hat hs =>
    obtain ⟨⟨ph', m'⟩, hd, hS'⟩ := ho.step _ _ _ _ hS (fun _ _ e => by cases e) hs
    cases hd with
    | step hd =>
      obtain ⟨rfl, h', hph, rfl⟩ := h.result hat hd
      refine ⟨t', _, m', hS', h', Or.inr ⟨rfl, rfl, Or.inl (sum_update_lt Phase.lead ?_)⟩⟩
      rw [hph]
      exact Nat.one_lt_two
    | @both z₁ _ _ _ hd hd' =>
      obtain ⟨ph₁, m₁⟩ := z₁
      obtain ⟨t'', hat', h'⟩ := h.perform hd
      obtain ⟨rfl, h'', -⟩ := h'.result hat hd'
      exact ⟨t'', ph', _, hS', h'', Or.inl hat'⟩

end Together

/-! ## Programs that end -/

section Ends

variable {callOf : ∀ β, E β → Option (CallOf Op Res β)} {env : Env E σ} {body : Bodies E C}
  {f : Op → τ → Res × τ} {ok : Op → Prop} {a : α} {t t' : κ → Prog E C α × σ} {k : κ} {op : Op}
  {g : Res → Prog E C α} {m m' : τ}

/-- Every program returns `a` whatever its calls return, and all its calls are `ok`. -/
def Orderly (callOf : ∀ β, E β → Option (CallOf Op Res β)) (env : Env E σ) (body : Bodies E C)
    (ok : Op → Prop) (a : α) (t : κ → Prog E C α × σ) : Prop :=
  ∀ k, Eventually (Step (anyEnv callOf env ok) body) (fun c => c.1 = .pure a) (t k)

omit [DecidableEq κ] in
theorem Orderly.next (h : Orderly callOf env body ok a t) (k : κ) :
    (t k).1 = .pure a ∨ (∃ c', Step (ownEnv callOf env) body (t k) c') ∨
      ∃ op g, ok op ∧ AtCall callOf (t k).1 op g := by
  cases h k with
  | now hp => exact Or.inl hp
  | step hs _ => exact Or.inr (Step.own_or_call hs)

omit [DecidableEq κ] in
theorem Orderly.allowed (h : Orderly callOf env body ok a t) (hat : AtCall callOf (t k).1 op g) :
    ok op := by
  rcases h.next k with ha | ⟨c, hs⟩ | ⟨op', g', hok, hat'⟩
  · rw [ha] at hat
    cases hat
  · exact absurd hs hat.not_own
  · exact (hat.unique hat').1 ▸ hok

omit [DecidableEq κ] in
theorem Orderly.anyEnv_step {p : Prog E C α} {s : σ} (h : Orderly callOf env body ok a t)
    (hs : Step (callerEnv callOf env f) body ((t k).1, ((t k).2, m)) (p, (s, m'))) :
    Step (anyEnv callOf env ok) body (t k) (p, s) := by
  rcases hs.callerEnv_cases with ⟨hs, -⟩ | ⟨op, g, hat, rfl, rfl, -⟩
  · exact hs.anyEnv_own
  · exact hat.anyEnv_call (h.allowed hat)

theorem Orderly.step (h : Orderly callOf env body ok a t)
    (hs : AtomicCallerStep callOf env body f (t, m) (t', m')) : Orderly callOf env body ok a t' := by
  cases hs with
  | step k hs =>
    intro j
    by_cases hj : j = k
    · subst hj
      rw [Function.update_self]
      have hstep := h.anyEnv_step hs
      cases h j with
      | now ha =>
        rw [ha] at hs
        cases hs
      | step _ hall => exact hall _ hstep
    · rw [Function.update_of_ne hj]
      exact h j

/-- **Orderly programs** with an object do not go on for ever. -/
theorem Orderly.acc [Fintype κ] (h : Orderly callOf env body ok a t) :
    Acc (fun d' d => AtomicCallerStep callOf env body f d d') (t, m) := by
  refine acc_all (r := fun _ => Step (anyEnv callOf env ok) body)
    (D := fun _ c => c.1 = .pure a)
    (fun x c => x.1 = c ∧ Orderly callOf env body ok a c) ?_ ⟨rfl, h⟩ h
  rintro ⟨t, m⟩ _ _ ⟨rfl, h⟩ - hs
  have h' := h.step hs
  cases hs with
  | step k hs =>
    refine Or.inr ⟨k, _, fun ha => ?_, h.anyEnv_step hs, rfl, h'⟩
    rw [ha] at hs
    cases hs

end Ends

/-! ## Runs -/

section Runs

variable [Fintype κ] {γ : Type*} {sys : γ → Option (Event κ Op Res) → γ → Prop}
  {callOf : ∀ β, E β → Option (CallOf Op Res β)} {env : Env E σ} {body : Bodies E C}
  {f : Op → τ → Res × τ} {ok : Op → Prop} {a : α} {S : γ → (κ → Phase Op Res) × τ → Prop} {G : γ → Prop}
  {t t₀ t₁ t' : κ → Prog E C α × σ} {x x₁ : γ} {m m₀ : τ} {ph : κ → Phase Op Res} {k : κ} {op : Op}
  {g : Res → Prog E C α} {c : (κ → Prog E C α × σ) × γ}

/-- A system that is an object, and that answers: it takes calls, and goes on by itself until all
calls are done with and it has come to `G`. -/
structure Answers (sys : γ → Option (Event κ Op Res) → γ → Prop) (f : Op → τ → Res × τ)
    (ok : Op → Prop) (G : γ → Prop) (S : γ → (κ → Phase Op Res) × τ → Prop) : Prop
    extends IsObject sys f ok S where
  takes : ∀ x z k op, S x z → z.1 k = .idle → ok op → ∃ x', sys x (some (.invoke k op)) x'
  goes : ∀ x z, S x z → (∃ k, z.1 k ≠ .idle) ∨ ¬ G x → ∃ x', Quiet sys x x'
  ends : ∀ x z, S x z → Acc (fun x' x => sys x none x') x

/-- What a run of the programs has come to, and the same programs with the calls at once. -/
structure CallersAt (callOf : ∀ β, E β → Option (CallOf Op Res β)) (env : Env E σ)
    (body : Bodies E C)
    (ok : Op → Prop) (a : α) (S : γ → (κ → Phase Op Res) × τ → Prop) (c : (κ → Prog E C α × σ) × γ)
    (d : (κ → Prog E C α × σ) × τ) (ph : κ → Phase Op Res) : Prop where
  system : S c.2 (ph, d.2)
  together : Together callOf ok c.1 d.1 ph
  orderly : Orderly callOf env body ok a d.1

omit [DecidableEq κ] [Fintype κ] in
theorem CallersAt.allowed (h : CallersAt callOf env body ok a S (t, x) (t', m) ph)
    (hat : AtCall callOf (t k).1 op g) : ok op := by
  have hk := h.together k
  cases hp : ph k with
  | idle =>
    rw [hp] at hk
    have horder := h.orderly
    dsimp only at hk horder
    exact horder.allowed (hk.of_idle ▸ hat)
  | waiting op' =>
    rw [hp] at hk
    obtain ⟨-, hok, g', hat'⟩ := hk.of_waiting
    exact (hat.unique hat').1 ▸ hok
  | done r =>
    rw [hp] at hk
    obtain ⟨op', g', hok, hat', -⟩ := hk.of_done
    exact (hat.unique hat').1 ▸ hok

/-- **One step.** -/
theorem CallersAt.step (ho : IsObject sys f ok S)
    (h : CallersAt callOf env body ok a S (t, x) (t', m) ph)
    (hs : CallerStep callOf env body sys (t, x) (t₁, x₁)) :
    ∃ t'' m' ph', CallersAt callOf env body ok a S (t₁, x₁) (t'', m') ph' ∧
      (AtomicCallerStep callOf env body f (t', m) (t'', m') ∨ t'' = t' ∧ m' = m ∧
        (∑ k, (ph' k).lead < ∑ k, (ph k).lead ∨ ph' = ph ∧ sys x none x₁)) := by
  obtain ⟨t'', ph', m', hS, ht, hd⟩ :=
    hs.together ho h.system (fun k op g hat => h.allowed hat) h.together
  refine ⟨t'', m', ph', ⟨hS, ht, ?_⟩, hd⟩
  rcases hd with hd | ⟨rfl, -⟩
  · exact h.orderly.step hd
  · exact h.orderly

/-- **The run**: the same programs, with the calls at once, come to a place that goes with it. -/
theorem CallersAt.run (ho : IsObject sys f ok S)
    (h : CallersAt callOf env body ok a S (t₀, x) (t₀, m₀) ph)
    (hs : Relation.ReflTransGen (CallerStep callOf env body sys) (t₀, x) c) :
    ∃ d ph', CallersAt callOf env body ok a S c d ph' ∧
      Relation.ReflTransGen (AtomicCallerStep callOf env body f) (t₀, m₀) d := by
  induction hs with
  | refl => exact ⟨_, ph, h, .refl⟩
  | @tail c c' _ hs ih =>
    obtain ⟨⟨t', m⟩, ph', h', hd⟩ := ih
    obtain ⟨t₁, x₁⟩ := c'
    obtain ⟨t'', m', ph'', h'', hstep⟩ := h'.step ho hs
    refine ⟨_, ph'', h'', ?_⟩
    rcases hstep with hstep | ⟨rfl, rfl, -⟩
    · exact hd.tail hstep
    · exact hd

omit [Fintype κ] in
/-- Something goes on until all programs have ended, and the system has come to `G`. -/
theorem CallersAt.goes (ha : Answers sys f ok G S)
    (h : CallersAt callOf env body ok a S (t, x) (t', m) ph) :
    ((∀ k, (t k).1 = .pure a) ∧ G x) ∨ ∃ c, CallerStep callOf env body sys (t, x) c := by
  by_cases hquiet : (∃ k, ph k ≠ .idle) ∨ ¬ G x
  · -- a call is under way, or the system goes on by itself
    obtain ⟨x', e, hinv, hs⟩ := ha.goes x _ h.system hquiet
    obtain ⟨⟨ph', m'⟩, hd, -⟩ :=
      ha.step x _ e x' h.system (fun k op he => absurd he (hinv k op)) hs
    right
    cases e with
    | none => exact ⟨_, .silent hs⟩
    | some e =>
      cases e with
      | invoke k op => exact absurd rfl (hinv k op)
      | result k r =>
        obtain ⟨op, g, hat⟩ : ∃ op g, AtCall callOf (t k).1 op g := by
          have hk := h.together k
          cases hp : ph k with
          | idle =>
            cases hd with
            | step hd =>
              cases hd with
              | result hdone => cases hp.symm.trans hdone
            | both hd hd' =>
              cases hd with
              | @perform _ _ j _ hwait =>
                cases hd' with
                | result hdone =>
                  by_cases hkj : k = j
                  · subst hkj
                    cases hp.symm.trans hwait
                  · rw [Function.update_of_ne hkj] at hdone
                    cases hp.symm.trans hdone
          | waiting op =>
            rw [hp] at hk
            obtain ⟨-, -, g, hat⟩ := hk.of_waiting
            exact ⟨op, g, hat⟩
          | done r =>
            rw [hp] at hk
            obtain ⟨op, g, -, hat, -⟩ := hk.of_done
            exact ⟨op, g, hat⟩
        exact ⟨_, .result k hat hs⟩
  · rw [not_or, not_exists, not_not] at hquiet
    have hidle : ∀ k, ph k = .idle := fun k => not_not.mp (hquiet.1 k)
    have hsame : ∀ k, t' k = t k := fun k => by
      have hk := h.together k
      rw [hidle k] at hk
      exact hk.of_idle
    by_cases hend : ∀ k, (t k).1 = .pure a
    · exact Or.inl ⟨hend, hquiet.2⟩
    · obtain ⟨k, hk⟩ := not_forall.mp hend
      have hnext := h.orderly.next k
      dsimp only at hnext
      rw [hsame] at hnext
      rcases hnext with hp | ⟨c, hs⟩ | ⟨op, g, hok, hat⟩
      · exact absurd hp hk
      · exact Or.inr ⟨_, .own k hs⟩
      · obtain ⟨x', hs⟩ := ha.takes x _ k op h.system (hidle k) hok
        exact Or.inr ⟨_, .invoke k hat hs⟩

omit [DecidableEq κ] [Fintype κ] in
theorem CallersAt.idle (h : CallersAt callOf env body ok a S (t, x) (t', m) ph) {b : α}
    (hb : (t k).1 = .pure b) : ph k = .idle := by
  have hno : ∀ op g, ¬ AtCall callOf (t k).1 op g := fun op g hat => by
    rw [hb] at hat
    cases hat
  have hk := h.together k
  cases hp : ph k with
  | idle => rfl
  | waiting op =>
    rw [hp] at hk
    obtain ⟨-, -, g, hat⟩ := hk.of_waiting
    exact absurd hat (hno op g)
  | done r =>
    rw [hp] at hk
    obtain ⟨op, g, -, hat, -⟩ := hk.of_done
    exact absurd hat (hno op g)

omit [DecidableEq κ] [Fintype κ] in
theorem CallersAt.same (h : CallersAt callOf env body ok a S (t, x) (t', m) ph) {b : α}
    (hb : (t k).1 = .pure b) : t' k = t k := by
  have hk := h.together k
  rw [h.idle hb] at hk
  exact hk.of_idle

omit [DecidableEq κ] [Fintype κ] in
theorem CallersAt.ended (h : CallersAt callOf env body ok a S (t, x) (t', m) ph)
    (hend : ∀ k, (t k).1 = .pure a) : t' = t := funext fun k => h.same (hend k)

omit [DecidableEq κ] [Fintype κ] in
theorem CallersAt.result (h : CallersAt callOf env body ok a S (t, x) (t', m) ph) {b : α}
    (hb : (t k).1 = .pure b) : b = a := by
  have hnext := h.orderly.next k
  dsimp only at hnext
  rw [h.same hb] at hnext
  rcases hnext with ha | ⟨c, hs⟩ | ⟨op, g, -, hat⟩
  · exact Prog.pure.inj (hb.symm.trans ha)
  · rw [show t k = (.pure b, (t k).2) from Prod.ext hb rfl] at hs
    cases hs
  · rw [hb] at hat
    cases hat

theorem wellFounded_acc {γ : Type*} (r : γ → γ → Prop) :
    WellFounded fun x' x => Acc (fun x' x => r x x') x ∧ r x x' := by
  refine ⟨fun x => .intro x fun x' hx' => ?_⟩
  have hacc : Acc (fun x' x => r x x') x' := hx'.1.inv hx'.2
  clear hx'
  induction hacc with
  | intro x' _ ih => exact .intro x' fun x'' hx'' => ih x'' hx''.2

/-- **The programs come to their ends**, with what the same programs come to when their calls are at
once. -/
theorem callers_end (ha : Answers sys f ok G S)
    (h : CallersAt callOf env body ok a S (t₀, x) (t₀, m₀) ph) :
    Eventually (CallerStep callOf env body sys) (fun c => (∀ k, (c.1 k).1 = .pure a) ∧ G c.2 ∧
      ∃ ph m, S c.2 (ph, m) ∧
        Relation.ReflTransGen (AtomicCallerStep callOf env body f) (t₀, m₀) (c.1, m)) (t₀, x) := by
  have hacc : Acc (fun c' c => CallerStep callOf env body sys c c') (t₀, x) := by
    have hwf := (wellFounded_lt (α := ℕ)).prod_lex (wellFounded_acc fun x x' => sys x none x')
    refine acc_stuttering (q := AtomicCallerStep callOf env body f) (d := (t₀, m₀))
      (a := (∑ k, (ph k).lead, x))
      (fun c d n => ∃ ph, CallersAt callOf env body ok a S c d ph ∧ n = (∑ k, (ph k).lead, c.2))
      (fun _ => Prod.Lex (· < ·) _) ?_ (fun _ _ a _ => hwf.apply a) ⟨ph, h, rfl⟩ h.orderly.acc
    rintro ⟨t, x⟩ ⟨t', m⟩ _ ⟨t₁, x₁⟩ ⟨ph, h, rfl⟩ hs
    obtain ⟨t'', m', ph', h', hd | ⟨rfl, rfl, hlt | ⟨rfl, hsys⟩⟩⟩ := h.step ha.toIsObject hs
    · exact Or.inl ⟨_, _, hd, ph', h', rfl⟩
    · exact Or.inr ⟨_, .left _ _ hlt, ph', h', rfl⟩
    · exact Or.inr ⟨_, .right _ ⟨ha.ends _ _ h.system, hsys⟩, ph', h', rfl⟩
  have hev := eventually_of_acc (R := fun c => ((∀ k, (c.1 k).1 = .pure a) ∧ G c.2) ∧
      ∃ d ph, CallersAt callOf env body ok a S c d ph ∧
        Relation.ReflTransGen (AtomicCallerStep callOf env body f) (t₀, m₀) d)
    (fun c => ∃ d ph, CallersAt callOf env body ok a S c d ph ∧
      Relation.ReflTransGen (AtomicCallerStep callOf env body f) (t₀, m₀) d) ?_ ?_
    ⟨_, ph, h, .refl⟩ hacc
  · refine hev.mono ?_
    rintro ⟨t, x⟩ ⟨⟨hend, hG⟩, ⟨t', m⟩, ph, h, hd⟩
    obtain rfl : t' = t := h.ended hend
    exact ⟨hend, hG, ph, m, h.system, hd⟩
  · rintro ⟨t, x⟩ ⟨t₁, x₁⟩ ⟨⟨t', m⟩, ph, h, hd⟩ hs
    obtain ⟨t'', m', ph', h', hstep⟩ := h.step ha.toIsObject hs
    refine ⟨_, ph', h', ?_⟩
    rcases hstep with hstep | ⟨rfl, rfl, -⟩
    · exact hd.tail hstep
    · exact hd
  · rintro ⟨t, x⟩ ⟨⟨t', m⟩, ph, h, hd⟩
    exact (h.goes ha).imp_left fun hend => ⟨hend, _, ph, h, hd⟩

omit [Fintype κ] in
theorem AtomicCallerStep.alone [Subsingleton κ] (k : κ) {d d' : (κ → Prog E C α × σ) × τ}
    (h : Relation.ReflTransGen (AtomicCallerStep callOf env body f) d d') :
    Steps (callerEnv callOf env f) body ((d.1 k).1, ((d.1 k).2, d.2)) ((d'.1 k).1, ((d'.1 k).2, d'.2)) := by
  induction h with
  | refl => exact .refl
  | tail _ hs ih =>
    refine ih.tail ?_
    cases hs with
    | step j hs =>
      obtain rfl : j = k := Subsingleton.elim j k
      dsimp only
      rwa [Function.update_self]

/-- **One program that calls an object** comes to what it comes to when its calls are at once. -/
theorem callers_end_one [Subsingleton κ] (k : κ) {Q : Prog E C α × σ × τ → Prop}
    (ha : Answers sys f ok G S) (h : CallersAt callOf env body ok a S (t₀, x) (t₀, m₀) ph)
    (hQ : Eventually (Step (callerEnv callOf env f) body) Q ((t₀ k).1, ((t₀ k).2, m₀)))
    (hend : ∀ c, Q c → ∃ a, c.1 = .pure a) :
    Eventually (CallerStep callOf env body sys) (fun c => G c.2 ∧ ∃ ph m, S c.2 (ph, m) ∧
      Q ((c.1 k).1, ((c.1 k).2, m))) (t₀, x) := by
  have hpure : ∀ (c d : Prog E C α × σ × τ) a, c.1 = .pure a →
      ¬ Step (callerEnv callOf env f) body c d := by
    rintro ⟨p, s⟩ d a rfl hs
    cases hs
  refine (callers_end ha h).mono ?_
  rintro ⟨t, x'⟩ ⟨hret, hG, ph', m, hS, hd⟩
  refine ⟨hG, ph', m, hS, ?_⟩
  have hp := hret k
  have hdone := hQ.along (fun c d hc => (hend c hc).elim fun a h => hpure c d a h)
    (AtomicCallerStep.alone k hd)
  cases hdone with
  | now hdone => exact hdone
  | step hs _ =>
    obtain ⟨d, hs⟩ := hs
    exact absurd hs (hpure _ d a hp)

end Runs

end MyJQL
