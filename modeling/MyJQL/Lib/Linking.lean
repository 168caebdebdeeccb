import MyJQL.Lib.Parallel

/-!
# Effects that are programs

Threads whose effects include calls of a shared object, where the calls are themselves programs.

* `semEnv`, `Returns.of_steps`: the runs of a program in an interpretation;
* `Prog.link`: a program with some of its effects replaced by programs, which run step by step;
  `atomicEnv`: the same effects, each at once; `LinkedAs.eventually`: one such program by itself;
* `LockUse`, `Prog.Guarded`: programs that perform these effects, and nothing else, between taking a
  lock and leaving it;
* `Atomic`: the threads, step by step, beside the threads whose calls are atomic;
  **`Atomic.step`**: under the lock every interleaving is one of atomic calls.
-/

set_option linter.unusedSimpArgs false

namespace MyJQL

variable {E C E₂ C₂ : Type → Type} {σ τ α β ι : Type}

/-! ## Runs of an interpretation -/

/-- The environment that an interpretation is. -/
def semEnv (sem : Sem E σ) : Env E σ := fun _ e s b s' => sem e s = some (b, s')

section Returns

variable {sem : Sem E σ} {body : Bodies E C} {p q : Prog E C α} {s s' : σ} {a : α}

theorem Returns.of_step {t : σ} (hs : Step (semEnv sem) body (p, s) (q, s'))
    (h : Returns sem body q s' a t) : Returns sem body p s a t := by
  cases hs with
  | @op β e k _ _ b he =>
    obtain ⟨n, hn⟩ := h
    exact ⟨n, Option.bind_eq_some_iff.mpr ⟨(b, s'), he, hn⟩⟩
  | @call β c k =>
    obtain ⟨b, s₁, ⟨m, hm⟩, ⟨n, hn⟩⟩ := h.of_bind
    refine ⟨max m n + 1, Option.bind_eq_some_iff.mpr ⟨(b, s₁), ?_, ?_⟩⟩
    · exact run_mono (le_max_left m n) hm
    · exact run_mono ((le_max_right m n).trans (Nat.le_succ _)) hn

/-- **A run to the end** returns. -/
theorem Returns.of_steps (h : Steps (semEnv sem) body (p, s) (.pure a, s')) :
    Returns sem body p s a s' := by
  generalize hc : (p, s) = c at h
  induction h using Relation.ReflTransGen.head_induction_on generalizing p s with
  | refl =>
    cases hc
    exact ⟨0, rfl⟩
  | head hs _ ih =>
    subst hc
    exact (ih rfl).of_step hs

theorem Prog.eventually_of_eval {h : Sem C σ} {Q : Prog E C β × σ → Prop}
    (hh : ∀ {γ : Type} (c : C γ) (k : γ → Prog E C β) s b s', h c s = some (b, s') →
      Eventually (Step (semEnv sem) body) Q (k b, s') →
      Eventually (Step (semEnv sem) body) Q ((body c).bind k, s))
    (p : Prog E C α) (f : α → Prog E C β) (hp : p.eval sem h s = some (a, s'))
    (hf : Eventually (Step (semEnv sem) body) Q (f a, s')) :
    Eventually (Step (semEnv sem) body) Q (p.bind f, s) := by
  induction p generalizing s with
  | pure a =>
    cases hp
    exact hf
  | op e k ih =>
    obtain ⟨⟨b, s₁⟩, he, hk⟩ := Option.bind_eq_some_iff.mp hp
    refine .step ⟨_, .op he⟩ fun c' hs => ?_
    cases hs with
    | op he' =>
      cases he.symm.trans he'
      exact ih b hk
  | call c k ih =>
    obtain ⟨⟨b, s₁⟩, hc, hk⟩ := Option.bind_eq_some_iff.mp hp
    exact eventually_call (hh c _ s b s₁ hc (ih b hk))

theorem eventually_of_runProc {Q : Prog E C β × σ → Prop} (n : ℕ) {γ : Type} (c : C γ)
    (k : γ → Prog E C β) (s : σ) (b : γ) (s' : σ) (h : runProc sem body n c s = some (b, s'))
    (hk : Eventually (Step (semEnv sem) body) Q (k b, s')) :
    Eventually (Step (semEnv sem) body) Q ((body c).bind k, s) := by
  induction n generalizing γ s b s' with
  | zero => cases h
  | succ n ih => exact Prog.eventually_of_eval ih (body c) k h hk

/-- **A program that returns** comes to its end. -/
theorem Returns.eventually (h : Returns sem body p s a s') :
    Eventually (Step (semEnv sem) body) (fun c => ∃ b, c.1 = .pure b) (p, s) := by
  obtain ⟨n, hn⟩ := h
  rw [← p.bind_pure]
  exact Prog.eventually_of_eval (eventually_of_runProc n) p _ hn (.now ⟨a, rfl⟩)

end Returns

/-! ## Linking -/

/-- Effects of a program, and of the programs that some of them are. -/
abbrev SumEff (E E₂ : Type → Type) : Type → Type := fun β => E β ⊕ E₂ β

/-- Procedures of a program, and of the programs that some of its effects are; and the entries to
these. -/
inductive SumProc (E C C₂ : Type → Type) (β : Type) : Type
  | outer (c : C β)
  | inner (c : C₂ β)
  | entry (e : E β)

namespace Prog

/-- A program that an effect is. -/
def inner : Prog E₂ C₂ α → Prog (SumEff E E₂) (SumProc E C C₂) α
  | .pure a => .pure a
  | .op e k => .op (.inr e) fun b => (k b).inner
  | .call c k => .call (.inner c) fun b => (k b).inner

/-- A program, with the effects that are programs as calls of these. -/
def link (impl : ∀ β, E β → Option (Prog E₂ C₂ β)) :
    Prog E C α → Prog (SumEff E E₂) (SumProc E C C₂) α
  | .pure a => .pure a
  | .op e k => match impl _ e with
    | some _ => .call (.entry e) fun b => (k b).link impl
    | none => .op (.inl e) fun b => (k b).link impl
  | .call c k => .call (.outer c) fun b => (k b).link impl

end Prog

/-- The bodies of all procedures. -/
def linkBodies (impl : ∀ β, E β → Option (Prog E₂ C₂ β)) (body : Bodies E C)
    (body₂ : Bodies E₂ C₂) :
    Bodies (SumEff E E₂) (SumProc E C C₂)
  | _, .outer c => (body c).link impl
  | _, .inner c => (body₂ c).inner
  | _, .entry e => match impl _ e with
    | some p => p.inner
    | none => .op (.inl e) .pure

/-- The effects of all programs: those of the inner ones concern the object only. -/
def linkedEnv (impl : ∀ β, E β → Option (Prog E₂ C₂ β)) (env : Env E σ) (sem : Sem E₂ τ) :
    Env (SumEff E E₂) (σ × τ)
  | _, .inl e, s, b, s' => impl _ e = none ∧ env _ e s.1 b s'.1 ∧ s'.2 = s.2
  | _, .inr e, s, b, s' => sem e s.2 = some (b, s'.2) ∧ s'.1 = s.1

/-- The effects that are programs, each at once. -/
def atomicEnv (impl : ∀ β, E β → Option (Prog E₂ C₂ β)) (env : Env E σ) (sem : Sem E₂ τ)
    (body₂ : Bodies E₂ C₂) : Env E (σ × τ) := fun _ e s b s' =>
  match impl _ e with
  | some p => s'.1 = s.1 ∧ Returns sem body₂ p s.2 b s'.2
  | none => env _ e s.1 b s'.1 ∧ s'.2 = s.2

section Link

variable {impl : ∀ β, E β → Option (Prog E₂ C₂ β)} {env : Env E σ} {sem : Sem E₂ τ}
  {body : Bodies E C} {body₂ : Bodies E₂ C₂} {s s' : σ × τ}

theorem atomicEnv_some {e : E β} {p : Prog E₂ C₂ β} (h : impl β e = some p) {b : β} :
    atomicEnv impl env sem body₂ β e s b s' ↔ s'.1 = s.1 ∧ Returns sem body₂ p s.2 b s'.2 := by
  simp only [atomicEnv, h]

theorem atomicEnv_none {e : E β} (h : impl β e = none) {b : β} :
    atomicEnv impl env sem body₂ β e s b s' ↔ env β e s.1 b s'.1 ∧ s'.2 = s.2 := by
  simp only [atomicEnv, h]

theorem Prog.link_bind (p : Prog E C α) (f : α → Prog E C β) :
    (p.bind f).link impl = (p.link impl).bind fun a => (f a).link impl := by
  induction p with
  | pure a => rfl
  | op e k ih =>
    simp only [Prog.bind, Prog.link]
    cases impl _ e with
    | some _ => exact congrArg _ (funext ih)
    | none => exact congrArg _ (funext ih)
  | call c k ih => exact congrArg _ (funext ih)

theorem Prog.inner_bind (p : Prog E₂ C₂ α) (f : α → Prog E₂ C₂ β) :
    ((p.bind f).inner : Prog (SumEff E E₂) (SumProc E C C₂) β) = p.inner.bind fun a => (f a).inner := by
  induction p with
  | pure a => rfl
  | op e k ih => exact congrArg _ (funext ih)
  | call c k ih => exact congrArg _ (funext ih)

/-- **A step of a linked program**: a call, an effect, or the entry to a program. -/
theorem Step.of_link {p : Prog E C α} {p' : Prog (SumEff E E₂) (SumProc E C C₂) α}
    (h : Step (linkedEnv impl env sem) (linkBodies impl body body₂) (p.link impl, s) (p', s')) :
    (∃ (β : Type) (c : C β) (k : β → Prog E C α), p = .call c k ∧
      p' = ((body c).bind k).link impl ∧ s' = s) ∨
    (∃ (β : Type) (e : E β) (k : β → Prog E C α) (b : β), p = .op e k ∧ impl β e = none ∧
      env β e s.1 b s'.1 ∧ s'.2 = s.2 ∧ p' = (k b).link impl) ∨
    ∃ (β : Type) (e : E β) (k : β → Prog E C α) (q : Prog E₂ C₂ β), p = .op e k ∧
      impl β e = some q ∧ p' = q.inner.bind (fun b => (k b).link impl) ∧ s' = s := by
  cases p with
  | pure a => cases h
  | call c k =>
    cases h
    exact Or.inl ⟨_, c, k, rfl, (Prog.link_bind ..).symm, rfl⟩
  | op e k =>
    cases hi : impl _ e with
    | none =>
      simp only [Prog.link, hi] at h
      cases h with
      | op he => exact Or.inr (Or.inl ⟨_, e, k, _, rfl, hi, he.2.1, he.2.2, rfl⟩)
    | some q =>
      simp only [Prog.link, hi] at h
      cases h with
      | call =>
        refine Or.inr (Or.inr ⟨_, e, k, q, rfl, hi, ?_, rfl⟩)
        simp only [linkBodies, hi]

/-- **A step inside** a program that an effect is. -/
theorem Step.of_inner {q : Prog E₂ C₂ β} {f : β → Prog (SumEff E E₂) (SumProc E C C₂) α}
    {p' : Prog (SumEff E E₂) (SumProc E C C₂) α} (hq : ∀ b, q ≠ .pure b)
    (h : Step (linkedEnv impl env sem) (linkBodies impl body body₂) (q.inner.bind f, s) (p', s')) :
    ∃ q', p' = q'.inner.bind f ∧ s'.1 = s.1 ∧ Step (semEnv sem) body₂ (q, s.2) (q', s'.2) := by
  cases q with
  | pure b => exact absurd rfl (hq b)
  | op e k =>
    cases h with
    | op he => exact ⟨_, rfl, he.2, .op he.1⟩
  | call c k =>
    cases h
    refine ⟨_, ?_, rfl, .call⟩
    rw [Prog.inner_bind, Prog.bind_assoc]
    rfl

end Link

/-! ## One linked program -/

section Linked

variable {impl : ∀ β, E β → Option (Prog E₂ C₂ β)} {sem : Sem E σ} {body : Bodies E C}
  {body₂ : Bodies E₂ C₂} {P : σ → Prop} {env : Env (SumEff E E₂) τ} {R : σ → τ → Prop}

theorem spec_inner {live : Prop} {I : τ → Prop} {p : Prog E₂ C₂ α} {Q : α → τ → Prop} {s : τ}
    (h : p.spec (fun β e => env β (.inr e)) live I Q s) :
    (p.inner : Prog (SumEff E E₂) (SumProc E C C₂) α).spec env live I Q s := by
  induction p generalizing s with
  | pure a => exact h
  | op e k ih => exact ⟨h.1, h.2.1, fun b s' he => ih b (h.2.2 b s' he)⟩
  | call c k _ => exact h.elim

/-- The effects do in `env`, themselves or as programs, what they do in `sem`, as long as this comes
to states in `P`. -/
structure LinkedAs (impl : ∀ β, E β → Option (Prog E₂ C₂ β)) (sem : Sem E σ) (P : σ → Prop)
    (env : Env (SumEff E E₂) τ) (R : σ → τ → Prop) : Prop where
  backward : Backward P sem
  outer : ∀ {β : Type} (e : E β) o b o' s, impl β e = none → sem e o = some (b, o') → R o s →
    (∃ b s', env β (.inl e) s b s') ∧ ∀ b' s', env β (.inl e) s b' s' → b' = b ∧ R o' s'
  inner : ∀ {β : Type} (e : E β) p o b o' s, impl β e = some p → sem e o = some (b, o') → P o' →
    R o s → p.spec (fun β e => env β (.inr e)) True (fun _ => True) (fun b' s' => b' = b ∧ R o' s') s

theorem LinkedAs.eventually_of_eval (hl : LinkedAs impl sem P env R) {h : Sem C σ} {a : α}
    {o o' : σ}
    {s : τ} {Q : Prog (SumEff E E₂) (SumProc E C C₂) β × τ → Prop} (hC : Backward P h)
    (hh : ∀ {γ : Type} (c : C γ) (k : γ → Prog (SumEff E E₂) (SumProc E C C₂) β) o b o' s,
      h c o = some (b, o') → P o' → R o s →
      (∀ s', R o' s' → Eventually (Step env (linkBodies impl body body₂)) Q (k b, s')) →
      Eventually (Step env (linkBodies impl body body₂)) Q (((body c).link impl).bind k, s))
    (p : Prog E C α) (f : α → Prog (SumEff E E₂) (SumProc E C C₂) β)
    (hp : p.eval sem h o = some (a, o')) (hP : P o') (hR : R o s)
    (hf : ∀ s', R o' s' → Eventually (Step env (linkBodies impl body body₂)) Q (f a, s')) :
    Eventually (Step env (linkBodies impl body body₂)) Q ((p.link impl).bind f, s) := by
  induction p generalizing o s with
  | pure a =>
    cases hp
    exact hf s hR
  | op e k ih =>
    obtain ⟨⟨b, o₁⟩, he, hk⟩ := Option.bind_eq_some_iff.mp hp
    cases hi : impl _ e with
    | none =>
      obtain ⟨⟨b', s', hs⟩, hall⟩ := hl.outer e o b o₁ s hi he hR
      simp only [Prog.link, hi]
      refine .step ⟨_, .op hs⟩ fun c' hs => ?_
      cases hs with
      | op hs =>
        obtain ⟨rfl, hR'⟩ := hall _ _ hs
        exact ih _ hk hR'
    | some q =>
      have hP₁ : P o₁ := eval_backward hl.backward hC _ hk hP
      simp only [Prog.link, hi]
      refine eventually_call ?_
      simp only [linkBodies, hi]
      refine (spec_inner (hl.inner e q o b o₁ s hi he hP₁ hR)).eventually_bind ?_
      rintro b' s' ⟨rfl, hR'⟩
      exact ih _ hk hR'
  | call c k ih =>
    obtain ⟨⟨b, o₁⟩, hc, hk⟩ := Option.bind_eq_some_iff.mp hp
    exact eventually_call (hh c _ o b o₁ s hc (eval_backward hl.backward hC _ hk hP) hR
      fun s' hR' => ih b hk hR')

theorem LinkedAs.eventually_of_runProc (hl : LinkedAs impl sem P env R)
    {Q : Prog (SumEff E E₂) (SumProc E C C₂) β × τ → Prop} (n : ℕ) {γ : Type} (c : C γ)
    (k : γ → Prog (SumEff E E₂) (SumProc E C C₂) β) (o : σ) (b : γ) (o' : σ) (s : τ)
    (h : runProc sem body n c o = some (b, o')) (hP : P o') (hR : R o s)
    (hk : ∀ s', R o' s' → Eventually (Step env (linkBodies impl body body₂)) Q (k b, s')) :
    Eventually (Step env (linkBodies impl body body₂)) Q (((body c).link impl).bind k, s) := by
  induction n generalizing γ o b o' s with
  | zero => cases h
  | succ n ih =>
    exact hl.eventually_of_eval (runProc_backward body hl.backward n) ih (body c) k h hP hR hk

/-- **A linked program comes to the end** that the program itself comes to. -/
theorem LinkedAs.eventually (hl : LinkedAs impl sem P env R) {p : Prog E C α} {o o' : σ} {a : α}
    {s : τ} (h : Returns sem body p o a o') (hP : P o') (hR : R o s) :
    Eventually (Step env (linkBodies impl body body₂)) (fun c => c.1 = .pure a ∧ R o' c.2)
      (p.link impl, s) := by
  obtain ⟨n, hn⟩ := h
  rw [← (p.link impl).bind_pure]
  exact hl.eventually_of_eval (runProc_backward body hl.backward n) (hl.eventually_of_runProc n) p _
    hn hP hR fun s' hR' => .now ⟨rfl, hR'⟩

end Linked

/-! ## The lock -/

/-- What an effect is to a lock. -/
inductive LockUse
  | acquire
  | release
  | inside
  | outside
  deriving DecidableEq, Repr

/-- The program, which holds the lock or not at first, takes it and leaves it in turn, performs
nothing but effects of the kind `inside` while it holds it, and these only then. It ends with the
lock held or not as the last argument says. -/
def Prog.Guarded (use : ∀ β, E β → LockUse) : Prog E C α → Bool → Bool → Prop
  | .pure _, h, h' => h = h'
  | .op e k, h, h' => match use _ e with
    | .acquire => h = false ∧ ∀ b, (k b).Guarded use true h'
    | .release => h = true ∧ ∀ b, (k b).Guarded use false h'
    | .inside => h = true ∧ ∀ b, (k b).Guarded use true h'
    | .outside => h = false ∧ ∀ b, (k b).Guarded use false h'
  | .call _ k, h, h' => h = false ∧ ∀ b, (k b).Guarded use false h'

/-- A lock for the effects that are programs: one thread at a time has taken it. -/
structure Locking (use : ∀ β, E β → LockUse) (impl : ∀ β, E β → Option (Prog E₂ C₂ β))
    (owner : σ → Option ι) (envs : ι → Env E σ) : Prop where
  inside : ∀ β (e : E β), use β e = .inside ↔ impl β e ≠ none
  acquire : ∀ i β (e : E β) s b s', use β e = .acquire → envs i β e s b s' →
    owner s = none ∧ owner s' = some i
  release : ∀ i β (e : E β) s b s', use β e = .release → envs i β e s b s' → owner s' = none
  outside : ∀ i β (e : E β) s b s', use β e = .outside → envs i β e s b s' → owner s' = owner s

section Guarded

variable {use : ∀ β, E β → LockUse} {p : Prog E C α} {f : α → Prog E C β} {h h' h'' : Bool}

theorem guarded_bind (hp : p.Guarded use h h') (hf : ∀ a, (f a).Guarded use h' h'') :
    (p.bind f).Guarded use h h'' := by
  induction p generalizing h with
  | pure a =>
    cases hp
    exact hf a
  | op e k ih =>
    simp only [Prog.bind, Prog.Guarded] at hp ⊢
    split at hp
    all_goals exact ⟨hp.1, fun b => ih b (hp.2 b)⟩
  | call c k ih => exact ⟨hp.1, fun b => ih b (hp.2 b)⟩

theorem guarded_acquire {e : E β} {k : β → Prog E C α} (hu : use β e = .acquire) :
    (Prog.op e k).Guarded use h h' ↔ h = false ∧ ∀ b, (k b).Guarded use true h' := by
  simp only [Prog.Guarded, hu]

theorem guarded_release {e : E β} {k : β → Prog E C α} (hu : use β e = .release) :
    (Prog.op e k).Guarded use h h' ↔ h = true ∧ ∀ b, (k b).Guarded use false h' := by
  simp only [Prog.Guarded, hu]

theorem guarded_inside {e : E β} {k : β → Prog E C α} (hu : use β e = .inside) :
    (Prog.op e k).Guarded use h h' ↔ h = true ∧ ∀ b, (k b).Guarded use true h' := by
  simp only [Prog.Guarded, hu]

theorem guarded_outside {e : E β} {k : β → Prog E C α} (hu : use β e = .outside) :
    (Prog.op e k).Guarded use h h' ↔ h = false ∧ ∀ b, (k b).Guarded use false h' := by
  simp only [Prog.Guarded, hu]

end Guarded

/-- Thread `i` keeps to the lock, which it holds just when it is the owner. -/
def Disciplined (use : ∀ β, E β → LockUse) (owner : σ → Option ι) (i : ι) (p : Prog E C α) (s : σ) :
    Prop := ∃ h : Bool, (h = true ↔ owner s = some i) ∧ p.Guarded use h false

section Discipline

variable {use : ∀ β, E β → LockUse} {impl : ∀ β, E β → Option (Prog E₂ C₂ β)}
  {owner : σ → Option ι} {envs : ι → Env E σ} {sem : Sem E₂ τ} {body : Bodies E C}
  {body₂ : Bodies E₂ C₂} {i j : ι} {p p' : Prog E C α} {s s' : σ × τ}

theorem Disciplined.inside {e : E β} {k : β → Prog E C α} {s : σ}
    (h : Disciplined use owner i (.op e k) s) (hu : use β e = .inside) : owner s = some i := by
  obtain ⟨h, hi, hg⟩ := h
  exact hi.mp ((guarded_inside hu).mp hg).1

theorem Locking.impl_none (hl : Locking use impl owner envs) {e : E β} (hu : use β e ≠ .inside) :
    impl β e = none := by
  by_contra hn
  exact hu ((hl.inside β e).mpr hn)

/-- **A step** keeps to the lock, for this thread and the others. -/
theorem Disciplined.step (hl : Locking use impl owner envs)
    (hb : ∀ β (c : C β), (body c).Guarded use false false) (h : Disciplined use owner i p s.1)
    (hs : Step (atomicEnv impl (envs i) sem body₂) body (p, s) (p', s')) :
    Disciplined use owner i p' s'.1 ∧ ∀ j ≠ i, (owner s'.1 = some j ↔ owner s.1 = some j) := by
  obtain ⟨h, hi, hg⟩ := h
  cases hs with
  | call => exact ⟨⟨false, hg.1 ▸ hi, guarded_bind (hb _ _) hg.2⟩, fun _ _ => Iff.rfl⟩
  | @op β e k _ _ b he =>
    cases hu : use _ e with
    | acquire =>
      obtain ⟨rfl, hk⟩ := (guarded_acquire hu).mp hg
      have hn := hl.impl_none (e := e) (by rw [hu]; nofun)
      obtain ⟨h0, h1⟩ := hl.acquire i _ e _ _ _ hu ((atomicEnv_none hn).mp he).1
      refine ⟨⟨true, iff_of_true rfl h1, hk b⟩, fun j hj => ?_⟩
      rw [h0, h1, Option.some.injEq]
      exact iff_of_false (Ne.symm hj) nofun
    | release =>
      obtain ⟨rfl, hk⟩ := (guarded_release hu).mp hg
      have hn := hl.impl_none (e := e) (by rw [hu]; nofun)
      have h1 := hl.release i _ e _ _ _ hu ((atomicEnv_none hn).mp he).1
      refine ⟨⟨false, iff_of_false nofun (by rw [h1]; nofun), hk b⟩, fun j hj => ?_⟩
      rw [h1, hi.mp rfl, Option.some.injEq]
      exact iff_of_false nofun (Ne.symm hj)
    | inside =>
      obtain ⟨rfl, hk⟩ := (guarded_inside hu).mp hg
      obtain ⟨q, hq⟩ := Option.ne_none_iff_exists'.mp ((hl.inside _ e).mp hu)
      obtain ⟨h1, -⟩ := (atomicEnv_some hq).mp he
      rw [h1]
      exact ⟨⟨true, hi, hk b⟩, fun _ _ => Iff.rfl⟩
    | outside =>
      obtain ⟨rfl, hk⟩ := (guarded_outside hu).mp hg
      have hn := hl.impl_none (e := e) (by rw [hu]; nofun)
      have h1 := hl.outside i _ e _ _ _ hu ((atomicEnv_none hn).mp he).1
      exact ⟨⟨false, h1 ▸ hi, hk b⟩, fun j _ => by rw [h1]⟩

theorem Disciplined.congr {s₁ s₂ : σ} (h : Disciplined use owner i p s₁)
    (hs : owner s₂ = some i ↔ owner s₁ = some i) : Disciplined use owner i p s₂ := by
  obtain ⟨h, hi, hg⟩ := h
  exact ⟨h, hi.trans hs.symm, hg⟩

end Discipline

/-! ## Atomicity -/

/-- Where a program has come to, and the state it has come to. -/
abbrev Place (E₂ C₂ : Type → Type) (τ : Type) : Type 1 := Σ β : Type, Prog E₂ C₂ β × τ

section Atomicity

variable {γ : ι → Type}

/-- Thread `i` has come to the place `a` in a program that an effect of it is; the other threads are
outside. The object was `w₀` at the entry, and is `w`. -/
def Inside (impl : ∀ β, E β → Option (Prog E₂ C₂ β)) (sem : Sem E₂ τ) (body₂ : Bodies E₂ C₂)
    (t : Threads (SumEff E E₂) (SumProc E C C₂) γ) (u : Threads E C γ) (w w₀ : τ) (i : ι)
    (a : Place E₂ C₂ τ) : Prop :=
  ∃ (e : E a.1) (k : a.1 → Prog E C (γ i)) (p : Prog E₂ C₂ a.1), u i = .op e k ∧
    impl _ e = some p ∧ (∀ b, a.2.1 ≠ .pure b) ∧
    t i = a.2.1.inner.bind (fun b => (k b).link impl) ∧ w = a.2.2 ∧
    Steps (semEnv sem) body₂ (p, w₀) a.2 ∧ ∀ j ≠ i, t j = (u j).link impl

/-- Where the thread inside has come to, if there is one. -/
def Inmost (impl : ∀ β, E β → Option (Prog E₂ C₂ β)) (sem : Sem E₂ τ) (body₂ : Bodies E₂ C₂)
    (t : Threads (SumEff E E₂) (SumProc E C C₂) γ) (u : Threads E C γ) (w w₀ : τ) :
    Option (Place E₂ C₂ τ) → Prop
  | none => w = w₀ ∧ ∀ i, t i = (u i).link impl
  | some a => ∃ i, Inside impl sem body₂ t u w w₀ i a

/-- **The threads step by step**, `t` in the state `x`, **and the threads whose calls are atomic**,
`u` in the state `y`: they are at the same places, but for one thread that is inside a call. -/
structure Atomic (use : ∀ β, E β → LockUse) (impl : ∀ β, E β → Option (Prog E₂ C₂ β))
    (owner : σ → Option ι) (sem : Sem E₂ τ) (body₂ : Bodies E₂ C₂)
    (t : Threads (SumEff E E₂) (SumProc E C C₂) γ) (x : σ × τ) (u : Threads E C γ) (y : σ × τ)
    (a : Option (Place E₂ C₂ τ)) : Prop where
  shared : x.1 = y.1
  disciplined : ∀ i, Disciplined use owner i (u i) y.1
  inmost : Inmost impl sem body₂ t u x.2 y.2 a

/-- The place inside goes down: a thread enters a call, or goes on with it. -/
inductive Deeper (impl : ∀ β, E β → Option (Prog E₂ C₂ β)) (sem : Sem E₂ τ) (body₂ : Bodies E₂ C₂)
    (u : Threads E C γ) (w₀ : τ) : Option (Place E₂ C₂ τ) → Option (Place E₂ C₂ τ) → Prop
  | enter {i : ι} {β : Type} {e : E β} {k : β → Prog E C (γ i)} {p : Prog E₂ C₂ β}
    (hu : u i = .op e k) (hp : impl β e = some p) :
    Deeper impl sem body₂ u w₀ (some ⟨β, p, w₀⟩) none
  | inside {β : Type} {c c' : Prog E₂ C₂ β × τ} (h : Step (semEnv sem) body₂ c c') :
    Deeper impl sem body₂ u w₀ (some ⟨β, c'⟩) (some ⟨β, c⟩)

/-- The program is inside: its next step is one of a program that an effect is. -/
def Prog.AtObject : Prog (SumEff E E₂) (SumProc E C C₂) α → Prop
  | .op (.inr _) _ => True
  | .call (.inner _) _ => True
  | _ => False

theorem Prog.not_atObject_link {impl : ∀ β, E β → Option (Prog E₂ C₂ β)} (p : Prog E C α) :
    ¬ (p.link impl).AtObject := by
  cases p with
  | pure a => exact id
  | op e k =>
    rw [Prog.link]
    cases impl _ e <;> exact id
  | call c k => exact id

variable {use : ∀ β, E β → LockUse} {impl : ∀ β, E β → Option (Prog E₂ C₂ β)}
  {owner : σ → Option ι} {envs : ι → Env E σ} {sem : Sem E₂ τ} {body : Bodies E C}
  {body₂ : Bodies E₂ C₂} {i j : ι} {t : Threads (SumEff E E₂) (SumProc E C C₂) γ}
  {u : Threads E C γ} {x x' y y' : σ × τ} {a : Option (Place E₂ C₂ τ)} {b : Place E₂ C₂ τ}

theorem Atomic.inside_owner (hl : Locking use impl owner envs)
    (ha : Atomic use impl owner sem body₂ t x u y a) (hi : Inside impl sem body₂ t u x.2 y.2 i b) :
    owner x.1 = some i := by
  obtain ⟨e, k, p, hu, hp, -⟩ := hi
  have hd := ha.disciplined i
  rw [hu] at hd
  rw [ha.shared]
  exact hd.inside ((hl.inside _ e).mpr (by rw [hp]; nofun))

/-- The threads that are not inside are where those with atomic calls are. -/
theorem Atomic.link_eq (ha : Atomic use impl owner sem body₂ t x u y a)
    (hi : ∀ b, a = some b → ¬ Inside impl sem body₂ t u x.2 y.2 i b) : t i = (u i).link impl := by
  obtain ⟨-, -, hruns⟩ := ha
  cases a with
  | none => exact hruns.2 i
  | some b =>
    obtain ⟨k, hk⟩ := hruns
    by_cases hik : i = k
    · exact absurd (hik ▸ hk) (hi b rfl)
    · obtain ⟨-, -, -, -, -, -, -, -, -, hoth⟩ := hk
      exact hoth i hik

/-- **Mutual exclusion**: only the owner of the lock is inside. -/
theorem Atomic.exclusive (hl : Locking use impl owner envs)
    (ha : Atomic use impl owner sem body₂ t x u y a) (hi : (t i).AtObject) :
    owner x.1 = some i := by
  by_cases h : ∃ b, a = some b ∧ Inside impl sem body₂ t u x.2 y.2 i b
  · obtain ⟨b, -, hb⟩ := h
    exact ha.inside_owner hl hb
  · rw [ha.link_eq fun b hb hin => h ⟨b, hb, hin⟩] at hi
    exact absurd hi (u i).not_atObject_link

theorem Atomic.congr (ha : Atomic use impl owner sem body₂ t x u y a) {s : σ}
    (hs : owner s = owner x.1) : Atomic use impl owner sem body₂ t (s, x.2) u (s, y.2) a :=
  ⟨rfl, fun i => (ha.disciplined i).congr (by rw [hs, ha.shared]), ha.inmost⟩

variable [DecidableEq ι]

theorem Atomic.disciplined_update (hl : Locking use impl owner envs)
    (hb : ∀ β (c : C β), (body c).Guarded use false false)
    (hd : ∀ i, Disciplined use owner i (u i) y.1) {p : Prog E C (γ i)}
    (hs : Step (atomicEnv impl (envs i) sem body₂) body (u i, y) (p, y')) (j : ι) :
    Disciplined use owner j (Function.update u i p j) y'.1 := by
  obtain ⟨h1, h2⟩ := (hd i).step hl hb hs
  by_cases hji : j = i
  · subst hji
    rwa [Function.update_self]
  · rw [Function.update_of_ne hji]
    exact (hd j).congr (h2 j hji)

/-- A thread that is outside takes the same step, whether another is inside or not. -/
theorem Atomic.outside (hl : Locking use impl owner envs)
    (hb : ∀ β (c : C β), (body c).Guarded use false false)
    (ha : Atomic use impl owner sem body₂ t x u y a)
    (hi : ∀ b, a = some b → ¬ Inside impl sem body₂ t u x.2 y.2 i b) {p : Prog E C (γ i)}
    (hs : Step (atomicEnv impl (envs i) sem body₂) body (u i, y) (p, y')) (h1 : x'.1 = y'.1)
    (hx : x'.2 = x.2) (hy : y'.2 = y.2) :
    Atomic use impl owner sem body₂ (Function.update t i (p.link impl)) x' (Function.update u i p) y'
      a := by
  refine ⟨h1, Atomic.disciplined_update hl hb ha.disciplined hs, ?_⟩
  rw [hx, hy]
  have hruns := ha.inmost
  cases a with
  | none =>
    refine ⟨hruns.1, fun j => ?_⟩
    by_cases hji : j = i
    · subst hji
      rw [Function.update_self, Function.update_self]
    · rw [Function.update_of_ne hji, Function.update_of_ne hji]
      exact hruns.2 j
  | some b =>
    obtain ⟨k, hk⟩ := hruns
    have hki : k ≠ i := fun h => hi b rfl (h ▸ hk)
    obtain ⟨e, f, q, hu, hq, hn, ht, hw, hsteps, hoth⟩ := hk
    refine ⟨k, e, f, q, ?_, hq, hn, ?_, hw, hsteps, fun j hj => ?_⟩
    · rwa [Function.update_of_ne hki]
    · rwa [Function.update_of_ne hki]
    · by_cases hji : j = i
      · subst hji
        rw [Function.update_self, Function.update_self]
      · rw [Function.update_of_ne hji, Function.update_of_ne hji]
        exact hoth j hj

/-- A thread that has come to the place `b` inside a call is still inside, or the call is over. -/
theorem Atomic.settle (hl : Locking use impl owner envs)
    (hb : ∀ β (c : C β), (body c).Guarded use false false) (h1 : x.1 = y.1)
    (hd : ∀ i, Disciplined use owner i (u i) y.1) {e : E b.1} {k : b.1 → Prog E C (γ i)}
    {p : Prog E₂ C₂ b.1} (hu : u i = .op e k) (hp : impl _ e = some p)
    (ht : t i = b.2.1.inner.bind fun b => (k b).link impl) (hw : x.2 = b.2.2)
    (hsteps : Steps (semEnv sem) body₂ (p, y.2) b.2) (hj : ∀ j ≠ i, t j = (u j).link impl) :
    Atomic use impl owner sem body₂ t x u y (some b) ∨
      ∃ p' y', Step (atomicEnv impl (envs i) sem body₂) body (u i, y) (p', y') ∧
        Atomic use impl owner sem body₂ t x (Function.update u i p') y' none := by
  obtain ⟨β, q, w⟩ := b
  dsimp only at e k p ht hw hsteps
  by_cases hq : ∃ b, q = .pure b
  · obtain ⟨b, rfl⟩ := hq
    subst hw
    have hs : Step (atomicEnv impl (envs i) sem body₂) body (u i, y) (k b, (y.1, x.2)) := by
      rw [hu]
      exact .op ((atomicEnv_some hp).mpr ⟨rfl, .of_steps hsteps⟩)
    refine Or.inr ⟨k b, (y.1, x.2), hs, h1, Atomic.disciplined_update hl hb hd hs, rfl, fun j => ?_⟩
    by_cases hji : j = i
    · subst hji
      rw [Function.update_self, ht]
      rfl
    · rw [Function.update_of_ne hji]
      exact hj j hji
  · exact Or.inl ⟨h1, hd, i, e, k, p, hu, hp, not_exists.mp hq, ht, hw, hsteps, hj⟩

/-- **Calls under the lock are atomic.** A step is one inside a call, or one of the threads whose
calls are atomic. -/
theorem Atomic.step (hl : Locking use impl owner envs)
    (hb : ∀ β (c : C β), (body c).Guarded use false false)
    (ha : Atomic use impl owner sem body₂ t x u y a)
    {p : Prog (SumEff E E₂) (SumProc E C C₂) (γ i)}
    (hs : Step (linkedEnv impl (envs i) sem) (linkBodies impl body body₂) (t i, x) (p, x')) :
    (∃ a', Deeper impl sem body₂ u y.2 a' a ∧
      Atomic use impl owner sem body₂ (Function.update t i p) x' u y a') ∨
      ∃ p' y' a', Step (atomicEnv impl (envs i) sem body₂) body (u i, y) (p', y') ∧
        Atomic use impl owner sem body₂ (Function.update t i p) x' (Function.update u i p') y' a' := by
  by_cases hi : ∃ b, a = some b ∧ Inside impl sem body₂ t u x.2 y.2 i b
  · -- the thread inside goes on
    obtain ⟨⟨β, q, w⟩, rfl, e, k, q₀, hu, hq, hn, ht, rfl, hsteps, hoth⟩ := hi
    rw [ht] at hs
    obtain ⟨q', rfl, hx, hs'⟩ := hs.of_inner hn
    refine (Atomic.settle hl hb (hx.trans ha.shared) ha.disciplined (b := ⟨β, q', x'.2⟩) hu hq ?_ rfl
      (hsteps.tail hs') fun j hj => ?_).imp (fun h => ⟨_, .inside hs', h⟩)
      fun ⟨p', y', hs, h⟩ => ⟨p', y', none, hs, h⟩
    · rw [Function.update_self]
    · rw [Function.update_of_ne hj]
      exact hoth j hj
  · have hne : ∀ b, a = some b → ¬ Inside impl sem body₂ t u x.2 y.2 i b := fun b hb hin =>
      hi ⟨b, hb, hin⟩
    rw [ha.link_eq hne] at hs
    rcases hs.of_link with ⟨β, c, k, hu, rfl, rfl⟩ | ⟨β, e, k, b, hu, hn, he, hx, rfl⟩ |
      ⟨β, e, k, q, hu, hq, rfl, rfl⟩
    · have hs' : Step (atomicEnv impl (envs i) sem body₂) body (u i, y) ((body c).bind k, y) := by
        rw [hu]
        exact .call
      exact Or.inr ⟨_, _, a, hs', ha.outside hl hb hne hs' ha.shared rfl rfl⟩
    · have hs' : Step (atomicEnv impl (envs i) sem body₂) body (u i, y) (k b, (x'.1, y.2)) := by
        rw [hu]
        exact .op ((atomicEnv_none hn).mpr ⟨ha.shared ▸ he, rfl⟩)
      exact Or.inr ⟨_, _, a, hs', ha.outside hl hb hne hs' rfl hx rfl⟩
    · -- the thread enters, so no other is inside
      have hown : owner x'.1 = some i := by
        have hd := ha.disciplined i
        rw [hu] at hd
        rw [ha.shared]
        exact hd.inside ((hl.inside β e).mpr (by rw [hq]; nofun))
      have hruns := ha.inmost
      cases a with
      | none =>
        refine (Atomic.settle hl hb ha.shared ha.disciplined (b := ⟨β, q, y.2⟩) hu hq
          (Function.update_self ..) hruns.1 .refl fun j hj => ?_).imp (fun h => ⟨_, .enter hu hq, h⟩)
          fun ⟨p', y', hs, h⟩ => ⟨p', y', none, hs, h⟩
        rw [Function.update_of_ne hj]
        exact hruns.2 j
      | some b =>
        obtain ⟨k, hk⟩ := hruns
        have hk' := ha.inside_owner hl hk
        rw [hown] at hk'
        obtain rfl := Option.some.inj hk'
        exact absurd hk (hne b rfl)

/-! ## Progress -/

/-- The program comes to its end. -/
abbrev Ends (sem : Sem E₂ τ) (body₂ : Bodies E₂ C₂) : Prog E₂ C₂ β × τ → Prop :=
  Eventually (Step (semEnv sem) body₂) fun c => ∃ b, c.1 = .pure b

theorem not_step_pure {sem : Sem E₂ τ} {body₂ : Bodies E₂ C₂} (c c' : Prog E₂ C₂ β × τ)
    (h : ∃ b, c.1 = .pure b) : ¬ Step (semEnv sem) body₂ c c' := by
  obtain ⟨p, w⟩ := c
  obtain ⟨b, rfl⟩ := h
  exact nofun

omit [DecidableEq ι] in
theorem Deeper.acc_some {c : Prog E₂ C₂ β × τ} {w₀ : τ} (h : Ends sem body₂ c) :
    Acc (Deeper impl sem body₂ u w₀) (some ⟨β, c⟩) := by
  induction h with
  | now h =>
    refine .intro _ fun a' ha => ?_
    cases ha with
    | inside hs => exact absurd hs (not_step_pure _ _ h)
  | step _ _ ih =>
    refine .intro _ fun a' ha => ?_
    cases ha with
    | inside hs => exact ih _ hs

omit [DecidableEq ι] in
/-- **A thread does not stay inside for ever**, if the calls that the threads are at come to their
ends. -/
theorem Atomic.acc (ha : Atomic use impl owner sem body₂ t x u y a)
    (hends : ∀ i β (e : E β) k p, u i = .op e k → impl β e = some p → Ends sem body₂ (p, y.2)) :
    Acc (Deeper impl sem body₂ u y.2) a := by
  have hruns := ha.inmost
  cases a with
  | none =>
    refine .intro _ fun a' ha' => ?_
    cases ha' with
    | enter hu hp => exact Deeper.acc_some (hends _ _ _ _ _ hu hp)
  | some b =>
    obtain ⟨i, e, k, p, hu, hp, -, -, -, hsteps, -⟩ := hruns
    exact Deeper.acc_some ((hends _ _ _ _ _ hu hp).along not_step_pure hsteps)

variable (body) in
omit [DecidableEq ι] in
/-- **A thread goes on** step by step if it does with atomic calls. -/
theorem Atomic.go (env : Env E σ) (ha : Atomic use impl owner sem body₂ t x u y a)
    (hends : ∀ i β (e : E β) k p, u i = .op e k → impl β e = some p → Ends sem body₂ (p, y.2))
    (hs : ∃ c, Step (atomicEnv impl env sem body₂) body (u i, y) c) :
    ∃ c, Step (linkedEnv impl env sem) (linkBodies impl body body₂) (t i, x) c := by
  by_cases hi : ∃ b, a = some b ∧ Inside impl sem body₂ t u x.2 y.2 i b
  · obtain ⟨⟨β, q, w⟩, rfl, e, k, p, hu, hp, hn, ht, rfl, hsteps, -⟩ := hi
    rw [ht]
    cases (hends _ _ _ _ _ hu hp).along not_step_pure hsteps with
    | now h =>
      obtain ⟨b, hb⟩ := h
      exact absurd hb (hn b)
    | step hex _ =>
      obtain ⟨_, hs⟩ := hex
      dsimp only at hs
      cases hs with
      | op he => exact ⟨(_, (x.1, _)), .op ⟨he, rfl⟩⟩
      | call => exact ⟨_, .call⟩
  · rw [ha.link_eq fun b hb hin => hi ⟨b, hb, hin⟩]
    obtain ⟨_, hs⟩ := hs
    generalize u i = p at hs
    cases hs with
    | call => exact ⟨_, .call⟩
    | @op β e k _ s' b he =>
      rw [Prog.link]
      cases hp : impl _ e with
      | some q => exact ⟨_, .call⟩
      | none =>
        have he : env β e x.1 b s'.1 := ha.shared ▸ ((atomicEnv_none hp).mp he).1
        exact ⟨(_, (s'.1, x.2)), .op ⟨hp, he, rfl⟩⟩

end Atomicity

end MyJQL
