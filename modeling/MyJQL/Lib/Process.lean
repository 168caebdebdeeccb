import MyJQL.Lib.Prog

/-!
# Programs that run for ever

Programs of `Lib.Prog`, step by step, in an environment that may answer an effect in several ways,
or keep the program waiting.

* `Env`, `Step`, `Steps`: environments, and the runs of a program in one;
* `Always I`: `I` holds throughout every run; `Eventually Q`: every run comes to `Q`;
* `Prog.spec`: what holds of every run of a program without calls, with one rule for each construct;
* `espec`: the same of programs that may throw;
* **`spec.always_bind`**, **`spec.eventually_bind`**: from a program to what follows it;
  **`always_loop`**: an invariant of the rounds of an endless loop;
* `LoopAt`, **`LoopAt.step`**: where such a loop has come to; `LoopAt.goes`: it goes on;
* **`acc_stuttering`**: a finer system does not go on for ever if a coarser one does not;
* `Steps.bind`, `Steps.ok`: one run of a program, of which a first part is known;
* `Prog.Only`: programs with some of the effects only.
-/

set_option linter.unusedSimpArgs false

namespace MyJQL

variable {E C : Type → Type} {σ τ α β ε : Type}

/-! ## Runs -/

/-- An environment: the answers it may give to an effect, with the states it may then be in. -/
abbrev Env (E : Type → Type) (σ : Type) : Type 1 := ∀ β : Type, E β → σ → β → σ → Prop

/-- One step of a program, with the state of its environment. -/
inductive Step (env : Env E σ) (body : Bodies E C) : Prog E C α × σ → Prog E C α × σ → Prop
  | op {β : Type} {e : E β} {k : β → Prog E C α} {s s' : σ} {b : β} (h : env _ e s b s') :
      Step env body (.op e k, s) (k b, s')
  | call {β : Type} {c : C β} {k : β → Prog E C α} {s : σ} :
      Step env body (.call c k, s) ((body c).bind k, s)

/-- The runs of a program. -/
abbrev Steps (env : Env E σ) (body : Bodies E C) :
    Prog E C α × σ → Prog E C α × σ → Prop := Relation.ReflTransGen (Step env body)

/-- `I` holds of the state throughout every run. -/
def Always (env : Env E σ) (body : Bodies E C) (I : σ → Prop) (c : Prog E C α × σ) : Prop :=
  ∀ c', Steps env body c c' → I c'.2

/-- Every run, by steps `r`, goes on until it comes to `Q`. -/
inductive Eventually {γ : Type*} (r : γ → γ → Prop) (Q : γ → Prop) : γ → Prop
  | now {c : γ} (h : Q c) : Eventually r Q c
  | step {c : γ} (hs : ∃ c', r c c') (h : ∀ c', r c c' → Eventually r Q c') : Eventually r Q c

namespace Prog

theorem bind_pure (p : Prog E C α) : p.bind .pure = p := by
  induction p with
  | pure a => rfl
  | op e k ih =>
    simp only [Prog.bind]
    exact congrArg _ (funext ih)
  | call c k ih =>
    simp only [Prog.bind]
    exact congrArg _ (funext ih)

theorem bind_assoc (p : Prog E C α) (f : α → Prog E C β) (g : β → Prog E C τ) :
    (p.bind f).bind g = p.bind fun a => (f a).bind g := by
  induction p with
  | pure a => rfl
  | op e k ih =>
    simp only [Prog.bind]
    exact congrArg _ (funext ih)
  | call c k ih =>
    simp only [Prog.bind]
    exact congrArg _ (funext ih)

/-- Every run of the program, which calls nothing, keeps `I` until it ends with `Q`; if `live`, it
is never kept waiting. -/
def spec (env : Env E σ) (live : Prop) (I : σ → Prop) :
    Prog E C α → (α → σ → Prop) → σ → Prop
  | .pure a, Q, s => Q a s
  | .op e k, Q, s => I s ∧ (live → ∃ b s', env _ e s b s') ∧
      ∀ b s', env _ e s b s' → (k b).spec env live I Q s'
  | .call _ _, _, _ => False

end Prog

/-- The program performs only effects that are `ok`, and calls nothing. -/
def Prog.Only (ok : ∀ β, E β → Prop) : Prog E C α → Prop
  | .pure _ => True
  | .op e k => ok _ e ∧ ∀ b, (k b).Only ok
  | .call _ _ => False

theorem only_bind {ok : ∀ β, E β → Prop} {p : Prog E C α} {f : α → Prog E C β} (hp : p.Only ok)
    (hf : ∀ a, (f a).Only ok) : (p.bind f).Only ok := by
  induction p with
  | pure a => exact hf a
  | op e k ih => exact ⟨hp.1, fun b => ih b (hp.2 b)⟩
  | call c k _ => exact hp.elim

theorem Step.only {ok : ∀ β, E β → Prop} {env : Env E σ} {body : Bodies E C} {c c' : Prog E C α × σ}
    (hs : Step env body c c') (h : c.1.Only ok) : c'.1.Only ok := by
  cases hs with
  | op => exact h.2 _
  | call => exact h.elim

section Spec

variable {env : Env E σ} {body : Bodies E C} {live : Prop} {I : σ → Prop} {p : Prog E C α}
  {f : α → Prog E C β} {Q Q' : α → σ → Prop} {R : Prog E C β × σ → Prop} {s : σ}

theorem spec_pure {a : α} (h : Q a s) : (pure a : Prog E C α).spec env live I Q s := h

theorem spec_eff {e : E α} (hI : I s) (hl : live → ∃ b s', env _ e s b s')
    (h : ∀ b s', env _ e s b s' → Q b s') : (Prog.eff e : Prog E C α).spec env live I Q s :=
  ⟨hI, hl, h⟩

theorem Prog.spec.mono (h : p.spec env live I Q s) (hQ : ∀ a s', Q a s' → Q' a s') :
    p.spec env live I Q' s := by
  induction p generalizing s with
  | pure a => exact hQ a s h
  | op e k ih => exact ⟨h.1, h.2.1, fun b s' hb => ih b (h.2.2 b s' hb)⟩
  | call c k _ => exact h

theorem spec_bind {Q : β → σ → Prop}
    (h : p.spec env live I (fun a s' => (f a).spec env live I Q s') s) :
    (p >>= f).spec env live I Q s := by
  change (p.bind f).spec env live I Q s
  induction p generalizing s with
  | pure a => exact h
  | op e k ih => exact ⟨h.1, h.2.1, fun b s' hb => ih b (h.2.2 b s' hb)⟩
  | call c k _ => exact h.elim

theorem Prog.spec.seq {R : α → σ → Prop} {Q : β → σ → Prop} (h : p.spec env live I R s)
    (hf : ∀ a s', R a s' → (f a).spec env live I Q s') : (p >>= f).spec env live I Q s :=
  spec_bind (h.mono hf)

theorem spec_ite {c : Prop} [Decidable c] {q : Prog E C α} (hp : c → p.spec env live I Q s)
    (hq : ¬ c → q.spec env live I Q s) : (if c then p else q).spec env live I Q s := by
  split_ifs with h
  · exact hp h
  · exact hq h

theorem Prog.spec.init (h : p.spec env live I Q s) (hQ : ∀ a, Q a s → I s) : I s := by
  cases p with
  | pure a => exact hQ a h
  | op e k => exact h.1
  | call c k => exact h.elim

/-! ## Exceptions -/

/-- `Prog.spec` of a program that may throw: it ends with `Q`, or throws with `T`. -/
def espec (env : Env E σ) (live : Prop) (I : σ → Prop) (p : ExceptT ε (Prog E C) α)
    (Q : α → σ → Prop) (T : ε → σ → Prop) (s : σ) : Prop :=
  p.run.spec env live I (fun r s' => match r with
    | .ok a => Q a s'
    | .error e => T e s') s

section Except

variable {T : ε → σ → Prop} {x : ExceptT ε (Prog E C) α} {g : α → ExceptT ε (Prog E C) β}

theorem espec_pure {a : α} (h : Q a s) :
    espec env live I (pure a : ExceptT ε (Prog E C) α) Q T s := h

theorem espec_throw {e : ε} (h : T e s) :
    espec env live I (throw e : ExceptT ε (Prog E C) α) Q T s := h

theorem espec.mono {T' : ε → σ → Prop} (h : espec env live I x Q T s)
    (hQ : ∀ a s', Q a s' → Q' a s') (hT : ∀ e s', T e s' → T' e s') :
    espec env live I x Q' T' s := by
  refine Prog.spec.mono h ?_
  rintro (e | a) s' h'
  · exact hT e s' h'
  · exact hQ a s' h'

theorem espec_bind {Q : β → σ → Prop}
    (h : espec env live I x (fun a s' => espec env live I (g a) Q T s') T s) :
    espec env live I (x >>= g) Q T s := by
  refine spec_bind (f := ExceptT.bindCont g) (Prog.spec.mono h ?_)
  rintro (e | a) s' h'
  · exact h'
  · exact h'

theorem espec_lift (h : p.spec env live I Q s) :
    espec env live I (ExceptT.lift p : ExceptT ε (Prog E C) α) Q T s :=
  spec_bind (f := fun a => pure (Except.ok a)) h

theorem espec_ite {c : Prop} [Decidable c] {y : ExceptT ε (Prog E C) α}
    (hx : c → espec env live I x Q T s) (hy : ¬ c → espec env live I y Q T s) :
    espec env live I (if c then x else y) Q T s := by
  split_ifs with h
  · exact hx h
  · exact hy h

end Except

/-! ## Safety -/

theorem always_of_invariant {c : Prog E C α × σ} (R : Prog E C α × σ → Prop) (h : R c)
    (hs : ∀ c c', R c → Step env body c c' → R c') (hI : ∀ c, R c → I c.2) :
    Always env body I c := by
  intro c' hc
  refine hI c' ?_
  induction hc with
  | refl => exact h
  | tail _ hstep ih => exact hs _ _ ih hstep

theorem always_pure {a : α} (h : I s) : Always env body I ((.pure a : Prog E C α), s) := by
  intro c hc
  cases hc.cases_head with
  | inl e => exact e ▸ h
  | inr e => obtain ⟨_, hs, -⟩ := e; cases hs

theorem always_op {e : E β} {k : β → Prog E C α} (hI : I s)
    (h : ∀ b s', env _ e s b s' → Always env body I (k b, s')) :
    Always env body I (.op e k, s) := by
  intro c hc
  rcases hc.cases_head with rfl | ⟨_, hs, hc⟩
  · exact hI
  · cases hs with
    | op hb => exact h _ _ hb c hc

theorem always_call {c : C β} {k : β → Prog E C α} (hI : I s)
    (h : Always env body I ((body c).bind k, s)) : Always env body I (.call c k, s) := by
  intro c' hc
  rcases hc.cases_head with rfl | ⟨_, hs, hc⟩
  · exact hI
  · cases hs
    exact h c' hc

/-- **What follows a program** starts where the program ends. -/
theorem Prog.spec.always_bind (h : p.spec env live I Q s)
    (hf : ∀ a s', Q a s' → Always env body I (f a, s')) : Always env body I (p.bind f, s) := by
  induction p generalizing s with
  | pure a => exact hf a s h
  | op e k ih => exact always_op h.1 fun b s' hb => ih b (h.2.2 b s' hb)
  | call c k _ => exact h.elim

/-- **An endless loop** whose rounds keep `J`. A round returns or goes on. -/
theorem always_loop (live : Prop) (J : τ → σ → Prop) (round : τ → Prog E C (α ⊕ τ))
    (loop : τ → C α) {x : τ}
    (hbody : ∀ x, body (loop x) = (round x).bind (Sum.elim .pure fun y => .proc (loop y)))
    (hround : ∀ x s, J x s → (round x).spec env live I
      (fun r s' => I s' ∧ ∀ y, r = .inr y → J y s') s)
    (hx : J x s) (hI : I s) : Always env body I (.proc (loop x), s) := by
  refine always_of_invariant (fun c => (∃ x s, J x s ∧ I s ∧ c = (.proc (loop x), s)) ∨
    (∃ a s, I s ∧ c = (.pure a, s)) ∨ ∃ (p : Prog E C (α ⊕ τ)) (s : σ), p.spec env live I
      (fun r s' => I s' ∧ ∀ y, r = .inr y → J y s') s ∧ I s ∧
      c = (p.bind (Sum.elim .pure fun y => .proc (loop y)), s)) (Or.inl ⟨x, s, hx, hI, rfl⟩) ?_ ?_
  · -- where a round has come to
    have key : ∀ (p : Prog E C (α ⊕ τ)) s, p.spec env live I
        (fun r s' => I s' ∧ ∀ y, r = .inr y → J y s') s →
        (∃ x s', J x s' ∧ I s' ∧ (p.bind (Sum.elim .pure fun y => .proc (loop y)), s) =
          ((.proc (loop x) : Prog E C α), s')) ∨
        (∃ a s', I s' ∧ (p.bind (Sum.elim .pure fun y => .proc (loop y)), s) =
          ((.pure a : Prog E C α), s')) ∨ ∃ (q : Prog E C (α ⊕ τ)) (s' : σ), q.spec env live I
            (fun r s' => I s' ∧ ∀ y, r = .inr y → J y s') s' ∧ I s' ∧
            (p.bind (Sum.elim .pure fun y => .proc (loop y)), s) =
              ((q.bind (Sum.elim .pure fun y => .proc (loop y)) : Prog E C α), s') := by
      intro p s h
      cases p with
      | pure r =>
        obtain ⟨hI, hJ⟩ := h
        cases r with
        | inl a => exact Or.inr (Or.inl ⟨a, s, hI, rfl⟩)
        | inr y => exact Or.inl ⟨y, s, hJ y rfl, hI, rfl⟩
      | op e k => exact Or.inr (Or.inr ⟨.op e k, s, h, h.1, rfl⟩)
      | call c k => exact h.elim
    rintro c c' (⟨x, s, hx, -, rfl⟩ | ⟨a, s, -, rfl⟩ | ⟨p, s, hp, -, rfl⟩) hs
    · cases hs
      rw [Prog.bind_pure, hbody]
      exact key _ s (hround x s hx)
    · cases hs
    · cases p with
      | pure r =>
        cases r with
        | inl a => cases hs
        | inr y =>
          cases hs
          rw [Prog.bind_pure, hbody]
          exact key _ s (hround y s (hp.2 y rfl))
      | op e k =>
        cases hs with
        | op hb => exact key _ _ (hp.2.2 _ _ hb)
      | call c k => exact hp.elim
  · rintro c (⟨_, _, -, h, rfl⟩ | ⟨_, _, h, rfl⟩ | ⟨_, _, -, h, rfl⟩) <;> exact h

theorem Prog.spec.step {p' : Prog E C α} {s' : σ} (h : p.spec env live I Q s)
    (hs : Step env body (p, s) (p', s')) : p'.spec env live I Q s' := by
  cases hs with
  | op hb => exact h.2.2 _ _ hb
  | call => exact h.elim

/-- Where an endless loop has come to, whose rounds keep `J` and return with `Q`. -/
inductive LoopAt (env : Env E σ) (live : Prop) (I : σ → Prop) (J : τ → σ → Prop) (Q : α → σ → Prop)
    (loop : τ → C α) : Prog E C α → σ → Prop
  | returned {a : α} {s : σ} (h : Q a s) : LoopAt env live I J Q loop (.pure a) s
  | loop {x : τ} {s : σ} (h : J x s) : LoopAt env live I J Q loop (.proc (loop x)) s
  | inside {p : Prog E C (α ⊕ τ)} {s : σ}
      (h : p.spec env live I (fun r s' => Sum.elim (fun a => Q a s') (fun y => J y s') r) s) :
    LoopAt env live I J Q loop (p.bind (Sum.elim .pure fun y => .proc (loop y))) s

/-- **Every step** of an endless loop. -/
theorem LoopAt.step {J : τ → σ → Prop} {loop : τ → C α} {round : τ → Prog E C (α ⊕ τ)}
    {p' : Prog E C α}
    {s' : σ}
    (hbody : ∀ x, body (loop x) = (round x).bind (Sum.elim .pure fun y => .proc (loop y)))
    (hround : ∀ x s, J x s → (round x).spec env live I
      (fun r s' => Sum.elim (fun a => Q a s') (fun y => J y s') r) s)
    (h : LoopAt env live I J Q loop p s) (hs : Step env body (p, s) (p', s')) :
    LoopAt env live I J Q loop p' s' := by
  have start : ∀ x s, J x s → LoopAt env live I J Q loop ((body (loop x)).bind .pure) s := by
    intro x s hx
    rw [Prog.bind_pure, hbody]
    exact .inside (hround x s hx)
  cases h with
  | returned h => cases hs
  | loop h =>
    cases hs
    exact start _ _ h
  | @inside p _ h =>
    cases p with
    | pure r =>
      cases r with
      | inl a => cases hs
      | inr y =>
        cases hs
        exact start _ _ h
    | op e k =>
      cases hs with
      | op hb => exact .inside (h.2.2 _ _ hb)
    | call c k => exact h.elim

theorem LoopAt.goes {J : τ → σ → Prop} {loop : τ → C α}
    (h : LoopAt env True I J (fun _ _ => False) loop p s) :
    (∀ a, p ≠ .pure a) ∧ ∃ c, Step env body (p, s) c := by
  cases h with
  | returned h => exact h.elim
  | loop h => exact ⟨nofun, _, .call⟩
  | @inside p _ h =>
    cases p with
    | pure r =>
      cases r with
      | inl a => exact h.elim
      | inr y => exact ⟨nofun, _, .call⟩
    | op e k =>
      obtain ⟨b, s', hb⟩ := h.2.1 trivial
      exact ⟨nofun, _, .op hb⟩
    | call c k => exact h.elim

/-! ## Progress -/

theorem Eventually.mono {γ : Type*} {r : γ → γ → Prop} {R R' : γ → Prop} {c : γ}
    (h : Eventually r R c) (hR : ∀ c, R c → R' c) : Eventually r R' c := by
  induction h with
  | now h => exact .now (hR _ h)
  | step hs _ ih => exact .step hs ih

theorem Eventually.keeps {γ : Type*} {r : γ → γ → Prop} {R J : γ → Prop} {c : γ}
    (h : Eventually r R c)
    (hJ : J c) (hs : ∀ c c', J c → r c c' → J c') : Eventually r (fun c => R c ∧ J c) c := by
  induction h with
  | now h => exact .now ⟨h, hJ⟩
  | step hex _ ih => exact .step hex fun c' hc => ih c' hc (hs _ _ hJ hc)

theorem Eventually.trans {γ : Type*} {r : γ → γ → Prop} {R R' : γ → Prop} {c : γ}
    (h : Eventually r R c) (hR : ∀ c, R c → Eventually r R' c) : Eventually r R' c := by
  induction h with
  | now h => exact hR _ h
  | step hs _ ih => exact .step hs ih

theorem eventually_call {c : C β} {k : β → Prog E C α} {R : Prog E C α × σ → Prop}
    (h : Eventually (Step env body) R ((body c).bind k, s)) :
    Eventually (Step env body) R (.call c k, s) := by
  refine .step ⟨_, .call⟩ fun c' hs => ?_
  cases hs
  exact h

/-- **What follows a program** that is never kept waiting comes about. -/
theorem Prog.spec.eventually_bind (h : p.spec env True I Q s)
    (hf : ∀ a s', Q a s' → Eventually (Step env body) R (f a, s')) :
    Eventually (Step env body) R (p.bind f, s) := by
  induction p generalizing s with
  | pure a => exact hf a s h
  | op e k ih =>
    obtain ⟨b, s', hb⟩ := h.2.1 trivial
    refine .step ⟨_, .op hb⟩ fun c' hs => ?_
    cases hs with
    | op hb => exact ih _ (h.2.2 _ _ hb)
  | call c k _ => exact h.elim

theorem Eventually.bind {R : Prog E C α × σ → Prop} {R' : Prog E C β × σ → Prop}
    {f : α → Prog E C β} (h : Eventually (Step env body) R (p, s))
    (hR : ∀ p s, R (p, s) → R' (p.bind f, s)) : Eventually (Step env body) R' (p.bind f, s) := by
  generalize hc : (p, s) = c at h
  induction h generalizing p s with
  | now h =>
    subst hc
    exact .now (hR _ _ h)
  | step hex _ ih =>
    subst hc
    obtain ⟨_, hs⟩ := hex
    cases hs with
    | op he =>
      refine .step ⟨_, .op he⟩ fun c' hs => ?_
      cases hs with
      | op he => exact ih _ (.op he) rfl
    | call =>
      refine eventually_call ?_
      rw [← Prog.bind_assoc]
      exact ih _ .call rfl

theorem Eventually.exists_run {γ : Type*} {r : γ → γ → Prop} {R : γ → Prop} {c : γ}
    (h : Eventually r R c) : ∃ c', Relation.ReflTransGen r c c' ∧ R c' := by
  induction h with
  | now h => exact ⟨_, .refl, h⟩
  | step hs _ ih =>
    obtain ⟨d, hd⟩ := hs
    obtain ⟨c', hc, hR⟩ := ih d hd
    exact ⟨c', .head hd hc, hR⟩

theorem Eventually.reaches {γ : Type*} {r : γ → γ → Prop} {R : γ → Prop} {c c' : γ}
    (h : Eventually r R c) (hc : Relation.ReflTransGen r c c') :
    (∃ d, Relation.ReflTransGen r c d ∧ R d ∧ Relation.ReflTransGen r d c') ∨
      Eventually r R c' := by
  induction h generalizing c' with
  | now h => exact Or.inl ⟨_, .refl, h, hc⟩
  | step hs h ih =>
    rcases hc.cases_head with rfl | ⟨d, hd, hc⟩
    · exact Or.inr (.step hs h)
    · refine (ih d hd hc).imp_left fun ⟨d', h1, h2, h3⟩ => ⟨d', .head hd h1, h2, h3⟩

theorem Eventually.along {γ : Type*} {r : γ → γ → Prop} {R : γ → Prop} {c c' : γ}
    (h : Eventually r R c) (hR : ∀ c d, R c → ¬ r c d) (hc : Relation.ReflTransGen r c c') :
    Eventually r R c' := by
  induction hc with
  | refl => exact h
  | tail _ hs ih =>
    cases ih with
    | now h => exact absurd hs (hR _ _ h)
    | step _ h => exact h _ hs

/-- What does not go on for ever goes on to where it is done, if it always can. -/
theorem eventually_of_acc {γ : Type*} {r : γ → γ → Prop} {R : γ → Prop} (I : γ → Prop) {c : γ}
    (hstep : ∀ c c', I c → r c c' → I c') (hgo : ∀ c, I c → R c ∨ ∃ c', r c c') (hI : I c)
    (h : Acc (fun c' c => r c c') c) : Eventually r R c := by
  induction h with
  | intro c _ ih =>
    rcases hgo c hI with hR | hs
    · exact .now hR
    · exact .step hs fun c' hc => ih c' hc (hstep c c' hI hc)

/-- **A simulation that may stutter** of a system that does not go on for ever. -/
theorem acc_stuttering {γ δ ρ : Type*} {r : γ → γ → Prop} {q : δ → δ → Prop} (S : γ → δ → ρ → Prop)
    (lt : δ → ρ → ρ → Prop)
    (hstep : ∀ c d a c', S c d a → r c c' →
      (∃ d' b, q d d' ∧ S c' d' b) ∨ ∃ b, lt d b a ∧ S c' d b)
    (hacc : ∀ c d a, S c d a → Acc (lt d) a)
    {c : γ} {d : δ} {a : ρ} (hS : S c d a) (h : Acc (fun d' d => q d d') d) :
    Acc (fun c' c => r c c') c := by
  induction h generalizing c a with
  | intro d _ ih =>
    have ha := hacc _ _ _ hS
    induction ha generalizing c with
    | intro a _ iha =>
      refine .intro c fun c' hc => ?_
      rcases hstep c d a c' hS hc with ⟨d', b, hd, hS'⟩ | ⟨b, hb, hS'⟩
      · exact ih d' hd hS'
      · exact iha b hb hS'

/-! ## One run -/

theorem Steps.bind {q : Prog E C α} {s' : σ} (h : Steps env body (p, s) (q, s'))
    (f : α → Prog E C β) : Steps env body (p.bind f, s) (q.bind f, s') := by
  generalize hc : (q, s') = c at h
  induction h generalizing q s' with
  | refl =>
    cases hc
    exact .refl
  | @tail c _ _ hs ih =>
    subst hc
    obtain ⟨p₁, s₁⟩ := c
    refine (ih rfl).tail ?_
    cases hs with
    | op he => exact .op he
    | call =>
      rw [Prog.bind_assoc]
      exact .call

theorem Steps.ok {x : ExceptT ε (Prog E C) α} {g : α → ExceptT ε (Prog E C) β} {a : α} {s' : σ}
    (h : Steps env body (x.run, s) (.pure (.ok a), s')) :
    Steps env body ((x >>= g).run, s) ((g a).run, s') := h.bind (ExceptT.bindCont g)

theorem Steps.eff {e : E α} {a : α} {s' : σ} (h : env _ e s a s') : Steps env body
    ((ExceptT.lift (Prog.eff e) : ExceptT ε (Prog E C) α).run, s) (.pure (.ok a), s') :=
  .single (.op h)

theorem Steps.error {x : ExceptT ε (Prog E C) α} (g : α → ExceptT ε (Prog E C) β) {e : ε} {s' : σ}
    (h : Steps env body (x.run, s) (.pure (.error e), s')) :
    Steps env body ((x >>= g).run, s) (.pure (.error e), s') := h.bind (ExceptT.bindCont g)

/-! ## Environments that may do less -/

/-- `env` does nothing that `env'` may not. -/
def Env.Le (env env' : Env E σ) : Prop := ∀ β (e : E β) s b s', env β e s b s' → env' β e s b s'

theorem Step.mono {env' : Env E σ} (h : env.Le env') {c c' : Prog E C α × σ}
    (hs : Step env body c c') : Step env' body c c' := by
  cases hs with
  | op hb => exact .op (h _ _ _ _ _ hb)
  | call => exact .call

theorem Steps.mono {env' : Env E σ} (h : env.Le env') {c c' : Prog E C α × σ}
    (hs : Steps env body c c') : Steps env' body c c' :=
  Relation.ReflTransGen.mono (fun _ _ hs => Step.mono h hs) _ _ hs

/-- What a smaller environment brings about may happen in a larger one. -/
theorem Always.not_eventually {env' : Env E σ} (h : env.Le env') {c : Prog E C α × σ}
    (ha : Always env' body I c) : ¬ Eventually (Step env body) (fun c => ¬ I c.2) c := by
  intro he
  obtain ⟨c', hc, hI⟩ := he.exists_run
  exact hI (ha c' (Steps.mono h hc))

end Spec

end MyJQL
