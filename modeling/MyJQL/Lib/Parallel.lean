import MyJQL.Lib.Process

/-!
# Programs that run side by side

Threads that share a state, each in an environment of its own.

* `Threads`, `ParStep`, `ParSteps`: interleavings;
* **`ParSteps.alone`**: a run of one thread by itself is an interleaving;
* **`eventually_all`**, **`acc_all`**: a system that only takes steps of its parts, and none of a part
  that is done, comes to where its parts come by themselves, and does not go on for ever.
-/

set_option linter.unusedSimpArgs false

namespace MyJQL

variable {E C : Type → Type} {σ τ ι : Type} {α : ι → Type}

/-- Threads, and what each returns. -/
abbrev Threads (E C : Type → Type) {ι : Type} (α : ι → Type) : Type 1 := (i : ι) → Prog E C (α i)

theorem Step.cases_env {γ : Type} {env : Env E σ} {body : Bodies E C} {p p' : Prog E C γ} {s s' : σ}
    (h : Step env body (p, s) (p', s')) :
    (s' = s ∧ ∀ (env' : Env E τ) w, Step env' body (p, w) (p', w)) ∨
      ∃ β e b, env β e s b s' ∧ ∀ (env' : Env E τ) w w', env' β e w b w' →
        Step env' body (p, w) (p', w') := by
  cases h with
  | op he => exact Or.inr ⟨_, _, _, he, fun _ _ _ => .op⟩
  | call => exact Or.inl ⟨rfl, fun _ _ => .call⟩

variable [DecidableEq ι]

/-- One step of one of the threads. -/
inductive ParStep (envs : ι → Env E σ) (body : Bodies E C) :
    Threads E C α × σ → Threads E C α × σ → Prop
  | step (i : ι) {t : Threads E C α} {s s' : σ} {p : Prog E C (α i)}
      (h : Step (envs i) body (t i, s) (p, s')) :
      ParStep envs body (t, s) (Function.update t i p, s')

/-- Interleavings. -/
abbrev ParSteps (envs : ι → Env E σ) (body : Bodies E C) :
    Threads E C α × σ → Threads E C α × σ → Prop := Relation.ReflTransGen (ParStep envs body)

section Alone

variable {envs : ι → Env E σ} {body : Bodies E C} {env : Env E τ} {R : τ → σ → Prop} {i : ι}
  {t : Threads E C α} {s : σ} {w : τ} {c : Prog E C (α i) × τ}

theorem ParStep.update {p p' : Prog E C (α i)} {s' : σ} (h : Step (envs i) body (p, s) (p', s')) :
    ParStep envs body (Function.update t i p, s) (Function.update t i p', s') := by
  have hs : ParStep envs body (Function.update t i p, s)
      (Function.update (Function.update t i p) i p', s') :=
    .step i (by rwa [Function.update_self])
  rwa [Function.update_idem] at hs

/-- **A thread by itself.** Where the shared state allows what a state of the thread's own allows, a
run of the thread is one of the system in which only this thread takes steps. -/
theorem ParSteps.alone (h : Steps env body (t i, w) c)
    (hsim : ∀ β (e : E β) w b w' s, env β e w b w' → R w s → ∃ s', envs i β e s b s' ∧ R w' s')
    (hR : R w s) : ∃ s', ParSteps envs body (t, s) (Function.update t i c.1, s') ∧ R c.2 s' := by
  induction h with
  | refl =>
    rw [Function.update_eq_self]
    exact ⟨s, .refl, hR⟩
  | tail _ hstep ih =>
    obtain ⟨s', hsteps, hR'⟩ := ih
    cases hstep with
    | op he =>
      obtain ⟨s'', he', hR''⟩ := hsim _ _ _ _ _ _ he hR'
      exact ⟨s'', hsteps.tail (.update (.op he')), hR''⟩
    | call => exact ⟨s', hsteps.tail (.update .call), hR'⟩

theorem ParSteps.side {p : Prog E C (α i)} {s' : σ} (h : Steps (envs i) body (t i, s) (p, s')) :
    ParSteps envs body (t, s) (Function.update t i p, s') := by
  obtain ⟨_, hs, rfl⟩ := ParSteps.alone (R := Eq) h (fun _ _ _ _ _ _ he e => ⟨_, e ▸ he, rfl⟩) rfl
  exact hs

end Alone

/-! ## Progress -/

section Progress

variable {γ : ι → Type*}

/-- Where every run of a part comes to `Q`, no part of it goes on for ever before. -/
theorem Eventually.acc {γ : Type*} {r : γ → γ → Prop} {Q : γ → Prop} {c : γ}
    (h : Eventually r Q c) :
    Acc (fun c' c => ¬ Q c ∧ r c c') c := by
  induction h with
  | now h => exact .intro _ fun _ hs => absurd h hs.1
  | step _ _ ih => exact .intro _ fun c' hs => ih c' hs.2

theorem acc_update {q : ∀ i, γ i → γ i → Prop} (s : Finset ι) {c : ∀ i, γ i}
    (h : ∀ i ∈ s, Acc (q i) (c i)) :
    Acc (fun c' c => ∃ i ∈ s, ∃ a, q i a (c i) ∧ c' = Function.update c i a) c := by
  induction s using Finset.induction_on generalizing c with
  | empty => exact .intro _ fun _ ⟨i, hi, _⟩ => absurd hi (Finset.notMem_empty i)
  | insert j s hj ih =>
    have hx := h j (Finset.mem_insert_self j s)
    generalize he : c j = x at hx
    induction hx generalizing c with
    | intro x hx ihx =>
      have hc := ih fun i hi => h i (Finset.mem_insert_of_mem hi)
      induction hc with
      | intro c _ ihc =>
        have hkeep : ∀ i a, q i a (c i) → ∀ k ∈ insert j s,
            Acc (q k) (Function.update c i a k) := fun i a ha k hk => by
          by_cases hki : k = i
          · subst hki
            rw [Function.update_self]
            exact (h k hk).inv ha
          · rw [Function.update_of_ne hki]
            exact h k hk
        refine .intro _ ?_
        rintro _ ⟨i, hi, a, ha, rfl⟩
        by_cases hij : i = j
        · subst hij
          exact ihx a (he ▸ ha) (hkeep i a ha) (Function.update_self ..)
        · have his : i ∈ s := (Finset.mem_insert.mp hi).resolve_left hij
          refine ihc _ ⟨i, his, a, ha, rfl⟩ (hkeep i a ha) ?_
          rwa [Function.update_of_ne (Ne.symm hij)]

/-- **Induction over a system of parts** `c i`, of which each comes to `D i` by itself: what holds
once it holds after a step of any part. -/
theorem parts_induction [Fintype ι] {Γ : Type*} {r : ∀ i, γ i → γ i → Prop} {D : ∀ i, γ i → Prop}
    (P : Γ → (∀ i, γ i) → Prop) (M : Γ → Prop)
    (h : ∀ x c, P x c → (∀ i, D i (c i) ∨ ∃ a, r i (c i) a) →
      (∀ x' i a, ¬ D i (c i) → r i (c i) a → P x' (Function.update c i a) → M x') → M x)
    {x : Γ} {c : ∀ i, γ i} (hP : P x c) (hD : ∀ i, Eventually (r i) (D i) (c i)) : M x := by
  have hacc := acc_update Finset.univ fun i _ => (hD i).acc
  induction hacc generalizing x with
  | intro c _ ih =>
    refine h x c hP (fun i => ?_) fun x' i a hn ha hP' => ?_
    · cases hD i with
      | now h => exact Or.inl h
      | step h _ => exact Or.inr h
    refine ih _ ⟨i, Finset.mem_univ i, a, ⟨hn, ha⟩, rfl⟩ hP' fun j => ?_
    by_cases hji : j = i
    · subst hji
      rw [Function.update_self]
      cases hD j with
      | now h => exact absurd h hn
      | step _ h => exact h a ha
    · rw [Function.update_of_ne hji]
      exact hD j

/-- **A system of parts** goes on until all have come to their ends. -/
theorem eventually_all [Fintype ι] {Γ : Type*} {R : Γ → Γ → Prop} {r : ∀ i, γ i → γ i → Prop}
    {D : ∀ i, γ i → Prop} (P : Γ → (∀ i, γ i) → Prop)
    (hstep : ∀ x c x', P x c → (∀ i, D i (c i) ∨ ∃ a, r i (c i) a) → R x x' →
      ∃ i a, ¬ D i (c i) ∧ r i (c i) a ∧ P x' (Function.update c i a))
    (hgo : ∀ x c, P x c → (∀ i, D i (c i) ∨ ∃ a, r i (c i) a) → (∃ i, ¬ D i (c i)) → ∃ x', R x x')
    {x : Γ} {c : ∀ i, γ i} (hP : P x c) (hD : ∀ i, Eventually (r i) (D i) (c i)) :
    Eventually R (fun x => ∃ c, P x c ∧ ∀ i, D i (c i)) x := by
  refine parts_induction P _ (fun x c hP hgoes ih => ?_) hP hD
  by_cases hall : ∀ i, D i (c i)
  · exact .now ⟨c, hP, hall⟩
  · refine .step (hgo x c hP hgoes (not_forall.mp hall)) fun x' hs => ?_
    obtain ⟨i, a, hn, ha, hP'⟩ := hstep x c x' hP hgoes hs
    exact ih x' i a hn ha hP'

/-- **A system of parts** does not go on for ever. -/
theorem acc_all [Fintype ι] {Γ : Type*} {R : Γ → Γ → Prop} {r : ∀ i, γ i → γ i → Prop}
    {D : ∀ i, γ i → Prop} (P : Γ → (∀ i, γ i) → Prop)
    (hstep : ∀ x c x', P x c → (∀ i, D i (c i) ∨ ∃ a, r i (c i) a) → R x x' →
      Acc (fun y x => R x y) x' ∨ ∃ i a, ¬ D i (c i) ∧ r i (c i) a ∧ P x' (Function.update c i a))
    {x : Γ} {c : ∀ i, γ i} (hP : P x c) (hD : ∀ i, Eventually (r i) (D i) (c i)) :
    Acc (fun y x => R x y) x := by
  refine parts_induction P _ (fun x c hP hgoes ih => .intro x fun x' hs => ?_) hP hD
  rcases hstep x c x' hP hgoes hs with hacc | ⟨i, a, hn, ha, hP'⟩
  · exact hacc
  · exact ih x' i a hn ha hP'

end Progress

end MyJQL
