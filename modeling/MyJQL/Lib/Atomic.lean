import Mathlib

/-!
# Objects that many clients call

* `Trace`: the events of a run; **`Trace.simulated`**: a simulation keeps them;
* `Event`, `Phase`, `AtomicStep`: clients of an object, of which each operation takes effect at one
  moment between its invocation and its result;
* `Quiet`, `Phase.rank`: steps in which no operation begins, and how far there is still to go;
* `Sequential`: operations one after the other; **`atomic_order`**: such clients see the results of
  their operations in one order, which extends as the run goes on.
-/

set_option linter.unusedSimpArgs false

namespace MyJQL

/-! ## Traces -/

section Traces

variable {γ δ ε : Type*} {step : γ → Option ε → γ → Prop} {step' : δ → Option ε → δ → Prop}
  {c c' c'' : γ} {es es' : List ε}

/-- The events `es` of a run from `c` to `c'`. A step without an event is silent. -/
inductive Trace (step : γ → Option ε → γ → Prop) (c : γ) : List ε → γ → Prop
  | refl : Trace step c [] c
  | tail {es : List ε} {c' c'' : γ} {e : Option ε} (h : Trace step c es c') (hs : step c' e c'') :
    Trace step c (es ++ e.toList) c''

theorem Trace.trans (h : Trace step c es c') (h' : Trace step c' es' c'') :
    Trace step c (es ++ es') c'' := by
  induction h' with
  | refl => rwa [List.append_nil]
  | tail _ hs ih =>
    rw [← List.append_assoc]
    exact ih.tail hs

theorem Trace.single {e : Option ε} (hs : step c e c') : Trace step c e.toList c' :=
  Trace.refl.tail hs

/-- **A simulation keeps the events**, of a run whose events are all `ok`. -/
theorem Trace.simulated (R : γ → δ → Prop) (ok : ε → Prop)
    (hR : ∀ c d e c', R c d → (∀ x, e = some x → ok x) → step c e c' →
      ∃ d', Trace step' d e.toList d' ∧ R c' d')
    {d : δ} (hc : R c d) (h : Trace step c es c') (hok : ∀ e ∈ es, ok e) :
    ∃ d', Trace step' d es d' ∧ R c' d' := by
  induction h with
  | refl => exact ⟨d, .refl, hc⟩
  | @tail es c₁ c₂ e _ hs ih =>
    obtain ⟨d₁, h₁, hR₁⟩ := ih fun x hx => hok x (List.mem_append_left _ hx)
    obtain ⟨d₂, h₂, hR₂⟩ := hR _ _ _ _ hR₁
      (fun x hx => hok x (List.mem_append_right _ (by rw [hx]; exact List.mem_singleton_self x))) hs
    exact ⟨d₂, h₁.trans h₂, hR₂⟩

end Traces

/-! ## Atomic objects -/

/-- What a client of an object does, or sees. -/
inductive Event (κ Op Res : Type*)
  | invoke (k : κ) (op : Op)
  | result (k : κ) (r : Res)
  deriving DecidableEq, Repr

/-- Where a client is: its operation has not taken effect, or it has. -/
inductive Phase (Op Res : Type*)
  | idle
  | waiting (op : Op)
  | done (r : Res)
  deriving DecidableEq, Repr

section Atomic

variable {κ Op Res σ : Type*} [DecidableEq κ] {f : Op → σ → Res × σ}

/-- Clients of an object `f`, of which each operation takes effect at once, after its invocation
and before its result. -/
inductive AtomicStep (f : Op → σ → Res × σ) : (κ → Phase Op Res) × σ → Option (Event κ Op Res) →
    (κ → Phase Op Res) × σ → Prop
  | invoke {ph : κ → Phase Op Res} {s : σ} {k : κ} {op : Op} (h : ph k = .idle) :
    AtomicStep f (ph, s) (some (.invoke k op)) (Function.update ph k (.waiting op), s)
  | perform {ph : κ → Phase Op Res} {s : σ} {k : κ} {op : Op} (h : ph k = .waiting op) :
    AtomicStep f (ph, s) none (Function.update ph k (.done (f op s).1), (f op s).2)
  | result {ph : κ → Phase Op Res} {s : σ} {k : κ} {r : Res} (h : ph k = .done r) :
    AtomicStep f (ph, s) (some (.result k r)) (Function.update ph k .idle, s)

/-- What a step of a system does to the callers of an object: nothing; a step; or a call takes effect
just before it returns. -/
inductive Does {Op Res σ : Type*} (f : Op → σ → Res × σ) (z : (κ → Phase Op Res) × σ) :
    Option (Event κ Op Res) → (κ → Phase Op Res) × σ → Prop
  | nothing : Does f z none z
  | step {e : Option (Event κ Op Res)} {z' : (κ → Phase Op Res) × σ} (h : AtomicStep f z e z') :
    Does f z e z'
  | both {z₁ z' : (κ → Phase Op Res) × σ} {k : κ} {r : Res} (h : AtomicStep f z none z₁)
    (h' : AtomicStep f z₁ (some (.result k r)) z') : Does f z (some (.result k r)) z'

theorem Does.trace {z z' : (κ → Phase Op Res) × σ}
    {e : Option (Event κ Op Res)} (h : Does f z e z') : Trace (AtomicStep f) z e.toList z' := by
  cases h with
  | nothing => exact .refl
  | step h => exact .single h
  | both h h' => exact (Trace.single h).tail h'

/-- A step in which no client begins an operation. -/
def Quiet {γ : Type*} (step : γ → Option (Event κ Op Res) → γ → Prop) (c c' : γ) : Prop :=
  ∃ e, (∀ k op, e ≠ some (.invoke k op)) ∧ step c e c'

omit [DecidableEq κ] in
theorem Trace.of_quiet {γ : Type*} {step : γ → Option (Event κ Op Res) → γ → Prop} {c c' : γ}
    (h : Relation.ReflTransGen (Quiet step) c c') :
    ∃ es, Trace step c es c' ∧ ∀ k op, .invoke k op ∉ es := by
  induction h with
  | refl => exact ⟨[], .refl, fun _ _ => List.not_mem_nil⟩
  | tail _ hs ih =>
    obtain ⟨es, h, hes⟩ := ih
    obtain ⟨e, he, hs⟩ := hs
    refine ⟨es ++ e.toList, h.tail hs, fun k op hin => ?_⟩
    rcases List.mem_append.mp hin with hin | hin
    · exact hes k op hin
    · exact he k op (Option.mem_toList.mp hin)

/-- How far a client is from the end of its operation. -/
def Phase.rank : Phase Op Res → ℕ
  | .idle => 0
  | .waiting _ => 2
  | .done _ => 1

theorem sum_update_lt [Fintype κ] {δ : Type*} (w : δ → ℕ) {ph : κ → δ} {k : κ} {p : δ}
    (h : w p < w (ph k)) : ∑ j, w (Function.update ph k p j) < ∑ j, w (ph j) := by
  refine Finset.sum_lt_sum (fun j _ => ?_) ⟨k, Finset.mem_univ k, ?_⟩
  · by_cases hj : j = k
    · subst hj
      rw [Function.update_self]
      exact h.le
    · rw [Function.update_of_ne hj]
  · rwa [Function.update_self]

/-- Operations one after the other, each with its client and its result. -/
inductive Sequential (f : Op → σ → Res × σ) (s : σ) : List (κ × Op × Res) → σ → Prop
  | nil : Sequential f s [] s
  | snoc {w : List (κ × Op × Res)} {s' : σ} (h : Sequential f s w s') (k : κ) (op : Op) :
    Sequential f s (w ++ [(k, op, (f op s').1)]) (f op s').2

/-- What client `k` does and sees, in a run. -/
def eventsOf (k : κ) (es : List (Event κ Op Res)) : List (Op ⊕ Res) :=
  es.filterMap fun
    | .invoke j op => if j = k then some (.inl op) else none
    | .result j r => if j = k then some (.inr r) else none

/-- What client `k` does and sees, when the operations are performed one after the other. -/
def historyOf (k : κ) (w : List (κ × Op × Res)) : List (Op ⊕ Res) :=
  w.flatMap fun x => if x.1 = k then [.inl x.2.1, .inr x.2.2] else []

/-- What has been seen, for a client in this phase: it has invoked the last operation and waits for
it, or has yet to see its result. -/
def Phase.Seen (seen performed : List (Op ⊕ Res)) : Phase Op Res → Prop
  | .idle => seen = performed
  | .waiting op => seen = performed ++ [.inl op]
  | .done r => seen ++ [.inr r] = performed

section Order

variable {s s' s₁ : σ} {ph ph' : κ → Phase Op Res} {es es₀ : List (Event κ Op Res)}
  {w : List (κ × Op × Res)} {k j : κ} {op : Op} {r : Res}

theorem eventsOf_invoke : eventsOf j (es ++ [.invoke k op]) =
    eventsOf j es ++ if k = j then [.inl op] else [] := by
  rw [eventsOf, List.filterMap_append]
  by_cases h : k = j
  · simp [eventsOf, h]
  · simp [eventsOf, h]

theorem eventsOf_result : eventsOf j (es ++ [.result k r]) =
    eventsOf j es ++ if k = j then [.inr r] else [] := by
  rw [eventsOf, List.filterMap_append]
  by_cases h : k = j
  · simp [eventsOf, h]
  · simp [eventsOf, h]

theorem historyOf_snoc : historyOf j (w ++ [(k, op, r)]) =
    historyOf j w ++ if k = j then [.inl op, .inr r] else [] := by
  rw [historyOf, List.flatMap_append, List.flatMap_singleton, historyOf]

/-- **One step**: an operation that takes effect is the next one in the order. -/
theorem AtomicStep.order {e : Option (Event κ Op Res)} (hs : AtomicStep f (ph, s₁) e (ph', s'))
    (hw : Sequential f s w s₁) (hseen : ∀ k, (ph k).Seen (eventsOf k es) (historyOf k w)) :
    ∃ w', Sequential f s (w ++ w') s' ∧
      ∀ k, (ph' k).Seen (eventsOf k (es ++ e.toList)) (historyOf k (w ++ w')) := by
  cases hs with
  | @invoke _ _ k op h =>
    refine ⟨[], by rwa [List.append_nil], fun j => ?_⟩
    have hj := hseen j
    rw [List.append_nil, Option.toList_some, eventsOf_invoke]
    by_cases hkj : k = j
    · subst hkj
      rw [h] at hj
      rw [Function.update_self, if_pos rfl]
      exact congrArg (· ++ _) hj
    · rwa [Function.update_of_ne (Ne.symm hkj), if_neg hkj, List.append_nil]
  | @perform _ _ k op h =>
    refine ⟨[(k, op, (f op s₁).1)], hw.snoc k op, fun j => ?_⟩
    have hj := hseen j
    rw [Option.toList_none, List.append_nil, historyOf_snoc]
    by_cases hkj : k = j
    · subst hkj
      rw [h] at hj
      rw [Function.update_self, if_pos rfl]
      have hj : eventsOf k es = historyOf k w ++ [.inl op] := hj
      exact (congrArg (· ++ _) hj).trans (List.append_assoc ..)
    · rwa [Function.update_of_ne (Ne.symm hkj), if_neg hkj, List.append_nil]
  | @result _ _ k r h =>
    refine ⟨[], by rwa [List.append_nil], fun j => ?_⟩
    have hj := hseen j
    rw [List.append_nil, Option.toList_some, eventsOf_result]
    by_cases hkj : k = j
    · subst hkj
      rw [h] at hj
      rw [Function.update_self, if_pos rfl]
      exact hj
    · rwa [Function.update_of_ne (Ne.symm hkj), if_neg hkj, List.append_nil]

/-- **One order** of the operations explains what all clients see, and goes on as the run does. -/
theorem atomic_order (h : Trace (AtomicStep f) (ph, s₁) es (ph', s')) (hw : Sequential f s w s₁)
    (hseen : ∀ k, (ph k).Seen (eventsOf k es₀) (historyOf k w)) :
    ∃ w', Sequential f s (w ++ w') s' ∧
      ∀ k, (ph' k).Seen (eventsOf k (es₀ ++ es)) (historyOf k (w ++ w')) := by
  generalize hc : (ph', s') = c at h
  induction h generalizing ph' s' with
  | refl =>
    cases hc
    exact ⟨[], by rwa [List.append_nil], by simpa only [List.append_nil] using hseen⟩
  | @tail es c₁ _ e _ hs ih =>
    subst hc
    obtain ⟨ph₁, s₂⟩ := c₁
    obtain ⟨w₁, hw₁, hseen₁⟩ := ih rfl
    obtain ⟨w₂, hw₂, hseen₂⟩ := hs.order hw₁ hseen₁
    refine ⟨w₁ ++ w₂, ?_, ?_⟩
    · rwa [← List.append_assoc]
    · simpa only [← List.append_assoc] using hseen₂

/-- The order `w` of operations explains what the clients see: each operation that has returned is in
it with its result, and so is each one that has taken effect. -/
def Explains (f : Op → σ → Res × σ) (s : σ) (es : List (Event κ Op Res)) (w : List (κ × Op × Res))
    (s' : σ) : Prop :=
  Sequential f s w s' ∧ ∃ ph : κ → Phase Op Res, ∀ k, (ph k).Seen (eventsOf k es) (historyOf k w)

/-- **The order is made as the run goes on**, and never changed later. -/
theorem explains_order (h : Trace (AtomicStep f) (fun _ => .idle, s) es (ph, s')) :
    ∃ w, Explains f s es w s' ∧ ∀ es' ph' s'', Trace (AtomicStep f) (ph, s') es' (ph', s'') →
      ∃ w', Explains f s (es ++ es') (w ++ w') s'' := by
  have hseen₀ : ∀ k : κ, Phase.Seen (eventsOf k []) (historyOf k []) (.idle : Phase Op Res) :=
    fun _ => rfl
  obtain ⟨w, hw, hseen⟩ := atomic_order h .nil hseen₀
  refine ⟨w, ⟨hw, ph, hseen⟩, fun es' ph' s'' h' => ?_⟩
  obtain ⟨w', hw', hseen'⟩ := atomic_order h' hw hseen
  exact ⟨w', hw', ph', hseen'⟩

end Order

section Agree

variable {g : Op → σ → Res × σ} {I : σ → Prop} {ok : Op → Prop} {s s' : σ}
  {ph ph' : κ → Phase Op Res} {es : List (Event κ Op Res)}

theorem AtomicStep.waiting_ok {e : Option (Event κ Op Res)} (hs : AtomicStep f (ph, s) e (ph', s'))
    (hph : ∀ k op, ph k = .waiting op → ok op) (he : ∀ k op, e = some (.invoke k op) → ok op) :
    ∀ k op, ph' k = .waiting op → ok op := by
  intro j op' hj
  cases hs with
  | @invoke _ _ k op h =>
    by_cases hkj : j = k
    · subst hkj
      rw [Function.update_self] at hj
      cases hj
      exact he _ _ rfl
    · rw [Function.update_of_ne hkj] at hj
      exact hph _ _ hj
  | @perform _ _ k op h =>
    by_cases hkj : j = k
    · subst hkj
      rw [Function.update_self] at hj
      cases hj
    · rw [Function.update_of_ne hkj] at hj
      exact hph _ _ hj
  | @result _ _ k r h =>
    by_cases hkj : j = k
    · subst hkj
      rw [Function.update_self] at hj
      cases hj
    · rw [Function.update_of_ne hkj] at hj
      exact hph _ _ hj

theorem AtomicStep.agree {e : Option (Event κ Op Res)}
    (hf : ∀ op s, ok op → I s → f op s = g op s ∧ I (f op s).2)
    (hs : AtomicStep f (ph, s) e (ph', s')) (hI : I s) (hph : ∀ k op, ph k = .waiting op → ok op) :
    AtomicStep g (ph, s) e (ph', s') ∧ I s' := by
  cases hs with
  | invoke hk => exact ⟨.invoke hk, hI⟩
  | @perform _ _ k op hk =>
    obtain ⟨hfg, hI'⟩ := hf op s (hph k op hk) hI
    have hs : AtomicStep g (ph, s) none (Function.update ph k (.done (g op s).1), (g op s).2) :=
      .perform hk
    rw [← hfg] at hs
    exact ⟨hs, hI'⟩
  | result hk => exact ⟨.result hk, hI⟩

/-- **Two objects that agree** on the states and the operations that occur have the same runs. -/
theorem atomic_agree (hf : ∀ op s, ok op → I s → f op s = g op s ∧ I (f op s).2)
    (h : Trace (AtomicStep f) (ph, s) es (ph', s')) (hI : I s)
    (hph : ∀ k op, ph k = .waiting op → ok op) (hes : ∀ k op, .invoke k op ∈ es → ok op) :
    Trace (AtomicStep g) (ph, s) es (ph', s') ∧ I s' ∧ ∀ k op, ph' k = .waiting op → ok op := by
  generalize hc : (ph', s') = c at h
  induction h generalizing ph' s' with
  | refl =>
    cases hc
    exact ⟨.refl, hI, hph⟩
  | @tail es c₁ _ e _ hs ih =>
    subst hc
    obtain ⟨ph₁, s₁⟩ := c₁
    obtain ⟨h₁, hI₁, hph₁⟩ := ih (fun k op hop => hes k op (List.mem_append_left _ hop)) rfl
    obtain ⟨hs', hI'⟩ := hs.agree hf hI₁ hph₁
    exact ⟨h₁.tail hs', hI',
      hs.waiting_ok hph₁ fun k op he => hes k op (List.mem_append_right _ (by simp [he]))⟩

theorem Does.agree {e : Option (Event κ Op Res)}
    (hf : ∀ op s, ok op → I s → f op s = g op s ∧ I (f op s).2) (hd : Does f (ph, s) e (ph', s'))
    (hI : I s) (hph : ∀ k op, ph k = .waiting op → ok op)
    (he : ∀ k op, e = some (.invoke k op) → ok op) :
    Does g (ph, s) e (ph', s') ∧ I s' ∧ ∀ k op, ph' k = .waiting op → ok op := by
  cases hd with
  | nothing => exact ⟨.nothing, hI, hph⟩
  | step h =>
    obtain ⟨h', hI'⟩ := h.agree hf hI hph
    exact ⟨.step h', hI', h.waiting_ok hph he⟩
  | @both z₁ _ _ _ h₁ h₂ =>
    obtain ⟨ph₁, s₁⟩ := z₁
    obtain ⟨h₁', hI₁⟩ := h₁.agree hf hI hph
    have hph₁ := h₁.waiting_ok hph fun k op e => by cases e
    obtain ⟨h₂', hI'⟩ := h₂.agree hf hI₁ hph₁
    exact ⟨.both h₁' h₂', hI', h₂.waiting_ok hph₁ he⟩

end Agree

end Atomic

end MyJQL
