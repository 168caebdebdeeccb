import MyJQL.Lib.Parallel
import MyJQL.Server.Silence

/-!
# Shutting down

Any number of server threads, and the handler that closes the store and exits.

* `Shared`, `sharedEnv`: what the threads share, and what each of them may do;
* `Shared.Kept`: no call comes after `myjql_close`, so no update that has been answered is lost;
* **`shutdown_iff`**: this holds in every interleaving if and only if the thread of no client, by
  itself on its connection, ever calls the store.
-/

set_option linter.unusedSimpArgs false

namespace MyJQL.Server

/-! ## What is shared -/

/-- The state of the server. -/
structure Shared (κ : Type) where
  /-- The bytes sent to each thread and not received. -/
  incoming : κ → List Byte
  /-- The calls of the store so far. -/
  calls : List Call
  /-- The update of each thread that has not been answered, by its place among the calls. -/
  pending : κ → Option ℕ
  /-- The updates that have been answered with code 1. -/
  acked : List ℕ
  /-- Who is inside the critical section; `none` is the handler. -/
  owner : Option (Option κ)
  /-- How many calls there had been at `myjql_close`. -/
  closed : Option ℕ
  exited : Bool

namespace Shared

variable {κ : Type} [DecidableEq κ]

/-- The server as one thread sees it. -/
def wire (s : Shared κ) (k : κ) : Wire := ⟨s.incoming k, s.calls⟩

/-- The server after a thread has changed what it sees. -/
def setWire (s : Shared κ) (k : κ) (w : Wire) : Shared κ :=
  { s with incoming := Function.update s.incoming k w.incoming, calls := w.calls }

/-- What is remembered of the effects of a thread. -/
def note (s : Shared κ) (k : κ) : {β : Type} → NetEff β → Shared κ
  | _, .myjqlGet _ _ _ => { s with pending := Function.update s.pending k none }
  | _, .myjqlSet _ _ => { s with pending := Function.update s.pending k (some s.calls.length) }
  | _, .myjqlDel _ => { s with pending := Function.update s.pending k (some s.calls.length) }
  | _, .send data =>
    { s with
      pending := Function.update s.pending k none
      acked := s.acked ++ if data = CInt.bytes 1 then (s.pending k).toList else [] }
  | _, _ => s

/-- The map that the next `myjql_init` loads. -/
def loaded (m : KV) (s : Shared κ) : Option KV :=
  s.closed.map fun n => storeAfter m (s.calls.take n)

/-- **Nothing is lost**: no call comes after `myjql_close`, and so every update that has been
answered is among the calls that made the map in the files. -/
def Kept (s : Shared κ) : Prop := ∀ n, s.closed = some n → s.calls.length ≤ n ∧ ∀ i ∈ s.acked, i < n

end Shared

/-- What the threads, and the handler, may do. A critical section may be entered by its owner. -/
def sharedEnv {κ : Type} [DecidableEq κ] (peers : κ → Peer) (m : KV) :
    Option κ → Env NetEff (Shared κ)
  | i, _, .enterCriticalSection, s, _, s' =>
    s.exited = false ∧ (s.owner = none ∨ s.owner = some i) ∧ s' = { s with owner := some i }
  | _, _, .leaveCriticalSection, s, _, s' => s.exited = false ∧ s' = { s with owner := none }
  | none, _, .myjqlClose, s, _, s' => s.exited = false ∧ s' = { s with closed := some s.calls.length }
  | none, _, .closesocket, s, _, s' => s.exited = false ∧ s' = s
  | none, _, .exit, s, _, s' => s.exited = false ∧ s' = { s with exited := true }
  | none, _, _, _, _, _ => False
  | some k, β, e, s, b, s' =>
    s.exited = false ∧ ∃ w, env (peers k) m β e (s.wire k) b w ∧ s' = (s.note k e).setWire k w

/-- The handler runs once; a thread returns its result. -/
abbrev Result {κ : Type} : Option κ → Type
  | none => Unit
  | some _ => Int

/-- The threads and the handler at the start. -/
def shutdownThreads {κ : Type} (code : κ → CInt) : Threads NetEff NetProc (Result (κ := κ))
  | none => exitNicely
  | some k => instanceThread (code k)

/-- The server at the start, with what the clients will send. -/
def shutdownStart {κ : Type} (streams : κ → List Byte) : Shared κ :=
  ⟨streams, [], fun _ => none, [], none, none, false⟩

section Steps

variable {κ : Type} [DecidableEq κ] {peers : κ → Peer} {m : KV} {i : Option κ} {k : κ}
  {s s' : Shared κ} {β : Type} {e : NetEff β} {b : β}

@[simp] theorem Shared.note_incoming : (s.note k e).incoming = s.incoming := by cases e <;> rfl
@[simp] theorem Shared.note_calls : (s.note k e).calls = s.calls := by cases e <;> rfl
@[simp] theorem Shared.note_closed : (s.note k e).closed = s.closed := by cases e <;> rfl

theorem sharedEnv_some (h : sharedEnv peers m (some k) β e s b s') :
    (env (peers k) m β e (s.wire k) b (s.wire k) ∧ ∃ o, s' = { s with owner := o }) ∨
      ∃ w, env (peers k) m β e (s.wire k) b w ∧ s' = (s.note k e).setWire k w := by
  cases e with
  | enterCriticalSection =>
    obtain ⟨-, -, rfl⟩ := h
    exact Or.inl ⟨rfl, _, rfl⟩
  | leaveCriticalSection =>
    obtain ⟨-, rfl⟩ := h
    exact Or.inl ⟨rfl, _, rfl⟩
  | _ => exact Or.inr h.2

/-- What a thread does is what it does on its own connection; others see its calls only. -/
theorem sharedEnv_thread (h : sharedEnv peers m (some k) β e s b s') :
    env (peers k) m β e (s.wire k) b (s'.wire k) ∧ s'.closed = s.closed ∧
      ∀ j ≠ k, s'.incoming j = s.incoming j := by
  rcases sharedEnv_some h with ⟨hw, o, rfl⟩ | ⟨w, hw, rfl⟩
  · exact ⟨hw, rfl, fun _ _ => rfl⟩
  · have hwire : ((s.note k e).setWire k w).wire k = w := by simp [Shared.wire, Shared.setWire]
    rw [hwire]
    exact ⟨hw, Shared.note_closed, fun j hj => by simp [Shared.setWire, hj]⟩

theorem sharedEnv_handler (h : sharedEnv peers m none β e s b s') :
    s'.incoming = s.incoming ∧ s'.calls = s.calls ∧
      (s'.closed = s.closed ∨ s'.closed = some s.calls.length) := by
  cases e with
  | enterCriticalSection =>
    obtain ⟨-, -, rfl⟩ := h
    exact ⟨rfl, rfl, Or.inl rfl⟩
  | leaveCriticalSection =>
    obtain ⟨-, rfl⟩ := h
    exact ⟨rfl, rfl, Or.inl rfl⟩
  | myjqlClose =>
    obtain ⟨-, rfl⟩ := h
    exact ⟨rfl, rfl, Or.inr rfl⟩
  | closesocket =>
    obtain ⟨-, rfl⟩ := h
    exact ⟨rfl, rfl, Or.inl rfl⟩
  | exit =>
    obtain ⟨-, rfl⟩ := h
    exact ⟨rfl, rfl, Or.inl rfl⟩
  | _ => exact h.elim

/-- Updates that have been, or have to be, answered are among the calls. -/
structure Shared.Answers (s : Shared κ) : Prop where
  acked : ∀ i ∈ s.acked, i < s.calls.length
  pending : ∀ k i, s.pending k = some i → i < s.calls.length

theorem env_calls {peer : Peer} {w w' : Wire} (h : env peer m β e w b w') : w.calls <+: w'.calls := by
  cases e with
  | recv null n =>
    obtain ⟨j, -, h⟩ := h
    split_ifs at h
    · exact h.2 ▸ List.prefix_refl _
    · exact h.2 ▸ List.prefix_refl _
  | send data => exact h.1 ▸ List.prefix_refl _
  | shutdown => exact (show w' = w from h) ▸ List.prefix_refl _
  | closesocket => exact (show w' = w from h) ▸ List.prefix_refl _
  | malloc size => exact h.1 ▸ List.prefix_refl _
  | enterCriticalSection => exact (show w' = w from h) ▸ List.prefix_refl _
  | leaveCriticalSection => exact (show w' = w from h) ▸ List.prefix_refl _
  | myjqlGet key value maxSize => exact h.2 ▸ List.prefix_append ..
  | myjqlSet key value =>
    obtain rfl : w' = { w with calls := w.calls ++ [.set key value] } := h
    exact List.prefix_append ..
  | myjqlDel key =>
    obtain rfl : w' = { w with calls := w.calls ++ [.del key] } := h
    exact List.prefix_append ..
  | myjqlClose => exact h.elim
  | exit => exact h.elim
  | undefined => exact h.elim

theorem Shared.Answers.step (hs : s.Answers) (h : sharedEnv peers m i β e s b s') : s'.Answers := by
  cases i with
  | none =>
    cases e with
    | enterCriticalSection =>
      obtain ⟨-, -, rfl⟩ := h
      exact ⟨hs.acked, hs.pending⟩
    | leaveCriticalSection | myjqlClose | exit =>
      obtain ⟨-, rfl⟩ := h
      exact ⟨hs.acked, hs.pending⟩
    | closesocket => exact h.2 ▸ hs
    | _ => exact h.elim
  | some k =>
    rcases sharedEnv_some h with ⟨-, o, rfl⟩ | ⟨w, hw, rfl⟩
    · exact ⟨hs.acked, hs.pending⟩
    have hlen : s.calls.length ≤ w.calls.length := (env_calls hw).length_le
    have hpend : ∀ (o : Option ℕ), (∀ n, o = some n → n < w.calls.length) → ∀ j n,
        Function.update s.pending k o j = some n → n < w.calls.length := fun o ho j n hj => by
      rcases eq_or_ne j k with rfl | hne
      · exact ho n (by simpa using hj)
      · exact (hs.pending j n (by simpa [hne] using hj)).trans_le hlen
    cases e with
    | myjqlGet key value maxSize =>
      exact ⟨fun j hj => (hs.acked j hj).trans_le hlen, hpend none fun _ h => by cases h⟩
    | myjqlSet key value =>
      obtain rfl : w = { s.wire k with calls := s.calls ++ [.set key value] } := hw
      exact ⟨fun j hj => (hs.acked j hj).trans_le hlen, hpend _ fun n hn => by
        cases hn
        simp⟩
    | myjqlDel key =>
      obtain rfl : w = { s.wire k with calls := s.calls ++ [.del key] } := hw
      exact ⟨fun j hj => (hs.acked j hj).trans_le hlen, hpend _ fun n hn => by
        cases hn
        simp⟩
    | send data =>
      refine ⟨fun j hj => ?_, hpend none fun _ h => by cases h⟩
      change j ∈ s.acked ++ _ at hj
      rcases List.mem_append.mp hj with hj | hj
      · exact (hs.acked j hj).trans_le hlen
      · split_ifs at hj
        · exact (hs.pending k j (Option.mem_toList.mp hj)).trans_le hlen
        · cases hj
    | _ =>
      exact ⟨fun j hj => (hs.acked j hj).trans_le hlen, fun j n hj => (hs.pending j n hj).trans_le hlen⟩

end Steps

/-! ## Runs -/

section Runs

variable {κ : Type} [DecidableEq κ] {peers : κ → Peer} {m : KV} {k : κ}
  {t : Threads NetEff NetProc (Result (κ := κ))} {s : Shared κ}

/-- **Where no thread would call the store any more by itself**, nothing is lost. -/
theorem kept_of_idle (hs : s.Answers) (hc : ∀ n, s.closed = some n → s.calls.length ≤ n)
    (hidle : ∀ k, Always (env (peers k) m) procs (fun w => w.calls = s.calls) (t (some k), s.wire k))
    {c : Threads NetEff NetProc (Result (κ := κ)) × Shared κ}
    (h : ParSteps (sharedEnv peers m) procs (t, s) c) : c.2.Kept := by
  -- each thread has run as it would by itself
  suffices hinv : c.2.calls = s.calls ∧ c.2.Answers ∧
      (∀ n, c.2.closed = some n → c.2.calls.length ≤ n) ∧
      ∀ k, Steps (env (peers k) m) procs (t (some k), s.wire k) (c.1 (some k), c.2.wire k) by
    obtain ⟨-, ha, hc, -⟩ := hinv
    exact fun n hn => ⟨hc n hn, fun i hi => (ha.acked i hi).trans_le (hc n hn)⟩
  induction h with
  | refl => exact ⟨rfl, hs, hc, fun _ => .refl⟩
  | tail _ hstep ih =>
    obtain ⟨hcalls, ha, hcl, hrun⟩ := ih
    obtain @⟨i, t₁, s₁, s₂, p, hstep⟩ := hstep
    dsimp only at hcalls ha hcl hrun ⊢
    have hothers : ∀ (t : Threads NetEff NetProc (Result (κ := κ))) p k, some k ≠ i →
        Function.update t i p (some k) = t (some k) := fun t p k hk => Function.update_of_ne hk ..
    rcases hstep.cases_env (τ := Wire) with ⟨rfl, hcall⟩ | ⟨_, _, _, he, heff⟩
    · refine ⟨hcalls, ha, hcl, fun k => ?_⟩
      by_cases hk : some k = i
      · subst hk
        rw [Function.update_self]
        exact (hrun k).tail (hcall _ _)
      · rw [hothers _ _ _ hk]
        exact hrun k
    cases i with
    | none =>
      obtain ⟨h1, h2, h3⟩ := sharedEnv_handler he
      refine ⟨h2.trans hcalls, ha.step he, fun n hn => ?_, fun k => ?_⟩
      · rw [h2]
        rcases h3 with h3 | h3
        · exact hcl n (h3 ▸ hn)
        · rw [h3] at hn
          exact (Option.some.inj hn).le
      · have hwire : s₂.wire k = s₁.wire k := congrArg₂ Wire.mk (congrFun h1 k) h2
        rw [hothers _ _ _ (by simp), hwire]
        exact hrun k
    | some k =>
      obtain ⟨h1, h2, h3⟩ := sharedEnv_thread he
      have hk := (hrun k).tail (heff _ _ _ h1)
      have hcalls' : s₂.calls = s.calls := hidle k _ hk
      have hsame : s₂.calls = s₁.calls := hcalls'.trans hcalls.symm
      refine ⟨hcalls', ha.step he, fun n hn => ?_, fun j => ?_⟩
      · rw [hsame]
        exact hcl n (h2 ▸ hn)
      · by_cases hj : j = k
        · subst hj
          rw [Function.update_self]
          exact hk
        · have hwire : s₂.wire j = s₁.wire j := congrArg₂ Wire.mk (h3 j hj) hsame
          rw [hothers _ _ _ (by simpa using hj), hwire]
          exact hrun j

theorem handler_closes (ht : t none = exitNicely) (hx : s.exited = false) (ho : s.owner = none) :
    ∃ p, ParSteps (sharedEnv peers m) procs (t, s)
      (Function.update t none p, { s with owner := none, closed := some s.calls.length }) := by
  let p₃ : Net Unit := .op .closesocket fun _ => .op .exit .pure
  let p₂ : Net Unit := .op .leaveCriticalSection fun _ => p₃
  let p₁ : Net Unit := .op .myjqlClose fun _ => p₂
  have he : exitNicely = .op .enterCriticalSection fun _ => p₁ := rfl
  have h1 : Step (sharedEnv peers m none) procs (t none, s) (p₁, { s with owner := some none }) :=
    ht.trans he ▸ .op (b := ()) ⟨hx, Or.inl ho, rfl⟩
  have h2 : Step (sharedEnv peers m none) procs (p₁, { s with owner := some none })
      (p₂, { s with owner := some none, closed := some s.calls.length }) :=
    .op (b := ()) ⟨hx, rfl⟩
  have h3 : Step (sharedEnv peers m none) procs
      (p₂, { s with owner := some none, closed := some s.calls.length })
      (p₃, { s with owner := none, closed := some s.calls.length }) := .op (b := ()) ⟨hx, rfl⟩
  exact ⟨p₃, .head (.step none h1) (.head (.update h2) (.head (.update h3) .refl))⟩

/-- A thread with the critical section to itself does what it does on its own connection. -/
theorem sharedEnv_alone {β : Type} {e : NetEff β} {w w' : Wire} {b : β}
    (he : env (peers k) m β e w b w') (hw : w = s.wire k ∧ s.exited = false ∧
      s.closed = some 0 ∧ (s.owner = none ∨ s.owner = some (some k))) :
    ∃ s', sharedEnv peers m (some k) β e s b s' ∧ w' = s'.wire k ∧ s'.exited = false ∧
      s'.closed = some 0 ∧ (s'.owner = none ∨ s'.owner = some (some k)) := by
  obtain ⟨rfl, hx, hc, ho⟩ := hw
  have hwire : ((s.note k e).setWire k w').wire k = w' := by simp [Shared.wire, Shared.setWire]
  have hnote : (s.note k e).exited = s.exited ∧ (s.note k e).owner = s.owner := by
    cases e <;> exact ⟨rfl, rfl⟩
  have hgen : ∃ s', (s.exited = false ∧ ∃ w, env (peers k) m β e (s.wire k) b w ∧
      s' = (s.note k e).setWire k w) ∧ w' = s'.wire k ∧ s'.exited = false ∧ s'.closed = some 0 ∧
      (s'.owner = none ∨ s'.owner = some (some k)) :=
    ⟨_, ⟨hx, w', he, rfl⟩, hwire.symm, hnote.1.trans hx, Shared.note_closed.trans hc,
      hnote.2.symm ▸ ho⟩
  cases e with
  | enterCriticalSection =>
    obtain rfl : w' = s.wire k := he
    exact ⟨_, ⟨hx, ho, rfl⟩, rfl, hx, hc, Or.inr rfl⟩
  | leaveCriticalSection =>
    obtain rfl : w' = s.wire k := he
    exact ⟨_, ⟨hx, rfl⟩, rfl, hx, hc, Or.inl rfl⟩
  | _ => exact hgen

/-- **A call of the store** may come after the store has been closed. -/
theorem exists_lost {code : κ → CInt} {streams : κ → List Byte}
    (hk : ¬ NeverCalls (peers k) m (code k) (streams k)) :
    ∃ c, ParSteps (sharedEnv peers m) procs
      (shutdownThreads code, shutdownStart streams) c ∧ ¬ c.2.Kept := by
  obtain ⟨p, hclose⟩ : ∃ p, ParSteps (sharedEnv peers m) procs
      (shutdownThreads code, shutdownStart streams) (Function.update (shutdownThreads code) none p,
        { shutdownStart streams with owner := none, closed := some 0 }) :=
    handler_closes rfl rfl rfl
  -- what the thread does by itself
  obtain ⟨c, hrun, hc⟩ : ∃ c, Steps (env (peers k) m) procs
      (instanceThread (code k), ⟨streams k, []⟩) c ∧ c.2.calls ≠ [] := by
    unfold NeverCalls Always at hk
    push Not at hk
    exact hk
  let R : Wire → Shared κ → Prop := fun w s => w = s.wire k ∧ s.exited = false ∧
    s.closed = some 0 ∧ (s.owner = none ∨ s.owner = some (some k))
  have hR : R ⟨streams k, []⟩ { shutdownStart streams with owner := none, closed := some 0 } :=
    ⟨rfl, rfl, rfl, Or.inl rfl⟩
  obtain ⟨s', hsteps, hw, -, hclosed, -⟩ := ParSteps.alone (i := some k)
    (t := Function.update (shutdownThreads code) none p) hrun
    (fun _ _ _ _ _ _ he hw => sharedEnv_alone he hw) hR
  refine ⟨_, hclose.trans hsteps, fun hkept => ?_⟩
  have hlen := (hkept 0 hclosed).1
  have hcalls : s'.calls = c.2.calls := (congrArg Wire.calls hw).symm
  rw [hcalls] at hlen
  exact hc (List.eq_nil_of_length_eq_zero (Nat.le_zero.mp hlen))

end Runs

/-- **Shutdown.** Let any number of clients send any streams of bytes, over connections of any
kind. Nothing is lost at shutdown, in any interleaving of the threads and the handler, if and only if
the thread of no client, by itself on its connection, ever calls the store. Where the client keeps
its connection open, and sends no length `-1`, that is to say that no request is served that reaches
the store; where it closes the connection behind its stream, that there is no such request and that
none is made up of what `code` then holds. -/
theorem shutdown_iff {κ : Type} [DecidableEq κ] (peers : κ → Peer) (m : KV) (code : κ → CInt)
    (streams : κ → List Byte) :
    ((∀ c, ParSteps (sharedEnv peers m) procs
      (shutdownThreads code, shutdownStart streams) c → c.2.Kept) ↔
        ∀ k, NeverCalls (peers k) m (code k) (streams k)) ∧
    ∀ k fails,
      (peers k = wholeFields fails → (∀ len ∈ lengthsOf (streams k), len ≠ -1) →
        (NeverCalls (peers k) m (code k) (streams k) ↔ servedCalls (streams k) = [])) ∧
      (peers k = closed fails → (NeverCalls (peers k) m (code k) (streams k) ↔
        callsOf (streams k) = [] ∧
          Silent (codeAfter m (code k) (requests (streams k)).1) (requests (streams k)).2)) := by
  refine ⟨⟨fun h k => ?_, fun h c hc => ?_⟩, fun k fails => ⟨fun hk hlen => ?_, fun hk => ?_⟩⟩
  · by_contra hk
    obtain ⟨c, hc, hlost⟩ := exists_lost hk
    exact hlost (h c hc)
  · exact kept_of_idle ⟨fun _ h => absurd h List.not_mem_nil, fun _ _ h => by cases h⟩
      (fun _ h => by cases h) h hc
  · rw [hk]
    exact neverCalls_open_iff hlen
  · rw [hk]
    exact neverCalls_closed_iff

/-- **A value that is set while the server shuts down** may be lost. -/
theorem exists_lost_set : ∃ c, ParSteps
    (sharedEnv (fun _ : Unit => wholeFields False) fun key => if key = [107] then some [118] else none)
    procs (shutdownThreads fun _ : Unit => 0,
      shutdownStart fun _ => [Call.set [107] [119]].flatMap Call.encode) c ∧ ¬ c.2.Kept := by
  have hshort : ∀ call ∈ [Call.set [107] [119]], ∀ str ∈ call.strings, str.length ≤ maxStrLen := by
    decide
  refine exists_lost (k := ()) fun hidle => ?_
  have hlen : ∀ len ∈ lengthsOf ([Call.set [107] [119]].flatMap Call.encode), len ≠ -1 := by
    rw [lengthsOf_encode hshort]
    simp [Call.request, Request.lengths]
  rw [neverCalls_open_iff hlen, (servedCalls_encode hshort).mpr (by simp [EndsEmpty, Call.strings])]
    at hidle
  exact absurd hidle (by decide)

end MyJQL.Server
