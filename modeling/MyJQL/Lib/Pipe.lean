import MyJQL.Lib.Parallel

/-!
# A client and a server over two pipes

Two programs side by side, with the bytes on the way to either.

* `Act`, `Link`, `linkEnv`: what an effect does on a connection, and the environment of a side;
* `Port`, `portEnv`: a side by itself, with all that it is to receive and all that it is to send.
  The client sends all before it receives, the server receives all before it sends;
* `Paired`, `Duet`: a connection made of two ports, on which both sides run as they do by
  themselves;
* **`Duet.step`**, **`Duet.eventually`**: they do so in every interleaving, to the end;
  **`Duet.returned`**: once the client has returned, nothing is on the way.
-/

set_option linter.unusedSimpArgs false

namespace MyJQL

variable {E C : Type → Type} {B σ : Type}

/-! ## Connections -/

/-- The sides of a connection. -/
inductive Side
  | client
  | server
  deriving DecidableEq, Repr

instance : Fintype Side := ⟨{.client, .server}, fun i => by cases i <;> decide⟩

/-- The other side. -/
def Side.other : Side → Side
  | .client => .server
  | .server => .client

@[simp] theorem Side.other_other (i : Side) : i.other.other = i := by cases i <;> rfl

@[simp] theorem Side.other_ne (i : Side) : i.other ≠ i := by cases i <;> decide

theorem Side.eq_or_other (i j : Side) : i = j ∨ i = j.other := by
  cases i <;> cases j <;> decide

/-- What an effect does: it receives up to `n` bytes, which stay where they are if `peek`; it sends;
it closes its side; or it concerns only the side's own state. -/
inductive Act (B σ β : Type)
  | recv (n : ℕ) (peek : Bool) (answer : List B → β)
  | send (data : List B) (answer : β)
  | close (answer : β → Prop)
  | own (r : σ → β → σ → Prop)

/-- A connection: the bytes on the way to each side, which sides are closed, and the state of
each. -/
structure Link (B σ : Type) where
  pipe : Side → List B
  closed : Side → Bool
  own : Side → σ

/-- The environment of a side. `recv` waits for all the bytes it asks for, and for one where it asks
for none, unless the other side is closed; `send` sends all. -/
def linkEnv (act : ∀ β, E β → Act B σ β) (i : Side) : Env E (Link B σ) := fun β e l b l' =>
  match act β e with
  | .recv n peek answer => (n ≤ (l.pipe i).length ∧ l.pipe i ≠ [] ∨ l.closed i.other) ∧
      b = answer ((l.pipe i).take n) ∧
      l' = if peek then l else { l with pipe := Function.update l.pipe i ((l.pipe i).drop n) }
  | .send data answer => b = answer ∧
      l' = { l with pipe := Function.update l.pipe i.other (l.pipe i.other ++ data) }
  | .close answer => answer b ∧ l' = { l with closed := Function.update l.closed i true }
  | .own r => ∃ s, r (l.own i) b s ∧ l' = { l with own := Function.update l.own i s }

/-- A side by itself: what it is still to receive and to send. -/
structure Port (B σ : Type) where
  incoming : List B
  unsent : List B
  own : σ

theorem linkEnv_closed {act : ∀ β, E β → Act B σ β} {i : Side} {β : Type} {e : E β} {b : β}
    {l l' : Link B σ} (h : linkEnv act i β e l b l') (j : Side) (hj : l.closed j = true) :
    l'.closed j = true := by
  unfold linkEnv at h
  split at h
  · obtain ⟨-, -, rfl⟩ := h
    split_ifs <;> exact hj
  · obtain ⟨-, rfl⟩ := h
    exact hj
  · obtain ⟨-, rfl⟩ := h
    by_cases hji : j = i
    · rw [hji]
      exact Function.update_self ..
    · exact (Function.update_of_ne hji ..).trans hj
  · obtain ⟨_, -, rfl⟩ := h
    exact hj

/-- The environment of a side by itself. The client must have sent all before it receives, the
server must have received all, and be `ready`, before it sends; either closes its side, if it may
be `shut`, once it has sent all. -/
def portEnv (shut : Prop) (act : ∀ β, E β → Act B σ β) (ready : σ → Prop) (i : Side) :
    Env E (Port B σ) :=
  fun β e q b q' =>
  match act β e with
  | .recv n peek answer => n ≤ q.incoming.length ∧ q.incoming ≠ [] ∧ (i = .client → q.unsent = []) ∧
      b = answer (q.incoming.take n) ∧
      q' = if peek then q else { q with incoming := q.incoming.drop n }
  | .send data answer => (i = .server → data ≠ [] → q.incoming = [] ∧ ready q.own) ∧ b = answer ∧
      ∃ rest, q.unsent = data ++ rest ∧ q' = { q with unsent := rest }
  | .close answer => shut ∧ q.unsent = [] ∧ answer b ∧ q' = q
  | .own r => ∃ s, r q.own b s ∧ q' = { q with own := s }

section Envs

variable {act : ∀ β, E β → Act B σ β} {i : Side} {β : Type} {e : E β} {b : β} {l l' : Link B σ}
  {q q' : Port B σ} {n : ℕ} {peek : Bool} {answer : List B → β} {data : List B} {a : β}
  {r : σ → β → σ → Prop} {ready : σ → Prop} {shut : Prop}

theorem linkEnv_recv (h : act β e = .recv n peek answer) : linkEnv act i β e l b l' ↔
    (n ≤ (l.pipe i).length ∧ l.pipe i ≠ [] ∨ l.closed i.other) ∧ b = answer ((l.pipe i).take n) ∧
      l' = if peek then l else { l with pipe := Function.update l.pipe i ((l.pipe i).drop n) } := by
  simp only [linkEnv, h]

theorem linkEnv_send (h : act β e = .send data a) : linkEnv act i β e l b l' ↔
    b = a ∧ l' = { l with pipe := Function.update l.pipe i.other (l.pipe i.other ++ data) } := by
  simp only [linkEnv, h]

theorem linkEnv_own (h : act β e = .own r) : linkEnv act i β e l b l' ↔
    ∃ s, r (l.own i) b s ∧ l' = { l with own := Function.update l.own i s } := by
  simp only [linkEnv, h]

theorem portEnv_recv (h : act β e = .recv n peek answer) : portEnv shut act ready i β e q b q' ↔
    n ≤ q.incoming.length ∧ q.incoming ≠ [] ∧ (i = .client → q.unsent = []) ∧
      b = answer (q.incoming.take n) ∧ q' = if peek then q else { q with incoming := q.incoming.drop n } := by
  simp only [portEnv, h]

theorem portEnv_send (h : act β e = .send data a) : portEnv shut act ready i β e q b q' ↔
    (i = .server → data ≠ [] → q.incoming = [] ∧ ready q.own) ∧ b = a ∧
      ∃ rest, q.unsent = data ++ rest ∧ q' = { q with unsent := rest } := by
  simp only [portEnv, h]

theorem linkEnv_close {p : β → Prop} (h : act β e = .close p) : linkEnv act i β e l b l' ↔
    p b ∧ l' = { l with closed := Function.update l.closed i true } := by
  simp only [linkEnv, h]

theorem portEnv_close {p : β → Prop} (h : act β e = .close p) :
    portEnv shut act ready i β e q b q' ↔ shut ∧ q.unsent = [] ∧ p b ∧ q' = q := by
  simp only [portEnv, h]

theorem portEnv_own (h : act β e = .own r) : portEnv shut act ready i β e q b q' ↔
    ∃ s, r q.own b s ∧ q' = { q with own := s } := by
  simp only [portEnv, h]

end Envs

/-! ## Both sides -/

/-- A connection made of two ports. A side that is closed has sent all. -/
structure Paired (shut : Prop) (l : Link B σ) (q : Side → Port B σ) : Prop where
  incoming : ∀ i, (q i).incoming = l.pipe i ++ (q i.other).unsent
  closed : ∀ i, l.closed i = true → shut ∧ (q i).unsent = []
  own : ∀ i, l.own i = (q i).own

section Paired

variable {act : ∀ β, E β → Act B σ β} {ready : σ → Prop} {shut : Prop} {body : Bodies E C}
  {i : Side} {l l' : Link B σ} {q : Side → Port B σ} {γ : Type} {p p' : Prog E C γ}

theorem Paired.opened (hj : Paired False l q) (i : Side) : l.closed i = false :=
  Bool.eq_false_iff.mpr fun h => (hj.closed i h).1

theorem Paired.of_opened (hin : ∀ i, (q i).incoming = l.pipe i ++ (q i.other).unsent)
    (hopen : ∀ i, l.closed i = false) (hown : ∀ i, l.own i = (q i).own) : Paired shut l q :=
  ⟨hin, fun i hi => absurd ((hopen i).symm.trans hi) Bool.false_ne_true, hown⟩

theorem Paired.update {q' : Port B σ} (hj : Paired shut l q)
    (hin : q'.incoming = l'.pipe i ++ (q i.other).unsent)
    (hout : (q i.other).incoming = l'.pipe i.other ++ q'.unsent)
    (hc : l'.closed i = true → shut ∧ q'.unsent = []) (hco : l'.closed i.other = l.closed i.other)
    (hown : l'.own i = q'.own) (hoth : l'.own i.other = l.own i.other) :
    Paired shut l' (Function.update q i q') := by
  refine ⟨fun j => ?_, fun j => ?_, fun j => ?_⟩
  · rcases j.eq_or_other i with rfl | rfl
    · rwa [Function.update_self, Function.update_of_ne (Side.other_ne _)]
    · rwa [Function.update_of_ne (Side.other_ne _), Side.other_other, Function.update_self]
  · rcases j.eq_or_other i with rfl | rfl
    · rwa [Function.update_self]
    · rw [Function.update_of_ne (Side.other_ne _), hco]
      exact hj.closed _
  · rcases j.eq_or_other i with rfl | rfl
    · rwa [Function.update_self]
    · rw [Function.update_of_ne (Side.other_ne _), hoth, hj.own]

/-- **What a side does** that can go on by itself, it does by itself. -/
theorem Paired.step (hj : Paired shut l q) (h : Step (linkEnv act i) body (p, l) (p', l'))
    (hs : ∃ c, Step (portEnv shut act ready i) body (p, q i) c) :
    ∃ q', Step (portEnv shut act ready i) body (p, q i) (p', q') ∧
      Paired shut l' (Function.update q i q') := by
  cases h with
  | call => exact ⟨q i, .call, by rwa [Function.update_eq_self]⟩
  | @op β e k _ _ b he =>
    obtain ⟨_, @⟨_, _, _, _, q', b', hp⟩⟩ := hs
    have hin := hj.incoming i
    have hout := hj.incoming i.other
    rw [Side.other_other] at hout
    cases ha : act β e with
    | recv n peek answer =>
      obtain ⟨hn, rfl, rfl⟩ := (linkEnv_recv ha).mp he
      obtain ⟨hall, hne, hc, -, -⟩ := (portEnv_recv ha).mp hp
      have hn : n ≤ (l.pipe i).length := by
        rcases hn with ⟨hn, -⟩ | hc
        · exact hn
        · rwa [hin, (hj.closed _ hc).2, List.append_nil] at hall
      have htake : (q i).incoming.take n = (l.pipe i).take n := by
        rw [hin, List.take_append_of_le_length hn]
      refine ⟨_, .op ((portEnv_recv ha).mpr ⟨hall, hne, hc, by rw [htake], rfl⟩), ?_⟩
      cases peek with
      | true => rwa [if_pos rfl, if_pos rfl, Function.update_eq_self]
      | false =>
        refine hj.update ?_ ?_ (hj.closed i) rfl (hj.own i) rfl
        · simp only [Bool.false_eq_true, if_false, Function.update_self]
          rw [hin, List.drop_append_of_le_length hn]
        · simpa only [Bool.false_eq_true, if_false, Function.update_of_ne (Side.other_ne i)]
    | send data answer =>
      obtain ⟨rfl, rfl⟩ := (linkEnv_send ha).mp he
      obtain ⟨hc, -, rest, hu, -⟩ := (portEnv_send ha).mp hp
      refine ⟨_, .op ((portEnv_send ha).mpr ⟨hc, rfl, rest, hu, rfl⟩),
        hj.update ?_ ?_ (fun hcl => ?_) rfl (hj.own i) rfl⟩
      · simpa only [Function.update_of_ne (Side.other_ne i).symm]
      · simpa only [Function.update_self, List.append_assoc, ← hu]
      · obtain ⟨hshut, hnil⟩ := hj.closed i hcl
        rw [hu] at hnil
        exact ⟨hshut, (List.append_eq_nil_iff.mp hnil).2⟩
    | close answer =>
      obtain ⟨hb, rfl⟩ := (linkEnv_close ha).mp he
      obtain ⟨hshut, hu, -, -⟩ := (portEnv_close ha).mp hp
      refine ⟨_, .op ((portEnv_close ha).mpr ⟨hshut, hu, hb, rfl⟩),
        hj.update hin hout (fun _ => ⟨hshut, hu⟩) ?_ (hj.own i) rfl⟩
      exact Function.update_of_ne (Side.other_ne i) ..
    | own r =>
      obtain ⟨s, hr, rfl⟩ := (linkEnv_own ha).mp he
      rw [hj.own] at hr
      refine ⟨_, .op ((portEnv_own ha).mpr ⟨s, hr, rfl⟩),
        hj.update hin hout (hj.closed i) rfl ?_ ?_⟩
      · exact Function.update_self ..
      · exact Function.update_of_ne (Side.other_ne i) ..

theorem Paired.progress (hj : Paired shut l q)
    (hs : ∃ c, Step (portEnv shut act ready i) body (p, q i) c)
    (hu : (q i.other).unsent = []) : ∃ c, Step (linkEnv act i) body (p, l) c := by
  obtain ⟨c, hs⟩ := hs
  cases hs with
  | call => exact ⟨_, .call⟩
  | @op β e k _ _ b hp =>
    have hin := hj.incoming i
    rw [hu, List.append_nil] at hin
    cases ha : act β e with
    | recv n peek answer =>
      obtain ⟨hn, hne, -⟩ := (portEnv_recv ha).mp hp
      exact ⟨_, .op ((linkEnv_recv ha).mpr ⟨Or.inl ⟨hin ▸ hn, hin ▸ hne⟩, rfl, rfl⟩)⟩
    | send data answer => exact ⟨_, .op ((linkEnv_send ha).mpr ⟨rfl, rfl⟩)⟩
    | close answer =>
      obtain ⟨-, -, hb, -⟩ := (portEnv_close ha).mp hp
      exact ⟨_, .op ((linkEnv_close ha).mpr ⟨hb, rfl⟩)⟩
    | own r =>
      obtain ⟨s, hr, -⟩ := (portEnv_own ha).mp hp
      exact ⟨_, .op ((linkEnv_own ha).mpr ⟨s, hj.own i ▸ hr, rfl⟩)⟩

theorem Paired.waits (hj : Paired shut l q)
    (hs : ∃ c, Step (portEnv shut act ready .client) body (p, q .client) c) :
    (∃ c, Step (linkEnv act .client) body (p, l) c) ∨ (q .client).unsent = [] := by
  obtain ⟨c, hs⟩ := hs
  cases hs with
  | call => exact Or.inl ⟨_, .call⟩
  | @op β e k _ _ b hp =>
    cases ha : act β e with
    | recv n peek answer => exact Or.inr (((portEnv_recv ha).mp hp).2.2.1 rfl)
    | send data answer => exact Or.inl ⟨_, .op ((linkEnv_send ha).mpr ⟨rfl, rfl⟩)⟩
    | close answer =>
      obtain ⟨-, -, hb, -⟩ := (portEnv_close ha).mp hp
      exact Or.inl ⟨_, .op ((linkEnv_close ha).mpr ⟨hb, rfl⟩)⟩
    | own r =>
      obtain ⟨s, hr, -⟩ := (portEnv_own ha).mp hp
      exact Or.inl ⟨_, .op ((linkEnv_own ha).mpr ⟨s, hj.own _ ▸ hr, rfl⟩)⟩

/-- A program that has ended, or is about to receive from a side that is not closed. -/
def Stopped (shut : Prop) (act : ∀ β, E β → Act B σ β) : Prog E C γ → Prop
  | .pure _ => True
  | .op e _ => ¬ shut ∧ ∃ n peek answer, act _ e = .recv n peek answer
  | .call _ _ => False

/-- A side with nothing more to receive or to send. -/
structure Finished (shut : Prop) (act : ∀ β, E β → Act B σ β)
    (c : Prog E C γ × Port B σ) : Prop where
  incoming : c.2.incoming = []
  unsent : c.2.unsent = []
  stopped : Stopped shut act c.1

theorem Paired.not_step (hj : Paired shut l q) (hf : Finished shut act (p, q i))
    {c : Prog E C γ × Link B σ} :
    ¬ Step (linkEnv act i) body (p, l) c := by
  obtain ⟨hin, -, hstop⟩ := hf
  intro hs
  cases hs with
  | call => exact hstop
  | @op β e k _ _ b he =>
    obtain ⟨hopen, n, peek, answer, ha⟩ := hstop
    obtain ⟨hne, -⟩ := (linkEnv_recv ha).mp he
    dsimp only at hin
    rw [hj.incoming, List.append_eq_nil_iff] at hin
    rcases hne with ⟨-, hne⟩ | hc
    · exact hne hin.1
    · exact hopen (hj.closed _ hc).1

end Paired

/-! ## Interleavings -/

section Duet

variable {α : Side → Type} {act : ∀ β, E β → Act B σ β} {ready : σ → Prop} {shut : Prop}
  {body : Bodies E C}
  {D : (i : Side) → Prog E C (α i) × Port B σ → Prop} {reply : List B} {t t' : Threads E C α}
  {l l' : Link B σ} {q : Side → Port B σ} {γ : Type} {p p' : Prog E C γ}

/-- A side that is ready to send stays so. -/
def Stable (act : ∀ β, E β → Act B σ β) (ready : σ → Prop) : Prop :=
  ∀ β (e : E β) r s b s', act β e = .own r → r s b s' → ready s → ready s'

theorem stable_true {act : ∀ β, E β → Act B σ β} : Stable act fun _ => True :=
  fun _ _ _ _ _ _ _ _ _ => trivial

/-- Both sides come to `D` by themselves; the server has not begun its reply, or it has received
everything and is ready. -/
structure Duet (shut : Prop) (act : ∀ β, E β → Act B σ β) (ready : σ → Prop) (body : Bodies E C)
    (D : (i : Side) → Prog E C (α i) × Port B σ → Prop) (reply : List B) (t : Threads E C α)
    (l : Link B σ) (q : Side → Port B σ) : Prop where
  paired : Paired shut l q
  runs : ∀ i, Eventually (Step (portEnv shut act ready i) body) (D i) (t i, q i)
  turn : (q .server).unsent = reply ∨ (q .server).incoming = [] ∧ ready (q .server).own

/-- A server sends nothing before it has received everything and is ready. -/
theorem Step.turn {q q' : Port B σ} (hst : Stable act ready)
    (h : Step (portEnv shut act ready .server) body (p, q) (p', q'))
    (ht : q.unsent = reply ∨ q.incoming = [] ∧ ready q.own) :
    q'.unsent = reply ∨ q'.incoming = [] ∧ ready q'.own := by
  cases h with
  | call => exact ht
  | @op β e k _ _ b he =>
    cases ha : act β e with
    | recv n peek answer =>
      obtain ⟨-, -, -, -, rfl⟩ := (portEnv_recv ha).mp he
      cases peek with
      | true => exact ht
      | false => exact ht.imp_right fun h => ⟨by simp [h.1], h.2⟩
    | send data answer =>
      obtain ⟨hd, -, rest, hu, rfl⟩ := (portEnv_send ha).mp he
      by_cases hnil : data = []
      · subst hnil
        rwa [hu] at ht
      · exact Or.inr (hd rfl hnil)
    | close answer =>
      obtain ⟨-, -, -, rfl⟩ := (portEnv_close ha).mp he
      exact ht
    | own r =>
      obtain ⟨s, hr, rfl⟩ := (portEnv_own ha).mp he
      exact ht.imp_right fun h => ⟨h.1, hst _ _ _ _ _ _ ha hr h.2⟩

/-- **One step** of an interleaving. -/
theorem Duet.step (hst : Stable act ready) (hd : Duet shut act ready body D reply t l q)
    (hD : ∀ i c, D i c → Finished shut act c)
    (hs : ParStep (linkEnv act) body (t, l) (t', l')) :
    ∃ q', Duet shut act ready body D reply t' l' q' := by
  cases hs with
  | step i h =>
    cases hd.runs i with
    | now hnow => exact absurd h (hd.paired.not_step (hD i _ hnow))
    | step hex hall =>
      obtain ⟨q', hq, hj⟩ := hd.paired.step h hex
      refine ⟨_, hj, fun j => ?_, ?_⟩
      · by_cases hji : j = i
        · subst hji
          rw [Function.update_self, Function.update_self]
          exact hall _ hq
        · rw [Function.update_of_ne hji, Function.update_of_ne hji]
          exact hd.runs j
      · cases i with
        | client => exact hd.turn
        | server =>
          rw [Function.update_self]
          exact hq.turn hst hd.turn

theorem Duet.steps (hst : Stable act ready) (hd : Duet shut act ready body D reply t l q)
    (hD : ∀ i c, D i c → Finished shut act c)
    (hs : ParSteps (linkEnv act) body (t, l) (t', l')) :
    ∃ q', Duet shut act ready body D reply t' l' q' := by
  generalize hc : (t', l') = c at hs
  induction hs generalizing t' l' with
  | refl =>
    cases hc
    exact ⟨q, hd⟩
  | @tail c _ _ hstep ih =>
    subst hc
    obtain ⟨t₁, l₁⟩ := c
    obtain ⟨q₁, hd₁⟩ := ih rfl
    exact hd₁.step hst hD hstep

theorem Paired.exists_step (hj : Paired shut l q) (hD : ∀ i c, D i c → Finished shut act c)
    (hs : ∀ i, D i (t i, q i) ∨ ∃ c, Step (portEnv shut act ready i) body (t i, q i) c)
    (hn : ¬ ∀ i, D i (t i, q i)) : ∃ c, ParStep (linkEnv act) body (t, l) c := by
  have par : ∀ i, (∃ c, Step (linkEnv act i) body (t i, l) c) →
      ∃ c, ParStep (linkEnv act) body (t, l) c := fun i ⟨_, h⟩ => ⟨_, .step i h⟩
  rcases hs .client with hc | hc
  · rcases hs .server with hv | hv
    · exact absurd (fun | .client => hc | .server => hv) hn
    · exact par .server (hj.progress hv (hD _ _ hc).unsent)
  · rcases hj.waits hc with hstep | hu
    · exact par .client hstep
    · rcases hs .server with hv | hv
      · exact par .client (hj.progress hc (hD _ _ hv).unsent)
      · exact par .server (hj.progress hv hu)

/-- What both sides have come to. -/
abbrev Both (shut : Prop) (D : (i : Side) → Prog E C (α i) × Port B σ → Prop)
    (c : Threads E C α × Link B σ) : Prop :=
  ∃ q, Paired shut c.2 q ∧ ∀ i, D i (c.1 i, q i)

/-- **Every interleaving** comes to where both sides come by themselves. -/
theorem Duet.eventually (hd : Duet shut act ready body D reply t l q)
    (hD : ∀ i c, D i c → Finished shut act c) :
    Eventually (ParStep (linkEnv act) body) (Both shut D) (t, l) := by
  have hall : Eventually (ParStep (linkEnv act) body) (fun x : Threads E C α × Link B σ =>
      ∃ c : (i : Side) → Prog E C (α i) × Port B σ,
        ((x.1 = fun i => (c i).1) ∧ Paired shut x.2 fun i => (c i).2) ∧ ∀ i, D i (c i)) (t, l) := by
    refine eventually_all _ ?_ ?_ (c := fun i => (t i, q i)) ⟨rfl, hd.paired⟩ hd.runs
    · rintro ⟨_, l⟩ c _ ⟨rfl, hj⟩ hs ⟨i, h⟩
      have hn : ¬ D i (c i) := fun hi => hj.not_step (hD i _ hi) h
      obtain ⟨q', hq, hj'⟩ := hj.step h ((hs i).resolve_left hn)
      refine ⟨i, _, hn, hq, funext fun j => ?_, ?_⟩
      · exact (Function.apply_update (fun _ x => x.1) c i (_, q') j).symm
      · have e : ∀ a, (fun j => (Function.update c i a j).2) =
            Function.update (fun j => (c j).2) i a.2 := fun a =>
          funext fun j => Function.apply_update (fun _ x => x.2) c i a j
        rwa [e]
    · rintro ⟨_, l⟩ c ⟨rfl, hj⟩ hs ⟨i, hn⟩
      exact hj.exists_step hD hs fun h => hn (h i)
  refine hall.mono ?_
  rintro ⟨_, l⟩ ⟨c, ⟨rfl, hj⟩, hc⟩
  exact ⟨_, hj, hc⟩

/-- **When the client has returned**, nothing is on the way, and the server, which was ready, has
nothing to receive or to send. -/
theorem Duet.returned (hd : Duet shut act ready body D reply t l q)
    (hD : ∀ i c, D i c → Finished shut act c)
    (hne : reply ≠ []) {a : α .client} (ht : t .client = .pure a) :
    D .client (.pure a, q .client) ∧ (∀ i, l.pipe i = []) ∧
      ∃ s, q .server = ⟨[], [], s⟩ ∧ ready s := by
  obtain ⟨hj, hruns, hturn⟩ := hd
  have hdone : D .client (.pure a, q .client) := by
    have h := hruns .client
    rw [ht] at h
    cases h with
    | now h => exact h
    | step hex _ =>
      obtain ⟨_, hs⟩ := hex
      cases hs
  obtain ⟨hin, hun, -⟩ := hD _ _ hdone
  have hc := hj.incoming .client
  have hs := hj.incoming .server
  dsimp only at hin hun
  rw [hin] at hc
  obtain ⟨hpc, hus⟩ := List.append_eq_nil_iff.mp hc.symm
  obtain ⟨hins, hready⟩ := hturn.resolve_left fun e => hne (e.symm.trans hus)
  rw [hins] at hs
  obtain ⟨hps, -⟩ := List.append_eq_nil_iff.mp hs.symm
  refine ⟨hdone, fun | .client => hpc | .server => hps, (q .server).own, ?_, hready⟩
  calc q .server = ⟨(q .server).incoming, (q .server).unsent, (q .server).own⟩ := rfl
    _ = _ := by rw [hins, show (q .server).unsent = [] from hus]

end Duet

/-! ## One side alone -/

section Alone

variable {act : ∀ β, E β → Act B σ β} {ready ready' : σ → Prop} {shut : Prop}
  {body : Bodies E C} {i : Side}
  {γ : Type} {p p' : Prog E C γ} {D : Prog E C γ × Port B σ → Prop} {l : Link B σ}
  {q : Side → Port B σ} {s : σ} {x y : List B}

/-- A side to which everything has been sent runs on the connection as by itself. -/
theorem Paired.alone (hj : Paired shut l q)
    (h : Eventually (Step (portEnv shut act ready i) body) D (p, q i))
    (hu : (q i.other).unsent = []) : Eventually (Step (linkEnv act i) body)
      (fun c => ∃ q', Paired shut c.2 (Function.update q i q') ∧ D (c.1, q')) (p, l) := by
  generalize hc : (p, q i) = c at h
  induction h generalizing p l q with
  | now h =>
    subst hc
    exact .now ⟨q i, by rwa [Function.update_eq_self], h⟩
  | step hex _ ih =>
    subst hc
    refine .step (hj.progress hex hu) ?_
    rintro ⟨p', l'⟩ hs
    obtain ⟨q', hq, hj'⟩ := hj.step hs hex
    refine (ih _ hq hj' ?_ ?_).mono fun c hc => ?_
    · rwa [Function.update_of_ne (Side.other_ne i)]
    · rw [Function.update_self]
    · simpa only [Function.update_idem] using hc

/-- A server with nothing to receive or to send goes on in the same way when the next request
comes. -/
theorem Step.later_iff (hex : ∃ c, Step (portEnv False act ready .server) body (p, ⟨[], [], s⟩) c)
    {c : Prog E C γ × Port B σ} : Step (portEnv shut act ready' .server) body (p, ⟨x, y, s⟩) c ↔
      ∃ p' s', c = (p', ⟨x, y, s'⟩) ∧
        Step (portEnv False act ready .server) body (p, ⟨[], [], s⟩) (p', ⟨[], [], s'⟩) := by
  obtain ⟨c₀, h₀⟩ := hex
  cases h₀ with
  | call =>
    refine ⟨fun h => ?_, fun ⟨p', s', e, h⟩ => ?_⟩
    · cases h
      exact ⟨_, _, rfl, .call⟩
    · cases h
      exact e ▸ .call
  | @op β e k _ _ b h₀ =>
    have key : ∀ b q', portEnv shut act ready' .server _ e ⟨x, y, s⟩ b q' ↔
        ∃ s', q' = ⟨x, y, s'⟩ ∧ portEnv False act ready .server _ e ⟨[], [], s⟩ b ⟨[], [], s'⟩ := by
      intro b q'
      cases ha : act β e with
      | recv n peek answer =>
        exact absurd rfl ((portEnv_recv ha).mp h₀).2.1
      | send data answer =>
        obtain ⟨-, -, rest, hu, -⟩ := (portEnv_send ha).mp h₀
        obtain ⟨rfl, rfl⟩ := List.append_eq_nil_iff.mp hu.symm
        rw [portEnv_send ha]
        simp only [portEnv_send ha, ne_eq, not_true_eq_false, false_implies, implies_true, true_and,
          List.nil_append]
        refine ⟨fun ⟨hb, _, rfl, hq⟩ => ⟨s, hq, hb, [], rfl, rfl⟩, ?_⟩
        rintro ⟨s', rfl, rfl, _, rfl, e⟩
        cases e
        exact ⟨rfl, _, rfl, rfl⟩
      | close answer => exact absurd ((portEnv_close ha).mp h₀).1 not_false
      | own r =>
        rw [portEnv_own ha]
        simp only [portEnv_own ha]
        refine ⟨fun ⟨s', hr, hq⟩ => ⟨s', hq, s', hr, rfl⟩, ?_⟩
        rintro ⟨s', rfl, s₁, hr, e⟩
        cases e
        exact ⟨_, hr, rfl⟩
    refine ⟨fun h => ?_, fun ⟨p', s', e, h⟩ => ?_⟩
    · cases h with
      | op h =>
        obtain ⟨s', rfl, h'⟩ := (key _ _).mp h
        exact ⟨_, s', rfl, .op h'⟩
    · subst e
      cases h with
      | op h => exact .op ((key _ _).mpr ⟨s', rfl, h⟩)

/-- **The end of a request** comes about whether or not the next one has come. -/
theorem Eventually.later
    (h : Eventually (Step (portEnv False act ready .server) body) D (p, ⟨[], [], s⟩)) :
    Eventually (Step (portEnv shut act ready' .server) body)
      (fun c => ∃ q, D (c.1, q) ∧ c.2 = ⟨x, y, q.own⟩) (p, ⟨x, y, s⟩) := by
  generalize hc : (p, (⟨[], [], s⟩ : Port B σ)) = c at h
  induction h generalizing p s with
  | now h =>
    subst hc
    exact .now ⟨_, h, rfl⟩
  | step hex _ ih =>
    subst hc
    obtain ⟨c₀, h₀⟩ := hex
    obtain ⟨p₁, s₁, rfl, h₁⟩ := (Step.later_iff ⟨_, h₀⟩).mp h₀
    refine .step ⟨_, (Step.later_iff ⟨_, h₁⟩).mpr ⟨p₁, s₁, rfl, h₁⟩⟩ fun c hs => ?_
    obtain ⟨p', s', rfl, h'⟩ := (Step.later_iff ⟨_, h₁⟩).mp hs
    exact ih _ h' rfl

end Alone

end MyJQL
