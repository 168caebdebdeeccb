import MyJQL.Server.Dialogue
import MyJQL.Server.Paths

/-!
# The end of a connection

* `socketEnv`, **`thread_closes`**: whatever its effects return, `InstanceThread` closes its socket
  just before it returns, and at no other moment;
* `farewell`, **`dialogue_farewell`**: after any dialogue, `client::~client` and the thread come to
  their ends in every interleaving, both sockets are closed and nothing is left unread.
-/

set_option linter.unusedSimpArgs false

namespace MyJQL.Server

/-! ## The socket of a thread -/

/-- Whether the socket has been closed. Effects may return anything. -/
def socketEnv : Env NetEff Bool
  | _, .closesocket, _, _, s' => s' = true
  | _, _, s, _, s' => s' = s

/-- The program fails with its socket closed, and leaves it open otherwise. A closed socket is not
used. -/
abbrev Closes {α : Type} (x : ExceptT Int Net α) : Prop :=
  espec socketEnv False (fun s => s = false) x (fun _ s => s = false) (fun _ s => s = true) false

theorem closes_rules : PathRules fun x => Closes x where
  pure _ := espec_pure rfl
  bind hx hg := by
    refine espec_bind (hx.mono (fun a s hs => ?_) fun _ _ hs => hs)
    subst hs
    exact hg a
  eff {α e} he := by
    refine espec_lift (spec_eff rfl False.elim fun b s hs => ?_)
    cases e <;> first | exact hs | exact he.elim
  undefined := ⟨rfl, False.elim, nofun⟩
  fails := espec_bind (espec_lift (spec_eff rfl False.elim fun _ _ hs => espec_throw hs))
  critical {α e} he := by
    refine espec_lift (spec_bind (spec_eff rfl False.elim ?_))
    rintro _ _ rfl
    refine spec_bind (spec_eff rfl False.elim fun b s hs => ?_)
    obtain rfl : s = false := by cases e <;> first | exact hs | exact absurd rfl he
    refine spec_bind (spec_eff rfl False.elim ?_)
    rintro _ _ rfl
    exact spec_pure rfl

/-- A round closes the socket just before the thread returns. -/
theorem spec_socket (code : CInt) :
    (instanceThreadRound code).spec socketEnv False (fun s => s = false)
    (fun r s => Sum.elim (fun _ => s = true) (fun _ => s = false) r) false := by
  have hround : Closes (round code) := closes_rules.round
  refine spec_bind (Prog.spec.mono hround ?_)
  rintro (r | _ | code') s hs
  · exact spec_pure hs
  · subst hs
    refine spec_bind (spec_eff rfl False.elim ?_)
    rintro b _ rfl
    refine spec_ite (fun _ => ?_) fun _ => ?_
    · exact spec_bind (spec_eff rfl False.elim fun _ _ hs => spec_pure hs)
    · exact spec_bind (spec_eff rfl False.elim fun _ _ hs => spec_pure hs)
  · exact spec_pure hs

/-- Where a thread has come to. -/
abbrev ThreadAt (p : Net Int) (s : Bool) : Prop :=
  LoopAt socketEnv False (fun s => s = false) (fun _ s => s = false) (fun _ s => s = true)
    NetProc.instanceThread p s

theorem ThreadAt.next {p p' : Net Int} {s s' : Bool} (h : ThreadAt p s)
    (hs : Step socketEnv procs (p, s) (p', s')) : ThreadAt p' s' :=
  LoopAt.step (fun _ => rfl) (fun code s (hs : s = false) => hs ▸ spec_socket code) h hs

theorem ThreadAt.closed_iff {p : Net Int} {s : Bool} (h : ThreadAt p s) :
    s = true ↔ ∃ r, p = .pure r := by
  cases h with
  | returned h => exact iff_of_true h ⟨_, rfl⟩
  | loop h =>
    subst h
    refine iff_of_false Bool.false_ne_true ?_
    rintro ⟨r, hr⟩
    cases hr
  | @inside p _ h =>
    cases p with
    | pure r =>
      cases r with
      | inl r => exact iff_of_true h ⟨r, rfl⟩
      | inr code =>
        obtain rfl : s = false := h
        refine iff_of_false Bool.false_ne_true ?_
        rintro ⟨r, hr⟩
        cases hr
    | op e k =>
      obtain rfl : s = false := h.1
      refine iff_of_false Bool.false_ne_true ?_
      rintro ⟨r, hr⟩
      cases hr
    | call c k => exact h.elim

/-- **`InstanceThread` closes its socket** just before it returns, and at no other moment, whatever
its effects return. -/
theorem thread_closes {code : CInt} {p : Net Int} {s : Bool}
    (h : Steps socketEnv procs (instanceThread code, false) (p, s)) :
    s = true ↔ ∃ r, p = .pure r := by
  refine ThreadAt.closed_iff ?_
  generalize hc : (p, s) = c at h
  induction h generalizing p s with
  | refl =>
    cases hc
    exact .loop rfl
  | @tail c _ _ hs ih =>
    subst hc
    obtain ⟨p₁, s₁⟩ := c
    exact (ih rfl).next hs

/-- The first `recv` fails: the thread still has its socket, then closes it and returns. -/
theorem thread_closes_failed : ∃ p, Steps socketEnv procs (instanceThread 0, false) (p, false) ∧
    (¬ ∃ r, p = .pure r) ∧ Steps socketEnv procs (p, false) (.pure 1, true) ∧
    ∃ r, (Prog.pure 1 : Net Int) = .pure r := by
  have hrecv : socketEnv _ (.recv false 4) false none false := rfl
  have hclose : socketEnv _ .closesocket false () true := rfl
  obtain ⟨q, hq, hq'⟩ : ∃ q, Steps socketEnv procs ((recvCode 0).run, false) (q, false) ∧
      Steps socketEnv procs (q, false) (.pure (.error 1), true) :=
    ⟨_, Steps.ok (Steps.eff hrecv), Steps.ok (Steps.eff hclose)⟩
  have hcall : Steps socketEnv procs (instanceThread 0, false) (instanceThreadLoop 0, false) := by
    refine .head .call ?_
    rw [Prog.bind_pure]
    exact .refl
  obtain ⟨p, hp, hp'⟩ : ∃ p, Steps socketEnv procs (instanceThreadLoop 0, false) (p, false) ∧
      Steps socketEnv procs (p, false) (.pure 1, true) :=
    ⟨_, ((hq.bind (ExceptT.bindCont serve)).bind _).bind _,
      ((hq'.bind (ExceptT.bindCont serve)).bind _).bind _⟩
  have hopen : ¬ ∃ r, p = .pure r := fun h => by
    have hclosed := (thread_closes (hcall.trans hp)).mpr h
    cases hclosed
  exact ⟨p, hcall.trans hp, hopen, hp', (thread_closes ((hcall.trans hp).trans hp')).mp rfl⟩

/-! ## Sockets on a connection -/

section OnLink

variable {m : KV} {view : List Call → KV} {i : Side} {l l' : Link Byte (List Call)} {s : Bool}
  {β γ : Type} {e : NetEff β} {b : β} {p p' : Net γ} {h : List (Call × Outcome)} {thread : Net Int}

theorem socketEnv_of_link (h : linkEnv (netAct view) i β e l b l')
    (hs : s = true → l.closed i = true) :
    ∃ s', socketEnv β e s b s' ∧ (s' = true → l'.closed i = true) := by
  cases e with
  | closesocket =>
    obtain ⟨-, rfl⟩ := (linkEnv_close rfl).mp h
    exact ⟨true, rfl, fun _ => Function.update_self ..⟩
  | _ => exact ⟨s, rfl, fun hc => linkEnv_closed h i (hs hc)⟩

/-- A program on a connection, which has come to `At`. -/
def SocketOn (At : Net γ → Bool → Prop) (i : Side) (p : Net γ) (l : Link Byte (List Call)) : Prop :=
  ∃ s, At p s ∧ (s = true → l.closed i = true)

theorem SocketOn.next {At : Net γ → Bool → Prop}
    (hAt : ∀ p s p' s', At p s → Step socketEnv procs (p, s) (p', s') → At p' s')
    (h : SocketOn At i p l) (hs : Step (linkEnv (netAct view) i) procs (p, l) (p', l')) :
    SocketOn At i p' l' := by
  obtain ⟨s, hp, hl⟩ := h
  cases hs with
  | call => exact ⟨s, hAt _ _ _ _ hp .call, hl⟩
  | op he =>
    obtain ⟨s', hs', hl'⟩ := socketEnv_of_link he hl
    exact ⟨s', hAt _ _ _ _ hp (.op hs'), hl'⟩

theorem SocketOn.other {At : Net γ → Bool → Prop} {γ' : Type} {x x' : Net γ'} {j : Side}
    (h : SocketOn At i p l) (hs : Step (linkEnv (netAct view) j) procs (x, l) (x', l')) :
    SocketOn At i p l' := by
  obtain ⟨s, hp, hl⟩ := h
  cases hs with
  | call => exact ⟨s, hp, hl⟩
  | op he => exact ⟨s, hp, fun hc => linkEnv_closed he _ (hl hc)⟩

theorem Dialogue.socketOn (hd : Dialogue m h thread l) : SocketOn ThreadAt .server thread l := by
  induction hd with
  | start code => exact ⟨false, .loop rfl, nofun⟩
  | @call h thread thread' l l' c r hd hs ih =>
    have key : ∀ x : Threads NetEff NetProc Outcomes × Link Byte (List Call),
        ParSteps (linkEnv (netAct (storeAfter m))) procs (sides c.drive.run thread, l) x →
        SocketOn ThreadAt .server (x.1 .server) x.2 := by
      intro x hx
      induction hx with
      | refl => exact ih
      | tail _ hs ihx =>
        cases hs with
        | step i h =>
          cases i with
          | client => exact ihx.other h
          | server => exact ihx.next (fun _ _ _ _ => ThreadAt.next) h
    exact key _ hs

end OnLink

/-! ## The farewell -/

/-- What the two sides return at the end. -/
abbrev Farewells : Side → Type
  | .client => Unit
  | .server => Int

/-- The end of a client, and a server thread. -/
def farewell (thread : Net Int) : Threads NetEff NetProc Farewells
  | .client => Client.destructor
  | .server => thread

/-- A side has returned, with nothing left to receive or to send. -/
def Left (cs : List Call) :
    (i : Side) → Prog NetEff NetProc (Farewells i) × Port Byte (List Call) → Prop
  | .client => fun x => x.1 = .pure () ∧ x.2.incoming = [] ∧ x.2.unsent = []
  | .server => fun x => (∃ r, x.1 = .pure r) ∧ x.2 = ⟨[], [], cs⟩

/-- The ports at the farewell. -/
def farewellPorts (own : Side → List Call) : Side → Port Byte (List Call)
  | .client => ⟨CInt.bytes 1, CInt.bytes 3, own .client⟩
  | .server => ⟨CInt.bytes 3, CInt.bytes 1, own .server⟩

section Farewell

variable {m : KV} {view : List Call → KV} {ready ready' : List Call → Prop} {live : Prop} {i : Side}
  {inc : List Byte} {cs own : List Call} {α : Type} {code : CInt} {h : List (Call × Outcome)}
  {thread : Net Int} {l : Link Byte (List Call)}

theorem spec_close {e : NetEff α} {Q : α → Port Byte (List Call) → Prop} (b : α)
    (ha : netAct view α e = .close fun _ => True) (h : ∀ b, Q b ⟨inc, [], cs⟩) :
    (Prog.eff e : Net α).spec (portEnv True (netAct view) ready i) live (fun _ => True) Q
      ⟨inc, [], cs⟩ := by
  refine spec_eff trivial
    (fun _ => ⟨b, _, (portEnv_close ha).mpr ⟨trivial, rfl, trivial, rfl⟩⟩) fun b q hq => ?_
  obtain ⟨-, -, -, rfl⟩ := (portEnv_close ha).mp hq
  exact h b

/-- **The client** says goodbye and takes the reply. -/
theorem spec_destructor : Client.destructor.spec (portEnv True (netAct view) ready .client) live
    (fun _ => True) (fun _ q => q.incoming = [] ∧ q.unsent = [])
    ⟨CInt.bytes 1, CInt.bytes 3, cs⟩ := by
  refine spec_bind (spec_eff trivial (fun _ => ⟨_, _, (portEnv_send rfl).mpr
    ⟨nofun, rfl, [], (List.append_nil _).symm, rfl⟩⟩) fun b q hq => ?_)
  obtain ⟨-, rfl, rest, hu, rfl⟩ := (portEnv_send rfl).mp hq
  obtain rfl : [] = rest := List.append_cancel_left ((List.append_nil _).trans hu)
  refine spec_ite (fun _ => ?_) fun h => absurd rfl h
  refine spec_bind (spec_eff trivial (fun _ => ⟨_, _, (portEnv_recv rfl).mpr
    ⟨(CInt.length_bytes _).ge, List.cons_ne_nil _ _, fun _ => rfl, rfl, rfl⟩⟩) fun b q hq => ?_)
  obtain ⟨-, -, -, rfl, rfl⟩ := (portEnv_recv rfl).mp hq
  refine spec_bind (spec_close true rfl fun b => ?_)
  exact spec_ite (fun _ => spec_close () rfl fun _ => ⟨rfl, rfl⟩)
    fun _ => spec_close () rfl fun _ => ⟨rfl, rfl⟩

/-- **The last round** of `InstanceThread`. -/
theorem thread_farewell (hr : ready cs) :
    (instanceThreadRound code).spec (portEnv True (netAct view) ready .server) live (fun _ => True)
      (fun r q => (∃ r', r = .inl r') ∧ q = ⟨[], [], cs⟩) ⟨CInt.bytes 3, CInt.bytes 1, cs⟩ := by
  have hround : espec (portEnv True (netAct view) ready .server) live (fun _ => True) (round code)
      (fun r q => r = none ∧ q = ⟨[], [], cs⟩) (fun _ _ => False)
      ⟨CInt.bytes 3, CInt.bytes 1, cs⟩ := by
    rw [← List.append_nil (CInt.bytes 3)]
    refine espec_bind (thread_recvCode ?_)
    refine espec_ite (fun h => absurd h (by decide)) fun _ => ?_
    refine espec_ite (fun h => absurd h (by decide)) fun _ => ?_
    refine espec_ite (fun h => absurd h (by decide)) fun _ => ?_
    refine espec_ite (fun _ => ?_) fun h => absurd rfl h
    exact espec_bind (thread_sendLast hr (espec_pure ⟨rfl, rfl⟩))
  refine spec_bind (Prog.spec.mono hround ?_)
  rintro (e | r) q h
  · exact h.elim
  · obtain ⟨rfl, rfl⟩ := h
    refine spec_bind (spec_close true rfl fun b => ?_)
    refine spec_ite (fun _ => ?_) fun _ => ?_
    · exact spec_bind (spec_close () rfl fun _ => spec_pure ⟨⟨0, rfl⟩, rfl⟩)
    · exact spec_bind (spec_close () rfl fun _ => spec_pure ⟨⟨1, rfl⟩, rfl⟩)

theorem left_finished (i : Side) (x : Prog NetEff NetProc (Farewells i) × Port Byte (List Call))
    (hx : Left cs i x) : Finished True (netAct view) x := by
  obtain ⟨p, q⟩ := x
  cases i with
  | client =>
    obtain ⟨rfl, hin, hun⟩ := hx
    exact ⟨hin, hun, trivial⟩
  | server =>
    obtain ⟨⟨r, rfl⟩, rfl⟩ := hx
    exact ⟨rfl, rfl, trivial⟩

/-- **The farewell** on a connection with nothing on the way. -/
theorem farewell_duet (hp : ∀ i, l.pipe i = []) (hopen : ∀ i, l.closed i = false) (hr : ready cs)
    (hv : Eventually (Step (portEnv False (netAct view) ready' .server) procs) (AtOpcode cs)
      (thread, ⟨[], [], l.own .server⟩)) :
    Duet True (netAct view) ready procs (Left cs) (CInt.bytes 1) (farewell thread) l
      (farewellPorts l.own) := by
  refine ⟨.of_opened (fun i => ?_) hopen fun i => ?_, fun i => ?_, Or.inl rfl⟩
  · rw [hp]
    cases i <;> rfl
  · cases i <;> rfl
  · cases i with
    | client =>
      rw [show farewell thread .client = Client.destructor.bind .pure from (Prog.bind_pure _).symm]
      exact spec_destructor.eventually_bind fun _ _ hq => .now ⟨rfl, hq⟩
    | server =>
      refine hv.later.trans ?_
      rintro ⟨p, q⟩ ⟨_, ⟨⟨code, rfl⟩, rfl⟩, rfl⟩
      refine (thread_farewell hr).eventually_bind ?_
      rintro _ _ ⟨⟨r, rfl⟩, rfl⟩
      exact .now ⟨⟨r, rfl⟩, rfl⟩

/-- Where a client at its end has come to. -/
abbrev ClientAt (p : Net Unit) (s : Bool) : Prop :=
  p.spec socketEnv False (fun _ => True) (fun _ s => s = true) s

theorem client_closes : ClientAt Client.destructor false := by
  have hclose : ∀ s, ClientAt (Prog.eff .closesocket) s := fun s =>
    spec_eff trivial False.elim fun _ _ hs => hs
  refine spec_bind (spec_eff trivial False.elim fun b s _ => ?_)
  refine spec_ite (fun _ => ?_) fun _ => hclose s
  refine spec_bind (spec_eff trivial False.elim fun b s _ => ?_)
  cases b with
  | none => exact hclose s
  | some bytes =>
    refine spec_bind (spec_eff trivial False.elim fun b s _ => ?_)
    exact spec_ite (fun _ => hclose s) fun _ => hclose s

/-- **After any dialogue** `client::~client` and the server thread come to their ends in every
interleaving. Both sockets are then closed, nothing is left unread, and the store has been called
for the calls of the client only. -/
theorem dialogue_farewell (hd : Dialogue m h thread l)
    (hs : ∀ x ∈ h, ∀ str ∈ x.1.strings, str.length < 2 ^ 31 - 1) :
    Eventually (ParStep (linkEnv (netAct (storeAfter m))) procs)
      (fun x => x.1 .client = .pure () ∧ (∃ r, x.1 .server = .pure r) ∧
        (∀ i, x.2.pipe i = [] ∧ x.2.closed i = true) ∧
        x.2.own .server = madeOf (h.map Prod.fst)) (farewell thread, l) := by
  have hh := hd.held hs
  have hduet : Duet True (netAct (storeAfter m)) (fun _ => True) procs
      (Left (madeOf (h.map Prod.fst))) (CInt.bytes 1) (farewell thread) l (farewellPorts l.own) :=
    farewell_duet hh.pipes hh.opened trivial hh.runs
  have hboth := (hduet.eventually left_finished).keeps
    (J := fun x => SocketOn ClientAt .client (x.1 .client) x.2 ∧
      SocketOn ThreadAt .server (x.1 .server) x.2)
    ⟨⟨false, client_closes, nofun⟩, hd.socketOn⟩ fun x x' hx hstep => by
      cases hstep with
      | step i hi =>
        cases i with
        | client => exact ⟨hx.1.next (fun _ _ _ _ => Prog.spec.step) hi, hx.2.other hi⟩
        | server => exact ⟨hx.1.other hi, hx.2.next (fun _ _ _ _ => ThreadAt.next) hi⟩
  refine hboth.mono ?_
  rintro ⟨t, l'⟩ ⟨⟨q, hj, hD⟩, ⟨s, hclient, hcl⟩, ⟨s', hthread, hcl'⟩⟩
  obtain ⟨hc, hcin, hcun⟩ := hD .client
  obtain ⟨⟨r, hv⟩, hq⟩ := hD .server
  dsimp only at hc hcin hcun hv hq hclient hthread hcl hcl' ⊢
  refine ⟨hc, ⟨r, hv⟩, fun i => ?_, ?_⟩
  · cases i with
    | client =>
      refine ⟨?_, hcl ?_⟩
      · exact (List.append_eq_nil_iff.mp ((hj.incoming .client).symm.trans hcin)).1
      · rw [hc] at hclient
        exact hclient
    | server =>
      refine ⟨?_, hcl' (hthread.closed_iff.mpr ⟨r, hv⟩)⟩
      refine (List.append_eq_nil_iff.mp ((hj.incoming .server).symm.trans ?_)).1
      rw [hq]
  · rw [hj.own, hq]

/-- A key is set, and the client ends. -/
theorem dialogue_farewell_set :
    ∃ r thread l, Dialogue (fun _ => none) [(.set [97] [98], r)] thread l ∧
    Eventually (ParStep (linkEnv (netAct (storeAfter fun _ => none))) procs)
      (fun x => x.1 .client = .pure () ∧ (∃ r, x.1 .server = .pure r) ∧
        (∀ i, x.2.pipe i = [] ∧ x.2.closed i = true) ∧ x.2.own .server = [.set [97] [98]])
      (farewell thread, l) := by
  have hset : ∀ str ∈ (Call.set [97] [98]).strings, str.length < 2 ^ 31 - 1 := by decide
  obtain ⟨r, thread, l, hd⟩ := (Dialogue.start 0).exists_call (m := fun _ => none) nofun hset
    ⟨by decide, nofun⟩
  exact ⟨r, thread, l, hd, dialogue_farewell hd fun x hx => List.mem_singleton.mp hx ▸ hset⟩

end Farewell

end MyJQL.Server
