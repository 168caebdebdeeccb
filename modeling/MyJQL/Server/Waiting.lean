import MyJQL.Server.Connection

/-!
# Calls that never return

A `recv` for no bytes waits for a byte that follows. Where none is to come, both sides wait for each
other.

* `Waiting`: a side that waits although nothing is to come; `driver_waits`, `driver_waits_value`,
  `thread_waits`: each side by itself;
* **`call_duet_waits`**, **`not_returned`**: a call that does not complete returns in no interleaving.
-/

set_option linter.unusedSimpArgs false

namespace MyJQL.Server

/-- A side waits for bytes, and nothing is to come. -/
def Waiting {α : Type} (x : Net α × Port Byte (List Call)) : Prop :=
  x.2.incoming = [] ∧ x.2.unsent = [] ∧ ∃ null n k, x.1 = .op (.recv null n) k

section Rules

variable {view : List Call → KV} {ready : List Call → Prop} {i : Side} {α β ε : Type}
  {x : ExceptT ε Net α} {g : α → ExceptT ε Net β} {p : Net α} {q : Port Byte (List Call)}
  {Q : α → Port Byte (List Call) → Prop}

theorem eventually_waiting_bind {f : α → Net β}
    (h : Eventually (Step (portEnv False (netAct view) ready i) procs) Waiting (p, q)) :
    Eventually (Step (portEnv False (netAct view) ready i) procs) Waiting (p.bind f, q) :=
  h.bind fun _ _ ⟨hin, hun, null, n, k, e⟩ => ⟨hin, hun, null, n, fun b => (k b).bind f, by
    subst e
    rfl⟩

theorem ewaits_left
    (h : Eventually (Step (portEnv False (netAct view) ready i) procs) Waiting (x.run, q)) :
    Eventually (Step (portEnv False (netAct view) ready i) procs) Waiting ((x >>= g).run, q) :=
  eventually_waiting_bind (f := ExceptT.bindCont g) h

theorem ewaits_right (hx : espec (portEnv False (netAct view) ready i) True (fun _ => True) x Q
      (fun _ _ => False) q)
    (hg : ∀ a q, Q a q →
      Eventually (Step (portEnv False (netAct view) ready i) procs) Waiting ((g a).run, q)) :
    Eventually (Step (portEnv False (netAct view) ready i) procs) Waiting ((x >>= g).run, q) :=
  Prog.spec.eventually_bind (f := ExceptT.bindCont g) hx fun
    | .ok a, q, h => hg a q h
    | .error _, _, h => h.elim

end Rules

/-! ## The driver -/

section Driver

variable {view : List Call → KV} {ready : List Call → Prop} {cs : List Call} {inc : List Byte}
  {α : Type}

theorem driver_sends {data str rest : List Byte} {g : CInt → ExceptT Client.Error Net α}
    (hstr : str.length < 2 ^ 31)
    (hg : Eventually (Step (portEnv False (netAct view) ready .client) procs) Waiting
      ((g (BitVec.ofNat 32 str.length)).run, ⟨inc, rest, cs⟩)) :
    Eventually (Step (portEnv False (netAct view) ready .client) procs) Waiting
      ((do
        Client.sendBytes data
        let code ← Client.sendString str
        g code).run, ⟨inc, data ++ (encodeString str ++ rest), cs⟩) := by
  refine ewaits_right (Q := fun _ q => q = ⟨inc, encodeString str ++ rest, cs⟩)
    (driver_send rfl) ?_
  rintro _ _ rfl
  refine ewaits_right (Q := fun code q => code = BitVec.ofNat 32 str.length ∧ q = ⟨inc, rest, cs⟩)
    (driver_sendString hstr ⟨rfl, rfl⟩) ?_
  rintro _ _ ⟨rfl, rfl⟩
  exact hg

theorem driver_recvCode_waits {code : CInt} {g : CInt → ExceptT Client.Error Net α} :
    Eventually (Step (portEnv False (netAct view) ready .client) procs) Waiting
      ((Client.recvCode code >>= g).run, ⟨[], [], cs⟩) :=
  ewaits_left (.now ⟨rfl, rfl, false, 4, _, rfl⟩)

variable (view ready cs) in
/-- **The driver** waits for a reply that does not come. -/
theorem driver_waits (c : Call) (hs : ∀ str ∈ c.strings, str.length < 2 ^ 31) :
    Eventually (Step (portEnv False (netAct view) ready .client) procs) Waiting
      (c.drive.run, ⟨[], c.encode, cs⟩) := by
  cases c with
  | get key =>
    rw [Call.encode, ← List.append_nil (encodeString key)]
    exact driver_sends (hs key List.mem_cons_self) driver_recvCode_waits
  | set key value =>
    refine ewaits_left (driver_sends (hs key List.mem_cons_self) ?_)
    rw [← List.append_nil (encodeString value)]
    refine ewaits_right (Q := fun _ q => q = ⟨[], [], cs⟩)
      (driver_sendString (hs value (List.mem_cons_of_mem _ List.mem_cons_self)) rfl) ?_
    rintro _ _ rfl
    exact driver_recvCode_waits
  | del key =>
    rw [Call.encode, ← List.append_nil (encodeString key)]
    exact ewaits_left (driver_sends (hs key List.mem_cons_self) driver_recvCode_waits)

variable (view ready cs) in
/-- **The driver** waits for the bytes of an empty value. -/
theorem driver_waits_value {key : List Byte} (hk : key.length < 2 ^ 31) :
    Eventually (Step (portEnv False (netAct view) ready .client) procs) Waiting
      ((Call.get key).drive.run, ⟨CInt.bytes 1 ++ CInt.bytes 0, (Call.get key).encode, cs⟩) := by
  rw [Call.encode, ← List.append_nil (encodeString key)]
  refine driver_sends hk ?_
  refine ewaits_right (Q := fun code q => code = 1 ∧ q = ⟨CInt.bytes 0 ++ [], [], cs⟩)
    (driver_recvCode ⟨rfl, rfl⟩) ?_
  rintro _ _ ⟨rfl, rfl⟩
  refine ewaits_right (Q := fun code q => code = 0 ∧ q = ⟨[], [], cs⟩) (driver_recvCode ⟨rfl, rfl⟩) ?_
  rintro _ _ ⟨rfl, rfl⟩
  refine ewaits_right (Q := fun _ q => q = ⟨[], [], cs⟩)
    (port_malloc (by decide) fun _ => rfl) ?_
  rintro p _ rfl
  exact .now ⟨rfl, rfl, p.isNone, _, _, rfl⟩

end Driver

/-! ## The server -/

section Thread

variable {view : List Call → KV} {ready : List Call → Prop} {cs : List Call} {code : CInt}
  {α : Type}

theorem thread_receive_waits {g : CInt → Buf → ExceptT Int Net α} :
    Eventually (Step (portEnv False (netAct view) ready .server) procs) Waiting
      ((do
        let code ← recvCode code
        let p ← recvString code
        g code p).run, ⟨encodeString [], [], cs⟩) := by
  rw [show encodeString [] = CInt.bytes 0 ++ [] from rfl]
  refine ewaits_right (Q := fun code q => code = 0 ∧ q = ⟨[], [], cs⟩)
    (thread_recvCode ⟨rfl, rfl⟩) ?_
  rintro _ _ ⟨rfl, rfl⟩
  refine ewaits_left (ewaits_right (Q := fun _ q => q = ⟨[], [], cs⟩)
    (port_malloc (by decide) fun _ => rfl) ?_)
  rintro p _ rfl
  exact .now ⟨rfl, rfl, p.isNone, _, _, rfl⟩

variable (view ready code cs) in
/-- **One round** of `InstanceThread` waits for the last string of a request, if it is empty. -/
theorem thread_waits (c : Call) (hs : ∀ str ∈ c.strings, str.length < 2 ^ 31 - 1)
    (hl : c.strings.getLast? = some []) :
    Eventually (Step (portEnv False (netAct view) ready .server) procs) Waiting
      (instanceThreadRound code, ⟨c.encode, [], cs⟩) := by
  have hround : Eventually (Step (portEnv False (netAct view) ready .server) procs) Waiting
      ((round code).run, ⟨c.encode, [], cs⟩) := by
    cases c with
    | get key =>
      obtain rfl : key = [] := Option.some.inj hl
      refine ewaits_right (Q := fun code q => code = 0 ∧ q = ⟨encodeString [], [], cs⟩)
        (thread_recvCode ⟨rfl, rfl⟩) ?_
      rintro _ _ ⟨rfl, rfl⟩
      rw [serve, if_pos rfl]
      exact ewaits_left thread_receive_waits
    | set key value =>
      obtain rfl : value = [] := Option.some.inj hl
      have hk := hs key List.mem_cons_self
      refine ewaits_right (Q := fun code q => code = 1 ∧
        q = ⟨encodeString key ++ encodeString [], [], cs⟩) (thread_recvCode ⟨rfl, rfl⟩) ?_
      rintro _ _ ⟨rfl, rfl⟩
      rw [serve, if_neg (by decide), if_pos rfl]
      refine ewaits_left ?_
      rw [encodeString, List.append_assoc]
      refine ewaits_right (Q := fun code q => code = BitVec.ofNat 32 key.length ∧
        q = ⟨key ++ encodeString [], [], cs⟩) (thread_recvCode ⟨rfl, rfl⟩) ?_
      rintro _ _ ⟨rfl, rfl⟩
      refine ewaits_right (Q := fun _ q => q = ⟨encodeString [], [], cs⟩)
        (thread_recvString hk (by simp [encodeString, CInt.bytes]) fun _ _ => rfl) ?_
      rintro _ _ rfl
      exact thread_receive_waits
    | del key =>
      obtain rfl : key = [] := Option.some.inj hl
      refine ewaits_right (Q := fun code q => code = 2 ∧ q = ⟨encodeString [], [], cs⟩)
        (thread_recvCode ⟨rfl, rfl⟩) ?_
      rintro _ _ ⟨rfl, rfl⟩
      rw [serve, if_neg (by decide), if_neg (by decide), if_pos rfl]
      exact ewaits_left thread_receive_waits
  exact eventually_waiting_bind hround

end Thread

/-! ## A call -/

/-- Where a call comes to that never returns: the client waits, and so does the server, unless it
reads an opcode. -/
def Hung (goal : List Call) :
    (i : Side) → Prog NetEff NetProc (Outcomes i) × Port Byte (List Call) → Prop
  | .client => Waiting
  | .server => fun x => Waiting x ∨ AtOpcode goal x

section Calls

variable {m : KV} {view : List Call → KV} {thread thread' : Net Int}
  {l l' : Link Byte (List Call)} {c : Call} {cs s : List Call} {r : Outcome}

theorem hung_finished (i : Side) (x : Prog NetEff NetProc (Outcomes i) × Port Byte (List Call))
    (hx : Hung cs i x) : Finished False (netAct view) x := by
  have waits : ∀ {α : Type} (x : Net α × Port Byte (List Call)), Waiting x →
      Finished False (netAct view) x := by
    rintro α ⟨_, q⟩ ⟨hin, hun, null, n, k, rfl⟩
    exact ⟨hin, hun, not_false, n, null, _, rfl⟩
  cases i with
  | client => exact waits x hx
  | server =>
    rcases hx with hx | hx
    · exact waits x hx
    · obtain ⟨p, q⟩ := x
      obtain ⟨⟨code, rfl⟩, rfl⟩ := hx
      exact ⟨rfl, rfl, not_false, 4, false, _, rfl⟩

/-- **A call that does not complete**: both sides come to where they wait. -/
theorem call_duet_waits (hp : ∀ i, l.pipe i = []) (hopen : ∀ i, l.closed i = false)
    (hs : ∀ str ∈ c.strings, str.length < 2 ^ 31 - 1) (hc : ¬ c.Completes (view cs))
    (hv : Eventually (Step (portEnv False (netAct view) (fun _ => True) .server) procs)
      (AtOpcode cs) (thread, ⟨[], [], l.own .server⟩)) :
    ∃ reply q, Duet False (netAct view) (fun _ => True) procs (Hung (cs ++ c.made)) reply
      (sides c.drive.run thread) l q := by
  have hs' : ∀ str ∈ c.strings, str.length < 2 ^ 31 := fun str h => (hs str h).trans (by decide)
  have ports : ∀ reply : List Byte, Eventually (Step (portEnv False (netAct view)
        (fun _ => True) .client) procs) Waiting (c.drive.run, ⟨reply, c.encode, l.own .client⟩) →
      Eventually (Step (portEnv False (netAct view) (fun _ => True) .server) procs)
        (fun x => Waiting x ∨ AtOpcode (cs ++ c.made) x)
        (thread, ⟨c.encode, reply, l.own .server⟩) →
      ∃ reply q, Duet False (netAct view) (fun _ => True) procs (Hung (cs ++ c.made)) reply
        (sides c.drive.run thread) l q := by
    refine fun reply h₁ h₂ => ⟨reply, fun
      | .client => ⟨reply, c.encode, l.own .client⟩
      | .server => ⟨c.encode, reply, l.own .server⟩, .of_opened (fun i => ?_) hopen fun i => ?_,
      fun i => ?_, Or.inl rfl⟩
    · rw [hp]
      cases i <;> rfl
    · cases i <;> rfl
    · cases i with
      | client => exact h₁
      | server => exact h₂
  by_cases hl : c.strings.getLast? = some []
  · -- the server waits for the last string
    refine ports [] (driver_waits _ _ _ c hs') (hv.later.trans ?_)
    rintro ⟨p, q⟩ ⟨_, ⟨⟨code, rfl⟩, rfl⟩, rfl⟩
    exact (eventually_waiting_bind (thread_waits view _ cs code c hs hl)).mono fun _ => Or.inl
  · -- the client waits for an empty value
    obtain ⟨key, rfl, hk, hm⟩ : ∃ key, c = .get key ∧ key.length ≤ maxStrLen ∧
        view cs key = some [] := by
      by_contra hn
      refine hc ⟨hl, fun key he hk hm => hn ⟨key, he, hk, hm⟩⟩
    have hreply : (Call.get key).reply (view cs) = CInt.bytes 1 ++ CInt.bytes 0 := by
      rw [Call.reply, if_neg (not_lt.mpr hk), hm]
      rfl
    refine ports _ (driver_waits_value _ _ _ (hs' key List.mem_cons_self)) ?_
    rw [← hreply]
    exact (eventually_served trivial hs hl hv).mono fun _ => Or.inr

/-- **It returns in no interleaving.** -/
theorem not_returned (hp : ∀ i, l.pipe i = []) (hopen : ∀ i, l.closed i = false)
    (hs : ∀ str ∈ c.strings, str.length < 2 ^ 31 - 1) (hc : ¬ c.Completes (view cs))
    (hv : Eventually (Step (portEnv False (netAct view) (fun _ => True) .server) procs)
      (AtOpcode cs) (thread, ⟨[], [], l.own .server⟩)) :
    ¬ ParSteps (linkEnv (netAct view)) procs (sides c.drive.run thread, l)
      (sides (.pure r) thread', l') := by
  intro h
  obtain ⟨reply, q, hd⟩ := call_duet_waits hp hopen hs hc hv
  obtain ⟨q', hd'⟩ := hd.steps stable_true hung_finished h
  cases hd'.runs .client with
  | now hw =>
    obtain ⟨-, -, null, n, k, e⟩ := hw
    cases e
  | step hex _ =>
    obtain ⟨_, hs⟩ := hex
    cases hs

end Calls

end MyJQL.Server
