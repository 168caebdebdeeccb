import MyJQL.Lib.Atomic
import MyJQL.Server.Connection

/-!
# Any number of clients

* `Hub`, `hubEnv`: the connections of the clients, and the critical section that their threads share;
* `System`, `SystemStep`: clients that call the driver as they like, the threads that serve them,
  and the store; an event for every call and every return;
* `StoreObject`: a store whose calls are those of a map;
* `Idle`, `Calling`, `Conn`: a connection between and during calls, for all that the map may be at the
  next call;
* **`SystemStep.tracked`**: the system is a map that the clients call.
-/

set_option linter.unusedSimpArgs false

namespace MyJQL.Server

/-! ## The system -/

/-- What an effect does on a socket or in memory: every `send` and `recv` transfers its full length,
as in `netAct`. -/
def sockAct : ∀ β, NetEff β → Act Byte Unit β
  | _, .recv null n => .recv n null fun l => if null ∧ l ≠ [] then none else some l
  | _, .send data => .send data true
  | _, .shutdown => .close fun _ => True
  | _, .closesocket => .close fun _ => True
  | _, .malloc n => .own fun _ b _ => if n < 2 ^ 63 then ∃ p, b = some p else b = none
  | _, _ => .own fun _ _ _ => False

/-- The connections, and the thread in the critical section. -/
structure Hub (κ : Type) where
  link : κ → Link Byte Unit
  owner : Option κ

variable {κ : Type} [DecidableEq κ]

/-- The environment of a side of connection `k`. Only the server has the critical section. -/
def hubEnv (k : κ) (i : Side) : Env NetEff (Hub κ)
  | _, .enterCriticalSection, s, _, s' =>
    i = .server ∧ s.owner = none ∧ s' = { s with owner := some k }
  | _, .leaveCriticalSection, s, _, s' => i = .server ∧ s' = { s with owner := none }
  | β, e, s, b, s' => ∃ l, linkEnv sockAct i β e (s.link k) b l ∧
    s' = { s with link := Function.update s.link k l }

/-- The calls of the clients that are under way, the threads of the server, their connections and
the store. -/
structure System (κ : Type) (E C : Type → Type) (τ : Type) where
  client : κ → Option (Net Outcome)
  thread : Threads E C fun _ : κ => Int
  hub : Hub κ
  store : τ

variable {E C : Type → Type} {τ : Type}

/-- One step: a client begins a call, goes on with it, or is done with it; or its thread goes on. -/
inductive SystemStep (env : κ → Env E (Hub κ × τ)) (body : Bodies E C) :
    System κ E C τ → Option (Event κ Call Outcome) → System κ E C τ → Prop
  | invoke {x : System κ E C τ} (k : κ) (c : Call) (h : x.client k = none) :
    SystemStep env body x (some (.invoke k c))
      { x with client := Function.update x.client k (some c.drive.run) }
  | client {x : System κ E C τ} (k : κ) {p p' : Net Outcome} {hub : Hub κ} (h : x.client k = some p)
      (hs : Step (hubEnv k .client) procs (p, x.hub) (p', hub)) :
    SystemStep env body x none
      { x with client := Function.update x.client k (some p'), hub := hub }
  | thread {x : System κ E C τ} (k : κ) {p : Prog E C Int} {hub : Hub κ} {store : τ}
      (hs : Step (env k) body (x.thread k, (x.hub, x.store)) (p, (hub, store))) :
    SystemStep env body x none
      { x with thread := Function.update x.thread k p, hub := hub, store := store }
  | result {x : System κ E C τ} (k : κ) (r : Outcome) (h : x.client k = some (.pure r)) :
    SystemStep env body x (some (.result k r))
      { x with client := Function.update x.client k none }

/-- The system at first: no client has begun a call. -/
def System.start (code : κ → CInt) (store : τ) (thread : CInt → Prog E C Int) : System κ E C τ where
  client _ := none
  thread k := thread (code k)
  hub := ⟨fun _ => ⟨fun _ => [], fun _ => false, fun _ => ()⟩, none⟩
  store := store

/-- A store whose calls are those of a map, and does what no other effect does. -/
structure StoreObject (env : κ → Env NetEff (Hub κ × τ)) (Rep : KV → τ → Prop) : Prop where
  other : ∀ k β (e : NetEff β) s b s', storeCall e = none → env k β e s b s' →
    hubEnv k .server β e s.1 b s'.1 ∧ s'.2 = s.2
  call : ∀ k β (e : NetEff β) c s b s' m, storeCall e = some c →
    (∀ str ∈ c.strings, str.length ≤ maxStrLen) → Rep m s.2 → env k β e s b s' →
    StoreAnswer m e b ∧ Rep (c.apply m) s'.2
  hub : ∀ k β (e : NetEff β) s b s', storeCall e ≠ none → env k β e s b s' → s'.1 = s.1

/-- What a call of a client makes of the map, and returns. -/
def callObject (c : Call) (m : KV) : Outcome × KV := (c.answer m, storeAfter m c.made)

/-! ## Steps on a connection -/

/-- The connection, with the calls of the store that the server has made for it. -/
def serving (l : Link Byte Unit) (calls : List Call) : Link Byte (List Call) where
  pipe := l.pipe
  closed := l.closed
  own
    | .client => []
    | .server => calls

section Steps

variable {k : κ} {i : Side} {α β : Type} {e : NetEff β} {b : β} {p p' : Net α} {s s' : Hub κ}
  {l l' : Link Byte Unit} {view : List Call → KV} {calls : List Call}

theorem update_own_self (l : Link Byte (List Call)) (i : Side) :
    { l with own := Function.update l.own i (l.own i) } = l :=
  congrArg (Link.mk _ _) (Function.update_eq_self ..)

/-- What happens on a socket happens whatever the store is. -/
theorem linkEnv_serving (h : linkEnv sockAct i β e l b l') :
    linkEnv (netAct view) i β e (serving l calls) b (serving l' calls) := by
  cases e with
  | recv null n =>
    obtain ⟨hn, hb, rfl⟩ := h
    refine ⟨hn, hb, ?_⟩
    cases null <;> rfl
  | send data =>
    obtain ⟨hb, rfl⟩ := h
    exact ⟨hb, rfl⟩
  | shutdown =>
    obtain ⟨hb, rfl⟩ := h
    exact ⟨hb, rfl⟩
  | closesocket =>
    obtain ⟨hb, rfl⟩ := h
    exact ⟨hb, rfl⟩
  | malloc n =>
    obtain ⟨_, hb, rfl⟩ := h
    exact ⟨_, ⟨hb, rfl⟩, (update_own_self (serving l calls) i).symm⟩
  | _ =>
    obtain ⟨_, hb, -⟩ := h
    exact hb.elim

/-- **A step outside the store** is one on its connection. -/
theorem hub_step (h : hubEnv k i β e s b s') : (∀ j ≠ k, s'.link j = s.link j) ∧
    ∀ view calls, linkEnv (netAct view) i β e (serving (s.link k) calls) b
      (serving (s'.link k) calls) := by
  have hsock : (∃ l, linkEnv sockAct i β e (s.link k) b l ∧
      s' = { s with link := Function.update s.link k l }) → (∀ j ≠ k, s'.link j = s.link j) ∧
        ∀ view calls, linkEnv (netAct view) i β e (serving (s.link k) calls) b
          (serving (s'.link k) calls) := by
    rintro ⟨l, hl, rfl⟩
    refine ⟨fun j hj => Function.update_of_ne hj .., fun view calls => ?_⟩
    dsimp only
    rw [Function.update_self]
    exact linkEnv_serving hl
  cases e with
  | enterCriticalSection =>
    obtain ⟨-, -, rfl⟩ := h
    exact ⟨fun _ _ => rfl, fun view calls => ⟨_, rfl, (update_own_self (serving _ calls) i).symm⟩⟩
  | leaveCriticalSection =>
    obtain ⟨-, rfl⟩ := h
    exact ⟨fun _ _ => rfl, fun view calls => ⟨_, rfl, (update_own_self (serving _ calls) i).symm⟩⟩
  | _ => exact hsock h

/-- **A step of a thread**: a call of the store, or a step on the connection. -/
theorem StoreObject.step {env : κ → Env NetEff (Hub κ × τ)} {Rep : KV → τ → Prop}
    (ho : StoreObject env Rep) {x x' : Hub κ × τ} (hs : Step (env k) procs (p, x) (p', x')) :
    (x'.2 = x.2 ∧ (∀ j ≠ k, x'.1.link j = x.1.link j) ∧ ∀ view calls,
      Step (linkEnv (netAct view) .server) procs (p, serving (x.1.link k) calls)
        (p', serving (x'.1.link k) calls)) ∨
    ∃ (β : Type) (e : NetEff β) (f : β → Net α) (c : Call) (b : β), p = .op e f ∧ p' = f b ∧
      storeCall e = some c ∧ env k β e x b x' := by
  cases hs with
  | call => exact Or.inl ⟨rfl, fun _ _ => rfl, fun _ _ => .call⟩
  | @op β e f _ _ b he =>
    cases hc : storeCall e with
    | some c => exact Or.inr ⟨β, e, f, c, b, rfl, rfl, hc, he⟩
    | none =>
      obtain ⟨h1, h2⟩ := ho.other k _ e _ _ _ hc he
      obtain ⟨hoth, hl⟩ := hub_step h1
      exact Or.inl ⟨h2, hoth, fun view calls => .op (hl view calls)⟩

theorem netAct_storeCall {c : Call} (hc : storeCall e = some c) :
    netAct view β e = .own fun calls b calls' =>
      StoreAnswer (view calls) e b ∧ calls' = calls ++ [c] := by
  cases e with
  | myjqlGet key value maxSize =>
    cases hc
    rfl
  | myjqlSet key value =>
    cases hc
    rfl
  | myjqlDel key =>
    cases hc
    rfl
  | _ => cases hc

/-- **A call of the store** is made of the map that the view has next. -/
theorem linkEnv_storeCall {c : Call} (hc : storeCall e = some c)
    (hb : StoreAnswer (view calls) e b) :
    linkEnv (netAct view) .server β e (serving l calls) b (serving l (calls ++ [c])) := by
  refine (linkEnv_own (netAct_storeCall hc)).mpr ⟨_, ⟨hb, rfl⟩, congrArg (Link.mk _ _) ?_⟩
  funext i
  cases i <;> rfl

end Steps

/-! ## Calls made -/

section Made

variable {view : List Call → KV} {ready : List Call → Prop} {i : Side} {α : Type} {p p' : Net α}
  {q q' : Port Byte (List Call)} {cs : List Call} {thread : Net Int}

theorem own_le (h : Step (portEnv False (netAct view) ready i) procs (p, q) (p', q')) :
    q.own <+: q'.own := by
  cases h with
  | call => exact List.prefix_rfl
  | @op β e _ _ _ b he =>
    cases hc : storeCall e with
    | some c =>
      obtain ⟨_, ⟨-, rfl⟩, rfl⟩ := (portEnv_own (netAct_storeCall hc)).mp he
      exact List.prefix_append ..
    | none =>
      cases e with
      | recv null n =>
        obtain ⟨-, -, -, -, rfl⟩ := (portEnv_recv rfl).mp he
        cases null <;> exact List.prefix_rfl
      | send data =>
        obtain ⟨-, -, _, -, rfl⟩ := (portEnv_send rfl).mp he
        exact List.prefix_rfl
      | shutdown => exact he.1.elim
      | closesocket => exact he.1.elim
      | malloc n =>
        obtain ⟨_, ⟨-, rfl⟩, rfl⟩ := (portEnv_own rfl).mp he
        exact List.prefix_rfl
      | enterCriticalSection =>
        obtain ⟨_, rfl, rfl⟩ := (portEnv_own rfl).mp he
        exact List.prefix_rfl
      | leaveCriticalSection =>
        obtain ⟨_, rfl, rfl⟩ := (portEnv_own rfl).mp he
        exact List.prefix_rfl
      | myjqlGet => cases hc
      | myjqlSet => cases hc
      | myjqlDel => cases hc
      | _ =>
        obtain ⟨_, hf, -⟩ := (portEnv_own rfl).mp he
        exact hf.elim

/-- A thread that comes to reading an opcode after the calls `cs` has made some of them. -/
theorem own_le_of_eventually
    (h : Eventually (Step (portEnv False (netAct view) ready .server) procs) (AtOpcode cs) (thread, q)) :
    q.own <+: cs := by
  generalize hc : (thread, q) = c at h
  induction h generalizing thread q with
  | now h =>
    subst hc
    obtain ⟨-, rfl⟩ := h
    exact List.prefix_rfl
  | step hex _ ih =>
    subst hc
    obtain ⟨⟨p', q'⟩, hs⟩ := hex
    exact (own_le hs).trans (ih _ hs rfl)

theorem next_le_of_eventually {β : Type} {e : NetEff β} {f : β → Net Int} {c : Call}
    (h : Eventually (Step (portEnv False (netAct view) ready .server) procs) (AtOpcode cs) (.op e f, q))
    (hc : storeCall e = some c) : q.own ++ [c] <+: cs := by
  cases h with
  | now h =>
    obtain ⟨⟨code, h⟩, -⟩ := h
    cases h
    cases hc
  | step hex hall =>
    obtain ⟨_, hs⟩ := hex
    have hv := hall _ hs
    cases hs with
    | op he =>
      obtain ⟨_, ⟨-, rfl⟩, rfl⟩ := (portEnv_own (netAct_storeCall hc)).mp he
      exact own_le_of_eventually hv

theorem stable_prefix : Stable (netAct view) fun calls => cs <+: calls := by
  intro β e r s b s' ha hr hcs
  have he : portEnv False (netAct view) (fun _ => True) .server β e ⟨[], [], s⟩ b ⟨[], [], s'⟩ :=
    (portEnv_own ha).mpr ⟨_, hr, rfl⟩
  have hs : Step (portEnv False (netAct view) (fun _ => True) .server) procs
      ((.op e .pure : Net β), ⟨[], [], s⟩) (.pure b, ⟨[], [], s'⟩) := .op he
  exact hcs.trans (own_le hs)

end Made

/-! ## Connections -/

/-- The views agree on the first `n` calls of the store. -/
def Agree (n : ℕ) (past view : List Call → KV) : Prop :=
  ∀ calls, calls.length < n → view calls = past calls

/-- **A connection between two calls**: nothing is on the way, and the thread comes to reading an
opcode. -/
structure Idle (past : List Call → KV) (cs : List Call) (thread : Net Int) (l : Link Byte Unit) :
    Prop where
  pipes : ∀ i, l.pipe i = []
  opened : ∀ i, l.closed i = false
  runs : ∀ view, Agree cs.length past view →
    Eventually (Step (portEnv False (netAct view) (fun _ => True) .server) procs) (AtOpcode cs)
      (thread, ⟨[], [], cs⟩)

/-- **A connection during the call** `c`, begun after the calls `cs` of the store: whatever the map is
at the next of these, if the call completes with it, both sides come to the end. -/
def Calling (past : List Call → KV) (cs : List Call) (c : Call) (calls : List Call)
    (client : Net Outcome) (thread : Net Int) (l : Link Byte Unit) : Prop :=
  ∀ view, Agree calls.length past view → c.Completes (view cs) → ∃ q,
    Duet False (netAct view) (fun calls => cs ++ c.made <+: calls) procs (Ended (view cs) cs c)
      (c.reply (view cs)) (sides client thread) (serving l calls) q

/-- A connection, for a client of the map in the given phase. -/
inductive Conn : Option (Net Outcome) → Net Int → Link Byte Unit → Phase Call Outcome → Prop
  | idle {past : List Call → KV} {cs : List Call} {thread : Net Int} {l : Link Byte Unit}
    (h : Idle past cs thread l) : Conn none thread l .idle
  | waiting {past : List Call → KV} {cs : List Call} {c : Call} {client : Net Outcome}
    {thread : Net Int} {l : Link Byte Unit} (hl : c.strings.getLast? ≠ some [])
    (h : Calling past cs c cs client thread l) : Conn (some client) thread l (.waiting c)
  | done {past : List Call → KV} {cs : List Call} {c : Call} {client : Net Outcome}
    {thread : Net Int} {l : Link Byte Unit} (hne : c.made ≠ []) (hc : c.Completes (past cs))
    (h : Calling past cs c (cs ++ c.made) client thread l) :
    Conn (some client) thread l (.done (c.answer (past cs)))

section Conn

variable {past view : List Call → KV} {cs calls : List Call} {c : Call} {client client' : Net Outcome}
  {o : Option (Net Outcome)} {thread thread' : Net Int} {l l' : Link Byte Unit}
  {ph : Phase Call Outcome} {r : Outcome}

/-- The strings of a call have less than `2 ^ 31 - 1` bytes, and the last one is not empty. -/
structure Call.Fits (c : Call) : Prop where
  short : ∀ str ∈ c.strings, str.length < 2 ^ 31 - 1
  last : c.strings.getLast? ≠ some []

/-- No value is empty. -/
def Filled (m : KV) : Prop := ∀ key, m key ≠ some []

theorem Filled.completes {m : KV} (hm : Filled m) (hl : c.strings.getLast? ≠ some []) :
    c.Completes m := ⟨hl, fun key _ _ => hm key⟩

theorem Filled.storeAfter {m : KV} (hm : Filled m) (hl : c.strings.getLast? ≠ some []) :
    Filled (storeAfter m c.made) := by
  intro key h
  cases c with
  | get key' =>
    rw [Call.made] at h
    split_ifs at h <;> exact hm key h
  | set key' value =>
    have hne : value ≠ [] := fun h => hl (congrArg some h)
    rw [Call.made] at h
    split_ifs at h
    · exact hm key h
    · exact hm key h
    · change Function.update m key' (some value) key = some [] at h
      by_cases hk : key = key'
      · rw [hk, Function.update_self] at h
        exact hne (Option.some.inj h)
      · rw [Function.update_of_ne hk] at h
        exact hm key h
  | del key' =>
    rw [Call.made] at h
    split_ifs at h
    · exact hm key h
    · change Function.update m key' none key = some [] at h
      by_cases hk : key = key'
      · rw [hk, Function.update_self] at h
        cases h
      · rw [Function.update_of_ne hk] at h
        exact hm key h

theorem Call.completes_of_made {m : KV} (hl : c.strings.getLast? ≠ some []) (h : c.made = []) :
    c.Completes m := by
  refine ⟨hl, ?_⟩
  rintro key rfl hk
  rw [Call.made, if_neg (not_lt.mpr hk)] at h
  cases h

theorem Conn.invoke (h : Conn none thread l ph) : ph = .idle ∧
    (c.Fits → Conn (some c.drive.run) thread l (.waiting c)) := by
  cases h with
  | @idle past cs _ _ h =>
    refine ⟨rfl, fun hs => ?_⟩
    have hcall : Calling past cs c cs c.drive.run thread l := fun view hv hc =>
      ⟨callPorts (view cs) c (serving l cs).own,
        call_duet (l := serving l cs) h.pipes h.opened List.prefix_rfl hs.short hc (h.runs view hv)⟩
    exact .waiting hs.last hcall

variable (past cs) in
theorem Calling.exists_view (hl : c.strings.getLast? ≠ some []) : ∃ view,
    Agree cs.length past view ∧ c.Completes (view cs) := by
  refine ⟨Function.update past cs fun _ => none, fun calls hcalls => ?_, ?_⟩
  · exact Function.update_of_ne (by rintro rfl; exact lt_irrefl _ hcalls) ..
  · rw [Function.update_self]
    exact Filled.completes (fun _ => nofun) hl

theorem Calling.client_step (h : Calling past cs c calls client thread l)
    (hs : ∀ view calls, Step (linkEnv (netAct view) .client) procs (client, serving l calls)
      (client', serving l' calls)) : Calling past cs c calls client' thread l' := by
  intro view hv hc
  obtain ⟨q, hq⟩ := h view hv hc
  have hstep : ParStep (linkEnv (netAct view)) procs (sides client thread, serving l calls)
      (sides client' thread, serving l' calls) := parStep_client (hs view calls)
  exact hq.step stable_prefix ended_finished hstep

theorem Conn.client_step (h : Conn (some client) thread l ph)
    (hs : ∀ view calls, Step (linkEnv (netAct view) .client) procs (client, serving l calls)
      (client', serving l' calls)) : Conn (some client') thread l' ph := by
  cases h with
  | waiting hl h => exact .waiting hl (h.client_step hs)
  | done hne hc h => exact .done hne hc (h.client_step hs)

theorem Calling.thread_step (h : Calling past cs c calls client thread l)
    (hs : ∀ view calls, Step (linkEnv (netAct view) .server) procs (thread, serving l calls)
      (thread', serving l' calls)) : Calling past cs c calls client thread' l' := by
  intro view hv hc
  obtain ⟨q, hq⟩ := h view hv hc
  have hstep : ParStep (linkEnv (netAct view)) procs (sides client thread, serving l calls)
      (sides client thread', serving l' calls) := parStep_server (hs view calls)
  exact hq.step stable_prefix ended_finished hstep

theorem Idle.step (h : Idle past cs thread l) (hv : Agree cs.length past view)
    (hs : ∀ view calls, Step (linkEnv (netAct view) .server) procs (thread, serving l calls)
      (thread', serving l' calls)) : (∀ i, l'.pipe i = []) ∧ (∀ i, l'.closed i = false) ∧
        Eventually (Step (portEnv False (netAct view) (fun _ => True) .server) procs) (AtOpcode cs)
          (thread', ⟨[], [], cs⟩) := by
  have hj : Paired False (serving l cs) fun i => (⟨[], [], (serving l cs).own i⟩ : Port Byte (List Call)) :=
    .of_opened (fun i => by rw [show (serving l cs).pipe i = [] from h.pipes i]; rfl) h.opened
      fun _ => rfl
  cases h.runs view hv with
  | now hnow =>
    obtain ⟨⟨code, rfl⟩, -⟩ := hnow
    refine absurd (hs view cs) (hj.not_step ?_)
    exact ⟨rfl, rfl, not_false, 4, false, _, rfl⟩
  | step hex hall =>
    obtain ⟨q', hq, hj'⟩ := hj.step (hs view cs) hex
    obtain ⟨_, s', e, -⟩ := (Step.later_iff hex).mp hq
    cases e
    have hown := hj'.own .server
    rw [Function.update_self] at hown
    obtain rfl : cs = s' := hown
    refine ⟨fun i => ?_, hj'.opened, hall _ hq⟩
    have hin := hj'.incoming i
    cases i with
    | client =>
      rw [Function.update_of_ne (by decide)] at hin
      exact (List.append_eq_nil_iff.mp hin.symm).1
    | server =>
      rw [Function.update_self] at hin
      exact (List.append_eq_nil_iff.mp hin.symm).1

theorem Idle.thread_step (h : Idle past cs thread l)
    (hs : ∀ view calls, Step (linkEnv (netAct view) .server) procs (thread, serving l calls)
      (thread', serving l' calls)) : Idle past cs thread' l' := by
  obtain ⟨h1, h2, -⟩ := h.step (fun _ _ => rfl) hs
  exact ⟨h1, h2, fun view hv => (h.step hv hs).2.2⟩

theorem Conn.thread_step (h : Conn o thread l ph)
    (hs : ∀ view calls, Step (linkEnv (netAct view) .server) procs (thread, serving l calls)
      (thread', serving l' calls)) : Conn o thread' l' ph := by
  cases h with
  | idle h => exact .idle (h.thread_step hs)
  | waiting hl h => exact .waiting hl (h.thread_step hs)
  | done hne hc h => exact .done hne hc (h.thread_step hs)

theorem Call.made_eq {c c' : Call} (h : [c'] <+: c.made) : c.made = [c'] := by
  have hlen : c.made.length ≤ 1 := by
    cases c <;> rw [Call.made] <;> split_ifs <;> simp
  exact (h.eq_of_length_le hlen).symm

theorem Calling.next_le {β : Type} {e : NetEff β} {f : β → Net Int} {c' : Call}
    (h : Calling past cs c calls client (.op e f) l) (hv : Agree calls.length past view)
    (hm : c.Completes (view cs)) (hc : storeCall e = some c') :
    calls ++ [c'] <+: cs ++ c.made := by
  obtain ⟨q, hq⟩ := h view hv hm
  have hown : calls = (q .server).own := hq.paired.own .server
  rw [hown]
  exact next_le_of_eventually (hq.runs .server) hc

/-- **A call of the store** is that of the call under way, which it answers. -/
theorem Conn.store_step {β : Type} {e : NetEff β} {f : β → Net Int} {c' : Call}
    (h : Conn o (.op e f) l ph) (hc : storeCall e = some c') :
    ∃ c, ph = .waiting c ∧ c.made = [c'] ∧ c.strings.getLast? ≠ some [] ∧
      ∀ m b, StoreAnswer m e b → c.Completes m → Conn o (f b) l (.done (c.answer m)) := by
  cases h with
  | @idle past cs _ _ h =>
    have hle := next_le_of_eventually (h.runs past fun _ _ => rfl) hc
    exact absurd hle.length_le (by simp)
  | @waiting past cs c client _ _ hl h =>
    obtain ⟨view₀, hv₀, hm₀⟩ := Calling.exists_view past cs hl
    have hmade : c.made = [c'] :=
      Call.made_eq ((List.prefix_append_right_inj cs).mp (h.next_le hv₀ hm₀ hc))
    refine ⟨c, rfl, hmade, hl, fun m b hb hcm => ?_⟩
    have hans : (Function.update past cs m) cs = m := Function.update_self ..
    have hdone : Conn (some client) (f b) l (.done (c.answer ((Function.update past cs m) cs))) := by
      refine .done (by rw [hmade]; nofun) (by rwa [hans]) fun view hv hcv => ?_
      rw [hmade] at hv ⊢
      have hm : view cs = m := by rw [hv cs (by simp), hans]
      have hpast : Agree cs.length past view := fun calls hcalls => by
        rw [hv calls (by rw [List.length_append]; omega), Function.update_of_ne]
        rintro rfl
        exact lt_irrefl _ hcalls
      obtain ⟨q, hq⟩ := h view hpast hcv
      have hstep : ParStep (linkEnv (netAct view)) procs (sides client (.op e f), serving l cs)
          (sides client (f b), serving l (cs ++ [c'])) :=
        parStep_server (.op (linkEnv_storeCall hc (hm ▸ hb)))
      rw [← hmade] at hstep ⊢
      exact hq.step stable_prefix ended_finished hstep
    rwa [hans] at hdone
  | @done past cs c client _ _ hne hcm h =>
    have hle := h.next_le (fun _ _ => rfl) hcm hc
    exact absurd hle.length_le (by simp)

/-- **The end of a call.** -/
theorem Calling.returned (h : Calling past cs c calls (.pure r) thread l)
    (hcalls : calls = cs ∨ calls = cs ++ c.made) (hv : Agree calls.length past view)
    (hc : c.Completes (view cs)) : r = c.answer (view cs) ∧ calls = cs ++ c.made ∧ (∀ i, l.pipe i = []) ∧
      (∀ i, l.closed i = false) ∧
      Eventually (Step (portEnv False (netAct view) (fun _ => True) .server) procs) (AtOpcode calls)
        (thread, ⟨[], [], calls⟩) := by
  obtain ⟨q, hq⟩ := h view hv hc
  obtain ⟨⟨hres, -, -⟩, hpipes, s, hs, hready⟩ :=
    hq.returned ended_finished (c.reply_ne_nil _) (show sides (.pure r) thread .client = _ from rfl)
  have hown : calls = (q .server).own := hq.paired.own .server
  rw [hs] at hown
  subst hown
  have hall : calls = cs ++ c.made := by
    refine hcalls.elim (fun e => ?_) id
    subst e
    have hnil : c.made = [] := by
      have := hready.length_le
      rw [List.length_append] at this
      exact List.length_eq_zero_iff.mp (by omega)
    rw [hnil, List.append_nil]
  have hruns := hq.runs .server
  rw [hs] at hruns
  refine ⟨by cases hres; rfl, hall, hpipes, hq.paired.opened, ?_⟩
  refine hruns.later.mono ?_
  rintro ⟨p, q'⟩ ⟨_, ⟨hcode, rfl⟩, rfl⟩
  exact ⟨hcode, hall ▸ rfl⟩

theorem Calling.idle (h : Calling past cs c calls (.pure r) thread l)
    (hcalls : calls = cs ∨ calls = cs ++ c.made)
    (hc : ∀ view, Agree calls.length past view → c.Completes (view cs)) :
    Idle past calls thread l := by
  obtain ⟨-, -, h1, h2, -⟩ := h.returned hcalls (fun _ _ => rfl) (hc _ fun _ _ => rfl)
  exact ⟨h1, h2, fun view hv => (h.returned hcalls hv (hc view hv)).2.2.2.2⟩

/-- **A call returns** what the map answers; if it has made no call of the store, whatever the map
is. -/
theorem Conn.result (h : Conn (some (.pure r)) thread l ph) : Conn none thread l .idle ∧
    (ph = .done r ∨ ∃ c, ph = .waiting c ∧ c.made = [] ∧ ∀ m, c.answer m = r) := by
  cases h with
  | @waiting past cs c _ _ _ hl h =>
    obtain ⟨view₀, hv₀, hm₀⟩ := Calling.exists_view past cs hl
    have hmade : c.made = [] := List.append_cancel_left
      ((h.returned (Or.inl rfl) hv₀ hm₀).2.1.symm.trans (List.append_nil cs).symm)
    have hc : ∀ m, c.Completes m := fun m => Call.completes_of_made hl hmade
    refine ⟨.idle (h.idle (Or.inl rfl) fun _ _ => hc _), Or.inr ⟨c, rfl, hmade, fun m => ?_⟩⟩
    have hv : Agree cs.length past (Function.update past cs m) := fun calls hcalls =>
      Function.update_of_ne (by rintro rfl; exact lt_irrefl _ hcalls) ..
    rw [(h.returned (Or.inl rfl) hv (hc _)).1, Function.update_self]
  | @done past cs c _ _ _ hne hcm h =>
    have hc : ∀ view, Agree (cs ++ c.made).length past view → c.Completes (view cs) :=
      fun view hv => by
      rwa [hv cs]
      rw [List.length_append]
      have := List.length_pos_iff.mpr hne
      omega
    refine ⟨.idle (h.idle (Or.inr rfl) hc), Or.inl ?_⟩
    rw [(h.returned (Or.inr rfl) (fun _ _ => rfl) hcm).1]

end Conn

/-! ## The map -/

section Map

variable {env : κ → Env NetEff (Hub κ × τ)} {Rep : KV → τ → Prop}
  {x x' : System κ NetEff NetProc τ} {y : (κ → Phase Call Outcome) × KV}
  {e : Option (Event κ Call Outcome)}

/-- **The system and the map**: the store holds the map, no value of which is empty, and every
connection is one of a client of the map. -/
structure Tracks (Rep : KV → τ → Prop) (x : System κ NetEff NetProc τ)
    (y : (κ → Phase Call Outcome) × KV) : Prop where
  store : Rep y.2 x.store
  filled : Filled y.2
  conn : ∀ k, Conn (x.client k) (x.thread k) (x.hub.link k) (y.1 k)

theorem hub_client {k : κ} {p p' : Net Outcome} {s s' : Hub κ}
    (hs : Step (hubEnv k .client) procs (p, s) (p', s')) : (∀ j ≠ k, s'.link j = s.link j) ∧
      ∀ view calls, Step (linkEnv (netAct view) .client) procs (p, serving (s.link k) calls)
        (p', serving (s'.link k) calls) := by
  cases hs with
  | call => exact ⟨fun _ _ => rfl, fun _ _ => .call⟩
  | op he =>
    obtain ⟨hoth, hl⟩ := hub_step he
    exact ⟨hoth, fun view calls => .op (hl view calls)⟩

theorem Call.short_of_made {c c' : Call} (h : c' ∈ c.made) :
    ∀ str ∈ c'.strings, str.length ≤ maxStrLen := by
  cases c with
  | get key =>
    rw [Call.made] at h
    split_ifs at h with hk
    · cases h
    · cases List.mem_singleton.mp h
      simpa [Call.strings] using hk
  | set key value =>
    rw [Call.made] at h
    split_ifs at h with hk hv
    · cases h
    · cases h
    · cases List.mem_singleton.mp h
      simpa [Call.strings] using And.intro (not_lt.mp hk) (not_lt.mp hv)
  | del key =>
    rw [Call.made] at h
    split_ifs at h with hk
    · cases h
    · cases List.mem_singleton.mp h
      simpa [Call.strings] using hk

theorem Tracks.invoke {ph : κ → Phase Call Outcome} {m : KV} {k : κ} {c : Call}
    (hx : Tracks Rep x (ph, m)) (h : x.client k = none)
    (hs : c.Fits) : ph k = .idle ∧
      Tracks Rep { x with client := Function.update x.client k (some c.drive.run) }
        (Function.update ph k (.waiting c), m) := by
  have hk := hx.conn k
  rw [h] at hk
  obtain ⟨hph, hcall⟩ := hk.invoke (c := c)
  refine ⟨hph, hx.store, hx.filled, fun j => ?_⟩
  dsimp only
  by_cases hj : j = k
  · subst hj
    rw [Function.update_self, Function.update_self]
    exact hcall hs
  · rw [Function.update_of_ne hj, Function.update_of_ne hj]
    exact hx.conn j

theorem Tracks.client {k : κ} {p p' : Net Outcome} {hub : Hub κ} (hx : Tracks Rep x y)
    (h : x.client k = some p) (hs : Step (hubEnv k .client) procs (p, x.hub) (p', hub)) :
    Tracks Rep { x with client := Function.update x.client k (some p'), hub := hub } y := by
  obtain ⟨hoth, hl⟩ := hub_client hs
  refine ⟨hx.store, hx.filled, fun j => ?_⟩
  dsimp only
  by_cases hj : j = k
  · subst hj
    have hk := hx.conn j
    rw [h] at hk
    rw [Function.update_self]
    exact hk.client_step hl
  · rw [Function.update_of_ne hj, hoth j hj]
    exact hx.conn j

theorem Tracks.thread {k : κ} {p : Net Int} {hub : Hub κ} (hx : Tracks Rep x y)
    (hoth : ∀ j ≠ k, hub.link j = x.hub.link j)
    (hl : ∀ view calls, Step (linkEnv (netAct view) .server) procs
      (x.thread k, serving (x.hub.link k) calls) (p, serving (hub.link k) calls)) :
    Tracks Rep { x with thread := Function.update x.thread k p, hub := hub } y := by
  refine ⟨hx.store, hx.filled, fun j => ?_⟩
  dsimp only
  by_cases hj : j = k
  · subst hj
    rw [Function.update_self]
    exact (hx.conn j).thread_step hl
  · rw [Function.update_of_ne hj, hoth j hj]
    exact hx.conn j

/-- **A thread calls the store**: the call of its client takes effect. -/
theorem Tracks.call (ho : StoreObject env Rep) {ph : κ → Phase Call Outcome} {m : KV} {k : κ}
    {β : Type} {e : NetEff β} {f : β → Net Int} {c' : Call} {b : β} {hub : Hub κ} {store : τ}
    (hx : Tracks Rep x (ph, m)) (ht : x.thread k = .op e f) (hc : storeCall e = some c')
    (he : env k β e (x.hub, x.store) b (hub, store)) : ∃ c, ph k = .waiting c ∧
      Tracks Rep { x with thread := Function.update x.thread k (f b), hub := hub, store := store }
        (Function.update ph k (.done (c.answer m)), storeAfter m c.made) := by
  have hk := hx.conn k
  rw [ht] at hk
  obtain ⟨c, hph, hmade, hlast, hdone⟩ := hk.store_step hc
  have hshort := Call.short_of_made (hmade ▸ List.mem_singleton_self c')
  obtain ⟨hans, hrep⟩ := ho.call k β e c' _ b _ m hc hshort hx.store he
  obtain rfl : hub = x.hub := ho.hub k β e _ b _ (by rw [hc]; nofun) he
  refine ⟨c, hph, ?_, hx.filled.storeAfter hlast, fun j => ?_⟩
  · rw [hmade]
    exact hrep
  · dsimp only
    by_cases hj : j = k
    · subst hj
      rw [Function.update_self, Function.update_self]
      exact hdone m b hans (hx.filled.completes hlast)
    · rw [Function.update_of_ne hj, Function.update_of_ne hj]
      exact hx.conn j

theorem Tracks.result {ph : κ → Phase Call Outcome} {m : KV} {k : κ} {r : Outcome}
    (hx : Tracks Rep x (ph, m)) (h : x.client k = some (.pure r)) :
    Tracks Rep { x with client := Function.update x.client k none }
      (Function.update ph k .idle, m) ∧
      (ph k = .done r ∨ ∃ c, ph k = .waiting c ∧ c.made = [] ∧ ∀ m, c.answer m = r) := by
  have hk := hx.conn k
  rw [h] at hk
  obtain ⟨hidle, hph⟩ := hk.result
  refine ⟨⟨hx.store, hx.filled, fun j => ?_⟩, hph⟩
  dsimp only
  by_cases hj : j = k
  · subst hj
    rwa [Function.update_self, Function.update_self]
  · rw [Function.update_of_ne hj, Function.update_of_ne hj]
    exact hx.conn j

/-- The result of a call: one that has taken effect, or one that the server has refused. -/
theorem Tracks.result_does {ph : κ → Phase Call Outcome} {m : KV} {k : κ} {r : Outcome}
    (hx : Tracks Rep x (ph, m)) (h : x.client k = some (.pure r)) :
    Tracks Rep { x with client := Function.update x.client k none }
      (Function.update ph k .idle, m) ∧
      Does callObject (ph, m) (some (.result k r)) (Function.update ph k .idle, m) := by
  obtain ⟨hx', hph | ⟨c, hph, hmade, hans⟩⟩ := hx.result h
  · exact ⟨hx', .step (.result hph)⟩
  · have hs : AtomicStep callObject (ph, m) none
      (Function.update ph k (.done (c.answer m)), storeAfter m c.made) := .perform hph
    rw [hmade, hans m] at hs
    have hs' : AtomicStep callObject (Function.update ph k (.done r), m) (some (.result k r))
      (Function.update (Function.update ph k (.done r)) k .idle, m) := .result (Function.update_self ..)
    rw [Function.update_idem] at hs'
    exact ⟨hx', .both hs hs'⟩

/-- **One step** of the system is one of clients of a map, or none. -/
theorem SystemStep.tracked (ho : StoreObject env Rep) (hx : Tracks Rep x y)
    (hok : ∀ k c, e = some (.invoke k c) → c.Fits)
    (hs : SystemStep env procs x e x') : ∃ y', Does callObject y e y' ∧ Tracks Rep x' y' := by
  obtain ⟨ph, m⟩ := y
  cases hs with
  | invoke k c h =>
    obtain ⟨hph, hx'⟩ := hx.invoke h (hok _ c rfl)
    exact ⟨_, .step (.invoke hph), hx'⟩
  | client k h hs => exact ⟨_, .nothing, hx.client h hs⟩
  | @thread k p hub store hs =>
    rcases ho.step hs with ⟨rfl, hoth, hl⟩ | ⟨β, e, f, c, b, ht, rfl, hc, he⟩
    · exact ⟨_, .nothing, hx.thread hoth hl⟩
    · obtain ⟨c', hph, hx'⟩ := hx.call ho ht hc he
      exact ⟨_, .step (.perform hph), hx'⟩
  | result k r h =>
    obtain ⟨hx', hdoes⟩ := hx.result_does h
    exact ⟨_, hdoes, hx'⟩

end Map

end MyJQL.Server
