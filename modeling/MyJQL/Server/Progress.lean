import MyJQL.Server.Stack

/-!
# Every call comes to its end

Nothing in the system waits for ever, and nothing goes on for ever.

* `OnSocket`, `Call.onSocket`: the driver does nothing but send, receive and allocate;
* `Going`, `Conn.going`: both sides of a connection come to where they are done;
* `Live`: what holds of the system in every run; **`Live.step`**: a step brings a call closer to its
  end, or is one of a connection;
* **`stack_atomic`**, **`stack_order`**: in every interleaving, effect by effect, the clients see one
  map, and one order of their calls explains all results;
* **`stack_progress`**: all calls that clients have begun return, whatever the order of steps.
-/

set_option linter.unusedSimpArgs false

namespace MyJQL.Server

/-! ## The driver -/

/-- The program sends, receives and allocates, and does nothing else. -/
abbrev OnSocket {ε α : Type} (x : ExceptT ε Net α) : Prop :=
  x.run.Only fun β e => lockUse β e = .outside

section OnSocket

variable {ε α β : Type} {x : ExceptT ε Net α} {g : α → ExceptT ε Net β} {data : List Byte}
  {code : CInt}

theorem onSocket_pure (a : α) : OnSocket (pure a : ExceptT ε Net α) := trivial

theorem onSocket_throw (e : ε) : OnSocket (throw e : ExceptT ε Net α) := trivial

theorem onSocket_bind (hx : OnSocket x) (hg : ∀ a, OnSocket (g a)) : OnSocket (x >>= g) :=
  only_bind (f := ExceptT.bindCont g) hx fun
    | .ok a => hg a
    | .error _ => trivial

theorem onSocket_eff {e : NetEff α} (hu : lockUse α e = .outside) :
    OnSocket (ExceptT.lift (.eff e) : ExceptT ε Net α) := ⟨hu, fun _ => trivial⟩

theorem onSocket_ite {c : Prop} [Decidable c] {y : ExceptT ε Net α} (hx : OnSocket x)
    (hy : OnSocket y) : OnSocket (if c then x else y) := by
  split_ifs
  · exact hx
  · exact hy

theorem onSocket_sendBytes : OnSocket (Client.sendBytes data) :=
  onSocket_bind (onSocket_eff rfl) fun _ => onSocket_ite (onSocket_pure _) (onSocket_throw _)

theorem onSocket_recvCode : OnSocket (Client.recvCode code) := by
  refine onSocket_bind (onSocket_eff rfl) fun b => ?_
  cases b with
  | none => exact onSocket_throw _
  | some bytes => exact onSocket_pure _

theorem onSocket_sendString {str : List Byte} : OnSocket (Client.sendString str) :=
  onSocket_bind onSocket_sendBytes fun _ => onSocket_bind onSocket_sendBytes fun _ => onSocket_pure _

theorem onSocket_get {key : List Byte} : OnSocket (Client.get key) := by
  refine onSocket_bind onSocket_sendBytes fun _ => onSocket_bind onSocket_sendString fun _ =>
    onSocket_bind onSocket_recvCode fun code => ?_
  refine onSocket_ite (onSocket_pure _) (onSocket_ite ?_ (onSocket_ite (onSocket_throw _)
    (onSocket_throw _)))
  refine onSocket_bind onSocket_recvCode fun code => onSocket_bind (onSocket_eff rfl) fun buf =>
    onSocket_bind (onSocket_eff rfl) fun b => ?_
  cases b with
  | none => exact onSocket_throw _
  | some bytes =>
    refine onSocket_ite (onSocket_throw _) ?_
    cases buf with
    | none => exact ⟨rfl, nofun⟩
    | some buf => exact onSocket_pure _

/-- **The driver** sends, receives and allocates, and does nothing else. -/
theorem Call.onSocket (c : Call) : OnSocket c.drive := by
  cases c with
  | get key => exact onSocket_get
  | set key value =>
    refine onSocket_bind (onSocket_bind onSocket_sendBytes fun _ => onSocket_bind onSocket_sendString
      fun _ => onSocket_bind onSocket_sendString fun _ => onSocket_bind onSocket_recvCode fun _ => ?_)
      fun _ => onSocket_pure _
    exact onSocket_ite (onSocket_pure _) (onSocket_ite (onSocket_throw _) (onSocket_ite
      (onSocket_throw _) (onSocket_throw _)))
  | del key =>
    refine onSocket_bind (onSocket_bind onSocket_sendBytes fun _ => onSocket_bind onSocket_sendString
      fun _ => onSocket_bind onSocket_recvCode fun _ => ?_) fun _ => onSocket_pure _
    exact onSocket_ite (onSocket_pure _) (onSocket_ite (onSocket_throw _) (onSocket_throw _))

end OnSocket

/-! ## Connections -/

/-- Where a side of a connection is done: the call has returned, or an opcode is read next. -/
def Come (goal : List Call) :
    (i : Side) → Prog NetEff NetProc (Outcomes i) × Port Byte (List Call) → Prop
  | .client => fun x => (∃ r, x.1 = .pure r) ∧ x.2.incoming = [] ∧ x.2.unsent = []
  | .server => AtOpcode goal

/-- Both sides come to where they are done, as they do by themselves. -/
structure Going (view : List Call → KV) (ready : List Call → Prop) (goal calls : List Call)
    (client : Net Outcome) (thread : Net Int) (l : Link Byte Unit)
    (q : Side → Port Byte (List Call)) :
    Prop where
  paired : Paired False (serving l calls) q
  runs : ∀ i, Eventually (Step (portEnv False (netAct view) ready i) procs) (Come goal i)
    (sides client thread i, q i)

section Connections

variable {view : List Call → KV} {ready : List Call → Prop} {goal calls : List Call}
  {o : Option (Net Outcome)} {client : Net Outcome} {thread : Net Int} {l : Link Byte Unit}
  {ph : Phase Call Outcome}

theorem come_finished (i : Side) (x : Prog NetEff NetProc (Outcomes i) × Port Byte (List Call))
    (hx : Come goal i x) : Finished False (netAct view) x := by
  obtain ⟨p, q⟩ := x
  cases i with
  | client =>
    obtain ⟨⟨r, rfl⟩, hin, hun⟩ := hx
    exact ⟨hin, hun, trivial⟩
  | server =>
    obtain ⟨⟨code, rfl⟩, rfl⟩ := hx
    exact ⟨rfl, rfl, not_false, 4, false, _, rfl⟩

theorem ended_come {m : KV} {cs : List Call} {c : Call} (i : Side)
    (x : Prog NetEff NetProc (Outcomes i) × Port Byte (List Call)) (hx : Ended m cs c i x) :
    Come (cs ++ c.made) i x := by
  cases i with
  | client =>
    obtain ⟨hp, hq⟩ := hx
    exact ⟨⟨_, hp⟩, hq⟩
  | server => exact hx

/-- The program of a client, which between two calls is one that has returned. -/
def clientOf (o : Option (Net Outcome)) : Net Outcome := o.getD (.pure (.ok none))

/-- **Both sides of a connection** come to where they are done. -/
theorem Conn.going (h : Conn o thread l ph) :
    ∃ view ready goal calls q, Going view ready goal calls (clientOf o) thread l q := by
  cases h with
  | @idle past cs _ _ h =>
    refine ⟨past, fun _ => True, cs, cs, fun i => ⟨[], [], (serving l cs).own i⟩,
      .of_opened (fun i => ?_) h.opened fun _ => rfl, fun i => ?_⟩
    · rw [show (serving l cs).pipe i = [] from h.pipes i]
      rfl
    · cases i with
      | client => exact .now ⟨⟨_, rfl⟩, rfl, rfl⟩
      | server => exact h.runs past fun _ _ => rfl
  | @waiting past cs c _ _ _ hl h =>
    obtain ⟨view, hv, hm⟩ := Calling.exists_view past cs hl
    obtain ⟨q, hq⟩ := h view hv hm
    exact ⟨view, _, _, cs, q, hq.paired, fun i => (hq.runs i).mono (ended_come i)⟩
  | @done past cs c _ _ _ _ hc h =>
    obtain ⟨q, hq⟩ := h past (fun _ _ => rfl) hc
    exact ⟨past, _, _, _, q, hq.paired, fun i => (hq.runs i).mono (ended_come i)⟩

end Connections

/-! ## What goes on -/

section Enabled

variable {κ : Type} [DecidableEq κ] {k : κ} {i : Side} {view : List Call → KV} {calls : List Call}
  {β : Type} {e : NetEff β} {b : β} {s : Hub κ} {l' : Link Byte (List Call)}

/-- What goes on on the connection goes on in the system, outside the critical section. -/
theorem hubEnv_enabled (hu : lockUse β e = .outside)
    (he : linkEnv (netAct view) i β e (serving (s.link k) calls) b l') :
    ∃ b s', hubEnv k i β e s b s' := by
  have hsock : (∃ b l, linkEnv sockAct i β e (s.link k) b l) → ∃ b s', ∃ l,
      linkEnv sockAct i β e (s.link k) b l ∧ s' = { s with link := Function.update s.link k l } :=
    fun ⟨b, l, h⟩ => ⟨b, _, l, h, rfl⟩
  cases e with
  | recv null n =>
    obtain ⟨hn, -, -⟩ := (linkEnv_recv rfl).mp he
    exact hsock ⟨_, _, (linkEnv_recv rfl).mpr ⟨hn, rfl, rfl⟩⟩
  | send data => exact hsock ⟨_, _, (linkEnv_send rfl).mpr ⟨rfl, rfl⟩⟩
  | shutdown =>
    exact hsock ⟨b, { s.link k with closed := Function.update (s.link k).closed i true }, trivial, rfl⟩
  | closesocket =>
    exact hsock ⟨b, { s.link k with closed := Function.update (s.link k).closed i true }, trivial, rfl⟩
  | malloc n =>
    obtain ⟨_, ⟨hb, -⟩, -⟩ := (linkEnv_own rfl).mp he
    exact hsock ⟨b, _, (linkEnv_own rfl).mpr ⟨(), hb, rfl⟩⟩
  | myjqlClose =>
    obtain ⟨_, h, -⟩ := (linkEnv_own rfl).mp he
    exact h.elim
  | exit =>
    obtain ⟨_, h, -⟩ := (linkEnv_own rfl).mp he
    exact h.elim
  | undefined => exact b.elim
  | _ => cases hu

end Enabled

/-- The keys that a call sets are among these. -/
def Call.SetsIn (K : Finset (List Byte)) (c : Call) : Prop :=
  ∀ key value, c = .set key value → key ∈ K

section Live

variable {κ : Type} [DecidableEq κ] {after : ℕ → Byte} {K : Finset (List Byte)}
  {y y' : System κ NetEff NetProc Machine} {z : (κ → Phase Call Outcome) × KV} {k : κ}

/-- What holds throughout a run whose keys are among `K`. -/
structure Live (K : Finset (List Byte)) (y : System κ NetEff NetProc Machine)
    (z : (κ → Phase Call Outcome) × KV) : Prop where
  tracks : Tracks StoreHolds y z
  disciplined : ∀ k, Disciplined lockUse Hub.owner k (y.thread k) y.hub
  client : ∀ k, OnSocket (clientOf (y.client k))
  keys : ∀ key, z.2 key ≠ none → key ∈ K
  waiting : ∀ k c, z.1 k = .waiting c → c.SetsIn K

/-- A step on one connection, outside the store. -/
inductive LocalStep (y : System κ NetEff NetProc Machine) : System κ NetEff NetProc Machine → Prop
  | client (k : κ) {p p' : Net Outcome} {hub : Hub κ} (h : y.client k = some p)
    (hoth : ∀ j ≠ k, hub.link j = y.hub.link j)
    (hs : ∀ view calls, Step (linkEnv (netAct view) .client) procs
      (p, serving (y.hub.link k) calls) (p', serving (hub.link k) calls)) :
    LocalStep y { y with client := Function.update y.client k (some p'), hub := hub }
  | thread (k : κ) {p : Net Int} {hub : Hub κ} (hoth : ∀ j ≠ k, hub.link j = y.hub.link j)
    (hs : ∀ view calls, Step (linkEnv (netAct view) .server) procs
      (y.thread k, serving (y.hub.link k) calls) (p, serving (hub.link k) calls)) :
    LocalStep y { y with thread := Function.update y.thread k p, hub := hub }

theorem Live.client_update (hx : Live K y z) {o : Option (Net Outcome)} (ho : OnSocket (clientOf o))
    (j : κ) : OnSocket (clientOf (Function.update y.client k o j)) := by
  by_cases hj : j = k
  · subst hj
    rwa [Function.update_self]
  · rw [Function.update_of_ne hj]
    exact hx.client j

theorem Live.waiting_update (hx : Live K y z) {p : Phase Call Outcome}
    (hp : ∀ c, p = .waiting c → c.SetsIn K) (j : κ) (c : Call)
    (hj : Function.update z.1 k p j = .waiting c) : c.SetsIn K := by
  by_cases hjk : j = k
  · subst hjk
    rw [Function.update_self] at hj
    exact hp c hj
  · rw [Function.update_of_ne hjk] at hj
    exact hx.waiting j c hj

theorem keys_storeAfter {c : Call} {m : KV} (hm : ∀ key, m key ≠ none → key ∈ K) (hc : c.SetsIn K)
    (key : List Byte) (h : storeAfter m c.made key ≠ none) : key ∈ K := by
  rw [c.storeAfter_made] at h
  cases c with
  | get key' =>
    rw [Call.onMap] at h
    split_ifs at h
    · exact hm key h
    · exact hm key h
  | set key' value =>
    rw [Call.onMap] at h
    split_ifs at h
    · exact hm key h
    · exact hm key h
    · by_cases hk : key = key'
      · exact hk ▸ hc _ _ rfl
      · dsimp only at h
        rw [Function.update_of_ne hk] at h
        exact hm key h
  | del key' =>
    rw [Call.onMap] at h
    split_ifs at h
    · exact hm key h
    · dsimp only at h
      by_cases hk : key = key'
      · rw [hk, Function.update_self] at h
        exact absurd rfl h
      · rw [Function.update_of_ne hk] at h
        exact hm key h

/-- **A step** begins a call, brings one closer to its end, or is one on a connection. -/
theorem Live.step [Fintype κ] {e : Option (Event κ Call Outcome)} (hx : Live K y z)
    (hok : ∀ k c, e = some (.invoke k c) → c.Fits ∧ c.SetsIn K)
    (hs : AtomicStackStep after y e y') :
    (∃ z', Does callObject z e z' ∧ Live K y' z' ∧ ((∃ k c, e = some (.invoke k c)) ∨
      ∑ k, (z'.1 k).rank < ∑ k, (z.1 k).rank)) ∨
      (Does callObject z e z ∧ Live K y' z ∧ LocalStep y y') := by
  obtain ⟨ph, m⟩ := z
  cases hs with
  | invoke k c h =>
    obtain ⟨hshort, hK⟩ := hok k c rfl
    obtain ⟨hph, ht⟩ := hx.tracks.invoke h hshort
    refine Or.inl ⟨_, .step (.invoke hph), ⟨ht, hx.disciplined, hx.client_update c.onSocket, hx.keys,
      hx.waiting_update ?_⟩, Or.inl ⟨k, c, rfl⟩⟩
    rintro _ ⟨⟩
    exact hK
  | @client k p p' hub h hs =>
    obtain ⟨hoth, hl⟩ := hub_client hs
    have hp := hx.client k
    rw [h] at hp
    refine Or.inr ⟨.nothing, ⟨hx.tracks.client h hs, fun j => ?_, hx.client_update (hs.only hp),
      hx.keys, hx.waiting⟩, .client k h hoth hl⟩
    exact (hx.disciplined j).congr (by rw [hubEnv_client_owner hs])
  | @thread k p hub store hs =>
    have hd := Atomic.disciplined_update (locking after) procs_guarded hx.disciplined hs
    rcases (storeObject after).step hs with ⟨rfl, hoth, hl⟩ | ⟨β, e, f, c, b, ht, rfl, hc, he⟩
    · exact Or.inr ⟨.nothing, ⟨hx.tracks.thread hoth hl, hd, hx.client, hx.keys, hx.waiting⟩,
        .thread k hoth hl⟩
    · obtain ⟨c', hph, ht'⟩ := hx.tracks.call (storeObject after) ht hc he
      refine Or.inl ⟨_, .step (.perform hph), ⟨ht', hd, hx.client, ?_, hx.waiting_update nofun⟩,
        Or.inr ?_⟩
      · exact keys_storeAfter hx.keys (hx.waiting k c' hph)
      · refine sum_update_lt Phase.rank ?_
        rw [hph]
        exact Nat.one_lt_two
  | result k r h =>
    obtain ⟨-, hph⟩ := hx.tracks.result h
    obtain ⟨ht, hdoes⟩ := hx.tracks.result_does h
    refine Or.inl ⟨_, hdoes, ⟨ht, hx.disciplined, hx.client_update trivial, hx.keys,
      hx.waiting_update nofun⟩, Or.inr (sum_update_lt Phase.rank ?_)⟩
    rcases hph with hph | ⟨c, hph, -⟩
    · rw [hph]
      exact Nat.zero_lt_one
    · rw [hph]
      exact Nat.zero_lt_two

/-! ## Enough keys -/

omit [DecidableEq κ] in
theorem Live.few (hx : Live K y z) (hK : K.card < maxKeys) : Few z.2 := by
  have hsub : {key | z.2 key ≠ none} ⊆ (K : Set (List Byte)) := fun key h => hx.keys key h
  have h := Set.ncard_le_ncard hsub K.finite_toSet
  rw [Set.ncard_coe_finset] at h
  exact h.trans_lt hK

omit [DecidableEq κ] in
/-- **A call of the store** comes to its end. -/
theorem Live.store_returns (hx : Live K y z) (hK : K.card < maxKeys) {β : Type} {e : NetEff β}
    {f : β → Net Int} {p : M β} (ht : y.thread k = .op e f) (hp : storeCode after β e = some p) :
    ∃ b t, Returns machineSem (procBody degree storeHandlers) p y.store b t := by
  obtain ⟨c, hc⟩ := Option.ne_none_iff_exists'.mp fun h : storeCall e = none => by
    rw [storeCode_none.mpr h] at hp
    cases hp
  have hk := hx.tracks.conn k
  rw [ht] at hk
  obtain ⟨c', -, hmade, -, -⟩ := hk.store_step hc
  obtain ⟨rows, s, ⟨hh, hst⟩, hm⟩ := hx.tracks.store
  obtain ⟨b, -, t, hr, -⟩ := wp.simulated machine_simulates hh (wp_storeCode hst hm
    (fun _ => hx.few hK) hp hc (Call.short_of_made (hmade ▸ List.mem_singleton_self c)))
  exact ⟨b, t, hr⟩

/-! ## The next step -/

/-- The environment of a thread of the server, with calls of the store at once. -/
abbrev threadEnv (after : ℕ → Byte) (k : κ) : Env NetEff (Hub κ × Machine) :=
  atomicEnv (storeCode after) (hubEnv k .server) machineSem (procBody degree storeHandlers)

/-- **The thread in the critical section** goes on. -/
theorem Live.owner_goes (hx : Live K y z) (hK : K.card < maxKeys) (ho : y.hub.owner = some k) :
    ∃ c, Step (threadEnv after k) procs (y.thread k, (y.hub, y.store)) c := by
  obtain ⟨h, hi, hg⟩ := hx.disciplined k
  obtain rfl := hi.mpr ho
  cases hp : y.thread k with
  | pure r =>
    rw [hp] at hg
    cases hg
  | call c f =>
    rw [hp] at hg
    cases hg.1
  | @op β e f =>
    rw [hp] at hg
    cases hu : lockUse β e with
    | acquire => cases ((guarded_acquire hu).mp hg).1
    | outside => cases ((guarded_outside hu).mp hg).1
    | release =>
      cases e with
      | leaveCriticalSection =>
        exact ⟨(f (), ({ y.hub with owner := none }, y.store)),
          .op ((atomicEnv_none rfl).mpr ⟨⟨rfl, rfl⟩, rfl⟩)⟩
      | _ => cases hu
    | inside =>
      obtain ⟨p, hcode⟩ := Option.ne_none_iff_exists'.mp (((locking after (κ := κ)).inside β e).mp hu)
      obtain ⟨b, t, hr⟩ := hx.store_returns hK hp hcode
      exact ⟨(f b, (y.hub, t)), .op ((atomicEnv_some hcode).mpr ⟨rfl, hr⟩)⟩

/-- While no thread is in the critical section, a thread goes on if it does on its connection. -/
theorem Live.thread_goes (hx : Live K y z) (ho : y.hub.owner = none) {view : List Call → KV}
    {calls : List Call} (hs : ∃ c, Step (linkEnv (netAct view) .server) procs
      (y.thread k, serving (y.hub.link k) calls) c) :
    ∃ c, Step (threadEnv after k) procs (y.thread k, (y.hub, y.store)) c := by
  obtain ⟨h, hi, hg⟩ := hx.disciplined k
  obtain rfl : h = false := by
    rw [Bool.eq_false_iff, Ne, hi, ho]
    exact nofun
  obtain ⟨_, hs⟩ := hs
  generalize y.thread k = p at hs hg
  cases hs with
  | call => exact ⟨_, .call⟩
  | @op β e f _ _ b he =>
    cases hu : lockUse β e with
    | release => cases ((guarded_release hu).mp hg).1
    | inside => cases ((guarded_inside hu).mp hg).1
    | acquire =>
      cases e with
      | enterCriticalSection =>
        exact ⟨(f (), ({ y.hub with owner := some k }, y.store)),
          .op ((atomicEnv_none rfl).mpr ⟨⟨rfl, ho, rfl⟩, rfl⟩)⟩
      | _ => cases hu
    | outside =>
      have hcode := (locking after (κ := κ)).impl_none (e := e) (by rw [hu]; nofun)
      obtain ⟨b, hub, hb⟩ := hubEnv_enabled hu he
      exact ⟨(f b, (hub, y.store)), .op ((atomicEnv_none hcode).mpr ⟨hb, rfl⟩)⟩

theorem Live.client_goes (hx : Live K y z) {p : Net Outcome} (hp : y.client k = some p)
    {view : List Call → KV} {calls : List Call}
    (hs : ∃ c, Step (linkEnv (netAct view) .client) procs
      (p, serving (y.hub.link k) calls) c) :
    ∃ c, Step (hubEnv k .client) procs (p, y.hub) c := by
  have hon := hx.client k
  rw [hp] at hon
  obtain ⟨_, hs⟩ := hs
  cases hs with
  | call => exact hon.elim
  | @op β e f _ _ b he =>
    obtain ⟨b, hub, hb⟩ := hubEnv_enabled hon.1 he
    exact ⟨_, .op hb⟩

/-! ## Both sides of all connections -/

/-- A side of a connection. -/
abbrev Part (p : κ × Side) : Type 1 := Prog NetEff NetProc (Outcomes p.2) × Port Byte (List Call)

/-- The system is made of the sides `c` of all connections. -/
structure Assembled (calls : κ → List Call) (y : System κ NetEff NetProc Machine) (c : ∀ p, Part (κ := κ) p) :
    Prop where
  program : ∀ k i, (c (k, i)).1 = sides (clientOf (y.client k)) (y.thread k) i
  paired : ∀ k, Paired False (serving (y.hub.link k) (calls k)) fun i => (c (k, i)).2

variable {view : κ → List Call → KV} {ready : κ → List Call → Prop} {goal calls : κ → List Call}
  {c : ∀ p, Part (κ := κ) p} {i : Side}

theorem Assembled.update {p' : Prog NetEff NetProc (Outcomes i)} {q' : Port Byte (List Call)}
    (hc : Assembled calls y c) (hself : p' = sides (clientOf (y'.client k)) (y'.thread k) i)
    (hoth : ∀ j i', (j, i') ≠ (k, i) → sides (clientOf (y'.client j)) (y'.thread j) i' =
      sides (clientOf (y.client j)) (y.thread j) i')
    (hlink : ∀ j ≠ k, y'.hub.link j = y.hub.link j)
    (hj : Paired False (serving (y'.hub.link k) (calls k)) (Function.update (fun i => (c (k, i)).2) i q')) :
    Assembled calls y' (Function.update c (k, i) (p', q')) := by
  refine ⟨fun j i' => ?_, fun j => ?_⟩
  · by_cases h : (j, i') = (k, i)
    · cases h
      rwa [Function.update_self]
    · rw [Function.update_of_ne h, hc.program, hoth j i' h]
  · by_cases h : j = k
    · subst h
      have e : (fun i' => (Function.update c (j, i) (p', q') (j, i')).2) =
          Function.update (fun i => (c (j, i)).2) i q' := funext fun i' => by
        by_cases hi : i' = i
        · subst hi
          rw [Function.update_self, Function.update_self]
        · rw [Function.update_of_ne hi, Function.update_of_ne fun e => hi (Prod.ext_iff.mp e).2]
      rwa [e]
    · have e : (fun i' => (Function.update c (k, i) (p', q') (j, i')).2) = fun i' => (c (j, i')).2 :=
        funext fun i' => by rw [Function.update_of_ne fun e => h (Prod.ext_iff.mp e).1]
      rw [e, hlink j h]
      exact hc.paired j

/-- **A step on a connection** is one that a side takes by itself. -/
theorem Assembled.step (hc : Assembled calls y c) (hs : LocalStep y y')
    (hgo : ∀ p : κ × Side, Come (goal p.1) p.2 (c p) ∨
      ∃ a, Step (portEnv False (netAct (view p.1)) (ready p.1) p.2) procs (c p) a) :
    ∃ p a, ¬ Come (goal p.1) p.2 (c p) ∧
      Step (portEnv False (netAct (view p.1)) (ready p.1) p.2) procs (c p) a ∧
      Assembled calls y' (Function.update c p a) := by
  have key : ∀ (k : κ) (i : Side) (p' : Prog NetEff NetProc (Outcomes i)) l',
      Step (linkEnv (netAct (view k)) i) procs
        (sides (clientOf (y.client k)) (y.thread k) i, serving (y.hub.link k) (calls k)) (p', l') →
      ¬ Come (goal k) i (c (k, i)) ∧ ∃ q', Step (portEnv False (netAct (view k)) (ready k) i) procs (c (k, i))
        (p', q') ∧ Paired False l' (Function.update (fun i => (c (k, i)).2) i q') := by
    intro k i p' l' h
    rw [← hc.program] at h
    have hn : ¬ Come (goal k) i (c (k, i)) := fun hD =>
      (hc.paired k).not_step (p := (c (k, i)).1) (i := i) (come_finished i _ hD) h
    exact ⟨hn, (hc.paired k).step h ((hgo (k, i)).resolve_left hn)⟩
  cases hs with
  | @client k p p' hub h hoth hs =>
    obtain ⟨hn, q', hq, hj⟩ := key k .client p' (serving (hub.link k) (calls k)) (by
      rw [h]
      exact hs _ _)
    refine ⟨(k, .client), (p', q'), hn, hq, hc.update ?_ (fun j i' hne => ?_) hoth hj⟩
    · dsimp only
      rw [Function.update_self]
      rfl
    · cases i' with
      | client =>
        dsimp only
        rw [Function.update_of_ne fun e => hne (by rw [e])]
      | server => rfl
  | @thread k p hub hoth hs =>
    obtain ⟨hn, q', hq, hj⟩ := key k .server p (serving (hub.link k) (calls k)) (hs _ _)
    refine ⟨(k, .server), (p, q'), hn, hq, hc.update ?_ (fun j i' hne => ?_) hoth hj⟩
    · dsimp only [sides]
      rw [Function.update_self]
    · cases i' with
      | client => rfl
      | server =>
        dsimp only [sides]
        rw [Function.update_of_ne fun e => hne (by rw [e])]

/-- **Something goes on** while a side of a connection is not done. -/
theorem Assembled.goes (hx : Live K y z) (hK : K.card < maxKeys) (hc : Assembled calls y c)
    (hgo : ∀ p : κ × Side, Come (goal p.1) p.2 (c p) ∨
      ∃ a, Step (portEnv False (netAct (view p.1)) (ready p.1) p.2) procs (c p) a)
    (hn : ∃ p : κ × Side, ¬ Come (goal p.1) p.2 (c p)) :
    ∃ y', Quiet (AtomicStackStep after) y y' := by
  have hthread : ∀ k, (∃ c, Step (threadEnv after k) procs (y.thread k, (y.hub, y.store)) c) →
      ∃ y', Quiet (AtomicStackStep after) y y' := fun k ⟨⟨p, hub, store⟩, hs⟩ =>
    ⟨_, none, nofun, .thread k hs⟩
  cases ho : y.hub.owner with
  | some k => exact hthread k (hx.owner_goes hK ho)
  | none =>
    obtain ⟨⟨k, i⟩, hki⟩ := hn
    have hpart : (fun i => (c (k, i)).1) = sides (clientOf (y.client k)) (y.thread k) :=
      funext (hc.program k)
    have hside : ∀ i, Come (goal k) i (c (k, i)) ∨
        ∃ a, Step (portEnv False (netAct (view k)) (ready k) i) procs (c (k, i)) a := fun i => hgo (k, i)
    have hex : ∃ a, ParStep (linkEnv (netAct (view k))) procs
        (fun i => (c (k, i)).1, serving (y.hub.link k) (calls k)) a :=
      (hc.paired k).exists_step come_finished hside fun h => hki (h i)
    obtain ⟨_, h⟩ := hex
    rw [hpart] at h
    cases h with
    | @step i _ _ l' p h =>
      cases i with
      | server => exact hthread k (hx.thread_goes ho ⟨_, h⟩)
      | client =>
        cases hk : y.client k with
        | none =>
          rw [hk] at h
          cases h
        | some p =>
          rw [hk] at h
          obtain ⟨⟨p', hub⟩, hs⟩ := hx.client_goes hk ⟨_, h⟩
          exact ⟨_, none, nofun, .client k hk hs⟩

/-! ## The end -/

variable [Fintype κ]

/-- **Without new calls**, nothing goes on for ever. -/
theorem Live.acc (hx : Live K y z) : Acc (fun y' y => Quiet (AtomicStackStep after) y y') y := by
  generalize hn : ∑ k, (z.1 k).rank = n
  induction n using Nat.strong_induction_on generalizing y z with
  | _ n ih =>
    subst hn
    choose view ready goal calls q hq using fun k => (hx.tracks.conn k).going
    refine acc_all
      (r := fun p : κ × Side => Step (portEnv False (netAct (view p.1)) (ready p.1) p.2) procs)
      (D := fun p => Come (goal p.1) p.2) (fun y' c => Live K y' z ∧ Assembled calls y' c) ?_
      (c := fun p => (sides (clientOf (y.client p.1)) (y.thread p.1) p.2, q p.1 p.2))
      ⟨hx, fun _ _ => rfl, fun k => (hq k).paired⟩ fun p => (hq p.1).runs p.2
    rintro y₁ c y₂ ⟨hl, hc⟩ hgo ⟨e, he, hs⟩
    rcases hl.step (fun k c h => absurd h (he k c)) hs with
      ⟨z', -, hl', ⟨k, c, h⟩ | hlt⟩ | ⟨-, hl', hloc⟩
    · exact absurd h (he k c)
    · exact Or.inl (ih _ hlt hl' rfl)
    · obtain ⟨p, a, hn, ha, hc'⟩ := hc.step hloc hgo
      exact Or.inr ⟨p, a, hn, ha, hl', hc'⟩

omit [Fintype κ] in
theorem Live.goes (hx : Live K y z) (hK : K.card < maxKeys) :
    (∀ k, y.client k = none) ∨ ∃ y', Quiet (AtomicStackStep after) y y' := by
  choose view ready goal calls q hq using fun k => (hx.tracks.conn k).going
  have hc : Assembled calls y fun p : κ × Side =>
      (sides (clientOf (y.client p.1)) (y.thread p.1) p.2, q p.1 p.2) :=
    ⟨fun _ _ => rfl, fun k => (hq k).paired⟩
  have hgo : ∀ p : κ × Side, Come (goal p.1) p.2
      (sides (clientOf (y.client p.1)) (y.thread p.1) p.2, q p.1 p.2) ∨
        ∃ a, Step (portEnv False (netAct (view p.1)) (ready p.1) p.2) procs
          (sides (clientOf (y.client p.1)) (y.thread p.1) p.2, q p.1 p.2) a := fun p => by
    cases (hq p.1).runs p.2 with
    | now h => exact Or.inl h
    | step h _ => exact Or.inr h
  by_cases hn : ∃ p : κ × Side, ¬ Come (goal p.1) p.2
      (sides (clientOf (y.client p.1)) (y.thread p.1) p.2, q p.1 p.2)
  · exact Or.inr (Assembled.goes hx hK hc hgo hn)
  · by_cases hidle : ∀ k, y.client k = none
    · exact Or.inl hidle
    · -- a call that has come to its end is yet to return
      obtain ⟨k, hk⟩ := not_forall.mp hidle
      obtain ⟨p, hp⟩ := Option.ne_none_iff_exists'.mp hk
      have hcome := not_not.mp (not_exists.mp hn (k, .client))
      dsimp only [sides] at hcome
      obtain ⟨⟨r, hr⟩, -⟩ := hcome
      rw [hp] at hr
      obtain rfl : p = .pure r := hr
      exact Or.inr ⟨_, some (.result k r), nofun, .result k r hp⟩

end Live

/-! ## Effect by effect -/

section Whole

variable {κ : Type} [DecidableEq κ] [Fintype κ] {after : ℕ → Byte} {K : Finset (List Byte)}
  {x x' : Stack κ} {y : System κ NetEff NetProc Machine} {z : (κ → Phase Call Outcome) × KV}
  {a : Option (Place Eff Proc Machine)} {m : KV} {t : Machine} {code : κ → CInt}
  {es : List (Event κ Call Outcome)}

theorem Live.next (hy : Live K y z) {e : Option (Event κ Call Outcome)}
    {y' : System κ NetEff NetProc Machine}
    (hok : ∀ k c, e = some (.invoke k c) → c.Fits ∧ c.SetsIn K)
    (hs : AtomicStackStep after y e y') : ∃ z', Does callObject z e z' ∧ Live K y' z' := by
  rcases hy.step hok hs with ⟨z', hd, h, -⟩ | ⟨hd, h, -⟩
  · exact ⟨z', hd, h⟩
  · exact ⟨z, hd, h⟩

omit [DecidableEq κ] [Fintype κ] in
theorem Live.ends (hy : Live K y z) (hK : K.card < maxKeys) (i : κ) (β : Type) (e : NetEff β)
    (f : β → Net Int) (p : M β) (hu : y.thread i = .op e f) (hp : storeCode after β e = some p) :
    Ends machineSem (procBody degree storeHandlers) (p, y.store) := by
  obtain ⟨b, t, hr⟩ := hy.store_returns hK hu hp
  exact hr.eventually

omit [Fintype κ] in
/-- What goes on with atomic calls goes on effect by effect. -/
theorem AtomicStack.go (hx : AtomicStack after x y a) (hy : Live K y z) (hK : K.card < maxKeys)
    (hs : ∃ y', Quiet (AtomicStackStep after) y y') : ∃ x', Quiet (StackStep after) x x' := by
  obtain ⟨y', e, he, hs⟩ := hs
  have hhub : x.hub = y.hub := hx.atomic.shared
  cases hs with
  | invoke k c => exact absurd rfl (he k c)
  | client k h hs =>
    rw [← hhub] at hs
    rw [← hx.client] at h
    exact ⟨_, none, nofun, .client k h hs⟩
  | thread k hs =>
    obtain ⟨⟨p, hub, store⟩, hs'⟩ :=
      hx.atomic.go procs (hubEnv k .server) (hy.ends hK) ⟨_, hs⟩
    exact ⟨_, none, nofun, .thread k hs'⟩
  | result k r h =>
    rw [← hx.client] at h
    exact ⟨_, some (.result k r), nofun, .result k r h⟩

theorem AtomicStack.acc (hx : AtomicStack after x y a) (hy : Live K y z) (hK : K.card < maxKeys) :
    Acc (fun x' x => Quiet (StackStep after) x x') x := by
  refine acc_stuttering (q := Quiet (AtomicStackStep after))
    (fun x y a => AtomicStack after x y a ∧ ∃ z, Live K y z)
    (fun y => Deeper (storeCode after) machineSem (procBody degree storeHandlers) y.thread y.store)
    ?_ ?_ ⟨hx, z, hy⟩ hy.acc
  · rintro x y a x' ⟨hx, z, hy⟩ ⟨e, he, hs⟩
    rcases hx.step hs with ⟨-, a', hlt, hx'⟩ | ⟨y', a', hs', hx'⟩
    · exact Or.inr ⟨a', hlt, hx', z, hy⟩
    · obtain ⟨z', -, hy'⟩ := hy.next (fun k c h => absurd h (he k c)) hs'
      exact Or.inl ⟨y', a', ⟨e, he, hs'⟩, hx', z', hy'⟩
  · rintro x y a ⟨hx, z, hy⟩
    exact hx.atomic.acc (hy.ends hK)

/-- **All calls that clients have begun return**, from every state that goes with one of atomic
calls. -/
theorem AtomicStack.eventually (hx : AtomicStack after x y a) (hy : Live K y z)
    (hK : K.card < maxKeys) :
    Eventually (Quiet (StackStep after)) (fun x => ∀ k, x.client k = none) x := by
  refine eventually_of_acc (fun x => ∃ y a z, AtomicStack after x y a ∧ Live K y z) ?_ ?_
    ⟨y, a, z, hx, hy⟩ (hx.acc hy hK)
  · rintro x x' ⟨y, a, z, hx, hy⟩ ⟨e, he, hs⟩
    rcases hx.step hs with ⟨-, a', -, hx'⟩ | ⟨y', a', hs', hx'⟩
    · exact ⟨y, a', z, hx', hy⟩
    · obtain ⟨z', -, hy'⟩ := hy.next (fun k c h => absurd h (he k c)) hs'
      exact ⟨y', a', z', hx', hy'⟩
  · rintro x ⟨y, a, z, hx, hy⟩
    have hgoes : (∀ k, y.client k = none) ∨ ∃ y', Quiet (AtomicStackStep after) y y' := hy.goes hK
    exact hgoes.imp (fun h k => hx.client ▸ h k) fun hs => hx.go hy hK hs

omit [DecidableEq κ] [Fintype κ] in
theorem live_start (ht : StoreHolds m t) (hf : Filled m) (hm : ∀ key, m key ≠ none → key ∈ K) :
    Live K (System.start code t instanceThread) (fun _ => .idle, m) :=
  ⟨tracks_start ht hf, fun _ => ⟨false, iff_of_false nofun nofun, rfl, fun _ => rfl⟩,
    fun _ => trivial, hm, nofun⟩

theorem live_of_trace (ht : StoreHolds m t) (hf : Filled m) (hm : ∀ key, m key ≠ none → key ∈ K)
    (h : Trace (StackStep after) (stackStart after code t) es x)
    (hs : ∀ k c, .invoke k c ∈ es → c.Fits ∧ c.SetsIn K) :
    ∃ y a z, AtomicStack after x y a ∧ Live K y z := by
  have hstep : ∀ (x : Stack κ) y e x', (∃ a z, AtomicStack after x y a ∧ Live K y z) →
      (∀ e', e = some e' → ∀ k c, e' = .invoke k c → c.Fits ∧ c.SetsIn K) → StackStep after x e x' →
      ∃ y', Trace (AtomicStackStep after) y e.toList y' ∧
        ∃ a z, AtomicStack after x' y' a ∧ Live K y' z := by
    rintro x y e x' ⟨a, z, hx, hy⟩ hok hs
    rcases hx.step hs with ⟨rfl, a', -, hx'⟩ | ⟨y', a', hs', hx'⟩
    · exact ⟨y, .refl, a', z, hx', hy⟩
    · obtain ⟨z', -, hy'⟩ := hy.next (fun k c he => hok _ he k c rfl) hs'
      exact ⟨y', .single hs', a', z', hx', hy'⟩
  obtain ⟨y, -, a, z, hx, hy⟩ := h.simulated _ _ hstep
    ⟨none, _, atomicStack_start, live_start ht hf hm⟩
    fun e he k c hc => hs k c (hc ▸ he)
  exact ⟨y, a, z, hx, hy⟩

theorem exists_returned (ht : StoreHolds m t) (hf : Filled m)
    (hm : ∀ key, m key ≠ none → key ∈ K) (hK : K.card < maxKeys)
    (h : Trace (StackStep after) (stackStart after code t) es x)
    (hs : ∀ k c, .invoke k c ∈ es → c.Fits ∧ c.SetsIn K) :
    ∃ es' x', Trace (StackStep after) x es' x' ∧ (∀ k c, .invoke k c ∉ es') ∧
      ∀ k, x'.client k = none := by
  obtain ⟨y, a, z, hx, hy⟩ := live_of_trace ht hf hm h hs
  obtain ⟨x', hrun, hx'⟩ := (hx.eventually hy hK).exists_run
  obtain ⟨es', hes', hq⟩ := Trace.of_quiet hrun
  exact ⟨es', x', hes', hq, hx'⟩

end Whole

/-! ## Two clients -/

section TwoClients

/-- Two clients of a store on absent files. -/
abbrev twoClients : Stack Bool := stackStart (fun _ => 0) (fun _ => 0) storeMachine

/-- The steps of two clients. -/
abbrev TwoStep : Stack Bool → Option (Event Bool Call Outcome) → Stack Bool → Prop :=
  StackStep fun _ => 0

theorem filled_empty : Filled fun _ => none := fun _ => nofun

theorem fits_set : (Call.set [97] [98]).Fits := ⟨by decide, by decide⟩

theorem fits_get : (Call.get [97]).Fits := ⟨by decide, by decide⟩

theorem setsIn_set : (Call.set [97] [98]).SetsIn {[97]} := fun _ _ h => by
  cases h
  exact Finset.mem_singleton_self _

theorem exists_call {es : List (Event Bool Call Outcome)} {x : Stack Bool} {k : Bool} {c : Call}
    (h : Trace TwoStep twoClients es x) (hx : ∀ k, x.client k = none)
    (hs : ∀ k c, .invoke k c ∈ es → c.Fits ∧ c.SetsIn {[97]})
    (hc : c.Fits ∧ c.SetsIn {[97]}) :
    ∃ es' x', Trace TwoStep x (.invoke k c :: es') x' ∧ (∀ k c, .invoke k c ∉ es') ∧
      ∀ k, x'.client k = none := by
  have hstep : TwoStep x (some (.invoke k c)) _ := .invoke k c (hx k)
  have hinv := Trace.single hstep
  obtain ⟨es', x', h', hes', hx'⟩ := exists_returned storeHolds_new filled_empty (K := {[97]})
    (fun _ => nofun) (by decide) (h.trans hinv) fun k' c' h => by
      rcases List.mem_append.mp h with h | h
      · exact hs k' c' h
      · obtain ⟨rfl, rfl⟩ := Event.invoke.inj (List.mem_singleton.mp h)
        exact hc
  exact ⟨es', x', hinv.trans h', hes', hx'⟩

theorem invoke_cons (ok : Call → Prop) {es : List (Event Bool Call Outcome)} {k : Bool} {c : Call}
    (hc : ok c) (hes : ∀ k c, .invoke k c ∉ es) :
    ∀ k' c', .invoke k' c' ∈ (.invoke k c :: es : List (Event Bool Call Outcome)) → ok c' := by
  intro k' c' hin
  rcases List.mem_cons.mp hin with hin | hin
  · obtain ⟨rfl, rfl⟩ := Event.invoke.inj hin
    exact hc
  · exact absurd hin (hes k' c')

theorem exists_set_get_run : ∃ es x es' x',
    Trace TwoStep twoClients (.invoke true (.set [97] [98]) :: es) x ∧
    (∀ k c, .invoke k c ∉ es) ∧ (∀ k, x.client k = none) ∧
    Trace TwoStep x (.invoke false (.get [97]) :: es') x' ∧
    (∀ k c, .invoke k c ∉ es') ∧ ∀ k, x'.client k = none := by
  obtain ⟨es, x, h, hes, hx⟩ := exists_call (k := true) .refl (fun _ => rfl) (fun _ _ h => by cases h)
    ⟨fits_set, setsIn_set⟩
  obtain ⟨es', x', h', hes', hx'⟩ := exists_call (k := false) h hx
    (invoke_cons (fun c => c.Fits ∧ c.SetsIn {[97]}) ⟨fits_set, setsIn_set⟩ hes)
    ⟨fits_get, nofun⟩
  exact ⟨es, x, es', x', h, hes, hx, h', hes', hx'⟩

end TwoClients

/-! ## The whole system -/

section Main

variable {κ : Type} [DecidableEq κ] {after : ℕ → Byte} {K : Finset (List Byte)} {x : Stack κ}
  {m : KV} {t : Machine} {code : κ → CInt} {es : List (Event κ Call Outcome)}

/-- **Clients, server and store together are one map.** In every interleaving, effect by effect, of
any number of clients, whose strings are shorter than `2 ^ 31 - 1`, the last one of each call not
empty, with the threads that serve them and the code of the store down to the buffer pools, from a
store without empty values:

* what the clients do and see is what clients of a map do and see, each of whose calls takes effect at
  one moment between its beginning and its end;
* while no thread is in the critical section, the machine holds this map;
* a thread inside the code of the store is the one in the critical section. -/
theorem stack_atomic (ht : StoreHolds m t) (hf : Filled m)
    (h : Trace (StackStep after) (stackStart after code t) es x)
    (hs : ∀ k c, .invoke k c ∈ es → c.Fits) :
    ∃ ph m', Trace (AtomicStep callObject) (fun _ => .idle, m) es (ph, m') ∧
      (x.hub.owner = none → StoreHolds m' x.store) ∧
      ∀ k, (x.thread k).AtObject → x.hub.owner = some k := by
  obtain ⟨x', a, ⟨ph, m'⟩, h', hx, hy⟩ := atomicStack_start.tracked (tracks_start ht hf) h hs
  exact ⟨ph, m', h', hx.holds hy.store, fun k hk => hx.atomic.exclusive (locking after) hk⟩

/-- One client sets a key, and then another asks for it. -/
theorem stack_atomic_set_get : ∃ (es es' : List (Event Bool Call Outcome)) (x : Stack Bool)
    (ph : Bool → Phase Call Outcome) (m' : KV), (∀ k, x.client k = none) ∧
    Trace (AtomicStep callObject) (fun _ => .idle, fun _ => none)
      (.invoke true (.set [97] [98]) :: es ++ .invoke false (.get [97]) :: es') (ph, m') ∧
      (x.hub.owner = none → StoreHolds m' x.store) ∧
      ∀ k, (x.thread k).AtObject → x.hub.owner = some k := by
  obtain ⟨es, x, es', x', h, hes, hx, h', hes', hx'⟩ := exists_set_get_run
  obtain ⟨ph, m', hr⟩ := stack_atomic storeHolds_new filled_empty (h.trans h') fun k c hin => by
    rcases List.mem_append.mp hin with hin | hin
    · exact invoke_cons _ fits_set hes k c hin
    · exact invoke_cons _ fits_get hes' k c hin
  exact ⟨es, es', x', ph, m', hx', hr⟩

/-- **One order of the calls of all clients** explains all results, as calls of a map one after the
other. It grows with the run, so that a call that returned before another began comes before it. -/
theorem stack_order (ht : StoreHolds m t) (hm : Readable m)
    (h : Trace (StackStep after) (stackStart after code t) es x)
    (hs : ∀ k c, .invoke k c ∈ es → c.Sendable) :
    ∃ w m', Explains (fun c m => c.onMap m) m es w m' ∧
      (x.hub.owner = none → StoreHolds m' x.store) ∧
      ∀ es' x', Trace (StackStep after) x es' x' → (∀ k c, .invoke k c ∈ es' → c.Sendable) →
        ∃ w' m'', Explains (fun c m => c.onMap m) m (es ++ es') (w ++ w') m'' ∧
          (x'.hub.owner = none → StoreHolds m'' x'.store) := by
  have hf : ∀ (c : Call) (m : KV), c.Sendable → Readable m →
      callObject c m = c.onMap m ∧ Readable (callObject c m).2 := fun c m hc hm => hm.callObject hc
  obtain ⟨y, a, ⟨ph, m'⟩, h', hx, hy⟩ :=
    atomicStack_start.tracked (tracks_start ht hm.filled) h fun k c hc => (hs k c hc).1
  obtain ⟨hmap, hm', hph⟩ := atomic_agree hf h' hm (fun _ _ hk => by cases hk) hs
  obtain ⟨w, hw, hext⟩ := explains_order hmap
  refine ⟨w, m', hw, hx.holds hy.store, fun es' x' hes' hs' => ?_⟩
  obtain ⟨y', a', ⟨ph', m''⟩, h'', hx', hy'⟩ := hx.tracked hy hes' fun k c hc => (hs' k c hc).1
  obtain ⟨hmap', -, -⟩ := atomic_agree hf h'' hm' hph hs'
  obtain ⟨w', hw'⟩ := hext _ _ _ hmap'
  exact ⟨w', m'', hw', hx'.holds hy'.store⟩

/-- One client sets a key, and then another asks for it. -/
theorem stack_order_set_get : ∃ (es es' : List (Event Bool Call Outcome)) (x : Stack Bool)
    (w w' : List (Bool × Call × Outcome)) (m m' : KV), (∀ k, x.client k = none) ∧
    Explains (fun c m => c.onMap m) (fun _ => none) (.invoke true (.set [97] [98]) :: es) w m ∧
    Explains (fun c m => c.onMap m) (fun _ => none)
      (.invoke true (.set [97] [98]) :: es ++ .invoke false (.get [97]) :: es') (w ++ w') m' ∧
      (x.hub.owner = none → StoreHolds m' x.store) := by
  obtain ⟨es, x, es', x', h, hes, hx, h', hes', hx'⟩ := exists_set_get_run
  obtain ⟨w, m, hw, -, hext⟩ := stack_order storeHolds_new (fun _ _ => nofun) h
    (invoke_cons _ ⟨fits_set, by rintro _ _ ⟨⟩; decide⟩ hes)
  obtain ⟨w', m', hw', hm'⟩ := hext _ _ h' (invoke_cons _ ⟨fits_get, nofun⟩ hes')
  exact ⟨es, es', x', w, w', m, m', hx', hw, hw', hm'⟩

/-- **Every call comes to its end.** From every state that a run of the whole system has come to,
effect by effect, with any number of clients whose strings are shorter than `2 ^ 31 - 1`, the last
one of each call not empty, and who set fewer than `maxKeys` keys, every run without new calls goes
on until all calls have returned: no thread waits for ever, for the critical section or for bytes,
and no code of the store runs for ever. -/
theorem stack_progress [Fintype κ] (ht : StoreHolds m t) (hf : Filled m)
    (hm : ∀ key, m key ≠ none → key ∈ K) (hK : K.card < maxKeys)
    (h : Trace (StackStep after) (stackStart after code t) es x)
    (hs : ∀ k c, .invoke k c ∈ es → c.Fits ∧ c.SetsIn K) :
    Eventually (Quiet (StackStep after)) (fun x => ∀ k, x.client k = none) x := by
  obtain ⟨y, a, z, hx, hy⟩ := live_of_trace ht hf hm h hs
  exact hx.eventually hy hK

/-- One client has set a key, and another has just asked for it. -/
theorem stack_progress_get : ∃ (es : List (Event Bool Call Outcome)) (x : Stack Bool),
    Trace TwoStep twoClients
      (.invoke true (.set [97] [98]) :: es ++ [.invoke false (.get [97])]) x ∧
    x.client false ≠ none ∧ Eventually (Quiet TwoStep) (fun x => ∀ k, x.client k = none) x := by
  obtain ⟨es, x, es', x', h, hes, hx, -⟩ := exists_set_get_run
  have hstep : TwoStep x (some (.invoke false (.get [97]))) _ := .invoke false (.get [97]) (hx false)
  have hrun := h.trans (.single hstep)
  refine ⟨es, _, hrun, ?_, stack_progress storeHolds_new filled_empty (K := {[97]}) (fun _ => nofun)
    (by decide) hrun fun k c hin => ?_⟩
  · dsimp only
    rw [Function.update_self]
    exact nofun
  · rcases List.mem_append.mp hin with hin | hin
    · exact invoke_cons (fun c => c.Fits ∧ c.SetsIn {[97]}) ⟨fits_set, setsIn_set⟩ hes k c hin
    · obtain ⟨rfl, rfl⟩ := Event.invoke.inj (List.mem_singleton.mp hin)
      exact ⟨fits_get, nofun⟩

end Main

end MyJQL.Server
