import MyJQL.Lib.Linking
import MyJQL.Server.Clients
import MyJQL.Server.Dialogue
import MyJQL.Server.Paths
import MyJQL.Store.Runs

/-!
# Clients, server and store together

The driver, the threads of the server and the code of the store, down to the buffer pools.

* `storeCode`: the calls of the store, as programs over the buffer pools;
* `lockUse`, `procs_guarded`: the threads call the store inside the critical section only;
* `StoreHolds`: a machine that holds a map; **`storeObject`**: a call of the store, at once, is one of
  this map;
* **`AtomicStack.tracked`**: in every interleaving, effect by effect, of any number of clients with
  their threads, the clients see one map; `AtomicStack.step_idle`: without calls under way the store
  stays as it is;
* `Readable`, `Call.Sendable`: calls that return what the map holds.
-/

set_option linter.unusedSimpArgs false

namespace MyJQL.Server

/-! ## The code of the store -/

/-- Memory that holds a string, and whatever `after` it. -/
def memoryOf (after : ℕ → Byte) (str : List Byte) : ℕ → Byte := fun i => str.getD i (after i)

/-- The calls of the store, as programs. -/
def storeCode (after : ℕ → Byte) : ∀ β, NetEff β → Option (M β)
  | _, .myjqlGet key value maxSize => some do
    let (valueLen, bytes) ←
      MyJQL.myjqlGet (memoryOf after key) key.length (fun i => value i) maxSize
    return (valueLen, fun i => if 0 ≤ i then bytes i.toNat else value i)
  | _, .myjqlSet key value => some
    (MyJQL.myjqlSet (memoryOf after key) key.length (memoryOf after value) value.length)
  | _, .myjqlDel key => some (MyJQL.myjqlDel (memoryOf after key) key.length)
  | _, _ => none

/-- What an effect is to the critical section. -/
def lockUse : ∀ β, NetEff β → LockUse
  | _, .enterCriticalSection => .acquire
  | _, .leaveCriticalSection => .release
  | _, .myjqlGet _ _ _ => .inside
  | _, .myjqlSet _ _ => .inside
  | _, .myjqlDel _ => .inside
  | _, _ => .outside

section Lock

variable {κ : Type} [DecidableEq κ] {k : κ} {i : Side} {after : ℕ → Byte} {β : Type} {e : NetEff β}
  {b : β} {s s' : Hub κ}

theorem hubEnv_owner (h : hubEnv k i β e s b s') (hu : lockUse β e = .outside) :
    s'.owner = s.owner := by
  have hsock : (∃ l, linkEnv sockAct i β e (s.link k) b l ∧
      s' = { s with link := Function.update s.link k l }) → s'.owner = s.owner := by
    rintro ⟨l, -, rfl⟩
    rfl
  cases e with
  | enterCriticalSection => cases hu
  | leaveCriticalSection => cases hu
  | _ => exact hsock h

theorem locking (after : ℕ → Byte) :
    Locking lockUse (storeCode after) Hub.owner fun k : κ => hubEnv k .server where
  inside β e := by cases e <;> simp [lockUse, storeCode]
  acquire k β e s b s' hu he := by
    cases e with
    | enterCriticalSection =>
      obtain ⟨-, h0, rfl⟩ := he
      exact ⟨h0, rfl⟩
    | _ => cases hu
  release k β e s b s' hu he := by
    cases e with
    | leaveCriticalSection =>
      obtain ⟨-, rfl⟩ := he
      rfl
    | _ => cases hu
  outside k β e s b s' hu he := hubEnv_owner he hu

end Lock

/-! ## The critical section -/

/-- The program keeps to the critical section, and is outside when it ends. -/
abbrev Keeps {ε α : Type} (x : ExceptT ε Net α) : Prop := x.run.Guarded lockUse false false

theorem keeps_rules : PathRules fun x => Keeps x where
  pure _ := rfl
  bind hx hg := guarded_bind (f := ExceptT.bindCont _) hx fun
    | .ok a => hg a
    | .error _ => rfl
  eff {α e} he := by
    have hu : lockUse α e = .outside := by cases e <;> trivial
    exact (guarded_outside hu).mpr ⟨rfl, fun _ => rfl⟩
  undefined := ⟨rfl, nofun⟩
  fails := (guarded_outside rfl).mpr ⟨rfl, fun _ => rfl⟩
  critical {α e} he := by
    have hu : lockUse α e = .inside := by cases e <;> trivial
    refine guarded_bind (f := fun a => pure (Except.ok a)) ?_ fun _ => rfl
    refine (guarded_acquire rfl).mpr ⟨rfl, fun _ => ?_⟩
    refine (guarded_inside hu).mpr ⟨rfl, fun _ => ?_⟩
    exact (guarded_release rfl).mpr ⟨rfl, fun _ => rfl⟩

/-- **The threads call the store inside the critical section only**, and leave it. -/
theorem procs_guarded : ∀ β (c : NetProc β), (procs c).Guarded lockUse false false
  | _, .instanceThread code => by
    have hround : (instanceThreadRound code).Guarded lockUse false false := by
      refine guarded_bind keeps_rules.round fun r => ?_
      rcases r with r | _ | code
      · rfl
      · refine (guarded_outside rfl).mpr ⟨rfl, fun b => ?_⟩
        cases b
        · exact (guarded_outside rfl).mpr ⟨rfl, fun _ => rfl⟩
        · exact (guarded_outside rfl).mpr ⟨rfl, fun _ => rfl⟩
      · rfl
    refine guarded_bind hround fun r => ?_
    cases r with
    | inl r => rfl
    | inr code => exact ⟨rfl, fun _ => rfl⟩

/-! ## The map -/

/-- The machine holds the map `m`. -/
def StoreHolds (m : KV) (t : Machine) : Prop := ∃ rows s, StoreHeld rows s t ∧ Denotes rows m

theorem storeHolds_new : StoreHolds (fun _ => none) storeMachine :=
  ⟨0, storeFlat, ⟨storeMachine_holds, storeFlat_rep⟩, denotes_empty⟩

section Map

variable {κ : Type} [DecidableEq κ] {after : ℕ → Byte} {m : KV} {t t' : Machine}
  {key value : List Byte}

theorem tabulate_memoryOf (str : List Byte) : tabulate (memoryOf after str) str.length = str := by
  refine List.ext_getElem (by simp) fun i _ hi => ?_
  rw [getElem_tabulate, memoryOf, List.getD_eq_getElem _ _ hi]

theorem getAnswer_eq (m : KV) (key : List Byte) (value : Buf) (maxSize : ℕ) :
    ((getResult m key (fun i => value i) maxSize).1, fun i : Int =>
      if 0 ≤ i then (getResult m key (fun i => value i) maxSize).2 i.toNat else value i) =
      getAnswer m key value maxSize := by
  rw [getResult, getAnswer]
  cases m key with
  | none =>
    refine Prod.ext rfl (funext fun i => ?_)
    dsimp only
    split_ifs with hi
    · rw [Int.toNat_of_nonneg hi]
    · rfl
  | some v =>
    refine Prod.ext ?_ (funext fun i => ?_)
    · dsimp only
      rw [min_comm]
      exact Nat.cast_min ..
    · dsimp only
      rw [Buf.write]
      split_ifs with hi hlt
      · rw [List.getD_eq_getElem _ _ (by omega), List.getD_eq_getElem _ _ (by simpa using hlt),
          List.getElem_take]
      · rw [List.getD_eq_default _ _ (by rw [List.length_take]; omega), Int.toNat_of_nonneg hi]
      · rfl

/-- **A call of the store** is one of the map. -/
theorem wp_storeCode {bd : Bool} {rows : Multiset Row} {s : Flat} {β : Type}
    {e : NetEff β} {p : M β}
    {c : Call} (hst : StoreRep degree rows s) (hm : Denotes rows m) (hbd : bd → Few m)
    (hp : storeCode after β e = some p) (hc : storeCall e = some c)
    (hs : ∀ str ∈ c.strings, str.length ≤ maxStrLen) :
    wp (flatSem bd) (procBody degree storeHandlers) p (fun b s' => StoreAnswer m e b ∧
      ∃ rows', StoreRep degree rows' s' ∧ Denotes rows' (c.apply m)) s := by
  have hfew : bd → rows.card < 2 * (degree + 1) ^ 13 * degree := fun h => hst.few hm (hbd h)
  cases e with
  | myjqlGet key value maxSize =>
    cases hp
    cases hc
    refine (wp_myjqlGet hst hm (by decide) hfew (fun i => value i) maxSize).seq fun q s' hq => ?_
    obtain ⟨rfl, hst'⟩ := hq
    refine wp_pure ⟨?_, rows, hst', hm⟩
    rw [tabulate_memoryOf]
    exact getAnswer_eq ..
  | myjqlSet key value =>
    cases hp
    cases hc
    refine (wp_myjqlSet hst hm hfew (hs key List.mem_cons_self) _ _).mono fun b s' h =>
      ⟨trivial, ?_⟩
    rwa [tabulate_memoryOf, tabulate_memoryOf] at h
  | myjqlDel key =>
    cases hp
    cases hc
    refine (wp_myjqlDel hst hm le_rfl hfew).mono fun b s' h => ⟨trivial, ?_⟩
    rwa [tabulate_memoryOf] at h
  | _ => cases hp

/-- A call of the store, at once, is one of the map that the machine holds. -/
theorem storeCode_answer {β : Type} {e : NetEff β} {p : M β} {c : Call} {b : β}
    (hp : storeCode after β e = some p) (hc : storeCall e = some c)
    (hs : ∀ str ∈ c.strings, str.length ≤ maxStrLen) (ht : StoreHolds m t)
    (hr : Returns machineSem (procBody degree storeHandlers) p t b t') :
    StoreAnswer m e b ∧ StoreHolds (c.apply m) t' := by
  obtain ⟨rows, s, ⟨hh, hst⟩, hm⟩ := ht
  obtain ⟨s', hh', ⟨hb, rows', hst', hm'⟩, -⟩ := wp.of_machine hh
    (wp_storeCode hst hm (fun h : false => nomatch h) hp hc hs) hr
  exact ⟨hb, rows', s', ⟨hh', hst'⟩, hm'⟩

theorem storeCode_none {β : Type} {e : NetEff β} :
    storeCode after β e = none ↔ storeCall e = none := by
  cases e <;> simp [storeCode, storeCall]

/-- **The store with atomic calls** is a map. -/
theorem storeObject (after : ℕ → Byte) : StoreObject (fun k : κ => atomicEnv (storeCode after)
    (hubEnv k .server) machineSem (procBody degree storeHandlers)) StoreHolds where
  other k β e s b s' hc he := (atomicEnv_none (storeCode_none.mpr hc)).mp he
  hub k β e s b s' hc he := by
    obtain ⟨p, hp⟩ := Option.ne_none_iff_exists'.mp fun h => hc (storeCode_none.mp h)
    exact ((atomicEnv_some hp).mp he).1
  call k β e c s b s' m hc hs ht he := by
    obtain ⟨p, hp⟩ := Option.ne_none_iff_exists'.mp fun h => by
      rw [storeCode_none.mp h] at hc
      cases hc
    exact storeCode_answer hp hc hs ht ((atomicEnv_some hp).mp he).2

end Map

/-! ## The whole system -/

section Whole

variable {κ : Type} [DecidableEq κ] {after : ℕ → Byte} {m : KV} {t : Machine} {code : κ → CInt}

/-- The clients, their connections, and the server with its store. -/
abbrev Stack (κ : Type) := System κ (SumEff NetEff Eff) (SumProc NetEff NetProc Proc) Machine

/-- The steps of the whole system: the threads run the code of the store effect by effect. -/
abbrev StackStep (after : ℕ → Byte) : Stack κ → Option (Event κ Call Outcome) → Stack κ → Prop :=
  SystemStep (fun k => linkedEnv (storeCode after) (hubEnv k .server) machineSem)
    (linkBodies (storeCode after) procs (procBody degree storeHandlers))

/-- No client has begun a call, and the store is as in `t`. -/
def stackStart (after : ℕ → Byte) (code : κ → CInt) (t : Machine) : Stack κ :=
  System.start code t fun code => (instanceThread code).link (storeCode after)

/-- The steps of the system whose calls of the store are atomic. -/
abbrev AtomicStackStep (after : ℕ → Byte) : System κ NetEff NetProc Machine →
    Option (Event κ Call Outcome) → System κ NetEff NetProc Machine → Prop :=
  SystemStep (fun k => atomicEnv (storeCode after) (hubEnv k .server) machineSem
    (procBody degree storeHandlers)) procs

/-- The system and the one with atomic calls. -/
structure AtomicStack (after : ℕ → Byte) (x : Stack κ) (y : System κ NetEff NetProc Machine)
    (a : Option (Place Eff Proc Machine)) : Prop where
  client : x.client = y.client
  atomic : Atomic lockUse (storeCode after) Hub.owner machineSem (procBody degree storeHandlers)
    x.thread (x.hub, x.store) y.thread (y.hub, y.store) a

theorem hubEnv_client_owner {k : κ} {p p' : Net Outcome} {s s' : Hub κ}
    (hs : Step (hubEnv k .client) procs (p, s) (p', s')) : s'.owner = s.owner := by
  cases hs with
  | call => rfl
  | @op β e _ _ _ _ he =>
    cases e with
    | enterCriticalSection => exact absurd he.1 nofun
    | leaveCriticalSection => exact absurd he.1 nofun
    | _ =>
      obtain ⟨_, -, rfl⟩ := he
      rfl

/-- **One step** of the system is one with atomic calls, or one inside a call. -/
theorem AtomicStack.step {x x' : Stack κ} {y : System κ NetEff NetProc Machine}
    {a : Option (Place Eff Proc Machine)} {e : Option (Event κ Call Outcome)}
    (hx : AtomicStack after x y a) (hs : StackStep after x e x') :
    (e = none ∧ ∃ a', Deeper (storeCode after) machineSem (procBody degree storeHandlers) y.thread
      y.store a' a ∧ AtomicStack after x' y a') ∨
      ∃ y' a', AtomicStackStep after y e y' ∧ AtomicStack after x' y' a' := by
  obtain ⟨client, thread, hub', store⟩ := y
  obtain ⟨hclient, ha⟩ := hx
  dsimp only at hclient ha
  subst hclient
  cases hs with
  | invoke k c h => exact Or.inr ⟨_, a, .invoke k c h, rfl, ha⟩
  | @client k p p' hub h hs =>
    have hhub : x.hub = hub' := ha.shared
    exact Or.inr ⟨_, a, .client k h (hhub ▸ hs), rfl, ha.congr (hubEnv_client_owner hs)⟩
  | @thread k p hub store hs =>
    rcases ha.step (locking after) procs_guarded hs with ⟨a', hlt, ha'⟩ |
      ⟨p', ⟨hub', store'⟩, a', hs', ha'⟩
    · exact Or.inl ⟨rfl, a', hlt, rfl, ha'⟩
    · exact Or.inr ⟨_, a', .thread k hs', rfl, ha'⟩
  | result k r h => exact Or.inr ⟨_, a, .result k r h, rfl, ha⟩

omit [DecidableEq κ] in
theorem atomicStack_start : AtomicStack after (stackStart after code t)
    (System.start code t instanceThread) none :=
  ⟨rfl, rfl, fun _ => ⟨false, iff_of_false nofun nofun, rfl, fun _ => rfl⟩, rfl, fun _ => rfl⟩

theorem AtomicStack.holds {x : Stack κ} {y : System κ NetEff NetProc Machine}
    {a : Option (Place Eff Proc Machine)} {p : Machine → Prop} (hx : AtomicStack after x y a)
    (hy : p y.store) (hfree : x.hub.owner = none) : p x.store := by
  have hin := hx.atomic.inmost
  cases a with
  | none => exact (show x.store = y.store from hin.1) ▸ hy
  | some b =>
    obtain ⟨k, hk⟩ := hin
    have hk := hx.atomic.inside_owner (locking after) hk
    rw [hfree] at hk
    cases hk

omit [DecidableEq κ] in
theorem tracks_start (ht : StoreHolds m t) (hm : Filled m) :
    Tracks StoreHolds (System.start code t instanceThread) (fun _ : κ => .idle, m) := by
  refine ⟨ht, hm, fun k => ?_⟩
  have hidle : Idle (fun _ => m) [] (instanceThread (code k))
      ⟨fun _ => [], fun _ => false, fun _ => ()⟩ :=
    ⟨fun _ => rfl, fun _ => rfl, fun view _ =>
      eventually_call (.now ⟨⟨code k, by rw [Prog.bind_pure]; rfl⟩, rfl⟩)⟩
  exact .idle hidle

/-- The system, down to the buffer pools, is a map that the clients call. -/
theorem AtomicStack.tracked {x x' : Stack κ} {y : System κ NetEff NetProc Machine}
    {a : Option (Place Eff Proc Machine)} {z : (κ → Phase Call Outcome) × KV}
    {es : List (Event κ Call Outcome)} (hx : AtomicStack after x y a) (hy : Tracks StoreHolds y z)
    (h : Trace (StackStep after) x es x')
    (hs : ∀ k c, .invoke k c ∈ es → c.Fits) :
    ∃ y' a' z', Trace (AtomicStep callObject) z es z' ∧ AtomicStack after x' y' a' ∧
      Tracks StoreHolds y' z' := by
  have hstep : ∀ (x : Stack κ) y e x', (∃ a, AtomicStack after x y a) → (∀ e', e = some e' → True) →
      StackStep after x e x' →
        ∃ y', Trace (AtomicStackStep after) y e.toList y' ∧ ∃ a, AtomicStack after x' y' a := by
    rintro x y e x' ⟨a, hx⟩ - hs
    rcases hx.step hs with ⟨rfl, a', -, hx'⟩ | ⟨y', a', hs', hx'⟩
    · exact ⟨y, .refl, a', hx'⟩
    · exact ⟨y', .single hs', a', hx'⟩
  obtain ⟨y', h', a', hx'⟩ := h.simulated _ _ hstep ⟨a, hx⟩ fun _ _ => trivial
  obtain ⟨z', h'', hy'⟩ := h'.simulated (Tracks StoreHolds)
    (fun e => ∀ k c, e = .invoke k c → c.Fits)
    (fun _ _ _ _ hx hok hs => by
      obtain ⟨y', hd, hy'⟩ := hs.tracked (storeObject after) hx fun k c he => hok _ he k c rfl
      exact ⟨y', hd.trace, hy'⟩)
    hy fun e he k c hc => hs k c (hc ▸ he)
  exact ⟨y', a', z', h'', hx', hy'⟩

/-! ## Without calls -/

section Calm

variable {x x' : Stack κ} {y : System κ NetEff NetProc Machine}
  {a : Option (Place Eff Proc Machine)} {z : (κ → Phase Call Outcome) × KV} {k : κ}

omit [DecidableEq κ] in
theorem Tracks.outside {β : Type} {e : NetEff β} {f : β → Net Int} (hy : Tracks StoreHolds y z)
    (hidle : z.1 k = .idle) (ht : y.thread k = .op e f) : storeCall e = none := by
  by_contra hc
  obtain ⟨c, hc⟩ := Option.ne_none_iff_exists'.mp hc
  have hk := hy.conn k
  rw [ht] at hk
  obtain ⟨c', hph, -⟩ := hk.store_step hc
  cases hidle.symm.trans hph

omit [DecidableEq κ] in
theorem AtomicStack.outside (hx : AtomicStack after x y a) (hy : Tracks StoreHolds y z)
    (hidle : ∀ k, z.1 k = .idle) : a = none := by
  have hin := hx.atomic.inmost
  cases a with
  | none => rfl
  | some b =>
    obtain ⟨k, e, f, p, hu, hp, -⟩ := hin
    have hnone : storeCode after _ _ = none := storeCode_none.mpr (hy.outside (hidle k) hu)
    cases hnone.symm.trans hp

/-- **Without calls under way** the threads leave the store alone. -/
theorem AtomicStack.step_idle (hx : AtomicStack after x y none) (hy : Tracks StoreHolds y z)
    (hidle : ∀ k, z.1 k = .idle) (hs : StackStep after x none x') :
    ∃ y', AtomicStack after x' y' none ∧ Tracks StoreHolds y' z ∧ y'.store = y.store := by
  rcases hx.step hs with ⟨-, a', hd, -⟩ | ⟨y', a', hs', hx'⟩
  · cases hd with
    | @enter k _ _ _ _ hu hp =>
      have hnone : storeCode after _ _ = none := storeCode_none.mpr (hy.outside (hidle k) hu)
      cases hnone.symm.trans hp
  · obtain ⟨z', hd, hy'⟩ := hs'.tracked (storeObject after) hy fun _ _ h => by cases h
    obtain rfl : z' = z := by
      cases hd with
      | nothing => rfl
      | step h =>
        cases h with
        | @perform _ _ k _ hph => cases (hidle k).symm.trans hph
    obtain rfl := hx'.outside hy' hidle
    refine ⟨y', hx', hy', ?_⟩
    cases hs' with
    | client k h hs => rfl
    | thread k hs =>
      rcases (storeObject after).step hs with ⟨hstore, -, -⟩ | ⟨β, e, f, c, b, ht, -, hc, -⟩
      · exact hstore
      · cases hc.symm.trans (hy.outside (hidle k) ht)

end Calm

/-! ## Calls on a map -/

/-- No value is empty, ends before its last byte, as far as the driver can tell, or is too long for
it. -/
def Readable (m : KV) : Prop := ∀ key v, m key = some v → v ≠ [] ∧ v.length ≤ maxStrLen ∧ 0 ∉ v

/-- The strings fit into an `int` with their zero byte, the last one is not empty, and a value to be
stored has no zero byte. -/
def Call.Sendable (c : Call) : Prop := c.Fits ∧ ∀ key value, c = .set key value → 0 ∉ value

theorem Readable.filled (hm : Readable m) : Filled m := fun key h => (hm key _ h).1 rfl

theorem Readable.onMap {c : Call} (hm : Readable m) (hc : c.Sendable) : Readable (c.onMap m).2 := by
  intro key v hv
  cases c with
  | get key' =>
    rw [Call.onMap] at hv
    split_ifs at hv
    · exact hm key v hv
    · exact hm key v hv
  | set key' value =>
    rw [Call.onMap] at hv
    split_ifs at hv with hk hlen
    · exact hm key v hv
    · exact hm key v hv
    · dsimp only at hv
      by_cases h : key = key'
      · rw [h, Function.update_self] at hv
        cases hv
        exact ⟨fun h => hc.1.last (congrArg some h), not_lt.mp hlen, hc.2 _ _ rfl⟩
      · rw [Function.update_of_ne h] at hv
        exact hm key v hv
  | del key' =>
    rw [Call.onMap] at hv
    split_ifs at hv
    · exact hm key v hv
    · dsimp only at hv
      by_cases h : key = key'
      · rw [h, Function.update_self] at hv
        cases hv
      · rw [Function.update_of_ne h] at hv
        exact hm key v hv

theorem Readable.callObject {c : Call} (hm : Readable m) (hc : c.Sendable) :
    callObject c m = c.onMap m ∧ Readable (callObject c m).2 := by
  have hplain : c.Plain m := by
    cases c with
    | get key => exact fun _ v hv => (hm key v hv).2
    | set key value => trivial
    | del key => trivial
  have h : Server.callObject c m = c.onMap m :=
    Prod.ext ((c.answer_iff m).mpr hplain) (c.storeAfter_made m)
  exact ⟨h, h ▸ hm.onMap hc⟩

end Whole

end MyJQL.Server
