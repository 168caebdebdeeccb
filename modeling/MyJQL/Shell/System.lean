import MyJQL.Server.Progress
import MyJQL.Shell.Session

/-!
# Shells on the whole system

Any number of shells, each with its own input, on the driver, the threads of the server and the code
of the store down to the buffer pools.

* `stack_isObject`, `stack_answers`: the system is the map, for its clients, and it answers;
* **`shells_refine`**: in every interleaving, effect by effect, the shells print what shells print
  whose commands take effect at once on one map;
* **`shells_end`**: they come to their ends; **`shell_end`**: one shell prints what a session on the
  map prints, and leaves its map in the store.
-/

set_option linter.unusedSimpArgs false

namespace MyJQL.Shell

open Server

/-! ## The system as an object -/

section Objects

variable {κ : Type} [DecidableEq κ] {after : ℕ → Byte} {K : Finset (List Byte)} {m : KV}
  {t : Machine}
  {code : κ → CInt}

/-- The system holds a readable map, on which its clients call. -/
structure Serves (after : ℕ → Byte) (I : System κ NetEff NetProc Machine →
    (κ → Phase Call Outcome) × KV → Prop) (x : Stack κ) (z : (κ → Phase Call Outcome) × KV) : Prop where
  readable : Server.Readable z.2
  waiting : ∀ k c, z.1 k = .waiting c → c.Sendable
  held : ∃ y a, AtomicStack after x y a ∧ I y z

theorem Serves.does {I : System κ NetEff NetProc Machine → (κ → Phase Call Outcome) × KV → Prop}
    {x x' : Stack κ} {y : System κ NetEff NetProc Machine} {a : Option (Place Eff Proc Machine)}
    {z z' : (κ → Phase Call Outcome) × KV} {e : Option (MyJQL.Event κ Call Outcome)}
    (h : Serves after I x z) (hd : Does callObject z e z')
    (hok : ∀ k c, e = some (.invoke k c) → c.Sendable) (hx : AtomicStack after x' y a)
    (hI : I y z') :
    Does (fun c m => c.onMap m) z e z' ∧ Serves after I x' z' := by
  obtain ⟨hd', hm, hw⟩ := Does.agree (fun (c : Call) (m : KV) hc hm => hm.callObject hc) hd
    h.readable h.waiting hok
  exact ⟨hd', hm, hw, y, a, hx, hI⟩

/-- **The system is the map.** -/
theorem stack_isObject (after : ℕ → Byte) : IsObject (StackStep (κ := κ) after) (fun c m => c.onMap m)
    Call.Sendable (Serves after (Tracks StoreHolds)) where
  step x z e x' h hok hs := by
    obtain ⟨y, a, hx, hy⟩ := h.held
    rcases hx.step hs with ⟨rfl, a', -, hx'⟩ | ⟨y', a', hs', hx'⟩
    · exact ⟨z, .nothing, h.readable, h.waiting, y, a', hx', hy⟩
    · obtain ⟨z', hd, hy'⟩ := hs'.tracked (storeObject after) hy fun k c he => (hok k c he).1
      exact ⟨z', h.does hd hok hx' hy'⟩

/-- No thread is in the critical section. -/
def Free (x : Stack κ) : Prop := x.hub.owner = none

variable [Fintype κ]

/-- **The system answers**, as long as the clients set fewer than `maxKeys` keys. -/
theorem stack_answers (after : ℕ → Byte) (hK : K.card < maxKeys) :
    Answers (StackStep (κ := κ) after) (fun c m => c.onMap m) (fun c => c.Sendable ∧ c.SetsIn K) Free
      (Serves after (Live K)) where
  step x z e x' h hok hs := by
    obtain ⟨y, a, hx, hy⟩ := h.held
    rcases hx.step hs with ⟨rfl, a', -, hx'⟩ | ⟨y', a', hs', hx'⟩
    · exact ⟨z, .nothing, h.readable, h.waiting, y, a', hx', hy⟩
    · obtain ⟨z', hd, hy'⟩ := hy.next (fun k c he => ⟨(hok k c he).1.1, (hok k c he).2⟩) hs'
      exact ⟨z', h.does hd (fun k c he => (hok k c he).1) hx' hy'⟩
  takes x z k c h hidle _ := by
    obtain ⟨y, a, hx, hy⟩ := h.held
    have hk := hy.tracks.conn k
    rw [hidle] at hk
    refine ⟨_, .invoke k c ?_⟩
    rw [hx.client]
    generalize y.client k = o at hk ⊢
    cases hk
    rfl
  goes x z h hn := by
    obtain ⟨y, a, hx, hy⟩ := h.held
    refine hx.go hy hK ?_
    rcases hn with ⟨k, hk⟩ | hfree
    · refine (hy.goes hK).resolve_left fun hnone => hk ?_
      have hconn := hy.tracks.conn k
      rw [hnone k] at hconn
      generalize z.1 k = p at hconn ⊢
      cases hconn
      rfl
    · have hhub : x.hub = y.hub := hx.atomic.shared
      rw [Free, hhub] at hfree
      obtain ⟨k, hk⟩ := Option.ne_none_iff_exists'.mp hfree
      obtain ⟨⟨p, hub, store⟩, hs⟩ := hy.owner_goes hK hk
      exact ⟨_, none, nofun, .thread k hs⟩
  ends x z h := by
    obtain ⟨y, a, hx, hy⟩ := h.held
    refine Subrelation.accessible (fun hs => ?_) (hx.acc hy hK)
    exact ⟨none, nofun, hs⟩

end Objects

/-! ## Shells -/

section Shells

variable {κ : Type} [DecidableEq κ] {after : ℕ → Byte} {K : Finset (List Byte)} {m : KV}
  {t : Machine}
  {code : κ → CInt} {stdin : κ → List Byte}

/-- The shells, each with its console. -/
abbrev Shells (κ : Type) :=
  κ → Prog (SumEff ShellEff CommandEff) (SumProc ShellEff ShellProc NoProc) (Except Int Int) × Console

/-- The shells at first. -/
def startShells (stdin : κ → List Byte) : Shells κ := fun k => (shell, ⟨stdin k, false, []⟩)

/-- The steps of the shells and of the whole system. -/
abbrev ShellsStep (after : ℕ → Byte) : Shells κ × Stack κ → Shells κ × Stack κ → Prop :=
  CallerStep clientCall (semEnv consoleSem) shellBodies (StackStep after)

/-- The steps of shells whose commands take effect at once on one map. -/
abbrev MapShellsStep : Shells κ × KV → Shells κ × KV → Prop :=
  AtomicCallerStep clientCall (semEnv consoleSem) shellBodies fun c m => c.onMap m

omit [DecidableEq κ] in
theorem startShells_orderly {ok : Call → Prop} (hr : ∀ k, ExitInput (stdin k))
    (hok : ∀ k, Calls ok (stdin k)) :
    Orderly clientCall (semEnv consoleSem) shellBodies ok (.ok 0) (startShells stdin) :=
  fun k => shell_orderly (hr k) (hok k)

omit [DecidableEq κ] in
theorem callersAt_start {ok : Call → Prop} {I : System κ NetEff NetProc Machine →
    (κ → Phase Call Outcome) × KV → Prop} (hr : ∀ k, ExitInput (stdin k))
    (hok : ∀ k, Calls ok (stdin k)) (hm : Server.Readable m)
    (hI : I (System.start code t instanceThread) (fun _ => .idle, m)) :
    CallersAt clientCall (semEnv consoleSem) shellBodies ok (.ok 0) (Serves after I)
      (startShells stdin, stackStart after code t) (startShells stdin, m) fun _ => .idle where
  system := ⟨hm, nofun, _, none, atomicStack_start, hI⟩
  together _ := .idle
  orderly := startShells_orderly hr hok

/-- An input that sets a key and gets it. -/
def setGet : List Byte := ascii "set a b\nget a\nexit\n"

theorem splitLines_setGet :
    splitLines setGet = ([ascii "set a b", ascii "get a", ascii "exit"], []) := by decide

theorem isExit_exit : IsExit (ascii "exit") := ⟨by decide, by decide⟩

theorem exitInput_setGet : ExitInput setGet := by
  rw [ExitInput, splitLines_setGet]
  exact ⟨by decide, Or.inr ⟨by decide, Or.inr ⟨by decide, Or.inl isExit_exit⟩⟩⟩

theorem calls_setGet : Calls (Call.SetsIn {ascii "a"}) setGet := by
  intro line hline hlen c hc
  rw [splitLines_setGet] at hline
  simp only [List.mem_cons, List.not_mem_nil, or_false] at hline
  rcases hline with rfl | rfl | rfl
  · obtain rfl : .set (ascii "a") (ascii "b") = c := Command.call.inj hc
    simp [Call.SetsIn]
  · obtain rfl : .get (ascii "a") = c := Command.call.inj hc
    simp [Call.SetsIn]
  · cases hc

/-- **Shells on the whole system are shells on one map.** In every interleaving, effect by effect, of
any number of shells whose inputs have a line `exit`, the driver, the threads of the server and the
code of the store down to the buffer pools: there are shells with the same inputs whose commands take
effect at once on one map, and which have read and printed the same, and are at the same place between
two calls. While no thread is in the critical section, the store holds this map. A shell that has ended
has left its loop, with 0. -/
theorem shells_refine [Fintype κ] {c : Shells κ × Stack κ} (ht : StoreHolds m t)
    (hm : Server.Readable m) (hr : ∀ k, ExitInput (stdin k))
    (hs : Relation.ReflTransGen (ShellsStep after) (startShells stdin, stackStart after code t) c) :
    ∃ shells m', Relation.ReflTransGen MapShellsStep (startShells stdin, m) (shells, m') ∧
      (∀ k, (shells k).2 = (c.1 k).2) ∧ (∀ k, c.2.client k = none → shells k = c.1 k) ∧
      (c.2.hub.owner = none → StoreHolds m' c.2.store) ∧
      ∀ k a, (c.1 k).1 = .pure a → a = .ok 0 := by
  obtain ⟨⟨shells, m'⟩, ph, h, hd⟩ := (callersAt_start hr (fun k => calls_sendable (stdin k)) hm
    (tracks_start ht hm.filled)).run (stack_isObject after) hs
  obtain ⟨y, a, hx, hy⟩ := h.system.held
  refine ⟨shells, m', hd, fun k => (h.together k).same, fun k hk => ?_, hx.holds hy.store,
    fun k a ha => h.result ha⟩
  have hconn := hy.conn k
  have htog := h.together k
  rw [← hx.client, hk] at hconn
  dsimp only at hconn htog
  generalize ph k = p at hconn htog
  cases hconn
  exact htog.of_idle

omit [DecidableEq κ] in
theorem callersAt_live [Fintype κ] (ht : StoreHolds m t) (hm : Server.Readable m)
    (hr : ∀ k, ExitInput (stdin k)) (hkeys : ∀ key, m key ≠ none → key ∈ K)
    (hset : ∀ k, Calls (Call.SetsIn K) (stdin k)) :
    CallersAt clientCall (semEnv consoleSem) shellBodies (fun c => c.Sendable ∧ c.SetsIn K) (.ok 0)
      (Serves after (Live K)) (startShells stdin, stackStart after code t) (startShells stdin, m)
      fun _ => .idle :=
  callersAt_start hr (fun k line hline hlen c hc =>
    ⟨calls_sendable (stdin k) line hline hlen c hc, hset k line hline hlen c hc⟩) hm
    (live_start ht hm.filled hkeys)

/-- Two shells that set and get one key. -/
theorem shells_refine_two : ∃ c : Shells Bool × Stack Bool, (∀ k, (c.1 k).1 = .pure (.ok 0)) ∧
    ∃ shells m', Relation.ReflTransGen MapShellsStep (startShells fun _ => setGet, fun _ => none)
      (shells, m') ∧ (∀ k, (shells k).2 = (c.1 k).2) ∧
      (∀ k, c.2.client k = none → shells k = c.1 k) ∧
      (c.2.hub.owner = none → StoreHolds m' c.2.store) ∧
      ∀ k a, (c.1 k).1 = .pure a → a = .ok 0 := by
  have hlive : CallersAt clientCall (semEnv consoleSem) shellBodies _ _
      (Serves (κ := Bool) (fun _ => 0) (Live {ascii "a"}))
      (startShells fun _ => setGet, stackStart (fun _ => 0) (fun _ => 0) storeMachine)
      (startShells fun _ => setGet, fun _ => none) fun _ => .idle :=
    callersAt_live storeHolds_new nofun (fun _ => exitInput_setGet) nofun fun _ => calls_setGet
  obtain ⟨c, hrun, hend, -⟩ := (callers_end (stack_answers _ (by decide)) hlive).exists_run
  exact ⟨c, hend, shells_refine storeHolds_new nofun (fun _ => exitInput_setGet) hrun⟩

/-- **Shells come to their ends**: every run of any number of shells whose inputs have a line `exit`
and which set fewer than `maxKeys` keys goes on until all have left their loops, and what they have
printed and the map in the store are those of shells whose commands take effect at once. -/
theorem shells_end [Fintype κ] (ht : StoreHolds m t) (hm : Server.Readable m)
    (hr : ∀ k, ExitInput (stdin k)) (hkeys : ∀ key, m key ≠ none → key ∈ K)
    (hset : ∀ k, Calls (Call.SetsIn K) (stdin k)) (hK : K.card < maxKeys) :
    Eventually (ShellsStep after) (fun c => (∀ k, (c.1 k).1 = .pure (.ok 0)) ∧
      ∃ m', Relation.ReflTransGen MapShellsStep (startShells stdin, m) (c.1, m') ∧
        StoreHolds m' c.2.store) (startShells stdin, stackStart after code t) := by
  refine (callers_end (stack_answers after hK) (callersAt_live ht hm hr hkeys hset)).mono ?_
  rintro ⟨shells, x⟩ ⟨hend, hfree, ph, m', hserves, hd⟩
  obtain ⟨y, a, hx, hy⟩ := hserves.held
  exact ⟨hend, m', hd, hx.holds hy.tracks.store hfree⟩

theorem shells_end_two : Eventually (ShellsStep fun _ => 0)
    (fun c : Shells Bool × Stack Bool => (∀ k, (c.1 k).1 = .pure (.ok 0)) ∧
      ∃ m', Relation.ReflTransGen MapShellsStep (startShells fun _ => setGet, fun _ => none) (c.1, m') ∧
        StoreHolds m' c.2.store)
    (startShells fun _ => setGet, stackStart (fun _ => 0) (fun _ => 0) storeMachine) :=
  shells_end (K := {ascii "a"}) storeHolds_new nofun (fun _ => exitInput_setGet) nofun
    (fun _ => calls_setGet) (by decide)

/-- **One shell on the whole system**: every run of a shell whose input has a line `exit` and which
sets fewer than `maxKeys` keys goes on until it has left its loop, and it has printed what a session
on the map prints, whose map the store then holds. -/
theorem shell_end {code : Unit → CInt} {stdin : List Byte} (ht : StoreHolds m t)
    (hm : Server.Readable m) (hr : ExitInput stdin) (hkeys : ∀ key, m key ≠ none → key ∈ K)
    (hset : Calls (Call.SetsIn K) stdin) (hK : K.card < maxKeys) :
    Eventually (ShellsStep after) (fun c => (c.1 ()).1 = .pure (.ok 0) ∧
      (c.1 ()).2.out = (session m (splitLines stdin).1).1 ∧
        StoreHolds (session m (splitLines stdin).1).2 c.2.store)
      (startShells fun _ => stdin, stackStart after code t) := by
  refine (callers_end_one () (stack_answers after hK)
    (callersAt_live ht hm (fun _ => hr) hkeys fun _ => hset) (shell_session hr hm)
    fun c hc => ⟨_, hc.1⟩).mono ?_
  rintro ⟨shells, x⟩ ⟨hfree, ph, m', hserves, hend, hsession⟩
  obtain ⟨y, a, hx, hy⟩ := hserves.held
  obtain ⟨hout, hmap⟩ := Prod.ext_iff.mp hsession
  exact ⟨hend, hout, hmap ▸ hx.holds hy.tracks.store hfree⟩

theorem shell_end_setGet : Eventually (ShellsStep fun _ => 0)
    (fun c => (c.1 ()).1 = .pure (.ok 0) ∧
      (c.1 ()).2.out = ascii "myjql> OK\nmyjql> b\nmyjql> bye~\n" ∧
        StoreHolds (Function.update (fun _ => none) (ascii "a") (some (ascii "b"))) c.2.store)
    (startShells fun _ => setGet, stackStart (fun _ => 0) (fun _ => 0) storeMachine) := by
  refine (shell_end (K := {ascii "a"}) storeHolds_new nofun exitInput_setGet nofun calls_setGet
    (by decide)).mono ?_
  rintro c ⟨hend, hout, hstore⟩
  rw [splitLines_setGet] at hout hstore
  exact ⟨hend, hout, hstore⟩

end Shells

end MyJQL.Shell
