import MyJQL.Shell.System
import MyJQL.Store.Reopen

/-!
# Lifetimes of the server

The server is started, shells connect to it, it is stopped, and started again on its files.

* `Lifetimes`, `MapLifetimes`: lifetimes of the server, and of a map that stays;
* `sessions`, `lifetimes_sessions`: one shell in each lifetime;
* **`lifetimes_refine`**: what shells print over all lifetimes is what they print on one map.
-/

set_option linter.unusedSimpArgs false

namespace MyJQL.Shell

open Server

variable {after : ℕ → Byte} {m m' : KV} {t t' : Machine} {n : ℕ}

/-- **The store, closed and opened again**, holds its map. -/
theorem storeHolds_reopen (ht : StoreHolds m t) : StoreHolds m (reopen t) := by
  obtain ⟨rows, s, hs, hm⟩ := ht
  exact ⟨rows, _, hs.reopened.2, hm⟩

/-- What the shells of a lifetime are given, and have printed. -/
abbrev Screens := Σ n, Fin n → List Byte × List Byte

/-- The inputs, and what has been printed so far. -/
def screens (stdin : Fin n → List Byte) (shells : Shells (Fin n)) : Screens :=
  ⟨n, fun k => (stdin k, (shells k).2.out)⟩

/-- **Lifetimes of the server.** In each, any number of shells run to their ends, in any interleaving.
Then `exit_nicely` closes the store at a moment when no thread is in the critical section, and the
threads may go on until the process exits. The next lifetime begins with `myjql_init` on the same
files. -/
inductive Lifetimes (after : ℕ → Byte) : Machine → List Screens → Machine → Prop
  | nil {t : Machine} : Lifetimes after t [] t
  | cons {t t' : Machine} {n : ℕ} {stdin : Fin n → List Byte} {code : Fin n → CInt}
      {c c' : Shells (Fin n) × Stack (Fin n)} {l : List Screens}
      (hs : Relation.ReflTransGen (ShellsStep after) (startShells stdin, stackStart after code t) c)
      (hend : ∀ k, ∃ a, (c.1 k).1 = .pure a) (hfree : c.2.hub.owner = none)
      (hexit : Relation.ReflTransGen (ShellsStep after) c c')
      (h : Lifetimes after (reopen c.2.store) l t') :
      Lifetimes after t (screens stdin c'.1 :: l) t'

/-- Lifetimes of shells whose commands take effect at once on one map, which stays. -/
inductive MapLifetimes : KV → List Screens → KV → Prop
  | nil {m : KV} : MapLifetimes m [] m
  | cons {m m' : KV} {n : ℕ} {stdin : Fin n → List Byte} {c : Shells (Fin n) × KV} {l : List Screens}
      (hs : Relation.ReflTransGen MapShellsStep (startShells stdin, m) c)
      (h : MapLifetimes c.2 l m') : MapLifetimes m (screens stdin c.1 :: l) m'

/-! ## Between `myjql_close` and the exit -/

section Closing

variable {κ : Type} [DecidableEq κ] {y : System κ NetEff NetProc Machine}
  {a : Option (Place Eff Proc Machine)} {z : (κ → Phase Call Outcome) × KV} {c c' : Shells κ × Stack κ}

theorem not_step_ended {c c' : Prog (SumEff ShellEff CommandEff) (SumProc ShellEff ShellProc NoProc)
    (Except Int Int) × Console} {a : Except Int Int} (h : c.1 = .pure a) :
    ¬ Step (ownEnv clientCall (semEnv consoleSem)) shellBodies c c' := by
  obtain ⟨p, s⟩ := c
  obtain rfl : p = .pure a := h
  exact nofun

/-- **Once all shells have ended**, the threads leave the store alone, whatever they still do. -/
theorem closing (hx : AtomicStack after c.2 y a) (hy : Tracks StoreHolds y z)
    (hidle : ∀ k, z.1 k = .idle) (hend : ∀ k, ∃ a, (c.1 k).1 = .pure a)
    (hs : Relation.ReflTransGen (ShellsStep after) c c') :
    c'.1 = c.1 ∧ c'.2.store = c.2.store ∧ ∀ k, ¬ (c'.2.thread k).AtObject := by
  obtain rfl := hx.outside hy hidle
  have key : c'.1 = c.1 ∧ ∃ y', AtomicStack after c'.2 y' none ∧ Tracks StoreHolds y' z ∧
      y'.store = y.store := by
    induction hs with
    | refl => exact ⟨rfl, y, hx, hy, rfl⟩
    | @tail d _ _ hs ih =>
      obtain ⟨hsame, y', hx', hy', hstore⟩ := ih
      have hno : ∀ k op g, ¬ AtCall clientCall (d.1 k).1 op g := fun k op g hat => by
        obtain ⟨a, ha⟩ := hend k
        rw [hsame, ha] at hat
        cases hat
      cases hs with
      | own k h =>
        obtain ⟨a, ha⟩ := hend k
        rw [← hsame] at ha
        dsimp only at ha
        exact absurd h (not_step_ended ha)
      | silent hs =>
        obtain ⟨y'', hx'', hy'', h⟩ := hx'.step_idle hy' hidle hs
        exact ⟨hsame, y'', hx'', hy'', h.trans hstore⟩
      | invoke k hat hs => exact absurd hat (hno k _ _)
      | result k hat hs => exact absurd hat (hno k _ _)
  obtain ⟨hsame, y', hx', -, hstore⟩ := key
  refine ⟨hsame, ?_, fun k hk => ?_⟩
  · exact hx'.atomic.inmost.1.trans (hstore.trans hx.atomic.inmost.1.symm)
  · rw [hx'.atomic.inmost.2 k] at hk
    exact Prog.not_atObject_link _ hk

end Closing

/-- One lifetime: what has been printed, and the map on the files. The threads no longer call the
store when it is closed. -/
theorem lifetime_refine {stdin : Fin n → List Byte} {code : Fin n → CInt}
    {c c' : Shells (Fin n) × Stack (Fin n)} (ht : StoreHolds m t) (hm : Server.Readable m)
    (hr : ∀ k, ExitInput (stdin k))
    (hs : Relation.ReflTransGen (ShellsStep after) (startShells stdin, stackStart after code t) c)
    (hend : ∀ k, ∃ a, (c.1 k).1 = .pure a) (hfree : c.2.hub.owner = none)
    (hexit : Relation.ReflTransGen (ShellsStep after) c c') :
    (∃ d : Shells (Fin n) × KV, Relation.ReflTransGen MapShellsStep (startShells stdin, m) d ∧
      screens stdin d.1 = screens stdin c'.1 ∧ Server.Readable d.2 ∧
      StoreHolds d.2 (reopen c.2.store)) ∧
    c'.2.store = c.2.store ∧ ∀ k, ¬ (c'.2.thread k).AtObject := by
  obtain ⟨d, ph, h, hd⟩ := (callersAt_start hr (fun k => calls_sendable (stdin k)) hm
    (tracks_start ht hm.filled)).run (stack_isObject after) hs
  obtain ⟨y, a, hx, hy⟩ := h.system.held
  have hidle : ∀ k, ph k = .idle := fun k => (hend k).elim fun _ hp => h.idle hp
  obtain ⟨hsame, hstore, hout⟩ := closing hx hy hidle hend hexit
  refine ⟨⟨d, hd, ?_, h.system.readable, storeHolds_reopen (hx.holds hy.store hfree)⟩, hstore, hout⟩
  have hsame' : ∀ k, (d.1 k).2 = (c.1 k).2 := fun k => (h.together k).same
  simp only [screens, hsame, hsame']

/-! ## One shell in each lifetime -/

/-- What one shell after the other is given and prints, and the map afterwards. -/
def sessions (m : KV) : List (List Byte) → List Screens
  | [] => []
  | stdin :: inputs =>
    let r := session m (splitLines stdin).1
    ⟨1, fun _ => (stdin, r.1)⟩ :: sessions r.2 inputs

theorem lifetime_session (after : ℕ → Byte) (code : Fin 1 → CInt) {K : Finset (List Byte)}
    {stdin : List Byte} (ht : StoreHolds m t) (hm : Server.Readable m) (hr : ExitInput stdin)
    (hkeys : ∀ key, m key ≠ none → key ∈ K) (hset : Calls (Call.SetsIn K) stdin)
    (hK : K.card < maxKeys) :
    ∃ c : Shells (Fin 1) × Stack (Fin 1),
      Relation.ReflTransGen (ShellsStep after) (startShells fun _ => stdin, stackStart after code t) c ∧
      (c.1 0).1 = .pure (.ok 0) ∧ c.2.hub.owner = none ∧
      (c.1 0).2.out = (session m (splitLines stdin).1).1 ∧
      StoreHolds (session m (splitLines stdin).1).2 (reopen c.2.store) ∧
      Server.Readable (session m (splitLines stdin).1).2 ∧
      ∀ key, (session m (splitLines stdin).1).2 key ≠ none → key ∈ K := by
  obtain ⟨c, hs, hfree, ph, m', hserves, hend, hsession⟩ :=
    (callers_end_one (0 : Fin 1) (stack_answers after hK)
    (callersAt_live ht hm (fun _ => hr) hkeys fun _ => hset) (shell_session hr hm)
    fun c hc => ⟨_, hc.1⟩).exists_run
  obtain ⟨y, a, hx, hy⟩ := hserves.held
  obtain ⟨hout, hmap⟩ := Prod.ext_iff.mp hsession
  obtain rfl : m' = (session m (splitLines stdin).1).2 := hmap
  exact ⟨c, hs, hend, hfree, hout, storeHolds_reopen (hx.holds hy.tracks.store hfree), hserves.readable, hy.keys⟩

variable (after) in
theorem lifetimes_sessions {K : Finset (List Byte)} {inputs : List (List Byte)}
    (ht : StoreHolds m t) (hm : Server.Readable m) (hr : ∀ stdin ∈ inputs, ExitInput stdin)
    (hkeys : ∀ key, m key ≠ none → key ∈ K)
    (hset : ∀ stdin ∈ inputs, Calls (Call.SetsIn K) stdin) (hK : K.card < maxKeys) :
    ∃ t', Lifetimes after t (sessions m inputs) t' := by
  induction inputs generalizing m t with
  | nil => exact ⟨t, .nil⟩
  | cons stdin inputs ih =>
    obtain ⟨c, hs, hend, hfree, hout, hstore, hread, hkeys'⟩ := lifetime_session after (fun _ => 0) ht hm
      (hr _ List.mem_cons_self) hkeys (hset _ List.mem_cons_self) hK
    obtain ⟨t', h⟩ := ih hstore hread (fun x hx => hr x (List.mem_cons_of_mem _ hx)) hkeys'
      fun x hx => hset x (List.mem_cons_of_mem _ hx)
    refine ⟨t', ?_⟩
    have hscreens : screens (fun _ => stdin) c.1 =
        ⟨1, fun _ => (stdin, (session m (splitLines stdin).1).1)⟩ := by
      rw [screens, ← hout]
      exact congrArg _ (funext fun k => by rw [Subsingleton.elim k 0])
    rw [sessions, ← hscreens]
    exact .cons hs (fun k => ⟨_, Subsingleton.elim k 0 ▸ hend⟩) hfree .refl h

/-! ## All lifetimes -/

/-- An input that gets a key. -/
def getOnly : List Byte := ascii "get a\nexit\n"

theorem splitLines_getOnly : splitLines getOnly = ([ascii "get a", ascii "exit"], []) := by decide

theorem exitInput_getOnly : ExitInput getOnly := by
  rw [ExitInput, splitLines_getOnly]
  exact ⟨by decide, Or.inr ⟨by decide, Or.inl isExit_exit⟩⟩

theorem calls_getOnly : Calls (Call.SetsIn {ascii "a"}) getOnly := by
  intro line hline hlen c hc
  rw [splitLines_getOnly] at hline
  simp only [List.mem_cons, List.not_mem_nil, or_false] at hline
  rcases hline with rfl | rfl
  · obtain rfl : .get (ascii "a") = c := Command.call.inj hc
    simp [Call.SetsIn]
  · cases hc

/-- **Nothing is lost from lifetime to lifetime.** What shells print over any number of lifetimes of
the server, with any number of shells in each that run in any interleaving, effect by effect, is what
shells print whose commands take effect at once on one map, which stays from lifetime to lifetime and
is what the store holds in the end. -/
theorem lifetimes_refine {l : List Screens} (ht : StoreHolds m t) (hm : Server.Readable m)
    (hr : ∀ x ∈ l, ∀ k, ExitInput (x.2 k).1) (hl : Lifetimes after t l t') :
    ∃ m', MapLifetimes m l m' ∧ StoreHolds m' t' := by
  induction hl generalizing m with
  | nil => exact ⟨m, .nil, ht⟩
  | cons hs hend hfree hexit _ ih =>
    obtain ⟨⟨d, hd, hsame, hread, hstore⟩, -⟩ := lifetime_refine ht hm
      (hr _ List.mem_cons_self) hs hend hfree hexit
    obtain ⟨m', hm', ht'⟩ := ih hstore hread fun x hx => hr x (List.mem_cons_of_mem _ hx)
    exact ⟨m', hsame ▸ .cons hd hm', ht'⟩

theorem lifetimes_refine_two : ∃ t' m',
    MapLifetimes (fun _ => none)
      [⟨1, fun _ => (setGet, ascii "myjql> OK\nmyjql> b\nmyjql> bye~\n")⟩,
        ⟨1, fun _ => (getOnly, ascii "myjql> b\nmyjql> bye~\n")⟩] m' ∧ StoreHolds m' t' := by
  have hr : ∀ stdin ∈ [setGet, getOnly], ExitInput stdin := by
    simp [exitInput_setGet, exitInput_getOnly]
  have hset : ∀ stdin ∈ [setGet, getOnly], Calls (Call.SetsIn {ascii "a"}) stdin := by
    simp [calls_setGet, calls_getOnly]
  obtain ⟨t', hl⟩ := lifetimes_sessions (fun _ => 0) storeHolds_new nofun hr nofun hset
    (by decide)
  rw [sessions, sessions, sessions, splitLines_setGet, splitLines_getOnly] at hl
  refine ⟨t', lifetimes_refine storeHolds_new nofun ?_ hl⟩
  simp [exitInput_setGet, exitInput_getOnly]

end MyJQL.Shell
