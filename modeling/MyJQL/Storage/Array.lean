import MyJQL.Storage.Simulation

/-!
# Plain arrays of pages

* `PageArray`, `arraySem`: the programs of the engine on arrays of pages, without frames, reference
  counts or eviction: a pointer is the address it was requested for, for ever;
* **`array_simulates`**: every effect of a flat store succeeds on the arrays, with the same answer;
* `Idle m`: a buffer pool with all reference counts `0`, whatever it has cached;
  `Idle.cached`: it holds a flat pool;
* **`wp.on_array`**: what runs on idle pools and on arrays alike.
-/

set_option linter.unusedSimpArgs false

namespace MyJQL

open BufferPool

/-- An array of pages, with the address of every pointer handed out. -/
structure PageArray where
  mem : Int → Page
  length : Int
  ptrs : ℕ → Int
  next : ℕ

/-- Five arrays of pages. -/
abbrev Arrays := PoolId → PageArray

/-- The effects on plain arrays of pages. -/
def arraySem : Sem Eff Arrays
  | _, .getPage i addr, u =>
    some (⟨i, (u i).next⟩, Function.update u i
      { u i with
        ptrs := Function.update (u i).ptrs (u i).next addr
        next := (u i).next + 1 })
  | _, .release _ _, u => some ((), u)
  | _, .load p, u => some ((u p.pool).mem ((u p.pool).ptrs p.id), u)
  | _, .store p page, u =>
    some ((), Function.update u p.pool
      { u p.pool with
        mem := Function.update (u p.pool).mem ((u p.pool).ptrs p.id) page })
  | _, .fileLength i, u => some ((u i).length, u)
  | _, .writePage i page addr, u =>
    some ((), Function.update u i
      { u i with
        mem := Function.update (u i).mem addr page
        length := if addr = (u i).length then (u i).length + pageSize else (u i).length })
  | _, .undefined, _ => none

/-- The arrays hold the pages of the flat pools, and their pointers. -/
structure FlatPool.OnArray (f : FlatPool) (u : PageArray) : Prop where
  mem : u.mem = f.mem
  length : u.length = f.length
  next : u.next = f.next
  ptrs : ∀ t a, f.At t a → u.ptrs t = a

/-- The arrays hold the flat pools. -/
def OnArrays (s : Flat) (u : Arrays) : Prop := ∀ i, (s i).OnArray (u i)

theorem OnArrays.update {s : Flat} {u : Arrays} {i : PoolId} {f : FlatPool} {v : PageArray}
    (h : OnArrays s u) (hi : f.OnArray v) :
    OnArrays (Function.update s i f) (Function.update u i v) := by
  intro j
  by_cases e : j = i
  · subst e
    simpa using hi
  · simpa [e] using h j

/-- **Every effect of a flat store succeeds on the arrays**, with the same answer. -/
theorem array_simulates (bd : Bool) : Simulates OnArrays (flatSem bd) arraySem := by
  intro β e s u r s' h he
  cases e with
  | getPage i addr =>
    simp only [flatSem] at he
    split_ifs at he
    obtain ⟨rfl, rfl⟩ := Prod.mk.inj (Option.some.inj he)
    have hi := h i
    simp only [arraySem, hi.next]
    refine ⟨_, rfl, h.update ⟨hi.mem, hi.length, rfl, fun t a hat => ?_⟩⟩
    obtain ⟨h1, h2⟩ := hat
    simp only [FlatPool.get] at h1 h2
    by_cases e : t = (s i).next
    · rw [if_pos e] at h2
      rw [e]
      exact (Function.update_self ..).trans (Option.some.inj h2)
    · rw [if_neg e] at h2
      split_ifs at h2
      exact (Function.update_of_ne e ..).trans (hi.ptrs t a ⟨by omega, h2⟩)
  | release i addr =>
    simp only [flatSem] at he
    split_ifs at he
    obtain ⟨rfl, rfl⟩ := Prod.mk.inj (Option.some.inj he)
    have hi := h i
    refine ⟨u, rfl, ?_⟩
    rw [← Function.update_eq_self i u]
    exact h.update ⟨hi.mem, hi.length, hi.next, hi.ptrs⟩
  | load p =>
    simp only [flatSem] at he
    split at he
    · next a ha =>
      obtain ⟨rfl, rfl⟩ := Prod.mk.inj (Option.some.inj he)
      have hp := h p.pool
      refine ⟨u, ?_, h⟩
      simp only [arraySem, hp.ptrs p.id a (FlatPool.deref_eq_some.mp ha).1, hp.mem]
    · cases he
  | store p page =>
    simp only [flatSem] at he
    split at he
    · next a ha =>
      obtain ⟨rfl, rfl⟩ := Prod.mk.inj (Option.some.inj he)
      have hp := h p.pool
      simp only [arraySem, hp.ptrs p.id a (FlatPool.deref_eq_some.mp ha).1, hp.mem]
      exact ⟨_, rfl, h.update ⟨rfl, hp.length, hp.next, hp.ptrs⟩⟩
    · cases he
  | fileLength i =>
    obtain ⟨rfl, rfl⟩ := Prod.mk.inj (Option.some.inj he)
    exact ⟨u, by simp only [arraySem, (h i).length], h⟩
  | writePage i page addr =>
    simp only [flatSem] at he
    split_ifs at he with hc
    obtain ⟨rfl, rfl⟩ := Prod.mk.inj (Option.some.inj he)
    have hi := h i
    simp only [arraySem, hi.mem, hi.length, hc.1, if_true]
    exact ⟨_, rfl, h.update ⟨rfl, rfl, hi.next, hi.ptrs⟩⟩
  | undefined => cases he

/-! ## Idle pools -/

/-- A buffer pool with all reference counts `0`, whatever it has cached. -/
structure Idle (m : Mapped) : Prop where
  wf : ∃ L, m.pool.Wf L
  ref : ∀ k < cachePage, m.pool.ref k = 0

/-- The flat pool an idle buffer pool holds. -/
def Mapped.idle (m : Mapped) : FlatPool :=
  ⟨m.pool.view, m.pool.file.length, 0, [], fun _ => none, m.next⟩

/-- The array an idle buffer pool holds. -/
def Mapped.array (m : Mapped) : PageArray := ⟨m.pool.view, m.pool.file.length, fun _ => 0, m.next⟩

variable {m : Mapped}

theorem Idle.new {pool : BufferPool Page} (h : pool.addrs = fun _ => -1)
    (hl : pool.lru = fun _ => -1) (hr : pool.ref = fun _ => 0) (h0 : 0 ≤ pool.file.length)
    (h1 : pool.file.length % pageSize = 0) : Idle (Mapped.new pool) :=
  ⟨⟨[], List.nodup_nil, Nat.zero_le _, fun _ _ => congrFun hl _,
    fun _ ha => absurd ha List.not_mem_nil, fun j _ => Or.inl (congrFun h j),
    fun j _ _ _ _ hn => absurd (congrFun h j) hn, fun _ ha => absurd ha List.not_mem_nil,
    fun j _ _ => congrFun hr j, h0, h1⟩, fun j _ => congrFun hr j⟩

theorem Cached.idle_of_pins {f : FlatPool} {m : Mapped} (h : Cached f m) (hp : f.pins = 0) :
    Idle m := by
  obtain ⟨L, hL⟩ := h
  refine ⟨⟨L, hL.wf⟩, fun k hk => ?_⟩
  by_cases ha : m.pool.addrs k = -1
  · exact hL.wf.ref_empty k hk ha
  · have hr := hL.ref _ ha
    rw [BufferPool.refOf, hL.wf.frameOf_addr hk rfl ha, hp, Multiset.count_zero] at hr
    exact hr

theorem Idle.cached (h : Idle m) : Cached m.idle m := by
  obtain ⟨L, hw⟩ := h.wf
  refine ⟨L, hw, rfl, fun _ _ => rfl, fun a _ => ?_, fun a ha => ?_, List.nil_prefix, rfl,
    fun t a ht => ?_⟩
  · rw [refOf]
    cases hf : m.pool.frameOf a with
    | none => rfl
    | some k => exact h.ref k (frameOf_some hf).1
  · exact absurd ha (Multiset.notMem_zero a)
  · exact absurd ht.1.2 (by simp [Mapped.idle])

theorem Mapped.idle_onArray (m : Mapped) : m.idle.OnArray m.array :=
  ⟨rfl, rfl, rfl, fun _ _ hat => absurd hat.2 (by simp [Mapped.idle])⟩

/-- The pools hold the pages of the arrays. -/
def SamePages (t : Machine) (u : Arrays) : Prop :=
  ∀ i, (t i).pool.file.length = (u i).length ∧ ∀ a ≠ -1, (t i).pool.view a = (u i).mem a

/-- **A program that runs on the flat store** returns the same on idle buffer pools and on arrays,
and leaves the same pages. -/
theorem wp.on_array {body : Bodies Eff Proc} {α : Type} {p : M α} {Q : α → Flat → Prop}
    {t : Machine}
    (ht : ∀ i, Idle (t i)) (h : wp (flatSem true) body p Q fun i => (t i).idle) :
    ∃ a t' u', Returns machineSem body p t a t' ∧ Returns arraySem body p (fun i => (t i).array) a u' ∧
      SamePages t' u' := by
  obtain ⟨a, s', ⟨n, hn⟩, -⟩ := h
  obtain ⟨t', hm, hs⟩ := run_sim machine_simulates (fun i => (ht i).cached : Holds _ t) hn
  obtain ⟨u', hu, hs'⟩ := run_sim (array_simulates true)
    (fun i => (t i).idle_onArray : OnArrays _ fun i => (t i).array) hn
  refine ⟨a, t', u', ⟨n, hm⟩, ⟨n, hu⟩, fun i => ?_⟩
  obtain ⟨L, hL⟩ := hs i
  have hi := hs' i
  exact ⟨hL.length.symm.trans hi.length.symm, fun b hb => by rw [hi.mem, hL.mem b hb]⟩

end MyJQL
