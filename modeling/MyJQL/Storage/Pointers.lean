import MyJQL.Lib.InStep
import MyJQL.Storage.Array

/-!
# Programs do not depend on the names of pointers

* `PagePtr.moved`: a pointer with another number; `EffMoved`, `ProcMoved`: effects and calls on the
  same pages through pointers with other numbers, and none on pool `i`;
* **`array_moved`**: on arrays with the same pages they answer alike;
* `EffReads`, **`flat_keeps`**: requests, releases and reads keep all pages.
-/

set_option linter.unusedSimpArgs false

namespace MyJQL

variable {i : PoolId} {shift : PoolId → ℕ} {α β : Type}

/-! ## Other numbers -/

/-- The pointer, in a run in which earlier requests were made. -/
def PagePtr.moved (shift : PoolId → ℕ) (p : PagePtr) : PagePtr := ⟨p.pool, p.id + shift p.pool⟩

/-- Pointers into pools other than `i`, with other numbers. -/
def PtrMoved (i : PoolId) (shift : PoolId → ℕ) (p q : PagePtr) : Prop :=
  q.pool ≠ i ∧ p = q.moved shift

/-- **The same effect**, through pointers with other numbers. -/
inductive EffMoved (i : PoolId) (shift : PoolId → ℕ) : ∀ β : Type, Eff β → Eff β →
    (β → β → Prop) → Prop
  | getPage {j : PoolId} (hj : j ≠ i) (addr : Int) :
      EffMoved i shift _ (.getPage j addr) (.getPage j addr) (PtrMoved i shift)
  | release {j : PoolId} (hj : j ≠ i) (addr : Int) :
      EffMoved i shift _ (.release j addr) (.release j addr) Eq
  | load {p q : PagePtr} (h : PtrMoved i shift p q) : EffMoved i shift _ (.load p) (.load q) Eq
  | store {p q : PagePtr} (h : PtrMoved i shift p q) (page : Page) :
      EffMoved i shift _ (.store p page) (.store q page) Eq
  | fileLength {j : PoolId} (hj : j ≠ i) : EffMoved i shift _ (.fileLength j) (.fileLength j) Eq
  | writePage {j : PoolId} (hj : j ≠ i) (page : Page) (addr : Int) :
      EffMoved i shift _ (.writePage j page addr) (.writePage j page addr) Eq
  | undefined : EffMoved i shift _ .undefined .undefined Eq

/-- The loop of `hash_table_insert`, through pointers with other numbers. -/
inductive ProcMoved (i : PoolId) (shift : PoolId → ℕ) : ∀ β : Type, Proc β → Proc β →
    (β → β → Prop) → Prop
  | hashTableInsertLoop {j : PoolId} (hj : j ≠ i) {ctrl ctrl' block block' : PagePtr}
      (hc : PtrMoved i shift ctrl ctrl') (hb : PtrMoved i shift block block')
      (addr blockAddr temp : Int) (count flag : ℕ) :
      ProcMoved i shift _ (.hashTableInsertLoop j ctrl block addr blockAddr temp count flag)
        (.hashTableInsertLoop j ctrl' block' addr blockAddr temp count flag)
        (Option.Rel fun r r' => PtrMoved i shift r.1 r'.1 ∧ r.2 = r'.2)

/-- The same pages in all pools but `i`, with other numbers of pointers. -/
def ArraysMoved (i : PoolId) (shift : PoolId → ℕ) (u v : Arrays) : Prop :=
  ∀ j ≠ i, (u j).mem = (v j).mem ∧ (u j).length = (v j).length ∧
    (u j).next = (v j).next + shift j ∧ ∀ n, (u j).ptrs (n + shift j) = (v j).ptrs n

theorem ArraysMoved.update {u v : Arrays} {j : PoolId} {a b : PageArray}
    (h : ArraysMoved i shift u v) (hm : a.mem = b.mem) (hl : a.length = b.length)
    (hn : a.next = b.next + shift j) (hp : ∀ n, a.ptrs (n + shift j) = b.ptrs n) :
    ArraysMoved i shift (Function.update u j a) (Function.update v j b) := by
  intro l hl'
  by_cases e : l = j
  · subst e
    rw [Function.update_self, Function.update_self]
    exact ⟨hm, hl, hn, hp⟩
  · rw [Function.update_of_ne e, Function.update_of_ne e]
    exact h l hl'

/-- **Arrays with the same pages answer alike.** -/
theorem array_moved : Corresponds (EffMoved i shift) (ArraysMoved i shift) arraySem := by
  intro β e e' P u v a u' he hR hr
  cases he with
  | @getPage j hj addr =>
    obtain ⟨rfl, rfl⟩ := Prod.mk.inj (Option.some.inj hr)
    obtain ⟨hm, hl, hn, hp⟩ := hR j hj
    refine ⟨_, _, rfl, ⟨hj, ?_⟩, hR.update hm hl ?_ fun n => ?_⟩
    · rw [PagePtr.moved, hn]
    · rw [hn]
      exact Nat.add_right_comm _ _ _
    · simp only [Function.update_apply, hn, hp]
      exact if_congr Nat.add_right_cancel_iff rfl rfl
  | release hj addr =>
    obtain ⟨rfl, rfl⟩ := Prod.mk.inj (Option.some.inj hr)
    exact ⟨_, v, rfl, rfl, hR⟩
  | @load p q h =>
    obtain ⟨hq, rfl⟩ := h
    obtain ⟨rfl, rfl⟩ := Prod.mk.inj (Option.some.inj hr)
    obtain ⟨hm, -, -, hp⟩ := hR q.pool hq
    refine ⟨_, v, rfl, ?_, hR⟩
    rw [PagePtr.moved, hm, hp]
  | @store p q h page =>
    obtain ⟨hq, rfl⟩ := h
    obtain ⟨rfl, rfl⟩ := Prod.mk.inj (Option.some.inj hr)
    obtain ⟨hm, hl, hn, hp⟩ := hR q.pool hq
    refine ⟨_, _, rfl, rfl, hR.update ?_ hl hn hp⟩
    simp only [PagePtr.moved, hm, hp]
  | @fileLength j hj =>
    obtain ⟨rfl, rfl⟩ := Prod.mk.inj (Option.some.inj hr)
    exact ⟨_, v, rfl, (hR j hj).2.1, hR⟩
  | @writePage j hj page addr =>
    obtain ⟨rfl, rfl⟩ := Prod.mk.inj (Option.some.inj hr)
    obtain ⟨hm, hl, hn, hp⟩ := hR j hj
    refine ⟨_, _, rfl, rfl, hR.update ?_ ?_ hn hp⟩
    · simp only [hm]
    · simp only [hl]
  | undefined => cases hr

/-! ## Reads -/

/-- Requests, releases and reads. -/
def EffReads : ∀ β : Type, Eff β → Prop
  | _, .store _ _ => False
  | _, .writePage _ _ _ => False
  | _, _ => True

/-- The pages of a flat pool. -/
def FlatPool.pages (f : FlatPool) : (Int → Page) × Int := (f.mem, f.length)

/-- **Reads keep all pages.** -/
theorem flat_keeps (bd : Bool) :
    Keeps EffReads (fun (s : Flat) j => (s j).pages) (flatSem bd) := by
  intro β e s a s' he hr
  have hupd : ∀ (j : PoolId) (f : FlatPool), f.pages = (s j).pages →
      (fun l => ((Function.update s j f) l).pages) = fun l => (s l).pages := fun j f hf => by
    funext l
    by_cases e : l = j
    · subst e
      rw [Function.update_self, hf]
    · rw [Function.update_of_ne e]
  cases e with
  | getPage j addr =>
    simp only [flatSem] at hr
    split_ifs at hr
    obtain ⟨-, rfl⟩ := Prod.mk.inj (Option.some.inj hr)
    exact hupd j _ rfl
  | release j addr =>
    simp only [flatSem] at hr
    split_ifs at hr
    obtain ⟨-, rfl⟩ := Prod.mk.inj (Option.some.inj hr)
    exact hupd j _ rfl
  | load p =>
    simp only [flatSem] at hr
    split at hr
    · obtain ⟨-, rfl⟩ := Prod.mk.inj (Option.some.inj hr)
      rfl
    · cases hr
  | store => exact he.elim
  | fileLength j =>
    obtain ⟨-, rfl⟩ := Prod.mk.inj (Option.some.inj hr)
    rfl
  | writePage => exact he.elim
  | undefined => cases hr

end MyJQL
