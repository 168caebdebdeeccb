import MyJQL.BTree.Descent
import MyJQL.BTree.Node
import MyJQL.Storage.Logic

/-!
# Comparison functions and handlers

* `InsertSpec D H i K`, `HandlerSpec D H i K`: what the index in pool `i` needs of its comparison
  functions and handlers, for insertions and for all operations. They order rows and separators by
  keys `K`, insert and delete separators, and leave the index alone;
* `InsertSpec.wp_cmpRow`, …: one rule for each, on both flat stores;
* **`wp_findIndex`**: `find_index` is the rank of a key among the entries of a node.
-/

set_option linter.unusedSimpArgs false

namespace MyJQL

/-- The keys of the rows known to the caller of the index. -/
abbrev Records (K : Type) := RID → Option K

/-- The key of a row, or of one of the separators `S`. -/
def IsKey {K : Type} (recs : Records K) (S : Multiset (RID × K)) (leaf : Bool)
    (x : RID × K) : Prop :=
  if leaf then recs x.1 = some x.2 else x ∈ S

/-- **What insertions into the index in pool `i` need** of its comparison function and handler.
`Inv recs S` holds in states with the rows `recs` and the separators `S`. -/
structure InsertSpec (D : ℕ) (H : Handlers) (i : PoolId) (K : Type) [LinearOrder K] where
  Inv : Records K → Multiset (RID × K) → Flat → Prop
  frame : ∀ {recs S s f}, Inv recs S s → Inv recs S (Function.update s i f)
  cmpRow : ∀ {recs S s a b la lb}, Inv recs S s → IsKey recs S la a → IsKey recs S lb b →
    wp (flatSem true) (procBody D H) (H.cmpRow a.1 b.1 la lb)
      (fun r s' => (r < 0 ↔ a.2 < b.2) ∧ s' i = s i ∧ Inv recs S s') s
  /-- A separator is made of a row. -/
  insertHandler : ∀ {recs S s} {x : RID × K}, Inv recs S s → recs x.1 = some x.2 →
    wp (flatSem true) (procBody D H) (H.insertHandler x.1 true)
      (fun rid s' => s' i = s i ∧ Inv recs ((rid, x.2) ::ₘ S) s') s

/-- **What the index in pool `i` needs** of its comparison functions and handlers. -/
structure HandlerSpec (D : ℕ) (H : Handlers) (i : PoolId) (K : Type) [LinearOrder K] extends
    InsertSpec D H i K where
  /-- The key in a buffer. -/
  keyOf : (ℕ → Byte) → ℕ → K
  ne_null : ∀ {recs S s x}, Inv recs S s → x ∈ S → x.1.blockAddr ≠ -1
  cmpPtr : ∀ {recs S s p size b lb}, Inv recs S s → IsKey recs S lb b →
    wp (flatSem true) (procBody D H) (H.cmpPtr p size b.1 lb)
      (fun r s' => (r < 0 ↔ keyOf p size < b.2) ∧ (r = 0 ↔ keyOf p size = b.2) ∧ s' i = s i ∧
        Inv recs S s') s
  /-- A separator is copied. -/
  copyHandler : ∀ {recs S s} {x : RID × K}, Inv recs S s → x ∈ S →
    wp (flatSem true) (procBody D H) (H.insertHandler x.1 false)
      (fun rid s' => s' i = s i ∧ Inv recs ((rid, x.2) ::ₘ S) s') s
  deleteHandler : ∀ {recs S s x}, Inv recs (x ::ₘ S) s →
    wp (flatSem true) (procBody D H) (H.deleteHandler x.1)
      (fun _ s' => s' i = s i ∧ Inv recs S s') s

/-! ## Rules -/

variable {bd : Bool} {D : ℕ} {H : Handlers} {i : PoolId} {K α : Type}

theorem wp.unbounded {body : Bodies Eff Proc} {p : M α} {Q : α → Flat → Prop} {s : Flat}
    (h : wp (flatSem true) body p Q s) : wp (flatSem bd) body p Q s := by
  cases bd with
  | true => exact h
  | false =>
    have hsim : Simulates (E := Eff) Eq (flatSem true) (flatSem false) := by
      rintro β e s _ a s' rfl he
      refine ⟨s', ?_, rfl⟩
      cases e with
      | getPage i addr =>
        simp only [flatSem] at he ⊢
        split_ifs at he with hc
        rw [if_pos ⟨hc.1, fun h => absurd h (by decide)⟩]
        exact he
      | release i addr => exact he
      | load p => exact he
      | store p page => exact he
      | fileLength i => exact he
      | writePage i page addr => exact he
      | undefined => exact he
    obtain ⟨a, s', _, hr, rfl, hQ⟩ := h.simulated hsim rfl
    exact ⟨a, s', hr, hQ⟩

variable [LinearOrder K] {recs : Records K} {S : Multiset (RID × K)} {s : Flat} {f : FlatPool}

namespace InsertSpec

variable (spec : InsertSpec D H i K)

theorem inv_update {s' : Flat} (hi : s' i = f) (h : spec.Inv recs S s') :
    ∃ s'', s' = Function.update s'' i f ∧ spec.Inv recs S s'' :=
  ⟨s', by rw [← hi, Function.update_eq_self], h⟩

theorem wp_cmpRow {a b : RID × K} {la lb : Bool} {Q : Int → Flat → Prop} (hs : spec.Inv recs S s)
    (ha : IsKey recs S la a) (hb : IsKey recs S lb b)
    (h : ∀ r s', (r < 0 ↔ a.2 < b.2) → spec.Inv recs S s' → Q r (Function.update s' i f)) :
    wp (flatSem bd) (procBody D H) (H.cmpRow a.1 b.1 la lb) Q (Function.update s i f) := by
  refine (spec.cmpRow (spec.frame (f := f) hs) ha hb).unbounded.mono fun r s' hr => ?_
  obtain ⟨h1, h2, h3⟩ := hr
  obtain ⟨s'', rfl, h4⟩ := spec.inv_update (h2.trans (Function.update_self ..)) h3
  exact h r s'' h1 h4

theorem wp_insertHandler {x : RID × K} {Q : RID → Flat → Prop} (hs : spec.Inv recs S s)
    (hx : recs x.1 = some x.2)
    (h : ∀ rid s', spec.Inv recs ((rid, x.2) ::ₘ S) s' → Q rid (Function.update s' i f)) :
    wp (flatSem bd) (procBody D H) (H.insertHandler x.1 true) Q (Function.update s i f) := by
  refine (spec.insertHandler (spec.frame (f := f) hs) hx).unbounded.mono fun r s' hr => ?_
  obtain ⟨h1, h2⟩ := hr
  obtain ⟨s'', rfl, h3⟩ := spec.inv_update (h1.trans (Function.update_self ..)) h2
  exact h r s'' h3

end InsertSpec

namespace HandlerSpec

variable (spec : HandlerSpec D H i K)

theorem wp_cmpPtr {p : ℕ → Byte} {size : ℕ} {b : RID × K} {lb : Bool} {Q : Int → Flat → Prop}
    (hs : spec.Inv recs S s) (hb : IsKey recs S lb b)
    (h : ∀ r s', (r < 0 ↔ spec.keyOf p size < b.2) → (r = 0 ↔ spec.keyOf p size = b.2) →
      spec.Inv recs S s' → Q r (Function.update s' i f)) :
    wp (flatSem bd) (procBody D H) (H.cmpPtr p size b.1 lb) Q (Function.update s i f) := by
  refine (spec.cmpPtr (spec.frame (f := f) hs) hb).unbounded.mono fun r s' hr => ?_
  obtain ⟨h1, h2, h3, h4⟩ := hr
  obtain ⟨s'', rfl, h5⟩ := spec.inv_update (h3.trans (Function.update_self ..)) h4
  exact h r s'' h1 h2 h5

theorem wp_copyHandler {x : RID × K} {Q : RID → Flat → Prop} (hs : spec.Inv recs S s) (hx : x ∈ S)
    (h : ∀ rid s', spec.Inv recs ((rid, x.2) ::ₘ S) s' → Q rid (Function.update s' i f)) :
    wp (flatSem bd) (procBody D H) (H.insertHandler x.1 false) Q (Function.update s i f) := by
  refine (spec.copyHandler (spec.frame (f := f) hs) hx).unbounded.mono fun r s' hr => ?_
  obtain ⟨h1, h2⟩ := hr
  obtain ⟨s'', rfl, h3⟩ := spec.inv_update (h1.trans (Function.update_self ..)) h2
  exact h r s'' h3

theorem wp_deleteHandler {x : RID × K} {Q : Unit → Flat → Prop}
    (hs : spec.Inv recs (x ::ₘ S) s)
    (h : ∀ s', spec.Inv recs S s' → Q () (Function.update s' i f)) :
    wp (flatSem bd) (procBody D H) (H.deleteHandler x.1) Q (Function.update s i f) := by
  refine (spec.deleteHandler (spec.frame (f := f) hs)).unbounded.mono fun r s' hr => ?_
  obtain ⟨h1, h2⟩ := hr
  obtain ⟨s'', rfl, h3⟩ := spec.inv_update (h1.trans (Function.update_self ..)) h2
  exact h s'' h3

end HandlerSpec

/-! ## Searching a node -/

/-- The keyed entries of a node: rows, or separators. -/
structure Keyed (recs : Records K) (S : Multiset (RID × K)) (b : BNode) (rows : List (RID × K)) :
    Prop where
  eq : b.rows = rows.map Prod.fst
  keys : ∀ x ∈ rows, IsKey recs S b.leaf x
  sorted : rows.Pairwise fun a b => a.2 < b.2

namespace Keyed

variable {b : BNode} {rows : List (RID × K)} {j : ℕ}

omit [LinearOrder K] in
theorem length_of {rows : List (RID × K)} (h : b.rows = rows.map Prod.fst) : rows.length = b.n := by
  rw [← BNode.length_rows (b := b), h, List.length_map]

theorem length (h : Keyed recs S b rows) : rows.length = b.n := length_of h.eq

theorem rowPtr (h : Keyed recs S b rows) (hj : j < rows.length) : b.rowPtr j = rows[j].1 := by
  have e := congrArg (·[j]?) h.eq
  simp only [BNode.getElem?_rows, List.getElem?_map, List.getElem?_eq_getElem hj] at e
  rw [if_pos (by rw [← h.length]; exact hj)] at e
  exact Option.some.inj e

/-- The key of entry `j`. -/
def key (rows : List (RID × K)) (k : K) (j : ℕ) : K := (rows[j]?.map Prod.snd).getD k

omit [LinearOrder K] in
theorem key_eq {k : K} (hj : j < rows.length) : key rows k j = rows[j].2 := by
  rw [key, List.getElem?_eq_getElem hj]
  rfl

theorem descend_eq (h : Keyed recs S b rows) (k : K) :
    descend k (key rows k) b.n = rank k rows := by
  rw [← h.length]
  exact descend_eq_rank fun j hj => key_eq hj

end Keyed

variable {spec : InsertSpec D H i K} {t : ℕ} {a : Int} {b : BNode} {rows : List (RID × K)}
  {x : RID × K} {leaf : Bool}

/-- What a program knows while it searches the node of pointer `t`. -/
def Searching (spec : InsertSpec D H i K) (recs : Records K) (S : Multiset (RID × K)) (f : FlatPool)
    (st : Flat) : Prop :=
  ∃ s', st = Function.update s' i f ∧ spec.Inv recs S s'

theorem Keyed.nodeKeys (hk : Keyed recs S b rows) (hl : f.Live t a) (hb : f.mem a = .bNode b)
    (cmp : RID → M Int) {k : K} (hcmp : ∀ s y, spec.Inv recs S s → IsKey recs S b.leaf y →
      wp (flatSem bd) (procBody D H) (cmp y.1) (fun r st => (r < 0 ↔ k < y.2) ∧
        Searching spec recs S f st) (Function.update s i f)) :
    NodeKeys (flatSem bd) (procBody D H) ⟨i, t⟩ b (Searching spec recs S f) cmp k
      (Keyed.key rows k) := by
  refine ⟨?_, ?_⟩
  · rintro _ ⟨s', rfl, -⟩
    simp only [flatSem, Function.update_self, FlatPool.deref_eq_some.mpr hl, hb]
  · rintro _ j ⟨s', rfl, hs'⟩ hj
    rw [← hk.length] at hj
    rw [hk.rowPtr hj, Keyed.key_eq hj]
    exact hcmp s' _ hs' (hk.keys _ (List.getElem_mem hj))

/-- **`find_index`** is the rank of the key among the entries. -/
theorem wp_findIndex {Q : ℕ → Flat → Prop} (hs : spec.Inv recs S s) (hl : f.Live t a)
    (hb : f.mem a = .bNode b) (hk : Keyed recs S b rows) (hx : IsKey recs S leaf x)
    (h : ∀ s', spec.Inv recs S s' → Q (rank x.2 rows) (Function.update s' i f)) :
    wp (flatSem bd) (procBody D H) (findIndex H ⟨i, t⟩ x.1 leaf) Q (Function.update s i f) := by
  have hkeys : NodeKeys (flatSem bd) (procBody D H) ⟨i, t⟩ b _ _ x.2 _ :=
    hk.nodeKeys hl hb (fun r => H.cmpRow x.1 r leaf b.leaf) fun s y hs hy =>
      spec.wp_cmpRow hs hx hy fun r s' hr hs' => ⟨hr, s', rfl, hs'⟩
  refine (wp_findIndex_descend hkeys ⟨s, rfl, hs⟩).mono fun c st hc => ?_
  obtain ⟨rfl, s', rfl, hs'⟩ := hc
  rw [hk.descend_eq]
  exact h s' hs'

end MyJQL
