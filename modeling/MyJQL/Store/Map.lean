import MyJQL.Store.Compare
import MyJQL.Store.Ops

/-!
# The store is a finite map

* `StoreOp.apply`, `StoreOp.answer`: a call on a map; `bindingsAfter`, `answers`: some calls;
  `bindingsAfter_eq`: the last call that sets or deletes a key decides;
* **`wp_runOps`**: the calls of the store are those of a map, by induction on the calls;
* `storeMachine`: the store on absent files; **`store_refines_map`**: every sequence of calls
  answers as a map does.
-/

set_option linter.unusedSimpArgs false

namespace MyJQL

/-! ## Calls of a map -/

namespace StoreOp

/-- What a call makes of the map. -/
def apply : StoreOp → Bindings → Bindings
  | get _ _ _ _, m => m
  | set key n value len, m => Function.update m (tabulate key n) (some (tabulate value len))
  | del key n, m => Function.update m (tabulate key n) none

/-- What a call makes of the key `k`, if it sets or deletes it. -/
def binds (k : List Byte) : StoreOp → Option (Option (List Byte))
  | get _ _ _ _ => none
  | set key n value len => if k = tabulate key n then some (some (tabulate value len)) else none
  | del key n => if k = tabulate key n then some none else none

theorem apply_eq (op : StoreOp) (m : Bindings) (k : List Byte) :
    op.apply m k = (op.binds k).getD (m k) := by
  cases op with
  | get => rfl
  | set key n value len =>
    rw [apply, binds, Function.update_apply]
    split_ifs <;> rfl
  | del key n =>
    rw [apply, binds, Function.update_apply]
    split_ifs <;> rfl

/-- The key of a call. -/
def keyBytes : StoreOp → List Byte
  | get key n _ _ => tabulate key n
  | set key n _ _ => tabulate key n
  | del key n => tabulate key n

theorem binds_of_ne {op : StoreOp} {k : List Byte} (hk : k ≠ op.keyBytes) : op.binds k = none := by
  cases op with
  | get => rfl
  | set => exact if_neg hk
  | del => exact if_neg hk

/-- What a call answers. -/
def answer (m : Bindings) : StoreOp → Option (Int × (ℕ → Byte))
  | get key n value maxSize => some (getResult m (tabulate key n) value maxSize)
  | set _ _ _ _ => none
  | del _ _ => none

end StoreOp

/-- The map after some calls. -/
def bindingsAfter (m : Bindings) (ops : List StoreOp) : Bindings :=
  ops.foldl (fun m op => op.apply m) m

/-- **The last call that sets or deletes a key** decides what it is bound to. -/
theorem bindingsAfter_eq (m : Bindings) (ops : List StoreOp) (k : List Byte) :
    bindingsAfter m ops k = (ops.reverse.findSome? (StoreOp.binds k)).getD (m k) := by
  induction ops using List.reverseRecOn with
  | nil => rfl
  | append_singleton ops op ih =>
    rw [bindingsAfter, List.foldl_append, List.reverse_append]
    change op.apply (bindingsAfter m ops) k = _
    rw [StoreOp.apply_eq, ih, List.reverse_singleton, List.singleton_append, List.findSome?_cons]
    cases op.binds k <;> rfl

theorem mem_of_bound {ops : List StoreOp} {k : List Byte}
    (hk : bindingsAfter (fun _ => none) ops k ≠ none) : k ∈ ops.map StoreOp.keyBytes := by
  by_contra hn
  refine hk ?_
  rw [bindingsAfter_eq, List.findSome?_eq_none_iff.mpr fun op hop => ?_]
  · rfl
  · refine StoreOp.binds_of_ne fun e => hn (List.mem_map.mpr ⟨op, List.mem_reverse.mp hop, e.symm⟩)

/-- The answers of some calls. -/
def answers : Bindings → List StoreOp → List (Option (Int × (ℕ → Byte)))
  | _, [] => []
  | m, op :: ops => op.answer m :: answers (op.apply m) ops

/-- The number of keys for which the index needs no more than sixteen frames. -/
def maxKeys : ℕ := 4 * 3 ^ 13

/-- The map has few keys. -/
def Few (m : Bindings) : Prop := {k | m k ≠ none}.ncard < maxKeys

theorem few_of_length {ops : List StoreOp} (hl : ops.length < maxKeys) :
    Few (bindingsAfter (fun _ => none) ops) := by
  have hsub : {k | bindingsAfter (fun _ => none) ops k ≠ none} ⊆
      ↑(ops.map StoreOp.keyBytes).toFinset := fun k hk => by
    rw [Finset.mem_coe, List.mem_toFinset]
    exact mem_of_bound hk
  have h := Set.ncard_le_ncard hsub (Finset.finite_toSet _)
  rw [Set.ncard_coe_finset] at h
  have h' := List.toFinset_card_le (ops.map StoreOp.keyBytes)
  rw [List.length_map] at h'
  exact (h.trans h').trans_lt hl

/-! ## Calls of the store -/

variable {bd : Bool} {rows : Multiset Row} {mp : Bindings} {s : Flat} {op : StoreOp}

theorem StoreRep.card (hst : StoreRep degree rows s) (hm : Denotes rows mp) :
    rows.card = {k | mp k ≠ none}.ncard := by
  obtain ⟨h, t, sp, m, seps, f, -, hi⟩ := hst
  have hnd : (rows.map fun row => content row.key).Nodup := by
    refine Multiset.Nodup.of_map signed ?_
    rw [Multiset.map_map]
    exact hi.nodup
  have hset : {k | mp k ≠ none} = ↑(rows.map fun row => content row.key).toFinset := by
    ext k
    rw [Set.mem_ofPred_eq, Option.ne_none_iff_exists', Finset.mem_coe, Multiset.mem_toFinset,
      Multiset.mem_map]
    constructor
    · rintro ⟨v, hv⟩
      obtain ⟨row, hr, hk, -⟩ := (hm k v).mp hv
      exact ⟨row, hr, hk⟩
    · rintro ⟨row, hr, hk⟩
      exact ⟨_, (hm k _).mpr ⟨row, hr, hk, rfl⟩⟩
  rw [hset, Set.ncard_coe_finset, Multiset.toFinset_card_of_nodup hnd, Multiset.card_map]

theorem StoreRep.few (hst : StoreRep degree rows s) (hm : Denotes rows mp) (hf : Few mp) :
    rows.card < 2 * (degree + 1) ^ 13 * degree := by
  rw [hst.card hm]
  exact hf

/-- **A call of the store** is one of the map. -/
theorem wp_storeOp (hst : StoreRep degree rows s) (hm : Denotes rows mp) (hbd : bd → Few mp)
    (hn : op.keyLen ≤ maxStrLen) :
    wp (flatSem bd) (procBody degree storeHandlers) op.prog
      (fun r s' => r = op.answer mp ∧ ∃ rows', StoreRep degree rows' s' ∧ Denotes rows' (op.apply mp))
      s := by
  have hfew : bd → rows.card < 2 * (degree + 1) ^ 13 * degree := fun h => hst.few hm (hbd h)
  cases op with
  | get key n value maxSize =>
    refine (wp_myjqlGet hst hm (by decide) hfew value maxSize).seq fun r s' hr => wp_pure ?_
    obtain ⟨rfl, hst'⟩ := hr
    exact ⟨rfl, rows, hst', hm⟩
  | set key n value len =>
    exact (wp_myjqlSet hst hm hfew hn value len).seq fun _ s' hr => wp_pure ⟨rfl, hr⟩
  | del key n =>
    exact (wp_myjqlDel hst hm le_rfl hfew).seq fun _ s' hr => wp_pure ⟨rfl, hr⟩

/-- **Calls of the store** are calls of the map. -/
theorem wp_runOps (ops : List StoreOp) (hst : StoreRep degree rows s) (hm : Denotes rows mp)
    (hbd : bd → ∀ l, l <+: ops → Few (bindingsAfter mp l))
    (hn : ∀ op ∈ ops, op.keyLen ≤ maxStrLen) :
    wp (flatSem bd) (procBody degree storeHandlers) (runOps ops)
      (fun rs s' => rs = answers mp ops ∧
        ∃ rows', StoreRep degree rows' s' ∧ Denotes rows' (bindingsAfter mp ops)) s := by
  induction ops generalizing rows mp s with
  | nil => exact wp_pure ⟨rfl, rows, hst, hm⟩
  | cons op ops ih =>
    refine (wp_storeOp hst hm (fun h => hbd h [] List.nil_prefix) (hn op List.mem_cons_self)).seq
      fun r s₁ h₁ => ?_
    obtain ⟨rfl, rows₁, hst₁, hm₁⟩ := h₁
    refine (ih hst₁ hm₁ (fun h l hl => ?_) fun o ho => hn o (List.mem_cons_of_mem _ ho)).seq
      fun rs s₂ h₂ => ?_
    · exact hbd h (op :: l) ((List.prefix_cons_inj op).mpr hl)
    · obtain ⟨rfl, h₂⟩ := h₂
      exact wp_pure ⟨rfl, h₂⟩

/-! ## The machine -/

/-- The store on absent files. -/
def storeMachine : Machine := fun i => Mapped.new (myjqlInit (fun _ => none) i)

/-- The flat store on absent files. -/
def storeFlat : Flat := fun i => .ofFile (myjqlInit (fun _ => none) i).file

theorem storeMachine_holds : Holds storeFlat storeMachine := fun i => by
  cases i
  · exact cached_new rfl rfl rfl (by decide) (by decide)
  · exact cached_init le_rfl
  · exact cached_hashTableInit (by decide)
  · exact cached_init le_rfl
  · exact cached_hashTableInit (by decide)

/-- **`myjql_init`** on absent files makes an empty store. -/
theorem storeFlat_rep : StoreRep degree 0 storeFlat := by
  have hinv : StoreInv 0 (keyIn 0) 0 storeFlat := by
    refine ⟨fun r k hk => keyIn_eq hk, ⟨fun _ => none, fun _ => none⟩, 0, ⟨tableRep_empty,
      tableRep_empty, ⟨Multiset.nodup_zero, fun r hr => absurd hr (Multiset.notMem_zero r),
      fun x hx => absurd rfl hx, Strings.empty, fun r hr => absurd hr (Multiset.notMem_zero r)⟩, rfl⟩,
      fun c hc => absurd hc (Multiset.notMem_zero c), rfl⟩
  have hheld := TreeHeld.init (storeSpec degree 0) (t := storeMachine) (s := storeFlat) rfl
    storeMachine_holds hinv
  obtain ⟨m, seps, hm, hi⟩ := hheld.rep.indexed (l := 0) rfl
  rw [Function.update_eq_self] at hm
  exact ⟨0, emptyTree, _, m, seps, _, hm, hi⟩

theorem denotes_empty : Denotes 0 fun _ => none := fun _ v =>
  ⟨fun h => (Option.some_ne_none v h.symm).elim, fun ⟨r, hr, _⟩ =>
    absurd hr (Multiset.notMem_zero r)⟩

/-- **The store refines a finite map.** Every sequence of calls on absent files, with keys that fit,
returns the answers of a map, if that never has too many keys. -/
theorem store_refines_map (ops : List StoreOp) (hn : ∀ op ∈ ops, op.keyLen ≤ maxStrLen)
    (hf : ∀ l, l <+: ops → Few (bindingsAfter (fun _ => none) l)) :
    ∃ t', Returns machineSem (procBody degree storeHandlers) (runOps ops) storeMachine
      (answers (fun _ => none) ops) t' := by
  obtain ⟨rs, s', t', hr, -, rfl, -⟩ := wp.simulated machine_simulates storeMachine_holds
    (wp_runOps _ storeFlat_rep denotes_empty (fun _ => hf) hn)
  exact ⟨t', hr⟩

/-- A key is set and read. -/
theorem store_refines_map_set_get : ∃ value t',
    Returns machineSem (procBody degree storeHandlers)
      (runOps [.set (fun _ => 7) 1 (fun _ => 9) 5, .get (fun _ => 7) 1 (fun _ => 0) 3]) storeMachine
      [none, some (3, value)] t' ∧ tabulate value 4 = [9, 9, 9, 0] := by
  have hf : ∀ l, l <+: [StoreOp.set (fun _ => 7) 1 (fun _ => 9) 5, .get (fun _ => 7) 1 (fun _ => 0) 3] →
      Few (bindingsAfter (fun _ => none) l) := fun l hl =>
    few_of_length (hl.length_le.trans_lt (by decide))
  obtain ⟨t', hr⟩ := store_refines_map [.set (fun _ => 7) 1 (fun _ => 9) 5,
    .get (fun _ => 7) 1 (fun _ => 0) 3] (by decide) hf
  refine ⟨_, t', hr, ?_⟩
  decide

end MyJQL
