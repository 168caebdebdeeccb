import MyJQL.BTree.Handlers
import MyJQL.Store.Heap

/-!
# The handlers of the store

* `Row.sortKey`, `sepOf`: the key by which the index orders a row, or a separator;
* `StoreInv rows recs S s`: the state holds the rows `rows` and, apart from their strings, the
  strings of the separators `S`;
* **`storeSpec rows`**: on such states `rid_row_row_cmp` and `rid_ptr_row_cmp` compare keys,
  `insert_handler` makes separators and `delete_handler` deletes them.
-/

set_option linter.unusedSimpArgs false

namespace MyJQL

/-- The key by which the index orders a row. -/
def Row.sortKey (row : Row) : List ℤ := signed (content row.key)

/-- A row, as an entry of the index. -/
def Row.entry (row : Row) : RID × List ℤ := (row.rid, row.sortKey)

/-- A string, as a separator. -/
def sepOf (c : Str) : RID × List ℤ := (headRID c, signed (content c))

/-- **The state holds the rows and the separators**, and no other items. -/
def StoreInv (rows : Multiset Row) (recs : Records (List ℤ)) (S : Multiset (RID × List ℤ))
    (s : Flat) : Prop :=
  (∀ r k, recs r = some k → ∃ row ∈ rows, row.entry = (r, k)) ∧ ∃ m loose,
    Heap m rows loose (s .bpIdx) s ∧ (∀ c ∈ loose, (content c).length ≤ maxStrLen) ∧
    S = loose.map sepOf

variable {D : ℕ} {m : Tables} {rows : Multiset Row} {loose : Multiset Str}
  {recs : Records (List ℤ)} {S : Multiset (RID × List ℤ)} {s : Flat} {f : FlatPool}

theorem IsKey.keyAt {leaf : Bool} {x : RID × List ℤ} (hm : Heap m rows loose f s)
    (hrecs : ∀ r k, recs r = some k → ∃ row ∈ rows, row.entry = (r, k))
    (hshort : ∀ c ∈ loose, (content c).length ≤ maxStrLen)
    (hx : IsKey recs (loose.map sepOf) leaf x) :
    ∃ c, KeyAt rows loose leaf x.1 c ∧ signed (content c) = x.2 ∧
      (content c).length ≤ maxStrLen := by
  cases leaf with
  | false =>
    obtain ⟨c, hc, rfl⟩ := Multiset.mem_map.mp (show x ∈ loose.map sepOf from hx)
    exact ⟨c, ⟨hc, rfl⟩, rfl, hshort c hc⟩
  | true =>
    obtain ⟨row, hr, e⟩ := hrecs x.1 x.2 hx
    exact ⟨row.key, ⟨row, hr, congrArg Prod.fst e, rfl⟩, congrArg Prod.snd e,
      hm.owned.short row hr⟩

theorem StoreInv.sep {leaf : Bool} {x : RID × List ℤ} (h : StoreInv rows recs S s)
    (hx : IsKey recs S leaf x) :
    wp (flatSem true) (procBody D storeHandlers) (insertHandler x.1 leaf)
      (fun rid s' => s' .bpIdx = s .bpIdx ∧ StoreInv rows recs ((rid, x.2) ::ₘ S) s') s := by
  obtain ⟨hrecs, m, loose, hm, hshort, rfl⟩ := h
  obtain ⟨c, hc, hk, hlen⟩ := hx.keyAt hm hrecs hshort
  refine (hm.insertHandler hc hlen).mono fun rid s' hr => ?_
  obtain ⟨c', rfl, hn, hm'⟩ := hr
  refine ⟨hm'.index, hrecs, _, _, hm'.index.symm ▸ hm', fun d hd => ?_, ?_⟩
  · rcases Multiset.mem_cons.mp hd with rfl | hd
    · rwa [hn.content]
    · exact hshort d hd
  · rw [Multiset.map_cons, sepOf, hn.content, hk]

/-- **The handlers of the store** order rows and separators by their strings. -/
def storeSpec (D : ℕ) (rows : Multiset Row) : HandlerSpec D storeHandlers .bpIdx (List ℤ) where
  keyOf p size := signed (tabulate p size)
  Inv := StoreInv rows
  frame h := by
    obtain ⟨hrecs, m, loose, hm, hshort, rfl⟩ := h
    refine ⟨hrecs, m, loose, ?_, hshort, rfl⟩
    rw [Function.update_self]
    exact hm.withIndex
  cmpRow h ha hb := by
    obtain ⟨hrecs, m, loose, hm, hshort, rfl⟩ := h
    obtain ⟨c, hc, hck, -⟩ := ha.keyAt hm hrecs hshort
    obtain ⟨d, hd, hdk, -⟩ := hb.keyAt hm hrecs hshort
    refine (hm.cmpRow hc hd).mono fun r s' hr => ?_
    obtain ⟨rfl, hm'⟩ := hr
    refine ⟨?_, hm'.index, hrecs, m, loose, hm'.index.symm ▸ hm', hshort, rfl⟩
    rw [compareBytes_lt, hck, hdk]
  insertHandler h hx := h.sep hx
  ne_null h hx := by
    obtain ⟨-, m, loose, hm, -, rfl⟩ := h
    obtain ⟨c, hc, rfl⟩ := Multiset.mem_map.mp hx
    have hstr := hm.owned.strings.str c (Multiset.mem_add.mpr (Or.inr hc))
    exact fun e => hstr.ne_nil (hstr.chain.headRID_eq_null.mp e)
  cmpPtr h hb := by
    obtain ⟨hrecs, m, loose, hm, hshort, rfl⟩ := h
    obtain ⟨d, hd, hdk, -⟩ := hb.keyAt hm hrecs hshort
    refine (hm.cmpPtr _ _ hd).mono fun r s' hr => ?_
    obtain ⟨rfl, hm'⟩ := hr
    refine ⟨?_, ?_, hm'.index, hrecs, m, loose, hm'.index.symm ▸ hm', hshort, rfl⟩
    · rw [compareBytes_lt, hdk]
    · rw [compareBytes_eq_zero, ← hdk, signed_injective.eq_iff]
  copyHandler h hx := h.sep hx
  deleteHandler {recs S s x} h := by
    obtain ⟨hrecs, m, loose, hm, hshort, e⟩ := h
    obtain ⟨c, loose, rfl, rfl, rfl⟩ := exists_cons_of_map e.symm
    exact hm.deleteString.mono fun _ s' hm' => ⟨hm'.index, hrecs, _, loose,
      hm'.index.symm ▸ hm', fun d hd => hshort d (Multiset.mem_cons_of_mem hd), rfl⟩

end MyJQL
