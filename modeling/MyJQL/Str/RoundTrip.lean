import MyJQL.Str.Ops
import MyJQL.Table.Map

/-!
# Strings in a table

* `StringReach`: the states of a table of strings, each with the live items and the strings written
  and not deleted;
* `StoredAs m p c`: the string `p` is in the table, in the chain `c`; `StringsHeld`: every string
  is, in chunks of its own;
* **`string_round_trip`**: a string is read as it was written, and deleting it removes its chunks;
* **`compare_lexicographic`**: strings are compared in lexicographic order of signed characters.
-/

set_option linter.unusedSimpArgs false

namespace MyJQL

/-- The live items of a table. -/
def Machine.items (s : Machine) (t : Table) : ItemMap := (s t.data).flat.item

/-- A string written: its `RID`, its bytes, and the items that `write_string` added. -/
structure StoredString where
  rid : RID
  bytes : List Byte
  chunks : List RID

/-- The states reached from empty files by `table_insert`, `table_read`, `table_delete` of items
that are no chunks, `write_string` and `delete_string`, each with its live items and its strings. -/
inductive StringReach (D : ℕ) (H : Handlers) (t : Table) :
    Machine → ItemMap → List StoredString → Prop
  | init : StringReach D H t (tableMachine t) (fun _ => none) []
  | insert {s s' : Machine} {m : ItemMap} {S : List StoredString} {src : Cells} {size : ℕ} {rid : RID}
      (hs : StringReach D H t s m S) (hpos : 1 ≤ size) (hmax : (size : Int) ≤ pageSize - 10)
      (hr : Returns machineSem (procBody D H) (tableInsert t src size) s rid s') :
      StringReach D H t s' (Function.update m rid (some (tabulate (fun k => src k) size))) S
  | delete {s s' : Machine} {m : ItemMap} {S : List StoredString} {rid : RID} {l : List Cell}
      (hs : StringReach D H t s m S) (hl : m rid = some l) (hk : ∀ p ∈ S, rid ∉ p.chunks)
      (hr : Returns machineSem (procBody D H) (tableDelete t rid) s () s') :
      StringReach D H t s' (Function.update m rid none) S
  | read {s s' : Machine} {m : ItemMap} {S : List StoredString} {rid : RID} {l : List Cell}
      {dest d : Cells} (hs : StringReach D H t s m S) (hl : m rid = some l)
      (hr : Returns machineSem (procBody D H) (tableRead t rid dest) s d s') :
      StringReach D H t s' m S
  | write {s s' : Machine} {m : ItemMap} {S : List StoredString} {data : ℕ → Byte} {size : ℕ}
      {rid : RID} {chunks : List RID} (hs : StringReach D H t s m S)
      (hr : Returns machineSem (procBody D H) (writeString t data size) s rid s')
      (hc : ∀ x, x ∈ chunks ↔ m x = none ∧ s'.items t x ≠ none) :
      StringReach D H t s' (s'.items t) (⟨rid, tabulate data size, chunks⟩ :: S)
  | deleteString {s s' : Machine} {m : ItemMap} {S S' : List StoredString} {p : StoredString}
      (hs : StringReach D H t s m (S ++ p :: S'))
      (hr : Returns machineSem (procBody D H) (deleteString t p.rid) s () s') :
      StringReach D H t s' (s'.items t) (S ++ S')

/-! ## Stored strings -/

/-- The string `p` is in the table, in the chain `c`. -/
structure StoredAs (m : ItemMap) (p : StoredString) (c : List (RID × List Byte)) : Prop where
  rid : headRID c = p.rid
  chunks : ∀ x, x ∈ p.chunks ↔ x ∈ rids c
  nodup : (rids c).Nodup
  chain : Chain m c
  content : content c = p.bytes
  ne_nil : c ≠ []
  tail : ∀ q ∈ c.tail, q.2 ≠ []

variable {m m' : ItemMap} {p q : StoredString} {c : List (RID × List Byte)} {x : RID}

theorem StoredAs.congr (h : StoredAs m p c) (hm : ∀ x ∈ p.chunks, m' x = m x) : StoredAs m' p c :=
  { h with chain := h.chain.congr fun x hx => hm x ((h.chunks x).mpr hx) }

theorem StoredAs.live (h : StoredAs m p c) (hx : x ∈ p.chunks) : m x ≠ none :=
  h.chain.ne_none ((h.chunks x).mp hx)

theorem StoredAs.drop (h : StoredAs m p c) : m.drop (rids c) = m.drop p.chunks :=
  funext fun x => if_congr (h.chunks x).symm rfl rfl

theorem NewString.mem_rids {s : List Byte} (h : NewString m s c) :
    x ∈ rids c ↔ m x = none ∧ m.addChain c x ≠ none := by
  refine ⟨fun hx => ⟨h.fresh x hx, addChain_ne_none hx⟩, fun hx => ?_⟩
  by_contra hc
  rw [addChain_of_notMem hc] at hx
  exact hx.2 hx.1

theorem NewString.storedAs {s : List Byte} {l : List RID} (h : NewString m s c)
    (hc : ∀ x, x ∈ l ↔ m x = none ∧ m.addChain c x ≠ none) :
    StoredAs (m.addChain c) ⟨headRID c, s, l⟩ c :=
  ⟨rfl, fun x => (hc x).trans h.mem_rids.symm, h.nodup, chain_addChain h.nodup h.addr, h.content,
    h.ne_nil, h.tail⟩

/-! ## Operations on the machine -/

variable {D : ℕ} {H : Handlers} {t : Table} [ht : t.Proper] {s s' : Machine} {f : Flat}
  {S : List StoredString}

omit ht in
theorem TableHeld.items (h : TableHeld t m f s) : s.items t = m := by
  funext rid
  rw [Machine.items, (h.1 t.data).item_flat, h.2.item]

omit ht in
theorem TableHeld.run {α : Type} {prog : M α} {Q : α → Flat → Prop} (h : TableHeld t m f s)
    (hw : wp (flatSem true) (procBody D H) prog Q f) :
    ∃ a s' f', Returns machineSem (procBody D H) prog s a s' ∧ Holds f' s' ∧ Q a f' := by
  obtain ⟨a, f', s', hr, hs, hQ⟩ := hw.simulated machine_simulates h.1
  exact ⟨a, s', f', hr, hs, hQ⟩

theorem TableHeld.writeString (h : TableHeld t m f s) (data : ℕ → Byte) (size : ℕ) :
    ∃ rid s' f' c, Returns machineSem (procBody D H) (writeString t data size) s rid s' ∧
      headRID c = rid ∧ NewString m (tabulate data size) c ∧ TableHeld t (m.addChain c) f' s' := by
  obtain ⟨rid, s', f', hr, hs, c, h1, h2, h3⟩ :=
    h.run (wp_writeString (D := D) (H := H) (.start h.2) data size)
  exact ⟨rid, s', f', c, hr, h1, h2, hs, h3.rep⟩

theorem TableHeld.deleteString (h : TableHeld t m f s) (hp : StoredAs m p c) :
    ∃ s' f', Returns machineSem (procBody D H) (deleteString t p.rid) s () s' ∧
      TableHeld t (m.drop p.chunks) f' s' := by
  rw [← hp.rid, ← hp.drop]
  obtain ⟨_, s', f', hr, hs, h1⟩ :=
    h.run (wp_deleteString (D := D) (H := H) (.start h.2) hp.chain hp.nodup)
  exact ⟨s', f', hr, hs, h1.rep⟩

theorem StoredAs.wp_readString {s₀ s : Flat} {bd : Bool} (hp : StoredAs m p c) (h : t.At s₀ m s)
    (r : StringRecord) :
    wp (flatSem bd) (procBody D H) (readString t p.rid r)
      (fun r' s' => Cursor m r' p.bytes ∧ t.At s₀ m s') s := by
  obtain ⟨q, c, rfl⟩ := List.exists_cons_of_ne_nil hp.ne_nil
  rw [← hp.rid, ← hp.content]
  exact MyJQL.wp_readString h hp.chain hp.tail r

/-! ## Reachable states -/

/-- The table holds the items, and every string is in chunks of its own. -/
def StringsHeld (t : Table) (m : ItemMap) (S : List StoredString) (f : Flat) (s : Machine) : Prop :=
  TableHeld t m f s ∧ (∀ p ∈ S, ∃ c, StoredAs m p c) ∧
    S.Pairwise fun p q => List.Disjoint p.chunks q.chunks

omit ht in
theorem StringsHeld.step {f' : Flat} (h : StringsHeld t m S f s) (h' : TableHeld t m' f' s')
    (hm : ∀ p ∈ S, ∀ x ∈ p.chunks, m' x = m x) : StringsHeld t m' S f' s' := by
  refine ⟨h', fun p hp => ?_, h.2.2⟩
  obtain ⟨c, hc⟩ := h.2.1 p hp
  exact ⟨c, hc.congr (hm p hp)⟩

omit ht in
theorem StringsHeld.live (h : StringsHeld t m S f s) (hp : p ∈ S) (hx : x ∈ p.chunks) :
    m x ≠ none := by
  obtain ⟨c, hc⟩ := h.2.1 p hp
  exact hc.live hx

/-- **Writing a string.** -/
theorem StringsHeld.write (h : StringsHeld t m S f s) {data : ℕ → Byte} {size : ℕ} {rid : RID}
    (hr : Returns machineSem (procBody D H) (writeString t data size) s rid s') :
    ∃ c f', NewString m (tabulate data size) c ∧ TableHeld t (m.addChain c) f' s' ∧
      ∀ chunks : List RID, (∀ x, x ∈ chunks ↔ m x = none ∧ s'.items t x ≠ none) →
        StringsHeld t (m.addChain c) (⟨rid, tabulate data size, chunks⟩ :: S) f' s' := by
  obtain ⟨_, _, f', c, hr', rfl, hn, h'⟩ := h.1.writeString (D := D) (H := H) data size
  obtain ⟨rfl, rfl⟩ := hr.unique hr'
  refine ⟨c, f', hn, h', fun chunks hc => ?_⟩
  have hnew := hn.storedAs (l := chunks) (by rwa [h'.items] at hc)
  have hold := h.step h' fun p hp x hx => addChain_of_notMem fun hx' =>
    h.live hp hx (hn.fresh x hx')
  refine ⟨h', fun p hp => ?_, List.pairwise_cons.mpr ⟨fun p hp x hx hx' => ?_, h.2.2⟩⟩
  · rcases List.mem_cons.mp hp with rfl | hp
    · exact ⟨c, hnew⟩
    · exact hold.2.1 p hp
  · exact h.live hp hx' ((hc x).mp hx).1

/-- **Every state reached holds its items and its strings.** -/
theorem StringReach.held (h : StringReach D H t s m S) : ∃ f, StringsHeld t m S f s := by
  induction h with
  | init =>
    obtain ⟨f, hf⟩ := tableMachine_held (t := t)
    exact ⟨f, hf, fun p hp => absurd hp List.not_mem_nil, List.Pairwise.nil⟩
  | insert hs hpos hmax hr ih =>
    obtain ⟨f, hf⟩ := ih
    obtain ⟨_, _, f', hr', hnone, -, hf'⟩ := hf.1.insert hpos hmax
    obtain ⟨rfl, rfl⟩ := hr.unique hr'
    refine ⟨f', hf.step hf' fun p hp x hx => Function.update_of_ne ?_ ..⟩
    rintro rfl
    exact hf.live hp hx hnone
  | delete hs hl hk hr ih =>
    obtain ⟨f, hf⟩ := ih
    obtain ⟨_, f', hr', hf'⟩ := hf.1.delete hl
    obtain ⟨-, rfl⟩ := hr.unique hr'
    refine ⟨f', hf.step hf' fun p hp x hx => Function.update_of_ne ?_ ..⟩
    rintro rfl
    exact hk p hp hx
  | read hs hl hr ih =>
    obtain ⟨f, hf⟩ := ih
    obtain ⟨_, f', hr', hf'⟩ := hf.1.read hl _
    obtain ⟨-, rfl⟩ := hr.unique hr'
    exact ⟨f', hf.step hf' fun _ _ _ _ => rfl⟩
  | write hs hr hc ih =>
    obtain ⟨f, hf⟩ := ih
    obtain ⟨c, f', -, hf', hheld⟩ := hf.write hr
    rw [hf'.items] at hc ⊢
    exact ⟨f', hheld _ (by rwa [hf'.items])⟩
  | deleteString hs hr ih =>
    obtain ⟨f, hf⟩ := ih
    obtain ⟨c, hc⟩ := hf.2.1 _ (List.mem_append_right _ List.mem_cons_self)
    obtain ⟨_, f', hr', hf'⟩ := hf.1.deleteString hc
    obtain ⟨-, rfl⟩ := hr.unique hr'
    obtain ⟨h1, h2⟩ := List.pairwise_cons.mp
      ((List.pairwise_middle fun h => h.symm).mp hf.2.2)
    rw [hf'.items]
    refine ⟨f', hf', fun q hq => ?_, h2⟩
    obtain ⟨c', hc'⟩ := hf.2.1 q (List.mem_append.mpr
      ((List.mem_append.mp hq).imp_right (List.mem_cons_of_mem _)))
    exact ⟨c', hc'.congr fun x hx => if_neg fun hx' => h1 q hq hx' hx⟩

theorem StringReach.writes (h : StringReach D H t s m S) (data : ℕ → Byte) (size : ℕ) :
    ∃ rid s' chunks, Returns machineSem (procBody D H) (writeString t data size) s rid s' ∧
      StringReach D H t s' (s'.items t) (⟨rid, tabulate data size, chunks⟩ :: S) ∧
      (∀ x, m x ≠ none → s'.items t x = m x) ∧ (s'.items t).drop chunks = m := by
  obtain ⟨f, hf⟩ := h.held
  obtain ⟨rid, s', f', c, hr, -, hn, h'⟩ := hf.1.writeString (D := D) (H := H) data size
  have hc : ∀ x, x ∈ rids c ↔ m x = none ∧ s'.items t x ≠ none := fun x => by
    rw [h'.items]
    exact hn.mem_rids
  refine ⟨rid, s', rids c, hr, .write h hr hc, fun x hx => ?_, ?_⟩
  · rw [h'.items]
    exact addChain_of_notMem fun hx' => hx (hn.fresh x hx')
  · rw [h'.items]
    exact drop_addChain hn.fresh

/-- **The round trip of strings.** In every state reached:

* `write_string` returns; the items live before keep their bytes, and deleting what it added restores
  the table;
* `read_string` and `load_string` of a string written, whatever was inserted and deleted since, load
  the string or as much of it as fits, and leave the table as it was;
* `delete_string` of it returns, and removes exactly the chunks that `write_string` added. -/
theorem string_round_trip (h : StringReach D H t s m S) :
    (∀ data size, ∃ rid s' chunks,
      Returns machineSem (procBody D H) (writeString t data size) s rid s' ∧
      StringReach D H t s' (s'.items t) (⟨rid, tabulate data size, chunks⟩ :: S) ∧
      (∀ x, m x ≠ none → s'.items t x = m x) ∧ (s'.items t).drop chunks = m) ∧
    ∀ p ∈ S,
      (∀ record dest maxSize, ∃ s', Returns machineSem (procBody D H)
        (do let r ← readString t p.rid record
            loadString t r dest maxSize) s
        (min maxSize p.bytes.length,
          fun i => if i < min maxSize p.bytes.length then p.bytes.getD i 0 else dest i) s' ∧
        s'.items t = m) ∧
      ∃ s', Returns machineSem (procBody D H) (deleteString t p.rid) s () s' ∧
        s'.items t = m.drop p.chunks := by
  obtain ⟨f, hf⟩ := h.held
  refine ⟨h.writes, fun p hp => ⟨fun record dest maxSize => ?_, ?_⟩⟩
  · obtain ⟨c, hc⟩ := hf.2.1 p hp
    obtain ⟨_, s', f', hr, hs, rfl, h'⟩ := hf.1.run (D := D) (H := H)
      ((hc.wp_readString (.start hf.1.2) record).seq fun r f' hr =>
        wp_loadString hr.2 hr.1 dest maxSize)
    refine ⟨s', ?_, TableHeld.items ⟨hs, h'.rep⟩⟩
    have hl : loaded p.bytes maxSize 0 dest = fun i =>
        if i < min maxSize p.bytes.length then p.bytes.getD i 0 else dest i := by
      funext i
      exact if_congr (by omega) rfl rfl
    rwa [← hl]
  · obtain ⟨c, hc⟩ := hf.2.1 p hp
    obtain ⟨s', f', hr, h'⟩ := hf.1.deleteString (D := D) (H := H) hc
    exact ⟨s', hr, h'.items⟩

/-- The string of 45 times the same byte, in an empty table. -/
theorem string_round_trip_new : ∃ rid s' chunks,
    Returns machineSem (procBody degree storeHandlers) (writeString tblStr (fun _ => 7) 45)
      (tableMachine tblStr) rid s' ∧ (s'.items tblStr).drop chunks = fun _ => none :=
  have ⟨rid, s', chunks, hr, _, _, h⟩ := (string_round_trip (D := degree) (H := storeHandlers)
    (StringReach.init (t := tblStr))).1 (fun _ => 7) 45
  ⟨rid, s', chunks, hr, h⟩

/-- **Stored strings are compared in lexicographic order** of signed characters, wherever their
chunks are; and that is a total order. -/
theorem compare_lexicographic (h : StringReach D H t s m S) :
    (∀ p ∈ S, ∀ q ∈ S, ∀ a b, ∃ r s', Returns machineSem (procBody D H)
      (do let aa ← readString t p.rid a
          let bb ← readString t q.rid b
          compareStringRecord t aa bb) s r s' ∧
      r = compareBytes p.bytes q.bytes ∧ (r < 0 ↔ signed p.bytes < signed q.bytes) ∧
      (r = 0 ↔ p.bytes = q.bytes) ∧ (0 < r ↔ signed q.bytes < signed p.bytes)) ∧
    IsStrictTotalOrder (List Byte) fun x y => compareBytes x y < 0 := by
  obtain ⟨f, hf⟩ := h.held
  refine ⟨fun p hp q hq a b => ?_, ?_⟩
  · obtain ⟨c, hc⟩ := hf.2.1 p hp
    obtain ⟨c', hc'⟩ := hf.2.1 q hq
    obtain ⟨r, s', f', hr, -, rfl, -⟩ := hf.1.run (D := D) (H := H)
      ((hc.wp_readString (.start hf.1.2) a).seq fun aa f₁ haa =>
        (hc'.wp_readString haa.2 b).seq fun bb f₂ hbb =>
          wp_compareStringRecord hbb.2 haa.1 hbb.1)
    exact ⟨_, s', hr, rfl, compareBytes_lt _ _, compareBytes_eq_zero _ _, compareBytes_pos _ _⟩
  · exact compareBytes_strictTotalOrder

/-- A string of one byte comes before a string of two. -/
theorem compare_lexicographic_two : ∃ rid rid' s r s',
    Returns machineSem (procBody degree storeHandlers)
      (do let aa ← readString tblStr rid ⟨default, 0⟩
          let bb ← readString tblStr rid' ⟨default, 0⟩
          compareStringRecord tblStr aa bb) s r s' ∧ r < 0 := by
  obtain ⟨rid, s, _, -, h, -⟩ := (StringReach.init (D := degree) (H := storeHandlers)
    (t := tblStr)).writes (fun _ => 7) 1
  obtain ⟨rid', s', _, -, h', -⟩ := h.writes (fun _ => 7) 2
  obtain ⟨r, s'', hr, rfl, -⟩ := (compare_lexicographic h').1 _ (List.mem_cons_of_mem _
    List.mem_cons_self) _ List.mem_cons_self ⟨default, 0⟩ ⟨default, 0⟩
  have hlt : compareBytes (tabulate (fun _ => 7) 1) (tabulate (fun _ => 7) 2) < 0 := by decide
  exact ⟨rid, rid', s', _, s'', hr, hlt⟩

end MyJQL
