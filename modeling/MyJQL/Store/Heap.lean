import MyJQL.Str.Ops

/-!
# The heap of the store

The two tables of the store, with an owner for each item.

* `Str`: a string, as the chain of its chunks; `Strings m C`: the live items of the table `m` are
  the chunks of the strings `C`, and no chunk is in two of them, or twice in one;
* `Row`: a record with its two strings; `Owned m rows loose`: the live items of the table of records
  are the rows, and those of the table of strings are the strings of the rows and the loose strings;
* `Heap m rows loose f s`: the state holds such tables, and the index `f`;
* `Heap.readKey`, **`Heap.cmpRow`**, **`Heap.cmpPtr`**, **`Heap.insertHandler`**,
  **`Heap.deleteString`**, **`Heap.writeString`**, …: one rule for each function of `myjql.c`.
-/

set_option linter.unusedSimpArgs false

namespace MyJQL

/-! ## Strings -/

/-- A string, as the chain of its chunks. -/
abbrev Str := List (RID × List Byte)

/-- The string is in the table. -/
structure IsStr (m : ItemMap) (c : Str) : Prop where
  ne_nil : c ≠ []
  chain : Chain m c
  tail : ∀ p ∈ c.tail, p.2 ≠ []

/-- The chunks of some strings. -/
def chunksOf (C : Multiset Str) : Multiset RID := C.bind fun c => (rids c : Multiset RID)

@[simp] theorem chunksOf_cons (c : Str) (C : Multiset Str) :
    chunksOf (c ::ₘ C) = (rids c : Multiset RID) + chunksOf C := Multiset.cons_bind ..

/-- **The table holds exactly the strings `C`**, each in chunks of its own. -/
structure Strings (m : ItemMap) (C : Multiset Str) : Prop where
  str : ∀ c ∈ C, IsStr m c
  nodup : (chunksOf C).Nodup
  live : ∀ x, m x ≠ none ↔ x ∈ chunksOf C

variable {m m' : ItemMap} {c : Str} {C : Multiset Str} {x : RID} {s : List Byte}

theorem IsStr.congr (h : IsStr m c) (hm : ∀ x ∈ rids c, m' x = m x) : IsStr m' c :=
  { h with chain := h.chain.congr hm }

theorem NewString.isStr (h : NewString m s c) : IsStr (m.addChain c) c :=
  ⟨h.ne_nil, chain_addChain h.nodup h.addr, h.tail⟩

namespace Strings

theorem empty : Strings (fun _ => none) 0 :=
  ⟨fun _ hc => absurd hc (Multiset.notMem_zero _), Multiset.nodup_zero,
    fun _ => ⟨fun h => absurd rfl h, fun h => absurd h (Multiset.notMem_zero _)⟩⟩

theorem add (h : Strings m C) (hn : NewString m s c) : Strings (m.addChain c) (c ::ₘ C) := by
  have hfresh : ∀ {x}, x ∈ chunksOf C → x ∉ rids c := fun hx hc =>
    (h.live _).mpr hx (hn.fresh _ hc)
  refine ⟨fun d hd => ?_, ?_, fun x => ?_⟩
  · rcases Multiset.mem_cons.mp hd with rfl | hd
    · exact hn.isStr
    · refine (h.str d hd).congr fun x hx => addChain_of_notMem (hfresh ?_)
      exact Multiset.mem_bind.mpr ⟨d, hd, hx⟩
  · rw [chunksOf_cons]
    exact Multiset.nodup_add.mpr ⟨hn.nodup, h.nodup, Multiset.disjoint_right.mpr hfresh⟩
  · rw [chunksOf_cons, Multiset.mem_add]
    by_cases hx : x ∈ rids c
    · exact iff_of_true (addChain_ne_none hx) (Or.inl hx)
    · rw [addChain_of_notMem hx, h.live]
      exact (or_iff_right hx).symm

theorem remove (h : Strings m (c ::ₘ C)) : Strings (m.drop (rids c)) C := by
  have hnd := h.nodup
  rw [chunksOf_cons] at hnd
  obtain ⟨-, hnd, hdisj⟩ := Multiset.nodup_add.mp hnd
  have hout : ∀ {x}, x ∈ chunksOf C → x ∉ rids c :=
    fun hx hc => Multiset.disjoint_left.mp hdisj hc hx
  refine ⟨fun d hd => ?_, hnd, fun x => ?_⟩
  · refine (h.str d (Multiset.mem_cons_of_mem hd)).congr fun x hx => if_neg (hout ?_)
    exact Multiset.mem_bind.mpr ⟨d, hd, hx⟩
  · rw [ItemMap.drop]
    split_ifs with hx
    · exact iff_of_false (fun h => h rfl) fun hx' => hout hx' hx
    · rw [h.live, chunksOf_cons, Multiset.mem_add]
      exact or_iff_right hx

theorem rids_nodup (h : Strings m C) (hc : c ∈ C) : (rids c).Nodup := by
  obtain ⟨D, rfl⟩ := Multiset.exists_cons_of_mem hc
  have hnd := h.nodup
  rw [chunksOf_cons] at hnd
  exact (Multiset.nodup_add.mp hnd).1

end Strings

/-! ## Records -/

/-- The item of a record. -/
def Record.item (record : Record) : List Cell := tabulate (fun k => record.toCells k) recordSize

theorem Record.ofCells_copyTo (record : Record) (dest : Cells) :
    Record.ofCells (copyTo record.item dest) = record := by
  have hcell : ∀ j : Int, 0 ≤ j → j < 20 → copyTo record.item dest j = record.toCells j :=
    fun j h0 h1 => by
      have hlen : record.item.length = 20 := length_tabulate ..
      have hj : j.toNat < record.item.length := by omega
      rw [copyTo, if_pos ⟨h0, by omega⟩, List.getD_eq_getElem _ _ hj]
      exact (getElem_tabulate _ _ _ hj).trans (by rw [Int.toNat_of_nonneg h0])
  rw [Record.ofCells]
  congr 1
  · rw [← readRID_writeRID (fun _ => default) 0 record.key]
    refine readRID_congr fun j h1 h2 => ?_
    rw [hcell j h1 (by omega), Record.toCells, writeRID, writeScalar_of_lt (by omega),
      writeScalar_of_lt (by omega)]
  · rw [← readRID_writeRID (writeRID (fun _ => default) 0 record.key) 10 record.value]
    exact readRID_congr fun j h1 h2 => hcell j (by omega) (by omega)

/-! ## Rows -/

theorem exists_cons_of_map {α β : Type} {g : α → β} {l : Multiset α} {b : β} {l' : Multiset β}
    (h : l.map g = b ::ₘ l') : ∃ a l₁, l = a ::ₘ l₁ ∧ g a = b ∧ l₁.map g = l' := by
  obtain ⟨a, ha, rfl⟩ := Multiset.mem_map.mp (h ▸ Multiset.mem_cons_self b l')
  obtain ⟨l₁, rfl⟩ := Multiset.exists_cons_of_mem ha
  rw [Multiset.map_cons] at h
  exact ⟨a, l₁, rfl, rfl, (Multiset.cons_inj_right _).mp h⟩

/-- A record, with its two strings. -/
structure Row where
  rid : RID
  key : Str
  value : Str

def Row.record (row : Row) : Record := ⟨headRID row.key, headRID row.value⟩

/-- The live items of the two tables. -/
structure Tables where
  recs : ItemMap
  strs : ItemMap

/-- The strings of some rows. -/
def strsOf (rows : Multiset Row) : Multiset Str := rows.map Row.key + rows.map Row.value

@[simp] theorem strsOf_cons (row : Row) (rows : Multiset Row) :
    strsOf (row ::ₘ rows) = row.key ::ₘ row.value ::ₘ strsOf rows := by
  rw [strsOf, Multiset.map_cons, Multiset.map_cons, Multiset.cons_add, Multiset.add_cons]
  rfl

/-- **The owners of the items**: the records are the rows, and the strings are theirs or loose. -/
structure Owned (m : Tables) (rows : Multiset Row) (loose : Multiset Str) : Prop where
  nodup : (rows.map Row.rid).Nodup
  record : ∀ row ∈ rows, m.recs row.rid = some row.record.item ∧ row.rid.blockAddr ≠ -1
  live : ∀ x, m.recs x ≠ none → ∃ row ∈ rows, row.rid = x
  strings : Strings m.strs (strsOf rows + loose)
  short : ∀ row ∈ rows, (content row.key).length ≤ maxStrLen

/-- The string that a comparison reads: the key of a row, or a loose string. -/
def KeyAt (rows : Multiset Row) (loose : Multiset Str) (leaf : Bool) (rid : RID) (c : Str) : Prop :=
  if leaf then ∃ row ∈ rows, row.rid = rid ∧ row.key = c else c ∈ loose ∧ headRID c = rid

namespace Owned

variable {m : Tables} {rows : Multiset Row} {loose : Multiset Str} {row : Row} {leaf : Bool}

theorem withStrs (h : Owned m rows loose) {strs : ItemMap} {loose' : Multiset Str}
    (hs : Strings strs (strsOf rows + loose')) : Owned ⟨m.recs, strs⟩ rows loose' :=
  ⟨h.nodup, h.record, h.live, hs, h.short⟩

theorem addStr (h : Owned m rows loose) (hn : NewString m.strs s c) :
    Owned ⟨m.recs, m.strs.addChain c⟩ rows (c ::ₘ loose) := by
  refine h.withStrs ?_
  rw [Multiset.add_cons]
  exact h.strings.add hn

theorem removeStr (h : Owned m rows (c ::ₘ loose)) :
    Owned ⟨m.recs, m.strs.drop (rids c)⟩ rows loose := by
  have hs := h.strings
  rw [Multiset.add_cons] at hs
  exact h.withStrs hs.remove

theorem addRow (row : Row) (h : Owned m rows (row.key ::ₘ row.value ::ₘ loose))
    (hnone : m.recs row.rid = none)
    (ha : row.rid.blockAddr ≠ -1) (hk : (content row.key).length ≤ maxStrLen) :
    Owned ⟨Function.update m.recs row.rid (some row.record.item), m.strs⟩ (row ::ₘ rows) loose := by
  have hne : ∀ r ∈ rows, r.rid ≠ row.rid := fun r hr e => by
    have := (h.record r hr).1
    rw [e, hnone] at this
    cases this
  refine ⟨?_, fun r hr => ?_, fun x hx => ?_, ?_, fun r hr => ?_⟩
  · rw [Multiset.map_cons, Multiset.nodup_cons]
    refine ⟨fun hm => ?_, h.nodup⟩
    obtain ⟨r, hr, e⟩ := Multiset.mem_map.mp hm
    exact hne r hr e
  · rcases Multiset.mem_cons.mp hr with rfl | hr
    · exact ⟨Function.update_self .., ha⟩
    · exact ⟨(Function.update_of_ne (hne r hr) ..).trans (h.record r hr).1, (h.record r hr).2⟩
  · by_cases e : x = row.rid
    · exact ⟨row, Multiset.mem_cons_self _ _, e.symm⟩
    · change Function.update m.recs row.rid _ x ≠ none at hx
      obtain ⟨r, hr, e'⟩ := h.live x (by rwa [Function.update_of_ne e] at hx)
      exact ⟨r, Multiset.mem_cons_of_mem hr, e'⟩
  · rw [strsOf_cons, Multiset.cons_add, Multiset.cons_add, ← Multiset.add_cons,
      ← Multiset.add_cons]
    exact h.strings
  · rcases Multiset.mem_cons.mp hr with rfl | hr
    · exact hk
    · exact h.short r hr

theorem removeRow (h : Owned m (row ::ₘ rows) loose) :
    Owned ⟨Function.update m.recs row.rid none, m.strs⟩ rows
      (row.key ::ₘ row.value ::ₘ loose) := by
  have hnd := h.nodup
  rw [Multiset.map_cons, Multiset.nodup_cons] at hnd
  have hne : ∀ r ∈ rows, r.rid ≠ row.rid := fun r hr e =>
    hnd.1 (Multiset.mem_map.mpr ⟨r, hr, e⟩)
  refine ⟨hnd.2, fun r hr => ?_, fun x hx => ?_, ?_, fun r hr =>
    h.short r (Multiset.mem_cons_of_mem hr)⟩
  · obtain ⟨h1, h2⟩ := h.record r (Multiset.mem_cons_of_mem hr)
    exact ⟨(Function.update_of_ne (hne r hr) ..).trans h1, h2⟩
  · change Function.update m.recs row.rid none x ≠ none at hx
    by_cases e : x = row.rid
    · rw [e, Function.update_self] at hx
      exact absurd rfl hx
    · obtain ⟨r, hr, e'⟩ := h.live x (by rwa [Function.update_of_ne e] at hx)
      rcases Multiset.mem_cons.mp hr with rfl | hr
      · exact absurd e'.symm e
      · exact ⟨r, hr, e'⟩
  · have hs := h.strings
    rwa [strsOf_cons, Multiset.cons_add, Multiset.cons_add, ← Multiset.add_cons,
      ← Multiset.add_cons] at hs

theorem isStr (h : Owned m rows loose) {rid : RID} (hk : KeyAt rows loose leaf rid c) :
    IsStr m.strs c := by
  refine h.strings.str c (Multiset.mem_add.mpr ?_)
  cases leaf with
  | false => exact Or.inr hk.1
  | true =>
    obtain ⟨row, hr, -, rfl⟩ := hk
    exact Or.inl (Multiset.mem_add.mpr (Or.inl (Multiset.mem_map_of_mem _ hr)))

end Owned

/-! ## States -/

/-- **The state holds the tables `m`**, with their owners, and the index `f`. -/
structure Heap (m : Tables) (rows : Multiset Row) (loose : Multiset Str) (f : FlatPool) (s : Flat) :
    Prop where
  recTable : TableRep (s .recData) (s .recFsm) m.recs
  strTable : TableRep (s .strData) (s .strFsm) m.strs
  owned : Owned m rows loose
  index : s .bpIdx = f

namespace Heap

variable {bd : Bool} {D : ℕ} {H : Handlers} {m : Tables} {rows : Multiset Row} {loose : Multiset Str}
  {row : Row} {f f' : FlatPool} {s s' : Flat} {strs recs : ItemMap} {leaf : Bool} {rid : RID}

theorem onStrs (h : Heap m rows loose f s) (h' : tblStr.At s strs s') {loose' : Multiset Str}
    (ho : Owned ⟨m.recs, strs⟩ rows loose') : Heap ⟨m.recs, strs⟩ rows loose' f s' := by
  refine ⟨?_, h'.rep, ho, (h'.only _ (by decide) (by decide)).trans h.index⟩
  rw [h'.only .recData (by decide) (by decide), h'.only .recFsm (by decide) (by decide)]
  exact h.recTable

theorem onRecs (h : Heap m rows loose f s) (h' : tblRec.At s recs s') {rows' : Multiset Row}
    {loose' : Multiset Str} (ho : Owned ⟨recs, m.strs⟩ rows' loose') :
    Heap ⟨recs, m.strs⟩ rows' loose' f s' := by
  refine ⟨h'.rep, ?_, ho, (h'.only _ (by decide) (by decide)).trans h.index⟩
  rw [h'.only .strData (by decide) (by decide), h'.only .strFsm (by decide) (by decide)]
  exact h.strTable

theorem withIndex (h : Heap m rows loose f s) :
    Heap m rows loose f' (Function.update s .bpIdx f') :=
  ⟨h.recTable, h.strTable, h.owned, Function.update_self ..⟩

theorem readRecord (h : Heap m rows loose f s) (hr : row ∈ rows) :
    wp (flatSem bd) (procBody D H) (readRecord tblRec row.rid)
      (fun r s' => r = row.record ∧ Heap m rows loose f s') s := by
  refine ((Table.At.start h.recTable : tblRec.At s m.recs s).read (h.owned.record row hr).1
    _).seq fun d s' hd => wp_pure ⟨?_, h.onRecs hd.2 h.owned⟩
  rw [hd.1, Record.ofCells_copyTo]

theorem readString (h : Heap m rows loose f s) (hc : IsStr m.strs c) (r : StringRecord) :
    wp (flatSem bd) (procBody D H) (readString tblStr (headRID c) r)
      (fun r' s' => Cursor m.strs r' (content c) ∧ Heap m rows loose f s') s := by
  obtain ⟨p, c, rfl⟩ := List.exists_cons_of_ne_nil hc.ne_nil
  refine (wp_readString (.start h.strTable : tblStr.At s m.strs s) hc.chain hc.tail r).mono
    fun _ _ hr => ⟨hr.1, h.onStrs hr.2 h.owned⟩

theorem loadString (h : Heap m rows loose f s) (hc : IsStr m.strs c) (r : StringRecord)
    (dest : ℕ → Byte) (n : ℕ) :
    wp (flatSem bd) (procBody D H)
      (MyJQL.readString tblStr (headRID c) r >>= fun r' => loadString tblStr r' dest n)
      (fun q s' => q = (min n (content c).length, loaded (content c) n 0 dest) ∧
        Heap m rows loose f s') s :=
  (h.readString hc r).seq fun _ s₁ h₁ =>
    (wp_loadString (.start h₁.2.strTable : tblStr.At s₁ m.strs s₁) h₁.1 dest n).mono fun _ _ hq =>
      ⟨hq.1, h₁.2.onStrs hq.2 h.owned⟩

theorem readKey (h : Heap m rows loose f s) (hk : KeyAt rows loose leaf rid c) :
    wp (flatSem bd) (procBody D H) (readKey rid leaf)
      (fun r s' => Cursor m.strs r (content c) ∧ Heap m rows loose f s') s := by
  have hc := h.owned.isStr hk
  cases leaf with
  | false =>
    obtain ⟨-, rfl⟩ := hk
    exact h.readString hc _
  | true =>
    obtain ⟨row, hr, rfl, rfl⟩ := hk
    refine (h.readRecord hr).seq fun r s' hr => ?_
    obtain ⟨rfl, h⟩ := hr
    exact h.readString hc _

theorem compare (h : Heap m rows loose f s) {a b : StringRecord} {xs ys : List Byte}
    (ha : Cursor m.strs a xs) (hb : Cursor m.strs b ys) :
    wp (flatSem bd) (procBody D H) (compareStringRecord tblStr a b)
      (fun r s' => r = compareBytes xs ys ∧ Heap m rows loose f s') s :=
  (wp_compareStringRecord (.start h.strTable : tblStr.At s m.strs s) ha hb).mono fun _ _ hr =>
    ⟨hr.1, h.onStrs hr.2 h.owned⟩

/-- **`rid_row_row_cmp`** compares the two strings. -/
theorem cmpRow (h : Heap m rows loose f s) {a b : RID} {aleaf bleaf : Bool} {c d : Str}
    (ha : KeyAt rows loose aleaf a c) (hb : KeyAt rows loose bleaf b d) :
    wp (flatSem bd) (procBody D H) (ridRowRowCmp a b aleaf bleaf)
      (fun r s' => r = compareBytes (content c) (content d) ∧ Heap m rows loose f s') s :=
  (h.readKey ha).seq fun _ _ h₁ => (h₁.2.readKey hb).seq fun _ _ h₂ => h₂.2.compare h₁.1 h₂.1

theorem writeString (h : Heap m rows loose f s) (data : ℕ → Byte) (size : ℕ) :
    wp (flatSem bd) (procBody D H) (writeString tblStr data size)
      (fun rid s' => ∃ c, headRID c = rid ∧ NewString m.strs (tabulate data size) c ∧
        Heap ⟨m.recs, m.strs.addChain c⟩ rows (c ::ₘ loose) f s') s := by
  refine (wp_writeString (.start h.strTable : tblStr.At s m.strs s) data size).mono fun rid s' hr => ?_
  obtain ⟨c, hrid, hn, h'⟩ := hr
  exact ⟨c, hrid, hn, h.onStrs h' (h.owned.addStr hn)⟩

/-- **`delete_string`** of a loose string. -/
theorem deleteString (h : Heap m rows (c ::ₘ loose) f s) :
    wp (flatSem bd) (procBody D H) (deleteString tblStr (headRID c))
      (fun _ s' => Heap ⟨m.recs, m.strs.drop (rids c)⟩ rows loose f s') s := by
  have hmem : c ∈ strsOf rows + c ::ₘ loose :=
    Multiset.mem_add.mpr (Or.inr (Multiset.mem_cons_self _ _))
  exact (wp_deleteString (.start h.strTable : tblStr.At s m.strs s) (h.owned.strings.str c hmem).chain
    (h.owned.strings.rids_nodup hmem)).mono fun _ _ h' => h.onStrs h' h.owned.removeStr

/-- **`rid_ptr_row_cmp`** compares the two strings, and leaves the tables as they were. -/
theorem cmpPtr (h : Heap m rows loose f s) (p : ℕ → Byte) (size : ℕ) {b : RID} {bleaf : Bool}
    {d : Str} (hb : KeyAt rows loose bleaf b d) :
    wp (flatSem bd) (procBody D H) (ridPtrRowCmp p size b bleaf)
      (fun r s' => r = compareBytes (tabulate p size) (content d) ∧ Heap m rows loose f s') s := by
  have hb' : ∀ c : Str, KeyAt rows (c ::ₘ loose) bleaf b d := fun c => by
    cases bleaf with
    | true => exact hb
    | false => exact ⟨Multiset.mem_cons_of_mem hb.1, hb.2⟩
  refine (h.writeString p size).seq fun rid s₁ hr => ?_
  obtain ⟨c, rfl, hn, h₁⟩ := hr
  refine (h₁.readString hn.isStr _).seq fun aa s₂ h₂ => ?_
  refine (h₂.2.readKey (hb' c)).seq fun bb s₃ h₃ => ?_
  refine (h₃.2.compare h₂.1 h₃.1).seq fun ans s₄ h₄ => ?_
  obtain ⟨rfl, h₄⟩ := h₄
  refine h₄.deleteString.seq fun _ s₅ h₅ => wp_pure ⟨by rw [hn.content], ?_⟩
  rwa [drop_addChain hn.fresh] at h₅

/-- **`insert_handler`** copies a string that is short enough. -/
theorem insertHandler (h : Heap m rows loose f s) (hk : KeyAt rows loose leaf rid c)
    (hlen : (content c).length ≤ maxStrLen) :
    wp (flatSem bd) (procBody D H) (insertHandler rid leaf)
      (fun rid' s' => ∃ c', headRID c' = rid' ∧ NewString m.strs (content c) c' ∧
        Heap ⟨m.recs, m.strs.addChain c'⟩ rows (c' ::ₘ loose) f s') s := by
  refine (h.readKey hk).seq fun aa s₁ h₁ => ?_
  refine wp.seq (wp_loadString (.start h₁.2.strTable : tblStr.At s₁ m.strs s₁) h₁.1 _ maxStrLen)
    fun q s₂ h₂ => ?_
  obtain ⟨rfl, h₂⟩ := h₂
  have hload : tabulate (loaded (content c) maxStrLen 0 fun _ => default)
      (min maxStrLen (content c).length) = content c := by
    rw [min_eq_right hlen, tabulate_eq_iff]
    refine ⟨rfl, fun i hi => ?_⟩
    rw [loaded, if_pos (by omega)]
    exact List.getD_eq_getElem _ _ hi
  refine ((h₁.2.onStrs h₂ h.owned).writeString _ _).mono fun rid' s₃ h₃ => ?_
  rw [hload] at h₃
  exact h₃

/-- `write_record` makes a row of two loose strings. -/
theorem writeRecord (h : Heap m rows (c ::ₘ d ::ₘ loose) f s)
    (hlen : (content c).length ≤ maxStrLen) :
    wp (flatSem bd) (procBody D H) (writeRecord tblRec ⟨headRID c, headRID d⟩)
      (fun rid s' => ∃ m', Heap m' (⟨rid, c, d⟩ ::ₘ rows) loose f s') s := by
  refine ((Table.At.start h.recTable : tblRec.At s m.recs s).insert _ (by decide)
    (by decide)).mono fun rid s' hr => ?_
  obtain ⟨hnone, ha, h'⟩ := hr
  exact ⟨_, h.onRecs h' (Owned.addRow ⟨rid, c, d⟩ h.owned hnone ha hlen)⟩

/-- `delete_record` makes the strings of a row loose. -/
theorem deleteRecord (h : Heap m (row ::ₘ rows) loose f s) :
    wp (flatSem bd) (procBody D H) (deleteRecord tblRec row.rid)
      (fun _ s' => ∃ m', Heap m' rows (row.key ::ₘ row.value ::ₘ loose) f s') s :=
  ((Table.At.start h.recTable : tblRec.At s m.recs s).delete
    (h.owned.record row (Multiset.mem_cons_self _ _)).1).mono fun _ _ h' =>
      ⟨_, h.onRecs h' h.owned.removeRow⟩

end Heap

end MyJQL
