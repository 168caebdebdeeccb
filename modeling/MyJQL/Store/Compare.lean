import MyJQL.Store.Spec
import MyJQL.Str.RoundTrip

/-!
# The two comparisons agree

* `Text`, `LiveRow`: a live string, as its `RID` and its bytes, and a live record with its strings;
* `HeapReach`: the states of the two tables reached from empty files by writing and deleting strings
  and records, by the comparisons and `insert_handler`, and by steps of the index, each with its
  rows and its other strings;
* **`HeapReach.held`**: each of these states holds them;
* **`compare_agree`**: `rid_ptr_row_cmp` on a key and `rid_row_row_cmp` on a record with this key
  agree, and so do all comparisons with a record and with its copy.
-/

set_option linter.unusedSimpArgs false

namespace MyJQL

/-- A live string: its `RID` and its bytes. -/
abbrev Text := RID × List Byte

/-- A live record, with its strings. -/
structure LiveRow where
  rid : RID
  key : Text
  value : Text

/-- The bytes that a comparison reads: the key of a record, or another string. -/
def ReadsAs (rows : Multiset LiveRow) (loose : Multiset Text) (leaf : Bool) (rid : RID)
    (bytes : List Byte) : Prop :=
  if leaf then ∃ row ∈ rows, row.rid = rid ∧ row.key.2 = bytes else (rid, bytes) ∈ loose

/-- The machine with both tables on absent files. -/
def heapMachine : Machine
  | .bpIdx => Mapped.new (initBufferPool none)
  | .recData | .strData => Mapped.new (tableInit none none).1
  | .recFsm | .strFsm => Mapped.new (tableInit none none).2

/-- **The states reached** from empty files, each with the live records and the other live
strings. -/
inductive HeapReach (D : ℕ) (H : Handlers) : Machine → Multiset LiveRow → Multiset Text → Prop
  | init : HeapReach D H heapMachine 0 0
  | writeString {t t' : Machine} {rows : Multiset LiveRow} {loose : Multiset Text} {data : ℕ → Byte}
      {size : ℕ} {rid : RID} (h : HeapReach D H t rows loose)
      (hr : Returns machineSem (procBody D H) (writeString tblStr data size) t rid t') :
      HeapReach D H t' rows ((rid, tabulate data size) ::ₘ loose)
  | deleteString {t t' : Machine} {rows : Multiset LiveRow} {loose : Multiset Text} {p : Text}
      (h : HeapReach D H t rows (p ::ₘ loose))
      (hr : Returns machineSem (procBody D H) (deleteString tblStr p.1) t () t') :
      HeapReach D H t' rows loose
  | writeRecord {t t' : Machine} {rows : Multiset LiveRow} {loose : Multiset Text} {key value : Text}
      {rid : RID} (h : HeapReach D H t rows (key ::ₘ value ::ₘ loose))
      (hk : key.2.length ≤ maxStrLen)
      (hr : Returns machineSem (procBody D H) (writeRecord tblRec ⟨key.1, value.1⟩) t rid t') :
      HeapReach D H t' (⟨rid, key, value⟩ ::ₘ rows) loose
  | deleteRecord {t t' : Machine} {rows : Multiset LiveRow} {loose : Multiset Text} {row : LiveRow}
      (h : HeapReach D H t (row ::ₘ rows) loose)
      (hr : Returns machineSem (procBody D H) (deleteRecord tblRec row.rid) t () t') :
      HeapReach D H t' rows (row.key ::ₘ row.value ::ₘ loose)
  | readRecord {t t' : Machine} {rows : Multiset LiveRow} {loose : Multiset Text} {row : LiveRow}
      {record : Record} (h : HeapReach D H t rows loose) (hm : row ∈ rows)
      (hr : Returns machineSem (procBody D H) (readRecord tblRec row.rid) t record t') :
      HeapReach D H t' rows loose
  | loadString {t t' : Machine} {rows : Multiset LiveRow} {loose : Multiset Text} {p : Text}
      {record : StringRecord} {dest : ℕ → Byte} {maxSize : ℕ} {r : ℕ × (ℕ → Byte)}
      (h : HeapReach D H t rows loose)
      (hp : p ∈ loose ∨ ∃ row ∈ rows, p = row.key ∨ p = row.value)
      (hr : Returns machineSem (procBody D H) (readString tblStr p.1 record >>= fun record =>
        loadString tblStr record dest maxSize) t r t') : HeapReach D H t' rows loose
  | cmpRow {t t' : Machine} {rows : Multiset LiveRow} {loose : Multiset Text} {a b : RID}
      {aleaf bleaf : Bool} {x y : List Byte} {r : Int} (h : HeapReach D H t rows loose)
      (ha : ReadsAs rows loose aleaf a x) (hb : ReadsAs rows loose bleaf b y)
      (hr : Returns machineSem (procBody D H) (ridRowRowCmp a b aleaf bleaf) t r t') :
      HeapReach D H t' rows loose
  | cmpPtr {t t' : Machine} {rows : Multiset LiveRow} {loose : Multiset Text} {p : ℕ → Byte} {size : ℕ}
      {b : RID} {bleaf : Bool} {y : List Byte} {r : Int} (h : HeapReach D H t rows loose)
      (hb : ReadsAs rows loose bleaf b y)
      (hr : Returns machineSem (procBody D H) (ridPtrRowCmp p size b bleaf) t r t') :
      HeapReach D H t' rows loose
  | insertHandler {t t' : Machine} {rows : Multiset LiveRow} {loose : Multiset Text} {a rid : RID}
      {leaf : Bool} {x : List Byte} (h : HeapReach D H t rows loose)
      (ha : ReadsAs rows loose leaf a x) (hx : x.length ≤ maxStrLen)
      (hr : Returns machineSem (procBody D H) (insertHandler a leaf) t rid t') :
      HeapReach D H t' rows ((rid, x) ::ₘ loose)
  | index {t t' : Machine} {rows : Multiset LiveRow} {loose : Multiset Text} {s : Flat}
      (h : HeapReach D H t rows loose) (hi : ∀ i ≠ .bpIdx, t' i = t i) (hs : Holds s t') :
      HeapReach D H t' rows loose

/-! ## What the machine holds -/

/-- A string, as its `RID` and its bytes. -/
def Str.text (c : Str) : Text := (headRID c, content c)

def Row.live (row : Row) : LiveRow := ⟨row.rid, Str.text row.key, Str.text row.value⟩

/-- The machine holds the rows and the other strings. -/
def HeapHeld (t : Machine) (rows : Multiset LiveRow) (loose : Multiset Text) (m : Tables)
    (s : Flat) :
    Prop :=
  Holds s t ∧ ∃ (R : Multiset Row) (C : Multiset Str), Heap m R C (s .bpIdx) s ∧
    R.map Row.live = rows ∧ C.map Str.text = loose

section Held

variable {D : ℕ} {H : Handlers} {t t' : Machine} {rows : Multiset LiveRow} {loose : Multiset Text}
  {m m' : Tables} {s s' : Flat} {R : Multiset Row} {C : Multiset Str}

theorem ReadsAs.keyAt {leaf : Bool} {rid : RID} {x : List Byte}
    (h : ReadsAs (R.map Row.live) (C.map Str.text) leaf rid x) :
    ∃ c, KeyAt R C leaf rid c ∧ content c = x := by
  cases leaf with
  | false =>
    obtain ⟨c, hc, e⟩ := Multiset.mem_map.mp h
    exact ⟨c, ⟨hc, congrArg Prod.fst e⟩, congrArg Prod.snd e⟩
  | true =>
    obtain ⟨row, hr, rfl, rfl⟩ := h
    obtain ⟨row, hrow, rfl⟩ := Multiset.mem_map.mp hr
    exact ⟨row.key, ⟨row, hrow, rfl, rfl⟩, rfl⟩

theorem live_isStr {f : FlatPool} (hm : Heap m R C f s) {p : Text}
    (hp : p ∈ C.map Str.text ∨ ∃ row ∈ R.map Row.live, p = row.key ∨ p = row.value) :
    ∃ c, Str.text c = p ∧ IsStr m.strs c := by
  have hstr : ∀ c, c ∈ strsOf R + C → IsStr m.strs c := hm.owned.strings.str
  rcases hp with hp | ⟨row, hrow, hp⟩
  · obtain ⟨c, hc, rfl⟩ := Multiset.mem_map.mp hp
    exact ⟨c, rfl, hstr c (Multiset.mem_add.mpr (Or.inr hc))⟩
  · obtain ⟨row, hr, rfl⟩ := Multiset.mem_map.mp hrow
    rcases hp with rfl | rfl
    · exact ⟨row.key, rfl, hstr _ (Multiset.mem_add.mpr (Or.inl (Multiset.mem_add.mpr
        (Or.inl (Multiset.mem_map_of_mem _ hr)))))⟩
    · exact ⟨row.value, rfl, hstr _ (Multiset.mem_add.mpr (Or.inl (Multiset.mem_add.mpr
        (Or.inr (Multiset.mem_map_of_mem _ hr)))))⟩

theorem heapMachine_held : ∃ s, HeapHeld heapMachine 0 0 ⟨fun _ => none, fun _ => none⟩ s := by
  have hd : Cached _ (Mapped.new (initBufferPool none)) := cached_init le_rfl
  have hf := cached_hashTableInit (n := fsmBlocks) (by decide)
  refine ⟨fun
    | .bpIdx | .recData | .strData => .ofFile (openFile none).2
    | .recFsm | .strFsm => .ofFile (hashTableInit none fsmBlocks).file, fun i => ?_, 0, 0,
    ⟨tableRep_empty, tableRep_empty, ⟨Multiset.nodup_zero, fun r hr => absurd hr (Multiset.notMem_zero r),
      fun x hx => absurd rfl hx, Strings.empty, fun r hr => absurd hr (Multiset.notMem_zero r)⟩, rfl⟩,
    rfl, rfl⟩
  cases i
  · exact hd
  · exact hd
  · exact hf
  · exact hd
  · exact hf

/-- **Every state reached holds its rows and strings.** -/
theorem HeapReach.held (h : HeapReach D H t rows loose) : ∃ m s, HeapHeld t rows loose m s := by
  induction h with
  | init =>
    obtain ⟨s, hs⟩ := heapMachine_held
    exact ⟨_, s, hs⟩
  | writeString _ hr ih =>
    obtain ⟨m, s, hs, R, C, hm, rfl, rfl⟩ := ih
    obtain ⟨s', hs', ⟨c, rfl, hn, hm'⟩, -⟩ := (hm.writeString _ _).of_machine hs hr
    refine ⟨_, s', hs', R, c ::ₘ C, hm'.index.symm ▸ hm', rfl, ?_⟩
    rw [Multiset.map_cons, Str.text, hn.content]
  | deleteString _ hr ih =>
    obtain ⟨m, s, hs, R, C, hm, rfl, e⟩ := ih
    obtain ⟨c, C, rfl, rfl, rfl⟩ := exists_cons_of_map e
    obtain ⟨s', hs', hm', -⟩ := hm.deleteString.of_machine hs hr
    exact ⟨_, s', hs', R, C, hm'.index.symm ▸ hm', rfl, rfl⟩
  | writeRecord _ hk hr ih =>
    obtain ⟨m, s, hs, R, C, hm, rfl, e⟩ := ih
    obtain ⟨c, C₁, rfl, rfl, e₁⟩ := exists_cons_of_map e
    obtain ⟨d, C, rfl, rfl, rfl⟩ := exists_cons_of_map e₁
    obtain ⟨s', hs', ⟨m', hm'⟩, -⟩ := (hm.writeRecord hk).of_machine hs hr
    exact ⟨_, s', hs', _, C, hm'.index.symm ▸ hm', Multiset.map_cons .., rfl⟩
  | deleteRecord _ hr ih =>
    obtain ⟨m, s, hs, R, C, hm, e, rfl⟩ := ih
    obtain ⟨row, R, rfl, rfl, rfl⟩ := exists_cons_of_map e
    obtain ⟨s', hs', ⟨m', hm'⟩, -⟩ := hm.deleteRecord.of_machine hs hr
    refine ⟨_, s', hs', R, _, hm'.index.symm ▸ hm', rfl, ?_⟩
    rw [Multiset.map_cons, Multiset.map_cons]
    rfl
  | readRecord _ hmem hr ih =>
    obtain ⟨m, s, hs, R, C, hm, rfl, rfl⟩ := ih
    obtain ⟨row, hrow, rfl⟩ := Multiset.mem_map.mp hmem
    obtain ⟨s', hs', ⟨-, hm'⟩, -⟩ := (hm.readRecord hrow).of_machine hs hr
    exact ⟨m, s', hs', R, C, hm'.index.symm ▸ hm', rfl, rfl⟩
  | loadString _ hp hr ih =>
    obtain ⟨m, s, hs, R, C, hm, rfl, rfl⟩ := ih
    obtain ⟨c, rfl, hc⟩ := live_isStr hm hp
    obtain ⟨s', hs', ⟨-, hm'⟩, -⟩ := (hm.loadString hc _ _ _).of_machine hs hr
    exact ⟨m, s', hs', R, C, hm'.index.symm ▸ hm', rfl, rfl⟩
  | cmpRow _ ha hb hr ih =>
    obtain ⟨m, s, hs, R, C, hm, rfl, rfl⟩ := ih
    obtain ⟨c, hc, -⟩ := ha.keyAt
    obtain ⟨d, hd, -⟩ := hb.keyAt
    obtain ⟨s', hs', ⟨-, hm'⟩, -⟩ := (hm.cmpRow hc hd).of_machine hs hr
    exact ⟨m, s', hs', R, C, hm'.index.symm ▸ hm', rfl, rfl⟩
  | cmpPtr _ hb hr ih =>
    obtain ⟨m, s, hs, R, C, hm, rfl, rfl⟩ := ih
    obtain ⟨d, hd, -⟩ := hb.keyAt
    obtain ⟨s', hs', ⟨-, hm'⟩, -⟩ := (hm.cmpPtr _ _ hd).of_machine hs hr
    exact ⟨m, s', hs', R, C, hm'.index.symm ▸ hm', rfl, rfl⟩
  | insertHandler _ ha hx hr ih =>
    obtain ⟨m, s, hs, R, C, hm, rfl, rfl⟩ := ih
    obtain ⟨c, hc, rfl⟩ := ha.keyAt
    obtain ⟨s', hs', ⟨c', rfl, hn, hm'⟩, -⟩ := (hm.insertHandler hc hx).of_machine hs hr
    refine ⟨_, s', hs', R, c' ::ₘ C, hm'.index.symm ▸ hm', rfl, ?_⟩
    rw [Multiset.map_cons, Str.text, hn.content]
  | @index _ _ _ _ s₁ _ hi hs₁ ih =>
    obtain ⟨m, s, hs, R, C, hm, rfl, rfl⟩ := ih
    refine ⟨m, Function.update s .bpIdx (s₁ .bpIdx), fun i => ?_, R, C, ?_, rfl, rfl⟩
    · by_cases e : i = .bpIdx
      · subst e
        rw [Function.update_self]
        exact hs₁ _
      · rw [Function.update_of_ne e, hi i e]
        exact hs i
    · rw [Function.update_self]
      exact hm.withIndex

omit H D in
theorem HeapHeld.items (h : HeapHeld t rows loose m s) :
    t.items tblRec = m.recs ∧ t.items tblStr = m.strs := by
  obtain ⟨hs, R, C, hm, -⟩ := h
  exact ⟨TableHeld.items ⟨hs, hm.recTable⟩, TableHeld.items ⟨hs, hm.strTable⟩⟩

theorem HeapHeld.cmpRow (h : HeapHeld t rows loose m s) {a b : RID} {aleaf bleaf : Bool}
    {x y : List Byte} (ha : ReadsAs rows loose aleaf a x) (hb : ReadsAs rows loose bleaf b y) :
    ∃ t', Returns machineSem (procBody D H) (ridRowRowCmp a b aleaf bleaf) t (compareBytes x y) t' := by
  obtain ⟨hs, R, C, hm, rfl, rfl⟩ := h
  obtain ⟨c, hc, rfl⟩ := ha.keyAt
  obtain ⟨d, hd, rfl⟩ := hb.keyAt
  obtain ⟨r, s', t', hr, -, rfl, -⟩ := (hm.cmpRow hc hd).simulated machine_simulates hs
  exact ⟨t', hr⟩

theorem HeapHeld.cmpPtr (h : HeapHeld t rows loose m s) (p : ℕ → Byte) (size : ℕ) {b : RID}
    {bleaf : Bool} {y : List Byte} (hb : ReadsAs rows loose bleaf b y) :
    ∃ t' s', Returns machineSem (procBody D H) (ridPtrRowCmp p size b bleaf) t
      (compareBytes (tabulate p size) y) t' ∧ HeapHeld t' rows loose m s' := by
  obtain ⟨hs, R, C, hm, rfl, rfl⟩ := h
  obtain ⟨d, hd, rfl⟩ := hb.keyAt
  obtain ⟨r, s', t', hr, hs', rfl, hm'⟩ := (hm.cmpPtr p size hd).simulated machine_simulates hs
  exact ⟨t', s', hr, hs', R, C, hm'.index.symm ▸ hm', rfl, rfl⟩

theorem HeapHeld.insertHandler (h : HeapHeld t rows loose m s) {a : RID} {leaf : Bool}
    {x : List Byte} (ha : ReadsAs rows loose leaf a x) (hx : x.length ≤ maxStrLen) :
    ∃ c t', Returns machineSem (procBody D H) (insertHandler a leaf) t c t' := by
  obtain ⟨hs, R, C, hm, rfl, rfl⟩ := h
  obtain ⟨c, hc, rfl⟩ := ha.keyAt
  obtain ⟨r, s', t', hr, -⟩ := (hm.insertHandler hc hx).simulated machine_simulates hs
  exact ⟨r, t', hr⟩

omit H D in
theorem HeapHeld.short (h : HeapHeld t rows loose m s) {row : LiveRow} (hr : row ∈ rows) :
    row.key.2.length ≤ maxStrLen := by
  obtain ⟨-, R, C, hm, rfl, -⟩ := h
  obtain ⟨row, hrow, rfl⟩ := Multiset.mem_map.mp hr
  exact hm.owned.short row hrow

end Held

/-! ## Runs -/

section Runs

variable {D : ℕ} {H : Handlers} {t : Machine} {rows : Multiset LiveRow} {loose : Multiset Text}

theorem HeapReach.writes (h : HeapReach D H t rows loose) (data : ℕ → Byte) (size : ℕ) :
    ∃ rid t', HeapReach D H t' rows ((rid, tabulate data size) ::ₘ loose) := by
  obtain ⟨m, s, hs, R, C, hm, rfl, rfl⟩ := h.held
  obtain ⟨rid, s', t', hr, -⟩ := (hm.writeString (D := D) (H := H) data size).simulated
    machine_simulates hs
  exact ⟨rid, t', h.writeString hr⟩

theorem HeapReach.writesRecord {key value : Text}
    (h : HeapReach D H t rows (key ::ₘ value ::ₘ loose))
    (hk : key.2.length ≤ maxStrLen) :
    ∃ rid t', HeapReach D H t' (⟨rid, key, value⟩ ::ₘ rows) loose := by
  obtain ⟨m, s, hs, R, C, hm, rfl, e⟩ := h.held
  obtain ⟨c, C₁, rfl, rfl, e₁⟩ := exists_cons_of_map e
  obtain ⟨d, C, rfl, rfl, rfl⟩ := exists_cons_of_map e₁
  obtain ⟨rid, s', t', hr, -⟩ :=
    (hm.writeRecord (D := D) (H := H) hk).simulated machine_simulates hs
  exact ⟨rid, t', h.writeRecord hk hr⟩

theorem HeapReach.adds (h : HeapReach D H t rows loose) (key : ℕ → Byte) {keyLen : ℕ}
    (hk : keyLen ≤ maxStrLen) (value : ℕ → Byte) (len : ℕ) : ∃ (row : LiveRow) (t' : Machine),
    HeapReach D H t' (row ::ₘ rows) loose ∧ row.key.2 = tabulate key keyLen := by
  obtain ⟨v, t₁, h₁⟩ := h.writes value len
  obtain ⟨k, t₂, h₂⟩ := h₁.writes key keyLen
  obtain ⟨rid, t', h'⟩ := h₂.writesRecord ((length_tabulate key keyLen).trans_le hk)
  exact ⟨_, t', h', rfl⟩

end Runs

/-! ## Agreement -/

section Results

variable {D : ℕ} {H : Handlers} {t : Machine} {rows : Multiset LiveRow} {loose : Multiset Text}

/-- **The two comparisons agree.** In every state reached, for every live record `a`:

* `rid_ptr_row_cmp` on the key of `a` and `rid_row_row_cmp` on `a` return the same for every record
  and every other string, and `rid_ptr_row_cmp` leaves the live items of both tables as they were;
* `insert_handler` copies the key of `a`; as long as `a` and the copy are live, every comparison with
  the copy returns what it returns with `a`. -/
theorem compare_agree (h : HeapReach D H t rows loose) {a : LiveRow} (ha : a ∈ rows) :
    (∀ key size b leaf y, tabulate key size = a.key.2 → ReadsAs rows loose leaf b y →
      ∃ r t₁ t₂, Returns machineSem (procBody D H) (ridPtrRowCmp key size b leaf) t r t₁ ∧
        Returns machineSem (procBody D H) (ridRowRowCmp a.rid b true leaf) t r t₂ ∧
        t₁.items tblRec = t.items tblRec ∧ t₁.items tblStr = t.items tblStr) ∧
    ∃ copy t', Returns machineSem (procBody D H) (insertHandler a.rid true) t copy t' ∧
      HeapReach D H t' rows ((copy, a.key.2) ::ₘ loose) ∧
      ∀ u rows' loose', HeapReach D H u rows' loose' → a ∈ rows' → (copy, a.key.2) ∈ loose' →
        (∀ b leaf y, ReadsAs rows' loose' leaf b y →
          (∃ r u₁ u₂, Returns machineSem (procBody D H) (ridRowRowCmp a.rid b true leaf) u r u₁ ∧
            Returns machineSem (procBody D H) (ridRowRowCmp copy b false leaf) u r u₂) ∧
          ∃ r u₁ u₂, Returns machineSem (procBody D H) (ridRowRowCmp b a.rid leaf true) u r u₁ ∧
            Returns machineSem (procBody D H) (ridRowRowCmp b copy leaf false) u r u₂) ∧
        ∀ key size, ∃ r u₁ u₂,
          Returns machineSem (procBody D H) (ridPtrRowCmp key size a.rid true) u r u₁ ∧
          Returns machineSem (procBody D H) (ridPtrRowCmp key size copy false) u r u₂ := by
  obtain ⟨m, s, hs⟩ := h.held
  have hread : ∀ {rows : Multiset LiveRow} {loose : Multiset Text}, a ∈ rows →
      ReadsAs rows loose true a.rid a.key.2 := fun ha => ⟨a, ha, rfl, rfl⟩
  refine ⟨fun key size b leaf y hkey hb => ?_, ?_⟩
  · obtain ⟨t₁, s₁, h₁, hs₁⟩ := hs.cmpPtr (D := D) (H := H) key size hb
    obtain ⟨t₂, h₂⟩ := hs.cmpRow (D := D) (H := H) (hread ha) hb
    rw [hkey] at h₁
    exact ⟨_, t₁, t₂, h₁, h₂, hs₁.items.1.trans hs.items.1.symm,
      hs₁.items.2.trans hs.items.2.symm⟩
  · obtain ⟨copy, t', hc⟩ := hs.insertHandler (D := D) (H := H) (hread ha) (hs.short ha)
    refine ⟨copy, t', hc, .insertHandler h (hread ha) (hs.short ha) hc, fun u rows' loose' hu ha' hc' =>
      ?_⟩
    obtain ⟨m', s', hs'⟩ := hu.held
    have hcopy : ReadsAs rows' loose' false copy a.key.2 := hc'
    refine ⟨fun b leaf y hb => ⟨?_, ?_⟩, fun key size => ?_⟩
    · obtain ⟨u₁, h₁⟩ := hs'.cmpRow (D := D) (H := H) (hread ha') hb
      obtain ⟨u₂, h₂⟩ := hs'.cmpRow (D := D) (H := H) hcopy hb
      exact ⟨_, u₁, u₂, h₁, h₂⟩
    · obtain ⟨u₁, h₁⟩ := hs'.cmpRow (D := D) (H := H) hb (hread ha')
      obtain ⟨u₂, h₂⟩ := hs'.cmpRow (D := D) (H := H) hb hcopy
      exact ⟨_, u₁, u₂, h₁, h₂⟩
    · obtain ⟨u₁, -, h₁, -⟩ := hs'.cmpPtr (D := D) (H := H) key size (hread ha')
      obtain ⟨u₂, -, h₂, -⟩ := hs'.cmpPtr (D := D) (H := H) key size hcopy
      exact ⟨_, u₁, u₂, h₁, h₂⟩

/-- Two keys, the second a prefix of the first, and a separator made of the first. -/
theorem compare_agree_copy : ∃ (t : Machine) (a b copy : RID) (t' t₁ t₂ u₁ u₂ : Machine),
    Returns machineSem (procBody degree storeHandlers) (ridPtrRowCmp (fun _ => 7) 25 b true) t 1 t₁ ∧
    Returns machineSem (procBody degree storeHandlers) (ridRowRowCmp a b true true) t 1 t₂ ∧
    Returns machineSem (procBody degree storeHandlers) (insertHandler a true) t copy t' ∧
    Returns machineSem (procBody degree storeHandlers) (ridRowRowCmp a b true true) t' 1 u₁ ∧
    Returns machineSem (procBody degree storeHandlers) (ridRowRowCmp copy b false true) t' 1 u₂ := by
  obtain ⟨b, t₀, h₀, hb⟩ := (HeapReach.init (D := degree) (H := storeHandlers)).adds (fun _ => 7)
    (by decide : 24 ≤ maxStrLen) (fun _ => 9) 0
  obtain ⟨a, t, h, ha⟩ := h₀.adds (fun _ => 7) (by decide : 25 ≤ maxStrLen) (fun _ => 9) 1
  have hreada : ∀ {loose}, ReadsAs (a ::ₘ b ::ₘ 0) loose true a.rid (tabulate (fun _ => 7) 25) :=
    ⟨a, Multiset.mem_cons_self _ _, rfl, ha⟩
  have hreadb : ∀ {loose}, ReadsAs (a ::ₘ b ::ₘ 0) loose true b.rid (tabulate (fun _ => 7) 24) :=
    ⟨b, Multiset.mem_cons_of_mem (Multiset.mem_cons_self _ _), rfl, hb⟩
  obtain ⟨hagree, copy, t', hcopy, h', hlater⟩ := compare_agree h (Multiset.mem_cons_self _ _)
  obtain ⟨r, t₁, t₂, h₁, h₂, -⟩ := hagree (fun _ => 7) 25 b.rid true _ ha.symm hreadb
  obtain ⟨⟨r', u₁, u₂, h₃, h₄⟩, -⟩ := (hlater t' _ _ h' (Multiset.mem_cons_self _ _)
    (Multiset.mem_cons_self _ _)).1 b.rid true _ hreadb
  -- the results are those of the comparison of the strings
  obtain ⟨m, s, hs⟩ := h.held
  obtain ⟨m', s', hs'⟩ := h'.held
  obtain ⟨v, hv⟩ := hs.cmpRow (D := degree) (H := storeHandlers) hreada hreadb
  obtain ⟨v', hv'⟩ := hs'.cmpRow (D := degree) (H := storeHandlers) hreada hreadb
  obtain rfl : r = 1 := (h₂.unique hv).1.trans (by decide)
  obtain rfl : r' = 1 := (h₃.unique hv').1.trans (by decide)
  exact ⟨t, a.rid, b.rid, copy, t', t₁, t₂, u₁, u₂, h₁, h₂, hcopy, h₃, h₄⟩

end Results

end MyJQL
