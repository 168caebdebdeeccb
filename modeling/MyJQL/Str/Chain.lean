import MyJQL.Table.Ops

/-!
# Chains of chunks

* `chunkItem next b`: the item of a chunk with the bytes `b`; `IsChunk`: a buffer that holds a
  chunk;
* `Chain m c`: the chunks `c`, each with its `RID` and its bytes, are linked in the table `m`;
* `ItemMap.addChain`, `ItemMap.drop`: a table with a chain added, and with some items removed;
* `NewString m s c`: the chain `c`, not in `m`, holds the string `s`;
* `Cursor m r rest`: a string record in front of the bytes `rest`;
* `compareBytes`: the order of strings, by signed characters; **`compareBytes_lt`**,
  **`compareBytes_eq_zero`**, **`compareBytes_pos`**: it is the lexicographic order, and
  **`compareBytes_strictTotalOrder`** total.
-/

set_option linter.unusedSimpArgs false

namespace MyJQL

/-! ## Chunks -/

/-- The `RID` that a chain starts at. -/
def headRID : List (RID × List Byte) → RID
  | [] => RID.null
  | p :: _ => p.1

/-- The `RID`s of a chain. -/
abbrev rids (c : List (RID × List Byte)) : List RID := c.map Prod.fst

/-- The bytes of a chain. -/
def content (c : List (RID × List Byte)) : List Byte := c.flatMap Prod.snd

@[simp] theorem headRID_nil : headRID [] = RID.null := rfl
@[simp] theorem headRID_cons (p : RID × List Byte) (c : List (RID × List Byte)) :
    headRID (p :: c) = p.1 := rfl
@[simp] theorem content_nil : content [] = [] := rfl
@[simp] theorem content_cons (p : RID × List Byte) (c : List (RID × List Byte)) :
    content (p :: c) = p.2 ++ content c := List.flatMap_cons

/-- The item of a chunk with the bytes `b`. -/
def chunkItem (next : RID) (b : List Byte) : List Cell :=
  tabulate (fun k => fillChunk default next b.length (fun i => b.getD i 0) k)
    (calcStrChunkSize b.length)

theorem fillChunk_apply (chunk : Cells) (next : RID) (len : ℕ) (ptr : ℕ → Byte) (j : Int) :
    fillChunk chunk next len ptr j =
      if 12 ≤ j ∧ j < 12 + len then .byte (ptr (j - 12).toNat)
      else writeScalar 2 (writeRID chunk 0 next) 10 len j := by
  have key : ∀ d : Cells, d = fillChunk chunk next len ptr → d j =
      if 12 ≤ j ∧ j < 12 + len then .byte (ptr (j - 12).toNat)
      else writeScalar 2 (writeRID chunk 0 next) 10 len j := by
    rintro d rfl
    refine forUp_ind len.zero_le (fun n (d : Cells) => d j =
      if 12 ≤ j ∧ j < 12 + n then .byte (ptr (j - 12).toNat)
      else writeScalar 2 (writeRID chunk 0 next) 10 len j) ?_ ?_
    · rw [if_neg (by omega)]
    · intro n d _ _ hd
      rw [Function.update_apply, hd]
      by_cases e : j = 12 + n
      · rw [if_pos e, if_pos (by omega), e]
        congr 2
        omega
      · rw [if_neg e]
        exact if_congr (by omega) rfl rfl
  exact key _ rfl

/-- The buffer holds a chunk. -/
structure IsChunk (d : Cells) (next : RID) (b : List Byte) : Prop where
  rid : strChunkRID d = next
  size : strChunkSize d = b.length
  data : ∀ i (hi : i < b.length), strChunkData d i = b[i]

/-- Filling a buffer makes a chunk of it, and of every buffer that agrees with it. -/
theorem isChunk_fillChunk {d : Cells} (chunk : Cells) (ptr : ℕ → Byte) {next : RID} {b : List Byte}
    (hptr : ∀ i (hi : i < b.length), ptr i = b[i])
    (h : ∀ j, 0 ≤ j → j < 12 + (b.length : Int) → d j = fillChunk chunk next b.length ptr j) :
    IsChunk d next b := by
  have hw : ∀ j, 0 ≤ j → j < 12 → d j =
      writeScalar 2 (writeRID chunk 0 next) 10 b.length j := fun j h1 h2 => by
    rw [h j h1 (by omega), fillChunk_apply, if_neg (by omega)]
  refine ⟨?_, ?_, fun i hi => ?_⟩
  · rw [strChunkRID, ← readRID_writeRID chunk 0 next]
    refine readRID_congr fun j h1 h2 => ?_
    rw [hw j h1 (by omega), writeScalar_of_lt (by omega)]
  · rw [strChunkSize, ← readScalar_writeScalar (w := 2) (by decide) (writeRID chunk 0 next) 10
      b.length]
    exact readScalar_congr (by decide) fun j h1 h2 => hw j (by omega) (by omega)
  · rw [strChunkData, h _ (by omega) (by omega), fillChunk_apply, if_pos (by omega)]
    have e : (12 + (i : Int) - 12).toNat = i := by omega
    rw [e, hptr i hi]
    rfl

theorem isChunk_copyTo (next : RID) (b : List Byte) (dest : Cells) :
    IsChunk (copyTo (chunkItem next b) dest) next b := by
  have hlen : (chunkItem next b).length = b.length + 12 := length_tabulate ..
  refine isChunk_fillChunk default (fun i => b.getD i 0)
    (fun i hi => List.getD_eq_getElem _ _ hi) fun j h1 h2 => ?_
  have hj : j.toNat < (chunkItem next b).length := by omega
  rw [copyTo, if_pos ⟨h1, by omega⟩, List.getD_eq_getElem _ _ hj]
  exact (getElem_tabulate _ _ _ hj).trans (by rw [Int.toNat_of_nonneg h1])

/-- Writing a full buffer writes the item of the chunk, whatever the buffer was before. -/
theorem tabulate_fillChunk {chunk : Cells} {next : RID} {b : List Byte} {ptr : ℕ → Byte} {n : ℕ}
    (hn : n = b.length) (hptr : ∀ i (hi : i < b.length), ptr i = b[i]) :
    tabulate (fun k => fillChunk chunk next n ptr k) (calcStrChunkSize n) = chunkItem next b := by
  subst hn
  refine tabulate_congr fun k hk => ?_
  rw [calcStrChunkSize] at hk
  rw [fillChunk_apply, fillChunk_apply]
  by_cases h12 : k < 12
  · rw [if_neg (by omega), if_neg (by omega)]
    simp only [writeScalar, writeRID]
    split_ifs <;> first | rfl | omega
  · have hk' : ((k : Int) - 12).toNat < b.length := by omega
    rw [if_pos (by omega), if_pos (by omega), hptr _ hk', List.getD_eq_getElem _ _ hk']

/-! ## Chains -/

/-- The chunks `c` are linked in the table. -/
def Chain (m : ItemMap) : List (RID × List Byte) → Prop
  | [] => True
  | p :: c => (m p.1 = some (chunkItem (headRID c) p.2) ∧ p.1.blockAddr ≠ -1) ∧ Chain m c

/-- The table with a chain added. -/
def ItemMap.addChain (m : ItemMap) : List (RID × List Byte) → ItemMap
  | [] => m
  | p :: c => Function.update (m.addChain c) p.1 (some (chunkItem (headRID c) p.2))

/-- The table with some items removed. -/
def ItemMap.drop (m : ItemMap) (l : List RID) : ItemMap := fun x => if x ∈ l then none else m x

variable {m m' : ItemMap} {c : List (RID × List Byte)} {p : RID × List Byte} {x : RID} {s : List Byte}

theorem Chain.congr (h : Chain m c) (hm : ∀ x ∈ rids c, m' x = m x) : Chain m' c := by
  induction c with
  | nil => trivial
  | cons p c ih =>
    refine ⟨⟨(hm _ List.mem_cons_self).trans h.1.1, h.1.2⟩, ih h.2 fun x hx => ?_⟩
    exact hm x (List.mem_cons_of_mem _ hx)

theorem Chain.ne_none (h : Chain m c) (hx : x ∈ rids c) : m x ≠ none := by
  induction c with
  | nil => exact absurd hx List.not_mem_nil
  | cons p c ih =>
    rcases List.mem_cons.mp hx with rfl | hx
    · rw [h.1.1]
      exact Option.some_ne_none _
    · exact ih h.2 hx

theorem Chain.headRID_eq_null (h : Chain m c) : (headRID c).blockAddr = -1 ↔ c = [] := by
  cases c with
  | nil => simp [RID.null]
  | cons p c => simp [h.1.2]

theorem addChain_of_notMem (h : x ∉ rids c) : m.addChain c x = m x := by
  induction c with
  | nil => rfl
  | cons p c ih =>
    rw [rids, List.map_cons, List.mem_cons, not_or] at h
    rw [ItemMap.addChain, Function.update_of_ne h.1, ih h.2]

theorem addChain_ne_none (h : x ∈ rids c) : m.addChain c x ≠ none := by
  induction c with
  | nil => exact absurd h List.not_mem_nil
  | cons p c ih =>
    rw [ItemMap.addChain]
    by_cases e : x = p.1
    · rw [e, Function.update_self]
      exact Option.some_ne_none _
    · rw [Function.update_of_ne e]
      exact ih ((List.mem_cons.mp h).resolve_left e)

theorem chain_addChain (hn : (rids c).Nodup) (ha : ∀ x ∈ rids c, x.blockAddr ≠ -1) :
    Chain (m.addChain c) c := by
  induction c with
  | nil => trivial
  | cons p c ih =>
    obtain ⟨h1, h2⟩ := List.nodup_cons.mp hn
    refine ⟨⟨Function.update_self .., ha _ List.mem_cons_self⟩, ?_⟩
    refine (ih h2 fun x hx => ha x (List.mem_cons_of_mem _ hx)).congr fun x hx => ?_
    have hne : x ≠ p.1 := fun e => h1 (by rwa [← e])
    exact Function.update_of_ne hne ..

theorem drop_addChain (h : ∀ x ∈ rids c, m x = none) : (m.addChain c).drop (rids c) = m := by
  funext x
  rw [ItemMap.drop]
  split_ifs with hx
  · exact (h x hx).symm
  · exact addChain_of_notMem hx

theorem drop_nil : m.drop [] = m := funext fun _ => if_neg List.not_mem_nil

theorem drop_cons (l : List RID) :
    ItemMap.drop (Function.update m x none) l = m.drop (x :: l) := by
  funext y
  simp only [ItemMap.drop, List.mem_cons, Function.update_apply]
  by_cases e : y = x <;> simp [e]

/-- **A string just written**: the chain `c`, not in `m`, holds `s`. Only the first chunk may be
empty. -/
structure NewString (m : ItemMap) (s : List Byte) (c : List (RID × List Byte)) : Prop where
  ne_nil : c ≠ []
  fresh : ∀ x ∈ rids c, m x = none
  nodup : (rids c).Nodup
  addr : ∀ x ∈ rids c, x.blockAddr ≠ -1
  content : content c = s
  tail : ∀ p ∈ c.tail, p.2 ≠ []

theorem NewString.cons (h : NewString m s c) (hb : ∀ p ∈ c, p.2 ≠ [])
    (hp : m.addChain c p.1 = none) (ha : p.1.blockAddr ≠ -1) : NewString m (p.2 ++ s) (p :: c) := by
  have hpc : p.1 ∉ rids c := fun hm => addChain_ne_none hm hp
  refine ⟨List.cons_ne_nil _ _, fun x hx => ?_, List.nodup_cons.mpr ⟨hpc, h.nodup⟩, fun x hx => ?_,
    by rw [content_cons, h.content], hb⟩
  · rcases List.mem_cons.mp hx with rfl | hx
    · rwa [addChain_of_notMem hpc] at hp
    · exact h.fresh x hx
  · rcases List.mem_cons.mp hx with rfl | hx
    · exact ha
    · exact h.addr x hx

/-! ## Cursors -/

/-- The record is in front of the bytes `rest`. -/
def Cursor (m : ItemMap) (r : StringRecord) (rest : List Byte) : Prop :=
  ∃ b c, ∃ i : ℕ, IsChunk r.chunk (headRID c) b ∧ r.idx = i ∧ i ≤ b.length ∧ Chain m c ∧
    (∀ p ∈ c, p.2 ≠ []) ∧ rest = b.drop i ++ content c

theorem content_eq_nil (h : ∀ p ∈ c, p.2 ≠ []) : content c = [] ↔ c = [] := by
  cases c with
  | nil => simp
  | cons p c => simp [h p List.mem_cons_self]

theorem Cursor.hasNextChar_iff {r : StringRecord} {rest : List Byte} (h : Cursor m r rest) :
    hasNextChar r = true ↔ rest ≠ [] := by
  obtain ⟨b, c, i, hb, hi, hib, hc, hne, rfl⟩ := h
  rw [hasNextChar, decide_eq_true_eq, hb.size, hb.rid, hi, ne_eq, ne_eq, hc.headRID_eq_null,
    ne_eq, List.append_eq_nil_iff, content_eq_nil hne, List.drop_eq_nil_iff, not_and_or]
  exact or_congr_left (by omega)

/-! ## The order of strings -/

/-- What `compare_string_record` computes. -/
def compareBytes : List Byte → List Byte → Int
  | [], [] => 0
  | _ :: _, [] => 1
  | [], _ :: _ => -1
  | x :: xs, y :: ys => if x = y then compareBytes xs ys else if x.slt y then -1 else 1

/-- The characters of a string, as signed numbers. -/
def signed (s : List Byte) : List ℤ := s.map BitVec.toInt

theorem signed_injective : Function.Injective signed :=
  List.map_injective_iff.mpr fun _ _ h => BitVec.eq_of_toInt_eq h

/-- **`compareBytes` is negative on smaller strings.** -/
theorem compareBytes_lt (a b : List Byte) : compareBytes a b < 0 ↔ signed a < signed b := by
  induction a generalizing b with
  | nil => cases b <;> simp [compareBytes, signed]
  | cons x xs ih =>
    cases b with
    | nil => simp [compareBytes, signed]
    | cons y ys =>
      rw [compareBytes, signed, signed, List.map_cons, List.map_cons, List.cons_lt_cons_iff]
      by_cases e : x = y
      · rw [if_pos e, e, ih]
        simp [signed]
      · rw [if_neg e]
        have hne : x.toInt ≠ y.toInt := fun h => e (BitVec.eq_of_toInt_eq h)
        by_cases hlt : x.toInt < y.toInt <;> simp [BitVec.slt, hlt, hne]

/-- **`compareBytes` is zero on equal strings.** -/
theorem compareBytes_eq_zero (a b : List Byte) : compareBytes a b = 0 ↔ a = b := by
  induction a generalizing b with
  | nil => cases b <;> simp [compareBytes]
  | cons x xs ih =>
    cases b with
    | nil => simp [compareBytes]
    | cons y ys =>
      rw [compareBytes, List.cons.injEq]
      by_cases e : x = y
      · rw [if_pos e, ih]
        exact (and_iff_right e).symm
      · rw [if_neg e]
        simp only [e, false_and, iff_false]
        split_ifs <;> decide

/-- **`compareBytes` is positive on larger strings.** -/
theorem compareBytes_pos (a b : List Byte) : 0 < compareBytes a b ↔ signed b < signed a := by
  have hlt := compareBytes_lt a b
  have heq := (compareBytes_eq_zero a b).trans signed_injective.eq_iff.symm
  constructor
  · intro h
    refine lt_of_le_of_ne (not_lt.mp fun h' => ?_) fun h' => ?_
    · exact absurd (hlt.mpr h') (not_lt.mpr h.le)
    · exact h.ne' (heq.mpr h'.symm)
  · intro h
    refine lt_of_le_of_ne (not_lt.mp fun h' => ?_) fun h' => ?_
    · exact absurd (hlt.mp h') (not_lt.mpr h.le)
    · exact h.ne' (heq.mp h'.symm)

/-- **The order is total.** -/
theorem compareBytes_strictTotalOrder :
    IsStrictTotalOrder (List Byte) fun a b => compareBytes a b < 0 :=
  RelEmbedding.isStrictTotalOrder (s := (· < ·))
    ⟨⟨signed, signed_injective⟩, fun {a b} => (compareBytes_lt a b).symm⟩

end MyJQL
