import MyJQL.Str.Chain

/-!
# String operations

Specifications on states with a table (`Table.At`).

* `wp_readString`, `wp_nextChar`: a cursor moves along a chain;
* **`wp_compareStringRecord`**, **`wp_loadString`**: by induction on the bytes left;
* **`wp_writeString`**: a new chain holds the string; `wp_writeChunks`: the full chunks, backwards;
* **`wp_deleteString`** removes the chunks of a chain.
-/

set_option linter.unusedSimpArgs false

namespace MyJQL

variable {bd : Bool} {D : ℕ} {H : Handlers} {t : Table} [ht : t.Proper] {s₀ s : Flat} {m : ItemMap}
  {c : List (RID × List Byte)} {p : RID × List Byte}

/-! ## Reading -/

theorem wp_readChunk (h : t.At s₀ m s) (hc : Chain m (p :: c)) (r : StringRecord) :
    wp (flatSem bd) (procBody D H) (readString t p.1 r)
      (fun r' s' => IsChunk r'.chunk (headRID c) p.2 ∧ r'.idx = 0 ∧ t.At s₀ m s') s := by
  refine wp.seq (h.read hc.1.1 _) fun d s' hd => wp_pure ⟨?_, rfl, hd.2⟩
  obtain ⟨rfl, -⟩ := hd
  exact isChunk_copyTo _ _ _

/-- **`read_string`** puts the cursor in front of the chain. -/
theorem wp_readString (h : t.At s₀ m s) (hc : Chain m (p :: c)) (hne : ∀ q ∈ c, q.2 ≠ [])
    (r : StringRecord) :
    wp (flatSem bd) (procBody D H) (readString t p.1 r)
      (fun r' s' => Cursor m r' (content (p :: c)) ∧ t.At s₀ m s') s := by
  refine (wp_readChunk h hc r).mono fun r' s' hr => ⟨?_, hr.2.2⟩
  exact ⟨p.2, c, 0, hr.1, hr.2.1, Nat.zero_le _, hc.2, hne, content_cons p c⟩

/-- **`next_char`** returns the next byte. -/
theorem wp_nextChar {r : StringRecord} {x : Byte} {rest : List Byte} (h : t.At s₀ m s)
    (hr : Cursor m r (x :: rest)) :
    wp (flatSem bd) (procBody D H) (nextChar t r)
      (fun q s' => q.1 = x ∧ Cursor m q.2 rest ∧ t.At s₀ m s') s := by
  obtain ⟨b, c, i, hb, hi, hib, hc, hne, hrest⟩ := hr
  refine wp_ite (fun hlt => ?_) fun heq => ?_
  · rw [hb.size, hi] at hlt
    have hlt : i < b.length := by omega
    rw [List.drop_eq_getElem_cons hlt, List.cons_append, List.cons.injEq] at hrest
    refine wp_pure ⟨?_, ⟨b, c, i + 1, hb, by simp [hi], hlt, hc, hne, hrest.2⟩, h⟩
    simp only
    rw [hi, hb.data i hlt, hrest.1]
  · rw [not_not, hb.size, hi] at heq
    have heq : b.length = i := by omega
    rw [List.drop_eq_nil_of_le heq.le, List.nil_append] at hrest
    cases c with
    | nil => cases hrest
    | cons p c =>
      rw [hb.rid]
      refine wp.seq (wp_readChunk h hc r) fun r' s' hr => wp_pure ?_
      obtain ⟨hb', hi', h'⟩ := hr
      obtain ⟨y, ys, hp⟩ := List.exists_cons_of_ne_nil (hne p List.mem_cons_self)
      rw [content_cons, hp, List.cons_append, List.cons.injEq] at hrest
      have hlt : 0 < p.2.length := by simp [hp]
      refine ⟨?_, ⟨p.2, c, 1, hb', by simp [hi'], hlt, hc.2,
        fun q hq => hne q (List.mem_cons_of_mem _ hq), ?_⟩, h'⟩
      · simp only
        rw [hi']
        refine (hb'.data 0 hlt).trans ?_
        simp [hp, hrest.1]
      · rw [hrest.2, hp]
        rfl

/-- **`compare_string_record`** compares what is in front of the cursors. -/
theorem wp_compareStringRecord {a b : StringRecord} {xs ys : List Byte} (h : t.At s₀ m s)
    (ha : Cursor m a xs) (hb : Cursor m b ys) :
    wp (flatSem bd) (procBody D H) (compareStringRecord t a b)
      (fun r s' => r = compareBytes xs ys ∧ t.At s₀ m s') s := by
  induction xs generalizing ys a b s with
  | nil =>
    have ha' : hasNextChar a = false := Bool.eq_false_iff.mpr fun e => ha.hasNextChar_iff.mp e rfl
    refine wp_proc ?_
    simp only [procBody, compareLoop, ha', Bool.false_and, Bool.false_eq_true, if_false]
    cases ys with
    | nil =>
      rw [if_neg fun e => hb.hasNextChar_iff.mp e rfl]
      exact wp_pure ⟨rfl, h⟩
    | cons y ys =>
      rw [if_pos (hb.hasNextChar_iff.mpr (List.cons_ne_nil _ _))]
      exact wp_pure ⟨rfl, h⟩
  | cons x xs ih =>
    have ha' : hasNextChar a = true := ha.hasNextChar_iff.mpr (List.cons_ne_nil _ _)
    refine wp_proc ?_
    simp only [procBody, compareLoop, ha', Bool.true_and, if_true]
    cases ys with
    | nil =>
      rw [if_neg fun e => hb.hasNextChar_iff.mp e rfl]
      exact wp_pure ⟨rfl, h⟩
    | cons y ys =>
      rw [if_pos (hb.hasNextChar_iff.mpr (List.cons_ne_nil _ _))]
      refine wp.seq (wp_nextChar h ha) fun q s' hq => ?_
      obtain ⟨rfl, ha₁, h₁⟩ := hq
      refine wp.seq (wp_nextChar h₁ hb) fun q' s'' hq' => ?_
      obtain ⟨rfl, hb₁, h₂⟩ := hq'
      rw [compareBytes]
      refine wp_ite (fun e => ?_) fun e => ?_
      · rw [if_pos e]
        exact ih h₂ ha₁ hb₁
      · rw [if_neg e]
        refine wp_ite (fun e' => ?_) fun e' => ?_
        · rw [if_pos e']
          exact wp_pure ⟨rfl, h₂⟩
        · rw [if_neg e']
          exact wp_pure ⟨rfl, h₂⟩

/-- What loading `rest` at `count` makes of a buffer. -/
def loaded (rest : List Byte) (n count : ℕ) (dest : ℕ → Byte) : ℕ → Byte := fun i =>
  if count ≤ i ∧ i < count + min n rest.length then rest.getD (i - count) 0 else dest i

theorem wp_loadLoop {n count : ℕ} {r : StringRecord} {rest : List Byte} {dest : ℕ → Byte}
    (h : t.At s₀ m s) (hr : Cursor m r rest) :
    wp (flatSem bd) (procBody D H) (loadLoop t n count r dest)
      (fun q s' => q = (count + min n rest.length, loaded rest n count dest) ∧ t.At s₀ m s') s := by
  induction n generalizing count r rest dest s with
  | zero =>
    refine wp_pure ⟨?_, h⟩
    rw [Nat.zero_min, Nat.add_zero]
    congr 1
    funext i
    exact (if_neg (by omega)).symm
  | succ n ih =>
    cases rest with
    | nil =>
      refine wp_ite (fun e => absurd rfl (hr.hasNextChar_iff.mp e)) fun _ => wp_pure ⟨?_, h⟩
      rw [List.length_nil, Nat.min_zero, Nat.add_zero]
      congr 1
      funext i
      exact (if_neg (by simp)).symm
    | cons x xs =>
      refine wp_ite (fun _ => ?_) fun e => absurd (hr.hasNextChar_iff.mpr (List.cons_ne_nil _ _)) e
      refine wp.seq (wp_nextChar h hr) fun q s' hq => ?_
      obtain ⟨rfl, hr', h'⟩ := hq
      refine (ih h' hr').mono fun q' s'' hq' => ⟨hq'.1.trans ?_, hq'.2⟩
      rw [List.length_cons, Nat.add_min_add_right, Prod.mk.injEq]
      refine ⟨by omega, ?_⟩
      funext i
      simp only [loaded, Function.update_apply, List.length_cons]
      by_cases e : i = count
      · subst e
        rw [if_neg (by omega), if_pos rfl, if_pos (by omega), Nat.sub_self]
        rfl
      · rw [if_neg e]
        by_cases hlt : count < i
        · obtain ⟨k, rfl⟩ : ∃ k, i = count + 1 + k := ⟨i - (count + 1), by omega⟩
          rw [show count + 1 + k - count = k + 1 by omega, Nat.add_sub_cancel_left]
          exact if_congr (by omega) rfl rfl
        · rw [if_neg (by omega), if_neg (by omega)]

/-- **`load_string`** loads the string, or as much of it as fits. -/
theorem wp_loadString {r : StringRecord} {rest : List Byte} (h : t.At s₀ m s) (hr : Cursor m r rest)
    (dest : ℕ → Byte) (n : ℕ) :
    wp (flatSem bd) (procBody D H) (loadString t r dest n)
      (fun q s' => q = (min n rest.length, loaded rest n 0 dest) ∧ t.At s₀ m s') s := by
  refine (wp_loadLoop h hr).mono fun q s' hq => ⟨hq.1.trans ?_, hq.2⟩
  rw [Nat.zero_add]

/-! ## Writing -/

theorem wp_insertChunk {b s' : List Byte} {chunk : Cells} {ptr : ℕ → Byte} {n : ℕ} {rid : RID}
    (h : t.At s₀ (m.addChain c) s) (hrid : headRID c = rid) (hlen : n = b.length)
    (hmax : b.length ≤ strChunkMaxLen) (hptr : ∀ i (hi : i < b.length), ptr i = b[i])
    (hnew : ∀ x : RID, m.addChain c x = none → x.blockAddr ≠ -1 → NewString m s' ((x, b) :: c)) :
    wp (flatSem bd) (procBody D H) (tableInsert t (fillChunk chunk rid n ptr) (calcStrChunkSize n))
      (fun x st => NewString m s' ((x, b) :: c) ∧ t.At s₀ (m.addChain ((x, b) :: c)) st) s := by
  refine (h.insert _ (by simp [calcStrChunkSize]) ?_).mono fun x st hx => ?_
  · simp only [strChunkMaxLen] at hmax
    simp only [calcStrChunkSize]
    omega
  · obtain ⟨h1, h2, h3⟩ := hx
    rw [tabulate_fillChunk hlen hptr, ← hrid] at h3
    exact ⟨hnew x h1 h2, h3⟩

/-- The full chunks of `write_string`: `n` of them, from `data + off` backwards. -/
theorem wp_writeChunks {data : ℕ → Byte} {size n off : ℕ} {chunk : Cells} {rid : RID}
    (h : t.At s₀ (m.addChain c) s) (hrid : headRID c = rid)
    (hnew : NewString m ((tabulate data size).drop off) c) (hb : ∀ p ∈ c, p.2 ≠ [])
    (hoff : off = n * strChunkMaxLen) (hsize : off ≤ size) :
    wp (flatSem bd) (procBody D H) (writeChunks t data n off chunk rid)
      (fun x s' => ∃ c', headRID c' = x ∧ NewString m (tabulate data size) c' ∧
        t.At s₀ (m.addChain c') s') s := by
  refine wp.seq (R := fun r s' => ∃ c', headRID c' = r.2.2 ∧ NewString m (tabulate data size) c' ∧
    t.At s₀ (m.addChain c') s') ?_ fun r s' hr => wp_pure hr
  refine wp_forFold (fun k (r : ℕ × Cells × RID) s' => r.1 = (n - k) * strChunkMaxLen ∧
    ∃ c', headRID c' = r.2.2 ∧ NewString m ((tabulate data size).drop r.1) c' ∧
      (∀ p ∈ c', p.2 ≠ []) ∧ t.At s₀ (m.addChain c') s')
    ⟨by rw [hoff, Nat.sub_zero], c, hrid, hnew, hb, h⟩ (fun k r s₁ _ hk hr => ?_) fun r s₁ hr => ?_
  · obtain ⟨hr1, c', hrid', hnew', hb', h'⟩ := hr
    rw [Nat.zero_add] at hk
    have hmul : r.1 = (n - (k + 1)) * strChunkMaxLen + strChunkMaxLen := by
      rw [hr1, ← Nat.succ_mul]
      congr 1
      omega
    have hle : r.1 ≤ size := by
      rw [hr1]
      exact (Nat.mul_le_mul_right _ (Nat.sub_le n k)).trans (hoff ▸ hsize)
    obtain ⟨b, hbdef⟩ : ∃ b, b = ((tabulate data size).drop (r.1 - strChunkMaxLen)).take
      strChunkMaxLen := ⟨_, rfl⟩
    have hmid : (tabulate data size).drop (r.1 - strChunkMaxLen) =
        b ++ (tabulate data size).drop r.1 := by
      conv_lhs => rw [← List.take_append_drop strChunkMaxLen
        ((tabulate data size).drop (r.1 - strChunkMaxLen))]
      rw [List.drop_drop, show r.1 - strChunkMaxLen + strChunkMaxLen = r.1 by omega, hbdef]
    have hlen : b.length = strChunkMaxLen := by
      rw [hbdef, List.length_take, List.length_drop, length_tabulate]
      omega
    refine wp.seq (wp_insertChunk h' hrid' hlen.symm hlen.le (fun i hi => ?_) fun x hx hx' =>
      hmid ▸ hnew'.cons (p := (x, b)) hb' hx hx') fun x s₂ hx => wp_pure ?_
    · simp only [hbdef]
      rw [List.getElem_take, List.getElem_drop, getElem_tabulate]
    · refine ⟨by simp only; omega, _, rfl, hx.1, fun q hq => ?_, hx.2⟩
      rcases List.mem_cons.mp hq with rfl | hq
      · exact List.ne_nil_of_length_pos (by rw [hlen]; decide)
      · exact hb' q hq
  · obtain ⟨hr1, c', hrid', hnew', -, h'⟩ := hr
    rw [Nat.zero_add, Nat.sub_self, Nat.zero_mul] at hr1
    rw [hr1, List.drop_zero] at hnew'
    exact ⟨c', hrid', hnew', h'⟩

theorem newString_single {s : List Byte} {x : RID} (hx : m x = none) (ha : x.blockAddr ≠ -1) :
    NewString m s [(x, s)] :=
  ⟨List.cons_ne_nil _ _, by simpa using hx, List.nodup_singleton _, by simpa using ha,
    by simp, by simp⟩

/-- **`write_string`** writes the string to new chunks. -/
theorem wp_writeString (h : t.At s₀ m s) (data : ℕ → Byte) (size : ℕ) :
    wp (flatSem bd) (procBody D H) (writeString t data size)
      (fun rid s' => ∃ c, headRID c = rid ∧ NewString m (tabulate data size) c ∧
        t.At s₀ (m.addChain c) s') s := by
  have h0 : t.At s₀ (m.addChain []) s := h
  refine wp_ite (fun hz => ?_) fun hz => ?_
  · -- an empty string has one empty chunk
    subst hz
    refine (wp_insertChunk (b := []) h0 rfl rfl (by simp) (fun i hi => absurd hi (Nat.not_lt_zero i))
      fun x => newString_single).mono fun x s' hx => ⟨_, rfl, hx.1, hx.2⟩
  · have hdm := Nat.div_add_mod size strChunkMaxLen
    have hml := Nat.mod_lt size (show 0 < strChunkMaxLen by decide)
    -- the last chunk, of `len` bytes
    have hlast : ∀ len, len ≠ 0 → len ≤ size → len ≤ strChunkMaxLen →
        wp (flatSem bd) (procBody D H) (tableInsert t (fillChunk default RID.null len
          fun i => data (size - len + i)) (calcStrChunkSize len)) (fun x s' => ∃ c, headRID c = x ∧
          NewString m ((tabulate data size).drop (size - len)) c ∧ (∀ p ∈ c, p.2 ≠ []) ∧
          t.At s₀ (m.addChain c) s') s := fun len h1 h2 h3 => by
      have hlen : ((tabulate data size).drop (size - len)).length = len := by
        rw [List.length_drop, length_tabulate]
        omega
      refine (wp_insertChunk h0 rfl hlen.symm (by rwa [hlen]) (fun i hi => ?_)
        fun x => newString_single).mono fun x s' hx => ⟨_, rfl, hx.1, fun q hq => ?_, hx.2⟩
      · rw [List.getElem_drop, getElem_tabulate]
      · rw [List.mem_singleton.mp hq]
        exact List.ne_nil_of_length_pos (by simp only [hlen]; omega)
    refine wp_ite (fun hl => ?_) fun hl => ?_
    · refine wp.seq (hlast _ hl (Nat.mod_le _ _) hml.le) fun x s' hx => ?_
      obtain ⟨c, hrid, hnew, hb, h'⟩ := hx
      exact wp_writeChunks h' hrid hnew hb (by rw [Nat.mul_comm]; omega) (Nat.sub_le _ _)
    · have hpos : 0 < size / strChunkMaxLen := Nat.pos_of_ne_zero fun e => by
        rw [e] at hdm
        omega
      obtain ⟨q, hq⟩ : ∃ q, size / strChunkMaxLen = q + 1 := ⟨_, (Nat.sub_add_cancel hpos).symm⟩
      have hsize : size = q * strChunkMaxLen + strChunkMaxLen := by
        rw [← Nat.succ_mul, Nat.succ_eq_add_one, ← hq, Nat.mul_comm]
        omega
      refine wp.seq (hlast strChunkMaxLen (by decide) (by omega) le_rfl) fun x s' hx => ?_
      obtain ⟨c, hrid, hnew, hb, h'⟩ := hx
      refine wp_writeChunks h' hrid hnew hb ?_ (Nat.sub_le _ _)
      rw [hq, Nat.add_sub_cancel]
      omega

/-! ## Deleting -/

/-- **`delete_string`** removes the chunks of a chain. -/
theorem wp_deleteString (h : t.At s₀ m s) (hc : Chain m c) (hn : (rids c).Nodup) :
    wp (flatSem bd) (procBody D H) (deleteString t (headRID c))
      (fun _ s' => t.At s₀ (m.drop (rids c)) s') s := by
  rw [deleteString]
  generalize (default : Cells) = chunk
  induction c generalizing m s chunk with
  | nil =>
    refine wp_proc (?_ : wp _ _ (deleteLoop t RID.null chunk) _ _)
    refine wp_ite (fun e => absurd rfl e) fun _ => wp_pure ?_
    rwa [rids, List.map_nil, drop_nil]
  | cons p c ih =>
    obtain ⟨hp, hn⟩ := List.nodup_cons.mp hn
    refine wp_proc (wp_ite (fun _ => ?_) fun e => absurd hc.1.2 e)
    refine wp.seq (h.read hc.1.1 chunk) fun d s' hd => ?_
    obtain ⟨rfl, h₁⟩ := hd
    refine wp.seq (h₁.delete hc.1.1) fun _ s'' h₂ => ?_
    rw [(isChunk_copyTo (headRID c) p.2 chunk).rid]
    refine (ih h₂ (hc.2.congr fun x hx => ?_) hn _).mono fun _ s₃ h₃ => ?_
    · have hne : x ≠ p.1 := fun e => hp (by rwa [← e])
      exact Function.update_of_ne hne ..
    · rwa [drop_cons] at h₃

end MyJQL
