import Mathlib

/-!
# Counting loops and the arrays they move

* `forUp lo hi body`, `forDown lo hi body`: the loops `for (i = lo; i < hi; i++)` and
  `for (i = hi - 1; i >= lo; i--)`; `forUp_ind`, `forDown_ind`: their invariant rules;
* `forWhile fuel cond body i`: `for (; cond; i++)`, whose condition looks at the state;
  `forWhile_eq_forUp`: while the body leaves the bound alone it is a counting loop;
* `forUp_set`, `forUp_shift`, `forDown_shift`: the arrays left by the loops that fill a range, copy
  it from elsewhere, or move it inside one array; `forUp_move`: by the loop that moves a range into
  another array and clears it behind;
* `tabulate f n`: the first `n` entries of an array, as a list.
-/

set_option linter.unusedSimpArgs false

namespace MyJQL

variable {σ α β : Type}

/-- `for (i = lo; i < hi; i++) s = body i s`. -/
def forUp (lo hi : ℕ) (body : ℕ → σ → σ) (s : σ) : σ :=
  (List.range' lo (hi - lo)).foldl (fun s i => body i s) s

/-- `for (i = hi - 1; i >= lo; i--) s = body i s`. -/
def forDown (lo hi : ℕ) (body : ℕ → σ → σ) (s : σ) : σ :=
  (List.range' lo (hi - lo)).foldr body s

/-- `for (; cond i s; i++) s = body i s`, at most `fuel` times. -/
def forWhile (cond : ℕ → σ → Bool) (body : ℕ → σ → σ) : ℕ → ℕ → σ → σ
  | 0, _, s => s
  | fuel + 1, i, s => if cond i s then forWhile cond body fuel (i + 1) (body i s) else s

/-! ## Invariant rules -/

theorem forUp_ge {lo hi : ℕ} (h : hi ≤ lo) (body : ℕ → σ → σ) (s : σ) :
    forUp lo hi body s = s := by
  simp [forUp, Nat.sub_eq_zero_of_le h]

theorem forUp_succ {lo hi : ℕ} (h : lo ≤ hi) (body : ℕ → σ → σ) (s : σ) :
    forUp lo (hi + 1) body s = body hi (forUp lo hi body s) := by
  have e : hi + 1 - lo = (hi - lo) + 1 := by omega
  simp only [forUp, e, List.range'_1_concat, List.foldl_append, List.foldl_cons, List.foldl_nil]
  congr 1
  omega

theorem forDown_ge {lo hi : ℕ} (h : hi ≤ lo) (body : ℕ → σ → σ) (s : σ) :
    forDown lo hi body s = s := by
  simp [forDown, Nat.sub_eq_zero_of_le h]

theorem forDown_lt {lo hi : ℕ} (h : lo < hi) (body : ℕ → σ → σ) (s : σ) :
    forDown lo hi body s = body lo (forDown (lo + 1) hi body s) := by
  have e : hi - lo = (hi - (lo + 1)) + 1 := by omega
  simp only [forDown, e, List.range'_succ, List.foldr_cons]

theorem forUp_ind {lo hi : ℕ} (hle : lo ≤ hi) {body : ℕ → σ → σ} {s : σ} (P : ℕ → σ → Prop)
    (h0 : P lo s) (hs : ∀ i t, lo ≤ i → i < hi → P i t → P (i + 1) (body i t)) :
    P hi (forUp lo hi body s) := by
  induction hi, hle using Nat.le_induction with
  | base => rwa [forUp_ge le_rfl]
  | succ n hn ih =>
    rw [forUp_succ hn]
    exact hs n _ hn n.lt_succ_self (ih fun i t h1 h2 => hs i t h1 (by omega))

theorem forDown_ind {lo hi : ℕ} (hle : lo ≤ hi) {body : ℕ → σ → σ} {s : σ} (P : ℕ → σ → Prop)
    (h0 : P hi s) (hs : ∀ i t, lo ≤ i → i < hi → P (i + 1) t → P i (body i t)) :
    P lo (forDown lo hi body s) := by
  induction n : hi - lo generalizing lo with
  | zero => rw [forDown_ge (by omega)]; rwa [show lo = hi by omega]
  | succ n ih =>
    rw [forDown_lt (by omega)]
    exact hs lo _ le_rfl (by omega)
      (ih (by omega) (fun i t h1 h2 => hs i t (by omega) h2) (by omega))

theorem forUp_lt {lo hi : ℕ} (h : lo < hi) (body : ℕ → σ → σ) (s : σ) :
    forUp lo hi body s = forUp (lo + 1) hi body (body lo s) := by
  have e : hi - lo = (hi - (lo + 1)) + 1 := by omega
  simp only [forUp, e, List.range'_succ, List.foldl_cons]

/-- A loop whose body keeps `P`, under which its condition is `i < n`, is a counting loop. -/
theorem forWhile_eq_forUp {cond : ℕ → σ → Bool} {body : ℕ → σ → σ} {n fuel i : ℕ} {s : σ}
    (P : σ → Prop) (hcond : ∀ i s, P s → (cond i s = true ↔ i < n))
    (hbody : ∀ j t, i ≤ j → j < n → P t → P (body j t)) (hs : P s) (hf : n < i + fuel) :
    forWhile cond body fuel i s = forUp i n body s := by
  induction fuel generalizing i s with
  | zero => exact (forUp_ge (by omega) _ _).symm
  | succ fuel ih =>
    rw [forWhile]
    by_cases h : i < n
    · rw [if_pos ((hcond i s hs).mpr h), forUp_lt h]
      exact ih (fun j t h1 h2 => hbody j t (by omega) h2) (hbody i s le_rfl h hs) (by omega)
    · rw [if_neg fun hc => h ((hcond i s hs).mp hc), forUp_ge (not_lt.mp h)]

/-! ## Loops over arrays -/

/-- `for (i = lo; i < hi; i++) a[i] = f(i)`. -/
theorem forUp_set (lo hi : ℕ) (f : ℕ → α) (a : ℕ → α) :
    forUp lo hi (fun i a => Function.update a i (f i)) a =
      fun j => if lo ≤ j ∧ j < hi then f j else a j := by
  rcases le_total hi lo with h | h
  · rw [forUp_ge h]; funext j; rw [if_neg (by omega)]
  refine forUp_ind h (fun i t => t = fun j => if lo ≤ j ∧ j < i then f j else a j) ?_ ?_
  · funext j; rw [if_neg (by omega)]
  · rintro i t h1 h2 rfl
    funext j
    simp only [Function.update_apply]
    split_ifs <;> first | rfl | omega | (subst_vars; rfl)

/-- `for (i = lo; i < hi; i++) a[i] = a[i + d]`. -/
theorem forUp_shift (lo hi d : ℕ) (hd : 0 < d) (a : ℕ → α) :
    forUp lo hi (fun i a => Function.update a i (a (i + d))) a =
      fun j => if lo ≤ j ∧ j < hi then a (j + d) else a j := by
  rcases le_total hi lo with h | h
  · rw [forUp_ge h]; funext j; rw [if_neg (by omega)]
  refine forUp_ind h (fun i t => t = fun j => if lo ≤ j ∧ j < i then a (j + d) else a j) ?_ ?_
  · funext j; rw [if_neg (by omega)]
  · rintro i t h1 h2 rfl
    funext j
    simp only [Function.update_apply]
    split_ifs <;> first | rfl | omega | (subst_vars; rfl)

/-- `for (i = hi - 1; i >= lo; i--) a[i + d] = a[i]`. -/
theorem forDown_shift (lo hi d : ℕ) (hd : 0 < d) (a : ℕ → α) :
    forDown lo hi (fun i a => Function.update a (i + d) (a i)) a =
      fun j => if lo + d ≤ j ∧ j < hi + d then a (j - d) else a j := by
  rcases le_total hi lo with h | h
  · rw [forDown_ge h]; funext j; rw [if_neg (by omega)]
  refine forDown_ind h
    (fun i t => t = fun j => if i + d ≤ j ∧ j < hi + d then a (j - d) else a j) ?_ ?_
  · funext j; rw [if_neg (by omega)]
  · rintro i t h1 h2 rfl
    funext j
    simp only [Function.update_apply]
    by_cases e : j = i + d
    · subst e; rw [if_pos rfl, if_neg (by omega), if_pos (by omega), Nat.add_sub_cancel]
    · rw [if_neg e]
      exact if_congr (by omega) rfl rfl

/-- `for (i = hi - 1; i >= lo; i--) a[i] = a[i - 1]`, for `lo` at least `1`. -/
theorem forDown_pull (lo hi : ℕ) (_hlo : 0 < lo) (a : ℕ → α) :
    forDown lo hi (fun i a => Function.update a i (a (i - 1))) a =
      fun j => if lo ≤ j ∧ j < hi then a (j - 1) else a j := by
  rcases le_total hi lo with h | h
  · rw [forDown_ge h]; funext j; rw [if_neg (by omega)]
  refine forDown_ind h (fun i t => t = fun j => if i ≤ j ∧ j < hi then a (j - 1) else a j) ?_ ?_
  · funext j; rw [if_neg (by omega)]
  · rintro i t h1 h2 rfl
    funext j
    simp only [Function.update_apply]
    by_cases e : j = i
    · subst e; rw [if_pos rfl, if_neg (by omega), if_pos (by omega)]
    · rw [if_neg e]
      exact if_congr (by omega) rfl rfl

/-- `for (i = 0; i < n; i++) { a[i] = b[i + d]; b[i + d] = c; }`. -/
theorem forUp_move (n d : ℕ) (c : α) (a b : ℕ → α) :
    forUp 0 n (fun i (t : (ℕ → α) × (ℕ → α)) =>
        (Function.update t.1 i (t.2 (i + d)), Function.update t.2 (i + d) c)) (a, b) =
      (fun j => if j < n then b (j + d) else a j, fun j => if d ≤ j ∧ j < n + d then c else b j) := by
  refine forUp_ind n.zero_le (fun i t => t =
    (fun j => if j < i then b (j + d) else a j, fun j => if d ≤ j ∧ j < i + d then c else b j)) ?_ ?_
  · refine Prod.ext (funext fun j => ?_) (funext fun j => ?_)
    · change a j = if j < 0 then b (j + d) else a j
      rw [if_neg (by omega)]
    · change b j = if d ≤ j ∧ j < 0 + d then c else b j
      rw [if_neg (by omega)]
  · rintro i t - h2 rfl
    refine Prod.ext (funext fun j => ?_) (funext fun j => ?_)
    · simp only [Function.update_apply]
      by_cases e : j = i
      · subst e; rw [if_pos rfl, if_neg (by omega), if_pos (by omega)]
      · rw [if_neg e]
        exact if_congr (by omega) rfl rfl
    · simp only [Function.update_apply]
      by_cases e : j = i + d
      · rw [if_pos e, if_pos (by omega)]
      · rw [if_neg e]
        exact if_congr (by omega) rfl rfl

/-! ## The first entries of an array -/

/-- The first `n` entries of an array. -/
def tabulate (f : ℕ → α) (n : ℕ) : List α := (List.range n).map f

@[simp] theorem length_tabulate (f : ℕ → α) (n : ℕ) : (tabulate f n).length = n := by
  simp [tabulate]

@[simp] theorem getElem_tabulate (f : ℕ → α) (n i : ℕ) (h : i < (tabulate f n).length) :
    (tabulate f n)[i] = f i := by
  simp [tabulate]

theorem tabulate_eq_iff (f : ℕ → α) (n : ℕ) (l : List α) :
    tabulate f n = l ↔ l.length = n ∧ ∀ i (h : i < l.length), f i = l[i] := by
  constructor
  · rintro rfl
    exact ⟨length_tabulate f n, fun i h => (getElem_tabulate f n i h).symm⟩
  · rintro ⟨rfl, h⟩
    exact List.ext_getElem (length_tabulate f _) fun i h1 h2 => by
      rw [getElem_tabulate, h i h2]

theorem tabulate_congr {f g : ℕ → α} {n : ℕ} (h : ∀ i < n, f i = g i) :
    tabulate f n = tabulate g n :=
  List.map_congr_left fun i hi => h i (List.mem_range.mp hi)

end MyJQL
