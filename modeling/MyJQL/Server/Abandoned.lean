import MyJQL.Server.Close

/-!
# A thread that has been left alone

* `Leaves`: where a thread ends although its client has said nothing more;
* `spec_round_abandoned`: a round after the end of the stream;
* **`abandoned_iff`**: a thread whose client has vanished comes to its end if and only if it was
  left there. Otherwise it goes on for ever.
-/

set_option linter.unusedSimpArgs false

namespace MyJQL.Server

/-- Where a thread ends after the end of its stream: `code` is taken for the opcode of the client's
end, or for that of a `get` of the empty key, whose value has three bytes. -/
def Leaves (m : KV) (code : CInt) : Prop := code = 3 ∨ code = 0 ∧ getCode m [] = 3

section Abandoned

variable {m : KV} {calls : List Call} {code : CInt} {p : Net Int} {s : Wire}

theorem allocates_nil (len : CInt) (h : len ∈ lengthsRead code []) : Allocates len := by
  simp only [lengthsRead, List.take_nil, List.drop_nil, CInt.overwrite_nil] at h
  split_ifs at h with h0 h1
  · obtain rfl := List.mem_singleton.mp h
    rcases h0 with rfl | rfl
    · exact allocates_of_byte rfl
    · exact allocates_of_byte rfl
  · obtain rfl : len = code := by simpa using h
    subst h1
    exact allocates_of_byte rfl
  · exact absurd h List.not_mem_nil

theorem storeAfter_get (m : KV) (calls : List Call) (key : List Byte) :
    storeAfter m (calls ++ [.get key]) = storeAfter m calls := by
  rw [storeAfter_append]
  rfl

theorem not_leaves (h3 : code ≠ 3) (h0 : code ≠ 0) : ¬ Leaves m code :=
  not_or.mpr ⟨h3, fun h => h0 h.1⟩

theorem not_leaves_one : ¬ Leaves m 1 := not_leaves (by decide) (by decide)

/-- **A round** after the end of the stream. -/
theorem spec_round_abandoned (hs : s.incoming = []) :
    (instanceThreadRound code).spec (env (closed False) m) True (fun _ => True)
      (fun res s' => Sum.elim (fun _ => code = 3) (fun code' => code ≠ 3 ∧ s'.incoming = [] ∧
        (code = 0 → code' = getCode (storeAfter m s.calls) []) ∧
        (Leaves (storeAfter m s'.calls) code' ↔ Leaves (storeAfter m s.calls) code)) res) s := by
  refine (spec_round_closing False m True (P := fun _ => True) trivial (fun _ _ _ => trivial)
    fun _ len hlen => allocates_nil len (hs ▸ hlen)).mono ?_
  rintro res s' (⟨r, rest, code', ht, rfl, rfl, rfl⟩ | ⟨⟨i, rfl⟩, -, h3⟩)
  · rw [hs] at ht
    cases ht with
    | get hop hkey =>
      -- a `get` of the empty key, which leaves the length of its value
      obtain rfl : code = 0 := code.overwrite_nil.symm.trans hop
      obtain ⟨rfl, rfl, q, -, rfl⟩ := hkey.of_nil
      refine ⟨by decide, rfl, fun _ => rfl, ?_⟩
      change Leaves (storeAfter m (s.calls ++ [.get _])) (getCode (storeAfter m s.calls) []) ↔ _
      rw [storeAfter_get]
      constructor
      · rintro (h | ⟨-, h⟩)
        · exact Or.inr ⟨rfl, h⟩
        · exact Or.inr ⟨rfl, h⟩
      · rintro (h | ⟨-, h⟩)
        · exact absurd h (by decide)
        · exact Or.inl h
    | set hop hkey hvalue =>
      obtain rfl : code = 1 := code.overwrite_nil.symm.trans hop
      obtain ⟨rfl, rfl, -⟩ := hkey.of_nil
      obtain ⟨rfl, rfl, -⟩ := hvalue.of_nil
      exact ⟨by decide, rfl, fun h => absurd h (by decide), iff_of_false not_leaves_one not_leaves_one⟩
    | del hop hkey =>
      obtain rfl : code = 2 := code.overwrite_nil.symm.trans hop
      obtain ⟨rfl, rfl, -⟩ := hkey.of_nil
      have h2 : ¬ Leaves (storeAfter m s.calls) 2 := not_leaves (by decide) (by decide)
      exact ⟨by decide, rfl, fun h => absurd h (by decide), iff_of_false not_leaves_one h2⟩
    | other hop h0 h1 h2 h3 =>
      obtain rfl := code.overwrite_nil.symm.trans hop
      refine ⟨h3, rfl, fun h => absurd h h0, ?_⟩
      exact iff_of_false (not_leaves h3 h0) (not_leaves h3 h0)
  · rw [hs, List.take_nil, CInt.overwrite_nil] at h3
    exact (h3 trivial).resolve_left id

/-- The thread returns. -/
abbrev Returned (x : Net Int × Wire) : Prop := ∃ r, x.1 = .pure r

theorem eventually_leaves (hs : s.incoming = []) (h : Leaves (storeAfter m s.calls) code) :
    Eventually (Step (env (closed False) m) procs) Returned (instanceThread code, s) := by
  have last : ∀ s : Wire, s.incoming = [] →
      Eventually (Step (env (closed False) m) procs) Returned (instanceThread 3, s) := fun s hs =>
    eventually_round (spec_round_abandoned hs) (fun r _ _ => ⟨r, rfl⟩) fun _ _ h => absurd rfl h.1
  rcases h with rfl | ⟨rfl, h⟩
  · exact last s hs
  · refine eventually_round (spec_round_abandoned hs) (fun r _ _ => ⟨r, rfl⟩) ?_
    rintro code' s' ⟨-, hs', hcode, -⟩
    rw [hcode rfl, h]
    exact last s' hs'

/-- Where a thread that does not end has come to. -/
abbrev Abandoned (m : KV) (p : Net Int) (s : Wire) : Prop :=
  LoopAt (env (closed False) m) True (fun _ => True)
    (fun code s => s.incoming = [] ∧ ¬ Leaves (storeAfter m s.calls) code) (fun _ _ => False)
    NetProc.instanceThread p s

theorem Abandoned.next {p' : Net Int} {s' : Wire} (h : Abandoned m p s)
    (hs : Step (env (closed False) m) procs (p, s) (p', s')) : Abandoned m p' s' := by
  refine LoopAt.step (fun _ => rfl) (fun code s hJ => ?_) h hs
  obtain ⟨hs, hn⟩ := hJ
  refine (spec_round_abandoned hs).mono ?_
  rintro (r | code') s' hQ
  · exact hn (Or.inl hQ)
  · exact ⟨hQ.2.1, fun h => hn (hQ.2.2.2.mp h)⟩

theorem Abandoned.steps {p' : Net Int} {s' : Wire} (h : Abandoned m p s)
    (hs : Steps (env (closed False) m) procs (p, s) (p', s')) : Abandoned m p' s' := by
  generalize hc : (p', s') = c at hs
  induction hs generalizing p' s' with
  | refl =>
    cases hc
    exact h
  | @tail c _ _ hstep ih =>
    subst hc
    obtain ⟨p₁, s₁⟩ := c
    exact (ih rfl).next hstep

variable (m calls code) in
/-- **A thread whose client has vanished** returns if and only if it was left where it ends by
itself. Otherwise it never returns and is never kept waiting, whatever it finds in memory. -/
theorem abandoned_iff :
    (Eventually (Step (env (closed False) m) procs) Returned (instanceThread code, ⟨[], calls⟩) ↔
      Leaves (storeAfter m calls) code) ∧
    (¬ Leaves (storeAfter m calls) code → ∀ p s,
      Steps (env (closed False) m) procs (instanceThread code, ⟨[], calls⟩) (p, s) →
      (∀ r, p ≠ .pure r) ∧ ∃ c, Step (env (closed False) m) procs (p, s) c) := by
  have goes : ¬ Leaves (storeAfter m calls) code → ∀ p s,
      Steps (env (closed False) m) procs (instanceThread code, ⟨[], calls⟩) (p, s) →
      (∀ r, p ≠ .pure r) ∧ ∃ c, Step (env (closed False) m) procs (p, s) c := fun hn p s hs =>
    (Abandoned.steps (.loop ⟨rfl, hn⟩) hs).goes
  refine ⟨⟨fun hev => ?_, fun h => eventually_leaves rfl h⟩, goes⟩
  by_contra hn
  obtain ⟨⟨p, s⟩, hs, r, hr⟩ := hev.exists_run
  exact (goes hn p s hs).1 r hr

end Abandoned

end MyJQL.Server
