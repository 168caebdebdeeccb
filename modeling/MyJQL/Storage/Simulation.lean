import MyJQL.Storage.Machine
import MyJQL.BufferPool.Client

/-!
# The machine simulates the flat store

`Cached f m`: the flat pool `f` is what the buffer pool `m` holds. The contents agree, reference
counts are the pins, the recent pages are the first of the cached ones, and a live pointer points to
the frame of its page.

* `Cached.get`, `Cached.release`, `Cached.put`, `Cached.append`: one effect keeps it;
* **`checked_simulates`**: every effect of the bounded flat store succeeds on the machine and passes
  the checks; **`machine_simulates`**: so it succeeds on the machine;
* **`machine_restricts`**: an effect that succeeds on the unbounded flat store and on the machine
  succeeds on the bounded one; **`wp.of_machine`**: so what holds of programs on the unbounded flat
  store holds of every run of the machine, and the run passes the checks; **`wp.same_result`**: and
  machines that hold the same flat store return the same.
-/

set_option linter.unusedSimpArgs false

namespace MyJQL

open BufferPool

/-- The flat pool `f` is what the buffer pool `m` holds, with `L` the cached pages in order of
recency. -/
structure CachedAs (f : FlatPool) (m : Mapped) (L : List Int) : Prop where
  wf : m.pool.Wf L
  length : f.length = m.pool.file.length
  mem : ∀ a ≠ -1, f.mem a = m.pool.view a
  ref : ∀ a ≠ -1, m.pool.refOf a = f.pins.count a
  pins : ∀ a ∈ f.pins, a ∈ L
  recent : f.recent <+: L
  next : f.next = m.next
  live : ∀ t a, f.Live t a → m.frames t < cachePage ∧ m.pool.addrs (m.frames t) = a

/-- The flat pool `f` is what the buffer pool `m` holds. -/
def Cached (f : FlatPool) (m : Mapped) : Prop := ∃ L, CachedAs f m L

variable {f : FlatPool} {m : Mapped} {L : List Int} {a : Int}

namespace CachedAs

theorem resident (h : CachedAs f m L) (ha : f.Resident a) : a ∈ L :=
  ha.elim (h.pins a) (h.recent.subset ·)

theorem valid_iff (h : CachedAs f m L) : f.Valid a ↔ m.pool.file.Valid a := by
  rw [FlatPool.Valid, FileInfo.Valid, h.length]

theorem ref_ne_zero (h : CachedAs f m L) (hn : a ≠ -1) : m.pool.refOf a ≠ 0 ↔ a ∈ f.pins := by
  rw [h.ref a hn, ← Multiset.count_ne_zero]
  exact Int.natCast_ne_zero

theorem pins_subset (h : CachedAs f m L) : f.pins.toFinset ⊆ L.toFinset := fun b hb =>
  List.mem_toFinset.mpr (h.pins b (Multiset.mem_toFinset.mp hb))

theorem toFinset_fits (f : FlatPool) (a : Int) :
    (((([a] : List Int) : Multiset Int) + f.pins).toFinset) = insert a f.pins.toFinset := by
  ext b; simp

theorem room_of_fits (h : CachedAs f m L) (hf : f.Fits [a]) :
    a ∈ L ∨ L.length < cachePage ∨ ∃ b ∈ L, m.pool.refOf b = 0 := by
  by_contra hc
  push Not at hc
  obtain ⟨ha, hl, hr⟩ := hc
  have hsub : insert a L.toFinset ⊆ insert a f.pins.toFinset := by
    refine Finset.insert_subset_insert a fun b hb => ?_
    have hb := List.mem_toFinset.mp hb
    exact Multiset.mem_toFinset.mpr ((h.ref_ne_zero (h.wf.valid b hb).ne_null).mp (hr b hb))
  rw [FlatPool.Fits, toFinset_fits] at hf
  have := Finset.card_le_card hsub
  rw [Finset.card_insert_of_notMem (by simpa using ha), List.toFinset_card_of_nodup h.wf.nodup]
    at this
  omega

theorem fits_of_room (h : CachedAs f m L)
    (hr : a ∈ L ∨ L.length < cachePage ∨ ∃ b ∈ L, m.pool.refOf b = 0) : f.Fits [a] := by
  rw [FlatPool.Fits, toFinset_fits]
  have hL : L.toFinset.card = L.length := List.toFinset_card_of_nodup h.wf.nodup
  have hl := h.wf.length_le
  rcases hr with ha | hlt | ⟨b, hb, hb0⟩
  · have : insert a f.pins.toFinset ⊆ L.toFinset :=
      Finset.insert_subset (List.mem_toFinset.mpr ha) h.pins_subset
    exact (Finset.card_le_card this).trans (hL.trans_le hl)
  · have := Finset.card_le_card h.pins_subset
    exact (Finset.card_insert_le _ _).trans (by omega)
  · have hsub : f.pins.toFinset ⊆ L.toFinset.erase b := by
      intro c hc
      refine Finset.mem_erase.mpr ⟨?_, h.pins_subset hc⟩
      rintro rfl
      exact (h.ref_ne_zero (h.wf.valid c hb).ne_null).mpr (Multiset.mem_toFinset.mp hc) hb0
    have h1 := Finset.card_le_card hsub
    have h2 := Finset.card_erase_lt_of_mem (List.mem_toFinset.mpr hb)
    exact (Finset.card_insert_le _ _).trans (by omega)

theorem isPrefix_erase {l L : List Int} (h : l <+: L) (a : Int) : l.erase a <+: L.erase a := by
  obtain ⟨t, rfl⟩ := h
  by_cases ha : a ∈ l
  · rw [List.erase_append_left _ ha]; exact List.prefix_append _ _
  · rw [List.erase_append_right _ ha, List.erase_of_not_mem ha]; exact List.prefix_append _ _

theorem filter_take_one (l : List Int) (p : Int → Bool) :
    (l.take 1).filter p <+: l ∧ ∀ b ∈ (l.take 1).filter p, p b = true ∧ l.head? = some b := by
  cases l with
  | nil => simp
  | cons x l =>
    by_cases hx : p x <;> simp [List.take, hx]

theorem recent_touch (h : CachedAs f m L) {L' : List Int} (ht : Touched m.pool L a L') :
    f.touch a <+: L' := by
  obtain ⟨hpre, hmem⟩ := filter_take_one (f.recent.erase a) (fun b => f.Fits [a, b])
  rcases ht with ⟨rfl, -⟩ | ⟨v, haL, hfull, ⟨A, B, rfl, hv, hB⟩, rfl⟩
  · exact (List.prefix_cons_inj a).mpr (hpre.trans (isPrefix_erase h.recent a))
  refine (List.prefix_cons_inj a).mpr ?_
  have har : a ∉ f.recent := fun hm => haL (h.recent.subset hm)
  rw [List.erase_of_not_mem har] at hpre hmem ⊢
  -- the kept page, if any, is the first of `L`, and the evicted one lies behind it
  cases hc : (f.recent.take 1).filter (fun b => f.Fits [a, b]) with
  | nil => exact List.nil_prefix
  | cons b l =>
    obtain ⟨hfit, hhead⟩ := hmem b (by rw [hc]; exact List.mem_cons_self)
    have hl : l = [] := by
      have h1 := (List.length_filter_le (fun b => decide (f.Fits [a, b])) (f.recent.take 1))
      rw [hc, List.length_take, List.length_cons] at h1
      exact List.eq_nil_of_length_eq_zero (by omega)
    subst hl
    obtain ⟨t, ht⟩ := h.recent
    cases hr : f.recent with
    | nil => rw [hr] at hhead; cases hhead
    | cons x r =>
      rw [hr] at hhead ht
      obtain rfl := Option.some.inj hhead
      have hA : A ≠ [] := by
        rintro rfl
        obtain ⟨rfl, rfl⟩ := List.cons.inj ht
        have hsub : insert a ((x :: (r ++ t)).toFinset) ⊆
            ((([a, x] : List Int) : Multiset Int) + f.pins).toFinset := by
          intro c hc
          rcases Finset.mem_insert.mp hc with rfl | hc
          · simp
          · rcases List.mem_cons.mp (List.mem_toFinset.mp hc) with rfl | hc
            · simp
            · have hcv := h.wf.valid c (by simp [hc])
              have := (h.ref_ne_zero hcv.ne_null).mp (hB c hc)
              simp [this]
        have h1 := Finset.card_le_card hsub
        rw [Finset.card_insert_of_notMem (by simpa using haL),
          List.toFinset_card_of_nodup (by simpa using h.wf.nodup)] at h1
        have h2 : f.Fits [a, x] := of_decide_eq_true hfit
        have h3 : (x :: (r ++ t)).length = cachePage := hfull
        exact absurd (h1.trans h2) (by omega)
      obtain ⟨y, A, rfl⟩ := List.exists_cons_of_ne_nil hA
      obtain ⟨rfl, -⟩ := List.cons.inj ht
      have hxv : v ≠ x := by
        rintro rfl
        have := h.wf.nodup
        simp at this
      rw [List.cons_append, List.erase_cons_tail (by simpa using hxv.symm)]
      exact ⟨_, rfl⟩

end CachedAs

theorem FlatPool.mem_touch {b : Int} (hb : b ∈ f.touch a) : b = a ∨ b ∈ f.recent := by
  rcases List.mem_cons.mp hb with rfl | hb
  · exact Or.inl rfl
  · exact Or.inr (List.mem_of_mem_erase (List.mem_of_mem_take (List.mem_of_mem_filter hb)))

/-- **A request.** -/
theorem CachedAs.get (h : CachedAs f m L) (ha : f.Valid a) (hf : f.Fits [a]) :
    ∃ k pool', m.pool.getPage a = some (k, pool') ∧
      Cached (f.get a) ⟨pool', Function.update m.frames m.next k, m.next + 1⟩ := by
  have hv := h.valid_iff.mp ha
  obtain ⟨k, pool', L', hg, got, ht⟩ := h.wf.getPage hv (h.room_of_fits hf)
  have hpre := h.recent_touch ht
  have haL' : a ∈ L' := by
    rcases ht with ⟨rfl, -⟩ | ⟨v, -, -, -, rfl⟩ <;> exact List.mem_cons_self
  have hpins : ∀ b ∈ (f.get a).pins, b ∈ L' := fun b hb => by
    rcases Multiset.mem_cons.mp hb with rfl | hb
    · exact haL'
    · have hbL := h.pins b hb
      exact ht.mem hbL ((h.ref_ne_zero (h.wf.valid b hbL).ne_null).mpr hb)
  refine ⟨k, pool', hg, L', got.wf, h.length.trans got.length.symm, fun b hb => ?_, fun b hb => ?_,
    hpins, hpre, congrArg (· + 1) h.next, fun t b hlive => ?_⟩
  · exact (h.mem b hb).trans (got.view b hb).symm
  · rw [got.ref b hb, h.ref b hb]
    simp only [FlatPool.get, Multiset.count_cons]
    split_ifs <;> simp
  · obtain ⟨⟨htn, hptr⟩, hres⟩ := hlive
    have hbL' : b ∈ L' := hres.elim (hpins b) (hpre.subset ·)
    simp only [FlatPool.get] at htn hptr
    by_cases hnext : t = f.next
    · rw [if_pos hnext] at hptr
      obtain rfl := Option.some.inj hptr
      simp only [hnext, h.next, Function.update_self]
      exact ⟨got.lt, got.addr⟩
    · rw [if_neg hnext] at hptr
      split_ifs at hptr with hdead
      have hres' : f.Resident b := by
        by_cases hba : b = a
        · by_contra hr
          exact hdead (hba ▸ ⟨hptr, hba ▸ hr⟩)
        · rcases hres with hp | hr
          · exact Or.inl ((Multiset.mem_cons.mp hp).resolve_left hba)
          · exact Or.inr ((FlatPool.mem_touch hr).resolve_left hba)
      obtain ⟨h1, h2⟩ := h.live t b ⟨⟨by omega, hptr⟩, hres'⟩
      have hnext' : t ≠ m.next := fun e => hnext (e.trans h.next.symm)
      simp only [Function.update_of_ne hnext']
      exact ⟨h1, got.frames b (h.resident hres') hbL' _ h1 h2⟩

theorem CachedAs.release (h : CachedAs f m L) (ha : a ∈ f.pins) :
    CachedAs (f.release a) { m with pool := m.pool.release a } L := by
  have haL := h.pins a ha
  have hn := (h.wf.valid a haL).ne_null
  refine ⟨h.wf.release hn, ?_, fun b hb => ?_, fun b hb => ?_,
    fun b hb => h.pins b (Multiset.mem_of_mem_erase hb), h.recent, h.next, fun t b hlive => ?_⟩
  · exact h.length.trans (congrArg _ file_release.symm)
  · exact (h.mem b hb).trans view_release.symm
  · rw [h.wf.refOf_release haL, h.ref b hb]
    simp only [FlatPool.release]
    split_ifs with e
    · subst e
      have := Multiset.count_pos.mpr ha
      rw [Multiset.count_erase_self]
      omega
    · rw [Multiset.count_erase_of_ne e]
      simp
  · obtain ⟨hat, hres⟩ := hlive
    rw [addrs_release]
    exact h.live t b ⟨hat, hres.imp_left Multiset.mem_of_mem_erase⟩

theorem CachedAs.page (h : CachedAs f m L) {t : ℕ} (hl : f.Live t a) :
    t < m.next ∧ m.pool.pages (m.frames t) = f.mem a := by
  obtain ⟨h1, h2⟩ := h.live t a hl
  have hn := (h.wf.valid a (h.resident hl.2)).ne_null
  exact ⟨h.next ▸ hl.1.1, ((h.mem a hn).trans (h.wf.view_mem h1 h2 hn)).symm⟩

theorem CachedAs.put (h : CachedAs f m L) {t : ℕ} (hl : f.Live t a) (page : Page) :
    CachedAs (f.put a page) { m with pool := m.pool.setPage (m.frames t) page } L := by
  obtain ⟨h1, h2⟩ := h.live t a hl
  have hn := (h.wf.valid a (h.resident hl.2)).ne_null
  refine ⟨h.wf.setPage _ _, h.length, fun b hb => ?_, h.ref, h.pins, h.recent, h.next, h.live⟩
  simp only [FlatPool.put, h.wf.view_setPage h1 h2 hn, Function.update_apply]
  exact if_congr Iff.rfl rfl (h.mem b hb)

theorem CachedAs.append (h : CachedAs f m L) (page : Page) :
    CachedAs (f.append page) { m with pool := m.pool.append page } L := by
  obtain ⟨hwf, hlen⟩ := h.wf.append page
  refine ⟨hwf, ?_, fun b hb => ?_, h.ref, h.pins, h.recent, h.next, h.live⟩
  · rw [hlen, ← h.length]; rfl
  · simp only [FlatPool.append, h.wf.view_append page hb, Function.update_apply, h.length]
    exact if_congr Iff.rfl rfl (h.mem b hb)

/-! ## The engine -/

/-- The flat state `s` is what the machine `t` holds. -/
def Holds (s : Flat) (t : Machine) : Prop := ∀ i, Cached (s i) (t i)

theorem Holds.update {s : Flat} {t : Machine} (h : Holds s t) {i : PoolId} (hi : Cached f m) :
    Holds (Function.update s i f) (Function.update t i m) := by
  intro j
  by_cases e : j = i
  · subst e; simpa using hi
  · simpa [e] using h j

/-- **Every effect of the bounded flat store succeeds on the machine.** -/
theorem machine_simulates : Simulates Holds (flatSem true) machineSem := by
  intro β e s t r s' h he
  cases e with
  | getPage i addr =>
    simp only [flatSem] at he
    split_ifs at he with hc
    obtain ⟨rfl, rfl⟩ := Prod.mk.inj (Option.some.inj he)
    obtain ⟨L, hL⟩ := h i
    obtain ⟨k, pool', hg, hcached⟩ := hL.get hc.1 (hc.2 trivial)
    simp only [machineSem, hg, hL.next]
    exact ⟨_, rfl, h.update hcached⟩
  | release i addr =>
    simp only [flatSem] at he
    split_ifs at he with hc
    obtain ⟨rfl, rfl⟩ := Prod.mk.inj (Option.some.inj he)
    obtain ⟨L, hL⟩ := h i
    exact ⟨_, rfl, h.update ⟨L, hL.release hc⟩⟩
  | load p =>
    simp only [flatSem] at he
    split at he
    · next a ha =>
      obtain ⟨rfl, rfl⟩ := Prod.mk.inj (Option.some.inj he)
      obtain ⟨L, hL⟩ := h p.pool
      obtain ⟨h1, h2⟩ := hL.page (FlatPool.deref_eq_some.mp ha)
      exact ⟨t, by simp only [machineSem, if_pos h1, h2], h⟩
    · cases he
  | store p page =>
    simp only [flatSem] at he
    split at he
    · next a ha =>
      obtain ⟨rfl, rfl⟩ := Prod.mk.inj (Option.some.inj he)
      obtain ⟨L, hL⟩ := h p.pool
      have hl := FlatPool.deref_eq_some.mp ha
      exact ⟨_, by simp only [machineSem, if_pos (hL.page hl).1], h.update ⟨L, hL.put hl page⟩⟩
    · cases he
  | fileLength i =>
    obtain ⟨rfl, rfl⟩ := Prod.mk.inj (Option.some.inj he)
    obtain ⟨L, hL⟩ := h i
    exact ⟨t, by simp only [machineSem, hL.length], h⟩
  | writePage i page addr =>
    simp only [flatSem] at he
    split_ifs at he with hc
    obtain ⟨rfl, rfl⟩ := Prod.mk.inj (Option.some.inj he)
    obtain ⟨L, hL⟩ := h i
    refine ⟨_, rfl, h.update ⟨L, ?_⟩⟩
    rw [hc.1, hL.length]
    exact hL.append page
  | undefined => cases he

theorem CachedAs.room (h : CachedAs f m L) (hf : f.Fits [a]) : m.pool.Room a := by
  rcases h.room_of_fits hf with ha | hl | ⟨b, hb, hr⟩
  · exact Or.inl (h.wf.frame a ha)
  · exact Or.inr (Or.inl (h.wf.exists_empty hl))
  · obtain ⟨k, hk, hk16, -⟩ := h.wf.frameOf_mem hb
    rw [refOf, hk] at hr
    exact Or.inr (Or.inr ⟨k, hk16, hr⟩)

theorem CachedAs.releasable (h : CachedAs f m L) (ha : a ∈ f.pins) : m.pool.Releasable a := by
  have haL := h.pins a ha
  obtain ⟨k, hk, hk16, hka⟩ := h.wf.frameOf_mem haL
  have hr := h.ref a (h.wf.valid a haL).ne_null
  rw [refOf, hk] at hr
  have := Multiset.count_pos.mpr ha
  exact ⟨k, hk16, hka, by simp only at hr; omega⟩

theorem Holds.checked {β : Type} {e : Eff β} {s : Flat} {t : Machine} {r : β × Flat} (h : Holds s t)
    (he : flatSem true e s = some r) : Checked e t := by
  cases e with
  | getPage i addr =>
    simp only [flatSem] at he
    split_ifs at he with hc
    obtain ⟨L, hL⟩ := h i
    exact hL.room (hc.2 trivial)
  | release i addr =>
    simp only [flatSem] at he
    split_ifs at he with hc
    obtain ⟨L, hL⟩ := h i
    exact hL.releasable hc
  | writePage i page addr =>
    simp only [flatSem] at he
    split_ifs at he with hc
    obtain ⟨L, hL⟩ := h i
    intro hlen
    rw [← hL.mem 0 (by decide)]
    exact hc.2 (hL.length ▸ hlen)
  | load p => trivial
  | store p page => trivial
  | fileLength i => trivial
  | undefined => trivial

/-- **Every effect of the bounded flat store succeeds on the machine and passes the checks.** -/
theorem checked_simulates : Simulates Holds (flatSem true) checkedSem := by
  intro β e s t r s' h he
  obtain ⟨t', hm, h'⟩ := machine_simulates e s t r s' h he
  exact ⟨t', (if_pos (h.checked he)).trans hm, h'⟩

/-- A run that passes the checks is a run of the machine. -/
theorem Returns.unchecked {body : Bodies Eff Proc} {α : Type} {p : M α} {t t' : Machine} {a : α}
    (h : Returns checkedSem body p t a t') : Returns machineSem body p t a t' := by
  have hsim : Simulates (E := Eff) Eq checkedSem machineSem := by
    rintro β e t _ r t' rfl he
    simp only [checkedSem] at he
    split_ifs at he
    exact ⟨t', he, rfl⟩
  obtain ⟨n, hn⟩ := h
  obtain ⟨_, hr, rfl⟩ := run_sim hsim rfl hn
  exact ⟨n, hr⟩

/-- **An effect that succeeds on the unbounded flat store and on the machine succeeds on the bounded
flat store.** -/
theorem machine_restricts : Restricts Holds (flatSem false) (flatSem true) machineSem := by
  intro β e s t r q h he hm
  cases e with
  | getPage i addr =>
    simp only [flatSem, Bool.false_eq_true, false_implies, and_true] at he
    split_ifs at he with hc
    obtain ⟨L, hL⟩ := h i
    have hg : ∃ r, (t i).pool.getPage addr = some r := by
      simp only [machineSem] at hm
      cases hg : (t i).pool.getPage addr with
      | none => rw [hg] at hm; cases hm
      | some r => exact ⟨r, rfl⟩
    obtain ⟨r', hg⟩ := hg
    have hfit := hL.fits_of_room (hL.wf.room hg (hL.valid_iff.mp hc).ne_null)
    simp only [flatSem, if_pos (And.intro hc fun _ => hfit)]
    exact he
  | release i addr => exact he
  | load p => exact he
  | store p page => exact he
  | fileLength i => exact he
  | writePage i page addr => exact he
  | undefined => exact he

section Runs

variable {body : Bodies Eff Proc} {α : Type} {p : M α} {Q : α → Flat → Prop} {s : Flat}
  {t t' u : Machine} {b : α}

/-- A run of the machine is one of the bounded flat store, if the unbounded one runs the program. -/
theorem wp.bounded (hs : Holds s t) (h : wp (flatSem false) body p Q s)
    (hr : Returns machineSem body p t b t') :
    ∃ s', Returns (flatSem true) body p s b s' ∧ Q b s' := by
  obtain ⟨c, s', ⟨m, hm⟩, hQ⟩ := h
  obtain ⟨n, hn⟩ := hr
  have hstrict := run_restrict machine_simulates machine_restricts hs
    (run_mono (le_max_left m n) hm) (run_mono (le_max_right m n) hn)
  obtain ⟨t'', hm', -⟩ := run_sim machine_simulates hs hstrict
  have hm' : Returns machineSem body p t c t'' := ⟨_, hm'⟩
  obtain ⟨rfl, -⟩ := hm'.unique ⟨n, hn⟩
  exact ⟨s', ⟨_, hstrict⟩, hQ⟩

/-- **Every run of the machine** does what the program does on the unbounded flat store, and passes
the checks. -/
theorem wp.of_machine (hs : Holds s t) (h : wp (flatSem false) body p Q s)
    (hr : Returns machineSem body p t b t') :
    ∃ s', Holds s' t' ∧ Q b s' ∧ Returns checkedSem body p t b t' := by
  obtain ⟨s', ⟨n, hn⟩, hQ⟩ := wp.bounded hs h hr
  obtain ⟨t'', hc, hs'⟩ := run_sim checked_simulates hs hn
  have hchecked : Returns checkedSem body p t b t'' := ⟨_, hc⟩
  obtain ⟨-, rfl⟩ := hchecked.unchecked.unique hr
  exact ⟨s', hs', hQ, hchecked⟩

/-- **Machines that hold the same flat store** return the same. -/
theorem wp.same_result (hs : Holds s t) (hu : Holds s u) (h : wp (flatSem false) body p Q s)
    (hr : Returns machineSem body p t b t') : ∃ u', Returns machineSem body p u b u' := by
  obtain ⟨s', ⟨n, hn⟩, -⟩ := wp.bounded hs h hr
  obtain ⟨u', hu', -⟩ := run_sim machine_simulates hu hn
  exact ⟨u', _, hu'⟩

end Runs

end MyJQL
