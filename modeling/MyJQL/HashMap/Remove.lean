import MyJQL.HashMap.Insert

/-!
# Removal from a free-space map

* `wp_unlink`: an entry has left a page; if the page is empty it moves to the free list;
* `wp_takeLast`: taking the last entry of a bucket;
* **`wp_hashTablePopLowerBound`**: the scan for the first non-empty bucket;
* `wp_popLoop`, **`wp_hashTablePop`**: the search for an entry, by induction on the pages.
-/

set_option linter.unusedSimpArgs false

namespace MyJQL

variable {bd : Bool} {D : ℕ} {H : Handlers} {s : Flat} {i : PoolId} {f : FlatPool} {n k ct : ℕ}
  {M : HMap} {addr : Int}

/-- **An entry has left page `x`**, which holds `b'` now. The program `lk v` stores the link `v`. -/
theorem wp_unlink {mem : Int → Page} {la x : Int} {pg : Int → Page} {lk : Int → MyJQL.M Unit}
    {pre suf : List (Int × List Int)} {its : List Int} {b b' : HashMapBlock} {bt : ℕ}
    (hM : M.Rep n mem f.length) (hk : k < hashMapDirBlockSize * n)
    (hc : M.chains k = pre ++ (x, its) :: suf) (hb : mem x = .hashBlock b)
    (hm : f.mem = Function.update mem x (.hashBlock b')) (hn : b'.next = b.next)
    (hits : (its : Multiset Int) = addr ::ₘ b'.items) (hl : HMap.LinkAt mem k pre la pg)
    (hct : f.Live ct 0) (hbt : f.Live bt x)
    (hlk : ∀ v {Q : Unit → Flat → Prop}, Q () (Function.update s i (f.put la (pg v))) →
      wp (flatSem bd) (procBody D H) (lk v) Q (Function.update s i f)) :
    wp (flatSem bd) (procBody D H) (hashTableUnlink ⟨i, ct⟩ ⟨i, bt⟩ x lk)
      (fun _ => HashDone s i n f.pins (Function.update M.bucket k ((M.bucket k).erase addr)))
      (Function.update s i f) := by
  have hch := hM.chain k hk
  rw [hc] at hch
  obtain ⟨-, ⟨b₀, hb₀, hbn, hbi⟩, -⟩ := before_append.mp hch
  obtain rfl := Page.hashBlock.inj (hb.symm.trans hb₀)
  obtain ⟨hla0, hlav, hlak⟩ := hM.link_ne hk hc hl
  obtain ⟨hx, hxh⟩ := (hM.mem_pages x k).mp (by rw [HMap.pages, hc]; simp)
  have hmx : f.mem x = .hashBlock b' := by simp [hm]
  have hbucket : (M.bucket k).erase addr =
      b'.items + ((pre ++ suf).flatMap Prod.snd : List Int) := by
    rw [HMap.bucket, hc, HMap.flatMap_middle]
    simp only [hits, Multiset.cons_add, Multiset.erase_cons_head]
  have hxla : x ≠ la := by
    rintro rfl
    rcases hl.addr with e | he
    · exact hx.ne_dirAddr hk e
    · have hnd := hM.nodup k
      rw [HMap.pages, hc, List.map_append, List.nodup_append] at hnd
      exact hnd.2.2 _ he _ (by simp) rfl
  refine wp_bind (wp_hashBlock hbt hmx (wp_when (fun he => ?_) fun he => ?_))
  · -- the page is empty
    have hc0 : f.mem 0 = .hashCtrl ⟨M.free.headD (-1), n, n * hashMapDirBlockSize⟩ := by
      rw [hm, Function.update_of_ne hx.ne_zero.symm]; exact hM.ctrl
    refine wp_bind (wp_hashBlock hbt hmx (wp_bind (hlk _ ?_)))
    refine wp_bind (wp_hashCtrl hct.put (x := ⟨M.free.headD (-1), n, n * hashMapDirBlockSize⟩) ?_ ?_)
    · simpa [hla0.symm] using hc0
    refine wp_bind (wp_setHashBlock hbt.put (x := b') (by simp [hxla, hmx]) ?_)
    refine wp_setHashCtrl hct.put.put (x := ⟨M.free.headD (-1), n, n * hashMapDirBlockSize⟩) ?_ ?_
    · simpa [hla0.symm, hx.ne_zero.symm] using hc0
    refine HashDone.intro rfl (hM.unlink (x := x) (b := { b' with next := M.free.headD (-1) })
      hk hc hl ?_ ?_ rfl ?_ fun a h1 h2 h3 => ?_) ?_
    · simp [hla0, hxla.symm, hn, hbn]
    · simp [hx.ne_zero]
    · simp
    · simp [h1, h2, h3, hm]
    · have h0 : b'.items = [] := List.eq_nil_of_length_eq_zero (by simpa using he)
      rw [HMap.bucket_update, hbucket, h0, Multiset.coe_nil, zero_add]
  · have hcount : b'.items.length ≤ hashMapBlockSize := by
      have h1 := congrArg Multiset.card hits
      have h2 : its.length ≤ hashMapBlockSize := (hM.count k (x, its) (by rw [hc]; simp)).2
      simp only [Multiset.coe_card, Multiset.card_cons] at h1
      omega
    have hM' := hM.setItems hk hc hb hn rfl ⟨by simpa using he, hcount⟩
    rw [← hm] at hM'
    refine HashDone.intro rfl hM' ?_
    rw [HMap.bucket_update, hbucket, HMap.flatMap_middle]

/-! ## Taking the last entry of a bucket -/

/-- What `hashTableTakeLast` leaves: the function has returned an entry of bucket `k`, or the bucket
is empty. -/
def TakeDone (s : Flat) (i : PoolId) (f : FlatPool) (M : HMap) (n k ct : ℕ) (p₀ : Multiset Int)
    (r : Option Int) (s' : Flat) : Prop :=
  match r with
  | some ans => ans ∈ M.bucket k ∧
    HashDone s i n p₀ (Function.update M.bucket k ((M.bucket k).erase ans)) s'
  | none => M.bucket k = 0 ∧ ∃ f', s' = Function.update s i f' ∧ f'.mem = f.mem ∧
    f'.length = f.length ∧ f'.pins = f.pins ∧ f'.Held ct 0

theorem wp_takeLast {p₀ : Multiset Int} (hM : M.Rep n f.mem f.length)
    (hk : k < hashMapDirBlockSize * n) (hct : f.Held ct 0) (hpins : f.pins = 0 ::ₘ p₀)
    (hcard : p₀.card + 4 ≤ cachePage) :
    wp (flatSem bd) (procBody D H)
      (hashTableTakeLast i ⟨i, ct⟩ (dirAddr k) (k % hashMapDirBlockSize))
      (TakeDone s i f M n k ct p₀) (Function.update s i f) := by
  obtain ⟨dir, hdir, hentry⟩ := (hM.chain k hk).1
  refine wp_bind (wp_getPage (hM.dirAddr_valid hk)
    (fun _ => FlatPool.fits_of_card (by rw [hpins]; simp; omega)) ?_)
  refine wp_bind (wp_hashDir FlatPool.held_get_self.live hdir ?_)
  rw [hentry]
  cases hc : M.chains k with
  | nil =>
    rw [link_nil, if_neg (by simp)]
    refine wp_bind (wp_release (by simp) (wp_pure ⟨by simp [HMap.bucket, hc], _, rfl, rfl, rfl, ?_, ?_⟩))
    · simp
    · exact hct.get.release (by simpa using hct.2)
  | cons p c =>
    have hpage := hM.page (k := k) (p := p) (by rw [hc]; simp)
    have hc₀ : M.chains k = [] ++ p :: c := hc
    obtain ⟨-, b, hb, hbn, hbi⟩ := hM.middle hk hc₀
    have hcount := hM.count k p (by rw [hc]; simp)
    have hne : b.items ≠ [] := by rw [hbi]; exact fun e => hcount.1 (by rw [e]; rfl)
    have hits : (p.2 : Multiset Int) = b.table (b.nItems - 1) ::ₘ b.dropLast.items := by
      have hlast : b.table (b.nItems - 1) = b.items.getLast hne := by
        simp [List.getLast_eq_getElem, HashMapBlock.items]
      rw [hlast, HashMapBlock.items_dropLast, ← hbi, ← Multiset.singleton_add, add_comm,
        ← Multiset.coe_singleton, Multiset.coe_add, List.dropLast_append_getLast]
    rw [link_cons, if_pos hpage.ne_null]
    refine wp_bind (wp_getPage hpage.valid
      (fun _ => FlatPool.fits_of_card (by simp [hpins]; omega)) ?_)
    refine wp_bind (wp_hashBlock FlatPool.held_get_self.live hb ?_)
    refine wp_bind (wp_setHashBlock FlatPool.held_get_self.live hb ?_)
    have hdne : dirAddr k ≠ p.1 := (hpage.ne_dirAddr hk).symm
    refine wp.seq (wp_unlink hM hk hc₀ hb rfl
      (HashMapBlock.next_dropLast b) hits (.dir hdir) hct.get.get.put.live
      FlatPool.held_get_self.put.live fun v Q hQ => ?_) fun _ s' hs' => ?_
    · exact wp_setHashDir FlatPool.held_get_self.get.put.live (by simpa [hdne] using hdir) hQ
    · simp only [FlatPool.pins_put, FlatPool.pins_get, hpins] at hs'
      refine wp_bind (hs'.release fun s' hs' => wp_bind (hs'.release fun s' hs' =>
        wp_bind (hs'.release fun s' hs' => wp_pure ⟨?_, hs'⟩)))
      rw [HMap.bucket, hc, List.flatMap_cons, ← Multiset.coe_add, hits]
      simp

/-- The scan has reached bucket `k` and found the buckets from `size` on empty. -/
def ScanAt (s : Flat) (i : PoolId) (f : FlatPool) (M : HMap) (ct size k : ℕ) (s' : Flat) : Prop :=
  (∀ j, size ≤ j → j < k → M.bucket j = 0) ∧ ∃ f', s' = Function.update s i f' ∧ f'.mem = f.mem ∧
    f'.length = f.length ∧ f'.pins = f.pins ∧ f'.Held ct 0

/-- The entry `ans` has been taken from the first non-empty bucket from `size` on. -/
def PopDone (s : Flat) (i : PoolId) (n size : ℕ) (p₀ : Multiset Int) (B : ℕ → Multiset Int)
    (ans : Int) (s' : Flat) : Prop :=
  ∃ k, size ≤ k ∧ k < hashMapDirBlockSize * n ∧ (∀ j, size ≤ j → j < k → B j = 0) ∧ ans ∈ B k ∧
    HashDone s i n p₀ (Function.update B k ((B k).erase ans)) s'

/-- The scan of the entries `e`, …, `e + c - 1` of directory page `q`. -/
theorem wp_scanPage {size q e c : ℕ} {p₀ : Multiset Int} {s₀ : Flat} (hM : M.Rep n f.mem f.length)
    (hq : q < n) (he : e + c ≤ hashMapDirBlockSize) (hs : size ≤ hashMapDirBlockSize * q + e)
    (hpins : f.pins = 0 ::ₘ p₀) (hcard : p₀.card + 4 ≤ cachePage)
    (h₀ : ScanAt s i f M ct size (hashMapDirBlockSize * q + e) s₀) :
    wp (flatSem bd) (procBody D H)
      (Prog.forReturn (fun j => hashTableTakeLast i ⟨i, ct⟩ ((q + 1 : ℕ) * pageSize) (e + j)) 0 c)
      (fun r s' => match r with
        | some ans => PopDone s i n size p₀ M.bucket ans s'
        | none => ScanAt s i f M ct size (hashMapDirBlockSize * q + e + c) s') s₀ := by
  refine wp_forReturn (fun j => ScanAt s i f M ct size (hashMapDirBlockSize * q + e + j)) h₀
    (fun j t _ hj ht => ?_) fun t ht => by simpa using ht
  obtain ⟨hempty, f', rfl, hm, hl, hp, hct⟩ := ht
  have hx : (hashMapDirBlockSize * q + (e + j)) / hashMapDirBlockSize = q := by
    simp only [hashMapDirBlockSize] at he ⊢; omega
  have hy : (hashMapDirBlockSize * q + (e + j)) % hashMapDirBlockSize = e + j := by
    simp only [hashMapDirBlockSize] at he ⊢; omega
  have hkn : hashMapDirBlockSize * q + (e + j) < hashMapDirBlockSize * n := by
    simp only [hashMapDirBlockSize] at he ⊢; omega
  have htake : wp (flatSem bd) (procBody D H) _ _ _ :=
    wp_takeLast (s := s) (i := i) (M := M) (f := f')
    (hm ▸ hl ▸ hM) hkn hct (hp.trans hpins) hcard
  rw [dirAddr, hx, hy] at htake
  refine htake.mono fun r s' hr => ?_
  cases r with
  | some ans =>
    obtain ⟨hans, hdone⟩ := hr
    exact ⟨_, by omega, hkn, fun j' h1 h2 => hempty j' h1 (by omega), hans, hdone⟩
  | none =>
    obtain ⟨h0, f'', rfl, hm', hl', hp', hct'⟩ := hr
    refine ⟨fun j' h1 h2 => ?_, f'', rfl, hm'.trans hm, hl'.trans hl, hp'.trans hp, hct'⟩
    by_cases e' : j' = hashMapDirBlockSize * q + (e + j)
    · exact e' ▸ h0
    · exact hempty j' h1 (by omega)

/-- **`hash_table_pop_lower_bound`** takes an entry of the first non-empty bucket from `size` on, or
returns `-1` when all are empty. -/
theorem wp_hashTablePopLowerBound {size : ℕ} {B : ℕ → Multiset Int} (hB : HashRep f n B)
    (hk : size < hashMapDirBlockSize * n) (hs : size < 2 ^ 15)
    (hcard : f.pins.card + 4 ≤ cachePage) :
    wp (flatSem bd) (procBody D H) (hashTablePopLowerBound i (BitVec.ofNat 16 size))
      (fun ans s' => PopDone s i n size f.pins B ans s' ∨
        ans = -1 ∧ (∀ k, size ≤ k → B k = 0) ∧ HashDone s i n f.pins B s')
      (Function.update s i f) := by
  obtain ⟨M, hM, rfl⟩ := hB
  have hsmall := hM.small
  simp only [hashTablePopLowerBound, dirSlot_ofNat hs]
  have h0 : f.Valid 0 := ⟨le_rfl, lt_of_lt_of_le (by simp only [pageSize]; omega) hM.length.1, rfl⟩
  refine wp_bind (wp_getPage h0 (fun _ => FlatPool.fits_of_card (by simp; omega)) ?_)
  refine wp_bind (wp_hashCtrl FlatPool.held_get_self.live hM.ctrl ?_)
  simp only [toNat_dirBlocks hs hsmall hk]
  refine wp.seq (R := fun r s' => match r with
    | some ans => PopDone s i n size f.pins M.bucket ans s'
    | none => ScanAt s i (f.get 0) M f.next size
        (max size (hashMapDirBlockSize * n)) s') ?_ fun r s' hr => ?_
  · refine wp_forReturn (fun b => ScanAt s i (f.get 0) M f.next size
      (if b = 0 then size else hashMapDirBlockSize * (size / hashMapDirBlockSize + b))) ?_
      (fun b t _ hb ht => ?_) fun t ht => ?_
    · exact ⟨fun j h1 h2 => absurd h1 (by simpa using h2), _, rfl, rfl, rfl, rfl, FlatPool.held_get_self⟩
    · have hdm := Nat.div_add_mod size hashMapDirBlockSize
      have hml : size % hashMapDirBlockSize < hashMapDirBlockSize := Nat.mod_lt _ (by decide)
      by_cases e : b = 0
      · subst e
        rw [if_pos rfl] at ht ⊢
        rw [dirPage_ofNat hs (by decide)]
        refine (wp_scanPage (f := f.get 0) (q := size / hashMapDirBlockSize)
          (e := size % hashMapDirBlockSize) hM (by omega) (by omega) hdm.ge rfl hcard
          (by rwa [hdm])).mono fun r s' hr => ?_
        cases r with
        | some ans => exact hr
        | none =>
          rw [hdm] at hr
          simp only [Option.elim, Nat.zero_add, one_ne_zero, if_false]
          convert hr using 1
          simp only [hashMapDirBlockSize] at hdm hml ⊢
          omega
      · rw [if_neg e] at ht ⊢
        have hsub := Nat.sub_le n (size / hashMapDirBlockSize)
        rw [dirPage_ofNat hs (by omega)]
        have hsp : wp (flatSem bd) (procBody D H) _ _ _ := wp_scanPage (f := f.get 0) (e := 0)
          (c := hashMapDirBlockSize) (q := size / hashMapDirBlockSize + b) hM (by omega) (by omega)
          (by simp only [hashMapDirBlockSize] at hdm hml ⊢; omega) rfl hcard ht
        rw [Nat.add_right_comm] at hsp
        simp only [Nat.zero_add] at hsp
        refine hsp.mono fun r s' hr => ?_
        cases r with
        | some ans => exact hr
        | none =>
          simp only [Option.elim, Nat.succ_ne_zero, if_false]
          convert hr using 1
          ring
    · simp only [Int.toNat_natCast, Nat.zero_add] at ht
      obtain ⟨hempty, hrest⟩ := ht
      refine ⟨fun j h1 h2 => ?_, hrest⟩
      refine hempty j h1 ?_
      split_ifs with e
      · simp only [hashMapDirBlockSize] at h2 e; omega
      · simp only [hashMapDirBlockSize] at h2 e ⊢; omega
  · cases r with
    | some ans => exact wp_pure (Or.inl hr)
    | none =>
      obtain ⟨hempty, f', rfl, hm, hl, hp, hct⟩ := hr
      refine wp_bind (wp_release hct.2 (wp_pure (Or.inr ⟨rfl, fun k hk => ?_, ?_⟩)))
      · by_cases hkn : k < hashMapDirBlockSize * n
        · exact hempty k hk (lt_max_of_lt_right hkn)
        · rw [HMap.bucket, hM.out k (not_lt.mp hkn)]; rfl
      · refine HashDone.intro (M := M) ?_ ?_ rfl
        · rw [FlatPool.pins_release, hp, FlatPool.pins_get, Multiset.erase_cons_head]
        · rw [FlatPool.mem_release, FlatPool.length_release, hm, hl]; exact hM

/-! ## Removing an entry -/

theorem items_remove_cons {b : HashMapBlock} {j : ℕ} (h : b.indexOf addr = some j) :
    (b.items : Multiset Int) = addr ::ₘ (b.remove j).items := by
  obtain ⟨hj, he⟩ := HashMapBlock.indexOf_some h
  rw [HashMapBlock.items_remove b (by simpa using hj), Multiset.cons_coe, Multiset.coe_eq_coe, ← he]
  exact (List.getElem_cons_eraseIdx_perm hj).symm

/-- **The search of the later pages**: `addr` is on a page behind `p`. -/
theorem wp_popLoop {pre suf : List (Int × List Int)} {p : Int × List Int} {t size : ℕ}
    {blockAddr : Int} {p₀ : Multiset Int} (hM : M.Rep n f.mem f.length)
    (hk : size < hashMapDirBlockSize * n) (hs : size < 2 ^ 15)
    (hc : M.chains size = pre ++ p :: suf) (haddr : addr ∈ suf.flatMap Prod.snd)
    (hct : f.Held ct 0) (hlast : f.Last t p.1)
    (hcard : p₀.card + 5 ≤ cachePage) (hpins : f.pins = blockAddr ::ₘ dirAddr size ::ₘ 0 ::ₘ p₀) :
    wp (flatSem bd) (procBody D H)
      (hashTablePopLoop i ⟨i, ct⟩ ⟨i, t⟩ (BitVec.ofNat 16 size) addr blockAddr)
      (fun r s' => r = true ∧
        HashDone s i n p₀ (Function.update M.bucket size ((M.bucket size).erase addr)) s')
      (Function.update s i f) := by
  induction suf generalizing pre p f t with
  | nil => cases haddr
  | cons q suf ih =>
    obtain ⟨hpage, b, hb, hbn, hbi⟩ := hM.middle hk hc
    have hc' : M.chains size = (pre ++ [p]) ++ q :: suf := by rw [hc]; simp
    obtain ⟨hqpage, b', hb', hbn', hbi'⟩ := hM.middle hk hc'
    have hnd := hM.nodup size
    rw [HMap.pages, hc, List.map_append, List.nodup_append, List.map_cons, List.nodup_cons] at hnd
    have hpq : p.1 ≠ q.1 := fun e => hnd.2.1.1 (by rw [e]; simp)
    have hfits : f.Fits [q.1, p.1] := FlatPool.fits_of_card (by simp [hpins]; omega)
    rw [hashTablePopLoop, dirPage_zero hs]
    refine wp_bind (wp_hashBlock hlast.live hb ?_)
    rw [hbn, link_cons, if_pos hqpage.ne_null]
    refine wp_bind (wp_hashBlock hlast.live hb ?_)
    rw [hbn, link_cons]
    refine wp_bind (wp_getPage hqpage.valid
      (fun _ => FlatPool.fits_of_card (by simp [hpins]; omega)) ?_)
    -- `block` has been released, and `get_page` leaves its page in its frame
    refine wp_bind (wp_hashBlock (hlast.get hfits) hb ?_)
    rw [hbn, link_cons]
    refine wp_bind (wp_hashBlock FlatPool.held_get_self.live hb' ?_)
    cases hi : b'.indexOf addr with
    | some j =>
      refine wp_bind (wp_setHashBlock FlatPool.held_get_self.live hb' ?_)
      refine wp.seq (wp_unlink hM hk hc' hb' rfl (HashMapBlock.next_remove b' j) (hbi' ▸ items_remove_cons hi)
        (.page hb) hct.get.put.live FlatPool.held_get_self.put.live fun v Q hQ => ?_)
        fun _ s' hs' => ?_
      · refine wp_setHashBlock (hlast.get hfits).put (x := b) ?_ hQ
        simp [hpq, hb]
      · simp only [FlatPool.pins_put, FlatPool.pins_get, hpins] at hs'
        exact wp_bind (hs'.release fun s' hs' => wp_bind (hs'.release fun s' hs' =>
          wp_bind (hs'.release fun s' hs' => wp_bind (hs'.release fun s' hs' => wp_pure ⟨rfl, hs'⟩))))
    | none =>
      refine wp_bind (wp_release (by simp) (wp_proc ?_))
      have haddr' : addr ∈ suf.flatMap Prod.snd := by
        rw [List.flatMap_cons, List.mem_append] at haddr
        exact haddr.resolve_left fun hm => HashMapBlock.indexOf_none hi (hbi' ▸ hm)
      refine ih (f := (f.get q.1).release q.1) hM hc' haddr' ?_ FlatPool.last_get_self.release ?_
      · exact hct.get.release (by simpa using hct.2)
      · simp [hpins]

/-- **`hash_table_pop`** removes the address from its bucket. -/
theorem wp_hashTablePop {size : ℕ} {B : ℕ → Multiset Int} (hB : HashRep f n B)
    (hk : size < hashMapDirBlockSize * n) (hs : size < 2 ^ 15) (haddr : addr ∈ B size)
    (hcard : f.pins.card + 5 ≤ cachePage) :
    wp (flatSem bd) (procBody D H) (hashTablePop i (BitVec.ofNat 16 size) addr)
      (fun _ => HashDone s i n f.pins (Function.update B size ((B size).erase addr)))
      (Function.update s i f) := by
  obtain ⟨M, hM, rfl⟩ := hB
  simp only [hashTablePop, dirPage_zero hs, dirSlot_ofNat hs]
  have h0 : f.Valid 0 := ⟨le_rfl, lt_of_lt_of_le (by simp only [pageSize]; omega) hM.length.1, rfl⟩
  obtain ⟨dir, hdir, hentry⟩ := (hM.chain size hk).1
  refine wp_bind (wp_getPage h0 (fun _ => FlatPool.fits_of_card (by simp; omega)) ?_)
  refine wp_bind (wp_getPage (hM.dirAddr_valid hk)
    (fun _ => FlatPool.fits_of_card (by simp; omega)) ?_)
  refine wp_bind (wp_hashDir FlatPool.held_get_self.live hdir ?_)
  rw [hentry]
  cases hc : M.chains size with
  | nil => simp [HMap.bucket, hc] at haddr
  | cons p c =>
    have hc₀ : M.chains size = [] ++ p :: c := hc
    obtain ⟨hpage, b, hb, hbn, hbi⟩ := hM.middle hk hc₀
    have hdne : dirAddr size ≠ p.1 := (hpage.ne_dirAddr hk).symm
    rw [link_cons]
    refine wp_bind (wp_getPage hpage.valid
      (fun _ => FlatPool.fits_of_card (by simp; omega)) ?_)
    refine wp_bind (wp_hashBlock FlatPool.held_get_self.live hb ?_)
    cases hi : b.indexOf addr with
    | some j =>
      refine wp_bind (wp_setHashBlock FlatPool.held_get_self.live hb ?_)
      refine wp.seq (wp_unlink hM hk hc₀ hb rfl
        (HashMapBlock.next_remove b j) (hbi ▸ items_remove_cons hi) (.dir hdir)
        FlatPool.held_get_self.get.get.put.live FlatPool.held_get_self.put.live fun v Q hQ => ?_)
        fun _ s' hs' => ?_
      · exact wp_setHashDir FlatPool.held_get_self.get.put.live (by simpa [hdne] using hdir) hQ
      · exact wp_bind (hs'.release fun s' hs' => wp_bind (hs'.release fun s' hs' =>
          hs'.release fun s' hs' => hs'))
    | none =>
      have haddr' : addr ∈ c.flatMap Prod.snd := by
        rw [HMap.bucket, hc, Multiset.mem_coe, List.flatMap_cons, List.mem_append] at haddr
        exact haddr.resolve_left fun hm => HashMapBlock.indexOf_none hi (hbi ▸ hm)
      refine wp.seq (wp_proc (wp_popLoop (f := ((f.get 0).get (dirAddr size)).get p.1)
        hM hk hs hc₀ haddr' FlatPool.held_get_self.get.get FlatPool.last_get_self hcard rfl))
        fun r s' hr => ?_
      obtain ⟨rfl, hdone⟩ := hr
      exact wp_pure hdone

end MyJQL
