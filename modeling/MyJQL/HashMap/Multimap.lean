import MyJQL.HashMap.Remove
import MyJQL.Storage.Simulation

/-!
# The free-space map is a multimap

* `hashBucket mem len size`: the entries of the pages on the chain of a bucket;
* `hashRep_init`: `hash_table_init` on an absent file makes every bucket empty;
* `HashOp`, `HashOp.Allowed`, `HashOp.Spec`: the operations, their contracts and what they do to the
  buckets; `HashReach`: the states reached by operations within their contracts;
* **`hashTable_refines_multimap`**: from every state reached, every operation within its contract
  returns on the buffer pool, and changes the buckets as specified.
-/

set_option linter.unusedSimpArgs false

namespace MyJQL

/-! ## Buckets -/

/-- The entries on the pages from `a` on, at most `fuel` of them. -/
def chainItems (mem : Int → Page) : ℕ → Int → List Int
  | 0, _ => []
  | fuel + 1, a =>
    if a = -1 then []
    else (mem a).toHashBlock.items ++ chainItems mem fuel (mem a).toHashBlock.next

/-- The contents of bucket `size` in a file of `len` bytes. -/
def hashBucket (mem : Int → Page) (len : Int) (size : ℕ) : Multiset Int :=
  chainItems mem (len / pageSize).toNat
    ((mem (dirAddr size)).toHashDir.directory (size % hashMapDirBlockSize))

theorem chainItems_of_seg {mem : Int → Page} {c : List (Int × List Int)} (h : Seg mem c (-1))
    (hn : ∀ p ∈ c, p.1 ≠ -1) {fuel : ℕ} (hf : c.length ≤ fuel) :
    chainItems mem fuel (link c (-1)) = c.flatMap Prod.snd := by
  induction c generalizing fuel with
  | nil => cases fuel <;> simp [chainItems]
  | cons p c ih =>
    obtain ⟨⟨b, hb, hbn, hbi⟩, hc⟩ := h
    obtain ⟨fuel, rfl⟩ : ∃ m, fuel = m + 1 := ⟨fuel - 1, by simp at hf; omega⟩
    rw [link_cons, chainItems, if_neg (hn p List.mem_cons_self), hb]
    simp only [Page.toHashBlock, hbi, hbn, List.flatMap_cons]
    rw [ih hc (fun q hq => hn q (List.mem_cons_of_mem _ hq)) (by simpa using hf)]

theorem length_le_of_pages {l : List Int} {len : Int} (hnd : l.Nodup)
    (h : ∀ a ∈ l, 0 ≤ a ∧ a < len ∧ a % pageSize = 0) (hlen : len % pageSize = 0) :
    l.length ≤ (len / pageSize).toNat := by
  have hinj : Set.InjOn (fun a : Int => (a / pageSize).toNat) {a | a ∈ l} := by
    intro a ha b hb e
    obtain ⟨h1, -, h2⟩ := h a ha
    obtain ⟨h3, -, h4⟩ := h b hb
    simp only [pageSize] at e h2 h4
    omega
  have hsub : (l.map fun a : Int => (a / pageSize).toNat).toFinset ⊆
      Finset.range (len / pageSize).toNat := by
    intro x hx
    obtain ⟨a, ha, rfl⟩ := List.mem_map.mp (List.mem_toFinset.mp hx)
    obtain ⟨h1, h2, h3⟩ := h a ha
    simp only [pageSize, Finset.mem_range] at h3 hlen ⊢
    omega
  have hcard := Finset.card_le_card hsub
  rwa [List.toFinset_card_of_nodup ((List.nodup_map_iff_inj_on hnd).mpr hinj), List.length_map,
    Finset.card_range] at hcard

theorem HMap.Rep.hashBucket_eq {M : HMap} {n k : ℕ} {mem : Int → Page} {len : Int}
    (h : M.Rep n mem len) (hk : k < hashMapDirBlockSize * n) :
    hashBucket mem len k = M.bucket k := by
  obtain ⟨⟨dir, hdir, hentry⟩, hseg⟩ := h.chain k hk
  rw [hashBucket, hdir]
  simp only [Page.toHashDir]
  rw [hentry, chainItems_of_seg hseg fun p hp => (h.page hp).ne_null, HMap.bucket]
  have := length_le_of_pages (h.nodup k) (fun a ha => ((h.mem_pages a k).mp ha).1.valid) h.length.2
  rwa [HMap.pages, List.length_map] at this

/-! ## Opening -/

/-- The map of a file just created. -/
def HMap.empty : HMap := ⟨fun _ => [], [], fun _ => none⟩

theorem hashTableInit_rep {n : ℕ} (hn : n < 2 ^ 24) :
    HMap.empty.Rep n (hashTableInit none n).file.data (hashTableInit none n).file.length := by
  have key : ∀ file : FileInfo Page, file = (hashTableInit none n).file →
      file.length = (n + 1 : ℕ) * pageSize ∧ file.data 0 = .hashCtrl (initHashCtrl n) ∧
        ∀ k < n, file.data ((k + 1 : ℕ) * pageSize) = .hashDir ⟨fun _ => -1⟩ := by
    rintro file rfl
    refine forUp_ind (Nat.zero_le n) (fun m (file : FileInfo Page) =>
      file.length = (m + 1 : ℕ) * pageSize ∧ file.data 0 = .hashCtrl (initHashCtrl n) ∧
        ∀ k < m, file.data ((k + 1 : ℕ) * pageSize) = .hashDir ⟨fun _ => -1⟩) ?_ ?_
    · exact ⟨rfl, rfl, fun k hk => absurd hk (Nat.not_lt_zero k)⟩
    · rintro m file - hm ⟨hlen, h0, hdir⟩
      have he : (BitVec.ofInt 32 (pageSize * ((m : Int) + 1))).toInt = file.length := by
        rw [hlen, BitVec.toInt_ofInt_eq_self (by decide) (by simp only [pageSize]; omega)
          (by simp only [pageSize]; omega)]
        push_cast
        ring
      have hpos : 0 < file.length := by rw [hlen]; simp only [pageSize]; omega
      rw [he, writePage_append hpos.le (by rw [hlen]; exact Int.mul_emod_left _ _)]
      refine ⟨by rw [hlen]; push_cast; ring, ?_, fun k hk => ?_⟩
      · exact (Function.update_of_ne hpos.ne _ _).trans h0
      · by_cases e : k = m
        · subst e
          rw [hlen]
          exact Function.update_self ..
        · refine (Function.update_of_ne ?_ _ _).trans (hdir k (by omega))
          rw [hlen]
          simp only [pageSize]
          omega
  obtain ⟨hlen, h0, hdir⟩ := key _ rfl
  refine ⟨h0, fun k hk => ⟨⟨_, hdir _ (Nat.div_lt_of_lt_mul hk), rfl⟩, trivial⟩, fun _ _ => rfl,
    fun k p hp => (List.not_mem_nil hp).elim, trivial, fun _ => List.nodup_nil, List.nodup_nil,
    fun a k => ?_, fun a => ?_, ?_, ?_⟩
  · simp [HMap.empty, HMap.pages]
  · simp only [HMap.empty, List.not_mem_nil, false_iff, not_and]
    intro ha
    have h1 := ha.1
    have h2 := ha.2.1
    rw [hlen] at h2
    exact absurd h1 (not_le.mpr h2)
  · rw [hlen]
    exact ⟨le_rfl, Int.mul_emod_left _ _⟩
  · exact hn

theorem HMap.bucket_empty : HMap.empty.bucket = fun _ => 0 := rfl

/-- A pool just opened, as a flat pool. -/
def FlatPool.ofFile (file : FileInfo Page) : FlatPool :=
  ⟨file.data, file.length, 0, [], fun _ => none, 0⟩

theorem BufferPool.frameOf_new {P : Type} {pool : BufferPool P} (h : pool.addrs = fun _ => -1)
    {a : Int} (ha : a ≠ -1) : pool.frameOf a = none := by
  rw [BufferPool.frameOf, List.find?_eq_none]
  intro j _
  rw [decide_eq_true_eq, h]
  exact ha.symm

theorem BufferPool.view_new {P : Type} {pool : BufferPool P} (h : pool.addrs = fun _ => -1)
    {a : Int} (ha : a ≠ -1) : pool.view a = pool.file.data a := by
  rw [BufferPool.view, BufferPool.frameOf_new h ha]

theorem cached_new {pool : BufferPool Page} (h : pool.addrs = fun _ => -1)
    (hl : pool.lru = fun _ => -1) (hr : pool.ref = fun _ => 0) (h0 : 0 ≤ pool.file.length)
    (h1 : pool.file.length % pageSize = 0) :
    Cached (FlatPool.ofFile pool.file) (Mapped.new pool) := by
  refine ⟨[], ⟨List.nodup_nil, Nat.zero_le _, fun j _ => by simp [Mapped.new, hl], by simp,
    fun j _ => Or.inl (by simp [Mapped.new, h]), fun j _ k _ _ hn => absurd (by simp [Mapped.new, h]) hn,
    by simp, fun j _ _ => by simp [Mapped.new, hr], h0, h1⟩, rfl, fun a ha => ?_, fun a ha => ?_,
    by simp [FlatPool.ofFile], List.nil_prefix, rfl, fun t a ht => absurd ht.1.1 (Nat.not_lt_zero t)⟩
  · exact (BufferPool.view_new h ha).symm
  · rw [BufferPool.refOf, show (Mapped.new pool).pool = pool from rfl, BufferPool.frameOf_new h ha]
    simp [FlatPool.ofFile]

theorem cached_init {disk : Option (FileInfo Page)} (h0 : 0 ≤ (openFile disk).2.length) :
    Cached (FlatPool.ofFile (openFile disk).2) (Mapped.new (initBufferPool disk)) :=
  @cached_new (initBufferPool disk) rfl rfl rfl h0 PoolUse.openFile_aligned

theorem cached_hashTableInit {n : ℕ} (hn : n < 2 ^ 24) :
    Cached (FlatPool.ofFile (hashTableInit none n).file) (Mapped.new (hashTableInit none n)) := by
  have h := (hashTableInit_rep hn).length
  refine cached_new rfl rfl rfl (le_trans ?_ h.1) h.2
  simp only [pageSize]
  omega

theorem hashRep_init {n : ℕ} (hn : n < 2 ^ 24) :
    HashRep (FlatPool.ofFile (hashTableInit none n).file) n fun _ => 0 :=
  ⟨HMap.empty, hashTableInit_rep hn, HMap.bucket_empty⟩

/-! ## Operations -/

/-- The operations on a free-space map. -/
inductive HashOp
  | insert (size : ℕ) (addr : Int)
  | pop (size : ℕ) (addr : Int)
  | popLowerBound (size : ℕ)

namespace HashOp

/-- The size that is asked for. -/
def size : HashOp → ℕ
  | insert size _ => size
  | pop size _ => size
  | popLowerBound size => size

/-- The program of an operation on pool `i`; the parameter `size` is a `short`. -/
def prog (i : PoolId) : HashOp → M Int
  | insert size addr => do hashTableInsert i (BitVec.ofNat 16 size) addr; return 0
  | pop size addr => do hashTablePop i (BitVec.ofNat 16 size) addr; return 0
  | popLowerBound size => hashTablePopLowerBound i (BitVec.ofNat 16 size)

/-- The contracts, for buckets `B` numbered below `max`. -/
def Allowed (max : ℕ) (B : ℕ → Multiset Int) : HashOp → Prop
  | insert size addr => size < max ∧ ∀ k < max, addr ∉ B k
  | pop size addr => size < max ∧ addr ∈ B size
  | popLowerBound size => size < max

instance (max : ℕ) (B : ℕ → Multiset Int) (op : HashOp) : Decidable (op.Allowed max B) := by
  cases op <;> unfold Allowed <;> infer_instance

/-- What the operations do: the buckets `B` become `B'` and `r` is returned. -/
def Spec (max : ℕ) (B : ℕ → Multiset Int) (r : Int) (B' : ℕ → Multiset Int) : HashOp → Prop
  | insert size addr => ∀ k < max, B' k = if k = size then addr ::ₘ B size else B k
  | pop size addr => ∀ k < max, B' k = if k = size then (B size).erase addr else B k
  | popLowerBound size =>
    (r = -1 ∧ (∀ k < max, size ≤ k → B k = 0) ∧ ∀ k < max, B' k = B k) ∨
    ∃ j < max, size ≤ j ∧ (∀ k < j, size ≤ k → B k = 0) ∧ r ∈ B j ∧
      ∀ k < max, B' k = if k = j then (B j).erase r else B k

end HashOp

/-- The contents of a bucket in a buffer pool. -/
def Mapped.bucket (m : Mapped) (size : ℕ) : Multiset Int :=
  hashBucket m.pool.view m.pool.file.length size

variable {D : ℕ} {H : Handlers} {i : PoolId} {n : ℕ} {t : Machine}

/-- The machine with a new free-space map in pool `i`. -/
def hashMachine (i : PoolId) (n : ℕ) : Machine :=
  Function.update (fun _ => Mapped.new (initBufferPool none)) i (Mapped.new (hashTableInit none n))

/-- The states reached from `hash_table_init` on an absent file by operations within their
contracts, on sizes that a `short` holds. -/
inductive HashReach (D : ℕ) (H : Handlers) (i : PoolId) (n : ℕ) : Machine → Prop
  | init : HashReach D H i n (hashMachine i n)
  | step {t t' : Machine} {op : HashOp} {r : Int} (ht : HashReach D H i n t)
      (ho : op.Allowed (hashMapDirBlockSize * n) (t i).bucket) (hs : op.size < 2 ^ 15)
      (hr : Returns machineSem (procBody D H) (op.prog i) t r t') : HashReach D H i n t'

/-- Run operations within their contracts, with calls nested at most `fuel` deep. -/
def hashRun (D : ℕ) (H : Handlers) (i : PoolId) (n fuel : ℕ) : List HashOp → Machine → Option Machine
  | [], t => some t
  | op :: ops, t =>
    if op.Allowed (hashMapDirBlockSize * n) (t i).bucket ∧ op.size < 2 ^ 15 then
      (run machineSem (procBody D H) fuel (op.prog i) t).bind fun r => hashRun D H i n fuel ops r.2
    else none

theorem allowed_of_hashRun {fuel : ℕ} {op : HashOp} {ops : List HashOp} {t' : Machine}
    (h : hashRun D H i n fuel (op :: ops) t = some t') :
    op.Allowed (hashMapDirBlockSize * n) (t i).bucket ∧ op.size < 2 ^ 15 := by
  rw [hashRun] at h
  split_ifs at h with hc
  exact hc

theorem HashReach.run {fuel : ℕ} {ops : List HashOp} {t' : Machine} (ht : HashReach D H i n t)
    (h : hashRun D H i n fuel ops t = some t') : HashReach D H i n t' := by
  induction ops generalizing t with
  | nil =>
    cases h
    exact ht
  | cons op ops ih =>
    rw [hashRun] at h
    split_ifs at h with hc
    obtain ⟨⟨r, t₁⟩, hr, h⟩ := Option.bind_eq_some_iff.mp h
    exact ih (ht.step hc.1 hc.2 ⟨fuel, hr⟩) h

/-- The pool `m` holds a free-space map with the buckets `B`, and nothing is pinned. -/
def HashHeld (n : ℕ) (B : ℕ → Multiset Int) (s : Flat) (t : Machine) (i : PoolId) : Prop :=
  Holds s t ∧ (s i).pins = 0 ∧ HashRep (s i) n B

theorem HMap.Rep.congr {M : HMap} {mem mem' : Int → Page} {len : Int} (h : M.Rep n mem len)
    (hm : ∀ a ≠ -1, mem' a = mem a) : M.Rep n mem' len :=
  ⟨(hm 0 (by decide)).trans h.ctrl,
    fun k hk => (h.chain k hk).frame
      (fun dir hdir => ⟨dir, (hm _ (by have := dirAddr_pos k; omega)).trans hdir, rfl⟩)
      fun a ha => hm a ((h.mem_pages a k).mp ha).1.ne_null,
    h.out, h.count, h.free.frame fun a ha => hm a (h.free_page ha).ne_null, h.nodup, h.freeNodup,
    h.mem_pages, h.mem_free, h.length, h.small⟩

theorem HashHeld.bucket_eq {B : ℕ → Multiset Int} {s : Flat} (h : HashHeld n B s t i) {k : ℕ}
    (hk : k < hashMapDirBlockSize * n) : (t i).bucket k = B k := by
  obtain ⟨hs, -, M, hM, rfl⟩ := h
  obtain ⟨L, hL⟩ := hs i
  rw [hL.length] at hM
  exact (hM.congr fun a ha => (hL.mem a ha).symm).hashBucket_eq hk

theorem HashOp.wp_prog {bd : Bool} {s : Flat} {B : ℕ → Multiset Int} (op : HashOp)
    (hp : (s i).pins = 0) (hB : HashRep (s i) n B)
    (ho : op.Allowed (hashMapDirBlockSize * n) B) (hs : op.size < 2 ^ 15) :
    wp (flatSem bd) (procBody D H) (op.prog i) (fun r s' => ∃ B',
      op.Spec (hashMapDirBlockSize * n) B r B' ∧ HashDone s i n 0 B' s') s := by
  rw [← Function.update_eq_self i s]
  cases op with
  | insert size addr =>
    refine wp.seq (wp_hashTableInsert hB ho.1 hs (by rw [hp]; decide)) fun _ s' hs' => wp_pure ?_
    rw [hp] at hs'
    refine ⟨_, fun k _ => ?_, by rwa [Function.update_eq_self]⟩
    rw [Function.update_apply]
  | pop size addr =>
    refine wp.seq (wp_hashTablePop hB ho.1 hs ho.2 (by rw [hp]; decide)) fun _ s' hs' => wp_pure ?_
    rw [hp] at hs'
    refine ⟨_, fun k _ => ?_, by rwa [Function.update_eq_self]⟩
    rw [Function.update_apply]
  | popLowerBound size =>
    refine (wp_hashTablePopLowerBound hB ho hs (by rw [hp]; decide)).mono fun r s' hr => ?_
    rw [hp] at hr
    rcases hr with ⟨j, h1, h2, h3, h4, h5⟩ | ⟨rfl, h1, h2⟩
    · refine ⟨_, Or.inr ⟨j, h2, h1, fun k hk hs => h3 k hs hk, h4, fun k _ => ?_⟩,
        by rwa [Function.update_eq_self]⟩
      rw [Function.update_apply]
    · exact ⟨B, Or.inl ⟨rfl, fun k _ hs => h1 k hs, fun _ _ => rfl⟩, by rwa [Function.update_eq_self]⟩

theorem HashOp.Allowed.congr {max : ℕ} {B B' : ℕ → Multiset Int} {op : HashOp}
    (h : op.Allowed max B) (e : ∀ k < max, B k = B' k) : op.Allowed max B' := by
  cases op with
  | insert size addr => exact ⟨h.1, fun k hk => e k hk ▸ h.2 k hk⟩
  | pop size addr => exact ⟨h.1, e size h.1 ▸ h.2⟩
  | popLowerBound size => exact h

/-- The specification looks at the buckets below `max` only. -/
theorem HashOp.Spec.congr {max : ℕ} {B₁ B₂ B₁' B₂' : ℕ → Multiset Int} {op : HashOp} {r : Int}
    (h : op.Spec max B₁ r B₁') (ho : op.Allowed max B₂) (e : ∀ k < max, B₁ k = B₂ k)
    (e' : ∀ k < max, B₁' k = B₂' k) : op.Spec max B₂ r B₂' := by
  cases op with
  | insert size addr =>
    intro k hk
    rw [← e' k hk, h k hk, e k hk, e size ho.1]
  | pop size addr =>
    intro k hk
    rw [← e' k hk, h k hk, e k hk, e size ho.1]
  | popLowerBound size =>
    rcases h with ⟨h1, h2, h3⟩ | ⟨j, hj, h1, h2, h3, h4⟩
    · refine Or.inl ⟨h1, fun k hk hs => (e k hk).symm.trans (h2 k hk hs), fun k hk => ?_⟩
      rw [← e' k hk, h3 k hk, e k hk]
    · refine Or.inr ⟨j, hj, h1, fun k hk hs => (e k (hk.trans hj)).symm.trans (h2 k hk hs),
        e j hj ▸ h3, fun k hk => ?_⟩
      rw [← e' k hk, h4 k hk, e k hk, e j hj]

theorem HashHeld.step {B : ℕ → Multiset Int} {s : Flat} (h : HashHeld n B s t i) {op : HashOp}
    (ho : op.Allowed (hashMapDirBlockSize * n) (t i).bucket) (hsz : op.size < 2 ^ 15) :
    ∃ r t' B' s', Returns machineSem (procBody D H) (op.prog i) t r t' ∧
      op.Spec (hashMapDirBlockSize * n) B r B' ∧ HashHeld n B' s' t' i ∧ ∀ j, j ≠ i → s' j = s j := by
  have ho' := ho.congr fun k hk => h.bucket_eq hk
  obtain ⟨r, s', t', hr, hs', B', hspec, f', rfl, hp', hB'⟩ := (HashOp.wp_prog op h.2.1
    h.2.2 ho' hsz).simulated machine_simulates h.1
  exact ⟨r, t', B', _, hr, hspec, ⟨hs', by simpa using hp', by simpa using hB'⟩,
    fun j hj => Function.update_of_ne hj ..⟩

theorem hashMachine_held (i : PoolId) (hn : n < 2 ^ 24) :
    ∃ s, HashHeld n (fun _ => 0) s (hashMachine i n) i ∧ ∀ j, j ≠ i → (s j).pins = 0 :=
  ⟨Function.update (fun _ => FlatPool.ofFile (openFile none).2) i
      (FlatPool.ofFile (hashTableInit none n).file),
    ⟨Holds.update (fun _ => cached_init le_rfl) (cached_hashTableInit hn), by simp [FlatPool.ofFile],
      by simpa using hashRep_init hn⟩, fun j hj => by rw [Function.update_of_ne hj]; rfl⟩

theorem HashReach.held (hn : n < 2 ^ 24) (ht : HashReach D H i n t) :
    ∃ B s, HashHeld n B s t i ∧ ∀ j, j ≠ i → (s j).pins = 0 := by
  induction ht with
  | init => exact ⟨_, hashMachine_held i hn⟩
  | step ht ho hsz hr ih =>
    obtain ⟨B, s, h, hp⟩ := ih
    obtain ⟨r', t'', B', s', hr', -, h', hj⟩ := h.step ho hsz
    obtain ⟨-, rfl⟩ := hr.unique hr'
    exact ⟨B', s', h', fun j hji => by rw [hj j hji, hp j hji]⟩

/-- **The free-space map refines a multimap.** For every number of directory pages with addresses of
type `int`, and every size that a `short` holds, an operation within its contract returns, from
every state reached, and does to the buckets what it should and nothing else. -/
theorem hashTable_refines_multimap (hn : n < 2 ^ 24) (ht : HashReach D H i n t) {op : HashOp}
    (ho : op.Allowed (hashMapDirBlockSize * n) (t i).bucket) (hs : op.size < 2 ^ 15) :
    ∃ r t', Returns machineSem (procBody D H) (op.prog i) t r t' ∧
      op.Spec (hashMapDirBlockSize * n) (t i).bucket r (t' i).bucket := by
  obtain ⟨B, s, h, -⟩ := ht.held hn
  obtain ⟨r, t', B', s', hr, hspec, h', -⟩ := h.step (D := D) (H := H) ho hs
  exact ⟨r, t', hr, hspec.congr ho (fun k hk => (h.bucket_eq hk).symm)
    fun k hk => (h'.bucket_eq hk).symm⟩

/-- Fifteen insertions into bucket `3`: its chain has two pages. -/
def fillOps : List HashOp := (List.range 15).map fun k => .insert 3 (128 * k)

/-- The last of fifteen entries is removed from the second page of its chain. -/
theorem hashTable_refines_multimap_pop : ∃ t r t',
    hashRun degree storeHandlers .recFsm 1 20 fillOps (hashMachine .recFsm 1) = some t ∧
    Returns machineSem (procBody degree storeHandlers) ((HashOp.pop 3 1792).prog .recFsm) t r t' ∧
    (HashOp.pop 3 1792).Spec 16 (t .recFsm).bucket r (t' .recFsm).bucket := by
  obtain ⟨t₂, h₂⟩ := Option.isSome_iff_exists.mp (by decide +kernel :
    ((hashRun degree storeHandlers .recFsm 1 20 fillOps (hashMachine .recFsm 1)).bind
      (hashRun degree storeHandlers .recFsm 1 20 [.pop 3 1792])).isSome = true)
  obtain ⟨t, ht, hpop⟩ := Option.bind_eq_some_iff.mp h₂
  obtain ⟨ho, hs⟩ := allowed_of_hashRun hpop
  obtain ⟨r, t', h⟩ := hashTable_refines_multimap (by decide) (HashReach.init.run ht) ho hs
  exact ⟨t, r, t', ht, h⟩

/-- **A size that is no `short`.** With `4097` directory pages, an entry inserted under `65536` is
found under `0`. -/
theorem not_refines_multimap_wide :
    let op := HashOp.insert 65536 256
    op.Allowed (hashMapDirBlockSize * 4097) ((hashMachine .recFsm 4097) .recFsm).bucket ∧
    ∀ r t', Returns machineSem (procBody degree storeHandlers) (op.prog .recFsm)
        (hashMachine .recFsm 4097) r t' →
      ¬ op.Spec (hashMapDirBlockSize * 4097) ((hashMachine .recFsm 4097) .recFsm).bucket r
        (t' .recFsm).bucket := by
  obtain ⟨s, hs, -⟩ := hashMachine_held .recFsm (n := 4097) (by decide)
  refine ⟨⟨by decide, fun k hk => by rw [hs.bucket_eq hk]; exact Multiset.notMem_zero _⟩,
    fun r t' hr hspec => ?_⟩
  -- the program is that of the insertion under `0`
  obtain ⟨r', t'', B', s', hr', hspec', hs', -⟩ := hs.step (D := degree) (H := storeHandlers)
    (show (HashOp.insert 0 256).Allowed _ _ from
      ⟨by decide, fun k hk => by rw [hs.bucket_eq hk]; exact Multiset.notMem_zero _⟩) (by decide)
  obtain ⟨-, rfl⟩ := Returns.unique (p := (HashOp.insert 0 256).prog .recFsm) hr hr'
  have h := hspec 65536 (by decide)
  rw [if_pos rfl, hs'.bucket_eq (by decide), hspec' 65536 (by decide), if_neg (by decide)] at h
  exact Multiset.zero_ne_cons h

end MyJQL
