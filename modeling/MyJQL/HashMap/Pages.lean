import MyJQL.HashMap.Multimap
import MyJQL.Storage.Array

/-!
# The pages of a free-space map

* `Walk mem a l`: following `next` from `a` visits the pages `l` and ends at `-1`;
* `Accounted n mem len`: every page after the directory lies on one chain or on the free list;
* **`hashTable_pages`**: in every state reached the pages are accounted for, and every operation
  passes the checks: its file grows only when the free list is empty;
* **`hashTable_on_array`**: whatever the pool has cached, every operation does what it does on a
  plain array of pages.
-/

set_option linter.unusedSimpArgs false

namespace MyJQL

/-- Following `next` from `a` visits the pages `l` and ends at `-1`. -/
def Walk (mem : Int → Page) : Int → List Int → Prop
  | a, [] => a = -1
  | a, x :: l => a = x ∧ ∃ b, mem x = .hashBlock b ∧ Walk mem b.next l

/-- The entry of bucket `k` in the directory. -/
def dirEntry (mem : Int → Page) (k : ℕ) : Int :=
  (mem (dirAddr k)).toHashDir.directory (k % hashMapDirBlockSize)

/-- **The pages after the directory**, up to `len`, lie on the chains of the buckets and on the free
list, each exactly once; chains and free list end at `-1`, and no page of a chain is empty or
overfull. -/
def Accounted (n : ℕ) (mem : Int → Page) (len : Int) : Prop :=
  ∃ (chain : ℕ → List Int) (free : List Int),
    (∀ k < hashMapDirBlockSize * n, Walk mem (dirEntry mem k) (chain k)) ∧
    Walk mem (mem 0).toHashCtrl.freeBlockHead free ∧
    (∀ k < hashMapDirBlockSize * n, ∀ a ∈ chain k,
      1 ≤ (mem a).toHashBlock.nItems ∧ (mem a).toHashBlock.nItems ≤ hashMapBlockSize) ∧
    ((List.range (hashMapDirBlockSize * n)).flatMap chain ++ free).Nodup ∧
    ∀ a, a ∈ (List.range (hashMapDirBlockSize * n)).flatMap chain ++ free ↔ IsChainPage n len a

section Walks

variable {mem : Int → Page}

theorem Seg.walk {c : List (Int × List Int)} (h : Seg mem c (-1)) :
    Walk mem (link c (-1)) (c.map Prod.fst) := by
  induction c with
  | nil => rfl
  | cons p c ih =>
    obtain ⟨⟨b, hb, hn, -⟩, hc⟩ := h
    exact ⟨rfl, b, hb, hn ▸ ih hc⟩

theorem FreeSeg.walk {l : List Int} (h : FreeSeg mem l) : Walk mem (l.headD (-1)) l := by
  induction l with
  | nil => rfl
  | cons x l ih =>
    obtain ⟨⟨b, hb, hn⟩, hl⟩ := h
    exact ⟨rfl, b, hb, hn ▸ ih hl⟩

theorem Seg.items {c : List (Int × List Int)} {e : Int} (h : Seg mem c e) :
    ∀ p ∈ c, ∃ b, mem p.1 = .hashBlock b ∧ b.items = p.2 := by
  induction c with
  | nil => exact fun _ hp => (List.not_mem_nil hp).elim
  | cons q c ih =>
    intro p hp
    obtain ⟨⟨b, hb, -, hi⟩, hc⟩ := h
    rcases List.mem_cons.mp hp with rfl | hp
    · exact ⟨b, hb, hi⟩
    · exact ih hc p hp

end Walks

/-- **A represented map accounts for its pages.** -/
theorem HMap.Rep.accounted {M : HMap} {n : ℕ} {mem : Int → Page} {len : Int}
    (h : M.Rep n mem len) : Accounted n mem len := by
  have hmem : ∀ a, a ∈ (List.range (hashMapDirBlockSize * n)).flatMap M.pages ↔
      IsChainPage n len a ∧ M.home a ≠ none := fun a => by
    rw [List.mem_flatMap]
    constructor
    · rintro ⟨k, -, hk⟩
      obtain ⟨h1, h2⟩ := (h.mem_pages a k).mp hk
      exact ⟨h1, by rw [h2]; exact Option.some_ne_none k⟩
    · rintro ⟨h1, h2⟩
      obtain ⟨k, hk⟩ := Option.ne_none_iff_exists'.mp h2
      have ha := (h.mem_pages a k).mpr ⟨h1, hk⟩
      refine ⟨k, List.mem_range.mpr ?_, ha⟩
      by_contra hn
      rw [HMap.pages, h.out k (not_lt.mp hn)] at ha
      exact List.not_mem_nil ha
  refine ⟨M.pages, M.free, fun k hk => ?_, ?_, fun k hk a ha => ?_, ?_, fun a => ?_⟩
  · obtain ⟨⟨dir, hd, he⟩, hs⟩ := h.chain k hk
    rw [dirEntry, hd]
    exact he ▸ hs.walk
  · rw [h.ctrl]
    exact h.free.walk
  · obtain ⟨p, hp, rfl⟩ := List.mem_map.mp ha
    obtain ⟨b, hb, hi⟩ := (h.chain k hk).2.items p hp
    have hc := h.count k p hp
    rw [← hi, HashMapBlock.length_items] at hc
    rw [hb]
    exact ⟨Nat.one_le_iff_ne_zero.mpr hc.1, hc.2⟩
  · refine List.nodup_append.mpr ⟨List.nodup_flatMap.mpr ⟨fun k _ => h.nodup k, ?_⟩, h.freeNodup,
      fun a ha b hb e => ?_⟩
    · refine List.nodup_range.imp fun {j k} hne a ha ha' => hne ?_
      exact Option.some.inj (((h.mem_pages a j).mp ha).2.symm.trans ((h.mem_pages a k).mp ha').2)
    · subst e
      exact ((hmem a).mp ha).2 ((h.mem_free a).mp hb).2
  · rw [List.mem_append, hmem, h.mem_free, ← and_or_left]
    exact and_iff_left (ne_or_eq _ _)

variable {D : ℕ} {H : Handlers} {i : PoolId} {n : ℕ} {t : Machine}

/-- **Page accounting of the free-space map.** In every state reached every page after the directory
lies on one chain or on the free list, and the next operation within its contract passes every
check: its file grows only when the free list is empty. -/
theorem hashTable_pages (hn : n < 2 ^ 24) (ht : HashReach D H i n t) :
    Accounted n (t i).pool.view (t i).pool.file.length ∧
    ∀ op : HashOp, op.Allowed (hashMapDirBlockSize * n) (t i).bucket → op.size < 2 ^ 15 →
      ∃ r t', Returns checkedSem (procBody D H) (op.prog i) t r t' ∧
        Returns machineSem (procBody D H) (op.prog i) t r t' := by
  obtain ⟨B, s, h, -⟩ := ht.held hn
  refine ⟨?_, fun op ho hsz => ?_⟩
  · obtain ⟨hs, -, M, hM, -⟩ := h
    obtain ⟨L, hL⟩ := hs i
    rw [hL.length] at hM
    exact (hM.congr fun a ha => (hL.mem a ha).symm).accounted
  · have ho' := ho.congr fun k hk => h.bucket_eq hk
    obtain ⟨r, -, t', hr, -, -⟩ :=
      (HashOp.wp_prog op h.2.1 h.2.2 ho' hsz).simulated checked_simulates h.1
    exact ⟨r, t', hr, hr.unchecked⟩

/-- The bytes of the file, the entries of its two chain pages and the head of the free list. -/
def Mapped.pageUse (m : Mapped) : List Int :=
  [m.pool.file.length, (m.pool.view 256).toHashBlock.nItems, (m.pool.view 384).toHashBlock.nItems,
    (m.pool.view 0).toHashCtrl.freeBlockHead]

/-- The pages after the directory are accounted for. -/
def Mapped.Accounted (m : Mapped) (n : ℕ) : Prop := MyJQL.Accounted n m.pool.view m.pool.file.length

/-- A full page and one with a single entry; the second emptied, and on the free list; the second
recycled for another bucket. -/
theorem hashTable_pages_recycled : ∃ t₁ t₂ t₃,
    hashRun degree storeHandlers .recFsm 1 20 fillOps (hashMachine .recFsm 1) = some t₁ ∧
    hashRun degree storeHandlers .recFsm 1 20 [.pop 3 1792] t₁ = some t₂ ∧
    hashRun degree storeHandlers .recFsm 1 20 [.insert 5 1792] t₂ = some t₃ ∧
    ((t₁ .recFsm).pageUse = [512, 14, 1, -1] ∧ (t₁ .recFsm).Accounted 1) ∧
    ((t₂ .recFsm).pageUse = [512, 14, 0, 384] ∧ (t₂ .recFsm).Accounted 1) ∧
    ((t₃ .recFsm).pageUse = [512, 14, 1, -1] ∧ (t₃ .recFsm).Accounted 1) ∧
    ∃ r t', Returns checkedSem (procBody degree storeHandlers) ((HashOp.insert 5 1792).prog .recFsm)
      t₂ r t' := by
  have h : ((hashRun degree storeHandlers .recFsm 1 20 fillOps (hashMachine .recFsm 1)).bind fun t₁ =>
      (hashRun degree storeHandlers .recFsm 1 20 [.pop 3 1792] t₁).bind fun t₂ =>
      (hashRun degree storeHandlers .recFsm 1 20 [.insert 5 1792] t₂).bind fun t₃ =>
      some [(t₁ .recFsm).pageUse, (t₂ .recFsm).pageUse, (t₃ .recFsm).pageUse]) =
      some [[512, 14, 1, -1], [512, 14, 0, 384], [512, 14, 1, -1]] := by decide +kernel
  obtain ⟨t₁, h₁, h⟩ := Option.bind_eq_some_iff.mp h
  obtain ⟨t₂, h₂, h⟩ := Option.bind_eq_some_iff.mp h
  obtain ⟨t₃, h₃, h⟩ := Option.bind_eq_some_iff.mp h
  obtain ⟨e₁, e⟩ := List.cons.inj (Option.some.inj h)
  obtain ⟨e₂, e⟩ := List.cons.inj e
  obtain ⟨e₃, -⟩ := List.cons.inj e
  have r₁ : HashReach degree storeHandlers .recFsm 1 t₁ := HashReach.init.run h₁
  have r₂ := r₁.run h₂
  obtain ⟨ho, hs⟩ := allowed_of_hashRun h₃
  obtain ⟨r, t', hr, -⟩ := (hashTable_pages (by decide) r₂).2 _ ho hs
  exact ⟨t₁, t₂, t₃, h₁, h₂, h₃, ⟨e₁, (hashTable_pages (by decide) r₁).1⟩,
    ⟨e₂, (hashTable_pages (by decide) r₂).1⟩, ⟨e₃, (hashTable_pages (by decide) (r₂.run h₃)).1⟩,
    r, t', hr⟩

/-- **Free-space maps run on sixteen frames as on an array.** With no page pinned and any pages
cached, an operation on a map with chains of any length returns what it returns on plain arrays of
pages, and leaves the same pages. -/
theorem hashTable_on_array {M : HMap} (ht : ∀ j, Idle (t j))
    (hM : M.Rep n (t i).pool.view (t i).pool.file.length) (op : HashOp)
    (ho : op.Allowed (hashMapDirBlockSize * n) M.bucket) (hs : op.size < 2 ^ 15) :
    ∃ r t' u', Returns machineSem (procBody D H) (op.prog i) t r t' ∧
      Returns arraySem (procBody D H) (op.prog i) (fun j => (t j).array) r u' ∧ SamePages t' u' :=
  wp.on_array ht (HashOp.wp_prog (i := i) (s := fun j => (t j).idle) op rfl ⟨M, hM, rfl⟩ ho hs)

theorem HashReach.idle (hn : n < 2 ^ 24) (ht : HashReach D H i n t) (j : PoolId) : Idle (t j) := by
  obtain ⟨B, s, h, hp⟩ := ht.held hn
  by_cases e : j = i
  · exact e ▸ (h.1 i).idle_of_pins h.2.1
  · exact (h.1 j).idle_of_pins (hp j e)

theorem HashReach.rep (hn : n < 2 ^ 24) (ht : HashReach D H i n t) :
    ∃ M : HMap, M.Rep n (t i).pool.view (t i).pool.file.length ∧
      ∀ k < hashMapDirBlockSize * n, (t i).bucket k = M.bucket k := by
  obtain ⟨B, s, h, -⟩ := ht.held hn
  have e := fun k hk => h.bucket_eq (k := k) hk
  obtain ⟨hs, -, M, hM, rfl⟩ := h
  obtain ⟨L, hL⟩ := hs i
  rw [hL.length] at hM
  exact ⟨M, hM.congr fun a ha => (hL.mem a ha).symm, e⟩

/-- The last of fifteen entries is removed from the second page of its chain, whose predecessor has
been released. -/
theorem hashTable_on_array_pop : ∃ t r t' u',
    hashRun degree storeHandlers .recFsm 1 20 fillOps (hashMachine .recFsm 1) = some t ∧
    Returns machineSem (procBody degree storeHandlers) ((HashOp.pop 3 1792).prog .recFsm) t r t' ∧
    Returns arraySem (procBody degree storeHandlers) ((HashOp.pop 3 1792).prog .recFsm)
      (fun j => (t j).array) r u' ∧ SamePages t' u' := by
  obtain ⟨t₂, h₂⟩ := Option.isSome_iff_exists.mp (by decide +kernel :
    ((hashRun degree storeHandlers .recFsm 1 20 fillOps (hashMachine .recFsm 1)).bind
      (hashRun degree storeHandlers .recFsm 1 20 [.pop 3 1792])).isSome = true)
  obtain ⟨t, ht, hpop⟩ := Option.bind_eq_some_iff.mp h₂
  obtain ⟨ho, hs⟩ := allowed_of_hashRun hpop
  have hreach : HashReach degree storeHandlers .recFsm 1 t := HashReach.init.run ht
  obtain ⟨M, hM, hB⟩ := hreach.rep (by decide)
  obtain ⟨r, t', u', h⟩ := hashTable_on_array (hreach.idle (by decide)) hM _ (ho.congr hB) hs
  exact ⟨t, r, t', u', ht, h⟩

end MyJQL
