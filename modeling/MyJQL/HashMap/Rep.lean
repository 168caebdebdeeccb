import MyJQL.Model.HashMap

/-!
# What the pages of a free-space map represent

* `dirPage_zero`, `dirPage_ofNat`, `dirSlot_ofNat`: where the directory entry of a size is, for the
  sizes that a `short` holds;
* `HashMapBlock.items`, and what `push`, `dropLast` and `remove` do to it;
* `Seg`, `FreeSeg`: linked pages; `Before`: a bucket's chain up to some page, with the directory
  entry that leads to it;
* `HMap`: the chains and the free list of a map, and the list that each page is on; **`HMap.Rep`**:
  the pages of a file represent it. Every page after the directory is on exactly one list;
* `Rep.update`: changing one bucket and the free list; from it, **`Rep.setItems`**, `Rep.addFresh`,
  `Rep.addFree` and **`Rep.unlink`**: changing the entries of a page, adding a page at the end of a
  chain, and moving a page to the free list. `LinkAt` is where the link to a page is stored.
-/

set_option linter.unusedSimpArgs false

namespace MyJQL

/-! ## Sizes and directory pages -/

/-- The address of the directory page of bucket `k`. -/
def dirAddr (k : ℕ) : Int := (k / hashMapDirBlockSize + 1 : ℕ) * pageSize

theorem toNat_sizeT {k : ℕ} (hk : k < 2 ^ 15) : (sizeT (BitVec.ofNat 16 k)).toNat = k := by
  have hmsb : (BitVec.ofNat 16 k).msb = false := by
    rw [BitVec.msb_eq_decide, BitVec.toNat_ofNat]
    simp
    omega
  rw [sizeT, BitVec.signExtend_eq_setWidth_of_msb_false hmsb, BitVec.toNat_setWidth,
    BitVec.toNat_ofNat]
  omega

theorem toNat_sizeT_div {k : ℕ} (hk : k < 2 ^ 15) :
    (sizeT (BitVec.ofNat 16 k) / 16#64).toNat = k / hashMapDirBlockSize := by
  rw [BitVec.toNat_udiv, toNat_sizeT hk]
  rfl

theorem dirSlot_ofNat {k : ℕ} (hk : k < 2 ^ 15) :
    dirSlot (BitVec.ofNat 16 k) = k % hashMapDirBlockSize := by
  rw [dirSlot, BitVec.toNat_umod, toNat_sizeT hk]
  rfl

theorem dirPage_ofNat {k i : ℕ} (hk : k < 2 ^ 15) (hi : i < 2 ^ 32) :
    dirPage (BitVec.ofNat 16 k) i = (k / hashMapDirBlockSize + 1 + i : ℕ) * pageSize := by
  have h : ((sizeT (BitVec.ofNat 16 k) / 16#64 + 1#64 + i) * 128#64).toNat =
      (k / hashMapDirBlockSize + 1 + i) * 128 := by
    rw [BitVec.toNat_mul, BitVec.toNat_add, BitVec.toNat_add, toNat_sizeT_div hk]
    simp only [hashMapDirBlockSize, BitVec.natCast_eq_ofNat, BitVec.toNat_ofNat]
    omega
  rw [dirPage, BitVec.toInt_eq_toNat_of_lt (by rw [h]; simp only [hashMapDirBlockSize]; omega), h]
  simp [pageSize]

theorem dirPage_zero {k : ℕ} (hk : k < 2 ^ 15) : dirPage (BitVec.ofNat 16 k) 0 = dirAddr k :=
  dirPage_ofNat hk (by decide)

theorem toNat_dirBlocks {n k : ℕ} (hk : k < 2 ^ 15) (hn : n < 2 ^ 24) (hkn : k < hashMapDirBlockSize * n) :
    (BitVec.ofInt 64 (n : Int) - sizeT (BitVec.ofNat 16 k) / 16#64).toNat = n - k / hashMapDirBlockSize := by
  have hd : k / hashMapDirBlockSize ≤ n := by simp only [hashMapDirBlockSize] at hkn ⊢; omega
  rw [BitVec.ofInt_natCast, BitVec.toNat_sub, toNat_sizeT_div hk, BitVec.toNat_ofNat]
  simp only [hashMapDirBlockSize] at hd ⊢
  omega

/-! ## The items of a page -/

namespace HashMapBlock

variable (b : HashMapBlock)

/-- The entries of a page. -/
def items : List Int := tabulate b.table b.nItems

@[simp] theorem length_items : b.items.length = b.nItems := length_tabulate _ _

theorem items_singleton (addr : Int) : (singleton addr).items = [addr] := rfl

theorem items_reuse (addr : Int) : (b.reuse addr).items = [addr] := by
  simp [items, reuse, tabulate]

theorem items_push (addr : Int) : (b.push addr).items = b.items ++ [addr] := by
  simp only [items, push, tabulate, List.range_succ, List.map_append, List.map_cons, List.map_nil,
    Function.update_self]
  congr 1
  exact List.map_congr_left fun i hi => Function.update_of_ne (List.mem_range.mp hi).ne _ _

theorem items_dropLast : b.dropLast.items = b.items.dropLast := by
  refine (tabulate_eq_iff _ _ _).mpr ⟨by simp [dropLast, items], fun i hi => ?_⟩
  simp only [List.length_dropLast, length_items] at hi
  simp only [dropLast, items, List.getElem_dropLast, getElem_tabulate]
  exact Function.update_of_ne hi.ne _ _

theorem items_remove {i : ℕ} (hi : i < b.nItems) : (b.remove i).items = b.items.eraseIdx i := by
  refine (tabulate_eq_iff _ _ _).mpr ⟨by simp [remove, List.length_eraseIdx, hi], fun j hj => ?_⟩
  rw [List.length_eraseIdx, length_items, if_pos hi] at hj
  simp only [remove, items, List.getElem_eraseIdx, getElem_tabulate, forUp_shift _ _ 1 Nat.one_pos]
  rw [Function.update_of_ne hj.ne]
  split_ifs <;> first | rfl | omega

@[simp] theorem next_push (addr : Int) : (b.push addr).next = b.next := rfl
@[simp] theorem next_dropLast : b.dropLast.next = b.next := rfl
@[simp] theorem next_remove (i : ℕ) : (b.remove i).next = b.next := rfl
@[simp] theorem nItems_dropLast : b.dropLast.nItems = b.nItems - 1 := rfl
@[simp] theorem nItems_remove (i : ℕ) : (b.remove i).nItems = b.nItems - 1 := rfl

variable {b}

theorem indexOf_some {addr : Int} {i : ℕ} (h : b.indexOf addr = some i) :
    ∃ hi : i < b.items.length, b.items[i] = addr := by
  have h1 := List.mem_range.mp (List.mem_of_find?_eq_some h)
  exact ⟨by simpa using h1, by simpa [items] using List.find?_some h⟩

theorem indexOf_none {addr : Int} (h : b.indexOf addr = none) : addr ∉ b.items := by
  intro hm
  obtain ⟨i, hi, he⟩ := List.mem_map.mp hm
  simpa [he] using List.find?_eq_none.mp h i hi

end HashMapBlock

/-! ## Chains -/

/-- The address that leads to a chain ending in the link `e`. -/
def link (c : List (Int × List Int)) (e : Int) : Int := (c.map Prod.fst).headD e

/-- The pages `c` are linked, up to the link `e`. -/
def Seg (mem : Int → Page) : List (Int × List Int) → Int → Prop
  | [], _ => True
  | p :: c, e =>
    (∃ b, mem p.1 = .hashBlock b ∧ b.next = link c e ∧ b.items = p.2) ∧ Seg mem c e

/-- The pages of a free list. -/
def FreeSeg (mem : Int → Page) : List Int → Prop
  | [] => True
  | a :: l => (∃ b, mem a = .hashBlock b ∧ b.next = l.headD (-1)) ∧ FreeSeg mem l

/-- The directory entry of bucket `k` leads through the pages `c` to the link `e`. -/
def Before (mem : Int → Page) (k : ℕ) (c : List (Int × List Int)) (e : Int) : Prop :=
  (∃ dir, mem (dirAddr k) = .hashDir dir ∧ dir.directory (k % hashMapDirBlockSize) = link c e) ∧
    Seg mem c e

section Chains

variable {mem mem' : Int → Page} {c c₁ c₂ : List (Int × List Int)} {e e' : Int} {k : ℕ}
  {p : Int × List Int} {l : List Int}

@[simp] theorem link_nil (e : Int) : link [] e = e := rfl
@[simp] theorem link_cons (p : Int × List Int) (c : List (Int × List Int)) (e : Int) :
    link (p :: c) e = p.1 := rfl

theorem link_append (c₁ c₂ : List (Int × List Int)) (e : Int) :
    link (c₁ ++ c₂) e = link c₁ (link c₂ e) := by
  cases c₁ <;> rfl

theorem seg_append : Seg mem (c₁ ++ c₂) e ↔ Seg mem c₁ (link c₂ e) ∧ Seg mem c₂ e := by
  induction c₁ with
  | nil => simp [Seg]
  | cons p c ih => simp only [List.cons_append, Seg, ih, link_append, and_assoc]

theorem Seg.frame (h : Seg mem c e) (hm : ∀ a ∈ c.map Prod.fst, mem' a = mem a) :
    Seg mem' c e := by
  induction c with
  | nil => trivial
  | cons p c ih =>
    obtain ⟨hb, hc⟩ := h
    refine ⟨?_, ih hc fun a ha => hm a (List.mem_cons_of_mem _ ha)⟩
    rwa [hm p.1 List.mem_cons_self]

theorem FreeSeg.frame (h : FreeSeg mem l) (hm : ∀ a ∈ l, mem' a = mem a) : FreeSeg mem' l := by
  induction l with
  | nil => trivial
  | cons a l ih =>
    obtain ⟨hb, hc⟩ := h
    refine ⟨?_, ih hc fun x hx => hm x (List.mem_cons_of_mem _ hx)⟩
    rwa [hm a List.mem_cons_self]

theorem before_append : Before mem k (c₁ ++ c₂) e ↔ Before mem k c₁ (link c₂ e) ∧ Seg mem c₂ e := by
  rw [Before, Before, seg_append, link_append, and_assoc]

theorem Before.frame (h : Before mem k c e)
    (hd : ∀ dir, mem (dirAddr k) = .hashDir dir → ∃ dir', mem' (dirAddr k) = .hashDir dir' ∧
      dir'.directory (k % hashMapDirBlockSize) = dir.directory (k % hashMapDirBlockSize))
    (hm : ∀ a ∈ c.map Prod.fst, mem' a = mem a) : Before mem' k c e := by
  obtain ⟨⟨dir, h1, h2⟩, h3⟩ := h
  obtain ⟨dir', h4, h5⟩ := hd dir h1
  exact ⟨⟨dir', h4, h5.trans h2⟩, h3.frame hm⟩

theorem before_dir {dir : HashMapDirectoryBlock}
    (hm : mem (dirAddr k) = .hashDir (dir.set (k % hashMapDirBlockSize) e)) :
    Before mem k [] e :=
  ⟨⟨_, hm, Function.update_self ..⟩, trivial⟩

theorem Before.setNext {b : HashMapBlock} (h : Before mem k (c ++ [p]) e)
    (hb : mem' p.1 = .hashBlock b) (hn : b.next = e') (hi : b.items = p.2)
    (hd : mem' (dirAddr k) = mem (dirAddr k)) (hm : ∀ a ∈ c.map Prod.fst, mem' a = mem a) :
    Before mem' k (c ++ [p]) e' := by
  obtain ⟨h1, -⟩ := before_append.mp h
  refine before_append.mpr ⟨h1.frame (fun dir hdir => ⟨dir, hd.trans hdir, rfl⟩) hm, ?_⟩
  exact ⟨⟨b, hb, hn, hi⟩, trivial⟩

end Chains

/-! ## Maps -/

/-- The chains and the free list of a map, and the list each page is on: `some k` for bucket `k`,
`none` for the free list. -/
structure HMap where
  chains : ℕ → List (Int × List Int)
  free : List Int
  home : Int → Option ℕ

/-- The address of a page after the directory. -/
def IsChainPage (n : ℕ) (len a : Int) : Prop :=
  (n + 1 : ℕ) * pageSize ≤ a ∧ a < len ∧ a % pageSize = 0

namespace HMap

/-- The pages of a bucket. -/
def pages (M : HMap) (k : ℕ) : List Int := (M.chains k).map Prod.fst

/-- The contents of a bucket. -/
def bucket (M : HMap) (k : ℕ) : Multiset Int := (M.chains k).flatMap Prod.snd

/-- The pages `mem`, up to `len`, represent the map with `n` directory pages, whose addresses are
values of type `int`. -/
structure Rep (M : HMap) (n : ℕ) (mem : Int → Page) (len : Int) : Prop where
  ctrl : mem 0 = .hashCtrl ⟨M.free.headD (-1), n, n * hashMapDirBlockSize⟩
  chain : ∀ k < hashMapDirBlockSize * n, Before mem k (M.chains k) (-1)
  out : ∀ k, hashMapDirBlockSize * n ≤ k → M.chains k = []
  count : ∀ k, ∀ p ∈ M.chains k, p.2.length ≠ 0 ∧ p.2.length ≤ hashMapBlockSize
  free : FreeSeg mem M.free
  nodup : ∀ k, (M.pages k).Nodup
  freeNodup : M.free.Nodup
  mem_pages : ∀ a k, a ∈ M.pages k ↔ IsChainPage n len a ∧ M.home a = some k
  mem_free : ∀ a, a ∈ M.free ↔ IsChainPage n len a ∧ M.home a = none
  length : (n + 1 : ℕ) * pageSize ≤ len ∧ len % pageSize = 0
  small : n < 2 ^ 24

variable {M : HMap} {n k : ℕ} {mem mem' : Int → Page} {len len' : Int}

theorem dirAddr_lt (hk : k < hashMapDirBlockSize * n) : dirAddr k < (n + 1 : ℕ) * pageSize := by
  have : k / hashMapDirBlockSize < n := Nat.div_lt_of_lt_mul hk
  simp only [dirAddr, pageSize]
  omega

theorem dirAddr_pos (k : ℕ) : 0 < dirAddr k :=
  Int.mul_pos (Int.natCast_pos.mpr (Nat.succ_pos _)) (by decide)

theorem dirAddr_ne_zero (k : ℕ) : dirAddr k ≠ 0 := (dirAddr_pos k).ne'

theorem Rep.dirAddr_valid (h : M.Rep n mem len) (hk : k < hashMapDirBlockSize * n) :
    0 ≤ dirAddr k ∧ dirAddr k < len ∧ dirAddr k % pageSize = 0 :=
  ⟨(dirAddr_pos k).le, (dirAddr_lt hk).trans_le h.length.1, Int.mul_emod_left _ _⟩

end HMap

theorem IsChainPage.ne_zero {n : ℕ} {len a : Int} (h : IsChainPage n len a) : a ≠ 0 := by
  rintro rfl
  have := h.1
  simp only [pageSize] at this
  omega

theorem IsChainPage.ne_dirAddr {n k : ℕ} {len a : Int} (h : IsChainPage n len a)
    (hk : k < hashMapDirBlockSize * n) : a ≠ dirAddr k :=
  ((HMap.dirAddr_lt hk).trans_le h.1).ne'

theorem IsChainPage.ne_null {n : ℕ} {len a : Int} (h : IsChainPage n len a) : a ≠ -1 := by
  rintro rfl
  have := h.1
  simp only [pageSize] at this
  omega

theorem IsChainPage.valid {n : ℕ} {len a : Int} (h : IsChainPage n len a) :
    0 ≤ a ∧ a < len ∧ a % pageSize = 0 := by
  refine ⟨?_, h.2⟩
  have := h.1
  simp only [pageSize] at this
  omega

namespace HMap

variable {M : HMap} {n k : ℕ} {mem mem' : Int → Page} {len len' : Int}
  {c c' : List (Int × List Int)} {p : Int × List Int}

theorem Rep.page (h : M.Rep n mem len) (hp : p ∈ M.chains k) : IsChainPage n len p.1 :=
  ((h.mem_pages _ _).mp (List.mem_map_of_mem hp)).1

theorem Rep.free_page (h : M.Rep n mem len) {a : Int} (ha : a ∈ M.free) : IsChainPage n len a :=
  ((h.mem_free _).mp ha).1

/-- **Changing bucket `k` and the free list**: the other chains and directory entries are kept. -/
theorem Rep.update (h : M.Rep n mem len) (hk : k < hashMapDirBlockSize * n) {free' : List Int}
    {home' : Int → Option ℕ}
    (hctrl : mem' 0 = .hashCtrl ⟨free'.headD (-1), n, n * hashMapDirBlockSize⟩)
    (hchain : Before mem' k c' (-1))
    (hdir : ∀ j < hashMapDirBlockSize * n, j ≠ k → ∀ dir, mem (dirAddr j) = .hashDir dir →
      ∃ dir', mem' (dirAddr j) = .hashDir dir' ∧
        dir'.directory (j % hashMapDirBlockSize) = dir.directory (j % hashMapDirBlockSize))
    (hkeep : ∀ j ≠ k, ∀ a, IsChainPage n len a → M.home a = some j → mem' a = mem a)
    (hcount : ∀ p ∈ c', p.2.length ≠ 0 ∧ p.2.length ≤ hashMapBlockSize)
    (hfree : FreeSeg mem' free') (hnodup : (c'.map Prod.fst).Nodup) (hfnodup : free'.Nodup)
    (hpages : ∀ a, a ∈ c'.map Prod.fst ↔ IsChainPage n len' a ∧ home' a = some k)
    (hmfree : ∀ a, a ∈ free' ↔ IsChainPage n len' a ∧ home' a = none)
    (hother : ∀ a, ∀ j ≠ k, IsChainPage n len' a ∧ home' a = some j ↔
      IsChainPage n len a ∧ M.home a = some j)
    (hlen : (n + 1 : ℕ) * pageSize ≤ len' ∧ len' % pageSize = 0) :
    Rep ⟨Function.update M.chains k c', free', home'⟩ n mem' len' where
  ctrl := hctrl
  chain j hj := by
    by_cases e : j = k
    · subst e; simpa using hchain
    · simp only [Function.update_of_ne e]
      refine (h.chain j hj).frame (hdir j hj e) fun a ha => ?_
      obtain ⟨h1, h2⟩ := (h.mem_pages a j).mp ha
      exact hkeep j e a h1 h2
  out j hj := by
    have e : j ≠ k := by omega
    simpa only [Function.update_of_ne e] using h.out j hj
  count j := by
    by_cases e : j = k
    · subst e; simpa using hcount
    · simpa only [Function.update_of_ne e] using h.count j
  free := hfree
  nodup j := by
    by_cases e : j = k
    · subst e; simpa [pages] using hnodup
    · simpa only [pages, Function.update_of_ne e] using h.nodup j
  freeNodup := hfnodup
  mem_pages a j := by
    by_cases e : j = k
    · subst e; simpa [pages] using hpages a
    · rw [hother a j e, ← h.mem_pages]
      simp only [pages, Function.update_of_ne e]
  mem_free := hmfree
  length := hlen
  small := h.small

/-! ## Changes -/

/-- The link after the pages `pre` of bucket `k` is stored in page `la`, which holds `pg v` when the
link is `v`. -/
inductive LinkAt (mem : Int → Page) (k : ℕ) :
    List (Int × List Int) → Int → (Int → Page) → Prop
  | dir {dir : HashMapDirectoryBlock} (hd : mem (dirAddr k) = .hashDir dir) :
      LinkAt mem k [] (dirAddr k) fun v => .hashDir (dir.set (k % hashMapDirBlockSize) v)
  | page {pre : List (Int × List Int)} {p : Int × List Int} {b : HashMapBlock}
      (hb : mem p.1 = .hashBlock b) :
      LinkAt mem k (pre ++ [p]) p.1 fun v => .hashBlock { b with next := v }

theorem LinkAt.addr {pre : List (Int × List Int)} {la : Int} {pg : Int → Page}
    (hl : LinkAt mem k pre la pg) : la = dirAddr k ∨ la ∈ pre.map Prod.fst := by
  cases hl with
  | dir => exact Or.inl rfl
  | page => exact Or.inr (by simp)

theorem LinkAt.before {pre : List (Int × List Int)} {la e v : Int} {pg : Int → Page}
    (hl : LinkAt mem k pre la pg) (h : Before mem k pre e) (hnd : (pre.map Prod.fst).Nodup)
    (hla : mem' la = pg v) (hd : la ≠ dirAddr k → mem' (dirAddr k) = mem (dirAddr k))
    (hm : ∀ a ∈ pre.map Prod.fst, a ≠ la → mem' a = mem a) (hk : ∀ p ∈ pre, p.1 ≠ dirAddr k) :
    Before mem' k pre v := by
  cases hl with
  | dir hdir => exact before_dir hla
  | @page pre p b hb =>
    obtain ⟨-, ⟨b', hb', -, hi⟩, -⟩ := before_append.mp h
    obtain rfl := Page.hashBlock.inj (hb.symm.trans hb')
    refine h.setNext hla rfl hi (hd (hk p (by simp))) fun a ha => hm a (by simp [ha]) ?_
    rintro rfl
    rw [List.map_append, List.nodup_append] at hnd
    exact hnd.2.2 _ ha _ (by simp) rfl

theorem LinkAt.dirs {pre : List (Int × List Int)} {la v : Int} {pg : Int → Page}
    (hl : LinkAt mem k pre la pg) {j : ℕ} (hj : j ≠ k) (e : dirAddr j = la)
    (hpre : ∀ p ∈ pre, p.1 ≠ dirAddr j) {dir : HashMapDirectoryBlock}
    (hd : mem (dirAddr j) = .hashDir dir) : ∃ dir', pg v = .hashDir dir' ∧
      dir'.directory (j % hashMapDirBlockSize) = dir.directory (j % hashMapDirBlockSize) := by
  cases hl with
  | dir hdir =>
    rw [e, hdir] at hd
    obtain rfl := Page.hashDir.inj hd
    refine ⟨_, rfl, Function.update_of_ne (fun h => hj ?_) _ _⟩
    -- equal pages and equal entries make equal sizes
    have h1 : j / hashMapDirBlockSize = k / hashMapDirBlockSize := by
      simp only [dirAddr, pageSize] at e
      omega
    have h2 := Nat.div_add_mod j hashMapDirBlockSize
    rw [h1, h, Nat.div_add_mod] at h2
    exact h2.symm
  | @page pre p b hb => exact absurd e.symm (hpre p (by simp))

/-- Page `x` moves to or from bucket `k`. -/
theorem Rep.relink (h : M.Rep n mem len) (hk : k < hashMapDirBlockSize * n)
    {pre suf suf' : List (Int × List Int)} {la x : Int} {pg : Int → Page} {free' : List Int}
    {o : Option ℕ} (hc : M.chains k = pre ++ suf) (hl : LinkAt mem k pre la pg)
    (hx0 : x ≠ 0) (hxd : ∀ j < hashMapDirBlockSize * n, x ≠ dirAddr j) (hxp : x ∉ pre.map Prod.fst)
    (hctrl : mem' 0 = .hashCtrl ⟨free'.headD (-1), n, n * hashMapDirBlockSize⟩)
    (hla : mem' la = pg (link suf' (-1)))
    (hkeep : ∀ a, a ≠ 0 → a ≠ la → a ≠ x → mem' a = mem a)
    (hseg : Seg mem' suf' (-1)) (hfree : FreeSeg mem' free')
    (hcount : ∀ p ∈ suf', p.2.length ≠ 0 ∧ p.2.length ≤ hashMapBlockSize)
    (hnodup : ((pre ++ suf').map Prod.fst).Nodup) (hfnodup : free'.Nodup)
    (hx : ∀ j ≠ k, ¬ (IsChainPage n len x ∧ M.home x = some j)) (ho : o = some k ∨ o = none)
    (hpages : ∀ a, a ∈ (pre ++ suf').map Prod.fst ↔
      IsChainPage n len' a ∧ Function.update M.home x o a = some k)
    (hmfree : ∀ a, a ∈ free' ↔ IsChainPage n len' a ∧ Function.update M.home x o a = none)
    (hlen' : ∀ a ≠ x, IsChainPage n len' a ↔ IsChainPage n len a)
    (hlen : (n + 1 : ℕ) * pageSize ≤ len' ∧ len' % pageSize = 0) :
    Rep ⟨Function.update M.chains k (pre ++ suf'), free', Function.update M.home x o⟩ n mem' len' := by
  have hpre : ∀ p ∈ pre, IsChainPage n len p.1 ∧ M.home p.1 = some k := fun p hp =>
    (h.mem_pages _ _).mp (List.mem_map_of_mem (hc ▸ List.mem_append_left _ hp))
  have hla0 : la ≠ 0 := by
    rcases hl.addr with rfl | hm
    · exact dirAddr_ne_zero k
    · obtain ⟨p, hp, rfl⟩ := List.mem_map.mp hm
      exact (hpre p hp).1.ne_zero
  have hkeepDir : ∀ j < hashMapDirBlockSize * n, dirAddr j ≠ la → mem' (dirAddr j) = mem (dirAddr j) :=
    fun j hj e => hkeep _ (dirAddr_ne_zero j) e (hxd j hj).symm
  refine h.update hk hctrl ?_ (fun j hjn hj dir hdir => ?_) (fun j hj a ha hh => ?_) (fun p hp => ?_)
    hfree hnodup hfnodup hpages hmfree (fun a j hj => ?_) hlen
  · refine before_append.mpr ⟨?_, hseg⟩
    refine hl.before (before_append.mp (hc ▸ h.chain k hk)).1 ?_ hla (fun e => ?_) (fun a ha e => ?_)
      fun p hp => (hpre p hp).1.ne_dirAddr hk
    · have := h.nodup k
      rw [pages, hc, List.map_append] at this
      exact (List.nodup_append.mp this).1
    · exact hkeepDir k hk e.symm
    · obtain ⟨p, hp, rfl⟩ := List.mem_map.mp ha
      exact hkeep _ (hpre p hp).1.ne_zero e fun e' => hxp (e' ▸ ha)
  · by_cases e : dirAddr j = la
    · rw [e, hla]
      exact hl.dirs hj e (fun p hp => (hpre p hp).1.ne_dirAddr hjn) hdir
    · exact ⟨dir, (hkeepDir j hjn e).trans hdir, rfl⟩
  · refine hkeep a ha.ne_zero ?_ ?_
    · rintro rfl
      rcases hl.addr with e | hm
      · exact ha.ne_dirAddr hk e
      · obtain ⟨p, hp, e⟩ := List.mem_map.mp hm
        rw [← e, (hpre p hp).2] at hh
        exact hj (Option.some.inj hh).symm
    · rintro rfl
      exact hx j hj ⟨ha, hh⟩
  · rcases List.mem_append.mp hp with hp | hp
    · exact h.count k p (hc ▸ List.mem_append_left _ hp)
    · exact hcount p hp
  · by_cases e : a = x
    · subst e
      rw [Function.update_self]
      refine ⟨fun ⟨_, h2⟩ => ?_, fun h' => absurd h' (hx j hj)⟩
      rcases ho with rfl | rfl
      · exact absurd (Option.some.inj h2).symm hj
      · cases h2
    · rw [hlen' a e, Function.update_of_ne e]

theorem Rep.link_ne (h : M.Rep n mem len) (hk : k < hashMapDirBlockSize * n)
    {pre suf : List (Int × List Int)} {la : Int} {pg : Int → Page} (hc : M.chains k = pre ++ suf)
    (hl : LinkAt mem k pre la pg) : la ≠ 0 ∧ (0 ≤ la ∧ la < len ∧ la % pageSize = 0) ∧
      ∀ a, IsChainPage n len a → M.home a ≠ some k → a ≠ la := by
  rcases hl.addr with rfl | hm
  · exact ⟨dirAddr_ne_zero k, h.dirAddr_valid hk, fun a ha _ => ha.ne_dirAddr hk⟩
  · have hm' : la ∈ M.pages k := by
      rw [pages, hc, List.map_append]
      exact List.mem_append_left _ hm
    obtain ⟨h1, h2⟩ := (h.mem_pages la k).mp hm'
    exact ⟨h1.ne_zero, h1.valid, fun a _ hh e => hh (e ▸ h2)⟩

/-- **Changing the entries of a page.** -/
theorem Rep.setItems (h : M.Rep n mem len) (hk : k < hashMapDirBlockSize * n)
    {pre suf : List (Int × List Int)} {a : Int} {its its' : List Int} {b b' : HashMapBlock}
    (hc : M.chains k = pre ++ (a, its) :: suf) (hb : mem a = .hashBlock b) (hn : b'.next = b.next)
    (hi : b'.items = its') (hcount : its'.length ≠ 0 ∧ its'.length ≤ hashMapBlockSize) :
    Rep ⟨Function.update M.chains k (pre ++ (a, its') :: suf), M.free, M.home⟩ n
      (Function.update mem a (.hashBlock b')) len := by
  have hpages : (pre ++ (a, its') :: suf).map Prod.fst = M.pages k := by
    rw [pages, hc]; simp
  have ha : IsChainPage n len a ∧ M.home a = some k := by
    refine (h.mem_pages a k).mp ?_
    rw [pages, hc]; simp
  have hnd := h.nodup k
  rw [← hpages] at hnd
  have hnd' := hnd
  rw [List.map_append, List.map_cons, List.nodup_append, List.nodup_cons] at hnd'
  obtain ⟨-, ⟨hsuf, -⟩, hpre⟩ := hnd'
  have hkeep : ∀ x ≠ a, Function.update mem a (.hashBlock b') x = mem x := fun x hx =>
    Function.update_of_ne hx _ _
  refine h.update hk ((hkeep 0 ha.1.ne_zero.symm).trans h.ctrl) ?_
    (fun j hj _ dir hdir => ⟨dir, (hkeep _ (ha.1.ne_dirAddr hj).symm).trans hdir, rfl⟩)
    (fun j hj x _ hx' => hkeep x ?_) (fun p hp => ?_) (h.free.frame fun x hx => hkeep x ?_) hnd
    h.freeNodup (fun x => by rw [hpages]; exact h.mem_pages x k) h.mem_free (fun _ _ _ => Iff.rfl)
    h.length
  · obtain ⟨h1, h2⟩ := before_append.mp (hc ▸ h.chain k hk)
    refine before_append.mpr ⟨h1.frame (fun dir hdir => ?_) fun x hx => hkeep x ?_, ?_, ?_⟩
    · exact ⟨dir, (hkeep _ (ha.1.ne_dirAddr hk).symm).trans hdir, rfl⟩
    · exact hpre x hx a List.mem_cons_self
    · obtain ⟨⟨b₀, hb₀, hn₀, -⟩, -⟩ := h2
      obtain rfl := Page.hashBlock.inj (hb.symm.trans hb₀)
      exact ⟨b', Function.update_self .., hn.trans hn₀, hi⟩
    · exact h2.2.frame fun x hx => hkeep x fun e => hsuf (e ▸ hx)
  · rintro rfl
    rw [ha.2] at hx'
    exact hj (Option.some.inj hx').symm
  · have := h.count k
    rw [hc] at this
    rcases List.mem_append.mp hp with hp | hp
    · exact this p (by simp [hp])
    · rcases List.mem_cons.mp hp with rfl | hp
      · exact hcount
      · exact this p (by simp [hp])
  · rintro rfl
    have := ((h.mem_free x).mp hx).2
    rw [ha.2] at this
    cases this

theorem Rep.addFresh (h : M.Rep n mem len) (hk : k < hashMapDirBlockSize * n) (addr : Int)
    {la : Int} {pg : Int → Page} (hl : LinkAt mem k (M.chains k) la pg) (hmla : mem' la = pg len)
    (hmx : mem' len = .hashBlock (.singleton addr))
    (hkeep : ∀ a, a ≠ la → a ≠ len → mem' a = mem a) :
    Rep ⟨Function.update M.chains k (M.chains k ++ [(len, [addr])]), M.free,
      Function.update M.home len (some k)⟩ n mem' (len + pageSize) := by
  obtain ⟨hla0, hlav, hlak⟩ := h.link_ne hk (List.append_nil _).symm hl
  obtain ⟨hl1, hl2⟩ := h.length
  have hlen0 : 0 < len := lt_of_lt_of_le (by simp only [pageSize]; omega) hl1
  have hnp : ∀ a, IsChainPage n len a → a ≠ len := fun a ha => ha.2.1.ne
  have hnew : IsChainPage n (len + pageSize) len := ⟨hl1, lt_add_of_pos_right _ (by decide), hl2⟩
  have hlen' : ∀ a ≠ len, IsChainPage n (len + pageSize) a ↔ IsChainPage n len a := by
    intro a ha
    simp only [IsChainPage, pageSize] at hl2 ⊢
    constructor
    · rintro ⟨h1, h2, h3⟩
      exact ⟨h1, by omega, h3⟩
    · rintro ⟨h1, h2, h3⟩
      exact ⟨h1, by omega, h3⟩
  have hxp : len ∉ M.pages k := fun hm => hnp _ ((h.mem_pages _ _).mp hm).1 rfl
  refine h.relink hk (List.append_nil _).symm hl hlen0.ne' (fun j hj => ?_) hxp ?_ hmla
    (fun a _ => hkeep a) ⟨⟨_, hmx, rfl, HashMapBlock.items_singleton addr⟩, trivial⟩
    (h.free.frame fun a ha => ?_) (fun p hp => ?_) ?_ h.freeNodup (fun j _ hj => hnp _ hj.1 rfl)
    (Or.inl rfl) (fun a => ?_) (fun a => ?_) hlen' ⟨hl1.trans ?_, ?_⟩
  · exact ((dirAddr_lt hj).trans_le hl1).ne'
  · rw [hkeep 0 hla0.symm hlen0.ne]; exact h.ctrl
  · obtain ⟨h1, h2⟩ := (h.mem_free a).mp ha
    exact hkeep a (hlak a h1 (by rw [h2]; simp)) (hnp a h1)
  · obtain rfl := List.mem_singleton.mp hp
    simp
  · rw [List.map_append, List.nodup_append]
    refine ⟨h.nodup k, by simp, fun a ha b hb e => ?_⟩
    obtain rfl : b = len := by simpa using hb
    exact hxp (e ▸ ha)
  · by_cases e : a = len
    · subst e; simp [hnew]
    · have := h.mem_pages a k
      rw [Function.update_of_ne e, hlen' a e, ← this]
      simp [pages, e]
  · by_cases e : a = len
    · subst e
      simp only [Function.update_self, reduceCtorEq, and_false, iff_false]
      exact fun hm => hnp _ (h.free_page hm) rfl
    · rw [Function.update_of_ne e, hlen' a e, ← h.mem_free]
  · exact le_add_of_nonneg_right (by decide)
  · exact (Int.add_emod_right ..).trans hl2

theorem Rep.addFree (h : M.Rep n mem len) (hk : k < hashMapDirBlockSize * n) (addr : Int)
    {la x : Int} {free' : List Int} {pg : Int → Page} {b : HashMapBlock} (hf : M.free = x :: free')
    (hl : LinkAt mem k (M.chains k) la pg) (hmla : mem' la = pg x)
    (hmx : mem' x = .hashBlock (b.reuse addr))
    (hm0 : mem' 0 = .hashCtrl ⟨free'.headD (-1), n, n * hashMapDirBlockSize⟩)
    (hkeep : ∀ a, a ≠ 0 → a ≠ la → a ≠ x → mem' a = mem a) :
    Rep ⟨Function.update M.chains k (M.chains k ++ [(x, [addr])]), free',
      Function.update M.home x (some k)⟩ n mem' len := by
  obtain ⟨hla0, hlav, hlak⟩ := h.link_ne hk (List.append_nil _).symm hl
  obtain ⟨hx, hxh⟩ := (h.mem_free x).mp (hf ▸ List.mem_cons_self)
  have hxp : ∀ j, x ∉ M.pages j := fun j hm => by
    have := ((h.mem_pages _ _).mp hm).2
    rw [hxh] at this
    cases this
  have hnd := h.freeNodup
  rw [hf, List.nodup_cons] at hnd
  have hfs := h.free
  rw [hf] at hfs
  refine h.relink hk (List.append_nil _).symm hl hx.ne_zero (fun j hj => hx.ne_dirAddr hj) (hxp k)
    hm0 hmla hkeep ⟨⟨_, hmx, rfl, HashMapBlock.items_reuse b addr⟩, trivial⟩
    (hfs.2.frame fun a ha => ?_) (fun p hp => ?_) ?_ hnd.2 (fun j _ hj => ?_)
    (Or.inl rfl) (fun a => ?_) (fun a => ?_) (fun _ _ => Iff.rfl) h.length
  · obtain ⟨h1, h2⟩ := (h.mem_free a).mp (hf ▸ List.mem_cons_of_mem _ ha)
    exact hkeep a h1.ne_zero (hlak a h1 (by rw [h2]; simp)) fun e => hnd.1 (e ▸ ha)
  · obtain rfl := List.mem_singleton.mp hp
    simp
  · rw [List.map_append, List.nodup_append]
    refine ⟨h.nodup k, by simp, fun a ha b hb e => ?_⟩
    obtain rfl : b = x := by simpa using hb
    exact hxp k (e ▸ ha)
  · rw [hxh] at hj
    cases hj.2
  · by_cases e : a = x
    · subst e; simp [hx]
    · rw [Function.update_of_ne e, ← h.mem_pages a k]
      simp [pages, e]
  · by_cases e : a = x
    · subst e
      simp [hnd.1]
    · rw [Function.update_of_ne e, ← h.mem_free, hf]
      simp [e]

/-- **Moving an emptied page to the free list.** -/
theorem Rep.unlink (h : M.Rep n mem len) (hk : k < hashMapDirBlockSize * n)
    {pre suf : List (Int × List Int)} {la x : Int} {its : List Int} {pg : Int → Page}
    {b : HashMapBlock} (hc : M.chains k = pre ++ (x, its) :: suf) (hl : LinkAt mem k pre la pg)
    (hmla : mem' la = pg (link suf (-1))) (hmx : mem' x = .hashBlock b)
    (hb : b.next = M.free.headD (-1))
    (hm0 : mem' 0 = .hashCtrl ⟨x, n, n * hashMapDirBlockSize⟩)
    (hkeep : ∀ a, a ≠ 0 → a ≠ la → a ≠ x → mem' a = mem a) :
    Rep ⟨Function.update M.chains k (pre ++ suf), x :: M.free, Function.update M.home x none⟩
      n mem' len := by
  obtain ⟨hla0, hlav, hlak⟩ := h.link_ne hk hc hl
  have hpages : M.pages k = pre.map Prod.fst ++ x :: suf.map Prod.fst := by
    rw [pages, hc, List.map_append, List.map_cons]
  obtain ⟨hx, hxh⟩ := (h.mem_pages x k).mp (by rw [hpages]; simp)
  have hnd := h.nodup k
  rw [hpages] at hnd
  have hnd1 := List.nodup_append.mp hnd
  obtain ⟨hsx, hsnd⟩ := List.nodup_cons.mp hnd1.2.1
  have hxpre : x ∉ pre.map Prod.fst := fun hm => hnd1.2.2 x hm x List.mem_cons_self rfl
  have hch := h.chain k hk
  rw [hc] at hch
  have hseg : Seg mem suf (-1) := (before_append.mp hch).2.2
  have hxf : x ∉ M.free := fun hm => by
    have := ((h.mem_free x).mp hm).2
    rw [hxh] at this
    cases this
  refine h.relink hk hc hl hx.ne_zero (fun j hj => hx.ne_dirAddr hj) hxpre hm0 hmla hkeep
    (hseg.frame fun a ha => ?_) ⟨⟨b, hmx, hb⟩, h.free.frame fun a ha => ?_⟩ (fun p hp => ?_) ?_
    (List.nodup_cons.mpr ⟨hxf, h.freeNodup⟩) (fun j hj hxj => ?_) (Or.inr rfl) (fun a => ?_)
    (fun a => ?_) (fun _ _ => Iff.rfl) h.length
  · have hap : a ∈ M.pages k := by rw [hpages]; simp [ha]
    have hav := ((h.mem_pages a k).mp hap).1
    refine hkeep a hav.ne_zero ?_ fun e => hsx (e ▸ ha)
    rintro rfl
    rcases hl.addr with e | hm
    · exact hav.ne_dirAddr hk e
    · exact hnd1.2.2 a hm a (List.mem_cons_of_mem _ ha) rfl
  · obtain ⟨h1, h2⟩ := (h.mem_free a).mp ha
    exact hkeep a h1.ne_zero (hlak a h1 (by rw [h2]; simp)) fun e => hxf (e ▸ ha)
  · exact h.count k p (by rw [hc]; simp [hp])
  · rw [List.map_append]
    exact hnd.sublist (List.Sublist.append_left (List.sublist_cons_self _ _) _)
  · rw [hxh] at hxj
    exact hj (Option.some.inj hxj.2).symm
  · by_cases e : a = x
    · subst e
      simp only [Function.update_self, reduceCtorEq, and_false, iff_false, List.map_append,
        List.mem_append]
      exact fun hm => hm.elim hxpre hsx
    · rw [Function.update_of_ne e, ← h.mem_pages a k, hpages]
      simp [e]
  · by_cases e : a = x
    · subst e; simp [hx]
    · rw [Function.update_of_ne e, ← h.mem_free]
      simp [e]

end HMap

end MyJQL
