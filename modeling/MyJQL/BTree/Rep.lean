import MyJQL.BTree.Handlers
import MyJQL.Lib.BPlusTree.Leaves

/-!
# The pages of an index

* `LeafAt`, `InnerAt`, `Tree.Stored mem t`: the pages hold the tree `t`;
* `Space`: the free list and the length of the file; `Space.first`, `Space.take`, `Space.give`: the
  next page, what is left without it, and with some pages given back;
* `FlatPool.Ctl f root sp`: the control page, and the free list it starts;
* `Space.Owns sp l`: the pages `l` are distinct and in use;
* `FlatPool.Keeps f f'`: the same pages are pinned, and pointers to them are kept; `FlatPool.load`:
  the number of pinned pages;
* **`IndexRep spec recs t sp f s`**: the pool holds an index with the tree `t`.
-/

set_option linter.unusedSimpArgs false

namespace MyJQL

variable {K : Type} {h : ℕ} {mem mem' : Int → Page} {a : Int}

/-! ## Nodes -/

/-- A leaf on page `a`. -/
def LeafAt (mem : Int → Page) (a next : Int) (rows : List RID) : Prop :=
  ∃ b, mem a = .bNode b ∧ b.leaf = true ∧ b.next = next ∧ b.rows = rows

/-- An inner node on page `a`. -/
def InnerAt (mem : Int → Page) (a : Int) (rows : List RID) (kids : List Int) : Prop :=
  ∃ b, mem a = .bNode b ∧ b.leaf = false ∧ b.rows = rows ∧ b.kids = kids

theorem LeafAt.congr {next : Int} {rows : List RID} (hl : LeafAt mem a next rows)
    (hm : mem' a = mem a) : LeafAt mem' a next rows := by rwa [LeafAt, hm]

theorem InnerAt.congr {rows : List RID} {kids : List Int} (hi : InnerAt mem a rows kids)
    (hm : mem' a = mem a) : InnerAt mem' a rows kids := by rwa [InnerAt, hm]

/-- The names of rows. -/
abbrev names (rows : List (RID × K)) : List RID := rows.map Prod.fst

/-- The addresses of subtrees. -/
abbrev addrs (kids : List (Tree Int RID K h)) : List Int := kids.map Tree.addr

/-- **The pages hold a tree.** -/
def Tree.Stored (mem : Int → Page) : ∀ {h : ℕ}, Tree Int RID K h → Prop
  | 0, t => LeafAt mem (Leaf.addr t) (Leaf.next t) (names (Leaf.rows t))
  | _ + 1, t => InnerAt mem (Inner.addr t) (names (Inner.rows t)) (addrs (Inner.kids t)) ∧
      ∀ c ∈ Inner.kids t, Stored mem c

theorem Tree.Stored.congr : ∀ {h : ℕ} {t : Tree Int RID K h}, t.Stored mem →
    (∀ a ∈ t.pages, mem' a = mem a) → t.Stored mem'
  | 0, _ => fun ht hm => LeafAt.congr ht (hm _ (List.mem_singleton_self _))
  | _ + 1, _ => fun ht hm => ⟨InnerAt.congr ht.1 (hm _ List.mem_cons_self), fun c hc =>
      (ht.2 c hc).congr fun a ha => hm a (List.mem_cons_of_mem _ (List.mem_flatMap.mpr ⟨c, hc, ha⟩))⟩

theorem Tree.Stored.node {t : Tree Int RID K h} (ht : t.Stored mem) :
    ∃ b, mem t.addr = .bNode b ∧ b.leaf = decide (h = 0) ∧ b.rows = names t.rows := by
  cases h with
  | zero =>
    obtain ⟨b, h1, h2, -, h4⟩ := ht
    exact ⟨b, h1, h2.trans (by simp), h4⟩
  | succ h =>
    obtain ⟨⟨b, h1, h2, h3, -⟩, -⟩ := ht
    exact ⟨b, h1, h2.trans (by simp), h3⟩

/-! ## Free pages -/

/-- A linked list of free pages. -/
def FreeAt (mem : Int → Page) : List Int → Prop
  | [] => True
  | x :: l => (∃ b, mem x = .bNode b ∧ b.next = l.headD (-1)) ∧ FreeAt mem l

theorem FreeAt.congr {l : List Int} (hl : FreeAt mem l) (hm : ∀ a ∈ l, mem' a = mem a) :
    FreeAt mem' l := by
  induction l with
  | nil => trivial
  | cons x l ih =>
    refine ⟨?_, ih hl.2 fun a ha => hm a (List.mem_cons_of_mem _ ha)⟩
    rw [hm x List.mem_cons_self]
    exact hl.1

/-- The free list, and the length of the file. -/
structure Space where
  free : List Int
  len : Int

namespace Space

/-- The next page: the first free one, or a new last one. -/
def first (sp : Space) : Int := sp.free.headD sp.len

/-- The space without the next page. -/
def take (sp : Space) : Space :=
  ⟨sp.free.tail, if sp.free = [] then sp.len + pageSize else sp.len⟩

/-- The space without the next `n` pages. -/
def after (sp : Space) : ℕ → Space
  | 0 => sp
  | n + 1 => (sp.after n).take

/-- The `n`th of the next pages. -/
def new (sp : Space) (n : ℕ) : Int := (sp.after n).first

/-- Pages given back. -/
def give (sp : Space) (l : List Int) : Space := ⟨l ++ sp.free, sp.len⟩

/-- An address of a page. -/
def Valid (sp : Space) (a : Int) : Prop := 0 ≤ a ∧ a < sp.len ∧ a % pageSize = 0

/-- A page that is not free. -/
def Used (sp : Space) (a : Int) : Prop := sp.Valid a ∧ a ∉ sp.free

/-- The free list has distinct pages, not the control page. -/
structure Wf (sp : Space) : Prop where
  len : 0 < sp.len ∧ sp.len % pageSize = 0
  nodup : sp.free.Nodup
  valid : ∀ a ∈ sp.free, sp.Valid a ∧ a ≠ 0

variable {sp : Space}

theorem Valid.take (ha : sp.Valid a) : sp.take.Valid a := by
  refine ⟨ha.1, lt_of_lt_of_le ha.2.1 ?_, ha.2.2⟩
  simp only [Space.take]
  split_ifs
  · exact le_add_of_nonneg_right (by decide)
  · exact le_rfl

theorem Used.take (ha : sp.Used a) : sp.take.Used a :=
  ⟨ha.1.take, fun hm => ha.2 (List.mem_of_mem_tail hm)⟩

theorem Wf.take (hw : sp.Wf) : sp.take.Wf := by
  refine ⟨?_, hw.nodup.sublist (List.tail_sublist _), fun a ha => ?_⟩
  · obtain ⟨h1, h2⟩ := hw.len
    simp only [Space.take]
    split_ifs
    · exact ⟨lt_of_lt_of_le h1 (le_add_of_nonneg_right (by decide)),
        (Int.add_emod_right ..).trans h2⟩
    · exact hw.len
  · obtain ⟨h1, h2⟩ := hw.valid a (List.mem_of_mem_tail ha)
    exact ⟨h1.take, h2⟩

theorem not_used_first : ¬ sp.Used sp.first := by
  rintro ⟨h1, h2⟩
  cases hf : sp.free with
  | nil =>
    simp only [first, hf, List.headD_nil] at h1
    exact absurd h1.2.1 (lt_irrefl _)
  | cons x l =>
    simp only [first, hf, List.headD_cons, List.mem_cons_self, not_true] at h2

theorem Wf.used_first (hw : sp.Wf) : sp.take.Used sp.first ∧ sp.first ≠ 0 := by
  obtain ⟨h1, h2⟩ := hw.len
  cases hf : sp.free with
  | nil =>
    simp only [first, Space.take, hf, List.headD_nil, Used, Valid, if_true, List.tail_nil]
    exact ⟨⟨⟨h1.le, lt_add_of_pos_right _ (by decide), h2⟩, List.not_mem_nil⟩, h1.ne'⟩
  | cons x l =>
    obtain ⟨h3, h4⟩ := hw.valid x (by rw [hf]; exact List.mem_cons_self)
    have hnd := hw.nodup
    rw [hf, List.nodup_cons] at hnd
    have e : sp.first = x := by rw [first, hf, List.headD_cons]
    rw [e]
    exact ⟨⟨h3.take, by simpa [Space.take, hf] using hnd.1⟩, h4⟩

theorem Wf.zero (hw : sp.Wf) : sp.Used 0 :=
  ⟨⟨le_rfl, hw.len.1, rfl⟩, fun hm => (hw.valid 0 hm).2 rfl⟩

theorem Wf.after (hw : sp.Wf) : ∀ n, (sp.after n).Wf
  | 0 => hw
  | n + 1 => (hw.after n).take

theorem Used.after (ha : sp.Used a) : ∀ n, (sp.after n).Used a
  | 0 => ha
  | n + 1 => (ha.after n).take

theorem Wf.used_new (hw : sp.Wf) {j n : ℕ} (hj : j < n) : (sp.after n).Used (sp.new j) ∧
    sp.new j ≠ 0 := by
  induction n with
  | zero => exact absurd hj (Nat.not_lt_zero j)
  | succ n ih =>
    rcases Nat.lt_succ_iff_lt_or_eq.mp hj with hj | rfl
    · exact ⟨(ih hj).1.take, (ih hj).2⟩
    · exact (hw.after j).used_first

theorem not_used_new (n : ℕ) : ¬ (sp.after n).Used (sp.new n) := not_used_first

theorem Used.ne_new (ha : sp.Used a) (n : ℕ) : a ≠ sp.new n := fun e =>
  not_used_new n (e ▸ ha.after n)

/-- **Pages in use**: distinct, and none of them the control page. -/
structure Owns (sp : Space) (l : List Int) : Prop where
  nodup : l.Nodup
  used : ∀ a ∈ l, sp.Used a ∧ a ≠ 0

theorem Owns.sublist {l l' : List Int} (ho : sp.Owns l) (hl : l'.Sublist l) : sp.Owns l' :=
  ⟨ho.nodup.sublist hl, fun a ha => ho.used a (hl.subset ha)⟩

theorem Owns.perm {l l' : List Int} (ho : sp.Owns l) (hl : (l : Multiset Int) = l') :
    sp.Owns l' := by
  have hp : l.Perm l' := Multiset.coe_eq_coe.mp hl
  exact ⟨hp.nodup_iff.mp ho.nodup, fun a ha => ho.used a (hp.mem_iff.mpr ha)⟩

theorem Owns.new {l : List Int} (hw : sp.Wf) (ho : sp.Owns l) (n : ℕ) :
    (sp.after n).Owns (l ++ (List.range n).map sp.new) := by
  refine ⟨List.nodup_append.mpr ⟨ho.nodup, ?_, fun a ha b hb e => ?_⟩, fun a ha => ?_⟩
  · refine List.Nodup.map_on (fun j hj j' hj' e => ?_) List.nodup_range
    by_contra hne
    rcases Nat.lt_or_gt_of_ne hne with hlt | hlt
    · exact not_used_new j' (e ▸ (hw.used_new hlt).1)
    · exact not_used_new j (e ▸ (hw.used_new hlt).1)
  · obtain ⟨j, -, rfl⟩ := List.mem_map.mp hb
    exact (ho.used a ha).1.ne_new j e
  · rcases List.mem_append.mp ha with ha | ha
    · exact ⟨(ho.used a ha).1.after n, (ho.used a ha).2⟩
    · obtain ⟨j, hj, rfl⟩ := List.mem_map.mp ha
      exact hw.used_new (List.mem_range.mp hj)

theorem Wf.give {l : List Int} (hw : sp.Wf) (hl : sp.Owns l) : (sp.give l).Wf := by
  refine ⟨hw.len, List.nodup_append.mpr ⟨hl.nodup, hw.nodup, fun a ha b hb e => ?_⟩, fun a ha => ?_⟩
  · exact (hl.used a ha).1.2 (e ▸ hb)
  · rcases List.mem_append.mp ha with ha | ha
    · exact ⟨(hl.used a ha).1.1, (hl.used a ha).2⟩
    · exact hw.valid a ha

theorem Owns.give {l l' : List Int} (ho : sp.Owns (l ++ l')) : (sp.give l).Owns l' := by
  obtain ⟨-, h2, h3⟩ := List.nodup_append.mp ho.nodup
  refine ⟨h2, fun a ha => ?_⟩
  obtain ⟨h4, h5⟩ := ho.used a (List.mem_append_right _ ha)
  refine ⟨⟨h4.1, fun hm => ?_⟩, h5⟩
  exact (List.mem_append.mp hm).elim (fun hm => h3 a hm a ha rfl) h4.2

theorem give_give (l l' : List Int) : (sp.give l).give l' = sp.give (l' ++ l) := by
  simp [give]

theorem Used.give {l : List Int} (ha : sp.Used a) (hl : a ∉ l) : (sp.give l).Used a :=
  ⟨ha.1, fun hm => (List.mem_append.mp hm).elim hl ha.2⟩

/-- Pages used later are used now, or new. -/
theorem Wf.of_after (hw : sp.Wf) {n : ℕ} (ha : (sp.after n).Used a) :
    sp.Used a ∨ a ∈ (List.range n).map sp.new := by
  induction n with
  | zero => exact Or.inl ha
  | succ n ih =>
    have htake : ∀ {sp : Space}, sp.Wf → sp.take.Used a → sp.Used a ∨ a = sp.first :=
        fun {sp} hw ha => by
      obtain ⟨⟨h1, h2, h3⟩, h4⟩ := ha
      cases hf : sp.free with
      | nil =>
        simp only [Space.take, first, hf, if_true, List.headD_nil] at h2 ⊢
        by_cases hlt : a < sp.len
        · exact Or.inl ⟨⟨h1, hlt, h3⟩, by simp [hf]⟩
        · refine Or.inr ?_
          have := hw.len.2
          simp only [pageSize] at h2 h3 this
          omega
      | cons x l =>
        simp only [Space.take, first, hf, List.headD_cons, List.tail_cons, reduceCtorEq,
          if_false] at h2 h4 ⊢
        by_cases hx : a = x
        · exact Or.inr hx
        · exact Or.inl ⟨⟨h1, h2, h3⟩, by simp [hf, hx, h4]⟩
    rcases htake (hw.after n) ha with ha | rfl
    · exact (ih ha).imp_right fun h => by
        rw [List.range_succ, List.map_append]
        exact List.mem_append_left _ h
    · refine Or.inr (List.mem_map.mpr ⟨n, by simp, rfl⟩)

/-- **The pages in use**, apart from the control page. -/
structure Tiles (sp : Space) (l : List Int) : Prop extends sp.Owns l where
  cover : ∀ a, sp.Used a → a = 0 ∨ a ∈ l

theorem Tiles.perm {l l' : List Int} (ht : sp.Tiles l) (hl : (l : Multiset Int) = l') :
    sp.Tiles l' :=
  ⟨ht.toOwns.perm hl, fun a ha => (ht.cover a ha).imp_right (Multiset.coe_eq_coe.mp hl).mem_iff.mp⟩

theorem Tiles.new {l : List Int} (hw : sp.Wf) (ht : sp.Tiles l) (n : ℕ) :
    (sp.after n).Tiles (l ++ (List.range n).map sp.new) :=
  ⟨ht.toOwns.new hw n, fun a ha => (hw.of_after ha).elim
    (fun ha => (ht.cover a ha).imp_right (List.mem_append_left _))
    fun ha => Or.inr (List.mem_append_right _ ha)⟩

theorem Tiles.give {l l' : List Int} (ht : sp.Tiles (l ++ l')) : (sp.give l).Tiles l' := by
  refine ⟨ht.toOwns.give, fun a ha => ?_⟩
  obtain ⟨h1, h2⟩ := ha
  have h2 : a ∉ l ∧ a ∉ sp.free := by simpa [Space.give] using h2
  exact (ht.cover a ⟨h1, h2.2⟩).imp_right fun h => (List.mem_append.mp h).resolve_left h2.1

end Space

/-! ## The control page -/

namespace FlatPool

variable {f f' : FlatPool} {root root' : Int} {sp sp' : Space}

/-- The control page, and the free list. -/
structure Ctl (f : FlatPool) (root : Int) (sp : Space) : Prop where
  wf : sp.Wf
  length : f.length = sp.len
  ctrl : f.mem 0 = .bCtrl ⟨root, sp.free.headD (-1)⟩
  chain : FreeAt f.mem sp.free

namespace Ctl

theorem valid (hc : f.Ctl root sp) (ha : sp.Valid a) : f.Valid a := by
  rw [FlatPool.Valid, hc.length]
  exact ha

theorem used (hc : f.Ctl root sp) (ha : sp.Used a) : f.Valid a := hc.valid ha.1

theorem zero (hc : f.Ctl root sp) : f.Valid 0 := hc.used hc.wf.zero

theorem take (hc : f.Ctl root sp) (hl : f'.length = sp.take.len)
    (h0 : f'.mem 0 = .bCtrl ⟨root', sp.take.free.headD (-1)⟩)
    (hm : ∀ a ∈ sp.take.free, f'.mem a = f.mem a) : f'.Ctl root' sp.take := by
  refine ⟨hc.wf.take, hl, h0, FreeAt.congr ?_ hm⟩
  have hch := hc.chain
  cases hf : sp.free with
  | nil =>
    rw [Space.take, hf]
    trivial
  | cons x l =>
    rw [hf] at hch
    rw [Space.take, hf]
    exact hch.2

theorem free_eq_nil (hc : f.Ctl root sp) : sp.free.headD (-1) = -1 ↔ sp.free = [] := by
  cases hf : sp.free with
  | nil => simp
  | cons x l =>
    have := (hc.valid (hc.wf.valid x (by rw [hf]; exact List.mem_cons_self)).1).ne_null
    simp [this]

/-- The file may grow once the free list is empty. -/
theorem mayGrow (hc : f.Ctl root sp) (hn : sp.free = []) (hm : f'.mem 0 = f.mem 0) :
    f'.MayGrow := fun _ => by
  rw [hm, hc.ctrl, hn]
  rfl

theorem congr {g : FlatPool} (hc : f.Ctl root sp) (hl : g.length = f.length)
    (h0 : g.mem 0 = f.mem 0) (hm : ∀ a ∈ sp.free, g.mem a = f.mem a) : g.Ctl root sp :=
  ⟨hc.wf, hl.trans hc.length, h0.trans hc.ctrl, hc.chain.congr hm⟩

theorem put {page : Page} (hc : f.Ctl root sp) (ha : sp.Used a) (h0 : a ≠ 0) :
    (f.put a page).Ctl root sp := by
  refine hc.congr rfl (Function.update_of_ne h0.symm _ _) fun b hb => Function.update_of_ne ?_ _ _
  rintro rfl
  exact ha.2 hb

theorem give (hc : f.Ctl root sp) (ha : sp.Owns [a]) (hl : f'.length = f.length)
    (h0 : f'.mem 0 = .bCtrl ⟨root', a⟩)
    (hx : ∃ b, f'.mem a = .bNode b ∧ b.next = sp.free.headD (-1))
    (hm : ∀ a ∈ sp.free, f'.mem a = f.mem a) : f'.Ctl root' (sp.give [a]) :=
  ⟨hc.wf.give ha, hl.trans hc.length, h0, hx, hc.chain.congr hm⟩

end Ctl

/-! ## Pins -/

/-- The same pages are pinned, and pointers to them are kept. -/
structure Keeps (f f' : FlatPool) : Prop where
  pins : f'.pins = f.pins
  held : ∀ t a, f.Held t a → f'.Held t a

theorem Keeps.refl (f : FlatPool) : f.Keeps f := ⟨rfl, fun _ _ h => h⟩

theorem Keeps.trans {f'' : FlatPool} (h : f.Keeps f') (h' : f'.Keeps f'') : f.Keeps f'' :=
  ⟨h'.pins.trans h.pins, fun t a ht => h'.held t a (h.held t a ht)⟩

theorem keeps_put {page : Page} : f.Keeps (f.put a page) := ⟨rfl, fun _ _ h => h.put⟩

theorem keeps_append {page : Page} : f.Keeps (f.append page) := ⟨rfl, fun _ _ h => h.append⟩

theorem Keeps.bracket (h : (f.get a).Keeps f') : f.Keeps (f'.release a) := by
  have hp : f'.pins.erase a = f.pins := by
    rw [h.pins, pins_get, Multiset.erase_cons_head]
  refine ⟨hp, fun t b ht => (h.held t b ht.get).release ?_⟩
  rw [hp]
  exact ht.2

theorem Keeps.mem_pins (h : (f.get a).Keeps f') : a ∈ f'.pins := by
  rw [h.pins]
  exact Multiset.mem_cons_self _ _

/-- The number of pinned pages, with the control page. -/
def load (f : FlatPool) : ℕ := (insert 0 f.pins.toFinset).card

theorem Keeps.load (h : f.Keeps f') : f'.load = f.load := by rw [FlatPool.load, h.pins]; rfl

theorem toFinset_cons (f : FlatPool) (a : Int) :
    ((([a] : List Int) : Multiset Int) + f.pins).toFinset = insert a f.pins.toFinset := by
  ext b
  simp

theorem load_get_le : (f.get a).load ≤ f.load + 1 := by
  rw [load, load, pins_get, Multiset.toFinset_cons, Finset.insert_comm]
  exact Finset.card_insert_le _ _

theorem load_get_zero : (f.get 0).load = f.load := by
  rw [load, load, pins_get, Multiset.toFinset_cons, Finset.insert_idem]

theorem fits_zero (h : f.load ≤ cachePage) : f.Fits [0] := by
  rw [Fits, toFinset_cons]
  exact h

theorem fits_of_load (h : f.load + 1 ≤ cachePage) : f.Fits [a] := by
  rw [Fits, toFinset_cons]
  refine (Finset.card_insert_le _ _).trans (le_trans (Nat.succ_le_succ ?_) h)
  exact Finset.card_le_card (Finset.subset_insert _ _)

end FlatPool

/-! ## Separators -/

section Separators

variable {K : Type} {t : Inner Int RID K (Tree Int RID K h)} {c : Tree Int RID K h} {n : ℕ}
  {R : Multiset (RID × K)}

theorem seps_leaf (t : Leaf Int RID K) : sepsOf (Tree.flat (h := 0) t) = [] := sepsOf_leaf t.rows

theorem seps_flat_leaf {t : Tree Int RID K 0} : sepsOf t.flat = [] := seps_leaf t

theorem seps_graft {c' : Tree Int RID K h} (hk : t.kids.length = t.rows.length + 1)
    (hc : t.kids[n]? = some c) :
    (sepsOf (Tree.flat (h := h + 1) (t.graft n [c'] [])) + R : Multiset (RID × K)) =
      sepsOf c'.flat + (sepsOf (t.pre n) + (sepsOf (t.post n) + R)) := by
  have hn := (List.getElem?_eq_some_iff.mp hc).1
  rw [Inner.flat_graft hk (by omega) rfl, sepsOf_append, sepsOf_append]
  simp only [List.map_cons, List.map_nil, weave, after, List.append_nil, ← Multiset.coe_add]
  abel

theorem seps_kid (hk : t.kids.length = t.rows.length + 1) (hc : t.kids[n]? = some c) :
    (sepsOf (Tree.flat (h := h + 1) t) + R : Multiset (RID × K)) =
      sepsOf c.flat + (sepsOf (t.pre n) + (sepsOf (t.post n) + R)) := by
  rw [← seps_graft hk hc, Inner.graft_self hc]

end Separators

/-! ## The index -/

/-- The occupancy of the root. -/
def rootMin (h : ℕ) : ℕ := if h = 0 then 0 else 1

/-- **The pool holds an index** with the tree `t` and the space `sp`, and `s` its separators; pages
may be lost. -/
structure IndexOn {D : ℕ} {H : Handlers} {i : PoolId} [LinearOrder K] (spec : InsertSpec D H i K)
    (recs : Records K) (t : Tree Int RID K h) (sp : Space) (f : FlatPool) (s : Flat) : Prop where
  ctl : f.Ctl t.addr sp
  stored : t.Stored f.mem
  owns : sp.Owns t.pages
  occ : t.Occ D (rootMin h)
  sorted : Sorted t.flat
  linked : Linked t.leaves (-1)
  live : ∀ x ∈ rowsOf t.flat, recs x.1 = some x.2
  inv : spec.Inv recs (sepsOf t.flat) s
  pins : f.pins = 0

/-- **The pool holds the index** with the tree `t` and the space `sp`, and `s` its separators. -/
structure IndexRep {D : ℕ} {H : Handlers} {i : PoolId} [LinearOrder K] (spec : InsertSpec D H i K)
    (recs : Records K) (t : Tree Int RID K h) (sp : Space) (f : FlatPool) (s : Flat) : Prop where
  ctl : f.Ctl t.addr sp
  stored : t.Stored f.mem
  tiles : sp.Tiles t.pages
  occ : t.Occ D (rootMin h)
  sorted : Sorted t.flat
  linked : Linked t.leaves (-1)
  live : ∀ x ∈ rowsOf t.flat, recs x.1 = some x.2
  inv : spec.Inv recs (sepsOf t.flat) s
  pins : f.pins = 0

section Index

variable {D : ℕ} {H : Handlers} {i : PoolId} [LinearOrder K] {spec : InsertSpec D H i K}
  {recs : Records K} {t : Tree Int RID K h} {sp : Space} {f : FlatPool} {s : Flat}

theorem IndexRep.on (hr : IndexRep spec recs t sp f s) : IndexOn spec recs t sp f s :=
  ⟨hr.ctl, hr.stored, hr.tiles.toOwns, hr.occ, hr.sorted, hr.linked, hr.live, hr.inv, hr.pins⟩

theorem IndexOn.rep (hr : IndexOn spec recs t sp f s) (ht : sp.Tiles t.pages) :
    IndexRep spec recs t sp f s :=
  ⟨hr.ctl, hr.stored, ht, hr.occ, hr.sorted, hr.linked, hr.live, hr.inv, hr.pins⟩

end Index

end MyJQL
