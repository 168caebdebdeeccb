import MyJQL.BTree.Index
import MyJQL.Lib.BPlusTree.Rename
import MyJQL.Storage.Array

/-!
# Recycled and fresh pages

* `Naming spec C`: comparisons change nothing that the handlers see, and the name of a new separator
  depends on that and on its row; `Naming.insertSpec`: what an insertion keeps then;
* **`wp_bTreeInsert_named`**: `b_tree_insert` is `Tree.insert`, with this name;
* `CutFree i t t₂`: the machine `t₂` is `t` without the free list of its index, on a file as long or
  longer; `SameTree`: the same tree, up to the addresses of new nodes;
* **`bTree_insert_recycled`**: an insertion makes the same tree of both.
-/

set_option linter.unusedSimpArgs false

namespace MyJQL

variable {bd : Bool} {D : ℕ} {H : Handlers} {i : PoolId} {K C : Type} [LinearOrder K] {h : ℕ}
  {recs : Records K} {s : Flat} {f : FlatPool} {sp sp' : Space} {r : RID} {k : K} {e : RID × K}

/-! ## Names of separators -/

/-- **Comparisons change nothing** that the handlers see of the state, its `content`, and the name
of a new separator depends on the content and on its row. -/
structure Naming (spec : InsertSpec D H i K) (C : Type) where
  content : Flat → C
  name : C → RID → RID
  frame : ∀ s f, content (Function.update s i f) = content s
  cmpRow : ∀ {recs S s a b la lb}, spec.Inv recs S s → IsKey recs S la a → IsKey recs S lb b →
    wp (flatSem true) (procBody D H) (H.cmpRow a.1 b.1 la lb)
      (fun _ s' => content s' = content s) s
  insertHandler : ∀ {recs S s} {x : RID × K}, spec.Inv recs S s → recs x.1 = some x.2 →
    wp (flatSem true) (procBody D H) (H.insertHandler x.1 true)
      (fun rid _ => rid = name (content s) x.1) s

namespace Naming

variable {spec : InsertSpec D H i K} (nm : Naming spec C)

/-- The state during an insertion that begins with the separators `S₀` and the content `c₀`: nothing
has happened, or one separator was made of a row of `recs`, or more. -/
def Inv (recs₀ : Records K) (S₀ : Multiset (RID × K)) (c₀ : C) (recs : Records K)
    (S : Multiset (RID × K)) (s : Flat) : Prop :=
  (∀ r k, recs r = some k → recs₀ r = some k) ∧ spec.Inv recs₀ S s ∧
    (S = S₀ ∧ nm.content s = c₀ ∨ (∃ r k, recs r = some k ∧ S = (nm.name c₀ r, k) ::ₘ S₀) ∨
      S₀.card + 2 ≤ S.card)

variable {nm} {recs₀ : Records K} {S₀ S : Multiset (RID × K)} {c₀ : C}

theorem Inv.key {leaf : Bool} {x : RID × K} (hi : nm.Inv recs₀ S₀ c₀ recs S s)
    (hx : IsKey recs S leaf x) : IsKey recs₀ S leaf x := by
  cases leaf with
  | false => exact hx
  | true => exact hi.1 x.1 x.2 hx

variable (nm recs₀ S₀ c₀) in
/-- **What an insertion keeps.** -/
def insertSpec : InsertSpec D H i K where
  Inv := nm.Inv recs₀ S₀ c₀
  frame hi := ⟨hi.1, spec.frame hi.2.1, hi.2.2.imp_left fun h => ⟨h.1, (nm.frame _ _).trans h.2⟩⟩
  cmpRow hi ha hb := ((spec.cmpRow hi.2.1 (hi.key ha) (hi.key hb)).and
    (nm.cmpRow hi.2.1 (hi.key ha) (hi.key hb))).mono fun _ _ h =>
      ⟨h.1.1, h.1.2.1, hi.1, h.1.2.2, hi.2.2.imp_left fun h' => ⟨h'.1, h.2.trans h'.2⟩⟩
  insertHandler {recs S s x} hi hx := ((spec.insertHandler hi.2.1 (hi.1 x.1 x.2 hx)).and
    (nm.insertHandler hi.2.1 (hi.1 x.1 x.2 hx))).mono fun rid s' h => by
      obtain ⟨⟨h1, h2⟩, rfl⟩ := h
      refine ⟨h1, hi.1, h2, ?_⟩
      rcases hi.2.2 with ⟨rfl, hc⟩ | ⟨r, k, -, rfl⟩ | hcard
      · exact Or.inr (Or.inl ⟨x.1, x.2, hx, by rw [hc]⟩)
      · exact Or.inr (Or.inr (by simp only [Multiset.card_cons, le_refl]))
      · exact Or.inr (Or.inr (by rw [Multiset.card_cons]; omega))

variable (nm) in
/-- The name of the separator that the insertion of `e` makes. -/
def sep (c : C) (D : ℕ) (e : RID × K) (t : Tree Int RID K h) : RID :=
  ((t.splitRow D e).map fun y => nm.name c y.1).getD RID.null

end Naming

/-! ## Insertion -/

section Insert

variable {spec : InsertSpec D H i K} {nm : Naming spec C} {t : Tree Int RID K h}

/-- The rows that an insertion of `e` can see. -/
def seenRecs (recs : Records K) (e : RID × K) (rows : List (RID × K)) : Records K := fun r =>
  if r = e.1 ∨ r ∈ names rows then recs r else none

omit [LinearOrder K] in
theorem seenRecs_eq {rows : List (RID × K)} {κ : K} (hr : seenRecs recs e rows r = some κ) :
    recs r = some κ ∧ (r = e.1 ∨ r ∈ names rows) := by
  rw [seenRecs] at hr
  split_ifs at hr with h
  exact ⟨hr, h⟩

theorem seenRecs_inj {rows : List (RID × K)} (hl : ∀ x ∈ rows, recs x.1 = some x.2)
    (hs : rows.Pairwise fun a b => a.2 < b.2) (he : recs e.1 = some e.2)
    (hne : ∀ x ∈ rows, x.2 ≠ e.2) {r r' : RID} {κ : K} (hr : seenRecs recs e rows r = some κ)
    (hr' : seenRecs recs e rows r' = some κ) : r = r' := by
  have hmem : ∀ {r : RID}, seenRecs recs e rows r = some κ → (r, κ) = e ∨ (r, κ) ∈ rows := by
    intro r hr
    obtain ⟨hk, rfl | hm⟩ := seenRecs_eq hr
    · exact Or.inl (Prod.ext rfl (Option.some.inj (hk.symm.trans he)))
    · obtain ⟨x, hx, rfl⟩ := List.mem_map.mp hm
      rw [hl x hx] at hk
      exact Or.inr (Option.some.inj hk ▸ hx)
  have hnd : (rows.map Prod.snd).Nodup := List.pairwise_map.mpr (hs.imp ne_of_lt)
  rcases hmem hr with h1 | h1 <;> rcases hmem hr' with h2 | h2
  · exact congrArg Prod.fst (h1.trans h2.symm)
  · exact absurd (show κ = e.2 from congrArg Prod.snd h1) (hne _ h2)
  · exact absurd (show κ = e.2 from congrArg Prod.snd h2) (hne _ h1)
  · exact congrArg Prod.fst (List.inj_on_of_nodup_map hnd h1 h2 rfl)

/-- **`b_tree_insert`** is `Tree.insert`, with the name that the handler gives. -/
theorem wp_bTreeInsert_named (hD : 1 ≤ D) (hrep : IndexOn spec recs t sp f s)
    (he : recs e.1 = some e.2) (hne : ∀ x ∈ rowsOf t.flat, x.2 ≠ e.2)
    (hbd : bd → h + 3 ≤ cachePage) :
    wp (flatSem bd) (procBody D H) (bTreeInsert D i e.1)
      (fun r st => r = e.1 ∧ ∃ (f' : FlatPool) (s' : Flat), st = Function.update s' i f' ∧
        f'.Ctl ((t.insert D e (nm.sep (nm.content s) D e t) sp.new).whole sp.new).2.addr
          (sp.after (t.insert D e (nm.sep (nm.content s) D e t) sp.new).total) ∧
        ((t.insert D e (nm.sep (nm.content s) D e t) sp.new).whole sp.new).2.Stored f'.mem ∧
        (sp.after (t.insert D e (nm.sep (nm.content s) D e t) sp.new).total).Owns
          ((t.insert D e (nm.sep (nm.content s) D e t) sp.new).whole sp.new).2.pages)
      (Function.update s i f) := by
  have hseen : ∀ x ∈ rowsOf t.flat, seenRecs recs e (rowsOf t.flat) x.1 = some x.2 := fun x hx => by
    rw [seenRecs, if_pos (Or.inr (List.mem_map_of_mem hx))]
    exact hrep.live x hx
  have hseen_e : seenRecs recs e (rowsOf t.flat) e.1 = some e.2 := by
    rw [seenRecs, if_pos (Or.inl rfl)]
    exact he
  have hrep' : IndexOn (nm.insertSpec recs (sepsOf t.flat) (nm.content s))
      (seenRecs recs e (rowsOf t.flat)) t sp f s :=
    ⟨hrep.ctl, hrep.stored, hrep.owns, hrep.occ, hrep.sorted, hrep.linked, hseen,
      ⟨fun r k hr => (seenRecs_eq hr).1, hrep.inv, Or.inl ⟨rfl, rfl⟩⟩, hrep.pins⟩
  refine (wp_bTreeInsert_on hD hrep' hseen_e hne hbd).mono fun r st hr => ?_
  obtain ⟨rfl, sep, f', s', rfl, hon⟩ := hr
  have hsame : t.insert D e sep sp.new = t.insert D e (nm.sep (nm.content s) D e t) sp.new := by
    rcases hy : t.splitRow D e with _ | y
    · exact Tree.insert_sep hrep.occ hy
    · have hinv := hon.inv.2.2
      rw [Grown.flat_whole, Tree.insert_seps hrep.occ, hy] at hinv
      simp only [Option.elim, Multiset.singleton_add] at hinv
      have hy_key : seenRecs recs e (rowsOf t.flat) y.1 = some y.2 := by
        rcases Tree.splitRow_mem hrep.occ hy with rfl | hm
        · exact hseen_e
        · exact hseen y hm
      rcases hinv with ⟨hc, -⟩ | ⟨r, κ, hr, hc⟩ | hc
      · exact absurd (congrArg Multiset.card hc) (by simp)
      · obtain ⟨rfl, rfl⟩ := Prod.mk.inj ((Multiset.cons_inj_left _).mp hc)
        rw [Naming.sep, hy, seenRecs_inj hrep.live hrep.sorted.rows he hne hr hy_key]
        rfl
      · simp at hc
  rw [← hsame]
  exact ⟨rfl, f', s', rfl, hon.ctl, hon.stored, hon.owns⟩

end Insert

/-! ## Two files -/

/-- The machine `t₂` is `t` without the free list of pool `i`, on a file as long or longer, with any
pages cached. -/
structure CutFree (i : PoolId) (t t₂ : Machine) : Prop where
  other : ∀ j ≠ i, t₂ j = t j
  idle : Idle (t₂ i)
  pages : ∀ a, (t i).pool.file.Valid a → a ≠ 0 → (t₂ i).pool.view a = (t i).pool.view a
  ctrl : (t₂ i).pool.view 0 = .bCtrl ⟨((t i).pool.view 0).toBCtrl.rootNode, -1⟩
  length : (t i).pool.file.length ≤ (t₂ i).pool.file.length

/-- The pool holds the tree. -/
def Tree.InPool (t : Tree Int RID K h) (m : Mapped) : Prop :=
  (m.pool.view 0).toBCtrl.rootNode = t.addr ∧ t.Stored m.pool.view

/-- The same tree in `m₁` and `m₂`, up to the addresses of the nodes that are not in the tree of
`m`. -/
def SameTree (K : Type) (m m₁ m₂ : Mapped) : Prop :=
  ∃ (h₀ h : ℕ) (tr₀ : Tree Int RID K h₀) (tr : Tree Int RID K h) (σ : Int → Int), tr₀.InPool m ∧
    tr.InPool m₁ ∧ (tr.rename σ).InPool m₂ ∧ (∀ a ∈ tr₀.pages, σ a = a) ∧ σ (-1) = -1 ∧
    Set.InjOn σ {a | a ∈ tr.pages}

open Classical in
/-- The new pages of one space, for those of another. -/
noncomputable def Space.exchange (sp sp' : Space) (a : Int) : Int :=
  if h : ∃ j, sp.new j = a then sp'.new h.choose else a

theorem Space.Wf.new_inj (hw : sp.Wf) {j l : ℕ} (h : sp.new j = sp.new l) : j = l := by
  by_contra hne
  rcases Nat.lt_or_gt_of_ne hne with hlt | hlt
  · exact Space.not_used_new l (h ▸ (hw.used_new hlt).1)
  · exact Space.not_used_new j (h ▸ (hw.used_new hlt).1)

theorem Space.Wf.exchange_new (hw : sp.Wf) (j : ℕ) : sp.exchange sp' (sp.new j) = sp'.new j := by
  have hex : ∃ l, sp.new l = sp.new j := ⟨j, rfl⟩
  rw [Space.exchange, dif_pos hex, hw.new_inj hex.choose_spec]

theorem Space.Used.exchange {a : Int} (ha : sp.Used a) : sp.exchange sp' a = a := by
  rw [Space.exchange, dif_neg]
  rintro ⟨j, hj⟩
  exact ha.ne_new j hj.symm

theorem Space.Wf.exchange_null (hw : sp.Wf) : sp.exchange sp' (-1) = -1 := by
  rw [Space.exchange, dif_neg]
  rintro ⟨j, hj⟩
  exact (hw.used_new (Nat.lt_succ_self j)).1.1.ne_null hj

omit [LinearOrder K] in
theorem Grown.rename_whole (g : Grown Int RID K h) (σ : Int → Int) (new : ℕ → Int) :
    (g.rename σ).whole (fun j => σ (new j)) =
      ⟨(g.whole new).1, Tree.rename σ (g.whole new).2⟩ := by
  obtain ⟨c, _ | ⟨x, r⟩, n⟩ := g
  · rfl
  · rfl

section Exchange

variable {t : Tree Int RID K h} {m : ℕ} {sep : RID}

/-- **An insertion on other pages** makes the same tree, renamed. -/
theorem Tree.insert_exchange (hw : sp.Wf) (hown : sp.Owns t.pages) (hlink : Linked t.leaves (-1)) :
    (t.insert D e sep sp'.new).whole sp'.new = ⟨((t.insert D e sep sp.new).whole sp.new).1,
      Tree.rename (sp.exchange sp') ((t.insert D e sep sp.new).whole sp.new).2⟩ := by
  have hself : t.rename (sp.exchange sp') = t := by
    refine Tree.rename_eq_self (fun a ha => (hown.used a ha).1.exchange) fun x hx => ?_
    rcases hlink.next hx with hn | ⟨y, hy, hn⟩
    · rw [hn, hw.exchange_null]
    · rw [hn, (hown.used y.addr (Tree.leaves_pages y hy)).1.exchange]
  have hnew : sp'.new = fun j => sp.exchange sp' (sp.new j) := funext fun j =>
    (hw.exchange_new j).symm
  rw [← Grown.rename_whole, ← Tree.insert_rename, hself, ← hnew]

/-- The renaming keeps the nodes apart. -/
theorem Tree.insert_exchange_inj (hw : sp.Wf) (hw' : sp'.Wf) (hown : sp.Owns t.pages)
    (hown' : sp'.Owns t.pages) (hocc : t.Occ D m) : Set.InjOn (sp.exchange sp')
      {a | a ∈ ((t.insert D e sep sp.new).whole sp.new).2.pages} := by
  have hmem : ∀ a ∈ ((t.insert D e sep sp.new).whole sp.new).2.pages,
      a ∈ t.pages ∨ ∃ j, a = sp.new j := fun a ha => by
    have hp := Tree.pages_whole_insert hocc e sep sp.new
    have ha : a ∈ (((t.insert D e sep sp.new).whole sp.new).2.pages : Multiset Int) := ha
    rw [hp] at ha
    rcases Multiset.mem_add.mp ha with ha | ha
    · exact Or.inl ha
    · obtain ⟨j, -, rfl⟩ := List.mem_map.mp ha
      exact Or.inr ⟨j, rfl⟩
  have hold : ∀ a ∈ t.pages, sp.exchange sp' a = a := fun a ha => (hown.used a ha).1.exchange
  intro a ha b hb e
  rcases hmem a ha with ha | ⟨j, rfl⟩ <;> rcases hmem b hb with hb | ⟨l, rfl⟩
  · rwa [hold a ha, hold b hb] at e
  · rw [hold a ha, hw.exchange_new] at e
    exact absurd e ((hown'.used a ha).1.ne_new l)
  · rw [hold b hb, hw.exchange_new] at e
    exact absurd e.symm ((hown'.used b hb).1.ne_new j)
  · rw [hw.exchange_new, hw.exchange_new] at e
    rw [hw'.new_inj e]

end Exchange

/-! ## Runs -/

section Runs

variable {spec : HandlerSpec D H i K} {t t' t₂ : Machine} {tr : Tree Int RID K h}

omit [LinearOrder K] in
theorem Holds.inPool (hs : Holds s t) (hc : (s i).Ctl tr.addr sp) (hst : tr.Stored (s i).mem)
    (hown : sp.Owns tr.pages) : tr.InPool (t i) := by
  refine ⟨?_, hst.congr fun a ha => hs.view (hown.used a ha).1.1.ne_null⟩
  rw [hs.view (by decide), hc.ctrl]
  rfl

/-- The index on the file without the free list. -/
theorem TreeHeld.cut (ht : TreeHeld spec recs tr sp s t) (hcut : CutFree i t t₂) :
    Holds (Function.update s i (t₂ i).idle) t₂ ∧
      IndexOn spec.toInsertSpec recs tr ⟨[], (t₂ i).pool.file.length⟩ (t₂ i).idle s := by
  obtain ⟨L, hw⟩ := hcut.idle.wf
  have hlen : sp.len ≤ (t₂ i).pool.file.length := by
    rw [← ht.rep.ctl.length, ← ht.holds.length]
    exact hcut.length
  have hused : ∀ a ∈ tr.pages, sp.Valid a ∧ a ≠ 0 := fun a ha =>
    ⟨(ht.rep.tiles.used a ha).1.1, (ht.rep.tiles.used a ha).2⟩
  refine ⟨fun j => ?_, ⟨⟨⟨ht.rep.ctl.wf.len.1.trans_le hlen, hw.file_length.2⟩, List.nodup_nil,
    fun a ha => absurd ha List.not_mem_nil⟩, rfl, ?_, trivial⟩, ?_, ⟨ht.rep.tiles.nodup, fun a ha => ?_⟩,
    ht.rep.occ, ht.rep.sorted, ht.rep.linked, ht.rep.live, ht.rep.inv, rfl⟩
  · by_cases e : j = i
    · subst e
      rw [Function.update_self]
      exact hcut.idle.cached
    · rw [Function.update_of_ne e, hcut.other j e]
      exact ht.holds j
  · have hctrl := hcut.ctrl
    rw [ht.ctrl] at hctrl
    exact hctrl
  · refine ht.stored.congr fun a ha => hcut.pages a ?_ (hused a ha).2
    rw [FileInfo.Valid, ht.holds.length, ht.rep.ctl.length]
    exact (hused a ha).1
  · obtain ⟨⟨h1, h2, h3⟩, h0⟩ := hused a ha
    exact ⟨⟨⟨h1, h2.trans_le hlen, h3⟩, List.not_mem_nil⟩, h0⟩

theorem IndexOn.returned (nm : Naming spec.toInsertSpec C) {b : RID} (hD : 1 ≤ D)
    (hrep : IndexOn spec.toInsertSpec recs tr sp f s) (hs : Holds (Function.update s i f) t)
    (he : recs e.1 = some e.2) (hne : ∀ x ∈ rowsOf tr.flat, x.2 ≠ e.2)
    (hr : Returns machineSem (procBody D H) (bTreeInsert D i e.1) t b t') :
    b = e.1 ∧
      ((tr.insert D e (nm.sep (nm.content s) D e tr) sp.new).whole sp.new).2.InPool (t' i) := by
  obtain ⟨s₁, hs', ⟨rfl, f', s', rfl, hctl, hst, hown⟩, -⟩ :=
    wp.of_machine hs (wp_bTreeInsert_named hD hrep he hne nofun) hr
  refine ⟨rfl, hs'.inPool ?_ ?_ hown⟩
  · rw [Function.update_self]
    exact hctl
  · rw [Function.update_self]
    exact hst

theorem TreeReach.insert_sameTree (hD : 2 ≤ D) (nm : Naming spec.toInsertSpec C)
    (ht : TreeReach spec recs t) (hcut : CutFree i t t₂) (hk : recs r = some k)
    (hn : ∀ r' ∈ (t i).leafRids, recs r' ≠ some k) {b b₂ : RID} {t₂' : Machine}
    (hr : Returns machineSem (procBody D H) (bTreeInsert D i r) t b t')
    (hr₂ : Returns machineSem (procBody D H) (bTreeInsert D i r) t₂ b₂ t₂') :
    b₂ = b ∧ SameTree K (t i) (t' i) (t₂' i) := by
  obtain ⟨h, tr, sp, s, ht⟩ := ht.held hD
  obtain ⟨hs₂, hrep₂⟩ := ht.cut hcut
  have hne := ht.absent hn
  have hs : Holds (Function.update s i (s i)) t := by
    rw [Function.update_eq_self]
    exact ht.holds
  obtain ⟨hb, hin⟩ := ht.rep.on.returned nm (e := (r, k)) (by omega) hs hk hne hr
  obtain ⟨hb₂, hin₂⟩ := hrep₂.returned nm (e := (r, k)) (by omega) hs₂ hk hne hr₂
  rw [Tree.insert_exchange ht.rep.ctl.wf ht.rep.on.owns ht.rep.linked] at hin₂
  refine ⟨hb₂.trans hb.symm, h, _, tr, _, _,
    ht.holds.inPool ht.rep.ctl ht.rep.stored ht.rep.on.owns, hin, hin₂,
    fun a ha => (ht.rep.on.owns.used a ha).1.exchange, ht.rep.ctl.wf.exchange_null, ?_⟩
  exact Tree.insert_exchange_inj ht.rep.ctl.wf hrep₂.ctl.wf ht.rep.on.owns hrep₂.owns ht.rep.occ

theorem TreeReach.insert_returns (hD : 2 ≤ D) (ht : TreeReach spec recs t) (hcut : CutFree i t t₂)
    (hk : recs r = some k) (hn : ∀ r' ∈ (t i).leafRids, recs r' ≠ some k)
    (hlt : (t i).leafRids.length < 2 * (D + 1) ^ 13 * D) :
    (∃ b t', Returns machineSem (procBody D H) (bTreeInsert D i r) t b t') ∧
      ∃ b t', Returns machineSem (procBody D H) (bTreeInsert D i r) t₂ b t' := by
  obtain ⟨h, tr, sp, s, ht⟩ := ht.held hD
  obtain ⟨hs₂, hrep₂⟩ := ht.cut hcut
  have hne := ht.absent hn
  refine ⟨ht.returns (wp_bTreeInsert (e := (r, k)) (by omega) ht.rep hk hne fun _ =>
    ht.height_le hlt), ?_⟩
  obtain ⟨b, -, t', hr, -, -⟩ := (wp_bTreeInsert_on (e := (r, k)) (by omega) hrep₂ hk hne fun _ =>
    ht.height_le hlt).simulated machine_simulates hs₂
  exact ⟨b, t', hr⟩

/-- **Recycled and fresh pages give the same tree.** In every machine reached, an insertion of an
absent key makes the same tree as the one without the free list, on a file as long or longer, up to
the addresses of new nodes. With fewer than `2 * (D + 1) ^ 13 * D` rows both return. -/
theorem bTree_insert_recycled (hD : 2 ≤ D) (nm : Naming spec.toInsertSpec C)
    (ht : TreeReach spec recs t) (hcut : CutFree i t t₂) (hk : recs r = some k)
    (hn : ∀ r' ∈ (t i).leafRids, recs r' ≠ some k) :
    (∀ b b₂ t' t₂', Returns machineSem (procBody D H) (bTreeInsert D i r) t b t' →
      Returns machineSem (procBody D H) (bTreeInsert D i r) t₂ b₂ t₂' →
      b₂ = b ∧ SameTree K (t i) (t' i) (t₂' i)) ∧
    ((t i).leafRids.length < 2 * (D + 1) ^ 13 * D →
      (∃ b t', Returns machineSem (procBody D H) (bTreeInsert D i r) t b t') ∧
      ∃ b t', Returns machineSem (procBody D H) (bTreeInsert D i r) t₂ b t') :=
  ⟨fun _ _ _ _ hr hr₂ => ht.insert_sameTree hD nm hcut hk hn hr hr₂,
    ht.insert_returns hD hcut hk hn⟩

/-! ## An index of numbers -/

/-- A separator of `idxSpec` is its row. -/
def idxNaming (D : ℕ) (i : PoolId) : Naming (idxSpec D i).toInsertSpec Unit where
  content _ := ()
  name _ r := r
  frame _ _ := rfl
  cmpRow _ _ _ := wp_pure rfl
  insertHandler _ _ := wp_pure rfl

/-- The file with the contents of the pool, without the free list. -/
def Mapped.cutFile (m : Mapped) : FileInfo Page :=
  ⟨Function.update m.pool.view 0 (.bCtrl ⟨(m.pool.view 0).toBCtrl.rootNode, -1⟩),
    m.pool.file.length⟩

/-- The pool opened on that file. -/
def Mapped.cutFree (m : Mapped) : Mapped := { m with pool := initBufferPool (some m.cutFile) }

omit [LinearOrder K] in
theorem Holds.cutFree (hs : Holds s t) : CutFree i t (Function.update t i (t i).cutFree) := by
  obtain ⟨L, hL⟩ := hs i
  have hfile : (openFile (some (t i).cutFile)).2 = (t i).cutFile := by
    have hlen : (t i).cutFile.length % pageSize = 0 := hL.wf.file_length.2
    rw [openFile, if_neg (not_not.mpr hlen)]
  have hview : ∀ a ≠ -1, (t i).cutFree.pool.view a = (t i).cutFile.data a := fun a ha => by
    rw [← hfile]
    exact BufferPool.view_init ha
  have hlen : (t i).cutFree.pool.file.length = (t i).cutFile.length := congrArg FileInfo.length hfile
  have hnew : Idle (Mapped.new (t i).cutFree.pool) :=
    Idle.new rfl rfl rfl (by rw [hlen]; exact hL.wf.file_length.1)
      (by rw [hlen]; exact hL.wf.file_length.2)
  refine ⟨fun j hj => Function.update_of_ne hj _ _, ?_, fun a ha h0 => ?_, ?_, ?_⟩ <;>
    rw [Function.update_self]
  · exact ⟨hnew.wf, hnew.ref⟩
  · rw [hview a ha.ne_null]
    exact Function.update_of_ne h0 _ _
  · rw [hview 0 (by decide)]
    exact Function.update_self (0 : Int) _ (t i).pool.view
  · rw [hlen]
    exact le_rfl

/-- Eight rows, the first of which is deleted: a free page, and a leaf that is full. -/
def fullLeafOps : List TreeOp := treeOps ++ [.insert ⟨0, 7⟩]

/-- A leaf is split, on a page of the free list and on a page appended to the file. -/
theorem bTree_insert_recycled_split : ∃ t b t' t₂',
    treeRun 2 idxHandlers .bpIdx idxRecs 20 fullLeafOps idxMachine = some t ∧
    Returns machineSem (procBody 2 idxHandlers) (bTreeInsert 2 .bpIdx ⟨0, 8⟩) t b t' ∧
    Returns machineSem (procBody 2 idxHandlers) (bTreeInsert 2 .bpIdx ⟨0, 8⟩)
      (Function.update t .bpIdx (t .bpIdx).cutFree) b t₂' ∧
    (t' .bpIdx).pool.file.length = (t .bpIdx).pool.file.length ∧
    (t₂' .bpIdx).pool.file.length = (t .bpIdx).pool.file.length + pageSize ∧
    SameTree Int (t .bpIdx) (t' .bpIdx) (t₂' .bpIdx) := by
  have hrun : (treeRun 2 idxHandlers .bpIdx idxRecs 20 fullLeafOps idxMachine).bind (fun t =>
      (run machineSem (procBody 2 idxHandlers) 20 (bTreeInsert 2 .bpIdx ⟨0, 8⟩) t).bind fun r =>
      (run machineSem (procBody 2 idxHandlers) 20 (bTreeInsert 2 .bpIdx ⟨0, 8⟩)
        (Function.update t .bpIdx (t .bpIdx).cutFree)).bind fun r₂ =>
      some (decide ((∀ x ∈ (t .bpIdx).leafRids, idxRecs x ≠ some 8) ∧
        (r.2 .bpIdx).pool.file.length = (t .bpIdx).pool.file.length ∧
        (r₂.2 .bpIdx).pool.file.length = (t .bpIdx).pool.file.length + pageSize))) =
      some true := by
    decide +kernel
  obtain ⟨t, hrun, hd⟩ := Option.bind_eq_some_iff.mp hrun
  obtain ⟨⟨b, t'⟩, hr, hd⟩ := Option.bind_eq_some_iff.mp hd
  obtain ⟨⟨b₂, t₂'⟩, hr₂, hd⟩ := Option.bind_eq_some_iff.mp hd
  obtain ⟨hn, hlen, hlen₂⟩ := of_decide_eq_true (Option.some.inj hd)
  have hreach : TreeReach (idxSpec 2 .bpIdx) idxRecs t := idxMachine_reach.run hrun
  obtain ⟨h, tr, sp, s, hheld⟩ := hreach.held le_rfl
  obtain ⟨hsame, -⟩ := bTree_insert_recycled (r := ⟨0, 8⟩) (k := 8) le_rfl (idxNaming 2 .bpIdx)
    hreach hheld.holds.cutFree rfl hn
  obtain ⟨rfl, htree⟩ := hsame b b₂ t' t₂' ⟨20, hr⟩ ⟨20, hr₂⟩
  exact ⟨t, b₂, t', t₂', hrun, ⟨20, hr⟩, ⟨20, hr₂⟩, hlen, hlen₂, htree⟩

end Runs

end MyJQL
