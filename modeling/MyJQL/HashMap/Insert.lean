import MyJQL.HashMap.Rep
import MyJQL.Storage.Logic
import MyJQL.Model.Store

/-!
# Insertion into a free-space map

* `HashRep f n B`: the pool holds a free-space map with the buckets `B`;
* `wp_addBlock`: a new last page of a chain;
* `wp_insertLoop`: the walk to the first page with room, by induction on the pages behind it;
* **`wp_hashTableInsert`**.
-/

set_option linter.unusedSimpArgs false

namespace MyJQL

/-- The pool holds a free-space map with `n` directory pages and the buckets `B`. -/
def HashRep (f : FlatPool) (n : ℕ) (B : ℕ → Multiset Int) : Prop :=
  ∃ M : HMap, M.Rep n f.mem f.length ∧ M.bucket = B

namespace HMap

theorem bucket_update (M : HMap) (k : ℕ) (c : List (Int × List Int)) (free : List Int)
    (home : Int → Option ℕ) : bucket ⟨Function.update M.chains k c, free, home⟩ =
      Function.update M.bucket k (c.flatMap Prod.snd : List Int) := by
  funext j
  by_cases e : j = k
  · subst e; simp [bucket]
  · simp [bucket, e]

theorem flatMap_middle (pre suf : List (Int × List Int)) (p : Int × List Int) :
    (((pre ++ p :: suf).flatMap Prod.snd : List Int) : Multiset Int) =
      p.2 + ((pre ++ suf).flatMap Prod.snd : List Int) := by
  simp only [List.flatMap_append, List.flatMap_cons, ← Multiset.coe_add]
  exact add_left_comm _ _ _

end HMap

variable {bd : Bool} {D : ℕ} {H : Handlers} {s : Flat} {i : PoolId} {f : FlatPool} {n k ct : ℕ}
  {M : HMap} {addr : Int}

/-- What an operation on the map in pool `i` leaves. -/
def HashDone (s : Flat) (i : PoolId) (n : ℕ) (pins : Multiset Int) (B : ℕ → Multiset Int)
    (s' : Flat) : Prop :=
  ∃ f', s' = Function.update s i f' ∧ f'.pins = pins ∧ HashRep f' n B

theorem HashDone.intro {pins : Multiset Int} {B : ℕ → Multiset Int} (hp : f.pins = pins)
    (hM : M.Rep n f.mem f.length) (hB : M.bucket = B) :
    HashDone s i n pins B (Function.update s i f) := ⟨f, rfl, hp, M, hM, hB⟩

theorem HashDone.release {a : Int} {pins : Multiset Int} {B : ℕ → Multiset Int} {s' : Flat}
    {Q : Unit → Flat → Prop} (h : HashDone s i n (a ::ₘ pins) B s')
    (hQ : ∀ s', HashDone s i n pins B s' → Q () s') :
    wp (flatSem bd) (procBody D H) (release i a) Q s' := by
  obtain ⟨f', rfl, hp, hB⟩ := h
  refine wp_release (by rw [hp]; exact Multiset.mem_cons_self _ _) (hQ _ ⟨_, rfl, ?_, hB⟩)
  rw [FlatPool.pins_release, hp, Multiset.erase_cons_head]

theorem HMap.Rep.free_eq_nil (h : M.Rep n f.mem f.length) :
    M.free.headD (-1) = -1 ↔ M.free = [] := by
  cases hf : M.free with
  | nil => simp
  | cons x l =>
    have := (h.free_page (a := x) (by rw [hf]; exact List.mem_cons_self)).ne_null
    simp [this]

/-- **A new last page.** The program `lk v` stores the link `v`. -/
theorem wp_addBlock {la : Int} {pg : Int → Page} {lk : Int → MyJQL.M Unit}
    (hM : M.Rep n f.mem f.length) (hk : k < hashMapDirBlockSize * n)
    (hl : HMap.LinkAt f.mem k (M.chains k) la pg) (hct : f.Held ct 0)
    (hcard : f.pins.card < cachePage)
    (hlk : ∀ v {Q : Unit → Flat → Prop}, Q () (Function.update s i (f.put la (pg v))) →
      wp (flatSem bd) (procBody D H) (lk v) Q (Function.update s i f)) :
    wp (flatSem bd) (procBody D H) (hashTableAddBlock i ⟨i, ct⟩ addr lk)
      (fun _ => HashDone s i n f.pins (Function.update M.bucket k (addr ::ₘ M.bucket k)))
      (Function.update s i f) := by
  obtain ⟨hla0, hlav, hlak⟩ := hM.link_ne hk (List.append_nil _).symm hl
  have hbucket : ∀ x, ((M.chains k ++ [(x, [addr])]).flatMap Prod.snd : List Int) =
      addr ::ₘ M.bucket k := fun x => by
    simp only [List.flatMap_append, List.flatMap_cons, List.flatMap_nil, List.append_nil]
    rw [← Multiset.coe_add, add_comm]
    rfl
  refine wp_bind (wp_hashCtrl hct.live hM.ctrl ?_)
  refine wp_ite (fun hfree => ?_) fun hfree => ?_
  · -- a fresh page
    have hgrow : (f.put la (pg f.length)).MayGrow := fun _ => by
      rw [FlatPool.mem_put, Function.update_of_ne hla0.symm, hM.ctrl, hM.free_eq_nil.mp hfree]
      rfl
    refine wp_bind (wp_fileLength (wp_bind (hlk _ (wp_bind (wp_fileLength
      (wp_writePageTo hgrow ?_))))))
    have hlen : f.length ≠ la := hlav.2.1.ne'
    refine HashDone.intro rfl (hM.addFresh hk addr hl ?_ ?_ fun a h1 h2 => ?_) ?_
    · simp [hlen.symm]
    · simp
    · simp [h1, h2]
    · rw [HMap.bucket_update, hbucket]
  · -- the first free page
    obtain ⟨x, l, hf⟩ := List.exists_cons_of_ne_nil fun e => hfree (hM.free_eq_nil.mpr e)
    obtain ⟨hx, hxh⟩ := (hM.mem_free x).mp (hf ▸ List.mem_cons_self)
    have hxla : x ≠ la := hlak x hx (by rw [hxh]; simp)
    have hfs := hM.free
    rw [hf] at hfs
    obtain ⟨⟨b, hbx, hbn⟩, -⟩ := hfs
    have hctrl := hM.ctrl
    simp only [hf, List.headD_cons] at hctrl ⊢
    refine wp_bind (wp_hashCtrl hct.live hctrl (wp_bind (hlk _ ?_)))
    refine wp_bind (wp_getPage (FlatPool.valid_put.mpr hx.valid) (fun _ => ?_) ?_)
    · exact FlatPool.fits_of_card (by simp only [List.length_singleton, FlatPool.pins_put]; omega)
    have hmx : ((f.put la (pg x)).get x).mem x = .hashBlock b := by simp [hxla, hbx]
    refine wp_bind (wp_hashBlock FlatPool.held_get_self.live hmx ?_)
    refine wp_bind (wp_setHashCtrl hct.put.get.live (by simpa [hla0.symm] using hctrl) ?_)
    refine wp_bind (wp_setHashBlock FlatPool.held_get_self.put.live (x := b) ?_ ?_)
    · simp [hx.ne_zero, hxla, hbx]
    refine wp_release (by simp) (HashDone.intro (by simp) (hM.addFree hk addr hf hl
      (b := b) ?_ ?_ ?_ fun a h1 h2 h3 => ?_) ?_)
    · simp [hla0, hxla.symm]
    · simp
    · simp [hx.ne_zero.symm, hbn]
    · simp [h1, h2, h3]
    · rw [HMap.bucket_update, hbucket]

theorem HMap.Rep.middle (h : M.Rep n f.mem f.length) (hk : k < hashMapDirBlockSize * n)
    {pre suf : List (Int × List Int)} {p : Int × List Int} (hc : M.chains k = pre ++ p :: suf) :
    IsChainPage n f.length p.1 ∧
      ∃ b, f.mem p.1 = .hashBlock b ∧ b.next = link suf (-1) ∧ b.items = p.2 := by
  have hch := h.chain k hk
  rw [hc] at hch
  exact ⟨h.page (k := k) (by rw [hc]; simp), (before_append.mp hch).2.1⟩

/-- What the walk to the first page with room leaves: the function has returned, or `block` points
to a page with room. -/
def InsertLoopDone (s : Flat) (i : PoolId) (f : FlatPool) (M : HMap) (n k : ℕ)
    (addr blockAddr : Int)
    (p₀ : Multiset Int) (r : Option (PagePtr × Int × ℕ)) (s' : Flat) : Prop :=
  match r with
  | none => HashDone s i n p₀ (Function.update M.bucket k (addr ::ₘ M.bucket k)) s'
  | some (block, temp, flag) =>
    ∃ f' t pre p suf, s' = Function.update s i f' ∧ f'.mem = f.mem ∧ f'.length = f.length ∧
      block = ⟨i, t⟩ ∧ M.chains k = pre ++ p :: suf ∧ p.2.length ≠ hashMapBlockSize ∧ f'.Held t p.1 ∧
      f'.pins = (if flag = 1 then {temp} else 0) + blockAddr ::ₘ 0 ::ₘ p₀

theorem InsertLoopDone.exit {pre suf : List (Int × List Int)} {p : Int × List Int}
    {t count flag : ℕ} {blockAddr temp : Int} {p₀ : Multiset Int} {b : HashMapBlock}
    (hc : M.chains k = pre ++ p :: suf) (hb : b.items = p.2) (hroom : b.nItems ≠ hashMapBlockSize)
    (hheld : f.Held t p.1)
    (hpins : f.pins = (if count = 0 then 0 else {p.1}) + blockAddr ::ₘ 0 ::ₘ p₀)
    (htemp : count ≠ 0 → temp = p.1) (hflag : flag = if count = 0 then 0 else 1) :
    InsertLoopDone s i f M n k addr blockAddr p₀ (some (⟨i, t⟩, temp, flag))
      (Function.update s i f) := by
  refine ⟨f, t, pre, p, suf, rfl, rfl, rfl, rfl, hc, ?_, hheld, ?_⟩
  · rwa [← hb, HashMapBlock.length_items]
  · rw [hpins]
    by_cases e : count = 0
    · simp [hflag, e]
    · simp [hflag, e, htemp e]

/-- The start of a round: the pin of the previous round is given back. -/
theorem wp_insertLoop_release {t count flag : ℕ} {a blockAddr temp : Int} {p₀ : Multiset Int}
    {Q : ℕ → Flat → Prop} (hct : f.Held ct 0) (hlast : f.Last t a)
    (hpins : f.pins = (if count = 0 then 0 else {a}) + blockAddr ::ₘ 0 ::ₘ p₀)
    (htemp : count ≠ 0 → temp = a) (hflag : flag = if count = 0 then 0 else 1)
    (h : ∀ f₁ : FlatPool, f₁.mem = f.mem → f₁.length = f.length →
      f₁.pins = blockAddr ::ₘ 0 ::ₘ p₀ → f₁.Last t a → f₁.Held ct 0 →
      Q 1 (Function.update s i f₁)) :
    wp (flatSem bd) (procBody D H)
      (if count + 1 ≠ 1 then do release i temp; pure flag else pure 1 : MyJQL.M ℕ)
      Q (Function.update s i f) := by
  by_cases e : count = 0
  · rw [if_neg (by omega)]
    exact wp_pure (h f rfl rfl (by rw [hpins, if_pos e, zero_add]) hlast hct)
  · have hp : f.pins = a ::ₘ blockAddr ::ₘ 0 ::ₘ p₀ := by
      rw [hpins, if_neg e, Multiset.singleton_add]
    rw [if_pos (by omega), htemp e, hflag, if_neg e]
    refine wp_bind (wp_release (by simp [hp]) (wp_pure ?_))
    have he : f.pins.erase a = blockAddr ::ₘ 0 ::ₘ p₀ := by rw [hp, Multiset.erase_cons_head]
    exact h (f.release a) rfl rfl he hlast (hct.release (by rw [he]; simp))

/-- **The walk to the first page with room**, from page `p` of the chain. -/
theorem wp_insertLoop {pre suf : List (Int × List Int)} {p : Int × List Int} {t count flag : ℕ}
    {blockAddr temp : Int} {p₀ : Multiset Int} (hM : M.Rep n f.mem f.length)
    (hk : k < hashMapDirBlockSize * n) (hc : M.chains k = pre ++ p :: suf)
    (hct : f.Held ct 0) (hlast : f.Last t p.1) (hp : p.1 ∈ f.pins)
    (hcard : p₀.card + 4 ≤ cachePage)
    (hpins : f.pins = (if count = 0 then 0 else {p.1}) + blockAddr ::ₘ 0 ::ₘ p₀)
    (htemp : count ≠ 0 → temp = p.1) (hflag : flag = if count = 0 then 0 else 1) :
    wp (flatSem bd) (procBody D H)
      (hashTableInsertLoop i ⟨i, ct⟩ ⟨i, t⟩ addr blockAddr temp count flag)
      (InsertLoopDone s i f M n k addr blockAddr p₀) (Function.update s i f) := by
  induction suf generalizing pre p f t count flag temp with
  | nil =>
    obtain ⟨hpage, b, hb, hbn, hbi⟩ := hM.middle hk hc
    refine wp_bind (wp_hashBlock hlast.live hb (wp_ite (fun hfull => ?_) fun hroom => ?_))
    · refine wp_bind (wp_insertLoop_release hct hlast hpins htemp hflag fun f₁ hm hl hp₁ hlast₁ hct₁ => ?_)
      rw [← hm] at hb
      refine wp_bind (wp_hashBlock hlast₁.live hb ?_)
      rw [if_pos (by rw [hbn]; rfl)]
      refine wp.seq (wp_addBlock (M := M) (hm ▸ hl ▸ hM) hk (by rw [hc]; exact .page hb) hct₁
        (by rw [hp₁]; simp; omega)
        fun v Q hQ => wp_setHashBlock hlast₁.live hb hQ) fun _ s' hs' => ?_
      rw [hp₁] at hs'
      exact wp_bind (hs'.release fun s' hs' => wp_bind (hs'.release fun s' hs' => wp_pure hs'))
    · exact wp_pure (.exit hc hbi hroom ⟨hlast.1, hp⟩ hpins htemp hflag)
  | cons q suf ih =>
    obtain ⟨hpage, b, hb, hbn, hbi⟩ := hM.middle hk hc
    refine wp_bind (wp_hashBlock hlast.live hb (wp_ite (fun hfull => ?_) fun hroom => ?_))
    · refine wp_bind (wp_insertLoop_release hct hlast hpins htemp hflag fun f₁ hm hl hp₁ hlast₁ hct₁ => ?_)
      rw [← hm] at hb
      have hc' : M.chains k = (pre ++ [p]) ++ q :: suf := by rw [hc]; simp
      obtain ⟨hqpage, -⟩ := hM.middle hk hc'
      refine wp_bind (wp_hashBlock hlast₁.live hb ?_)
      rw [if_neg (by rw [hbn]; exact hqpage.ne_null)]
      refine wp_bind (wp_hashBlock hlast₁.live hb (wp_bind (wp_hashBlock hlast₁.live hb ?_)))
      rw [hbn, link_cons]
      have hqv : f₁.Valid q.1 := by rw [FlatPool.Valid, hl]; exact hqpage.valid
      refine wp_bind (wp_getPage hqv (fun _ => FlatPool.fits_of_card ?_) (wp_proc ?_))
      · rw [hp₁]; simp; omega
      refine (ih (f := f₁.get q.1) (hm ▸ hl ▸ hM) hc' hct₁.get FlatPool.last_get_self (by simp) ?_
        (fun _ => rfl) (by simp)).mono fun r s' hr => ?_
      · rw [FlatPool.pins_get, hp₁, if_neg count.succ_ne_zero, Multiset.singleton_add]
      · cases r with
        | none => exact hr
        | some r =>
          obtain ⟨f', t', pre', p', suf', h1, h2, h3, h4⟩ := hr
          exact ⟨f', t', pre', p', suf', h1, h2.trans hm, h3.trans hl, h4⟩
    · exact wp_pure (.exit hc hbi hroom ⟨hlast.1, hp⟩ hpins htemp hflag)

/-- **`hash_table_insert`** adds the address to its bucket. -/
theorem wp_hashTableInsert {size : ℕ} {B : ℕ → Multiset Int} (hB : HashRep f n B)
    (hk : size < hashMapDirBlockSize * n) (hs : size < 2 ^ 15)
    (hcard : f.pins.card + 4 ≤ cachePage) :
    wp (flatSem bd) (procBody D H) (hashTableInsert i (BitVec.ofNat 16 size) addr)
      (fun _ => HashDone s i n f.pins (Function.update B size (addr ::ₘ B size)))
      (Function.update s i f) := by
  obtain ⟨M, hM, rfl⟩ := hB
  simp only [hashTableInsert, dirPage_zero hs, dirSlot_ofNat hs]
  have h0 : f.Valid 0 := ⟨le_rfl, lt_of_lt_of_le (by simp only [pageSize]; omega) hM.length.1, rfl⟩
  refine wp_bind (wp_getPage h0 (fun _ => FlatPool.fits_of_card (by simp; omega)) ?_)
  refine wp_bind (wp_getPage (hM.dirAddr_valid hk)
    (fun _ => FlatPool.fits_of_card (by simp; omega)) ?_)
  obtain ⟨dir, hdir, hentry⟩ := (hM.chain size hk).1
  refine wp_bind (wp_hashDir FlatPool.held_get_self.live hdir ?_)
  refine wp_bind (wp_release (by simp) ?_)
  have hpins : (((f.get 0).get (dirAddr size)).release (dirAddr size)).pins = 0 ::ₘ f.pins := by simp
  have hct : (((f.get 0).get (dirAddr size)).release (dirAddr size)).Held f.next 0 :=
    FlatPool.held_get_self.get.release (by simp)
  have hdt := (FlatPool.last_get_self (f := f.get 0) (a := dirAddr size)).release (a := dirAddr size)
  generalize hf₁ : ((f.get 0).get (dirAddr size)).release (dirAddr size) = f₁ at *
  have hm : f₁.mem = f.mem := by rw [← hf₁]; rfl
  have hl : f₁.length = f.length := by rw [← hf₁]; rfl
  rw [hentry]
  cases hc : M.chains size with
  | nil =>
    rw [link_nil, if_pos rfl]
    refine wp.seq (wp_addBlock (M := M) (hm ▸ hl ▸ hM) hk (by rw [hc]; exact .dir (hm ▸ hdir)) hct
      (by rw [hpins]; simp; omega)
      fun v Q hQ => wp_setHashDir hdt.live (hm ▸ hdir) hQ) fun _ s' hs' => ?_
    rw [hpins] at hs'
    exact hs'.release fun s' hs' => hs'
  | cons p c =>
    have hc₀ : M.chains size = [] ++ p :: c := hc
    have hpage := hM.page (k := size) (p := p) (by rw [hc]; simp)
    have hv : f₁.Valid p.1 := by rw [FlatPool.Valid, hl]; exact hpage.valid
    rw [link_cons, if_neg hpage.ne_null]
    refine wp_bind (wp_getPage hv
      (fun _ => FlatPool.fits_of_card (by rw [hpins]; simp; omega)) ?_)
    refine wp.seq (wp_proc (wp_insertLoop (M := M) (f := f₁.get p.1)
      (hm ▸ hl ▸ hM) hk hc₀ hct.get FlatPool.last_get_self (by simp) hcard
      (by simp [hpins]) (fun h => absurd rfl h) rfl)) fun r s' hr => ?_
    cases r with
    | none => exact wp_pure hr
    | some r =>
      obtain ⟨block, temp, flag⟩ := r
      obtain ⟨f', t, pre, q, suf, rfl, hm', hl', rfl, hc', hroom, hheld, hpins'⟩ := hr
      rw [FlatPool.mem_get, hm] at hm'
      rw [FlatPool.length_get, hl] at hl'
      obtain ⟨-, b, hb, hbn, hbi⟩ := hM.middle hk hc'
      have hcount := hM.count size q (by rw [hc']; simp)
      refine wp_bind (wp_setHashBlock hheld.live (hm' ▸ hb) ?_)
      have hM' := hM.setItems hk hc' hb (HashMapBlock.next_push b addr)
        (by rw [HashMapBlock.items_push, hbi]) (by simp; omega)
      have hdone : HashDone s i n ((if flag = 1 then {temp} else 0) + p.1 ::ₘ 0 ::ₘ f.pins)
          (Function.update M.bucket size (addr ::ₘ M.bucket size))
          (Function.update s i (f'.put q.1 (.hashBlock (b.push addr)))) := by
        rw [← hm', ← hl'] at hM'
        refine HashDone.intro hpins' hM' ?_
        rw [HMap.bucket_update, HMap.flatMap_middle, HMap.bucket, hc', HMap.flatMap_middle,
          ← Multiset.coe_add, Multiset.coe_singleton, add_right_comm, add_comm,
          Multiset.singleton_add]
      refine wp_bind (wp_when (fun e => ?_) fun e => ?_)
      · rw [if_pos e, Multiset.singleton_add] at hdone
        exact hdone.release fun s' hs' =>
          wp_bind (hs'.release fun s' hs' => hs'.release fun _ h => h)
      · rw [if_neg e, zero_add] at hdone
        exact wp_bind (hdone.release fun s' hs' => hs'.release fun _ h => h)

end MyJQL
