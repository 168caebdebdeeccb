import MyJQL.Server.Connection

/-!
# Every path through a thread

What holds of the effects of `InstanceThread`, and of what it does when one of them fails, holds of
every path through a round of its loop.

* `PathRules`: what has to hold of the parts; **`PathRules.round`**: what follows for a round.
-/

set_option linter.unusedSimpArgs false

namespace MyJQL.Server

open Net

/-- The effects on a thread's own connection and memory, apart from closing the socket. -/
def IsLocal : ∀ {β : Type}, NetEff β → Prop
  | _, .recv _ _ => True
  | _, .send _ => True
  | _, .malloc _ => True
  | _, _ => False

/-- Rules for what holds of every path through the functions of a thread. -/
structure PathRules (K : ∀ {α : Type}, ExceptT Int Net α → Prop) : Prop where
  pure {α : Type} (a : α) : K (pure a)
  bind {α β : Type} {x : ExceptT Int Net α} {g : α → ExceptT Int Net β} (hx : K x)
    (hg : ∀ a, K (g a)) :
    K (x >>= g)
  eff {α : Type} {e : NetEff α} (he : IsLocal e) : K (ExceptT.lift (.eff e))
  undefined {α : Type} : K (undefined : ExceptT Int Net α)
  fails {α : Type} : K (do closesocket; throw 1 : ExceptT Int Net α)
  critical {α : Type} {e : NetEff α} (he : storeCall e ≠ none) : K (critical e)

namespace PathRules

variable {K : ∀ {α : Type}, ExceptT Int Net α → Prop} {α : Type} {x y : ExceptT Int Net α}
  {code : CInt} {p p' : Buf}

theorem ite (_hK : PathRules @K) {c : Prop} [Decidable c] (hx : K x) (hy : K y) :
    K (if c then x else y) := by
  split_ifs
  · exact hx
  · exact hy

theorem recvCode (hK : PathRules @K) : K (recvCode code) := by
  refine hK.bind (hK.eff trivial) fun b => ?_
  cases b with
  | none => exact hK.fails
  | some bytes => exact hK.pure _

theorem recvString (hK : PathRules @K) : K (recvString code) := by
  refine hK.bind (hK.eff trivial) fun q => hK.bind (hK.eff trivial) fun b => ?_
  cases b with
  | none => exact hK.fails
  | some bytes =>
    cases q with
    | none => exact hK.undefined
    | some q => exact hK.pure _

theorem sendBytes (hK : PathRules @K) {data : List Byte} : K (sendBytes data) :=
  hK.bind (hK.eff trivial) fun _ => hK.ite (hK.pure _) hK.fails

theorem sendCode (hK : PathRules @K) : K (sendCode code) := hK.sendBytes

theorem reply (hK : PathRules @K) (a : α) : K (do Server.sendCode code; return a) :=
  hK.bind hK.sendCode fun _ => hK.pure _

theorem getReply (hK : PathRules @K) : K (getReply code p) := by
  refine hK.ite (hK.reply _) (hK.bind (hK.eff trivial) fun b => ?_)
  cases b with
  | none => exact hK.undefined
  | some value =>
    refine hK.bind (hK.critical (Option.some_ne_none _)) fun q => hK.ite (hK.reply _) ?_
    exact hK.bind hK.sendCode fun _ => hK.bind hK.sendCode fun _ =>
      hK.bind hK.sendBytes fun _ => hK.pure _

theorem getRequest (hK : PathRules @K) : K (getRequest code) :=
  hK.bind hK.recvCode fun _ => hK.bind hK.recvString fun _ => hK.getReply

theorem setReply (hK : PathRules @K) {keyLen valueLen : CInt} : K (setReply keyLen p valueLen p') :=
  hK.ite (hK.reply _) (hK.ite (hK.reply _)
    (hK.bind (hK.critical (Option.some_ne_none _)) fun _ => hK.reply _))

theorem setRequest (hK : PathRules @K) : K (setRequest code) :=
  hK.bind hK.recvCode fun _ => hK.bind hK.recvString fun _ =>
    hK.bind hK.recvCode fun _ => hK.bind hK.recvString fun _ => hK.setReply

theorem delReply (hK : PathRules @K) : K (delReply code p) :=
  hK.ite (hK.reply _) (hK.bind (hK.critical (Option.some_ne_none _)) fun _ => hK.reply _)

theorem delRequest (hK : PathRules @K) : K (delRequest code) :=
  hK.bind hK.recvCode fun _ => hK.bind hK.recvString fun _ => hK.delReply

theorem serve (hK : PathRules @K) : K (serve code) := by
  refine hK.ite (hK.bind hK.getRequest fun _ => hK.pure _) ?_
  refine hK.ite (hK.bind hK.setRequest fun _ => hK.pure _) ?_
  refine hK.ite (hK.bind hK.delRequest fun _ => hK.pure _) ?_
  exact hK.ite (hK.reply _) (hK.pure _)

/-- **Every path through a round.** -/
theorem round (hK : PathRules @K) : K (round code) := hK.bind hK.recvCode fun _ => hK.serve

end PathRules

end MyJQL.Server
