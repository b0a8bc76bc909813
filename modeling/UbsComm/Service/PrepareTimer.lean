import UbsComm.Service.Channel
import UbsComm.Service.CtxStore

/-!
# A request that cannot be prepared

`PrepareTimerContext` makes the timer of a request in three steps, each of which can
fail: an object from the pool, a number from the context store, and a place with the
periodic manager, which refuses when it stops and when the number or the callback is
null. The constructor of the timer takes a reference of the channel. Two of the three
error branches come after it and return the object to its pool – but the reference is
given back by `DecreaseRef` of the timer only, which they do not call, so the channel
is never destroyed afterwards.

No branch runs, keeps or deletes the callback, which stays with the caller.
-/

namespace Service

/-- What a request shares with others. -/
structure RequestPool where
  /-- The references to the channel. -/
  channelRef : ℕ
  store : CtxStore
  /-- The objects in the pool of contexts. -/
  free : List CtxPtr
  /-- `mNeedStop` of the periodic manager. -/
  needStop : Bool
  /-- The timers the periodic manager has, and the references to each. -/
  queued : List (CtxPtr × ℕ) := []

namespace RequestPool

variable (shape : StoreShape) (s : RequestPool) (cb : UInt64)

/-- `SER_STOP`. -/
def serStop : ℤ := 519

/-- `VALIDATE` of `AddTimer`: what it refuses. -/
def refuses (seqNo : UInt32) : Option SerCode :=
  if s.needStop then some (.other serStop)
  else if seqNo = 0 ∨ cb = 0 then some .invalidParam
  else none

/-- `PrepareTimerContext`, with the number on success. -/
def prepareTimerContext : SerCode × Option UInt32 × RequestPool :=
  match s.free with
  | [] => (.newObjectFailed, none, s)
  | timer :: free =>
    -- the constructor, with a channel that is not null
    let s := { s with free, channelRef := s.channelRef + 1 }
    match s.store.putAndGetSeqNo shape timer with
    | (.ok, some seqNo, store) =>
      let s := { s with store }
      match s.refuses cb seqNo with
      | some code =>
        -- `EraseSeqNo` and `Return`
        (code, none, { s with
          store := (s.store.getSeqNoAndRemove shape seqNo).2.2, free := timer :: free })
      | none =>
        -- two are taken here, and one by the list of the channel's timers
        (.ok, some seqNo, { s with queued := (timer, 3) :: s.queued })
    | (_, _, store) => (.newObjectFailed, none, { s with store, free := timer :: free })

/-- **What was there before the call is there after it**: the references of the
channel, the contents of the store and the objects of the pool. -/
structure Restored (s s' : RequestPool) : Prop where
  channelRef : s'.channelRef = s.channelRef
  flat : s'.store.flatCtxBucks = s.store.flatCtxBucks
  hash : s'.store.hashCtxMap = s.store.hashCtxMap
  free : s'.free = s.free
  queued : s'.queued = s.queued

/-- Once the timer is constructed the channel has a reference more, whatever follows. -/
theorem channelRef_prepareTimerContext (h : s.free ≠ []) :
    (s.prepareTimerContext shape cb).2.2.channelRef = s.channelRef + 1 := by
  unfold prepareTimerContext
  split
  case h_1 hfree => exact absurd hfree h
  case h_2 =>
    dsimp only
    repeat' split
    all_goals rfl

/-- **A call that fails restores every count exactly when it fails for want of an
object.** Where it fails later, the channel keeps the reference of a timer that is back
in the pool. -/
theorem prepareTimerContext_restored_iff :
    ((s.prepareTimerContext shape cb).1 ≠ .ok → s.Restored (s.prepareTimerContext shape cb).2.2)
      ↔ s.free = [] ∨ (s.prepareTimerContext shape cb).1 = .ok := by
  have hrestored : s.Restored (s.prepareTimerContext shape cb).2.2 ↔ s.free = [] := by
    constructor
    · intro h
      by_contra hfree
      have href := channelRef_prepareTimerContext shape s cb hfree
      exact Nat.succ_ne_self _ (href.symm.trans h.channelRef)
    · intro hfree
      rw [prepareTimerContext, hfree]
      exact ⟨rfl, rfl, rfl, rfl, rfl⟩
  rw [hrestored]
  exact or_iff_not_imp_right.symm

/-- The periodic manager is about to stop: the object goes back to the pool and the
number is erased, and the channel has a reference too many. -/
theorem exists_prepare_reference_lost :
    ∃ s : RequestPool, ∃ shape, (s.prepareTimerContext shape 64).1 = .other serStop ∧
      (s.prepareTimerContext shape 64).2.2.free = s.free ∧
      (s.prepareTimerContext shape 64).2.2.channelRef = s.channelRef + 1 :=
  ⟨⟨1, {}, [⟨64, by decide⟩], true, []⟩, ⟨7, by decide, by decide⟩, rfl, rfl, rfl⟩

end RequestPool

end Service
