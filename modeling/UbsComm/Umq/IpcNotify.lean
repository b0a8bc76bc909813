import UbsComm.Lib.Execution

/-!
# Notifications between two processes

In interrupt mode the sender of a shared ring notifies the receiver through
two words of the ring's header: `cq_event_flag`, on which the receiver sleeps,
and `pending_events`. `umq_ipc_notify_impl` sets the flag, counts the event
and wakes the receiver. `umq_ipc_wait_interrupt_impl` sleeps while the flag is
0 and returns the count; `umq_ipc_ack_interrupt_impl` takes what was returned
off the count, and clears the flag if the count is then 0. A step is one access
to the header, of the receiver or of one of the sender's threads.

**Where an event is lost.** The count is tested and the flag cleared in two
accesses. A notification between them, or one that has woken the receiver and
has not counted its event yet, finds its flag cleared: the event stays pending,
and the receiver sleeps (`exists_lost_notification`). Otherwise none is lost
(`noneLost_of_clearsQuietly`).
-/

namespace Umq

open Machine Function Option

/-- The receiver's next access: the test of the flag in `futex_wait`, the load
of the count that is returned, and then those of the acknowledgement. -/
inductive ReceiverPc where
  | wait
  | load
  | ack (nevents : UInt32)
  | test
  | clear
deriving DecidableEq

/-- The two words of `shm_ring_hdr_t`; the threads of the sender that have set
the flag and not yet counted; and where the receiver is. -/
structure RingNotify (ι : Type*) where
  cqEventFlag : UInt32 := 0
  pendingEvents : UInt32 := 0
  notifying : ι → Bool := fun _ => false
  receiver : ReceiverPc := .wait

/-- What the two sides do. -/
inductive NotifyAct (ι : Type*) where
  | notify (i : ι)
  | receive
  /-- The wait ends at its time limit, with 0 events. -/
  | timeout
deriving DecidableEq

namespace RingNotify

variable {ι : Type*} [DecidableEq ι] {s t : RingNotify ι}

/-- One access to the header. -/
def step (s : RingNotify ι) : NotifyAct ι → Option (RingNotify ι)
  | .notify i =>
    if s.notifying i then
      some { s with
        pendingEvents := s.pendingEvents + 1
        notifying := update s.notifying i false }
    else some { s with cqEventFlag := 1, notifying := update s.notifying i true }
  | .receive =>
    match s.receiver with
    | .wait => if s.cqEventFlag ≠ 0 then some { s with receiver := .load } else none
    | .load => some { s with receiver := .ack s.pendingEvents }
    | .ack nevents =>
      some { s with pendingEvents := s.pendingEvents - nevents, receiver := .test }
    | .test => some { s with receiver := if s.pendingEvents = 0 then .clear else .wait }
    | .clear => some { s with cqEventFlag := 0, receiver := .wait }
  | .timeout => if s.receiver = .wait then some { s with receiver := .ack 0 } else none

/-- **No event is lost**: with an event pending and the flag at 0, a call that
notifies or acknowledges is under way. -/
def NoneLost (s : RingNotify ι) : Prop :=
  0 < s.pendingEvents → s.cqEventFlag = 0 →
    (∃ i, s.notifying i = true) ∨ s.receiver = .test ∨ s.receiver = .clear

/-- The flag is only cleared while no event is pending and no sender is about
to count one. -/
abbrev ClearsQuietly (s : RingNotify ι) (a : NotifyAct ι) : Prop :=
  a = .receive → s.receiver = .clear → s.pendingEvents = 0 ∧ ∀ i, s.notifying i = false

/-- With the flag at 0 no event is pending or about to be, or to be taken off. -/
def Quiet (s : RingNotify ι) : Prop :=
  s.cqEventFlag = 0 →
    s.pendingEvents = 0 ∧ (∀ i, s.notifying i = false) ∧ ∀ n, s.receiver = .ack n → n = 0

theorem Quiet.step {a : NotifyAct ι} (h : s.Quiet) (hg : s.ClearsQuietly a)
    (hs : s.step a = some t) : t.Quiet := by
  cases a with
  | notify i =>
    rw [RingNotify.step] at hs
    split_ifs at hs with hi <;> cases hs
    · exact fun hf => absurd hi (by simp [(h hf).2.1 i])
    · exact nofun
  | receive =>
    cases hr : s.receiver <;> simp only [RingNotify.step, hr, some.injEq] at hs
    case wait =>
      obtain ⟨hne, rfl⟩ := guard_eq_some.mp hs
      exact fun hf => absurd hf hne
    all_goals subst hs
    case load =>
      exact fun hf => ⟨(h hf).1, (h hf).2.1, fun n hn => ReceiverPc.ack.inj hn ▸ (h hf).1⟩
    case ack n =>
      refine fun hf => ⟨?_, (h hf).2.1, nofun⟩
      show s.pendingEvents - n = 0
      rw [(h hf).1, (h hf).2.2 n hr]
      rfl
    case test =>
      refine fun hf => ⟨(h hf).1, (h hf).2.1, fun n hn => ?_⟩
      dsimp only at hn
      split at hn <;> cases hn
    case clear => exact fun _ => ⟨(hg rfl hr).1, (hg rfl hr).2, nofun⟩
  | timeout =>
    obtain ⟨-, rfl⟩ := guard_eq_some.mp hs
    exact fun hf => ⟨(h hf).1, (h hf).2.1, fun n hn => (ReceiverPc.ack.inj hn).symm⟩

/-- **No notification is lost** in a run that clears the flag quietly. -/
theorem noneLost_of_clearsQuietly {as : List (NotifyAct ι)}
    (hg : Along step ClearsQuietly {} as) (h : run step {} as = some s) : s.NoneLost := by
  have h0 : ({} : RingNotify ι).Quiet := fun _ => ⟨rfl, fun _ => rfl, fun _ => nofun⟩
  have hq := run_invariant_along (fun _ _ _ hq hg hs => Quiet.step hq hg hs) h0 hg h
  exact fun hpos hf => absurd (hq hf).1 (UInt32.ne_of_lt hpos).symm

/-- A notification, up to the test that its acknowledgement makes. -/
def once : List (NotifyAct Unit) := .replicate 2 (.notify ()) ++ .replicate 4 .receive

/-- The flag is cleared, and there is another notification. -/
def again : List (NotifyAct Unit) := once ++ .receive :: once

theorem noneLost_again : ∃ s, run step {} again = some s ∧ s.receiver = .clear ∧ s.NoneLost :=
  ⟨_, rfl, rfl, noneLost_of_clearsQuietly (show Along step _ {} again by decide) rfl⟩

/-- A notification between the test and the clearing. -/
theorem exists_lost_notification :
    ∃ s ∈ run step {} (once ++ [.notify (), .notify (), .receive]), ¬ s.NoneLost := by
  refine ⟨_, rfl, fun h => ?_⟩
  obtain ⟨_, hi⟩ | hr | hr := h (by decide) rfl
  · cases hi
  · cases hr
  · cases hr

end RingNotify

end Umq
