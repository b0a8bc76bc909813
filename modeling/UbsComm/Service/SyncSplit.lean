import UbsComm.Lib.Execution
import UbsComm.Service.Channel

/-!
# Waiting for the fragments of a message

`SyncSendSplitWithWorkerPoll` sends a message in fragments and waits on a local object
that the callback of each fragment refers to. The callbacks run in other threads: when a
fragment is done, when its time is over, when the endpoint breaks. The function waits for
the callback of the last fragment only, and returns at once where a fragment cannot be
sent – the callbacks of the fragments before it then run on an object that is gone
(`exists_callback_after_return`), unless none of them is left at the return (`no_callback_iff`).
-/

namespace Service

open Machine

/-- Where the call stands. -/
inductive SplitPc where
  /-- Before the callback and the timer of a fragment are made. -/
  | prepare (segIndex : ℕ)
  /-- Before `PostSend`. -/
  | post (segIndex : ℕ)
  | wait
  | returned (result : SerCode)
deriving DecidableEq

/-- The call is over. -/
def SplitPc.isReturned : SplitPc → Bool
  | .returned _ => true
  | .prepare _ | .post _ | .wait => false

/-- A call, and the callbacks that are left. -/
structure SplitSend where
  pc : SplitPc
  /-- The fragments whose timers are in the context store. -/
  armed : Finset ℕ := ∅
  /-- The fragments whose timers a thread has taken out, to run their callbacks. -/
  taken : Finset ℕ := ∅
  /-- The result in `syncParam`. -/
  result : SerCode := .ok
  /-- The semaphore in `syncParam`. -/
  signalled : Bool := false

/-- A step of the call or of a callback. -/
inductive SplitAction where
  /-- Whether there is a callback, and what `PrepareTimerContext` returns. -/
  | prepare (segIndex : ℕ) (newCallback : Bool) (result : SerCode)
  /-- What `PostSend` returns. -/
  | post (segIndex : ℕ) (result : SerCode)
  | wake
  /-- A worker or the periodic manager takes the timer out. -/
  | take (segIndex : ℕ)
  | callback (segIndex : ℕ) (result : SerCode)

/-- The head of the loop. -/
def nextSegment (fragmentNum segIndex : ℕ) : SplitPc :=
  if segIndex < fragmentNum then .prepare segIndex else .wait

/-- **A step of the call, or of a thread that runs a callback.** -/
def splitStep (fragmentNum : ℕ) (s : SplitSend) : SplitAction → Option SplitSend
  | .prepare segIndex newCallback result =>
    if s.pc = .prepare segIndex then
      some <| if ¬newCallback then { s with pc := .returned .newObjectFailed }
      else if result ≠ .ok then { s with pc := .returned result }
      else { s with pc := .post segIndex, armed := insert segIndex s.armed }
    else none
  | .post segIndex result =>
    if s.pc = .post segIndex then
      -- `DestroyTimerContext` deletes the callback of a timer that is still in the store
      some <| if result ≠ .ok then
        { s with pc := .returned result, armed := s.armed.erase segIndex }
      else { s with pc := nextSegment fragmentNum (segIndex + 1) }
    else none
  | .wake => if s.pc = .wait ∧ s.signalled then some { s with pc := .returned s.result } else none
  | .take segIndex =>
    if segIndex ∈ s.armed then
      some { s with armed := s.armed.erase segIndex, taken := insert segIndex s.taken }
    else none
  | .callback segIndex result =>
    if segIndex ∈ s.taken then
      some { s with
        taken := s.taken.erase segIndex
        result := if result ≠ .ok then result else s.result
        signalled := s.signalled || segIndex == fragmentNum - 1 }
    else none

/-- Steps from the beginning of a call on. -/
def splitRun (fragmentNum : ℕ) : List SplitAction → Option SplitSend :=
  run (splitStep fragmentNum) { pc := nextSegment fragmentNum 0 }

/-- **No callback is left** but that of the fragment that is being posted. -/
def SplitSend.Settled (s : SplitSend) : Prop := s.taken = ∅ ∧ ∀ i ∈ s.armed, s.pc = .post i
deriving Decidable

variable {n : ℕ} {s s' : SplitSend} {x : SplitAction}

/-- The step at which the call returns deletes no callback but that of its fragment. -/
theorem splitStep_return (hs : s.pc.isReturned = false) (hs' : s'.pc.isReturned = true)
    (hstep : splitStep n s x = some s') :
    s'.taken = s.taken ∧ ∀ i, i ∈ s'.armed ↔ i ∈ s.armed ∧ s.pc ≠ .post i := by
  cases x with
  | prepare =>
    obtain ⟨hpc, rfl⟩ := guard_eq_some.mp hstep
    split_ifs at hs' ⊢
    · simp [hpc]
    · cases hs'
    · simp [hpc]
  | post =>
    obtain ⟨hpc, rfl⟩ := guard_eq_some.mp hstep
    split_ifs at hs' ⊢
    · simp [hpc, and_comm, eq_comm]
    · unfold nextSegment at hs'
      split_ifs at hs' <;> cases hs'
  | wake =>
    obtain ⟨⟨hpc, -⟩, rfl⟩ := guard_eq_some.mp hstep
    simp [hpc]
  | take | callback =>
    obtain ⟨-, rfl⟩ := guard_eq_some.mp hstep
    exact absurd hs' (by simp [hs])

/-- After the return, nothing but a callback that is left takes a step. -/
theorem splitStep_over (hs : s.pc.isReturned = true) (harmed : s.armed = ∅) (htaken : s.taken = ∅) :
    splitStep n s x = none := by
  have hpc {pc : SplitPc} (h : pc.isReturned = false) : s.pc ≠ pc := by
    rintro rfl
    exact Bool.false_ne_true (h.symm.trans hs)
  cases x with
  | prepare | post => exact if_neg (hpc rfl)
  | wake => exact if_neg fun h => hpc rfl h.1
  | take | callback => simp [splitStep, harmed, htaken]

/-- **From the return on no callback runs if and only if none was left at it**, whichever
way the call returns. -/
theorem no_callback_iff (n : ℕ) (s : SplitSend) (x : SplitAction) {s' : SplitSend}
    (hstep : splitStep n s x = some s') (hs : s.pc.isReturned = false)
    (hs' : s'.pc.isReturned = true) :
    (∀ ys u, run (splitStep n) s' ys = some u → ∀ i result, .callback i result ∉ ys)
      ↔ s.Settled := by
  obtain ⟨htaken, harmed⟩ := splitStep_return hs hs' hstep
  constructor
  · intro h
    refine ⟨Finset.eq_empty_of_forall_notMem fun i hi => ?_, fun i hi => ?_⟩
    · exact h [.callback i .ok] _ (by simp [splitStep, htaken, hi]; rfl) i .ok (by simp)
    · by_contra hpc
      have hi := (harmed i).mpr ⟨hi, hpc⟩
      exact h [.take i, .callback i .ok] _ (by simp [splitStep, hi]; rfl) i .ok (by simp)
  · rintro ⟨hnone, hpost⟩ ys u hu
    have hempty : s'.armed = ∅ := Finset.eq_empty_of_forall_notMem fun i hi => by
      obtain ⟨hi, hpc⟩ := (harmed i).mp hi
      exact hpc (hpost i hi)
    cases ys with
    | nil => simp
    | cons y ys =>
      rw [run_cons, splitStep_over hs' hempty (htaken.trans hnone)] at hu
      cases hu

/-- The second fragment is refused after the first one is done. -/
theorem no_callback_second_refused :
    ∃ s s', splitRun 2 [.prepare 0 true .ok, .post 0 .ok, .take 0, .callback 0 .ok,
        .prepare 1 true .ok] = some s ∧ splitStep 2 s (.post 1 .error) = some s'
      ∧ ∀ ys u, run (splitStep 2) s' ys = some u → ∀ i result, .callback i result ∉ ys :=
  ⟨_, _, rfl, rfl, (no_callback_iff 2 { pc := .post 1, armed := {1} } (.post 1 .error)
    rfl rfl rfl).mpr (by decide)⟩

/-- **A callback runs after the return**: the second fragment is refused while the first
one is under way, whose time is over later. -/
theorem exists_callback_after_return :
    ∃ s, splitRun 2 [.prepare 0 true .ok, .post 0 .ok, .prepare 1 true .ok, .post 1 .error,
        .take 0] = some s
      ∧ s.pc = .returned .error
      ∧ (splitStep 2 s (.callback 0 .timeout)).map SplitSend.result = some .timeout :=
  ⟨_, rfl, rfl, rfl⟩

end Service
