import UbsComm.Service.Timer

/-!
# What the periodic thread leaves in its queues

Each periodic thread has `M_MAX_BATCH_NUM` priority queues of timers, ordered by the
second after which their time is up and then by their number. `ProcessTimeOut` goes
through the queues and takes timers from the top while the one at the top is finished
or out of time; at the first that is neither it leaves the queue.

A queue is kept here as the list of its timers in the order in which `top` gives
them, with the order as part of the type. Timers that never time out have the time
`0`: they are the first of all, and hide everything behind them.
-/

namespace Service

open List

/-- **A priority queue** with `HcomServiceTimerCompare`; of timers with equal keys
either may be the first. -/
structure TimerQueue where
  timers : List HcomServiceTimer
  sorted : timers.Pairwise fun a b => a.before b = true

/-- The loop over one queue, at the second `now`: the timers it hands on, and what
stays in the queue. -/
def scanQueue (now : ℕ) : List HcomServiceTimer → List HcomServiceTimer × List HcomServiceTimer
  | [] => ([], [])
  | top :: rest =>
    if top.isFinished || top.isTimeOut now then
      (top :: (scanQueue now rest).1, (scanQueue now rest).2)
    else ([], top :: rest)

theorem scanQueue_append (now : ℕ) (l : List HcomServiceTimer) :
    (scanQueue now l).1 ++ (scanQueue now l).2 = l := by
  induction l with
  | nil => rfl
  | cons top rest ih =>
    rw [scanQueue]
    split
    · exact congrArg (top :: ·) ih
    · rfl

/-- **The first half of `ProcessTimeOut`**: the timers for `mHandleQueue`, from the
last queue to the first, and the queues after it. -/
def scanQueues (now : ℕ) (queues : Fin maxBatchNum → TimerQueue) :
    List HcomServiceTimer × (Fin maxBatchNum → TimerQueue) :=
  ((List.finRange maxBatchNum).reverse.flatMap fun i => (scanQueue now (queues i).timers).1,
    fun i =>
      { timers := (scanQueue now (queues i).timers).2
        sorted := (List.pairwise_append.mp
          ((scanQueue_append now (queues i).timers).symm ▸ (queues i).sorted)).2.1 })

/-- The timers the thread is there to remove: finished, or with a deadline that is
not after `now`. -/
def HcomServiceTimer.Over (timer : HcomServiceTimer) (now : ℕ) : Prop :=
  timer.isFinished = true ∨ (timer.timeout ≠ 0 ∧ timer.timeout ≤ now)
deriving Decidable

/-- The timers at which the loop stops. -/
def HcomServiceTimer.Stops (timer : HcomServiceTimer) (now : ℕ) : Prop :=
  ¬(timer.isFinished || timer.isTimeOut now) = true

theorem HcomServiceTimer.over_of_not_stops {timer : HcomServiceTimer} {now : ℕ}
    (h : ¬timer.Stops now) : timer.Over now := by
  unfold Stops isTimeOut at h
  simp only [Bool.or_eq_true, Bool.and_eq_true, decide_eq_true_eq, not_not] at h
  exact h.imp_right fun ⟨hne, hlt⟩ => ⟨hne, Nat.le_of_lt hlt⟩

/-- **One queue** is left with exactly the timers that are not over iff from the first
timer at which the loop stops on no timer is over. -/
theorem scanQueue_eq_filter_iff (now : ℕ) (l : List HcomServiceTimer) :
    (scanQueue now l).2 = l.filter (fun timer => ¬timer.Over now)
      ↔ (∀ a ∈ l, a.Stops now → ¬a.Over now) ∧ l.Pairwise fun a b => a.Stops now → ¬b.Over now := by
  induction l with
  | nil => simp [scanQueue]
  | cons top rest ih =>
    rw [scanQueue, forall_mem_cons, pairwise_cons]
    split
    case isTrue h =>
      have hstops : ¬top.Stops now := not_not_intro h
      rw [filter_cons_of_neg (by simpa using HcomServiceTimer.over_of_not_stops hstops), ih]
      simp [hstops]
    case isFalse h =>
      have hstops : top.Stops now := h
      refine ⟨fun heq => ?_, fun ⟨⟨htop, _⟩, hrest, _⟩ => ?_⟩
      · have hall := filter_eq_self.mp heq.symm
        simp only [decide_not, Bool.not_eq_true', decide_eq_false_iff_not, forall_mem_cons] at hall
        exact ⟨⟨fun _ => hall.1, fun a ha _ => hall.2 a ha⟩, fun b hb _ => hall.2 b hb,
          List.Pairwise.imp_of_mem (fun _ hb _ _ => hall.2 _ hb)
            (pairwise_of_forall fun _ _ => trivial)⟩
      · refine (filter_eq_self.mpr fun a ha => ?_).symm
        rw [decide_eq_true_eq]
        obtain rfl | ha := mem_cons.mp ha
        · exact htop hstops
        · exact hrest a ha hstops

/-- **The periodic thread leaves no expired or finished timer behind, and keeps the
others as they were, exactly when** in the order of the queue no timer that is over
comes after one at which the loop stops, and none stops it itself – that is, when no
timer without a deadline stands before it, no timer that is neither finished nor due
stands before a finished one, and no deadline is this very second. -/
theorem scanQueues_eq_filter_iff (now : ℕ) (queues : Fin maxBatchNum → TimerQueue)
    (i : Fin maxBatchNum) :
    ((scanQueues now queues).2 i).timers = (queues i).timers.filter (fun timer => ¬timer.Over now)
      ↔ (∀ a ∈ (queues i).timers, a.Stops now → ¬a.Over now) ∧
        (queues i).timers.Pairwise fun a b => a.Stops now → ¬b.Over now :=
  scanQueue_eq_filter_iff now (queues i).timers

/-- A timer that never times out hides one whose time was up at the second `1`. -/
theorem exists_expired_left : ∃ queue : TimerQueue, ∃ timer : HcomServiceTimer, timer.timeout = 1 ∧
      ∀ i, timer ∈ ((scanQueues 100 fun _ => queue).2 i).timers :=
  ⟨⟨[.new 0 0 0 (-1), .new 0 0 0 1], by decide⟩, .new 0 0 0 1, rfl,
    fun _ => mem_cons_of_mem _ mem_cons_self⟩

end Service
