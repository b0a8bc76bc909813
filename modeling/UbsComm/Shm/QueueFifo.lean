import UbsComm.Shm.QueueInvariant

/-!
# The shared-memory queue is a bounded queue

The calls that have returned `SH_OK`, in the order in which they moved the
two tails, are a history of the bounded queue of `Fifo`
(`fifo_of_queueRun`): the items that come out are those that went in, each
once and in order, never more than the ring has cells. Both tails move in
the order of the reservations, so that a process that has reserved the
`k`-th cell publishes the `k`-th item, and one that has reserved the `k`-th
item returns it.

The words are the images of unbounded counts, the lengths of the four
records, between which there is never more than the size of the ring. What
the words do not show is how often the head has gone round between the
moment a process reads it and the moment it swaps it. The results therefore
hold for runs in which nobody is overtaken by `2 ^ 32` less the capacity
reservations meanwhile (`NotLapped`); with more than that, an item comes out
twice, or an empty queue is reported full (`exists_run_not_fifo`). They are
also for runs in which no producer is stuck between reserving and
publishing (`NotStuck`).
-/

namespace Shm

open Function List Machine QueueState Nat Option UInt32

variable {T : Type*} {again : Bool}

/-! ## What is observed -/

/-- **A bounded queue, first in first out**: the history is one of the
bounded queue, what has come out and what is held is what went in, and every
process finds its own calls in the history, in the order in which it made
them. -/
structure QueueState.IsFifo [DecidableEq T] (ring : Ring) (s : QueueState T) : Prop where
  legal : ∃ held, Machine.run (Fifo.step ring.size) [] s.events = some held
    ∧ s.pops ++ held = s.pushes ∧ held.length ≤ ring.size
  programOrder : ∀ p, (s.history.filter (·.1 = p)).map Prod.snd
    = (s.procs p).results.filterMap CallResult.event?

/-- Every cell is reserved by an enqueue, and not yet given back by the
dequeue that has taken its item. -/
def QueueState.Full (ring : Ring) (s : QueueState T) : Prop :=
  s.reserved.length = s.pops.length + ring.size

/-- Every item published is reserved by a dequeue. -/
def QueueState.Empty (s : QueueState T) : Prop := s.takers.length = s.pushes.length

/-- A step after which a call has returned full or empty is one at which
the queue was. -/
def QueueState.ReportsRight (ring : Ring) (s s' : QueueState T) : Prop :=
  ∀ p, ((s'.procs p).results = (s.procs p).results ++ [.full] → s.Full ring)
    ∧ ((s'.procs p).results = (s.procs p).results ++ [.empty] → s.Empty)

/-- No producer gives up waiting, and none is given up. -/
def NotStuck : QueueAction T → Prop
  | .enqueue _ _ | .dequeue _ | .step _ => True
  | .timeout _ => False
  | .check _ elapsed => elapsed = false

/-- The number of reservations by which a process has been overtaken since
it has read the head it is about to move. -/
def QueueState.overtaken (s : QueueState T) : Pc T → ℕ
  | .prodSpace _ _ seen | .prodCas _ _ seen => s.reserved.length - seen
  | .consCount _ _ seen | .consCas _ _ seen => s.takers.length - seen
  | _ => 0

/-- The process that goes on has been overtaken by fewer than `2 ^ 32` less
the capacity reservations. -/
def NotLapped (ring : Ring) (s : QueueState T) : QueueAction T → Prop
  | .step p => s.overtaken (s.procs p).pc < 2 ^ 32 - ring.size
  | .enqueue _ _ | .dequeue _ | .timeout _ | .check _ _ => True

instance : DecidablePred (NotStuck (T := T)) := fun
  | .enqueue _ _ | .dequeue _ | .step _ => .isTrue trivial
  | .timeout _ => .isFalse id
  | .check _ elapsed => inferInstanceAs (Decidable (elapsed = false))

instance (ring : Ring) (s : QueueState T) : DecidablePred (NotLapped ring s) := fun
  | .step p => inferInstanceAs (Decidable (s.overtaken (s.procs p).pc < _))
  | .enqueue _ _ | .dequeue _ | .timeout _ | .check _ _ => .isTrue trivial

/-- Both conditions. -/
def Orderly (ring : Ring) (s : QueueState T) (x : QueueAction T) : Prop :=
  NotStuck x ∧ NotLapped ring s x
deriving Decidable

/-! ## Steps and runs -/

namespace QueueState

section Steps

variable {ring : Ring} {s s' : QueueState T} {p : ℕ}

theorem ReportsRight.of_results (h : ∀ q, (s'.procs q).results = (s.procs q).results) :
    s.ReportsRight ring s' := by
  intro q
  rw [h q]
  exact ⟨fun h => absurd h (by simp), fun h => absurd h (by simp)⟩

theorem ReportsRight.of_ret {s₁ : QueueState T} {r : CallResult T}
    (hs₁ : s₁.procs = s.procs) (hfull : r = .full → s.Full ring)
    (hempty : r = .empty → s.Empty) : s.ReportsRight ring (s₁.ret p r) := by
  intro q
  rw [results_ret, hs₁]
  split
  case isTrue => exact ⟨fun h => hfull (by simpa using h), fun h => hempty (by simpa using h)⟩
  case isFalse => exact ⟨fun h => absurd h (by simp), fun h => absurd h (by simp)⟩

variable [DecidableEq T] {oHead : UInt32} {seen : ℕ}

section

variable (hi : s.Inv ring)
include hi

theorem Inv.pushes_le : s.pushes.length ≤ s.reserved.length := by
  have := hi.pushes_prefix.length_le
  rwa [length_map] at this

/-- The free space a producer computes is right, if it is not lapped. -/
theorem Inv.toNat_freeSpace (hle : seen ≤ s.pops.length + ring.size)
    (hlap : s.reserved.length - seen < 2 ^ 32 - ring.size) :
    (ring.capacity + s.cons.tail - ofNat seen).toNat = s.pops.length + ring.size - seen := by
  have hsum : ring.capacity + s.cons.tail = ofNat (s.pops.length + ring.size) := by
    rw [hi.consTail, add_comm, ofNat_add]
    rfl
  have hpops : s.pops.length ≤ s.reserved.length :=
    hi.pops_le.trans (hi.takers_le.trans hi.pushes_le)
  rw [hsum]
  exact toNat_ofNat_sub_ofNat hle (by omega)

/-- The count a consumer computes is right, if it is not lapped. -/
theorem Inv.toNat_dequeueCount (hle : seen ≤ s.takers.length)
    (hlap : s.takers.length - seen < 2 ^ 32 - ring.size) :
    (s.prod.tail - ofNat seen).toNat = s.pushes.length - seen := by
  have hpush : s.pushes.length ≤ s.takers.length + ring.size :=
    hi.pushes_le.trans (hi.reserved_le.trans (Nat.add_le_add_right hi.pops_le _))
  rw [hi.prodTail]
  exact toNat_ofNat_sub_ofNat (hle.trans hi.takers_le) (by omega)

/-- A producer that finds no space has seen the queue full. -/
theorem Inv.prodSpace {x : T} (hpc : s.PcOk ring p (.prodSpace x oHead seen))
    (hlap : s.reserved.length - seen < 2 ^ 32 - ring.size) :
    (1 > ring.capacity + s.cons.tail - oHead → s.Full ring)
      ∧ (¬ 1 > ring.capacity + s.cons.tail - oHead → s.PcOk ring p (.prodCas x oHead seen)) := by
  obtain ⟨rfl, hseen, hle⟩ := hpc
  have hfree := hi.toNat_freeSpace hle hlap
  have hone : (1 : UInt32).toNat = 1 := rfl
  have hres := hi.reserved_le
  rw [gt_iff_lt, lt_iff_toNat_lt]
  refine ⟨fun h => ?_, fun h => ⟨rfl, hseen, ?_⟩⟩
  · show s.reserved.length = s.pops.length + ring.size
    omega
  · omega

/-- A consumer that finds no item has seen the queue empty. -/
theorem Inv.consCount (hpc : s.PcOk ring p (.consCount again oHead seen))
    (hlap : s.takers.length - seen < 2 ^ 32 - ring.size) :
    (s.prod.tail - oHead = 0 → s.Empty)
      ∧ (s.prod.tail - oHead ≠ 0 → s.PcOk ring p (.consCas again oHead seen)) := by
  obtain ⟨rfl, hseen⟩ := hpc
  have hcount := hi.toNat_dequeueCount hseen hlap
  have htak := hi.takers_le
  rw [ne_eq, ← UInt32.toNat_inj, UInt32.toNat_zero]
  refine ⟨fun h => ?_, fun h => ⟨rfl, hseen, ?_⟩⟩
  · show s.takers.length = s.pushes.length
    omega
  · omega

omit hi in
theorem toUInt64_ne_none (w : UInt32) : w.toUInt64 ≠ UInt64.ofNat (2 ^ 64 - 1) := by
  intro h
  have := congrArg UInt64.toNat h
  exact absurd this (w.toNat_lt.trans (by decide)).ne

namespace Inv

/-- A producer that swaps the head it has read has the next ticket. -/
theorem prodCas {x : T} (hpc : s.PcOk ring p (.prodCas x oHead seen))
    (hlap : s.reserved.length - seen < 2 ^ 32 - ring.size) (hcas : s.prod.head = oHead) :
    ({ s with
      prod := { s.prod with head := oHead + 1 }
      reserved := s.reserved ++ [(p, x)] : QueueState T }.goto p
        (.prodWrite x oHead s.reserved.length)).Inv ring := by
  obtain ⟨hword, hseen, hroom⟩ := hpc
  obtain rfl : s.reserved.length = seen := by
    rw [← hcas, hi.prodHead] at hword
    exact (ofNat_eq_ofNat_iff hseen (by omega)).mp hword
  subst hcas
  refine (hi.reserve x hroom).goto ⟨hword, ?_, hi.pushes_le⟩
  exact getElem?_concat_length

/-- A consumer that swaps the head it has read has the next item, which is
not one to be skipped. -/
theorem consCas (hpc : s.PcOk ring p (.consCas again oHead seen))
    (hlap : s.takers.length - seen < 2 ^ 32 - ring.size) (hcas : s.cons.head = oHead) :
    ({ s with
      cons := { s.cons with head := oHead + 1 }
      takers := s.takers ++ [p] : QueueState T }.goto p
        (if again = false ∧ oHead.toUInt64 = (s.procs p).failedProd then
          .skipWait oHead else .consRead oHead s.takers.length)).Inv ring := by
  obtain ⟨hword, hseen, hitem⟩ := hpc
  obtain rfl : s.takers.length = seen := by
    rw [← hcas, hi.consHead] at hword
    exact (ofNat_eq_ofNat_iff hseen (by omega)).mp hword
  have hskip : ¬ (again = false ∧ oHead.toUInt64 = (s.procs p).failedProd) := by
    rintro ⟨-, h⟩
    exact toUInt64_ne_none oHead (h.trans (hi.noneFailed p))
  rw [if_neg hskip]
  subst hcas
  refine (hi.take hitem).goto ⟨hword, ?_, hi.pops_le⟩
  exact getElem?_concat_length

theorem goesOn {pc : Pc T} (hok : s.PcOk ring p pc) :
    (s.goto p pc).Inv ring ∧ s.ReportsRight ring (s.goto p pc) :=
  ⟨hi.goto hok, .of_results (results_goto pc)⟩

/-- **One access of a process.** -/
theorem stepProc (hlap : NotLapped ring s (.step p))
    (h : s.stepProc ring p = some s') : s'.Inv ring ∧ s.ReportsRight ring s' := by
  have hp := hi.procs p
  unfold QueueState.stepProc at h
  dsimp only [NotLapped] at hlap
  generalize hpc : (s.procs p).pc = pc at h hlap hp
  cases pc with
  | idle => cases h
  | prodHead x =>
    cases h
    exact hi.goesOn ⟨hi.prodHead, le_rfl, hi.reserved_le⟩
  | prodSpace x oHead seen =>
    dsimp only at h
    obtain ⟨hfull, hroom⟩ := hi.prodSpace hp hlap
    split at h <;> cases h
    · exact ⟨hi.ret_of_none rfl, .of_ret rfl (fun _ => hfull ‹_›) nofun⟩
    · exact hi.goesOn (hroom ‹_›)
  | prodCas x oHead seen =>
    dsimp only at h
    split at h <;> cases h
    · exact ⟨hi.prodCas hp hlap ‹_›, .of_results (results_goto _)⟩
    · exact hi.goesOn trivial
  | prodWrite x oHead k =>
    cases h
    refine ⟨(hi.write hpc).goto ⟨?_, update_self _ _ _⟩, .of_results (results_goto _)⟩
    exact { hp with }
  | prodTail x oHead k =>
    dsimp only at h
    split at h <;> cases h
    · exact ⟨hi.publish hpc ‹_›, .of_ret rfl nofun nofun⟩
    · exact hi.goesOn hp
  | prodSpin x oHead k =>
    cases h
    exact hi.goesOn hp
  | consHead again =>
    cases h
    exact hi.goesOn ⟨hi.consHead, le_rfl⟩
  | consCount again oHead seen =>
    dsimp only at h
    obtain ⟨hempty, hitem⟩ := hi.consCount hp hlap
    split at h <;> cases h
    · exact ⟨hi.ret_of_none rfl, .of_ret rfl nofun fun _ => hempty ‹_›⟩
    · exact hi.goesOn (hitem ‹_›)
  | consCas again oHead seen =>
    dsimp only at h
    split at h <;> cases h
    · exact ⟨hi.consCas hp hlap ‹_›, .of_results (results_goto _)⟩
    · exact hi.goesOn trivial
  | consRead oHead k =>
    cases h
    refine hi.goesOn ⟨hp, ?_⟩
    -- the item reserved is in its cell
    obtain ⟨hlt, -⟩ := List.getElem?_eq_some_iff.mp hp.mine
    have hitem := getElem?_eq_getElem (hlt.trans_le hi.takers_le)
    rw [hp.word, hi.cells k _ hp.unreturned hitem, hitem]
  | consWait oHead x k =>
    dsimp only at h
    split at h <;> cases h
    · refine hi.goesOn ⟨hp.1, hp.2, ?_⟩
      have hturn : ofNat k = ofNat s.pops.length := by
        rw [← hp.1.word, ← hi.consTail]
        exact Eq.symm ‹_›
      obtain ⟨hlt, -⟩ := List.getElem?_eq_some_iff.mp hp.1.mine
      have hwindow := (hi.takers_le.trans hi.pushes_le).trans hi.reserved_le
      exact (ofNat_eq_ofNat_iff hp.1.unreturned (by omega)).mp hturn
    · exact ⟨hi, .of_results fun _ => rfl⟩
  | consStore oHead x k =>
    cases h
    exact ⟨hi.release hpc, .of_ret rfl nofun nofun⟩
  | skipWait | skipStore | bumpRead | bumpWrite => exact hp.elim

/-- Looking for a stuck producer finds none before its time is over. -/
theorem check : (s.check p false).Inv ring ∧ s.ReportsRight ring (s.check p false) := by
  have hset (temp : UInt64) : let proc := { s.procs p with tempProdIdx := temp }
      let s' := { s with procs := update s.procs p proc }
      s'.Inv ring ∧ s.ReportsRight ring s' :=
    ⟨hi.setProc rfl rfl (hi.procs p),
      .of_results fun q => by rw [apply_update_of_eq Proc.results]; rfl⟩
  unfold QueueState.check
  dsimp only
  split_ifs with hhead htemp hmark
  · exact hset _
  · exact absurd hmark.2 (by simp)
  · exact ⟨hi, .of_results fun _ => rfl⟩
  · exact hset _

/-- **One step keeps the invariant, and reports what is so.** -/
theorem step {x : QueueAction T} (hx : Orderly ring s x)
    (h : queueStep ring s x = some s') : s'.Inv ring ∧ s.ReportsRight ring s' := by
  unfold queueStep at h
  cases x with
  | enqueue p x | dequeue p =>
    dsimp only at h
    split at h
    · exact some.inj h ▸ hi.goesOn trivial
    · cases h
  | step p => exact hi.stepProc hx.2 h
  | timeout p => exact hx.1.elim
  | check p elapsed =>
    dsimp only at h
    obtain rfl : elapsed = false := hx.1
    split at h
    · exact some.inj h ▸ hi.check
    · cases h

omit hi in
theorem init (zero : T) : { data := fun _ => zero : QueueState T }.Inv ring where
  prodHead := rfl
  prodTail := rfl
  consHead := rfl
  consTail := rfl
  pops_le := le_rfl
  takers_le := le_rfl
  pushes_prefix := prefix_rfl
  reserved_le := zero_le _
  legal := ⟨[], rfl⟩
  programOrder _ := rfl
  cells _ _ _ h := absurd h (by simp [pushes, events, Fifo.pushes])
  noneFailed _ := rfl
  procs _ := trivial

theorem isFifo : s.IsFifo ring := by
  obtain ⟨held, hheld⟩ := hi.legal
  refine ⟨⟨held, hheld, ?_, ?_⟩, hi.programOrder⟩
  · exact (Fifo.pops_append_eq hheld).trans (nil_append _)
  · exact Fifo.length_le_of_run (zero_le _) hheld

end Inv

end

end Steps

end QueueState

/-- **The shared-memory queue is a bounded queue, first in first out**, in
every run in which no producer is stuck and no process is lapped; and a call
that reports the queue full or empty has seen it so. -/
theorem fifo_of_queueRun [DecidableEq T] (ring : Ring) (zero : T)
    (xs : List (QueueAction T)) (s : QueueState T)
    (hxs : Machine.Along (queueStep ring) (Orderly ring) { data := fun _ => zero } xs)
    (h : queueRun ring zero xs = some s) :
    s.IsFifo ring ∧ ∀ x s', Orderly ring s x →
      queueStep ring s x = some s' → s.ReportsRight ring s' := by
  have hi : s.Inv ring := run_invariant_along
    (fun _ _ _ hi hx h => (QueueState.Inv.step hi hx h).1) (.init zero) hxs h
  exact ⟨hi.isFifo, fun x s' hx hstep => (hi.step hx hstep).2⟩

/-- A ring of two cells. -/
def twoCells : Ring := ⟨1, by decide⟩

/-- Processes `1` and `2` read the same head; `2` swaps it first, and `1`,
which has to try again, waits for `2` to publish. -/
def crossedRun : List (QueueAction ℕ) :=
  [.enqueue 1 5, .enqueue 2 6, .step 1, .step 2, .step 1, .step 2, .step 2,
    .step 1, .step 1, .step 1, .step 1, .step 1, .step 1, .step 2, .step 2,
    .step 1, .step 1, .dequeue 3, .step 3, .step 3, .step 3, .step 3,
    .step 3, .step 3]

theorem fifo_of_crossedRun : ∃ s, queueRun twoCells 0 crossedRun = some s ∧ s.pushes = [6, 5]
      ∧ s.pops = [6] ∧ s.IsFifo twoCells ∧ ∀ x s', Orderly twoCells s x →
        queueStep twoCells s x = some s' → s.ReportsRight twoCells s' :=
  ⟨_, rfl, rfl, rfl, fifo_of_queueRun twoCells 0 crossedRun _ (by decide) rfl⟩

/-! ## Calls that run alone -/

section Alone

variable {s : QueueState T} {p : ℕ}

/-- The steps of an `Enqueue` that nobody interferes with. -/
def enqueueAlone (p : ℕ) (x : T) : List (QueueAction T) :=
  .enqueue p x :: List.replicate 5 (.step p)

/-- The steps of a `Dequeue` that nobody interferes with. -/
def dequeueAlone (p : ℕ) : List (QueueAction T) := .dequeue p :: List.replicate 6 (.step p)

section

variable (ring : Ring)

/-- **An enqueue that finds room, alone, returns** with its item behind the
others. -/
theorem run_enqueueAlone (x : T) (hidle : (s.procs p).pc = .idle)
    (hturn : s.prod.tail = s.prod.head) (hroom : ring.capacity + s.cons.tail - s.prod.head ≠ 0) :
    run (queueStep ring) s (enqueueAlone p x) = some { s with
      prod := ⟨s.prod.head + 1, s.prod.head + 1⟩
      data := update s.data (ring.cell s.prod.head) x
      procs := update s.procs p { s.procs p with
        results := (s.procs p).results ++ [.enqueued x] }
      reserved := s.reserved ++ [(p, x)]
      history := s.history ++ [(p, .push x)] } := by
  simp [enqueueAlone, queueStep, stepProc, goto, ret, hidle, hturn, hroom, CallResult.event?]

/-- **A dequeue that finds an item, alone, returns** the next one. -/
theorem run_dequeueAlone (hidle : (s.procs p).pc = .idle) (hturn : s.cons.tail = s.cons.head)
    (hitem : s.prod.tail - s.cons.head ≠ 0)
    (hskip : s.cons.head.toUInt64 ≠ (s.procs p).failedProd) :
    run (queueStep ring) s (dequeueAlone p) = some { s with
      cons := ⟨s.cons.head + 1, s.cons.head + 1⟩
      procs := update s.procs p { s.procs p with
        results := (s.procs p).results ++ [.dequeued (s.data (ring.cell s.cons.head))] }
      takers := s.takers ++ [p]
      history := s.history ++ [(p, .pop (s.data (ring.cell s.cons.head)))] } := by
  simp [dequeueAlone, queueStep, stepProc, goto, ret, hidle, hturn, hitem, hskip, CallResult.event?]

/-- All four counters stand at `n`: the queue is empty, and process `1` is
free to work on it. -/
structure QueueState.Rests (s : QueueState T) (n : ℕ) : Prop where
  prodHead : s.prod.head = UInt32.ofNat n
  prodTail : s.prod.tail = UInt32.ofNat n
  consHead : s.cons.head = UInt32.ofNat n
  consTail : s.cons.tail = UInt32.ofNat n
  idle : (s.procs 1).pc = .idle
  noneFailed : (s.procs 1).failedProd = UInt64.ofNat (2 ^ 64 - 1)

/-- Process `1` sends an item to itself. -/
def roundTrip (x : T) : List (QueueAction T) := enqueueAlone 1 x ++ dequeueAlone 1

/-- … over and over. -/
def roundTrips (x : T) : ℕ → List (QueueAction T)
  | 0 => []
  | n + 1 => roundTrip x ++ roundTrips x n

/-- What a stretch of round trips leaves: the others have not moved, and as
many items have come out as went in. -/
structure QueueState.SameBut (s s' : QueueState T) (n : ℕ) : Prop where
  others : ∀ q, q ≠ 1 → s'.procs q = s.procs q
  reserved : s'.reserved.length = s.reserved.length + n
  pushes : s'.pushes.length = s.pushes.length + n
  pops : s'.pops.length = s.pops.length + n

theorem run_roundTrip {n : ℕ} (x : T) (hs : s.Rests n) :
    ∃ s', run (queueStep ring) s (roundTrip x) = some s' ∧ s'.Rests (n + 1) ∧ s.SameBut s' 1 := by
  have hroom : ring.capacity + s.cons.tail - s.prod.head ≠ 0 := by
    rw [hs.consTail, hs.prodHead, UInt32.add_sub_cancel]
    exact mt (congrArg toNat) ((toNat_ofNat_of_lt' ring.size_lt).trans_ne ring.size_pos.ne')
  have henq := run_enqueueAlone ring x hs.idle (hs.prodTail.trans hs.prodHead.symm) hroom
  have hitem : s.prod.head + 1 - s.cons.head ≠ 0 := by
    rw [hs.prodHead, hs.consHead, UInt32.add_comm, UInt32.add_sub_cancel]
    decide
  have hdeq := run_trans henq (run_dequeueAlone (p := 1) ring (by simp [hs.idle])
    (hs.consTail.trans hs.consHead.symm) hitem
    (by simpa [hs.noneFailed] using toUInt64_ne_none _))
  refine ⟨_, hdeq, ⟨?_, ?_, ?_, ?_, ?_, ?_⟩, ⟨?_, ?_, ?_, ?_⟩⟩
  · simp [hs.prodHead]
  · simp [hs.prodHead]
  · simp [hs.consHead]
  · simp [hs.consHead]
  · simp [hs.idle]
  · simp [hs.noneFailed]
  · intro q hq
    simp [hq]
  · simp
  · simp [pushes, events, Fifo.pushes, Fifo.Event.pushed?]
  · simp [pops, events, Fifo.pops, filterMap_cons, Fifo.Event.popped?]

theorem run_roundTrips (x : T) (k : ℕ) {s : QueueState T} {n : ℕ} (hs : s.Rests n) :
    ∃ s', run (queueStep ring) s (roundTrips x k) = some s'
      ∧ s'.Rests (n + k) ∧ s.SameBut s' k := by
  induction k generalizing s n with
  | zero => exact ⟨s, rfl, hs, ⟨fun _ _ => rfl, rfl, rfl, rfl⟩⟩
  | succ k ih =>
    obtain ⟨t, ht, hrest, hsame⟩ := run_roundTrip ring x hs
    obtain ⟨s', hs', hrest', hsame'⟩ := ih hrest
    refine ⟨s', run_trans ht hs', ?_, ⟨fun q hq => ?_, ?_, ?_, ?_⟩⟩
    · rwa [add_assoc, add_comm 1] at hrest'
    · rw [hsame'.others q hq, hsame.others q hq]
    · rw [hsame'.reserved, hsame.reserved, add_assoc, add_comm 1]
    · rw [hsame'.pushes, hsame.pushes, add_assoc, add_comm 1]
    · rw [hsame'.pops, hsame.pops, add_assoc, add_comm 1]

/-- A dequeue that was about to swap the head it had read goes through, if
it finds the same word there. -/
theorem run_consCasAlone {oHead : UInt32} {seen : ℕ}
    (hpc : (s.procs p).pc = .consCas again oHead seen) (hhead : s.cons.head = oHead)
    (htail : s.cons.tail = oHead) (hskip : oHead.toUInt64 ≠ (s.procs p).failedProd) :
    ∃ s', run (queueStep ring) s (replicate 4 (.step p)) = some s' ∧ s'.pushes = s.pushes
      ∧ s'.pops = s.pops ++ [s.data (ring.cell oHead)] := by
  simp [run, queueStep, stepProc, goto, ret, hpc, hhead, htail, hskip, CallResult.event?, pushes,
    pops, events, Fifo.pushes, Fifo.pops, Fifo.Event.pushed?, Fifo.Event.popped?]

end

theorem notStuck_roundTrips (x : T) (k : ℕ) : ∀ a ∈ roundTrips x k, NotStuck a := by
  induction k with
  | zero => exact nofun
  | succ k ih =>
    refine forall_mem_append.mpr ⟨fun a ha => ?_, ih⟩
    simp only [roundTrip, enqueueAlone, dequeueAlone, mem_append, mem_cons, mem_replicate] at ha
    rcases ha with (rfl | ⟨-, rfl⟩) | rfl | ⟨-, rfl⟩ <;> trivial

end Alone

/-- Process `0` reads the head and finds an item, but process `1` takes
it. -/
def outrunDequeue : List (QueueAction ℕ) :=
  enqueueAlone 1 7 ++ [.dequeue 0, .step 0, .step 0] ++ dequeueAlone 1

/-- A dequeue that is overtaken by `2 ^ 32` others finds the head where it
has read it, and takes an item a second time. -/
theorem exists_run_item_twice : ∃ xs s, queueRun twoCells 0 xs = some s ∧ (∀ x ∈ xs, NotStuck x)
      ∧ s.pops.length = s.pushes.length + 1 := by
  obtain ⟨s₀, hs₀, hrest, hpc, hfailed, hpush, hpops⟩ :
      ∃ s, queueRun twoCells 0 outrunDequeue = some s ∧ s.Rests 1
        ∧ (s.procs 0).pc = .consCas false 0 0
        ∧ (s.procs 0).failedProd = UInt64.ofNat (2 ^ 64 - 1)
        ∧ s.pushes = [7] ∧ s.pops = [7] :=
    ⟨_, rfl, ⟨rfl, rfl, rfl, rfl, rfl, rfl⟩, rfl, rfl, rfl, rfl⟩
  obtain ⟨s₁, hs₁, hrest₁, hsame⟩ := run_roundTrips twoCells 7 (2 ^ 32 - 1) hrest
  have hproc := hsame.others 0 (by decide)
  obtain ⟨s₂, hs₂, hpush₂, hpops₂⟩ := run_consCasAlone twoCells
    (by rw [hproc]; exact hpc) hrest₁.consHead hrest₁.consTail
    (by rw [hproc, hfailed]; decide)
  refine ⟨_, s₂, run_trans (run_trans hs₀ hs₁) hs₂, ?_, ?_⟩
  · refine forall_mem_append.mpr ⟨forall_mem_append.mpr
      ⟨by decide, notStuck_roundTrips _ _⟩, by decide⟩
  · rw [hpops₂, hpush₂, length_append, hsame.pops, hsame.pushes, hpush, hpops]
    rfl

/-- An enqueue that is overtaken by as many others as `2 ^ 32` is more than
the capacity finds no space in an empty queue. -/
theorem exists_run_wrongly_full :
    ∃ xs s s', queueRun twoCells 0 xs = some s ∧ (∀ x ∈ xs, NotStuck x)
      ∧ s.pushes.length = s.pops.length ∧ s.reserved.length = s.pops.length
      ∧ queueStep twoCells s (.step 0) = some s'
      ∧ (s'.procs 0).results = (s.procs 0).results ++ [.full] := by
  obtain ⟨s₀, hs₀, hrest, hpc, hpush, hpops, hres⟩ :
      ∃ s, queueRun twoCells 0 [.enqueue 0 9, .step 0] = some s ∧ s.Rests 0
        ∧ (s.procs 0).pc = .prodSpace 9 0 0
        ∧ s.pushes = [] ∧ s.pops = [] ∧ s.reserved = [] :=
    ⟨_, rfl, ⟨rfl, rfl, rfl, rfl, rfl, rfl⟩, rfl, rfl, rfl, rfl⟩
  obtain ⟨s₁, hs₁, hrest₁, hsame⟩ := run_roundTrips twoCells 7 (2 ^ 32 - 2) hrest
  have hpc₁ : (s₁.procs 0).pc = .prodSpace 9 0 0 :=
    (congrArg Proc.pc (hsame.others 0 (by decide))).trans hpc
  have hfree : 1 > twoCells.capacity + s₁.cons.tail - 0 := by
    rw [hrest₁.consTail]
    decide
  have hstep : queueStep twoCells s₁ (.step 0) = some (s₁.ret 0 .full) := by
    simp only [queueStep, stepProc, hpc₁, if_pos hfree]
  refine ⟨_, s₁, _, run_trans hs₀ hs₁, ?_, ?_, ?_, hstep, ?_⟩
  · exact forall_mem_append.mpr ⟨by decide, notStuck_roundTrips _ _⟩
  · rw [hsame.pushes, hsame.pops, hpush, hpops]
  · rw [hsame.reserved, hsame.pops, hres, hpops]
    rfl
  · exact results_ret _ 0

/-- **Where the queue is not a bounded queue**, though no producer is stuck:
an item comes out twice, an empty queue is reported full – both when a
process is lapped –, and one call reports empty and another full while
nothing moves, so that no number of items held tells both. -/
theorem exists_run_not_fifo :
    (∃ xs s, queueRun twoCells 0 xs = some s ∧ (∀ x ∈ xs, NotStuck x) ∧ ¬ s.IsFifo twoCells)
    ∧ (∃ xs s s', queueRun twoCells 0 xs = some s ∧ (∀ x ∈ xs, NotStuck x)
      ∧ s.pushes.length = s.pops.length
      ∧ queueStep twoCells s (.step 0) = some s'
      ∧ ¬ s.ReportsRight twoCells s')
    ∧ ∃ xs s s', queueRun twoCells 0 xs = some s ∧ (∀ x ∈ xs, NotStuck x)
      ∧ Machine.run (queueStep twoCells) s
        [.dequeue 0, .step 0, .step 0, .enqueue 2 9, .step 2, .step 2] = some s'
      ∧ (s'.procs 0).results = [.empty] ∧ (s'.procs 2).results = [.full]
      ∧ s'.prod = s.prod ∧ s'.cons = s.cons ∧ s'.history = s.history := by
  refine ⟨?_, ?_, ?_⟩
  · obtain ⟨xs, s, hrun, hxs, htwice⟩ := exists_run_item_twice
    refine ⟨xs, s, hrun, hxs, fun h => ?_⟩
    obtain ⟨held, -, heq, -⟩ := h.legal
    have := congrArg length heq
    rw [length_append] at this
    omega
  · obtain ⟨xs, s, s', hrun, hxs, hempty, hres, hstep, hfull⟩ := exists_run_wrongly_full
    refine ⟨xs, s, s', hrun, hxs, hempty, hstep, fun h => ?_⟩
    have hs : s.reserved.length = s.pops.length + 2 := (h 0).1 hfull
    omega
  · -- two items are on their way out: process `0` finds nothing to take, and process `2`
    -- no space
    refine ⟨enqueueAlone 1 7 ++ enqueueAlone 1 8 ++ .dequeue 1 :: replicate 3 (.step 1)
      ++ .dequeue 3 :: replicate 3 (.step 3), _, _, rfl, by decide, rfl, ?_⟩
    exact ⟨rfl, rfl, rfl, rfl, rfl⟩

end Shm
