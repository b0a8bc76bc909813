import UbsComm.Lib.Counter
import UbsComm.Lib.Fifo

/-!
# The shared-memory queue

`ShmQueue` is a ring of cells in memory that several processes share. Two
pairs of 32-bit counters say how the cells are used, and all four only go
up. A producer reserves a cell by moving `prod.head` with a
compare-and-swap, writes its item there, and publishes it by moving
`prod.tail`, in the order of the reservations; a consumer reserves an item
by moving `cons.head`, copies it out, and gives the cell back by moving
`cons.tail`, again in order. The counters wrap at `2 ^ 32`, the cell of a
counter is its low bits.

Processes run concurrently, and one step of the model is one access of one
process to the shared memory, with the local computation up to the next.
Cells are copied in one step. Nothing else is left out of `Enqueue` and
`Dequeue`, nor of the treatment of producers that got stuck: `Enqueue` gives
up waiting for its turn to publish after a time, and
`CheckAndMarkProducerState` moves `prod.tail` over a reservation that has
not been published for long, which `Dequeue` then skips. What the clock
says is in the actions.
-/

namespace Shm

open Function Nat UInt32

/-! ## The ring -/

/-- The number of cells of a queue is a power of two that fits the counters,
as `Initialize` makes it (`exists_ring_of_roundCapacity`). -/
structure Ring where
  shift : ℕ
  shift_lt : shift < 32

section

variable (ring : Ring)

namespace Ring

/-- `mCapacity`. -/
def capacity : UInt32 := UInt32.ofNat (2 ^ ring.shift)

/-- `mMask`. -/
def mask : UInt32 := ring.capacity - 1

/-- The number of cells. -/
def size : ℕ := 2 ^ ring.shift

theorem size_pos : 0 < ring.size := Nat.two_pow_pos _

theorem size_lt : ring.size < 2 ^ 32 := Nat.pow_lt_pow_right Nat.one_lt_two ring.shift_lt

/-- The cell a counter stands at: `mQueueData[oHead & mMask]`. -/
def cell (oHead : UInt32) : UInt32 := oHead &&& ring.mask

theorem toNat_cell (n : ℕ) : (ring.cell (ofNat n)).toNat = n % ring.size := by
  have hmask : ring.mask = ofNat (2 ^ ring.shift - 1) := (ofNat_sub ring.size_pos).symm
  rw [Ring.cell, hmask]
  exact toNat_ofNat_and_mask ring.shift_lt.le n

/-- **Counts less than a turn of the ring apart have different cells.** -/
theorem cell_ne {m n : ℕ} (hne : m ≠ n) (hm : m < n + ring.size) (hn : n < m + ring.size) :
    ring.cell (ofNat m) ≠ ring.cell (ofNat n) := by
  intro h
  have hmod : m % ring.size = n % ring.size := by rw [← ring.toNat_cell, ← ring.toNat_cell, h]
  rcases le_total n m with hle | hle
  · have hdvd : ring.size ∣ m - n := (modEq_iff_dvd' hle).mp hmod.symm
    have := eq_zero_of_dvd_of_lt hdvd (by omega)
    omega
  · have hdvd : ring.size ∣ n - m := (modEq_iff_dvd' hle).mp hmod
    have := eq_zero_of_dvd_of_lt hdvd (by omega)
    omega

end Ring

end

/-- `NN_NextPower2`, where `32 - __builtin_clz` is the number of bits. -/
def nextPower2 (value : UInt32) : UInt32 :=
  if value < 2 then 2 else UInt32.ofNat (2 ^ (value - 1).toNat.size)

/-- The capacity `Initialize` gives a queue. -/
def roundCapacity (capacity : UInt32) : UInt32 :=
  if (capacity - 1) &&& capacity = 0 then capacity else nextPower2 capacity

theorem exists_ring_of_roundCapacity {c : UInt32} (hpos : 0 < c.toNat) (hle : c.toNat ≤ 2 ^ 31) :
    ∃ ring : Ring, roundCapacity c = ring.capacity := by
  have hsub : (c - 1).toNat = c.toNat - 1 := UInt32.toNat_sub_of_le c 1 (le_iff_toNat_le.mpr hpos)
  unfold roundCapacity
  split
  case isTrue h =>
    have hand : c.toNat &&& c.toNat - 1 = 0 := by
      have := congrArg toNat h
      rwa [UInt32.toNat_and, hsub, Nat.and_comm] at this
    obtain ⟨k, hk⟩ := (and_sub_one_eq_zero_iff_isPowerOfTwo hpos.ne').mp hand
    refine ⟨⟨k, ?_⟩, UInt32.toNat_inj.mp ?_⟩
    · exact (Nat.pow_lt_pow_iff_right Nat.one_lt_two).mp (hk ▸ c.toNat_lt)
    · exact hk.trans (toNat_ofNat_of_lt' (hk ▸ c.toNat_lt)).symm
  case isFalse h =>
    unfold nextPower2
    split
    · exact ⟨⟨1, by decide⟩, rfl⟩
    · refine ⟨⟨(c - 1).toNat.size, ?_⟩, rfl⟩
      rw [Nat.lt_succ_iff, size_le]
      omega

/-! ## Processes -/

/-- What a call has returned: `SH_OK` with the item, `SHM_QUEUE_FULL` or
`SHM_QUEUE_EMPTY`. -/
inductive CallResult (T : Type*) where
  | enqueued (x : T)
  | full
  | dequeued (x : T)
  | empty
deriving DecidableEq

/-- The event of a call that has returned `SH_OK`. -/
def CallResult.event? {T : Type*} : CallResult T → Option (Fifo.Event T)
  | .enqueued x => some (.push x)
  | .dequeued x => some (.pop x)
  | .full | .empty => none

/-- Where a process stands, between two of its accesses to the shared
memory: the access named is the one to come. For the record, `seen` is the
number of reservations that had been made when `oHead` was read, and
`ticket` the number of the process's own reservation. -/
inductive Pc (T : Type*) where
  | idle
  /-- `RequestProduceSpace`: read `prod.head`, … -/
  | prodHead (item : T)
  /-- … read `cons.tail`, … -/
  | prodSpace (item : T) (oHead : UInt32) (seen : ℕ)
  /-- … and move `prod.head`. -/
  | prodCas (item : T) (oHead : UInt32) (seen : ℕ)
  /-- `EnqueueItem`. -/
  | prodWrite (item : T) (oHead : UInt32) (ticket : ℕ)
  /-- `UpdateProdTail`: move `prod.tail`, … -/
  | prodTail (item : T) (oHead : UInt32) (ticket : ℕ)
  /-- … and look at the clock where it is not yet the process's turn. -/
  | prodSpin (item : T) (oHead : UInt32) (ticket : ℕ)
  /-- `RequestDequeue`: read `cons.head`, …; `again` is the second request
  of the call, after a failed producer has been skipped. -/
  | consHead (again : Bool)
  /-- … read `prod.tail`, … -/
  | consCount (again : Bool) (oHead : UInt32) (seen : ℕ)
  /-- … and move `cons.head`. -/
  | consCas (again : Bool) (oHead : UInt32) (seen : ℕ)
  /-- `DequeueItem`. -/
  | consRead (oHead : UInt32) (ticket : ℕ)
  /-- `UpdateConsTail`: wait for `cons.tail`, … -/
  | consWait (oHead : UInt32) (item : T) (ticket : ℕ)
  /-- … and move it. -/
  | consStore (oHead : UInt32) (item : T) (ticket : ℕ)
  /-- `UpdateConsTail` for a reservation to be skipped. -/
  | skipWait (oHead : UInt32)
  | skipStore (oHead : UInt32)
  /-- `prod.tail++` of `CheckAndMarkProducerState`: read, … -/
  | bumpRead
  /-- … and write. -/
  | bumpWrite (tail : UInt32)
deriving DecidableEq

/-- A process: where it stands, `mTempProdIdx`, `mFailedProd` and the
results of its calls, in the order in which it made them. -/
structure Proc (T : Type*) where
  pc : Pc T := .idle
  tempProdIdx : UInt64 := .ofNat (2 ^ 64 - 1)
  failedProd : UInt64 := .ofNat (2 ^ 64 - 1)
  results : List (CallResult T) := []

/-- `ShmQueueHeadTail`. -/
structure HeadTail where
  head : UInt32 := 0
  tail : UInt32 := 0
deriving DecidableEq

/-- The shared memory and the processes; and, for the record, the
reservations of the producers and of the consumers, by whom and in the order
in which they were made, and the history of the calls that have returned
`SH_OK`. -/
structure QueueState (T : Type*) where
  prod : HeadTail := {}
  cons : HeadTail := {}
  data : UInt32 → T
  procs : ℕ → Proc T := fun _ => {}
  reserved : List (ℕ × T) := []
  takers : List ℕ := []
  history : List (ℕ × Fifo.Event T) := []

variable {T : Type*}

namespace QueueState

/-- A process goes on. -/
def goto (s : QueueState T) (p : ℕ) (pc : Pc T) : QueueState T :=
  { s with procs := update s.procs p { s.procs p with pc := pc } }

/-- A process returns from a call. -/
def ret (s : QueueState T) (p : ℕ) (r : CallResult T) : QueueState T := { s with
    procs := update s.procs p { s.procs p with pc := .idle, results := (s.procs p).results ++ [r] }
    history := s.history ++ (r.event?.map (p, ·)).toList }

/-- The next access of a process. -/
def stepProc (ring : Ring) (s : QueueState T) (p : ℕ) : Option (QueueState T) :=
  match (s.procs p).pc with
  | .idle => none
  | .prodHead x => some (s.goto p (.prodSpace x s.prod.head s.reserved.length))
  | .prodSpace x oHead seen =>
    let freeSpace := ring.capacity + s.cons.tail - oHead
    if 1 > freeSpace then some (s.ret p .full)
    else some (s.goto p (.prodCas x oHead seen))
  | .prodCas x oHead _ =>
    if s.prod.head = oHead then
      some ({ s with
        prod := { s.prod with head := oHead + 1 }
        reserved := s.reserved ++ [(p, x)] }.goto p (.prodWrite x oHead s.reserved.length))
    else some (s.goto p (.prodHead x))
  | .prodWrite x oHead ticket =>
    some ({ s with data := update s.data (ring.cell oHead) x }.goto p (.prodTail x oHead ticket))
  | .prodTail x oHead ticket =>
    if s.prod.tail = oHead then
      some ({ s with prod := { s.prod with tail := oHead + 1 } }.ret p (.enqueued x))
    else some (s.goto p (.prodSpin x oHead ticket))
  | .prodSpin x oHead ticket => some (s.goto p (.prodTail x oHead ticket))
  | .consHead again => some (s.goto p (.consCount again s.cons.head s.takers.length))
  | .consCount again oHead seen =>
    let dequeueCount := s.prod.tail - oHead
    if dequeueCount = 0 then some (s.ret p .empty)
    else some (s.goto p (.consCas again oHead seen))
  | .consCas again oHead _ =>
    if s.cons.head = oHead then
      -- the first request of a call may hit the reservation to be skipped
      some ({ s with
        cons := { s.cons with head := oHead + 1 }
        takers := s.takers ++ [p] }.goto p
          (if again = false ∧ oHead.toUInt64 = (s.procs p).failedProd then
            .skipWait oHead else .consRead oHead s.takers.length))
    else some (s.goto p (.consHead again))
  | .consRead oHead ticket => some (s.goto p (.consWait oHead (s.data (ring.cell oHead)) ticket))
  | .consWait oHead x ticket =>
    if s.cons.tail = oHead then some (s.goto p (.consStore oHead x ticket))
    else some s
  | .consStore oHead x _ =>
    some ({ s with cons := { s.cons with tail := oHead + 1 } }.ret p (.dequeued x))
  | .skipWait oHead => if s.cons.tail = oHead then some (s.goto p (.skipStore oHead)) else some s
  | .skipStore oHead =>
    some ({ s with cons := { s.cons with tail := oHead + 1 } }.goto p (.consHead true))
  | .bumpRead => some (s.goto p (.bumpWrite s.prod.tail))
  | .bumpWrite tail => some ({ s with prod := { s.prod with tail := tail + 1 } }.goto p .idle)

/-- `CheckAndMarkProducerState`, up to `prod.tail++`; `elapsed` says whether
`mFailedTime` has passed. -/
def check (s : QueueState T) (p : ℕ) (elapsed : Bool) : QueueState T :=
  let none64 := UInt64.ofNat (2 ^ 64 - 1)
  let proc := s.procs p
  let set (proc : Proc T) := { s with procs := update s.procs p proc }
  if s.prod.head > s.prod.tail then
    if proc.tempProdIdx ≠ s.prod.tail.toUInt64 then
      set { proc with tempProdIdx := s.prod.tail.toUInt64 }
    else if proc.tempProdIdx ≠ none64 ∧ elapsed = true then
      set { proc with
        failedProd := proc.tempProdIdx, tempProdIdx := none64, pc := .bumpRead }
    else s
  else set { proc with tempProdIdx := none64 }

end QueueState

/-- A process begins a call, goes on with it, finds that the time to wait
for its turn to publish is over, or looks for a stuck producer. -/
inductive QueueAction (T : Type*) where
  | enqueue (p : ℕ) (x : T)
  | dequeue (p : ℕ)
  | step (p : ℕ)
  | timeout (p : ℕ)
  | check (p : ℕ) (elapsed : Bool)

/-- One access of a process. -/
def queueStep (ring : Ring) (s : QueueState T) : QueueAction T → Option (QueueState T)
  | .enqueue p x =>
    match (s.procs p).pc with
    | .idle => some (s.goto p (.prodHead x))
    | _ => none
  | .dequeue p =>
    match (s.procs p).pc with
    | .idle => some (s.goto p (.consHead false))
    | _ => none
  | .step p => s.stepProc ring p
  | .timeout p =>
    match (s.procs p).pc with
    | .prodSpin _ _ _ => some (s.ret p .full)
    | _ => none
  | .check p elapsed =>
    match (s.procs p).pc with
    | .idle => some (s.check p elapsed)
    | _ => none

/-- A run of a queue that `Initialize` has cleared to `zero`. -/
def queueRun (ring : Ring) (zero : T) (xs : List (QueueAction T)) : Option (QueueState T) :=
  Machine.run (queueStep ring) { data := fun _ => zero } xs

end Shm
