import UbsComm.Lib.Window

/-!
# The bounded ring buffer of the network layer

`NetRingBuffer` keeps at most `mCapacity` elements in an array that is used as a
ring: `mHead` is the place of the first element, `mTail` the place behind the last
one, and `mCount` says how many there are – which the two places alone do not, as
they agree both in an empty and in a full ring. Elements are pushed at both ends
and popped at the front, one by one or several at a time. Every operation holds
the spin lock from its first access to its last, so that a run is a sequence of
operations.

The array, the counters and the tests are those of the source; its counters never
leave `0 … mCapacity`, so they are natural numbers here. Over them stands what the
ring is for, a list of at most `mCapacity` elements (`Deque`), and
`NetRingBuffer.run_eq` says that nothing the operations return can tell the two
apart.
-/

namespace Common

open Function List Nat

variable {α : Type*}

/-- The members of the ring but for its lock and the interrupt flag, which only
`InterruptablePushBack` reads. -/
structure NetRingBuffer (α : Type*) where
  mRingBuf : ℕ → α
  mCapacity : ℕ
  mCount : ℕ
  mHead : ℕ
  mTail : ℕ

/-- The operations. -/
inductive RingOp (α : Type*)
  | pushFront (item : α)
  | pushBack (item : α)
  | popFront
  | popFrontN (n : ℕ)
  | getFront

namespace NetRingBuffer

/-- After the constructor, and after `Initialize`, which fails for the capacity `0`
and leaves the counters as they are; what is in the new array is not known. -/
def init (mRingBuf : ℕ → α) (mCapacity : ℕ) : NetRingBuffer α := ⟨mRingBuf, mCapacity, 0, 0, 0⟩

/-- The place behind a place. -/
def next (mCapacity i : ℕ) : ℕ := if i ≠ mCapacity - 1 then i + 1 else 0

/-- `PushBack` -/
def pushBack (r : NetRingBuffer α) (item : α) : Bool × NetRingBuffer α :=
  if r.mCapacity ≤ r.mCount then (false, r)
  else (true, { r with
    mRingBuf := update r.mRingBuf r.mTail item
    mTail := next r.mCapacity r.mTail
    mCount := r.mCount + 1 })

/-- `PushFront` -/
def pushFront (r : NetRingBuffer α) (item : α) : Bool × NetRingBuffer α :=
  if r.mCapacity ≤ r.mCount then (false, r)
  else
    let mHead := if r.mHead = 0 then r.mCapacity - 1 else r.mHead - 1
    (true, { r with
      mHead := mHead
      mRingBuf := update r.mRingBuf mHead item
      mCount := r.mCount + 1 })

/-- `PopFront` -/
def popFront (r : NetRingBuffer α) : Option α × NetRingBuffer α :=
  if r.mCount = 0 then (none, r)
  else (some (r.mRingBuf r.mHead),
    { r with mHead := next r.mCapacity r.mHead, mCount := r.mCount - 1 })

/-- `GetFront` -/
def getFront (r : NetRingBuffer α) : Option α :=
  if r.mCount = 0 then none else some (r.mRingBuf r.mHead)

/-- The loop of `PopFrontN`: what it copies, and where it leaves the head. -/
def copyFront (mRingBuf : ℕ → α) (mCapacity : ℕ) : ℕ → ℕ → List α × ℕ
  | mHead, 0 => ([], mHead)
  | mHead, n + 1 =>
    let rest := copyFront mRingBuf mCapacity (next mCapacity mHead) n
    (mRingBuf mHead :: rest.1, rest.2)

/-- `PopFrontN` -/
def popFrontN (r : NetRingBuffer α) (n : ℕ) : Option (List α) × NetRingBuffer α :=
  if r.mCount < n then (none, r)
  else
    let copied := copyFront r.mRingBuf r.mCapacity r.mHead n
    (some copied.1, { r with mHead := copied.2, mCount := r.mCount - n })

/-- An operation: what it hands out, or `none` when it returns `false`. -/
def exec (r : NetRingBuffer α) : RingOp α → Option (List α) × NetRingBuffer α
  | .pushFront item => ((r.pushFront item).map (bif · then some [] else none) id)
  | .pushBack item => ((r.pushBack item).map (bif · then some [] else none) id)
  | .popFront => r.popFront.map (Option.map ([·])) id
  | .popFrontN n => r.popFrontN n
  | .getFront => (r.getFront.map ([·]), r)

/-- What a caller sees of a run: the result of each operation and `Size()` after
it. -/
def run : NetRingBuffer α → List (RingOp α) → List (Option (List α) × ℕ)
  | _, [] => []
  | r, op :: ops => ((r.exec op).1, (r.exec op).2.mCount) :: run (r.exec op).2 ops

end NetRingBuffer

/-! ## What the ring is for -/

namespace Deque

/-- The same operations on a list of at most `capacity` elements. -/
def exec (capacity : ℕ) (l : List α) : RingOp α → Option (List α) × List α
  | .pushFront item => if l.length < capacity then (some [], item :: l) else (none, l)
  | .pushBack item => if l.length < capacity then (some [], l ++ [item]) else (none, l)
  | .popFrontN n => if n ≤ l.length then (some (l.take n), l.drop n) else (none, l)
  | .popFront =>
    match l with
    | [] => (none, [])
    | item :: rest => (some [item], rest)
  | .getFront => ((l.head?.map ([·])), l)

/-- What the operations return on a list. -/
def run (capacity : ℕ) : List α → List (RingOp α) → List (Option (List α) × ℕ)
  | _, [] => []
  | l, op :: ops =>
    ((exec capacity l op).1, (exec capacity l op).2.length)
      :: run capacity (exec capacity l op).2 ops

end Deque

/-! ## The ring holds the list -/

namespace NetRingBuffer

variable {r : NetRingBuffer α} {item : α} {n i : ℕ}

/-- The elements from the head on. -/
def contents (r : NetRingBuffer α) : List α :=
  (List.range r.mCount).map fun i => r.mRingBuf ((r.mHead + i) % r.mCapacity)

/-- **The counters agree**; with a capacity above `0` the places of both ends are
places of the array. -/
structure Wf (r : NetRingBuffer α) : Prop where
  fits : r.mCount ≤ r.mCapacity
  head : 0 < r.mCapacity → r.mHead < r.mCapacity
  tail : r.mTail = (r.mHead + r.mCount) % r.mCapacity

@[simp] theorem length_contents : r.contents.length = r.mCount := by simp [contents]

theorem next_eq (h : i < n) : next n i = (i + 1) % n := by
  unfold next
  split
  · rw [mod_eq_of_lt (by omega)]
  · rw [show i + 1 = n by omega, mod_self]

theorem next_add_mod (h : i < n) (k : ℕ) : (next n i + k) % n = (i + (k + 1)) % n := by
  rw [next_eq h, mod_add_mod, add_assoc, add_comm 1]

theorem next_lt (h : i < n) : next n i < n := by
  rw [next_eq h]
  exact mod_lt _ (zero_lt_of_lt h)

/-- What an operation leaves is what the list has to be. -/
structure Agrees (r : NetRingBuffer α) (out : Option (List α) × NetRingBuffer α)
    (want : Option (List α) × List α) : Prop where
  result : out.1 = want.1
  wf : out.2.Wf
  contents : out.2.contents = want.2
  capacity : out.2.mCapacity = r.mCapacity

theorem exec_pushBack (h : r.Wf) :
    Agrees r (r.exec (.pushBack item)) (Deque.exec r.mCapacity r.contents (.pushBack item)) := by
  unfold exec Deque.exec pushBack
  dsimp only
  rw [length_contents]
  obtain hge | hlt := lt_or_ge r.mCount r.mCapacity |>.symm
  · rw [if_pos hge, if_neg (not_lt.mpr hge)]
    exact ⟨rfl, h, rfl, rfl⟩
  rw [if_neg (not_le.mpr hlt), if_pos hlt]
  refine ⟨rfl, ⟨hlt, h.head, ?_⟩, ?_, rfl⟩
  · show next r.mCapacity r.mTail = (r.mHead + (r.mCount + 1)) % r.mCapacity
    rw [h.tail, next_eq (mod_lt _ (zero_lt_of_lt hlt)), mod_add_mod, add_assoc]
  · simp only [Prod.map, id, contents]
    rw [range_succ, map_append, map_singleton, ← h.tail, update_self]
    -- the element goes to a place that none of the others has
    refine congrArg (· ++ [item]) (map_congr_left fun i hi => update_of_ne ?_ _ _)
    rw [mem_range] at hi
    rw [h.tail]
    exact Cyclic.mod_ne_mod (le_add_right _ _) (by omega) (le_add_right _ _) (by omega)
      (by omega)

theorem exec_pushFront (h : r.Wf) :
    Agrees r (r.exec (.pushFront item)) (Deque.exec r.mCapacity r.contents (.pushFront item)) := by
  unfold exec Deque.exec pushFront
  dsimp only
  rw [length_contents]
  obtain hge | hlt := lt_or_ge r.mCount r.mCapacity |>.symm
  · rw [if_pos hge, if_neg (not_lt.mpr hge)]
    exact ⟨rfl, h, rfl, rfl⟩
  have hhead := h.head (zero_lt_of_lt hlt)
  rw [if_neg (not_le.mpr hlt), if_pos hlt]
  generalize hp : (if r.mHead = 0 then r.mCapacity - 1 else r.mHead - 1) = p
  have hlast : p < r.mCapacity ∧ next r.mCapacity p = r.mHead := by
    unfold next
    split at hp <;> split <;> omega
  have hshift (k : ℕ) : (p + (k + 1)) % r.mCapacity = (r.mHead + k) % r.mCapacity := by
    rw [← next_add_mod hlast.1, hlast.2]
  refine ⟨rfl, ⟨hlt, fun _ => hlast.1, ?_⟩, ?_, rfl⟩
  · show r.mTail = (p + (r.mCount + 1)) % r.mCapacity
    rw [hshift, h.tail]
  · simp only [Prod.map, id, contents]
    rw [range_succ_eq_map, map_cons, map_map, add_zero, mod_eq_of_lt hlast.1, update_self]
    refine congrArg (item :: ·) (map_congr_left fun i hi => ?_)
    rw [mem_range] at hi
    show update r.mRingBuf p item ((p + (i + 1)) % r.mCapacity) = _
    rw [update_of_ne, hshift]
    have := Cyclic.mod_ne_mod (n := r.mCapacity) (le_add_right p (i + 1)) (by omega)
      le_rfl (by omega) (by omega)
    rwa [mod_eq_of_lt hlast.1] at this

/-- **The loop of `PopFrontN`** copies the elements from the head on and moves the
head by their number, through the end of the array if need be. -/
theorem copyFront_eq (buf : ℕ → α) (h : i < n) (k : ℕ) :
    copyFront buf n i k = ((range k).map fun j => buf ((i + j) % n), (i + k) % n) := by
  induction k generalizing i with
  | zero => simp [copyFront, mod_eq_of_lt h]
  | succ k ih =>
    rw [copyFront, ih (next_lt h), next_add_mod h, range_succ_eq_map]
    simp only [next_add_mod h, map_cons, map_map, add_zero, mod_eq_of_lt h]
    rfl

theorem exec_popFrontN (h : r.Wf) :
    Agrees r (r.exec (.popFrontN n)) (Deque.exec r.mCapacity r.contents (.popFrontN n)) := by
  unfold exec Deque.exec popFrontN
  dsimp only
  rw [length_contents]
  obtain hlt | hn := lt_or_ge r.mCount n
  · rw [if_pos hlt, if_neg (not_le.mpr hlt)]
    exact ⟨rfl, h, rfl, rfl⟩
  rw [if_neg (not_lt.mpr hn), if_pos hn]
  obtain hzero | hpos := Nat.eq_zero_or_pos r.mCapacity
  · have hcount := eq_zero_of_le_zero (hzero ▸ h.fits)
    obtain rfl : n = 0 := by omega
    exact ⟨rfl, h, rfl, rfl⟩
  rw [copyFront_eq _ (h.head hpos)]
  refine ⟨?_, ⟨?_, fun _ => mod_lt _ hpos, ?_⟩, ?_, rfl⟩
  · rw [contents, ← map_take, take_range, min_eq_left hn]
  · exact (sub_le _ _).trans h.fits
  · show r.mTail = ((r.mHead + n) % r.mCapacity + (r.mCount - n)) % r.mCapacity
    rw [h.tail, mod_add_mod, add_assoc, Nat.add_sub_cancel' hn]
  · refine ext_getElem (by simp [contents]) fun j _ _ => ?_
    simp [contents, add_assoc]

/-- `PopFront` is `PopFrontN` of one element, and `GetFront` gives its answer. -/
theorem exec_popFront (r : NetRingBuffer α) : r.exec .popFront = r.exec (.popFrontN 1) ∧
      r.exec .getFront = ((r.exec (.popFrontN 1)).1, r) := by
  unfold exec popFront getFront popFrontN
  simp only [lt_one_iff]
  split <;> exact ⟨rfl, rfl⟩

theorem deque_popFront (capacity : ℕ) (l : List α) :
    Deque.exec capacity l .popFront = Deque.exec capacity l (.popFrontN 1) ∧
      Deque.exec capacity l .getFront = ((Deque.exec capacity l (.popFrontN 1)).1, l) := by
  cases l <;> simp [Deque.exec]

/-- **One operation**: the ring does what the list does. -/
theorem exec_agrees (h : r.Wf) (op : RingOp α) :
    Agrees r (r.exec op) (Deque.exec r.mCapacity r.contents op) := by
  cases op with
  | pushFront item => exact exec_pushFront h
  | pushBack item => exact exec_pushBack h
  | popFrontN n => exact exec_popFrontN h
  | popFront =>
    rw [(exec_popFront r).1, (deque_popFront _ _).1]
    exact exec_popFrontN h
  | getFront =>
    rw [(exec_popFront r).2, (deque_popFront _ _).2]
    exact ⟨(exec_popFrontN h).result, h, rfl, rfl⟩

/-- **The ring buffer is a bounded double-ended queue.** For every capacity and every
sequence of operations the results, and the size after each, are those of the list;
in particular a push on a full ring and a pop of more elements than there are fail
and change nothing. -/
theorem run_eq (mRingBuf : ℕ → α) (mCapacity : ℕ) (ops : List (RingOp α)) :
    (init mRingBuf mCapacity).run ops = Deque.run mCapacity [] ops := by
  have hrun (r : NetRingBuffer α) (h : r.Wf) :
      r.run ops = Deque.run r.mCapacity r.contents ops := by
    induction ops generalizing r with
    | nil => rfl
    | cons op ops ih =>
      have hop := exec_agrees h op
      rw [run, Deque.run, ih _ hop.wf, hop.result, hop.contents, hop.capacity, ← hop.contents,
        length_contents]
  exact hrun _ ⟨zero_le _, id, (zero_mod _).symm⟩

end NetRingBuffer

end Common
