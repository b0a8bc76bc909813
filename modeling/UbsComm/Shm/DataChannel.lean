import UbsComm.Lib.Execution

/-!
# The buckets of a shared-memory data channel

`ShmDataChannel` cuts a region that two processes map into buckets of one size. A writer
occupies the first bucket it finds free, by a compare-and-swap on the state of the bucket,
and publishes the offset of the bucket; the reader turns the offset into an address of its
own mapping, and marks the bucket free there.

The offset is kept in 64 bits, but `mOptions.buckSize * i` is computed in 32. Beyond 4 GiB
it wraps, and two writers get one address (`exists_one_address`). A bucket whose offset
does not wrap has one owner and one address, in every state of every run (`oneOwner_iff`).
-/

namespace Shm

open Function List Machine Nat

/-! ## The region -/

/-- The layout of the region, as `ValidateOptions` accepts it. -/
structure DataChannelOptions where
  buckSize : ℕ
  buckCount : ℕ
  buckSize_pos : 0 < buckSize
  buckSize_lt : buckSize < 2 ^ 32
  buckCount_pos : 0 < buckCount
  buckCount_lt : buckCount < 2 ^ 16

/-- The offset that `TryOccupyWithWait` returns for bucket `i`. -/
def DataChannelOptions.offset (opt : DataChannelOptions) (i : ℕ) : ℕ := opt.buckSize * i % 2 ^ 32

theorem DataChannelOptions.bucket_le (opt : DataChannelOptions) {i n : ℕ} (h : i < n) :
    opt.buckSize * i + opt.buckSize ≤ opt.buckSize * n := mul_le_mul_left _ h

variable {opt : DataChannelOptions} {i offset : ℕ}

/-- A mapping of the region. -/
structure DataChannel (opt : DataChannelOptions) where
  mBuckBaseAddress : ℕ
  mapped : mBuckBaseAddress + opt.buckSize * opt.buckCount < 2 ^ 64

/-- The results of the operations. -/
inductive ShCode where
  | ok | timeOut | chBroken | paramInvalid

namespace DataChannel

/-- `mBuckEndAddress` -/
def mBuckEndAddress (ch : DataChannel opt) : ℕ := ch.mBuckBaseAddress + opt.buckSize * opt.buckCount

/-- The address that `TryOccupyWithWait` returns for bucket `i`. -/
def address (ch : DataChannel opt) (i : ℕ) : ℕ := opt.offset i + ch.mBuckBaseAddress

/-- `GetAddressByOffset` -/
def getAddressByOffset (ch : DataChannel opt) (offset : ℕ) : Except ShCode ℕ :=
  let tmpIndex := offset / opt.buckSize
  if opt.buckCount ≤ tmpIndex then .error .paramInvalid else
    let address := (ch.mBuckBaseAddress + offset) % 2 ^ 64
    if (tmpIndex * opt.buckSize + ch.mBuckBaseAddress) % 2 ^ 64 ≠ address then
      .error .paramInvalid
    else .ok address

/-- The bucket whose state `MarkFree` swaps. -/
def indexOf (ch : DataChannel opt) (address : ℕ) : Option ℕ :=
  if ch.mBuckEndAddress ≤ address ∨ address < ch.mBuckBaseAddress then none else
    let tmpIndex := (address - ch.mBuckBaseAddress) / opt.buckSize
    if tmpIndex * opt.buckSize + ch.mBuckBaseAddress ≠ address then none else some tmpIndex

variable {ch : DataChannel opt}

/-- **An offset leads to a bucket only if it is the offset of the bucket.** -/
theorem getAddressByOffset_eq_bucket (hi : i < opt.buckCount) :
    ch.getAddressByOffset offset = .ok (ch.mBuckBaseAddress + opt.buckSize * i) ↔
      offset = opt.buckSize * i := by
  have hle := opt.bucket_le hi
  have hpos := opt.buckSize_pos
  have hmapped := ch.mapped
  unfold getAddressByOffset
  constructor
  · intro h
    dsimp only at h
    split_ifs at h with hcount
    have hroom := opt.bucket_le (Nat.lt_of_not_le hcount)
    have hmod := div_add_mod offset opt.buckSize
    have hlt := mod_lt offset hpos
    rw [mod_eq_of_lt (by omega), Except.ok.injEq] at h
    exact Nat.add_left_cancel h
  · rintro rfl
    rw [Nat.mul_div_cancel_left i hpos, if_neg (Nat.not_le.mpr hi), Nat.mul_comm i, Nat.add_comm]
    simp only [ne_eq, not_true_eq_false, ↓reduceIte]
    rw [mod_eq_of_lt (by omega), Nat.add_comm]

theorem eq_of_indexOf {a : ℕ} (h : ch.indexOf a = some i) :
    a = opt.buckSize * i + ch.mBuckBaseAddress := by
  dsimp only [indexOf] at h
  split_ifs at h with hout haddr
  cases h
  rw [Nat.mul_comm]
  exact (of_not_not haddr).symm

end DataChannel

/-! ## Occupying and marking free -/

/-- `ShmBuckState` -/
inductive BuckState where
  | free | occupied
deriving DecidableEq

/-- The variables of a call of `TryOccupyWithWait`, before its test of bucket `i`. -/
structure Scan where
  waitPeriodUs : ℕ
  timeCountUs : Int
  timePassedUs : ℕ := 0
  i : ℕ := 0

/-- A thread is in a call, or outside of one and knows what the last one returned. -/
inductive OccupyPc where
  | idle (result : ShCode)
  | scan (c : Scan)

/-- The buckets, and where the threads are. -/
structure DataState where
  mMeta : ℕ → BuckState := fun _ => .free
  pc : ℕ → OccupyPc := fun _ => .idle .ok
  /-- The buckets that have been occupied and not been marked free since. -/
  live : List ℕ := []

/-- A thread goes on. -/
def DataState.goto (s : DataState) (t : ℕ) (pc : OccupyPc) : DataState :=
  { s with pc := update s.pc t pc }

/-- What happens to a channel. -/
inductive DataAction where
  | tryOccupyWithWait (t waitPeriodUs : ℕ) (timeoutSecond : Int)
  /-- A thread goes on; `broken` is what `mState` says. -/
  | step (t : ℕ) (broken : Bool)
  /-- Somebody marks an address free, in the reader's mapping or in the writer's. -/
  | markFree (reader : Bool) (address : ℕ)

/-- One access to the buckets. -/
def dataStep (ch peer : DataChannel opt) (s : DataState) : DataAction → Option DataState
  | .tryOccupyWithWait t waitPeriodUs timeoutSecond =>
    match s.pc t with
    | .idle _ => some (s.goto t (.scan ⟨waitPeriodUs, timeoutSecond * 1000 * 1000, 0, 0⟩))
    | .scan _ => none
  | .step t broken =>
    match s.pc t with
    | .idle _ => none
    | .scan c => some <|
      if c.i < opt.buckCount then
        if s.mMeta c.i = .free then
          { s.goto t (.idle .ok) with
            mMeta := update s.mMeta c.i .occupied, live := c.i :: s.live }
        else s.goto t (.scan { c with i := c.i + 1 })
      else if c.timeCountUs < 0 then s.goto t (.scan { c with i := 0 })
      else if c.timeCountUs = 0 ∨ c.timeCountUs ≤ c.timePassedUs then s.goto t (.idle .timeOut)
      else if broken then s.goto t (.idle .chBroken)
      else s.goto t (.scan { c with i := 0, timePassedUs := c.timePassedUs + c.waitPeriodUs })
  | .markFree reader address =>
    let m := if reader then peer else ch
    some <| match m.indexOf address with
    | none => s
    | some i =>
      if s.mMeta i = .occupied then
        { s with
          mMeta := update s.mMeta i .free
          live := s.live.filter fun j => m.address j ≠ address }
      else s

/-- **Every occupied bucket has one owner and one address.** -/
structure DataState.OneOwner (ch peer : DataChannel opt) (s : DataState) : Prop where
  apart : s.live.Pairwise fun i j => i ≠ j ∧
    (ch.address i + opt.buckSize ≤ ch.address j ∨ ch.address j + opt.buckSize ≤ ch.address i)
  inside : ∀ i ∈ s.live,
    ch.mBuckBaseAddress ≤ ch.address i ∧ ch.address i + opt.buckSize ≤ ch.mBuckEndAddress
  same : ∀ i ∈ s.live, peer.getAddressByOffset (opt.offset i) =
    .ok (peer.mBuckBaseAddress + opt.buckSize * i)

section Runs

variable {ch peer : DataChannel opt} {s s' : DataState} {x : DataAction} {mMeta : ℕ → BuckState}
  {live : List ℕ}

/-- What holds of every run. A bucket whose offset wraps may be marked free in place of
another, so that only the states of the others can be relied on. -/
structure BucketsOk (opt : DataChannelOptions) (mMeta : ℕ → BuckState) (live : List ℕ) : Prop where
  bounded : ∀ i ∈ live, i < opt.buckCount
  occupied : ∀ i ∈ live, opt.buckSize * i < 2 ^ 32 → mMeta i = .occupied
  once : live.Pairwise fun i j => opt.buckSize * j < 2 ^ 32 → i ≠ j

theorem BucketsOk.occupy (h : BucketsOk opt mMeta live) (hi : i < opt.buckCount)
    (hfree : mMeta i = .free) : BucketsOk opt (update mMeta i .occupied) (i :: live) := by
  have hne : ∀ j ∈ live, opt.buckSize * j < 2 ^ 32 → i ≠ j := by
    rintro j hj hfits rfl
    cases hfree.symm.trans (h.occupied i hj hfits)
  refine ⟨forall_mem_cons.mpr ⟨hi, h.bounded⟩, forall_mem_cons.mpr ⟨fun _ => update_self .., ?_⟩,
    pairwise_cons.mpr ⟨hne, h.once⟩⟩
  intro j hj hfits
  rw [update_of_ne (hne j hj hfits).symm]
  exact h.occupied j hj hfits

theorem BucketsOk.markFree {a : ℕ} (h : BucketsOk opt mMeta live)
    (haddr : a = opt.buckSize * i + ch.mBuckBaseAddress) :
    BucketsOk opt (update mMeta i .free) (live.filter fun j => ch.address j ≠ a) := by
  refine ⟨fun j hj => h.bounded j (mem_of_mem_filter hj), fun j hj hfits => ?_, h.once.filter _⟩
  obtain ⟨hmem, hother⟩ := mem_filter.mp hj
  -- a bucket whose offset does not wrap is not marked free under the address of another
  have hne : j ≠ i := by
    rintro rfl
    refine of_decide_eq_true hother ?_
    rw [haddr, DataChannel.address, DataChannelOptions.offset, mod_eq_of_lt hfits]
  rw [update_of_ne hne]
  exact h.occupied j hmem hfits

theorem dataStep_bucketsOk (h : BucketsOk opt s.mMeta s.live)
    (hstep : dataStep ch peer s x = some s') : BucketsOk opt s'.mMeta s'.live := by
  cases x with
  | tryOccupyWithWait =>
    dsimp only [dataStep] at hstep
    split at hstep <;> cases hstep
    exact h
  | step =>
    dsimp only [dataStep] at hstep
    split at hstep <;> cases hstep
    split_ifs with hi hfree
    · exact h.occupy hi hfree
    all_goals exact h
  | markFree reader =>
    cases hstep
    generalize (if reader = true then peer else ch) = m
    split
    · exact h
    next hi =>
      split_ifs
      · exact h.markFree (DataChannel.eq_of_indexOf hi)
      · exact h

/-- **One owner and one address, as long as no offset wraps.** -/
theorem oneOwner_iff (xs : List DataAction) (h : run (dataStep ch peer) {} xs = some s) :
    s.OneOwner ch peer ↔ ∀ i ∈ s.live, opt.buckSize * i < 2 ^ 32 := by
  have hinv : BucketsOk opt s.mMeta s.live :=
    run_invariant (P := fun s => BucketsOk opt s.mMeta s.live)
      (fun _ _ _ => dataStep_bucketsOk) ⟨by simp, by simp, .nil⟩ h
  constructor
  · intro hone i hi
    rw [← (DataChannel.getAddressByOffset_eq_bucket (hinv.bounded i hi)).mp (hone.same i hi)]
    exact mod_lt _ (by decide)
  · intro hfits
    have haddr : ∀ i ∈ s.live, ch.address i = opt.buckSize * i + ch.mBuckBaseAddress :=
      fun i hi => congrArg (· + _) (mod_eq_of_lt (hfits i hi))
    refine ⟨hinv.once.imp_of_mem fun {i j} hi hj hne => ⟨hne (hfits j hj), ?_⟩, fun i hi => ?_,
      fun i hi => ?_⟩
    · rw [haddr i hi, haddr j hj]
      obtain hlt | hlt := Nat.lt_or_gt_of_ne (hne (hfits j hj))
      all_goals
        have := opt.bucket_le hlt
        omega
    · have := opt.bucket_le (hinv.bounded i hi)
      rw [haddr i hi, DataChannel.mBuckEndAddress]
      omega
    · exact (DataChannel.getAddressByOffset_eq_bucket (hinv.bounded i hi)).mpr
        (mod_eq_of_lt (hfits i hi))

end Runs

/-- Nine buckets of 512 MiB. -/
def nineBuckets : DataChannelOptions := ⟨2 ^ 29, 9, by decide, by decide, by decide, by decide⟩

/-- A mapping at 4096. -/
def nineMapped : DataChannel nineBuckets := ⟨4096, by decide⟩

/-- One thread occupies `n` buckets. -/
def occupyAll (n : ℕ) : List DataAction :=
  (range n).flatMap fun k => .tryOccupyWithWait 0 100 0 :: replicate (k + 1) (.step 0 false)

theorem oneOwner_eight : ∃ s, run (dataStep nineMapped nineMapped) {} (occupyAll 8) = some s ∧
    s.live.length = 8 ∧ s.OneOwner nineMapped nineMapped :=
  ⟨_, rfl, rfl, (oneOwner_iff (occupyAll 8) rfl).mpr (by decide)⟩

/-- The offset of the ninth bucket is 0, and so its address is that of the first. -/
theorem exists_one_address : ∃ s ∈ run (dataStep nineMapped nineMapped) {} (occupyAll 9),
    ∃ i ∈ s.live, ∃ j ∈ s.live, i ≠ j ∧ nineMapped.address i = nineMapped.address j := by
  decide +kernel

end Shm
