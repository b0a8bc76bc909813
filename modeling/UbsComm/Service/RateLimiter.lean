import UbsComm.Lib.Execution

/-!
# The rate limiter of a channel

`FlowControl` lets a request pass when its size fits into what is left of the current
window, and otherwise waits for the next one. What has passed in the window is counted
in `windowPassedByte`, which all threads share. A call reads it four times: twice in
`AcquireQuota`, for the sum it wants to store, and for the value its
compare-and-swap expects. The window is renewed under a mutex, which `FlowControl`
does not take.

Two things can go wrong. `AcquireQuota` and `InvalidateSize` take the size as a
`uint32_t`, so of a larger size they see the low half. And when another thread moves
the count between the readings, the swap goes through on a sum that was never
compared with the threshold, or that does not start from the count it replaces.
`bounded_of_run` says that there is nothing else.

`BuildNextWindow` is one step, at its store of 0: nothing else that it touches is read
by the calls that pass. For the record, the system lists the sizes let through, and
adds up those of the current window.
-/

namespace Service

open Function List Machine Option
open UInt64 hiding size

/-- `InvalidateSize` -/
def invalidateSize (thresholdByte : UInt64) (size : UInt32) : Bool := size.toUInt64 > thresholdByte

/-- Where a call of `FlowControl` stands; the access named is the one to come. -/
inductive FlowPc where
  /-- `AcquireQuota`: is there room in 64 bits, … -/
  | acquire
  /-- … and below the threshold? -/
  | compare (room : UInt64)
  | readNew (room quota : UInt64)
  | readOld (room quota newByte : UInt64)
  | swap (room quota newByte oldByte : UInt64)
  | validate
  /-- `BuildNextWindow`, after the wait. -/
  | build
  | expire

/-- A call of `FlowControl`. -/
structure FlowCall where
  size : UInt64
  timeoutSecond : ℕ
  pc : FlowPc := .acquire

/-- `RateLimiter`, the calls under way, and the record. -/
structure RateLimiter where
  thresholdByte : UInt64
  intervalTimeMs : ℕ
  windowEndTimeMs : ℕ
  windowPassedByte : UInt64 := 0
  /-- The monotone clock. -/
  timeMs : ℕ := 0
  calls : ℕ → Option FlowCall := fun _ => none
  /-- What has been let through in this window, … -/
  window : ℕ := 0
  /-- … and ever. -/
  admitted : List UInt64 := []

namespace RateLimiter

/-- As `SetFlowControlConfig` makes it. -/
def new (thresholdByte : UInt64) (intervalTimeMs windowEndTimeMs : ℕ) : RateLimiter :=
  { thresholdByte, intervalTimeMs, windowEndTimeMs }

/-- What happens to the limiter. -/
inductive Action where
  | call (p : ℕ) (size : UInt64) (timeoutSecond : ℕ)
  | step (p : ℕ)
  | tick (ms : ℕ)

variable (s : RateLimiter) (p : ℕ)

/-- A call goes on, or returns. -/
def set (c : Option FlowCall) : RateLimiter := { s with calls := update s.calls p c }

/-- A call goes on. -/
def goto (c : FlowCall) (pc : FlowPc) : RateLimiter := s.set p (some { c with pc })

/-- The next access of a call. -/
def next (c : FlowCall) : RateLimiter :=
  match c.pc with
  | .acquire =>
    if c.size.toUInt32.toUInt64 > 0xFFFFFFFFFFFFFFFF - s.windowPassedByte then s.goto p c .validate
    else s.goto p c (.compare s.windowPassedByte)
  | .compare room =>
    if s.windowPassedByte + c.size.toUInt32.toUInt64 ≤ s.thresholdByte then
      s.goto p c (.readNew room s.windowPassedByte)
    else s.goto p c .validate
  | .readNew room quota => s.goto p c (.readOld room quota (s.windowPassedByte + c.size))
  | .readOld room quota newByte => s.goto p c (.swap room quota newByte s.windowPassedByte)
  | .swap _ _ newByte oldByte =>
    if s.windowPassedByte = oldByte then
      { s.set p none with
        windowPassedByte := newByte
        window := s.window + c.size.toNat
        admitted := c.size :: s.admitted }
    else s.goto p c .acquire
  | .validate =>
    if invalidateSize s.thresholdByte c.size.toUInt32 then s.set p none
    else s.goto p c .build
  | .build =>
    let s := s.goto p c .expire
    if s.timeMs < s.windowEndTimeMs then s
    else { s with
      windowEndTimeMs := s.timeMs + s.intervalTimeMs, windowPassedByte := 0, window := 0 }
  | .expire =>
    if s.timeMs / 1000 > c.timeoutSecond then s.set p none
    else s.goto p c .acquire

/-- A call begins, makes an access, or time goes on. -/
def step : Action → Option RateLimiter
  | .call p size timeoutSecond =>
    match s.calls p with
    | none => some (s.set p (some { size, timeoutSecond }))
    | some _ => none
  | .step p => (s.calls p).map (s.next p)
  | .tick ms => some { s with timeMs := s.timeMs + ms }

/-- **What the limiter is for.** -/
structure Bounded : Prop where
  window : s.window ≤ s.thresholdByte.toNat
  each : ∀ size ∈ s.admitted, size ≤ s.thresholdByte

/-- The readings of a call whose swap goes through have given one count. -/
def Agree (passed size : UInt64) : FlowPc → Prop
  | .swap room quota newByte oldByte =>
    passed = oldByte → room = oldByte ∧ quota = oldByte ∧ newByte = oldByte + size
  | .acquire | .compare _ | .readNew .. | .readOld .. | .validate | .build | .expire => True

instance (passed size : UInt64) : (pc : FlowPc) → Decidable (Agree passed size pc)
  | .swap .. => inferInstanceAs (Decidable (_ → _))
  | .acquire | .compare _ | .readNew .. | .readOld .. | .validate | .build | .expire =>
    .isTrue trivial

/-- **The sizes fit into 32 bits, and the readings agree.** -/
def Undisturbed : Action → Prop
  | .call _ size _ => size.toNat < 2 ^ 32
  | .step p => ∀ c ∈ s.calls p, Agree s.windowPassedByte c.size c.pc
  | .tick _ => True

instance : (a : Action) → Decidable (s.Undisturbed a)
  | .call _ size _ => inferInstanceAs (Decidable (size.toNat < 2 ^ 32))
  | .step p => inferInstanceAs (Decidable (∀ c ∈ s.calls p, _))
  | .tick _ => .isTrue trivial

/-- What is known of the counts `AcquireQuota` has read. -/
def Fits (size : UInt64) : FlowPc → Prop
  | .compare room => room.toNat + size.toNat < 2 ^ 64
  | .readNew room quota | .readOld room quota _ | .swap room quota _ _ =>
    room.toNat + size.toNat < 2 ^ 64 ∧ quota + size ≤ s.thresholdByte
  | .acquire | .validate | .build | .expire => True

/-- What every step keeps. -/
structure Inv : Prop where
  window : s.window = s.windowPassedByte.toNat
  bounded : s.Bounded
  calls : ∀ p c, s.calls p = some c → c.size.toNat < 2 ^ 32 ∧ s.Fits c.size c.pc

variable {s p}

theorem lt_of_room {room size : UInt64} (h : ¬size > 0xFFFFFFFFFFFFFFFF - room) :
    room.toNat + size.toNat < 2 ^ 64 := by
  have hroom := room.toNat_lt
  rw [gt_iff_lt, lt_iff_toNat_lt,
    UInt64.toNat_sub_of_le _ _ (le_iff_toNat_le.mpr (Nat.le_of_lt_succ hroom))] at h
  simp only [reduceToNat] at h
  omega

/-- A call that goes on within its bounds, or returns, keeps the invariant. -/
theorem Inv.set (h : s.Inv) {c : Option FlowCall}
    (hc : ∀ d, c = some d → d.size.toNat < 2 ^ 32 ∧ s.Fits d.size d.pc) : (s.set p c).Inv where
  window := h.window
  bounded := ⟨h.bounded.window, h.bounded.each⟩
  calls q d hd := by
    change update s.calls p c q = some d at hd
    rw [update_apply] at hd
    split at hd
    · exact hc d hd
    · exact h.calls q d hd

/-- **One access of a call whose readings agree.** -/
theorem Inv.next (h : s.Inv) {c : FlowCall} (hc : s.calls p = some c)
    (hg : s.Undisturbed (.step p)) : (s.next p c).Inv := by
  obtain ⟨hsize, hfits⟩ := h.calls p c hc
  have hwide : c.size.toUInt32.toUInt64 = c.size := toNat.inj (Nat.mod_eq_of_lt hsize)
  have hset (pc : FlowPc) (hpc : s.Fits c.size pc) : (s.goto p c pc).Inv :=
    h.set fun d hd => some.inj hd ▸ ⟨hsize, hpc⟩
  have hnone : (s.set p none).Inv := h.set nofun
  unfold RateLimiter.next
  split
  case h_1 =>
    rw [hwide]
    split
    case isTrue => exact hset _ trivial
    case isFalse hroom => exact hset _ (lt_of_room hroom)
  case h_2 room hpc =>
    rw [hpc] at hfits
    rw [hwide]
    split
    case isTrue hquota => exact hset _ ⟨hfits, hquota⟩
    case isFalse => exact hset _ trivial
  case h_3 room quota hpc =>
    rw [hpc] at hfits
    exact hset (.readOld _ _ _) hfits
  case h_4 room quota newByte hpc =>
    rw [hpc] at hfits
    exact hset (.swap _ _ _ _) hfits
  case h_5 room quota newByte oldByte hpc =>
    split
    case isFalse => exact hset _ trivial
    case isTrue heq =>
      have hagree := hg c hc
      rw [hpc] at hfits hagree
      obtain ⟨rfl, rfl, rfl⟩ := hagree heq
      obtain ⟨hroom, hquota⟩ := hfits
      have hsum : (quota + c.size).toNat = quota.toNat + c.size.toNat := Nat.mod_eq_of_lt hroom
      rw [le_iff_toNat_le, hsum] at hquota
      refine ⟨?_, ⟨?_, forall_mem_cons.mpr ⟨?_, h.bounded.each⟩⟩, hnone.calls⟩
      · rw [hsum, ← heq, ← h.window]
      · show s.window + c.size.toNat ≤ _
        rwa [h.window, heq]
      · exact le_iff_toNat_le.mpr (Nat.le_trans (Nat.le_add_left _ _) hquota)
  case h_6 =>
    split
    · exact hnone
    · exact hset _ trivial
  case h_7 =>
    dsimp only
    split
    · exact hset _ trivial
    · exact ⟨rfl, ⟨Nat.zero_le _, h.bounded.each⟩, (hset .expire trivial).calls⟩
  case h_8 =>
    split
    · exact hnone
    · exact hset _ trivial

theorem Inv.step (h : s.Inv) {a : Action} {t : RateLimiter} (hg : s.Undisturbed a)
    (hs : s.step a = some t) : t.Inv := by
  cases a with
  | call p size timeoutSecond =>
    rw [RateLimiter.step] at hs
    split at hs
    · exact some.inj hs ▸ h.set fun d hd => some.inj hd ▸ ⟨hg, trivial⟩
    · cases hs
  | step p =>
    obtain ⟨c, hc, rfl⟩ := map_eq_some_iff.mp hs
    exact h.next hc hg
  | tick ms => exact some.inj hs ▸ ⟨h.window, ⟨h.bounded.window, h.bounded.each⟩, h.calls⟩

/-- **In every run in which the sizes fit into 32 bits and the readings of every call
that swaps agree, no window lets through more than the threshold**, and nothing larger
than the threshold ever passes. -/
theorem bounded_of_run (thresholdByte : UInt64) (intervalTimeMs windowEndTimeMs : ℕ)
    (as : List Action) (s : RateLimiter)
    (hg : Along step Undisturbed (new thresholdByte intervalTimeMs windowEndTimeMs) as)
    (h : run step (new thresholdByte intervalTimeMs windowEndTimeMs) as = some s) : s.Bounded :=
  (run_invariant_along (P := Inv) (fun _ _ _ hi hg hs => hi.step hg hs)
    ⟨rfl, ⟨Nat.zero_le _, by simp [new]⟩, by simp [new]⟩ hg h).bounded

/-- Two threads, whose requests do not fit into one window. The swap of the second
finds the count of the first, and it passes in the next window. -/
def twoRequests : List Action :=
  .call 0 60 8 :: .call 1 60 8 :: replicate 4 (.step 1) ++ replicate 5 (.step 0)
    ++ replicate 11 (.step 1)

theorem bounded_twoRequests : ∃ s, run step (new 100 10 0) twoRequests = some s
    ∧ s.admitted = [60, 60] ∧ s.window = 60 ∧ s.Bounded := by
  have hrun : run step (new 100 10 0) twoRequests = some _ := rfl
  exact ⟨_, hrun, rfl, rfl, bounded_of_run 100 10 0 _ _ (by decide) hrun⟩

/-- **More than the threshold**: a size of which the check sees the low half, and two
requests that are both checked before one of them is counted. -/
theorem exists_run_exceeded :
    (∃ s ∈ run step (new 100 10 0) (.call 0 0x100000000 8 :: replicate 5 (.step 0)),
      s.admitted = [0x100000000]) ∧
    ∃ s ∈ run step (new 100 10 0)
        (.call 0 100 8 :: .call 1 100 8 :: .step 0 :: .step 0 :: replicate 5 (.step 1)
          ++ replicate 3 (.step 0)),
      s.window = 200 :=
  ⟨⟨_, rfl, rfl⟩, _, rfl, rfl⟩

end RateLimiter

end Service
