import UbsComm.Service.Channel

/-!
# Which endpoint a request is sent over

A channel has `epSize` endpoints, the same number for each of its drivers: those of
the driver `d` stand at the places `d * n, …, d * n + n - 1`, where `n` is
`epSize / mDriverNum`. A channel whose endpoints are polled by workers picks one of a
driver's endpoints by turns (`NextWorkerPollEp`): it starts at the place the counter
of the driver says and goes on, around the places of the driver, while it stands on
a broken endpoint and has not gone on `n` times.

The loop visits every endpoint of the driver before it gives up. That it gave up is
then to be seen from its count, which is `n` – but the test behind the loop asks for
more than `epSize`. `nextWorkerPollEp_expected_iff` says what remains true.
-/

namespace Service

open Nat

/-- `ServiceEpState` -/
inductive ServiceEpState where
  | established
  | broken
  | establishedOccupied
  | establishedUnoccupied
deriving DecidableEq

/-- **The endpoints of a channel**, as `InitializeEp` leaves them, with any states.
Every driver has an endpoint, and every place up to `epSize` holds one. -/
structure EpInfo (Ep : Type) where
  epState : ℕ → ServiceEpState
  epArr : ℕ → Option Ep
  epSize : ℕ
  mDriverNum : ℕ
  /-- Whether the channel is in the state `CH_ESTABLISHED`. -/
  chEstablished : Bool
  mEpChoosingIdx : Fin mDriverNum → UInt16
  epSize_pos : 0 < epSize / mDriverNum
  epArr_isSome : ∀ i < epSize, (epArr i).isSome

namespace EpInfo

variable {Ep : Type} (info : EpInfo Ep) (dvrIdx : Fin info.mDriverNum)

/-- How many endpoints a driver has. -/
def perDriver : ℕ := info.epSize / info.mDriverNum

/-- The place of the driver's endpoint whose turn `j` is. -/
def place (j : ℕ) : ℕ := j % info.perDriver + dvrIdx * info.perDriver

/-- The loop: where it ends and its count, with `left` turns to go. -/
def search : ℕ → ℕ → ℕ → ℕ × ℕ
  | 0, tmpIndex, count => (tmpIndex, count)
  | left + 1, tmpIndex, count =>
    if info.epState tmpIndex = .broken then
      search left (info.place dvrIdx (tmpIndex + 1)) (count + 1)
    else (tmpIndex, count)

/-- `NextWorkerPollEp`: the endpoint or the error, and the counters after it. -/
def nextWorkerPollEp : Except SerCode Ep × EpInfo Ep :=
  if ¬info.chEstablished then (.error .notEstablished, info)
  else
    let chosen := info.mEpChoosingIdx dvrIdx
    let info' := { info with
      mEpChoosingIdx := fun d => if d = dvrIdx then chosen + 1 else info.mEpChoosingIdx d }
    let (tmpIndex, count) := info.search dvrIdx info.perDriver (info.place dvrIdx chosen.toNat) 0
    if count > info.epSize then (.error .notEstablished, info')
    else
      match info.epArr tmpIndex with
      | none => (.error .notEstablished, info')
      | some ep => (.ok ep, info')

/-- Some endpoint of the driver is established. -/
def HasEstablished : Prop := ∃ j, info.epState (info.place dvrIdx j) ≠ .broken

/-- **What the caller expects**: an established endpoint of the driver, or an error
when the driver has none. -/
def Expected : Except SerCode Ep → Prop
  | .ok ep => ∃ j, info.epState (info.place dvrIdx j) ≠ .broken ∧
      info.epArr (info.place dvrIdx j) = some ep
  | .error _ => ¬info.HasEstablished dvrIdx

theorem perDriver_pos : 0 < info.perDriver := info.epSize_pos

theorem place_lt (j : ℕ) : info.place dvrIdx j < info.epSize := by
  have hj := mod_lt j info.perDriver_pos
  calc j % info.perDriver + dvrIdx * info.perDriver
      < (dvrIdx + 1) * info.perDriver := by rw [succ_mul]; omega
    _ ≤ info.mDriverNum * info.perDriver := mul_le_mul_right _ dvrIdx.isLt
    _ ≤ info.epSize := mul_div_le _ _

theorem place_place_add_one (j : ℕ) :
    info.place dvrIdx (info.place dvrIdx j + 1) = info.place dvrIdx (j + 1) := by
  unfold place
  rw [Nat.add_right_comm, add_mul_mod_self_right, mod_add_mod]

/-- **The loop** ends at a turn before which it has seen nothing but broken endpoints,
and unless it gives up it ends at one that is not. -/
theorem search_spec (left j count : ℕ) : ∃ k ≤ left,
      info.search dvrIdx left (info.place dvrIdx j) count = (info.place dvrIdx (j + k), count + k) ∧
        (∀ m < k, info.epState (info.place dvrIdx (j + m)) = .broken) ∧
        (k < left → info.epState (info.place dvrIdx (j + k)) ≠ .broken) := by
  induction left generalizing j count with
  | zero => exact ⟨0, le_refl 0, rfl, nofun, nofun⟩
  | succ left ih =>
    rw [search, place_place_add_one]
    split
    case isFalse h => exact ⟨0, zero_le _, rfl, nofun, fun _ => h⟩
    case isTrue h =>
      obtain ⟨k, hk, heq, hbroken, hlast⟩ := ih (j + 1) (count + 1)
      have hadd (i m : ℕ) : i + 1 + m = i + (m + 1) := by omega
      simp only [hadd] at heq hbroken hlast
      refine ⟨k + 1, succ_le_succ hk, heq, fun m hm => ?_,
        fun hlt => hlast (lt_of_succ_lt_succ hlt)⟩
      cases m with
      | zero => exact h
      | succ m => exact hbroken m (lt_of_succ_lt_succ hm)

/-- From every turn on, every endpoint of the driver has its turn in one round. -/
theorem exists_turn (i j : ℕ) :
    ∃ m < info.perDriver, info.place dvrIdx (j + m) = info.place dvrIdx i := by
  have hi := mod_lt i info.perDriver_pos
  have hj := mod_lt j info.perDriver_pos
  simp only [place, Nat.add_right_cancel_iff, ← mod_add_mod j]
  obtain hlt | hle := lt_or_ge (i % info.perDriver) (j % info.perDriver)
  · refine ⟨i % info.perDriver + info.perDriver - j % info.perDriver, by omega, ?_⟩
    rw [Nat.add_sub_cancel' (by omega), add_mod_right, mod_mod]
  · refine ⟨i % info.perDriver - j % info.perDriver, by omega, ?_⟩
    rw [Nat.add_sub_cancel' hle, mod_mod]

/-- **`NextWorkerPollEp` does what is expected of it exactly when the channel is
established and the driver has an established endpoint**, or neither. It always
returns; on an established channel whose driver has broken endpoints only it returns
one of these as if it were usable. -/
theorem nextWorkerPollEp_expected_iff (info : EpInfo Ep) (dvrIdx : Fin info.mDriverNum) :
    info.Expected dvrIdx (info.nextWorkerPollEp dvrIdx).1
      ↔ (info.chEstablished ↔ info.HasEstablished dvrIdx) := by
  unfold nextWorkerPollEp
  by_cases hch : info.chEstablished = true
  · obtain ⟨k, hk, heq, hbroken, hlast⟩ := info.search_spec dvrIdx
      info.perDriver (info.mEpChoosingIdx dvrIdx).toNat 0
    obtain ⟨ep, hep⟩ := Option.isSome_iff_exists.mp (info.epArr_isSome _
      (info.place_lt dvrIdx ((info.mEpChoosingIdx dvrIdx).toNat + k)))
    have hfew : ¬0 + k > info.epSize := by
      rw [Nat.zero_add]
      exact not_lt.mpr (hk.trans (div_le_self _ _))
    simp only [hch, not_true_eq_false, if_false, heq, hfew, hep, true_iff]
    refine ⟨fun ⟨j, hne, _⟩ => ⟨j, hne⟩, fun ⟨i, hest⟩ => ⟨_, hlast ?_, hep⟩⟩
    -- the turn of the established endpoint comes within the round
    obtain ⟨m, hm, hplace⟩ := info.exists_turn dvrIdx i (info.mEpChoosingIdx dvrIdx).toNat
    rw [← hplace] at hest
    exact (not_lt.mp fun hmk => hest (hbroken m hmk)).trans_lt hm
  · simp [hch, Expected]

/-- A channel with one endpoint, which is broken: `NextWorkerPollEp` returns it. -/
theorem exists_broken_chosen :
    ∃ info : EpInfo ℕ, ∃ dvrIdx, info.chEstablished = true ∧ ¬info.HasEstablished dvrIdx ∧
      (info.nextWorkerPollEp dvrIdx).1 = .ok 7 := by
  refine ⟨⟨fun _ => .broken, fun _ => some 7, 1, 1, true, fun _ => 0, by decide,
    fun _ _ => rfl⟩, 0, rfl, fun ⟨_, h⟩ => h rfl, ?_⟩
  simp [nextWorkerPollEp, search, perDriver]

end EpInfo

end Service
