import UbsComm.Lib.Execution

/-!
# One callback for the parts of a multi-rail transfer

A one-sided transfer that is spread over several rails has one user callback. It is
wrapped in an `AsyncClosureCallback`, which the completion of every part runs: `Run`
counts the completion, and the one that finds all of them counted runs the callback
and deletes the wrapper.

The count is an atomic addition and the test is another read of the counter, so a
second completion may count between the two. Both then find the total, run the
callback and delete the wrapper. And what the callback is run with is the context of
the completion that runs it: the failure of another part is not in it.

A completion is here what it has failed or not; those that have counted and not yet
tested, and those that have found the total, are listed. The counter never passes the
number of parts, so it is a natural number.
-/

namespace Service

open List Machine Option

/-- The wrapper, and for the record: the completions to come, those under way, with
what the callback was run, how often the wrapper was deleted, whether a part has
failed, and whether the wrapper was used after it was deleted. -/
structure AsyncClosure where
  mTotalTime : ℕ
  mRunTime : ℕ := 0
  waiting : ℕ
  counted : List Bool := []
  found : List Bool := []
  ran : List Bool := []
  deleted : ℕ := 0
  anyFailed : Bool := false
  misused : Bool := false

namespace AsyncClosure

/-- The wrapper for a transfer of so many parts. -/
def new (parts : UInt16) : AsyncClosure := { mTotalTime := parts.toNat, waiting := parts.toNat }

/-- What a completion does next, `failed` or not. -/
inductive Action
  /-- `__sync_fetch_and_add(&mRunTime, 1)`. -/
  | count (failed : Bool)
  /-- `mRunTime < mTotalTime`. -/
  | test (failed : Bool)
  /-- `mFunction->Run(context)` and `delete this`. -/
  | finish (failed : Bool)

/-- Whether the wrapper has been misused after another access to it. -/
def touched (s : AsyncClosure) : Bool := s.misused || s.deleted ≠ 0

/-- One access of a completion. -/
def step (s : AsyncClosure) : Action → Option AsyncClosure
  | .count failed =>
    if 0 < s.waiting then
      some { s with
        misused := s.touched
        mRunTime := s.mRunTime + 1
        waiting := s.waiting - 1
        counted := failed :: s.counted
        anyFailed := s.anyFailed || failed }
    else none
  | .test failed =>
    if failed ∈ s.counted then
      if s.mRunTime < s.mTotalTime then
        some { s with misused := s.touched, counted := s.counted.erase failed }
      else
        some { s with
          misused := s.touched
          counted := s.counted.erase failed
          found := failed :: s.found }
    else none
  | .finish failed =>
    if failed ∈ s.found then
      some { s with
        misused := s.touched
        found := s.found.erase failed
        ran := failed :: s.ran
        deleted := s.deleted + 1 }
    else none

/-- **Once, at the end**: the callback is run at most once and not before the last
completion, with an error if a part has failed; the wrapper is deleted as often and
not used afterwards; and when no completion is to come or under way it has been run. -/
structure OnceAtEnd (s : AsyncClosure) : Prop where
  once : s.ran.length ≤ 1
  last : s.ran ≠ [] → s.waiting = 0
  error : s.anyFailed = true → ∀ failed ∈ s.ran, failed = true
  deleted : s.deleted = s.ran.length
  unused : s.misused = false
  done : s.waiting = 0 → s.counted = [] → s.found = [] → s.ran.length = 1

/-- **The last completion overlaps no other, and fails if any does**: it counts
when all that have counted have tested. -/
def Apart (s : AsyncClosure) : Action → Prop
  | .count failed => s.waiting = 1 → s.counted = [] ∧ (s.anyFailed = true → failed = true)
  | .test _ | .finish _ => True

instance (s : AsyncClosure) : (a : Action) → Decidable (s.Apart a)
  | .count _ => inferInstanceAs (Decidable (_ → _))
  | .test _ | .finish _ => .isTrue trivial

/-- How far the transfer is: there are completions to come, or the last of them is at
one of its three places. -/
inductive Stage (s : AsyncClosure) : Prop
  | early : 0 < s.waiting → s.found = [] → s.ran = [] → s.deleted = 0 → Stage s
  | late (failed : Bool) : s.waiting = 0 → (s.anyFailed = true → failed = true) →
      s.deleted = s.ran.length →
      (s.counted = [failed] ∧ s.found = [] ∧ s.ran = []
        ∨ s.counted = [] ∧ s.found = [failed] ∧ s.ran = []
        ∨ s.counted = [] ∧ s.found = [] ∧ s.ran = [failed]) → Stage s

/-- What every step keeps. -/
structure Inv (s : AsyncClosure) : Prop where
  count : s.mRunTime + s.waiting = s.mTotalTime
  unused : s.misused = false
  stage : s.Stage

variable {s t : AsyncClosure} {a : Action}

theorem Inv.onceAtEnd (h : s.Inv) : s.OnceAtEnd := by
  obtain ⟨hw, hf, hr, hd⟩ | ⟨failed, hz, he, hd, hlast⟩ := h.stage
  · exact ⟨by simp [hr], fun hne => absurd hr hne, by simp [hr], by simp [hr, hd], h.unused,
      fun hz => absurd hz (Nat.ne_of_gt hw)⟩
  · obtain ⟨hc, hf, hr⟩ | ⟨hc, hf, hr⟩ | ⟨hc, hf, hr⟩ := hlast
    · exact ⟨by simp [hr], fun _ => hz, by simp [hr], hd, h.unused, by simp [hc]⟩
    · exact ⟨by simp [hr], fun _ => hz, by simp [hr], hd, h.unused, by simp [hf]⟩
    · exact ⟨by simp [hr], fun _ => hz, by simpa [hr] using he, hd, h.unused, by simp [hr]⟩

/-- Until the callback has been run, the wrapper may be used. -/
theorem Inv.touched (h : s.Inv) (hd : s.deleted = 0) : s.touched = false := by
  simp [AsyncClosure.touched, h.unused, hd]

/-- **One step of completions of which the last overlaps no other.** -/
theorem Inv.step (h : s.Inv) (ha : s.Apart a) (hs : s.step a = some t) : t.Inv := by
  have hcount := h.count
  cases a with
  | count failed =>
    obtain ⟨hw, rfl⟩ := guard_eq_some.mp hs
    obtain ⟨-, hf, hr, hd⟩ | ⟨-, hz⟩ := h.stage
    · refine ⟨by dsimp only; omega, h.touched hd, ?_⟩
      obtain hone | hmore := Nat.eq_or_lt_of_le hw
      · refine .late failed (by dsimp only; omega) (fun hany => ?_) (by simp [hd, hr])
          (.inl ⟨congrArg (failed :: ·) (ha hone.symm).1, hf, hr⟩)
        exact (Bool.or_eq_true_iff.mp hany).elim (ha hone.symm).2 id
      · exact .early (Nat.sub_pos_of_lt hmore) hf hr hd
    · exact absurd hz (Nat.ne_of_gt hw)
  | test failed =>
    obtain ⟨hmem, hs⟩ := ite_none_right_eq_some.mp hs
    obtain ⟨hw, hf, hr, hd⟩ | ⟨b, hz, he, hd, hlast⟩ := h.stage
    · rw [if_pos (by omega)] at hs
      exact some.inj hs ▸ ⟨hcount, h.touched hd, .early hw hf hr hd⟩
    · rw [if_neg (by omega)] at hs
      -- the one that tests is the last
      obtain ⟨hc, hf, hr⟩ | ⟨hc, -⟩ | ⟨hc, -⟩ := hlast <;> rw [hc] at hmem
      · obtain rfl := mem_singleton.mp hmem
        exact some.inj hs ▸ ⟨hcount, h.touched (by simp [hd, hr]),
          .late failed hz he hd (.inr (.inl ⟨by simp [hc], by simp [hf], hr⟩))⟩
      all_goals cases hmem
  | finish failed =>
    obtain ⟨hmem, rfl⟩ := guard_eq_some.mp hs
    obtain ⟨-, hf, -⟩ | ⟨b, hz, he, hd, hlast⟩ := h.stage
    · exact absurd hmem (hf ▸ not_mem_nil)
    · obtain ⟨-, hf, -⟩ | ⟨hc, hf, hr⟩ | ⟨-, hf, -⟩ := hlast <;> rw [hf] at hmem
      · cases hmem
      · obtain rfl := mem_singleton.mp hmem
        exact ⟨hcount, h.touched (by simp [hd, hr]),
          .late failed hz he (by simp [hd]) (.inr (.inr ⟨hc, by simp [hf], by simp [hr]⟩))⟩
      · cases hmem

/-- **In every run of completions of which the last overlaps no other and fails if
any does, the callback is run once, at the end.** -/
theorem onceAtEnd_of_run (parts : UInt16) (hparts : 1 ≤ parts) (as : List Action)
    (s : AsyncClosure) (ha : Along step Apart (new parts) as)
    (h : run step (new parts) as = some s) : s.OnceAtEnd := by
  have hwaiting : 0 < (new parts).waiting := UInt16.le_iff_toNat_le.mp hparts
  have hinit : (new parts).Inv := ⟨Nat.zero_add _, rfl, .early hwaiting rfl rfl rfl⟩
  exact (run_invariant_along (fun _ _ _ hi ha hs => hi.step ha hs) hinit ha h).onceAtEnd

/-- Three parts; the first two are counted before they test, the last fails. -/
def threeParts : List Action :=
  [.count false, .count false, .test false, .test false, .count true, .test true, .finish true]

theorem onceAtEnd_threeParts :
    ∃ s, run step (new 3) threeParts = some s ∧ s.ran = [true] ∧ s.OnceAtEnd := by
  have hrun : run step (new 3) threeParts = some _ := rfl
  exact ⟨_, hrun, rfl, onceAtEnd_of_run 3 (by decide) _ _ (by decide) hrun⟩

/-- **Twice.** Both parts are counted before one of them tests; and a part that fails is
not told of when it is not the last. -/
theorem exists_run_twice : (∃ as, ∃ s ∈ run step (new 2) as, s.ran = [false, false] ∧ s.deleted = 2)
      ∧ ∃ as, ∃ s ∈ run step (new 2) as, s.anyFailed = true ∧ s.ran = [false] :=
  ⟨⟨[.count false, .count false, .test false, .test false, .finish false, .finish false],
      _, rfl, rfl, rfl⟩,
    ⟨[.count true, .test true, .count false, .test false, .finish false], _, rfl, rfl, rfl⟩⟩

end AsyncClosure

end Service
