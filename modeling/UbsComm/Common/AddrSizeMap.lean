import UbsComm.Lib.Execution

/-!
# The map from addresses to sizes, under threads

`NetAddress2SizeHashMap` keeps the size of every block that the allocator has
handed out. An entry is one word, the address in its low 48 bits and the size
above, and zero is a free entry. An address has one bucket of six entries,
behind which further buckets are linked as they are needed.

An entry is taken and given up by compare-and-swap. `Put` goes on where the swap
fails, so that two threads never have one entry. `Remove` does not look at the
result of its swap: when two threads remove one address, both report success
(`exists_run_removed_twice`). As long as no swap of a `Remove` fails, every
success of `Remove` has its own success of `Put`, and what has not been removed
is still in its entry (`matched_of_run`).

The successes are recorded with the entry they are about. The lock of a bucket
makes the growth of its chain one step.
-/

namespace Common

open List Function Machine

/-- `G_ADDRESS_MASK` -/
def gAddressMask : ℕ := 0xFFFFFFFFFFFF

/-- `MakeEntry` -/
def makeEntry (address timesOfBaseSize : ℕ) : ℕ := (timesOfBaseSize <<< 48) % 2 ^ 64 ||| address

/-- The number of sub maps. -/
def gSubMapCount : ℕ := 5

/-- The buckets of the sub maps, and those linked to them, by number. -/
inductive NetHashBucket where
  | root (subMap index : ℕ)
  | overflow (n : ℕ)
deriving DecidableEq

/-- Where a call of a thread is: at an entry of a bucket, at the swap of it, behind
the last entry, or – where there is no next bucket – at the lock. `i` counts the
attempts of `Put` to get another bucket. -/
inductive MapCall where
  | idle
  | put (address entry i : ℕ) (buck : NetHashBucket) (k : ℕ)
  | putSwap (address entry i : ℕ) (buck : NetHashBucket) (k : ℕ)
  | putNext (address entry i : ℕ) (buck : NetHashBucket)
  | putLock (address entry i : ℕ) (buck : NetHashBucket)
  | remove (address : ℕ) (buck : NetHashBucket) (k : ℕ)
  | removeSwap (address : ℕ) (buck : NetHashBucket) (k oldValue : ℕ)
  | removeNext (address : ℕ) (buck : NetHashBucket)
deriving DecidableEq

/-- An entry of a bucket, and a word in it. -/
abbrev Entry := (NetHashBucket × ℕ) × ℕ

/-- The map, and the calls that are under way. -/
structure MapState where
  mBucketCount : ℕ
  subBuck : NetHashBucket × ℕ → ℕ := fun _ => 0
  next : NetHashBucket → Option NetHashBucket := fun _ => none
  made : ℕ := 0
  calls : ℕ → MapCall := fun _ => .idle
  puts : List Entry := []
  removes : List Entry := []

namespace MapState

variable (s : MapState)

/-- The first bucket of an address. -/
def bucket (address : ℕ) : NetHashBucket :=
  .root (address % gSubMapCount) (address % s.mBucketCount)

/-- A thread goes on. -/
def setCall (t : ℕ) (call : MapCall) : MapState := { s with calls := update s.calls t call }

/-- An entry is written. -/
def setEntry (k : NetHashBucket × ℕ) (w : ℕ) : MapState :=
  { s with subBuck := update s.subBuck k w }

/-- The end of `Put` in a bucket without next: under the lock, another thread's
bucket or a new one, if there is memory for it. -/
def grow (t address entry i : ℕ) (buck : NetHashBucket) (allocated : Bool) : MapState :=
  let again (b : NetHashBucket) : MapCall :=
    if i + 1 < 8192 then .put address entry (i + 1) b 0 else .idle
  match s.next buck, allocated with
  | some b, _ => s.setCall t (again b)
  | none, true =>
    { s with
      next := update s.next buck (some (.overflow s.made))
      made := s.made + 1 }.setCall t (again (.overflow s.made))
  | none, false => s.setCall t .idle

/-- Where a call goes on that changes no entry: `Put` from an entry that is taken or
was taken before it, `Remove` from what it has read. -/
def goOn : MapCall → MapCall
  | .put address entry i buck k =>
    if s.subBuck (buck, k) = 0 then .putSwap address entry i buck k
    else if k + 1 < 6 then .put address entry i buck (k + 1) else .putNext address entry i buck
  | .putSwap address entry i buck k =>
    if k + 1 < 6 then .put address entry i buck (k + 1) else .putNext address entry i buck
  | .putNext address entry i buck =>
    match s.next buck with
    | none => .putLock address entry i buck
    | some b => .put address entry i b 0
  | .remove address buck k =>
    if s.subBuck (buck, k) &&& gAddressMask = address then
      .removeSwap address buck k (s.subBuck (buck, k))
    else if k + 1 < 6 then .remove address buck (k + 1) else .removeNext address buck
  | .removeNext address buck =>
    match s.next buck with
    | none => .idle
    | some b => .remove address b 0
  | call => call

/-- The next step of a call. The result of the swap of `Remove` is not looked at. -/
def advance (t : ℕ) (allocated : Bool) : MapState :=
  match s.calls t with
  | .putSwap _ entry _ buck k =>
    if s.subBuck (buck, k) = 0 then
      { s.setEntry (buck, k) entry with puts := ((buck, k), entry) :: s.puts }.setCall t .idle
    else s.setCall t (s.goOn (s.calls t))
  | .putLock address entry i buck => s.grow t address entry i buck allocated
  | .removeSwap _ buck k oldValue =>
    let s' := if s.subBuck (buck, k) = oldValue then s.setEntry (buck, k) 0 else s
    { s' with removes := ((buck, k), oldValue) :: s.removes }.setCall t .idle
  | call => s.setCall t (s.goOn call)

end MapState

/-- What a thread does. -/
inductive ThreadAction where
  | put (t address timesOfBaseSize : ℕ)
  | remove (t address : ℕ)
  | advance (t : ℕ) (allocated : Bool)

/-- A call begins, of a thread that is in none, or goes on. -/
def threadsStep (s : MapState) : ThreadAction → Option MapState
  | .put t address timesOfBaseSize =>
    if s.calls t = .idle then
      some (s.setCall t (if address = 0 then .idle
        else .put address (makeEntry address timesOfBaseSize) 0 (s.bucket address) 0))
    else none
  | .remove t address =>
    if s.calls t = .idle then
      some (s.setCall t (if address = 0 then .idle else .remove address (s.bucket address) 0))
    else none
  | .advance t allocated => s.advance t allocated

/-! ## Runs -/

/-- A call has an entry or an address to look for. -/
def MapCall.Sound : MapCall → Prop
  | .idle => True
  | .put _ entry _ _ _ | .putSwap _ entry _ _ _ | .putNext _ entry _ _ | .putLock _ entry _ _ =>
    entry ≠ 0
  | .remove address _ _ | .removeNext address _ => address ≠ 0
  | .removeSwap _ _ _ oldValue => oldValue ≠ 0

/-- **What was put and not removed is in its entry.** -/
structure MapState.Inv (s : MapState) : Prop where
  kept : ∀ k w, w ≠ 0 →
    s.puts.count (k, w) = s.removes.count (k, w) + if s.subBuck k = w then 1 else 0
  removed : ∀ e ∈ s.removes, e.2 ≠ 0
  calls : ∀ t, (s.calls t).Sound

/-- The entry that a `Remove` is about to give up is still as it has read it. -/
def MapCall.Current (s : MapState) : MapCall → Prop
  | .removeSwap _ buck k oldValue => s.subBuck (buck, k) = oldValue
  | _ => True

/-- **No swap of a `Remove` fails.** -/
def Undisputed (s : MapState) : ThreadAction → Prop
  | .advance t _ => (s.calls t).Current s
  | _ => True

instance (s : MapState) : (call : MapCall) → Decidable (call.Current s)
  | .removeSwap _ buck k oldValue => inferInstanceAs (Decidable (s.subBuck (buck, k) = oldValue))
  | .idle | .put .. | .putSwap .. | .putNext .. | .putLock .. | .remove .. | .removeNext .. =>
    .isTrue trivial

instance (s : MapState) : (a : ThreadAction) → Decidable (Undisputed s a)
  | .advance t _ => inferInstanceAs (Decidable ((s.calls t).Current s))
  | .put .. | .remove .. => .isTrue trivial

variable {s s' : MapState} {t : ℕ} {k : NetHashBucket × ℕ} {allocated : Bool} {call : MapCall}

theorem MapState.Inv.setCall (h : s.Inv) (hcall : call.Sound) : (s.setCall t call).Inv := by
  refine { h with calls := fun u => ?_ }
  by_cases hu : u = t
  · subst hu
    simpa [MapState.setCall] using hcall
  · simpa [MapState.setCall, hu] using h.calls u

theorem makeEntry_ne_zero {address size : ℕ} (h : address ≠ 0) : makeEntry address size ≠ 0 := by
  intro hzero
  exact h (Nat.or_eq_zero_iff.mp hzero).2

theorem MapState.Inv.put (h : s.Inv) {w : ℕ} (hfree : s.subBuck k = 0) :
    { s.setEntry k w with puts := (k, w) :: s.puts }.Inv where
  kept k' w' hw' := by
    have hkept := h.kept k' w' hw'
    show count (k', w') ((k, w) :: s.puts) = count (k', w') s.removes
      + if update s.subBuck k w k' = w' then 1 else 0
    by_cases hk : k' = k
    · subst hk
      rw [hfree, if_neg hw'.symm] at hkept
      rw [count_cons, update_self, hkept]
      simp
    · rw [count_cons_of_ne (by simp [Ne.symm hk]), update_of_ne hk, hkept]
  removed := h.removed
  calls := h.calls

theorem MapState.Inv.remove (h : s.Inv) (hw : s.subBuck k ≠ 0) :
    { s.setEntry k 0 with removes := (k, s.subBuck k) :: s.removes }.Inv where
  kept k' w' hw' := by
    have hkept := h.kept k' w' hw'
    show count (k', w') s.puts = count (k', w') ((k, s.subBuck k) :: s.removes)
      + if update s.subBuck k 0 k' = w' then 1 else 0
    by_cases hk : k' = k
    · subst hk
      rw [count_cons, update_self, if_neg hw'.symm, hkept]
      simp
    · rw [count_cons_of_ne (by simp [Ne.symm hk]), update_of_ne hk, hkept]
  removed := forall_mem_cons.mpr ⟨hw, h.removed⟩
  calls := h.calls

theorem MapCall.Sound.goOn (h : call.Sound) : (s.goOn call).Sound := by
  unfold MapState.goOn
  split <;> try split_ifs with hread
  all_goals try split
  all_goals first | exact h | exact trivial | skip
  -- what `Remove` has read has its address
  intro hzero
  rw [hzero, Nat.zero_and] at hread
  exact h hread.symm

theorem MapState.Inv.grow (h : s.Inv) {address entry i : ℕ} {buck : NetHashBucket}
    (hentry : entry ≠ 0) : (s.grow t address entry i buck allocated).Inv := by
  have hagain (b : NetHashBucket) : MapCall.Sound
      (if i + 1 < 8192 then .put address entry (i + 1) b 0 else .idle) := by
    split_ifs
    exacts [hentry, trivial]
  unfold MapState.grow
  dsimp only
  split
  · exact h.setCall (hagain _)
  · refine MapState.Inv.setCall ?_ (hagain _)
    exact { h with }
  · exact h.setCall trivial

theorem MapState.Inv.advance (h : s.Inv) (hG : (s.calls t).Current s) :
    (s.advance t allocated).Inv := by
  have hsound := h.calls t
  unfold MapState.advance
  split <;> rename_i hcall
  · split_ifs with hfree
    · exact (h.put hfree).setCall trivial
    · exact h.setCall hsound.goOn
  · rw [hcall] at hsound
    exact h.grow hsound
  · rw [hcall] at hsound hG
    obtain rfl : s.subBuck _ = _ := hG
    rw [if_pos rfl]
    exact (h.remove hsound).setCall trivial
  · exact h.setCall hsound.goOn

theorem MapState.Inv.step {a : ThreadAction} (h : s.Inv) (hG : Undisputed s a)
    (hstep : threadsStep s a = some s') : s'.Inv := by
  cases a with
  | put t address timesOfBaseSize =>
    obtain ⟨-, rfl⟩ := guard_eq_some.mp hstep
    refine h.setCall ?_
    split_ifs with hzero
    exacts [trivial, makeEntry_ne_zero hzero]
  | remove t address =>
    obtain ⟨-, rfl⟩ := guard_eq_some.mp hstep
    refine h.setCall ?_
    split_ifs with hzero
    exacts [trivial, hzero]
  | advance t allocated =>
    cases hstep
    exact h.advance hG

/-- **Every `Remove` that reports success has its own `Put`**, and what was put and
not removed is in its entry, in every run in which no entry changes between the
reading of a `Remove` and its swap. -/
theorem matched_of_run {mBucketCount : ℕ} {actions : List ThreadAction}
    (hrun : run threadsStep { mBucketCount } actions = some s)
    (hG : Along threadsStep Undisputed { mBucketCount } actions) :
    s.removes.Subperm s.puts ∧ ∀ k w, w ≠ 0 →
      s.puts.count (k, w) = s.removes.count (k, w) + if s.subBuck k = w then 1 else 0 := by
  have h : s.Inv := by
    refine run_invariant_along (P := MapState.Inv) (fun _ _ _ hInv => hInv.step) ?_ hG hrun
    exact ⟨fun k w hw => by simp [hw.symm], by simp, fun _ => trivial⟩
  refine ⟨subperm_ext_iff.mpr fun e he => ?_, h.kept⟩
  have hkept := h.kept e.1 e.2 (h.removed e he)
  exact hkept ▸ Nat.le_add_right _ _

/-- An address is put, and two threads begin to remove it. -/
def sampleThreads : List ThreadAction :=
  [.put 0 4096 2, .advance 0 true, .advance 0 true, .remove 0 4096, .remove 1 4096, .advance 0 true]

theorem matched_of_run_sample : ∃ s ∈ run threadsStep { mBucketCount := 1 }
        (sampleThreads ++ [.advance 0 true, .advance 1 true]),
      s.removes.Subperm s.puts := by
  have hrun : run threadsStep { mBucketCount := 1 }
      (sampleThreads ++ [.advance 0 true, .advance 1 true]) = some _ := rfl
  exact ⟨_, rfl, (matched_of_run hrun (by decide)).1⟩

/-- **Two threads remove one address, and both report success**: each reads the
entry before the other has cleared it. -/
theorem exists_run_removed_twice : ∃ s ∈ run threadsStep { mBucketCount := 1 }
        (sampleThreads ++ [.advance 1 true, .advance 0 true, .advance 1 true]),
      s.puts.length = 1 ∧ s.removes.length = 2 :=
  ⟨_, rfl, by decide⟩

end Common
