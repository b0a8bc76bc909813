import Mathlib.Data.Nat.Bitwise
import UbsComm.Common.AddrSizeMap

/-!
# The map from addresses to sizes, under one thread

Without other threads a swap never fails, and a bucket with those linked to it is
the list of its entries: `Put` takes the first free one, `Remove` gives up the
first one of the address. So the map holds the live addresses, whatever their
buckets are and in whatever order entries become free (`HoldsLive`).

The entry has 16 bits for the size, and a size has 32. The bits above are lost,
and `Remove` returns what is left: `faithful_iff`.
-/

namespace Common

open List Function Machine Nat Option

/-! ## Entries -/

/-- `GetSize` -/
def getSize (entry : ℕ) : ℕ := entry >>> 48

/-- The address of an entry. -/
def addressOf (entry : ℕ) : ℕ := entry &&& gAddressMask

variable {address size : ℕ}

theorem makeEntry_eq (h : address < 2 ^ 48) :
    makeEntry address size = size % 2 ^ 16 * 2 ^ 48 + address := by
  have hcut : (size <<< 48) % 2 ^ 64 = (size % 2 ^ 16) <<< 48 := by
    rw [shiftLeft_eq, shiftLeft_eq]
    exact mul_mod_mul_right (2 ^ 48) size (2 ^ 16)
  rw [makeEntry, hcut, ← shiftLeft_add_eq_or_of_lt h, shiftLeft_eq]

theorem addressOf_makeEntry (h : address < 2 ^ 48) :
    addressOf (makeEntry address size) = address := by
  rw [addressOf, makeEntry_eq h]
  exact (and_two_pow_sub_one_eq_mod _ 48).trans (by omega)

theorem getSize_makeEntry (h : address < 2 ^ 48) :
    getSize (makeEntry address size) = size % 2 ^ 16 := by
  rw [getSize, shiftRight_eq_div_pow, makeEntry_eq h]
  omega

/-! ## The map of one thread -/

/-- The bucket of an address with those linked to it, as the list of their
entries. `Put` takes the first free one; if there is none, the first of a new
bucket, if there is memory for it. -/
def putEntry (entry : ℕ) (allocated : Bool) : List ℕ → Option (List ℕ)
  | [] => if allocated then some (entry :: replicate 5 0) else none
  | w :: ws => if w = 0 then some (entry :: ws) else (putEntry entry allocated ws).map (w :: ·)

/-- The first entry of an address is given up. -/
def removeEntry (address : ℕ) : List ℕ → Option (ℕ × List ℕ)
  | [] => none
  | w :: ws =>
    if addressOf w = address then some (getSize w, 0 :: ws)
    else (removeEntry address ws).map fun r => (r.1, w :: r.2)

/-- The chains of buckets, by sub map and bucket. -/
structure NetAddress2SizeHashMap where
  mBucketCount : ℕ
  chains : ℕ × ℕ → List ℕ
  mCount : ℕ

namespace NetAddress2SizeHashMap

variable (m : NetAddress2SizeHashMap)

/-- The map after `Initialize`. -/
def init (bucketCount : ℕ) : NetAddress2SizeHashMap := ⟨bucketCount, fun _ => replicate 6 0, 0⟩

/-- The bucket of an address. -/
def bucket (address : ℕ) : ℕ × ℕ := (address % gSubMapCount, address % m.mBucketCount)

/-- `Put`, and whether it succeeds; the count has 32 bits. -/
def put (address timesOfBaseSize : ℕ) (allocated : Bool) : NetAddress2SizeHashMap × Bool :=
  if address = 0 then (m, false)
  else
    match putEntry (makeEntry address timesOfBaseSize) allocated (m.chains (m.bucket address)) with
    | none => (m, false)
    | some ws =>
      (⟨m.mBucketCount, update m.chains (m.bucket address) ws, (m.mCount + 1) % 2 ^ 32⟩, true)

/-- `Remove`, and the size if it succeeds. -/
def remove (address : ℕ) : NetAddress2SizeHashMap × Option ℕ :=
  if address = 0 then (m, none)
  else
    match removeEntry address (m.chains (m.bucket address)) with
    | none => (m, none)
    | some (size, ws) =>
      (⟨m.mBucketCount, update m.chains (m.bucket address) ws, (m.mCount + 2 ^ 32 - 1) % 2 ^ 32⟩,
        some size)

end NetAddress2SizeHashMap

/-- What happens to the map. -/
inductive MapAction where
  | put (address timesOfBaseSize : ℕ) (allocated : Bool)
  | remove (address : ℕ)

/-- A step of the map, with the addresses that are live and their sizes. An
address that is put is below 2^48 and not live. -/
def mapStep (s : NetAddress2SizeHashMap × List (ℕ × ℕ)) :
    MapAction → Option (NetAddress2SizeHashMap × List (ℕ × ℕ))
  | .put address size allocated =>
    if 0 < address ∧ address < 2 ^ 48 ∧ size < 2 ^ 32 ∧ address ∉ s.2.map Prod.fst then
      let r := s.1.put address size allocated
      some (r.1, if r.2 then (address, size) :: s.2 else s.2)
    else none
  | .remove address => some ((s.1.remove address).1, s.2.eraseP (·.1 = address))

/-! ## One thread -/

section Words

variable {entry w : ℕ} {allocated : Bool} {ws ws' : List ℕ}

/-- The entries in use. -/
def used (ws : List ℕ) : List ℕ := ws.filter (· ≠ 0)

theorem used_cons (w : ℕ) (ws : List ℕ) :
    used (w :: ws) = if w = 0 then used ws else w :: used ws := by
  by_cases hw : w = 0 <;> simp [used, hw]

theorem used_putEntry (hentry : entry ≠ 0) (h : putEntry entry allocated ws = some ws') :
    (used ws').Perm (entry :: used ws) := by
  induction ws generalizing ws' with
  | nil =>
    obtain ⟨-, rfl⟩ := guard_eq_some.mp h
    simp [used, hentry]
  | cons w ws ih =>
    rw [putEntry] at h
    split at h
    case isTrue hw =>
      cases h
      simp [used_cons, hentry, hw]
    case isFalse hw =>
      obtain ⟨ws', hput, rfl⟩ := map_eq_some_iff.mp h
      simpa [used_cons, hw] using ((ih hput).cons w).trans (Perm.swap ..)

theorem removeEntry_spec (haddress : address ≠ 0) (ws : List ℕ) : match removeEntry address ws with
    | none => ∀ w ∈ used ws, addressOf w ≠ address
    | some (size, ws') =>
      ∃ w, addressOf w = address ∧ getSize w = size ∧ (used ws).Perm (w :: used ws') := by
  induction ws with
  | nil => simp [removeEntry, used]
  | cons w ws ih =>
    rw [removeEntry]
    split_ifs with hw
    · have hne : w ≠ 0 := by
        rintro rfl
        exact haddress hw.symm
      exact ⟨w, hw, rfl, by simp [used_cons, hne]⟩
    · cases hr : removeEntry address ws with
      | none =>
        rw [hr] at ih
        intro v hv
        obtain ⟨hmem, hne⟩ := mem_filter.mp hv
        obtain rfl | hmem := mem_cons.mp hmem
        exacts [hw, ih v (mem_filter.mpr ⟨hmem, hne⟩)]
      | some r =>
        rw [hr] at ih
        obtain ⟨v, hv, hsize, hperm⟩ := ih
        refine ⟨v, hv, hsize, ?_⟩
        simp only [used_cons]
        split_ifs
        · exact hperm
        · exact (hperm.cons w).trans (Perm.swap ..)

end Words

/-- **The map holds the live addresses**: in each chain the entries of those that
belong there, and no others. -/
structure HoldsLive (m : NetAddress2SizeHashMap) (live : List (ℕ × ℕ)) : Prop where
  nodup : (live.map Prod.fst).Nodup
  bounds : ∀ p ∈ live, 0 < p.1 ∧ p.1 < 2 ^ 48
  chains : ∀ i, (used (m.chains i)).Perm
    ((live.filter (m.bucket ·.1 = i)).map fun p => makeEntry p.1 p.2)
  count : m.mCount = live.length % 2 ^ 32

section Live

variable {m : NetAddress2SizeHashMap} {live : List (ℕ × ℕ)}

section

variable (h : HoldsLive m live)
include h

theorem HoldsLive.put (haddress : 0 < address ∧ address < 2 ^ 48)
    (hnew : address ∉ live.map Prod.fst) (allocated : Bool) :
    HoldsLive (m.put address size allocated).1
      (if (m.put address size allocated).2 then (address, size) :: live else live) := by
  rw [NetAddress2SizeHashMap.put, if_neg (haddress.1.ne')]
  cases hput : putEntry (makeEntry address size) allocated (m.chains (m.bucket address)) with
  | none => exact h
  | some ws =>
    have hused := used_putEntry (makeEntry_ne_zero (haddress.1.ne')) hput
    refine ⟨nodup_cons.mpr ⟨hnew, h.nodup⟩, forall_mem_cons.mpr ⟨haddress, h.bounds⟩,
      fun i => ?_, ?_⟩
    · show (used (update m.chains (m.bucket address) ws i)).Perm
        (map _ (filter (fun p => decide (m.bucket p.1 = i)) ((address, size) :: live)))
      by_cases hi : i = m.bucket address
      · subst hi
        simpa using hused.trans ((h.chains _).cons _)
      · simpa [hi, Ne.symm hi] using h.chains i
    · show (m.mCount + 1) % 2 ^ 32 = (live.length + 1) % 2 ^ 32
      rw [h.count]
      omega

theorem HoldsLive.remove_none
    (hnone : ∀ w ∈ used (m.chains (m.bucket address)), addressOf w ≠ address) :
    ∀ p ∈ live, p.1 ≠ address := by
  rintro p hp rfl
  refine hnone (makeEntry p.1 p.2) ?_ (addressOf_makeEntry (h.bounds p hp).2)
  exact (h.chains _).mem_iff.mpr (mem_map.mpr ⟨p, mem_filter.mpr ⟨hp, by simp⟩, rfl⟩)

theorem HoldsLive.remove_some {ws : List ℕ} {p : ℕ × ℕ} (hp : p ∈ live)
    (hused : (used (m.chains (m.bucket p.1))).Perm (makeEntry p.1 p.2 :: used ws)) :
    HoldsLive ⟨m.mBucketCount, update m.chains (m.bucket p.1) ws, (m.mCount + 2 ^ 32 - 1) % 2 ^ 32⟩
      (live.eraseP (·.1 = p.1)) := by
  obtain ⟨q, l₁, l₂, -, hq, hlive, herase⟩ := exists_of_eraseP (p := (·.1 = p.1)) hp (by simp)
  obtain rfl : q = p := inj_on_of_nodup_map h.nodup (by simp [hlive]) hp (of_decide_eq_true hq)
  have hperm : live.Perm (q :: live.eraseP (·.1 = q.1)) := by
    rw [herase, hlive]
    exact perm_middle
  refine ⟨h.nodup.sublist (eraseP_sublist.map _), fun r hr => h.bounds r (mem_of_mem_eraseP hr),
    fun i => ?_, ?_⟩
  · show (used (update m.chains (m.bucket q.1) ws i)).Perm
      (map _ (filter (fun r => decide (m.bucket r.1 = i)) (live.eraseP (·.1 = q.1))))
    have hchain := (h.chains i).trans ((hperm.filter _).map _)
    by_cases hi : i = m.bucket q.1
    · subst hi
      rw [filter_cons_of_pos (by simp), map_cons] at hchain
      rw [update_self]
      exact (hused.symm.trans hchain).cons_inv
    · rw [filter_cons_of_neg (by simp [Ne.symm hi])] at hchain
      rwa [update_of_ne hi]
  · have hlen := hperm.length_eq
    rw [length_cons] at hlen
    show (m.mCount + 2 ^ 32 - 1) % 2 ^ 32 = _
    rw [h.count]
    omega

/-- **`Remove` of a live address** gives the size, cut to 16 bits, and the address
is not live any more; it fails for every other. -/
theorem HoldsLive.remove (address : ℕ) :
    HoldsLive (m.remove address).1 (live.eraseP (·.1 = address)) ∧
      ∀ size, (m.remove address).2 = some size ↔ ∃ s, (address, s) ∈ live ∧ size = s % 2 ^ 16 := by
  have hdead (hnot : ∀ p ∈ live, p.1 ≠ address) : HoldsLive m (live.eraseP (·.1 = address)) ∧
      ∀ size, none = some size ↔ ∃ s, (address, s) ∈ live ∧ size = s % 2 ^ 16 := by
    rw [eraseP_of_forall_not (by simpa using hnot)]
    exact ⟨h, fun _ => iff_of_false nofun fun ⟨s, hs, _⟩ => hnot _ hs rfl⟩
  rw [NetAddress2SizeHashMap.remove]
  by_cases hzero : address = 0
  · rw [if_pos hzero]
    exact hdead fun p hp heq => (h.bounds p hp).1.ne' (heq.trans hzero)
  · rw [if_neg hzero]
    have hspec := removeEntry_spec hzero (m.chains (m.bucket address))
    cases hr : removeEntry address (m.chains (m.bucket address)) with
    | none =>
      rw [hr] at hspec
      exact hdead (h.remove_none hspec)
    | some r =>
      rw [hr] at hspec
      obtain ⟨w, hw, hsize, hused⟩ := hspec
      obtain ⟨p, hp, rfl⟩ := mem_map.mp ((h.chains _).mem_iff.mp (hused.mem_iff.mpr mem_cons_self))
      have hlive := (mem_filter.mp hp).1
      have hlt := (h.bounds p hlive).2
      obtain rfl : p.1 = address := (addressOf_makeEntry hlt).symm.trans hw
      rw [getSize_makeEntry hlt] at hsize
      refine ⟨h.remove_some hlive hused, fun size => ?_⟩
      rw [some.injEq, ← hsize]
      refine ⟨fun heq => ⟨p.2, hlive, heq.symm⟩, fun ⟨s, hs, heq⟩ => ?_⟩
      rw [heq, inj_on_of_nodup_map h.nodup hlive hs rfl]

end

end Live

/-- **The map is what it is for**: `Remove` succeeds for the live addresses, with
the size that was put, and for no others, and the count is their number. -/
def Faithful (m : NetAddress2SizeHashMap) (live : List (ℕ × ℕ)) : Prop :=
  (∀ address size, (m.remove address).2 = some size ↔ (address, size) ∈ live) ∧
    m.mCount = live.length

/-- **The map answers for the live addresses exactly as long as all sizes have 16
bits**, and the number of addresses 32. -/
theorem faithful_iff (bucketCount : ℕ) (actions : List MapAction) (m : NetAddress2SizeHashMap)
    (live : List (ℕ × ℕ))
    (hrun : run mapStep (NetAddress2SizeHashMap.init bucketCount, []) actions = some (m, live)) :
    Faithful m live ↔ (∀ p ∈ live, p.2 < 2 ^ 16) ∧ live.length < 2 ^ 32 := by
  have h : HoldsLive m live := by
    refine run_invariant (P := fun s => HoldsLive s.1 s.2) ?_
      (show HoldsLive (.init bucketCount) [] from ⟨nodup_nil, nofun, fun _ => Perm.nil, rfl⟩) hrun
    rintro ⟨m, live⟩ a ⟨m', live'⟩ h hstep
    cases a with
    | put address size allocated =>
      obtain ⟨⟨hpos, hlt, -, hnew⟩, heq⟩ := guard_eq_some.mp hstep
      cases heq
      exact h.put ⟨hpos, hlt⟩ hnew allocated
    | remove address =>
      cases hstep
      exact (h.remove address).1
  rw [Faithful, h.count]
  refine and_congr ⟨fun hall p hp => ?_, fun hall address size => ?_⟩ ?_
  · obtain ⟨s, -, hs⟩ := ((h.remove p.1).2 p.2).mp ((hall p.1 p.2).mpr hp)
    omega
  · rw [(h.remove address).2]
    refine ⟨?_, fun hs => ⟨size, hs, (mod_eq_of_lt (hall _ hs)).symm⟩⟩
    rintro ⟨s, hs, rfl⟩
    rwa [mod_eq_of_lt (hall _ hs)]
  · omega

/-- Two addresses of one bucket, one of them removed again. -/
theorem faithful_iff_sample : ∃ s ∈ run mapStep (NetAddress2SizeHashMap.init 1, [])
        [.put 5 3 true, .put 10 65535 true, .remove 5], Faithful s.1 s.2 ∧ s.2 = [(10, 65535)] := by
  have hrun : run mapStep (NetAddress2SizeHashMap.init 1, [])
      [.put 5 3 true, .put 10 65535 true, .remove 5] = some (_, [(10, 65535)]) := rfl
  exact ⟨_, hrun, (faithful_iff _ _ _ _ hrun).mpr (by decide), rfl⟩

/-- A size of 65536 is returned as 0. -/
theorem exists_run_not_faithful :
    ∃ s ∈ run mapStep (NetAddress2SizeHashMap.init 1, []) [.put 4096 65536 true],
      (4096, 65536) ∈ s.2 ∧ (s.1.remove 4096).2 = some 0 :=
  ⟨_, rfl, by decide⟩

end Common
