import UbsComm.Shm.Queue

/-!
# The invariant of the shared-memory queue

The words of the four counters are the images of unbounded counts: of the
reservations made by producers and by consumers, and of the calls of either
kind that have returned. These counts are in order – given back, taken,
published, reserved – and the last is never more than the size of the ring
ahead of the first. A process that has reserved a cell or an item owns the
number of its reservation, its *ticket*, until it moves the tail over it.

The invariant says so much, and what holds of each process where it stands.
For each kind of step there is a lemma that the invariant is kept; what the
step does to the processes that do not make it is stated once
(`QueueState.PcOk.frame`).
-/

namespace Shm

open Function List Nat Option Prod UInt32

variable {T : Type*}

namespace QueueState

/-! ## The counts -/

/-- The history, without who made the calls. -/
def events (s : QueueState T) : List (Fifo.Event T) := s.history.map Prod.snd

/-- The items published, and the items taken out. -/
def pushes (s : QueueState T) : List T := Fifo.pushes s.events

/-- The items returned, in order. -/
def pops (s : QueueState T) : List T := Fifo.pops s.events

/-! ## The invariant -/

/-- Process `p` has made the `k`-th reservation of a cell, for `x`, and has
not published it. -/
structure Reserves (s : QueueState T) (p : ℕ) (x : T) (oHead : UInt32) (k : ℕ) : Prop where
  word : oHead = UInt32.ofNat k
  mine : s.reserved[k]? = some (p, x)
  unpublished : s.pushes.length ≤ k

/-- Process `p` has made the `k`-th reservation of an item, and has not
given the cell back. -/
structure Takes (s : QueueState T) (p : ℕ) (oHead : UInt32) (k : ℕ) : Prop where
  word : oHead = UInt32.ofNat k
  mine : s.takers[k]? = some p
  unreturned : s.pops.length ≤ k

/-- What holds of a process where it stands. -/
def PcOk (ring : Ring) (s : QueueState T) (p : ℕ) : Pc T → Prop
  | .idle | .prodHead _ | .consHead _ => True
  | .prodSpace _ oHead seen => oHead = UInt32.ofNat seen
    ∧ seen ≤ s.reserved.length ∧ seen ≤ s.pops.length + ring.size
  | .prodCas _ oHead seen => oHead = UInt32.ofNat seen
    ∧ seen ≤ s.reserved.length ∧ seen < s.pops.length + ring.size
  | .prodWrite x oHead k => s.Reserves p x oHead k
  | .prodTail x oHead k | .prodSpin x oHead k =>
    s.Reserves p x oHead k ∧ s.data (ring.cell oHead) = x
  | .consCount _ oHead seen => oHead = UInt32.ofNat seen ∧ seen ≤ s.takers.length
  | .consCas _ oHead seen => oHead = UInt32.ofNat seen
    ∧ seen ≤ s.takers.length ∧ seen < s.pushes.length
  | .consRead oHead k => s.Takes p oHead k
  | .consWait oHead x k => s.Takes p oHead k ∧ s.pushes[k]? = some x
  | .consStore oHead x k => s.Takes p oHead k ∧ s.pushes[k]? = some x ∧ k = s.pops.length
  -- nothing is ever skipped
  | .skipWait _ | .skipStore _ | .bumpRead | .bumpWrite _ => False

/-- **The invariant.** -/
structure Inv [DecidableEq T] (ring : Ring) (s : QueueState T) : Prop where
  prodHead : s.prod.head = UInt32.ofNat s.reserved.length
  prodTail : s.prod.tail = UInt32.ofNat s.pushes.length
  consHead : s.cons.head = UInt32.ofNat s.takers.length
  consTail : s.cons.tail = UInt32.ofNat s.pops.length
  pops_le : s.pops.length ≤ s.takers.length
  takers_le : s.takers.length ≤ s.pushes.length
  /-- The items are published in the order of the reservations. -/
  pushes_prefix : s.pushes <+: s.reserved.map Prod.snd
  reserved_le : s.reserved.length ≤ s.pops.length + ring.size
  legal : ∃ held, Machine.run (Fifo.step ring.size) [] s.events = some held
  programOrder : ∀ p, (s.history.filter (·.1 = p)).map Prod.snd
    = (s.procs p).results.filterMap CallResult.event?
  /-- An item published stays in its cell until this is given back. -/
  cells : ∀ k x, s.pops.length ≤ k → s.pushes[k]? = some x → s.data (ring.cell (UInt32.ofNat k)) = x
  noneFailed : ∀ p, (s.procs p).failedProd = UInt64.ofNat (2 ^ 64 - 1)
  procs : ∀ p, s.PcOk ring p (s.procs p).pc

/-- What the other processes see of a step: records grow, what they have
reserved stays theirs, and their cells stay as they are. -/
structure Frame (ring : Ring) (s s' : QueueState T) (q : ℕ) : Prop where
  reserved : s.reserved <+: s'.reserved
  takers : s.takers <+: s'.takers
  pushes : s.pushes <+: s'.pushes
  pops : s.pops.length ≤ s'.pops.length
  unpublished : ∀ k x, s.reserved[k]? = some (q, x) → s.pushes.length ≤ k → s'.pushes.length ≤ k
  unreturned : ∀ k, s.takers[k]? = some q → s.pops.length ≤ k → s'.pops.length ≤ k
  cell : ∀ k x, s.reserved[k]? = some (q, x) → s.pushes.length ≤ k →
    s'.data (ring.cell (UInt32.ofNat k)) = s.data (ring.cell (UInt32.ofNat k))

section Frames

variable {ring : Ring} {s s' : QueueState T} {q : ℕ} {oHead : UInt32}

theorem Reserves.frame {x : T} {k : ℕ} (hf : s.Frame ring s' q)
    (h : s.Reserves q x oHead k) : s'.Reserves q x oHead k where
  word := h.word
  mine := hf.reserved.getElem?_eq_some h.mine
  unpublished := hf.unpublished k x h.mine h.unpublished

theorem Takes.frame {k : ℕ} (hf : s.Frame ring s' q) (h : s.Takes q oHead k) :
    s'.Takes q oHead k where
  word := h.word
  mine := hf.takers.getElem?_eq_some h.mine
  unreturned := hf.unreturned k h.mine h.unreturned

/-- **The other processes stay where they are.** -/
theorem PcOk.frame (hf : s.Frame ring s' q) {pc : Pc T}
    (h : s.PcOk ring q pc) : s'.PcOk ring q pc := by
  have hres := hf.reserved.length_le
  have htak := hf.takers.length_le
  have hpush := hf.pushes.length_le
  have hpops := hf.pops
  cases pc with
  | idle | prodHead | consHead => trivial
  | prodSpace x oHead seen =>
    exact ⟨h.1, h.2.1.trans hres, h.2.2.trans (Nat.add_le_add_right hpops _)⟩
  | prodCas x oHead seen =>
    exact ⟨h.1, h.2.1.trans hres, h.2.2.trans_le (Nat.add_le_add_right hpops _)⟩
  | prodWrite x oHead k => exact Reserves.frame hf h
  | prodTail x oHead k | prodSpin x oHead k =>
    refine ⟨h.1.frame hf, ?_⟩
    rw [h.1.word, hf.cell k x h.1.mine h.1.unpublished, ← h.1.word]
    exact h.2
  | consCount again oHead seen => exact ⟨h.1, h.2.trans htak⟩
  | consCas again oHead seen => exact ⟨h.1, h.2.1.trans htak, h.2.2.trans_le hpush⟩
  | consRead oHead k => exact Takes.frame hf h
  | consWait oHead x k => exact ⟨h.1.frame hf, hf.pushes.getElem?_eq_some h.2⟩
  | consStore oHead x k =>
    refine ⟨h.1.frame hf, hf.pushes.getElem?_eq_some h.2.1, ?_⟩
    have := hf.unreturned k h.1.mine h.1.unreturned
    exact le_antisymm (h.2.2.trans_le hpops) this
  | skipWait | skipStore | bumpRead | bumpWrite => exact h.elim

theorem Frame.of_eq (hres : s'.reserved = s.reserved) (htak : s'.takers = s.takers)
    (hhist : s'.history = s.history) (hdata : s'.data = s.data) : s.Frame ring s' q := by
  have hevents : s'.events = s.events := congrArg (List.map Prod.snd) hhist
  have hpush : s'.pushes = s.pushes := congrArg Fifo.pushes hevents
  have hpops : s'.pops = s.pops := congrArg Fifo.pops hevents
  constructor <;> simp_all

end Frames

/-! ## One lemma for each kind of step -/

section Moves

variable {ring : Ring} {s s' : QueueState T} {p q : ℕ} {r : CallResult T} {e : Fifo.Event T}

theorem apply_update_of_eq {α β : Type*} [DecidableEq α] {g : α → β} {a : α} {b : β} {γ : Type*}
    (f : β → γ) (h : f b = f (g a)) (c : α) : f (update g a b c) = f (g c) := by
  rw [update_apply]
  split
  case isTrue hc => rw [hc, h]
  case isFalse => rfl

theorem results_goto (pc : Pc T) (q : ℕ) :
    ((s.goto p pc).procs q).results = (s.procs q).results := by
  rw [goto, apply_update_of_eq Proc.results]
  rfl

section

variable (r : CallResult T) (q : ℕ)

theorem failedProd_ret : ((s.ret p r).procs q).failedProd = (s.procs q).failedProd := by
  rw [ret, apply_update_of_eq Proc.failedProd]
  rfl

theorem pc_ret : ((s.ret p r).procs q).pc = if q = p then .idle else (s.procs q).pc := by
  simp only [ret, update_apply]
  split <;> rfl

theorem results_ret :
    ((s.ret p r).procs q).results = (s.procs q).results ++ if q = p then [r] else [] := by
  simp only [ret, update_apply]
  split
  case isTrue h => rw [h]
  case isFalse => exact (append_nil _).symm

end

/-- The history and the results of the processes agree after a return. -/
theorem programOrder_ret (r : CallResult T) (h : ∀ q, (s.history.filter (·.1 = q)).map Prod.snd
      = (s.procs q).results.filterMap CallResult.event?) (q : ℕ) :
    ((s.ret p r).history.filter (·.1 = q)).map Prod.snd
      = ((s.ret p r).procs q).results.filterMap CallResult.event? := by
  rw [results_ret, filterMap_append, ← h q]
  show ((s.history ++ _).filter _).map _ = _
  cases he : r.event? <;> by_cases hq : q = p <;>
    simp [hq, he, Ne.symm]

theorem events_ret (he : r.event? = some e) : (s.ret p r).events = s.events ++ [e] := by
  simp [events, ret, he]

theorem pushes_ret (he : r.event? = some e) :
    (s.ret p r).pushes = s.pushes ++ e.pushed?.toList := by
  rw [pushes, events_ret he, Fifo.pushes, filterMap_append]
  cases e <;> rfl

theorem pops_ret (he : r.event? = some e) : (s.ret p r).pops = s.pops ++ e.popped?.toList := by
  rw [pops, events_ret he, Fifo.pops, filterMap_append]
  cases e <;> rfl

variable [DecidableEq T] {oHead : UInt32} {k : ℕ} {x : T}

section

variable (hi : s.Inv ring)
include hi

namespace Inv

theorem setProc {proc : Proc T} (hresults : proc.results.filterMap CallResult.event?
      = (s.procs p).results.filterMap CallResult.event?)
    (hfailed : proc.failedProd = (s.procs p).failedProd) (hpc : s.PcOk ring p proc.pc) :
    { s with procs := update s.procs p proc : QueueState T }.Inv ring := by
  refine { hi with programOrder := fun q => ?_, noneFailed := fun q => ?_, procs := fun q => ?_ }
  · exact (hi.programOrder q).trans (apply_update_of_eq (fun proc : Proc T =>
      proc.results.filterMap CallResult.event?) hresults q).symm
  · exact (apply_update_of_eq Proc.failedProd hfailed q).trans (hi.noneFailed q)
  · have hf : s.Frame ring { s with procs := update s.procs p proc } q := .of_eq rfl rfl rfl rfl
    refine PcOk.frame hf ?_
    dsimp only
    rw [update_apply]
    split
    case isTrue hq => exact hq ▸ hpc
    case isFalse => exact hi.procs q

theorem goto {pc : Pc T} (h : s.PcOk ring p pc) : (s.goto p pc).Inv ring := hi.setProc rfl rfl h

theorem procs_ret (hprocs : s'.procs = s.procs) (hf : ∀ q ≠ p, s.Frame ring (s'.ret p r) q)
    (q : ℕ) : (s'.ret p r).PcOk ring q ((s'.ret p r).procs q).pc := by
  rw [pc_ret]
  split
  case isTrue => trivial
  case isFalse hq => exact hprocs ▸ (hi.procs q).frame (hf q hq)

theorem ret_of_none (hr : r.event? = none) : (s.ret p r).Inv ring := by
  have heq : s.ret p r = { s with procs := (s.ret p r).procs } := by
    rw [ret, hr, map_none, toList_none, append_nil]
  rw [heq]
  refine hi.setProc ?_ rfl trivial
  rw [filterMap_append, filterMap_cons_none hr]
  exact append_nil _

/-- **A producer reserves a cell.** -/
theorem reserve (x : T) (hroom : s.reserved.length < s.pops.length + ring.size) : { s with
      prod := { s.prod with head := s.prod.head + 1 }
      reserved := s.reserved ++ [(p, x)] : QueueState T }.Inv ring :=
  { hi with
    prodHead := by
      rw [length_append, hi.prodHead]
      exact ofNat_add_one _
    pushes_prefix := by
      rw [map_append]
      exact hi.pushes_prefix.trans (prefix_append _ _)
    reserved_le := by
      rw [length_append]
      exact hroom
    procs := fun q => (hi.procs q).frame (by exact ⟨prefix_append _ _, prefix_rfl, prefix_rfl,
      le_rfl, fun _ _ _ h => h, fun _ _ h => h, fun _ _ _ _ => rfl⟩) }

/-- **A consumer reserves an item.** -/
theorem take (hitem : s.takers.length < s.pushes.length) : { s with
      cons := { s.cons with head := s.cons.head + 1 }
      takers := s.takers ++ [p] : QueueState T }.Inv ring :=
  { hi with
    consHead := by
      rw [length_append, hi.consHead]
      exact ofNat_add_one _
    pops_le := by
      rw [length_append]
      exact hi.pops_le.trans (le_succ _)
    takers_le := by
      rw [length_append]
      exact hitem
    procs := fun q => (hi.procs q).frame (by exact ⟨prefix_rfl, prefix_append _ _, prefix_rfl,
      le_rfl, fun _ _ _ h => h, fun _ _ h => h, fun _ _ _ _ => rfl⟩) }

/-- A ticket that is not published lies in the window of the ring. -/
theorem ticket_lt (h : s.Reserves p x oHead k) : k < s.pops.length + ring.size := by
  obtain ⟨hlt, -⟩ := List.getElem?_eq_some_iff.mp h.mine
  exact hlt.trans_le hi.reserved_le

/-- **A producer writes its item.** No item that is still to be taken, and
no cell that another process has reserved, is overwritten. -/
theorem write (hpc : (s.procs p).pc = .prodWrite x oHead k) :
    { s with data := update s.data (ring.cell oHead) x : QueueState T }.Inv ring := by
  have hmine : s.Reserves p x oHead k := by
    have := hi.procs p
    rwa [hpc] at this
  have hk := hi.ticket_lt hmine
  have hpops := hi.pops_le.trans hi.takers_le
  have hother {j : ℕ} (hne : j ≠ k) (hle : s.pops.length ≤ j)
      (hlt : j < s.pops.length + ring.size) :
      update s.data (ring.cell oHead) x (ring.cell (ofNat j)) = s.data (ring.cell (ofNat j)) := by
    have hkle : s.pops.length ≤ k := hpops.trans hmine.unpublished
    rw [hmine.word]
    exact update_of_ne (ring.cell_ne hne (by omega) (by omega)) _ _
  refine { hi with cells := ?_, procs := ?_ }
  · intro j y hle hy
    obtain ⟨hlt, -⟩ := List.getElem?_eq_some_iff.mp hy
    have hjk : j < k := hlt.trans_le hmine.unpublished
    exact (hother hjk.ne hle (hjk.trans hk)).trans (hi.cells j y hle hy)
  · intro q
    by_cases hq : q = p
    · subst hq
      show PcOk ring _ q (s.procs q).pc
      rw [hpc]
      exact { hmine with }
    · refine PcOk.frame (s := s) ?_ (hi.procs q)
      refine ⟨prefix_rfl, prefix_rfl, prefix_rfl, le_rfl,
        fun _ _ _ h => h, fun _ _ h => h, fun j y hj hle => ?_⟩
      -- the other's reservation is another one
      have hne : j ≠ k := by
        rintro rfl
        exact hq (congrArg fst (some.inj (hj.symm.trans hmine.mine)))
      exact hother hne (hpops.trans hle) (hi.ticket_lt ⟨rfl, hj, hle⟩)

/-- **A producer publishes its item**, and returns. -/
theorem publish (hpc : (s.procs p).pc = .prodTail x oHead k) (htail : s.prod.tail = oHead) :
    ({ s with prod := { s.prod with tail := oHead + 1 } : QueueState T }.ret p
      (.enqueued x)).Inv ring := by
  obtain ⟨hmine, hdata⟩ : s.Reserves p x oHead k ∧ s.data (ring.cell oHead) = x := by
    have := hi.procs p
    rwa [hpc] at this
  have hk := hi.ticket_lt hmine
  -- it is the turn of the ticket
  obtain rfl : k = s.pushes.length := by
    have hw := hmine.word
    rw [← htail, hi.prodTail, eq_comm] at hw
    have hpops := hi.pops_le.trans hi.takers_le
    have hsize := ring.size_lt
    exact (ofNat_eq_ofNat_iff hmine.unpublished (by omega)).mp hw
  set s' := ret _ p _ with hs'
  have hevents : s'.events = s.events ++ [.push x] := events_ret rfl
  have hpush : s'.pushes = s.pushes ++ [x] := pushes_ret (e := .push x) rfl
  have hpops : s'.pops = s.pops := (pops_ret (e := .push x) rfl).trans (append_nil _)
  have hlength : s'.pushes.length = s.pushes.length + 1 := by
    rw [hpush, length_append]
    rfl
  constructor
  · exact hi.prodHead
  · rw [hlength, ← ofNat_add_one, ← hi.prodTail, htail]
    rfl
  · exact hi.consHead
  · exact hpops ▸ hi.consTail
  · exact hpops ▸ hi.pops_le
  · exact hlength ▸ hi.takers_le.trans (le_succ _)
  · refine hpush ▸ hi.pushes_prefix.concat ?_
    rw [getElem?_map, hmine.mine]
    rfl
  · exact hpops ▸ hi.reserved_le
  · exact hevents ▸ Fifo.legal_push x hi.legal hk
  · exact programOrder_ret _ hi.programOrder
  · intro j y hle hy
    rw [hpush, getElem?_concat_eq_some] at hy
    rcases hy with hy | ⟨rfl, rfl⟩
    · exact hi.cells j y (hpops ▸ hle) hy
    · exact hmine.word ▸ hdata
  · exact fun q => (failedProd_ret _ q).trans (hi.noneFailed q)
  · refine hi.procs_ret rfl fun q hq => ⟨prefix_rfl, prefix_rfl, ?_, hpops ▸ le_rfl,
      fun j y hj hle => ?_, fun _ _ h => hpops ▸ h, fun _ _ _ _ => rfl⟩
    · exact hpush ▸ prefix_append _ _
    · -- the ticket published is not the other's
      rw [hlength]
      refine lt_of_le_of_ne hle ?_
      rintro rfl
      exact hq (congrArg fst (some.inj (hj.symm.trans hmine.mine)))

/-- **A consumer gives its cell back**, and returns the item. -/
theorem release (hpc : (s.procs p).pc = .consStore oHead x k) :
    ({ s with cons := { s.cons with tail := oHead + 1 } : QueueState T }.ret p
      (.dequeued x)).Inv ring := by
  obtain ⟨hmine, hx, rfl⟩ : s.Takes p oHead k ∧ s.pushes[k]? = some x ∧ k = s.pops.length := by
    have := hi.procs p
    rwa [hpc] at this
  obtain ⟨hlt, -⟩ := List.getElem?_eq_some_iff.mp hmine.mine
  set s' := ret _ p _ with hs'
  have hevents : s'.events = s.events ++ [.pop x] := events_ret rfl
  have hpush : s'.pushes = s.pushes := (pushes_ret (e := .pop x) rfl).trans (append_nil _)
  have hpops : s'.pops = s.pops ++ [x] := pops_ret (e := .pop x) rfl
  have hlength : s'.pops.length = s.pops.length + 1 := by
    rw [hpops, length_append]
    rfl
  constructor
  · exact hi.prodHead
  · exact hpush ▸ hi.prodTail
  · exact hi.consHead
  · rw [hlength, ← ofNat_add_one, ← hmine.word]
    rfl
  · exact hlength ▸ hlt
  · exact hpush ▸ hi.takers_le
  · exact hpush ▸ hi.pushes_prefix
  · rw [hlength]
    exact hi.reserved_le.trans (Nat.add_le_add_right (le_succ _) _)
  · exact hevents ▸ Fifo.legal_pop hi.legal hx
  · exact programOrder_ret _ hi.programOrder
  · intro j y hle hy
    rw [hlength] at hle
    exact hi.cells j y (le_of_succ_le hle) (hpush ▸ hy)
  · exact fun q => (failedProd_ret _ q).trans (hi.noneFailed q)
  · refine hi.procs_ret rfl fun q hq => ⟨prefix_rfl, prefix_rfl, hpush ▸ prefix_rfl, ?_,
      fun _ _ _ h => hpush ▸ h, fun j hj hle => ?_, fun _ _ _ _ => rfl⟩
    · exact hlength ▸ le_succ _
    · -- the item returned was not the other's
      rw [hlength]
      refine lt_of_le_of_ne hle ?_
      rintro rfl
      exact hq (some.inj (hj.symm.trans hmine.mine))

end Inv

end

end Moves

end QueueState

end Shm
