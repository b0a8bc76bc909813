import UbsComm.Umq.ShmConservation
import UbsComm.Umq.ShmData

/-!
# The memory of the pool

What an allocation hands out is read by the peer, too, which has the memory of
the pool and nothing else of the process. The chains of the owner are in this
memory, the headers and the data that the allocation puts in them, in every run
in which the allocations fetch buffers of the pool only (`inside_of_shmRun`): also
where chains are lost or come back to another list. The list of a thread is
filled by the function of the pools of the process, which goes on to their memory
when the pool has too few buffers: the peer cannot follow such a chain
(`exists_shmRun_outside`).
-/

namespace Umq

open Links Machine Nat

namespace ShmPool

/-- `size` bytes from an address on are in the memory of the pool. -/
def Inside (pool : ShmPool) (p size : ℕ) : Prop :=
  pool.dataBuffer ≤ p ∧ p + size ≤ pool.dataBuffer + pool.totalSize
deriving Decidable

/-- A buffer of the chain `l` is in the memory of the pool: its header, and if
it is one with data, what any allocation of the chain puts in it. -/
def AllInside (pool : ShmPool) (l : List ℕ) (b : ℕ) : Prop :=
  pool.Inside b sizeofUmqBuf ∧ (pool.kind b = true → ∀ requestSize headroomSize contents,
    headroomSize ≤ umqHeadroomSizeLimit →
    let c := pool.umqShmQbufAllocData requestSize headroomSize l headroomSize requestSize contents b
    pool.Inside c.bufData c.dataSize)

/-- **What an allocation fetches is of the pool**: the pools of the process are
not asked for buffers, or give none. -/
def FetchesOwn (pool : ShmPool) : ShmAction → Prop
  | .alloc _ _ _ _ foreign => pool.disableScaleCap = true ∨ ∀ ps ∈ foreign, ps = []
  | _ => True

instance (pool : ShmPool) : DecidablePred pool.FetchesOwn
  | .alloc .. => inferInstanceAs (Decidable (_ ∨ _))
  | .free .. | .enqueue .. | .dequeue | .peerFree _ | .pollAndFill => instDecidableTrue

variable {pool : ShmPool} {s : ShmState} {L : ShmPlace → List ℕ} {b p : ℕ} {c : BufContents}
  {sorted : Prop} {items : List ℕ}

theorem inside_of_mem (hb : b ∈ pool.blocks) : pool.Inside b sizeofUmqBuf := by
  obtain ⟨offset, rfl, hat⟩ := at_of_mem hb
  have hle := hat.offset_le
  exact ⟨le_add_right _ _, by omega⟩

/-- The room of a buffer for its data is in the memory of the pool. -/
theorem Filled.inside (h : pool.Filled b c) (hb : b ∈ pool.blocks) (hkind : pool.kind b = true) :
    pool.Inside c.bufData c.dataSize := by
  obtain ⟨offset, hoffset⟩ := h.exists_offset hb hkind
  refine ⟨hoffset ▸ le_add_right _ _, ?_⟩
  rw [hoffset, add_assoc]
  refine Nat.add_le_add_left ?_ _
  by_cases hsplit : pool.split = true
  · have htotal := split_total hsplit
    have hdata := h.split_offset hb hkind hsplit hoffset
    omega
  · have hroom := h.room hkind
    obtain ⟨at', rfl, hat⟩ := at_of_mem hb
    rw [hkind] at hat
    cases hat with
    | header i hc hi => exact absurd hc hsplit
    | block i hc hi =>
      have htotal := combine_total hc
      have hmul := block_le hi
      have hblock := blockSize_bounds pool
      rw [dataStart, if_neg hsplit, dataRoom, if_neg hsplit, hoffset] at hroom
      omega

/-- **A chain of the owner is in the memory of the pool**, with the data that an
allocation puts in it. -/
theorem Inv.inside (h : pool.Inv sorted items s L) (hp : p ∈ s.owner) :
    ∃ l, Seg s.next p l 0 ∧ l ≠ [] ∧ ∀ b ∈ l, pool.AllInside l b := by
  have hchain : pool.Chained (pool.addr .owner) s.next p (p ∈ s.owner) (L (.owner p)) :=
    h.holds (.owner p)
  refine ⟨L (.owner p), coded_owner.mp (hchain.coded hp), hchain.ne_nil hp, fun b hb => ?_⟩
  have hblock := h.mem hb
  refine ⟨inside_of_mem hblock, fun hkind requestSize headroomSize contents hroom => ?_⟩
  obtain ⟨k, hk⟩ := hchain.kind
  have hdata : ∀ b' ∈ L (.owner p), b' ∈ pool.withData := fun b' hb' =>
    of_decide_eq_true ((hk b' hb').trans ((hk b hb).symm.trans hkind))
  exact (umqShmQbufAllocData_filled hroom hdata (Nat.le_refl _) (Or.inl hb)).inside hblock hkind

/-! ## Runs -/

/-- What every step keeps: each buffer that is not lost is in exactly one place.
A free list has buffers of its kind in the `split` mode; in the `combine` mode,
where all buffers are of one kind, returned ones are put among the headers. -/
def Resides (pool : ShmPool) (st : Option ShmState) : Prop :=
  ∀ s ∈ st, ∃ items L, pool.Inv (pool.split = true) items s L

theorem resides_some (h : pool.Inv (pool.split = true) items s L) : pool.Resides (some s) := by
  rintro s' ⟨⟩
  exact ⟨items, L, h⟩

/-- An allocation of no buffers follows a null pointer. -/
theorem umqShmQbufAlloc_zero {requestSize num : UInt32} {headroom : Option UInt16} {k : Bool}
    (hrequest : pool.request requestSize num headroom = .ok (k, 0)) (t : ℕ)
    (foreign : List (List ℕ)) :
    pool.umqShmQbufAlloc s t requestSize num headroom foreign = none := by
  rw [umqShmQbufAlloc, hrequest]
  dsimp only
  rw [fetchLoop, if_pos (Nat.zero_le _)]
  rfl

theorem Inv.resides_alloc (h : pool.Inv (pool.split = true) items s L) {t : ℕ}
    {requestSize num : UInt32} {headroom : Option UInt16} {foreign : List (List ℕ)}
    (hown : pool.FetchesOwn (.alloc t requestSize num headroom foreign)) :
    pool.Resides ((pool.umqShmQbufAlloc s t requestSize num headroom foreign).map Prod.fst) := by
  cases hrequest : pool.request requestSize num headroom with
  | error ret =>
    rw [ShmPool.umqShmQbufAlloc, hrequest]
    exact resides_some h
  | ok r =>
    obtain ⟨k, need⟩ := r
    by_cases hneed : need = 0
    · rw [umqShmQbufAlloc_zero (hneed ▸ hrequest)]
      intro s' hs'
      cases hs'
    · obtain ⟨s₁, ret, L₁, halloc, h₁⟩ :=
        h.umqShmQbufAlloc (t := t) hrequest hneed (.inr ⟨.inl (Classical.em _), hown⟩)
      rw [halloc]
      exact resides_some h₁

theorem resides_step {st st' : Option ShmState} {a : ShmAction} (h : pool.Resides st)
    (hown : pool.FetchesOwn a) (hstep : shmStep pool st a = some st') : pool.Resides st' := by
  obtain _ | s := st
  · cases hstep
  obtain ⟨items, L, hinv⟩ := h s rfl
  cases a with
  | alloc t requestSize num headroom foreign =>
    exact Option.some_inj.mp hstep ▸ hinv.resides_alloc hown
  | free t p =>
    obtain ⟨hp, hstep⟩ := guard_eq_some.mp hstep
    obtain ⟨s₁, L₁, hfree, h₁⟩ := hinv.umqShmQbufFree hp t
    exact hstep ▸ hfree ▸ resides_some h₁
  | enqueue p rendezvous accepted =>
    obtain ⟨hp, hstep⟩ := guard_eq_some.mp hstep
    obtain ⟨L₁, h₁⟩ := hinv.umqShmQbufEnqueue hp rendezvous accepted
    exact hstep ▸ resides_some h₁
  | dequeue =>
    obtain ⟨L₁, h₁⟩ := hinv.umqShmQbufDequeue
    exact Option.some_inj.mp hstep ▸ resides_some h₁
  | peerFree p =>
    obtain ⟨hp, hstep⟩ := guard_eq_some.mp hstep
    by_cases hroom : pool.RxRoom s
    · obtain ⟨L₁, h₁⟩ := hinv.postReleaseBuf hp hroom
      exact hstep ▸ resides_some h₁
    · obtain ⟨items₁, L₁, h₁⟩ := hinv.postReleaseBuf_lost hp hroom
      exact hstep ▸ resides_some h₁
  | pollAndFill =>
    obtain ⟨s₁, L₁, hpoll, h₁, -⟩ := hinv.pollAndFill (.inl (Classical.em _))
    exact Option.some_inj.mp hstep ▸ hpoll ▸ resides_some h₁

end ShmPool

open ShmPool

/-- A pool in the `combine` mode; the pools of the process may grow. -/
def combinePool : ShmPool := { samplePool false with disableScaleCap := false }

/-- The peer frees two chains. The ring has room for one, which comes back among
the headers; the other is lost. An allocation asks the pools of the process in
vain; the last one takes what the thread has. -/
def lostActions : List ShmAction :=
  [.alloc 0 1 1 none [], .alloc 0 1 1 none [], .enqueue 28672 true true, .enqueue 36864 true true,
    .dequeue, .dequeue, .peerFree 90112, .peerFree 98304, .pollAndFill, .alloc 0 1 3 none [[]],
    .alloc 0 1 2 none []]

theorem exists_run_lost : ∃ st ∈ run (shmStep combinePool) (some (combinePool.init id)) lostActions,
    ∃ s ∈ st, s.owner = [20480] := by
  decide +kernel

/-- **Every chain that the owner holds is in the memory of the pool**, after
every run in which what the allocations fetch is of the pool: its headers, and
the data that an allocation puts in it. -/
theorem inside_of_shmRun (pool : ShmPool) (next : ℕ → ℕ) (actions : List ShmAction)
    (st : Option ShmState) (hown : ∀ a ∈ actions, pool.FetchesOwn a)
    (hrun : run (shmStep pool) (some (pool.init next)) actions = some st) :
    ∀ s ∈ st, ∀ p ∈ s.owner, ∃ l, Seg s.next p l 0 ∧ l ≠ [] ∧ ∀ b ∈ l, pool.AllInside l b := by
  have hinit : pool.Resides (some (pool.init next)) :=
    resides_some (inv_init pool next (Bool.eq_false_or_eq_true _))
  have halong : Along (shmStep pool) (fun _ => pool.FetchesOwn) (some (pool.init next)) actions :=
    along_of_forall_mem hown
  have hresides := run_invariant_along (fun _ _ _ h hG hstep => resides_step h hG hstep) hinit
    halong hrun
  intro s hs p hp
  obtain ⟨items, L, h⟩ := hresides s hs
  exact h.inside hp

theorem inside_of_shmRun_lost :
    ∃ s, run (shmStep combinePool) (some (combinePool.init id)) lostActions = some (some s) ∧
      s.owner = [20480] ∧
      ∀ p ∈ s.owner, ∃ l, Seg s.next p l 0 ∧ l ≠ [] ∧ ∀ b ∈ l, combinePool.AllInside l b := by
  obtain ⟨st, hrun, s, hs, howner⟩ := exists_run_lost
  obtain rfl : st = some s := hs
  have hown : ∀ a ∈ lostActions, combinePool.FetchesOwn a := by decide
  exact ⟨s, hrun, howner, inside_of_shmRun combinePool id lostActions _ hown hrun s rfl⟩

/-- Five buffers of a pool of four, while the pools of the process may grow: the
chain starts with a buffer of theirs. -/
theorem exists_shmRun_outside :
    ∃ st ∈ run (shmStep { samplePool true with disableScaleCap := false })
        (some ((samplePool true).init id))
        [.alloc 0 1 5 none [[], [1048576, 1048704, 1048832, 1048960]]],
      ∃ s ∈ st, ∃ p ∈ s.owner, ¬ (samplePool true).Inside p sizeofUmqBuf := by
  decide +kernel

end Umq
