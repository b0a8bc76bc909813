import UbsComm.Lib.Links
import UbsComm.Umq.BigSend

/-!
# Returning a chain of buffers

`umq_buf_free` gives the buffers of a chain back to the pools that they are from.
A chain may have buffers of the general pool, the default and the expansion pools
among them, and of the four huge pools; the function goes over it and cuts it into
the runs of one kind, general or huge, each of which is freed by one call. What the
model keeps of a call is the pool and the buffers that the list had then. A null
pointer that is written through ends the model with `none`.

A huge pool puts the list that it is given in front of its own. The general pool
puts it in front of the cache of the thread, and a cache that is over its capacity
gives what is behind its first buffers back to the pools they are from.

**A chain is returned as it should be just when all its buffers are of one pool**
(`routed_umqBufFree_iff`). Where the kind changes, the list to be freed is the old
run, but the pool is chosen by the first buffer of the new one. Moreover the run is
cut behind `last_node`, which is not set for the first buffer of a run: with one
buffer it is null, or the last buffer of the run before. And a run of huge buffers
goes whole to the pool of its first one.
-/

open Links Option

namespace Umq

open Function List

/-! ## Buffers and pools -/

/-- What a call that frees a list is made for. -/
inductive QbufPool where
  | general
  | huge (type : HugeType)
  | transport (umqh : ℕ)
  deriving DecidableEq

/-- `UMQ_QBUF_DEFAULT_MEMPOOL_ID` -/
def defaultMempoolId : ℕ := 0

/-- `HUGE_QBUF_POOL_MEMPOOL_ID_MAX`: up to 64 pools of each of four sizes. -/
def hugeMempoolIdMax : ℕ := 1 + 64 * 4

/-- `is_huge_mempool_pool` -/
def isHugeMempoolPool (mempoolId : ℕ) : Bool :=
  mempoolId > defaultMempoolId && mempoolId < hugeMempoolIdMax

/-- `umq_huge_qbuf_get_type_by_mempool_id`, where all four pools are set up. -/
def umqHugeQbufGetTypeByMempoolId (mempoolId : ℕ) : HugeType :=
  if mempoolId < 1 + 64 then .mid
  else if mempoolId < 1 + 64 * 2 then .big
  else if mempoolId < 1 + 64 * 3 then .huge
  else .gigantic

/-- The pool that a list goes to, by the kind of the call and by its first
buffer. -/
def freedTo (isHuge : Bool) (mempoolId : ℕ) : QbufPool :=
  if isHuge then .huge (umqHugeQbufGetTypeByMempoolId mempoolId) else .general

/-- The pool that a buffer is from. -/
def qbufPoolOf (mempoolId : ℕ) : QbufPool := freedTo (isHugeMempoolPool mempoolId) mempoolId

theorem freedTo_inj {a b : Bool} {id id' : ℕ} (h : freedTo a id = freedTo b id') : a = b := by
  cases a <;> cases b <;> first | rfl | cases h

/-- A list of free buffers: in the cache of the thread and in the default pool,
with data and without, of an expansion pool and of a huge pool. -/
inductive FreeList where
  | cache (withData : Bool)
  | global (withData : Bool)
  | expansion (withData : Bool) (mempoolId : ℕ)
  | huge (type : HugeType)
  deriving DecidableEq

/-- What does not change: the pool of a buffer, the queue if it is bound to one,
and whether it is one without data; of the queues, whether their transport can free
buffers; of the general pool, whether it is in the split mode, the capacity of a
cache, and which expansion pools there are. -/
structure QbufInfo where
  mempoolId : ℕ → ℕ
  umqh : ℕ → ℕ := fun _ => 0
  mempoolWithoutData : ℕ → Bool := fun _ => false
  canFree : ℕ → Bool := fun _ => true
  split : Bool := true
  capacity : Bool → ℕ := fun _ => 2048
  hasSlot : Bool → ℕ → Bool := fun _ _ => true

/-- Whether a buffer is of a huge pool. -/
def QbufInfo.isHuge (info : QbufInfo) (b : ℕ) : Bool := isHugeMempoolPool (info.mempoolId b)

/-- A call that frees a list: the pool, and the buffers of the list. -/
structure FreeCall where
  pool : QbufPool
  bufs : List ℕ
  deriving DecidableEq

/-- The links of the buffers, the first buffers of the free lists, how many a cache
has, and for the record the calls so far. -/
structure FreeState where
  next : ℕ → ℕ
  head : FreeList → ℕ := fun _ => 0
  cached : Bool → ℕ := fun _ => 0
  calls : List FreeCall := []

/-! ## The pools -/

section Pools

variable (info : QbufInfo) (count : ℕ)

/-- A list is put in front of another. -/
def FreeState.pushBatch (s : FreeState) (list : FreeList) (first last : ℕ) : FreeState :=
  { s with next := update s.next last (s.head list), head := update s.head list first }

/-- The body of `return_list_to_pools`: the buffers of one pool, which are lost
where it is an expansion pool that is not there. -/
def FreeState.returnBatch (s : FreeState) (withData : Bool) (batchHead batchTail : ℕ) :
    FreeState :=
  let s := { s with next := update s.next batchTail 0 }
  let mempoolId := info.mempoolId batchTail
  if mempoolId = defaultMempoolId then s.pushBatch (.global withData) batchHead batchTail
  else if info.hasSlot withData mempoolId then
    s.pushBatch (.expansion withData mempoolId) batchHead batchTail
  else s

/-- `return_list_to_pools`, with the buffers from `cur` on. -/
def returnListToPools (withData : Bool) :
    List ℕ → FreeState → (batchHead batchTail : ℕ) → FreeState
  | [], s, batchHead, batchTail => s.returnBatch info withData batchHead batchTail
  | cur :: list, s, batchHead, batchTail =>
    if info.mempoolId batchTail = info.mempoolId cur then
      returnListToPools withData list s batchHead cur
    else returnListToPools withData list (s.returnBatch info withData batchHead batchTail) cur cur

/-- `return_to_global`. `count` is the number of buffers that there are. -/
def returnToGlobal (s : FreeState) (withData : Bool) (threshold : ℕ) : FreeState :=
  let list := walk s.next count (s.head (.cache withData))
  let flushed := { s with
    cached := update s.cached withData (s.cached withData - (list.length - threshold)) }
  if threshold = 0 then
    match list with
    | [] => s
    | head :: list =>
      returnListToPools info withData list
        { flushed with head := update s.head (.cache withData) 0 } head head
  else
    match list.drop (threshold - 1) with
    | switchNode :: head :: list =>
      returnListToPools info withData list
        { flushed with next := update s.next switchNode 0 } head head
    | _ => s

/-- `umq_qbuf_free`, but for the buffers that are not from a pool. The count of the
buffers with data is compared as a number of 32 bits. -/
def umqQbufFree (s : FreeState) (first : ℕ) : FreeState :=
  let bufs := walk s.next count first
  let withData := !(info.split && info.mempoolWithoutData first)
  let cnt := s.cached withData + bufs.length
  let s := { s.pushBatch (.cache withData) first (bufs.getLastD 0) with
    cached := update s.cached withData cnt }
  let cap := info.capacity withData
  if (if withData then cnt % 2 ^ 32 else cnt) > cap then
    returnToGlobal info count s withData (if cap > 64 then cap - 64 else 0)
  else s

/-- `umq_huge_qbuf_free` -/
def umqHugeQbufFree (s : FreeState) (first : ℕ) : FreeState :=
  s.pushBatch (.huge (umqHugeQbufGetTypeByMempoolId (info.mempoolId first))) first
    ((walk s.next count first).getLastD 0)

/-- The call for a list, on the record. -/
def FreeState.free (s : FreeState) (isHuge : Bool) (first : ℕ) : FreeState :=
  let call : FreeCall := ⟨freedTo isHuge (info.mempoolId first), walk s.next count first⟩
  { (if isHuge then umqHugeQbufFree info count s first else umqQbufFree info count s first) with
    calls := s.calls ++ [call] }

end Pools

/-! ## The function -/

section Model

variable (info : QbufInfo) (count : ℕ)

/-- `QBUF_LIST_FOR_EACH_SAFE`, with the variables of the loop; the result is the
first buffer of the run that is left. -/
def freeRuns : ℕ → FreeState → (curNode freeNode lastNode : ℕ) → Bool → Option (FreeState × ℕ)
  | 0, s, _, freeNode, _, _ => some (s, freeNode)
  | turns + 1, s, curNode, freeNode, lastNode, isHuge =>
    if curNode = 0 then some (s, freeNode)
    else
      let nextNode := s.next curNode
      if isHuge && info.isHuge curNode || !isHuge && !info.isHuge curNode then
        freeRuns turns s nextNode freeNode curNode isHuge
      else if lastNode = 0 then none
      else
        let s := { s with next := update s.next lastNode 0 }
        -- the old run, but the pool of the new one
        let s := s.free info count (info.isHuge curNode) freeNode
        freeRuns turns s nextNode curNode lastNode (info.isHuge curNode)

/-- `umq_buf_free`. What the transport of a queue does is not looked into. -/
def umqBufFree (inited : Bool) (s : FreeState) (qbuf : ℕ) : Option FreeState :=
  if !inited || qbuf = 0 then some s
  else if info.umqh qbuf = 0 then
    if s.next qbuf = 0 then some (s.free info count (info.isHuge qbuf) qbuf)
    else do
      let (s, freeNode) ← freeRuns info count count s (s.next qbuf) qbuf 0 (info.isHuge qbuf)
      return s.free info count (info.isHuge freeNode) freeNode
  else if info.canFree (info.umqh qbuf) then
    some { s with
      calls := s.calls ++ [⟨.transport (info.umqh qbuf), walk s.next count qbuf⟩] }
  else some s

end Model

/-! ## What it is for -/

/-- A chain of buffers that are bound to no queue, and the caches of the thread,
which have none of them; nothing is on the record. -/
structure QbufChain (info : QbufInfo) (s : FreeState) (count : ℕ) where
  first : ℕ
  rest : List ℕ
  seg : Seg s.next first (first :: rest) 0
  nodup : (first :: rest).Nodup
  unbound : ∀ b ∈ first :: rest, info.umqh b = 0
  cache : Bool → List ℕ
  cache_seg : ∀ withData, Seg s.next (s.head (.cache withData)) (cache withData) 0
  disjoint : ∀ withData, (first :: rest).Disjoint (cache withData)
  length_le : ∀ withData, (first :: rest).length + (cache withData).length ≤ count
  calls_nil : s.calls = []

/-- **Every buffer of the chain is returned once, to its own pool**, and no link is
touched but those of the chain and of the caches. -/
structure Routed (info : QbufInfo) (s : FreeState) (bufs : List ℕ) (cache : Bool → List ℕ)
    (t : FreeState) : Prop where
  once : (t.calls.flatMap FreeCall.bufs).Perm bufs
  own : ∀ c ∈ t.calls, ∀ b ∈ c.bufs, c.pool = qbufPoolOf (info.mempoolId b)
  others : ∀ x, x ∉ bufs → (∀ withData, x ∉ cache withData) → t.next x = s.next x

section Proofs

variable {info : QbufInfo} {count turns : ℕ} {s : FreeState} {x : ℕ}
  {curNode freeNode lastNode : ℕ} {isHuge withData : Bool} {l l' : List ℕ}

/-! ### The links that a call touches -/

theorem FreeState.returnBatch_next {batchHead batchTail : ℕ} (hx : x ≠ batchTail) :
    (s.returnBatch info withData batchHead batchTail).next x = s.next x := by
  unfold returnBatch pushBatch
  dsimp only
  split_ifs
  · exact (update_of_ne hx ..).trans (update_of_ne hx ..)
  · exact (update_of_ne hx ..).trans (update_of_ne hx ..)
  · exact update_of_ne hx ..

theorem returnListToPools_next {batchHead batchTail : ℕ} (hx : x ∉ batchTail :: l) :
    (returnListToPools info withData l s batchHead batchTail).next x = s.next x := by
  induction l generalizing s batchHead batchTail with
  | nil => exact FreeState.returnBatch_next (mem_singleton.not.mp hx)
  | cons cur l ih =>
    obtain ⟨htail, hrest⟩ := not_or.mp (mem_cons.not.mp hx)
    rw [returnListToPools]
    split_ifs
    · exact ih hrest
    · exact (ih hrest).trans (FreeState.returnBatch_next htail)

/-- A cache that is flushed changes no link but those of its own buffers. -/
theorem returnToGlobal_next {threshold : ℕ}
    (hx : x ∉ walk s.next count (s.head (.cache withData))) :
    (returnToGlobal info count s withData threshold).next x = s.next x := by
  unfold returnToGlobal
  dsimp only
  split_ifs
  · split
    · rfl
    case h_2 heq =>
      rw [heq] at hx
      exact returnListToPools_next hx
  · split
    case h_1 switchNode head list heq =>
      have hdrop : x ∉ switchNode :: head :: list := fun h => hx (mem_of_mem_drop (heq ▸ h))
      obtain ⟨hswitch, hrest⟩ := not_or.mp (mem_cons.not.mp hdrop)
      exact (returnListToPools_next hrest).trans (update_of_ne hswitch ..)
    · rfl

theorem sameKind_iff {a b : Bool} : (a && b || !a && !b) = true ↔ b = a := by
  cases a <;> cases b <;> decide

/-- A call is on the record for good. -/
theorem calls_isPrefix_of_freeRuns {r : FreeState × ℕ}
    (h : freeRuns info count turns s curNode freeNode lastNode isHuge = some r) :
    s.calls <+: r.1.calls := by
  induction turns generalizing s curNode freeNode lastNode isHuge with
  | zero => exact some.inj h ▸ prefix_refl _
  | succ turns ih =>
    rw [freeRuns] at h
    dsimp only at h
    split_ifs at h
    · exact some.inj h ▸ prefix_refl _
    · exact ih h
    · exact (prefix_append _ _).trans (ih h)

/-- The loop goes over a run without doing anything. -/
theorem freeRuns_run {fuel : ℕ} (hfuel : fuel = turns + l.length)
    (hseg : Seg s.next curNode (l ++ l') 0) (hkind : ∀ b ∈ l, info.isHuge b = isHuge) :
    freeRuns info count fuel s curNode freeNode lastNode isHuge
      = freeRuns info count turns s (l'.headD 0) freeNode (l.getLastD lastNode) isHuge := by
  subst hfuel
  induction l generalizing curNode lastNode with
  | nil =>
    have hcur : curNode = l'.headD 0 := by
      cases l' with
      | nil => exact hseg
      | cons x l' => exact hseg.1
    rw [hcur]
    rfl
  | cons x l ih =>
    obtain ⟨rfl, hx, hrest⟩ := hseg
    have hsame := sameKind_iff.mpr (hkind curNode mem_cons_self)
    rw [length_cons, ← Nat.add_assoc, freeRuns, if_neg hx]
    rw [if_pos hsame, ih hrest fun b hb => hkind b (mem_cons_of_mem _ hb), getLastD_cons]

theorem calls_free {first : ℕ} (hseg : Seg s.next first l 0) (hcount : l.length ≤ count) :
    (s.free info count isHuge first).calls
      = s.calls ++ [⟨freedTo isHuge (info.mempoolId first), l⟩] := by
  rw [← walk_of_seg hseg hcount]
  rfl

variable (chain : QbufChain info s count)

theorem QbufChain.length_le_count : (chain.first :: chain.rest).length ≤ count :=
  le_trans (Nat.le_add_right ..) (chain.length_le true)

theorem free_chain_next (hx : x ∉ chain.first :: chain.rest)
    (hcache : ∀ withData, x ∉ chain.cache withData) :
    (s.free info count isHuge chain.first).next x = s.next x := by
  obtain ⟨front, last, hbufs⟩ : ∃ front last, chain.first :: chain.rest = front ++ [last] :=
    (eq_nil_or_concat' _).resolve_left (cons_ne_nil _ _)
  have hwalk : walk s.next count chain.first = front ++ [last] := by
    rw [walk_of_seg chain.seg chain.length_le_count, hbufs]
  have hlast : x ≠ last := fun h => hx (hbufs ▸ h ▸ mem_concat_self)
  cases isHuge with
  | true =>
    show update s.next ((walk s.next count chain.first).getLastD 0) _ x = _
    rw [hwalk, getLastD_concat, update_of_ne hlast]
  | false =>
    show (umqQbufFree info count s chain.first).next x = _
    unfold umqQbufFree
    dsimp only
    rw [hwalk, getLastD_concat]
    generalize (!(info.split && info.mempoolWithoutData chain.first)) = withData
    have hpush : (s.pushBatch (.cache withData) chain.first last).next x = s.next x :=
      update_of_ne hlast ..
    refine iteInduction (motive := fun t : FreeState => t.next x = s.next x)
      (fun _ => (returnToGlobal_next ?_).trans hpush) fun _ => hpush
    -- what is flushed is the chain and the cache behind it
    have hnodup := chain.nodup
    have hseg := chain.seg
    have hdisjoint := chain.disjoint withData
    have hlength := chain.length_le withData
    rw [hbufs] at hnodup hseg hdisjoint hlength hx
    have hall := (hseg.splice (chain.cache_seg withData)
      (fun h => (nodup_append.mp hnodup).2.2 last h last (mem_singleton_self last) rfl) not_mem_nil
      (hdisjoint mem_concat_self)).1
    show x ∉ walk (update s.next last _) count (update s.head _ _ _)
    rw [update_self, walk_of_seg hall (by simp at hlength ⊢; omega), append_cons]
    exact fun h => (mem_append.mp h).elim hx (hcache withData)

/-- A chain of one kind is freed by one call. -/
theorem umqBufFree_of_sameKind (hkind : ∀ b ∈ chain.rest, info.isHuge b = info.isHuge chain.first) :
    umqBufFree info count true s chain.first
      = some (s.free info count (info.isHuge chain.first) chain.first) := by
  have hne : chain.first ≠ 0 := chain.seg.2.1
  have hunbound := chain.unbound chain.first mem_cons_self
  rw [umqBufFree, if_neg (by simp [hne]), if_pos hunbound]
  split_ifs
  · rfl
  · obtain ⟨turns, hturns⟩ := Nat.exists_eq_add_of_le' (Nat.le_of_succ_le chain.length_le_count)
    have hseg : Seg s.next (s.next chain.first) (chain.rest ++ []) 0 := by
      rw [append_nil]
      exact chain.seg.2.2
    have hend : ∀ last, freeRuns info count turns s 0 chain.first last
        (info.isHuge chain.first) = some (s, chain.first) := by
      intro last
      cases turns <;> rfl
    rw [freeRuns_run hturns hseg hkind, headD_nil, hend]
    rfl

/-- Where the kind changes, the run before it goes to the wrong pool, if the null
pointer is not written through at all. -/
theorem umqBufFree_of_change (hrest : chain.rest = l ++ x :: l')
    (hkind : ∀ b ∈ l, info.isHuge b = info.isHuge chain.first)
    (hx : info.isHuge x ≠ info.isHuge chain.first) {r : FreeState}
    (hr : umqBufFree info count true s chain.first = some r) :
    ⟨freedTo (info.isHuge x) (info.mempoolId chain.first), chain.first :: l⟩ ∈ r.calls := by
  have hne : chain.first ≠ 0 := chain.seg.2.1
  have hunbound := chain.unbound chain.first mem_cons_self
  obtain ⟨-, -, hseg⟩ := chain.seg
  rw [hrest] at hseg
  have hnext : s.next chain.first ≠ 0 := by
    intro hzero
    rw [hzero] at hseg
    have hmem := hseg.start_mem (by simp)
    exact hseg.ne_zero hmem rfl
  have hlen := chain.length_le_count
  rw [hrest, length_cons, length_append] at hlen
  obtain ⟨turns, hturns⟩ : ∃ turns, count = turns + 1 + l.length :=
    ⟨count - (1 + l.length), by omega⟩
  rw [umqBufFree, if_neg (by simp [hne]), if_pos hunbound, if_neg hnext,
    freeRuns_run hturns hseg hkind, headD_cons] at hr
  obtain ⟨⟨t, freeNode⟩, ht, hr⟩ := bind_eq_some_iff.mp hr
  cases hr
  have hx0 : x ≠ 0 := hseg.ne_zero (mem_append_right _ mem_cons_self)
  have hdiff : ¬(info.isHuge chain.first && info.isHuge x
      || !info.isHuge chain.first && !info.isHuge x) = true := fun h => hx (sameKind_iff.mp h)
  rw [freeRuns, if_neg hx0] at ht
  dsimp only at ht
  rw [if_neg hdiff] at ht
  split_ifs at ht with hlast
  -- the run has a last buffer that is not the first one, and is cut behind it
  obtain rfl | ⟨l, y, rfl⟩ := eq_nil_or_concat' l
  · exact absurd rfl hlast
  rw [getLastD_concat] at ht
  have hcut : Seg (update s.next y 0) chain.first (chain.first :: l ++ [y]) 0 := by
    have hall := chain.seg
    have hnodup := chain.nodup
    rw [hrest, ← cons_append, ← cons_append, append_assoc] at hall hnodup
    rw [← append_assoc] at hall hnodup
    obtain ⟨q, hq, -⟩ := seg_append.mp hall
    refine hq.update_last (fun hy => ?_) 0
    have := (nodup_append.mp (nodup_append.mp hnodup).1).2.2 y hy y (mem_singleton_self y)
    exact this rfl
  have hpre := calls_isPrefix_of_freeRuns ht
  rw [calls_free hcut (by simp only [length_append, length_cons] at hlen ⊢; omega)] at hpre
  exact mem_append_left _ (hpre.subset mem_concat_self)

end Proofs

/-- **`umq_buf_free` returns the buffers of a chain as it should just when they are
all of one pool.** -/
theorem routed_umqBufFree_iff (info : QbufInfo) (s : FreeState) (count : ℕ)
    (chain : QbufChain info s count) :
    (∃ t, umqBufFree info count true s chain.first = some t ∧
        Routed info s (chain.first :: chain.rest) chain.cache t) ↔
      ∀ b ∈ chain.rest,
        qbufPoolOf (info.mempoolId b) = qbufPoolOf (info.mempoolId chain.first) := by
  have hcall : (s.free info count (info.isHuge chain.first) chain.first).calls = _ :=
    calls_free chain.seg chain.length_le_count
  rw [chain.calls_nil, nil_append] at hcall
  constructor
  · rintro ⟨t, ht, hrouted⟩
    by_cases hkind : ∀ b ∈ chain.rest, info.isHuge b = info.isHuge chain.first
    · -- one call, for the pool of the first buffer
      cases (umqBufFree_of_sameKind chain hkind).symm.trans ht
      intro b hb
      exact (hrouted.own _ (hcall ▸ mem_singleton_self _) b (mem_cons_of_mem _ hb)).symm
    · -- the first buffer of the other kind
      have hfind : (chain.rest.find? fun b => info.isHuge b != info.isHuge chain.first).isSome := by
        rw [find?_isSome]
        push Not at hkind
        obtain ⟨b, hb, hne⟩ := hkind
        exact ⟨b, hb, bne_iff_ne.mpr hne⟩
      obtain ⟨x, hx⟩ := isSome_iff_exists.mp hfind
      obtain ⟨hne, l, l', hrest, hbefore⟩ := find?_eq_some_iff_append.mp hx
      have hbefore : ∀ b ∈ l, info.isHuge b = info.isHuge chain.first := fun b hb => by
        simpa using hbefore b hb
      have hwrong := umqBufFree_of_change chain hrest hbefore (bne_iff_ne.mp hne) ht
      have hown := hrouted.own _ hwrong chain.first mem_cons_self
      exact absurd (freedTo_inj hown) (bne_iff_ne.mp hne)
  · intro hpool
    have hkind : ∀ b ∈ chain.rest, info.isHuge b = info.isHuge chain.first :=
      fun b hb => freedTo_inj (hpool b hb)
    refine ⟨_, umqBufFree_of_sameKind chain hkind, ?_, ?_, fun x => free_chain_next chain⟩
    · rw [hcall, flatMap_singleton]
    · rw [hcall]
      exact forall_mem_singleton.mpr (forall_mem_cons.mpr ⟨rfl, fun b hb => (hpool b hb).symm⟩)

/-- **Two buffers of the general pool and one of a huge pool**: the first two are
returned to a huge pool. With one buffer of the general pool, null is written
through. Two buffers of huge pools of two sizes are returned to the first's. -/
theorem exists_misrouted :
    (∃ s ∈ umqBufFree { mempoolId := fun b => if b = 3 then 1 else 0 } 3
        true { next := fun b => if b = 1 then 2 else if b = 2 then 3 else 0 } 1,
      s.calls = [⟨.huge .mid, [1, 2]⟩, ⟨.huge .mid, [3]⟩]) ∧
    umqBufFree { mempoolId := fun b => if b = 2 then 1 else 0 } 2
      true { next := fun b => if b = 1 then 2 else 0 } 1 = none ∧
    ∃ s ∈ umqBufFree { mempoolId := fun b => if b = 2 then 65 else 1 } 2
        true { next := fun b => if b = 1 then 2 else 0 } 1,
      s.calls = [⟨.huge .mid, [1, 2]⟩] ∧ qbufPoolOf 65 = .huge .big := by
  decide

end Umq
