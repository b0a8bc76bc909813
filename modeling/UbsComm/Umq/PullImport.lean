import UbsComm.Lib.Execution
import UbsComm.Umq.BigSend

/-!
# Importing the memory that is pulled

Before a fragment can be read, the peer has to have imported the memory pool
it is in. Both sides import the default pool when they bind. For another pool
the sender attaches the data that the import needs to a description, or sends
it on request (`umq_ub_mempool_state_refresh_impl`); the peer imports the pool
and acknowledges, and the sender sets the bit of the pool in `tseg_imported`.

**The test of the bitmap is the wrong way round.** `fill_big_data_ref_sge`
attaches the data of the pools that have been acknowledged, and not of those
that have not. A message is described as it should be exactly if the peer has
imported the pools of all its fragments and the sender has not heard of it
(`along_sendsRightly_iff`); the first message from a pool other than the
default one is never (`not_sendsRightly_otherPool`).
-/

namespace Umq

open Machine Function List

/-- `UMQ_QBUF_DEFAULT_MEMPOOL_ID`. -/
def umqQbufDefaultMempoolId : ℕ := 0

/-- The bitmap of the sender, the pools in the table of the peer, and what is
on the way to it. -/
structure Imports where
  tsegImported : ℕ → Bool := (· = umqQbufDefaultMempoolId)
  tsegTable : List ℕ := [umqQbufDefaultMempoolId]
  sent : List Descriptor := []

/-- The loop of `umq_ub_data_plan_import_mem` over the pools recorded: whether
it succeeds, and the table it leaves. `importMem` has the pools that can be
imported now. -/
def dataPlanImportMem (importMem : ℕ → Bool) : List ℕ → List ℕ → Bool × List ℕ
  | [], table => (true, table)
  | p :: pools, table =>
    if umqMaxTsegNum ≤ p then (false, table)
    else if p ∈ table then dataPlanImportMem importMem pools table
    else if importMem p = true then dataPlanImportMem importMem pools (p :: table)
    else (false, table)

/-- The number of fragments that arrives with a description: it has five
bits. -/
def Descriptor.msgNum (d : Descriptor) : ℕ := d.refSges.length % 2 ^ 5

/-- The pools whose records the peer finds behind the fragments: those
recorded, unless the number of fragments has not arrived. What it finds then
is `misread`. -/
def Descriptor.records (d : Descriptor) (misread : List ℕ) : List ℕ :=
  if d.msgNum = d.refSges.length then d.imports else misread

/-- What the two sides do. -/
inductive ImportAct where
  /-- A message is described and sent. -/
  | message (b : QBuf) (chain : List QBuf)
  /-- `umq_ub_mempool_state_refresh_impl` sends the record of a pool alone. -/
  | refresh (pool : ℕ)
  /-- The peer comes to what was sent first. -/
  | receive (importMem : ℕ → Bool) (misread : List ℕ)
  /-- The acknowledgement of a pool arrives. -/
  | importDone (pool : ℕ)

namespace Imports

variable (blk : BlockSize) (s : Imports)

/-- One step of either side. -/
def step : ImportAct → Option Imports
  | .message b chain =>
    match buildDescriptor blk s.tsegImported b chain with
    | none => some s
    | some (d, _) => some { s with sent := s.sent ++ [d] }
  | .refresh pool =>
    if umqMaxTsegNum ≤ pool ∨ s.tsegImported pool = true then some s
    else some { s with sent := s.sent ++ [⟨0, [], [pool]⟩] }
  | .receive importMem misread =>
    match s.sent with
    | [] => none
    | d :: sent => some { s with
        tsegTable := (dataPlanImportMem importMem (d.records misread) s.tsegTable).2, sent }
  | .importDone pool =>
    if pool ∈ s.tsegTable then some { s with tsegImported := update s.tsegImported pool true }
    else none

/-- **A description as it should be**: the pool of every fragment is imported
or recorded, none is recorded that is known to be imported, and so the peer,
whatever it has imported in between, finds the pool of every fragment it reads. -/
structure DescribedRightly (d : Descriptor) : Prop where
  known : ∀ sge ∈ d.refSges, sge.mempoolId ∈ s.tsegTable ∨ sge.mempoolId ∈ d.imports
  once : ∀ p ∈ d.imports, s.tsegImported p = false
  found : ∀ importMem misread table table', s.tsegTable ⊆ table →
    dataPlanImportMem importMem (d.records misread) table = (true, table') →
      ∀ sge ∈ d.refSges.take d.msgNum, sge.mempoolId ∈ table'

/-- The pools of the fragments are imported, and the sender does not know. -/
def AwaitsAck (frags : List QBuf) : Prop :=
  ∀ f ∈ frags, f.mempoolId ∈ s.tsegTable ∧ s.tsegImported f.mempoolId = false

/-- The message of an action, unless it is refused, is described as it should
be, … -/
def SendsRightly : ImportAct → Prop
  | .message b chain =>
    ∀ d rest, buildDescriptor blk s.tsegImported b chain = some (d, rest) → s.DescribedRightly d
  | _ => True

/-- … or its fragments are in pools of that kind. -/
def SendsUnacked : ImportAct → Prop
  | .message b chain =>
    ∀ d rest, buildDescriptor blk s.tsegImported b chain = some (d, rest) →
      s.AwaitsAck (fragments b chain)
  | _ => True

variable {blk s}

theorem subset_dataPlanImportMem (importMem : ℕ → Bool) (pools table : List ℕ) :
    table ⊆ (dataPlanImportMem importMem pools table).2 := by
  induction pools generalizing table with
  | nil => exact Subset.refl _
  | cons p pools ih =>
    rw [dataPlanImportMem]
    split
    · exact Subset.refl _
    · split
      · exact ih table
      · split
        · exact fun q hq => ih (p :: table) (mem_cons_of_mem p hq)
        · exact Subset.refl _

/-- **One message.** -/
theorem describedRightly_iff {b : QBuf} {chain rest : List QBuf} {d : Descriptor}
    (h : buildDescriptor blk s.tsegImported b chain = some (d, rest)) :
    s.DescribedRightly d ↔ s.AwaitsAck (fragments b chain) := by
  obtain ⟨hrefs, -, -, -, -, himps⟩ := buildDescriptor_spec h
  constructor
  · intro hd f hf
    have hnone : ∀ p, p ∉ d.imports := by
      intro p hp
      obtain ⟨-, -, -, htrue⟩ := (himps p).mp hp
      exact Bool.false_ne_true ((hd.once p hp).symm.trans htrue)
    refine ⟨(hd.known f.refSge (hrefs ▸ mem_map_of_mem hf)).resolve_right (hnone _), ?_⟩
    exact Bool.eq_false_iff.mpr fun htrue => hnone _ ((himps _).mpr ⟨f, hf, rfl, htrue⟩)
  · intro hall
    have hrefs' : ∀ sge ∈ d.refSges, sge.mempoolId ∈ s.tsegTable := by
      rw [hrefs]
      exact forall_mem_map.mpr fun f hf => (hall f hf).1
    refine ⟨fun sge hsge => .inl (hrefs' sge hsge), fun p hp => ?_, ?_⟩
    · obtain ⟨f, hf, rfl, -⟩ := (himps p).mp hp
      exact (hall f hf).2
    · intro importMem misread table table' hle htable sge hsge
      have hsub := subset_dataPlanImportMem importMem (d.records misread) table
      rw [htable] at hsub
      exact hsub (hle (hrefs' sge (mem_of_mem_take hsge)))

/-- **All messages of a run from the bind on** are described as they should be
exactly if each of them finds the pools of its fragments imported and not
acknowledged. -/
theorem along_sendsRightly_iff {as : List ImportAct} :
    Along (step blk) (SendsRightly blk) {} as ↔ Along (step blk) (SendsUnacked blk) {} as := by
  have key (s : Imports) (a : ImportAct) : s.SendsRightly blk a ↔ s.SendsUnacked blk a := by
    cases a with
    | message => exact forall₃_congr fun _ _ => describedRightly_iff
    | refresh | receive | importDone => exact Iff.rfl
  exact ⟨fun h => h.imp fun s a => (key s a).mp, fun h => h.imp fun s a => (key s a).mpr⟩

/-- A first message, of ten bytes in the pool 1: its pool is neither imported
nor recorded. -/
theorem not_sendsRightly_otherPool :
    ¬ Along (step .k8) (SendsRightly .k8) {}
        [.message ⟨0, 0, 10, 10, 1⟩ []] := by
  intro h
  have hd := h.1 _ _ rfl
  exact absurd (hd.known _ (mem_singleton_self _)) (by decide)

end Imports

end Umq
