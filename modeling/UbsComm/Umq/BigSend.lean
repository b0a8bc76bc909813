import Mathlib.Algebra.BigOperators.Fin

/-!
# Announcing a message that the peer pulls

A message longer than the peer's receive buffers is not sent. The sender
describes where its fragments are – one `ub_ref_sge_t` for each, behind a
header that gives the size class of the longest one – and sends the
description with an immediate value of 16 bits, five of them for the number of
the message and five for the number of its fragments. The peer reads the
fragments itself and then gives the number back.

This module has what the sender makes of a chain of buffers: how many
fragments the message has (`umqUbRefSgeCnt`), the description
(`buildDescriptor`), and how the chain is freed once the peer is done
(`umqBufBreakAndFree`). The fragments described, counted and freed are the
same (`buildDescriptor_spec`, `umqBufBreakAndFree_eq`): those up to the total
that the first buffer states.
-/

namespace Umq

open Option List

/-! ## Size classes -/

/-- `umq_buf_block_size_t`. -/
inductive BlockSize where
  | k8
  | k16
  | k32
  | k64
deriving DecidableEq

/-- `umq_buf_size_pow_small`, as `umq_buf_size_pow_small_set` has left it. -/
def BlockSize.pow : BlockSize → ℕ
  | .k8 => 13
  | .k16 => 14
  | .k32 => 15
  | .k64 => 16

section

variable (blk : BlockSize)

/-- `umq_buf_size_small` -/
def umqBufSizeSmall : ℕ := 2 ^ blk.pow

/-- `huge_qbuf_pool_size_type_t`. -/
inductive HugeType where
  | mid
  | big
  | huge
  | gigantic
deriving DecidableEq

/-- `g_buf_size_multiplier_array`. -/
def HugeType.multiplier : HugeType → ℕ
  | .mid => 4
  | .big => 16
  | .huge => 64
  | .gigantic => 256

/-- `umq_huge_qbuf_get_size_by_type` -/
def umqHugeQbufGetSizeByType (type : HugeType) : ℕ := type.multiplier * umqBufSizeSmall blk

/-- The types in the order of the enumeration. -/
def hugeTypes : List HugeType := [.mid, .big, .huge, .gigantic]

/-- `get_mem_interval`: the class of a size. A size above the largest class
is given that one. -/
def getMemInterval (usedMemSize : ℕ) : ℕ :=
  if usedMemSize ≤ umqBufSizeSmall blk then 0
  else
    match hugeTypes.findIdx? (fun t => usedMemSize ≤ umqHugeQbufGetSizeByType blk t) with
    | some i => i + 1
    | none => 4

/-! ## The description of a message -/

/-- What the sending of a message reads of an `umq_buf_t`: where it is, where
its data is, and its sizes. -/
structure QBuf where
  ptr : ℕ
  bufData : ℕ
  dataSize : ℕ
  totalDataSize : ℕ
  mempoolId : ℕ
deriving DecidableEq

/-- `ub_ref_sge_t`, without the tokens. -/
structure RefSge where
  addr : ℕ
  length : ℕ
  mempoolId : ℕ
deriving DecidableEq

/-- The message as described: the size class of `umq_imm_head_t`, the
fragments, and the memory pools whose import data is attached. -/
structure Descriptor where
  memInterval : ℕ
  refSges : List RefSge
  imports : List ℕ
deriving DecidableEq

/-- `sizeof(ub_ref_sge_t)`. -/
def sizeofRefSge : ℕ := 24

/-- `sizeof(umq_imm_head_t)`. -/
def sizeofImmHead : ℕ := 4

/-- `sizeof(ub_import_mempool_info_t)`. -/
def sizeofImportInfo : ℕ := 44

/-- `UMQ_MAX_TSEG_NUM`. -/
def umqMaxTsegNum : ℕ := 1024

/-- The loop of `umq_ub_ref_sge_cnt`. The counter has 32 bits. -/
def refSgeCntLoop : List QBuf → ℕ → ℕ → ℕ
  | [], _, cnt => cnt
  | b :: chain, rest, cnt =>
    if rest = 0 then cnt
    else if rest < b.dataSize then 0
    else refSgeCntLoop chain (rest - b.dataSize) ((cnt + 1) % 2 ^ 32)

/-- `umq_ub_ref_sge_cnt` -/
def umqUbRefSgeCnt : List QBuf → ℕ
  | [] => 0
  | b :: chain => refSgeCntLoop (b :: chain) b.totalDataSize 0

/-- `fill_big_data_ref_sge`: the entry for a fragment, and the pools recorded
afterwards. `imported` is the bitmap `tseg_imported`. -/
def fillBigDataRefSge (imported : ℕ → Bool) (imports : List ℕ) (b : QBuf) :
    Option (RefSge × List ℕ) :=
  if umqMaxTsegNum ≤ b.mempoolId then none
  else
    let sge : RefSge := ⟨b.bufData, b.dataSize, b.mempoolId⟩
    if imported b.mempoolId = true ∧ b.mempoolId ∉ imports then some (sge, imports ++ [b.mempoolId])
    else some (sge, imports)

/-- What the loop of `umq_ub_send_big_data` has put together. -/
structure Fill where
  refSges : List RefSge := []
  imports : List ℕ := []
  maxDataSize : ℕ := 0

/-- The loop of `umq_ub_send_big_data`; with the rest of the chain that
`*buffer` is left at. -/
def fillLoop (imported : ℕ → Bool) (mempoolInfoSize : ℕ) :
    List QBuf → ℕ → Fill → Option (Fill × List QBuf)
  | [], _, f => some (f, [])
  | b :: chain, rest, f =>
    if rest = 0 then some (f, b :: chain)
    else if mempoolInfoSize < f.imports.length * sizeofImportInfo then none
    else
      match fillBigDataRefSge imported f.imports b with
      | none => none
      | some (sge, imports) =>
        fillLoop imported mempoolInfoSize chain (rest - b.dataSize)
          { refSges := f.refSges ++ [sge]
            imports := imports
            maxDataSize := if f.maxDataSize < b.dataSize then b.dataSize else f.maxDataSize }

/-- The description that `umq_ub_send_big_data` writes, and the rest of the
chain; or `none`, at its `goto FREE_BUF`. More fragments than the immediate
value can count are logged and not refused. -/
def buildDescriptor (imported : ℕ → Bool) (b : QBuf) (chain : List QBuf) :
    Option (Descriptor × List QBuf) :=
  let refSgeCnt := umqUbRefSgeCnt (b :: chain)
  let refSgeSize := refSgeCnt * sizeofRefSge % 2 ^ 32
  if refSgeCnt = 0 then none
  else if umqBufSizeSmall blk < refSgeSize + sizeofImmHead then none
  else
    (fillLoop imported (umqBufSizeSmall blk - refSgeSize - sizeofImmHead) (b :: chain)
      b.totalDataSize {}).map
      (fun r => (⟨getMemInterval blk r.1.maxDataSize, r.1.refSges, r.1.imports⟩, r.2))

end

/-- The `ub_plus` view of `umq_ub_imm_t`, of a message to be pulled. -/
structure PullImm where
  msgId : BitVec 5
  msgNum : BitVec 5
deriving DecidableEq

/-! ## Freeing the chain -/

/-- The loop of `umq_buf_break_and_free`: the buffers up to the one where the
chain is broken. -/
def breakLoop : List QBuf → ℕ → List QBuf
  | [], _ => []
  | b :: chain, rest => if rest ≤ b.dataSize then [b] else b :: breakLoop chain (rest - b.dataSize)

/-- `umq_buf_break_and_free`: the buffers it frees. -/
def umqBufBreakAndFree : List QBuf → List QBuf
  | [] => []
  | b :: chain => if b.totalDataSize = 0 then [b] else breakLoop (b :: chain) b.totalDataSize

/-! ## The fragments of a message -/

/-- The buffers of a chain up to a given total. -/
def batch : List QBuf → ℕ → List QBuf
  | [], _ => []
  | b :: chain, rest => if rest = 0 then [] else b :: batch chain (rest - b.dataSize)

/-- The fragments of the message that starts with `b`. -/
def fragments (b : QBuf) (chain : List QBuf) : List QBuf := batch (b :: chain) b.totalDataSize

/-- The description of a fragment. -/
def QBuf.refSge (b : QBuf) : RefSge := ⟨b.bufData, b.dataSize, b.mempoolId⟩

/-- The fragments do not overshoot the total. -/
def WithinTotal : List QBuf → ℕ → Prop
  | [], _ => True
  | b :: chain, rest => rest = 0 ∨ b.dataSize ≤ rest ∧ WithinTotal chain (rest - b.dataSize)

variable {chain : List QBuf}

theorem withinTotal_of_refSgeCntLoop {rest cnt : ℕ} (h : refSgeCntLoop chain rest cnt ≠ 0) :
    WithinTotal chain rest := by
  induction chain generalizing rest cnt with
  | nil => trivial
  | cons b chain ih =>
    rw [refSgeCntLoop] at h
    by_cases hz : rest = 0
    · exact .inl hz
    · rw [if_neg hz] at h
      by_cases hlt : rest < b.dataSize
      · rw [if_pos hlt] at h
        exact absurd rfl h
      · rw [if_neg hlt] at h
        exact Or.inr ⟨Nat.le_of_not_lt hlt, ih h⟩

variable {imported : ℕ → Bool} {rest : List QBuf} {blk : BlockSize} {d : Descriptor} {b : QBuf}

theorem fillBigDataRefSge_eq_some {imports imports' : List ℕ} {sge : RefSge}
    (h : fillBigDataRefSge imported imports b = some (sge, imports')) :
    sge = b.refSge ∧ b.mempoolId < umqMaxTsegNum
      ∧ ∀ p, p ∈ imports' ↔ p ∈ imports ∨ b.mempoolId = p ∧ imported p = true := by
  rw [fillBigDataRefSge] at h
  split at h
  · exact nomatch h
  · rename_i hid
    split at h <;> cases h <;> refine ⟨rfl, Nat.lt_of_not_le hid, fun p => ?_⟩
    · grind
    · grind

/-- **The loop lists the fragments.** -/
theorem fillLoop_spec {infoSize : ℕ} {rest' : List QBuf} {rest : ℕ} {f g : Fill}
    (h : fillLoop imported infoSize chain rest f = some (g, rest')) :
    g.refSges = f.refSges ++ (batch chain rest).map QBuf.refSge ∧ chain = batch chain rest ++ rest'
      ∧ g.maxDataSize = ((batch chain rest).map QBuf.dataSize).foldl max f.maxDataSize
      ∧ (∀ b ∈ batch chain rest, b.mempoolId < umqMaxTsegNum)
      ∧ ∀ p, p ∈ g.imports
        ↔ p ∈ f.imports ∨ ∃ b ∈ batch chain rest, b.mempoolId = p ∧ imported p = true := by
  induction chain generalizing rest f with
  | nil =>
    obtain ⟨rfl, rfl⟩ := h
    exact ⟨(append_nil _).symm, rfl, rfl, nofun, by simp [batch]⟩
  | cons b chain ih =>
    rw [fillLoop] at h
    by_cases hz : rest = 0
    · rw [if_pos hz, some.injEq] at h
      obtain ⟨rfl, rfl⟩ := h
      rw [batch, if_pos hz]
      exact ⟨(append_nil _).symm, rfl, rfl, nofun, by simp⟩
    · rw [if_neg hz] at h
      by_cases hinfo : infoSize < f.imports.length * sizeofImportInfo
      · rw [if_pos hinfo] at h
        exact nomatch h
      · rw [if_neg hinfo] at h
        cases hfill : fillBigDataRefSge imported f.imports b with
        | none =>
          rw [hfill] at h
          exact nomatch h
        | some r =>
          rw [hfill] at h
          obtain ⟨hsge, hid, himp⟩ := fillBigDataRefSge_eq_some hfill
          obtain ⟨hrefs, hchain, hmax, hids, himps⟩ := ih h
          rw [batch, if_neg hz]
          refine ⟨?_, congrArg (b :: ·) hchain, ?_, forall_mem_cons.mpr ⟨hid, hids⟩, fun p => ?_⟩
          · rw [hrefs, hsge, append_assoc]
            rfl
          · rw [hmax, map_cons, foldl_cons]
            congr 1
            dsimp only
            split <;> omega
          · rw [himps, himp, exists_mem_cons_iff]
            exact or_assoc

section

variable (h : buildDescriptor blk imported b chain = some (d, rest))
include h

/-- **The description of a message** lists its fragments, with the class of
the longest one, and those of their pools that the bitmap has. -/
theorem buildDescriptor_spec : d.refSges = (fragments b chain).map QBuf.refSge
      ∧ d.memInterval = getMemInterval blk (((fragments b chain).map QBuf.dataSize).foldl max 0)
      ∧ WithinTotal (b :: chain) b.totalDataSize
      ∧ b :: chain = fragments b chain ++ rest
      ∧ (∀ f ∈ fragments b chain, f.mempoolId < umqMaxTsegNum)
      ∧ ∀ p, p ∈ d.imports ↔ ∃ f ∈ fragments b chain, f.mempoolId = p ∧ imported p = true := by
  rw [buildDescriptor] at h
  split at h
  · exact nomatch h
  · rename_i hcnt
    split at h
    · exact nomatch h
    · rw [map_eq_some_iff] at h
      obtain ⟨⟨f, rest'⟩, hloop, heq⟩ := h
      obtain ⟨rfl, rfl⟩ := heq
      obtain ⟨hrefs, hchain, hmax, hids, himps⟩ := fillLoop_spec hloop
      exact ⟨hrefs, congrArg (getMemInterval blk) hmax, withinTotal_of_refSgeCntLoop hcnt, hchain,
        hids, fun p => (himps p).trans (or_iff_right not_mem_nil)⟩

omit h in
theorem breakLoop_eq_batch {rest : ℕ} (hw : WithinTotal chain rest) (hpos : 0 < rest) :
    breakLoop chain rest = batch chain rest := by
  induction chain generalizing rest with
  | nil => rfl
  | cons b chain ih =>
    rw [breakLoop, batch, if_neg (Nat.ne_of_gt hpos)]
    obtain hz | ⟨hle, hw⟩ := hw
    · exact absurd hz (Nat.ne_of_gt hpos)
    · by_cases hlast : rest ≤ b.dataSize
      · rw [if_pos hlast, Nat.sub_eq_zero_of_le hlast]
        cases chain with
        | nil => rfl
        | cons c chain => rw [batch, if_pos rfl]
      · rw [if_neg hlast, ih hw (by omega)]

theorem totalDataSize_ne_zero : b.totalDataSize ≠ 0 := by
  intro hz
  rw [buildDescriptor, umqUbRefSgeCnt, refSgeCntLoop, if_pos hz] at h
  exact nomatch h

/-- **What is freed is what was described**: the fragments of the message. -/
theorem umqBufBreakAndFree_eq : umqBufBreakAndFree (b :: chain) = fragments b chain := by
  have hw := (buildDescriptor_spec h).2.2.1
  have hne := totalDataSize_ne_zero h
  rw [umqBufBreakAndFree, if_neg hne]
  exact breakLoop_eq_batch hw (Nat.pos_of_ne_zero hne)

end

end Umq
