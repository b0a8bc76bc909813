import UbsComm.Lib.Counter
import UbsComm.Lib.Tagged

/-!
# The store of request contexts

`HcomServiceCtxStore` keeps the context of every request that waits for its
answer, under a sequence number that goes out with the request and comes
back with the answer. A counter is advanced for every number; its low bits
name a *slot* of a flat array and the six bits above them are the
*version*. The context's address is stored in the slot with the version in
the high bits of the word, and the version is part of the number, so that
an answer to a request that is gone does not find the one that now uses the
slot. A slot that is taken is passed over, up to three times; then the
context goes into a hash table.

The word is not made afresh for each of the three slots: the version of the
next one is or-ed into the word made for the one before.

The operations are modelled here as functions, run one at a time; the steps
of concurrent threads are made of the same parts. An address leaves the high
bits of its word free for the version (`CtxPtr`).
-/

namespace Service

open Function Nat UInt64

/-! ## Sequence numbers -/

/-- `HcomSeqNo`, the fields of the union. -/
structure HcomSeqNo where
  realSeq : Fin (2 ^ 24)
  version : Fin (2 ^ 6)
  fromFlat : Bool
  isResp : Bool := false
deriving DecidableEq

/-- The other reading of the union: `wholeSeq`. -/
def HcomSeqNo.wholeSeq (no : HcomSeqNo) : UInt32 :=
  UInt32.ofNat (no.realSeq + 2 ^ 24 * (no.version
    + 2 ^ 6 * (no.fromFlat.toNat + 2 * no.isResp.toNat)))

/-- A number from its word. -/
def HcomSeqNo.ofWholeSeq (w : UInt32) : HcomSeqNo where
  realSeq := Fin.ofNat _ w.toNat
  version := Fin.ofNat _ (w.toNat / 2 ^ 24)
  fromFlat := decide (w.toNat / 2 ^ 30 % 2 = 1)
  isResp := decide (w.toNat / 2 ^ 31 = 1)

/-- **A number is read as it was set.** -/
@[simp] theorem HcomSeqNo.ofWholeSeq_wholeSeq (no : HcomSeqNo) : ofWholeSeq no.wholeSeq = no := by
  obtain ⟨⟨seq, hseq⟩, ⟨ver, hver⟩, flat, resp⟩ := no
  have hflat := flat.toNat_lt
  have hresp := resp.toNat_lt
  have hword : (wholeSeq ⟨⟨seq, hseq⟩, ⟨ver, hver⟩, flat, resp⟩).toNat
      = seq + 2 ^ 24 * (ver + 2 ^ 6 * (flat.toNat + 2 * resp.toNat)) := by
    refine UInt32.toNat_ofNat_of_lt' ?_
    show seq + 2 ^ 24 * (ver + 2 ^ 6 * (flat.toNat + 2 * resp.toNat)) < 2 ^ 32
    omega
  simp only [ofWholeSeq, hword, HcomSeqNo.mk.injEq, Fin.ext_iff, Fin.val_ofNat]
  refine ⟨by omega, by omega, ?_, ?_⟩
  · cases flat <;> simp <;> omega
  · cases resp <;> simp <;> omega

theorem toNat_decide_eq_one {n : ℕ} (h : n < 2) : (decide (n = 1)).toNat = n := by
  match n, h with
  | 0, _ => rfl
  | 1, _ => rfl

@[simp] theorem HcomSeqNo.wholeSeq_ofWholeSeq (w : UInt32) : (ofWholeSeq w).wholeSeq = w := by
  have hlt := w.toNat_lt
  have hflat : (ofWholeSeq w).fromFlat.toNat = w.toNat / 2 ^ 30 % 2 :=
    toNat_decide_eq_one (mod_lt _ Nat.two_pos)
  have hresp : (ofWholeSeq w).isResp.toNat = w.toNat / 2 ^ 31 := toNat_decide_eq_one (by omega)
  refine UInt32.toNat_inj.mp (Eq.trans (UInt32.toNat_ofNat_of_lt' ?_) ?_) <;>
    rw [hresp]
  · show w.toNat % 2 ^ 24 + 2 ^ 24 * (w.toNat / 2 ^ 24 % 2 ^ 6 + _) < 2 ^ 32
    omega
  · show w.toNat % 2 ^ 24 + 2 ^ 24 * (w.toNat / 2 ^ 24 % 2 ^ 6 + _) = _
    omega

variable {a b : HcomSeqNo}

theorem HcomSeqNo.wholeSeq_inj : a.wholeSeq = b.wholeSeq ↔ a = b :=
  ⟨fun h => by rw [← ofWholeSeq_wholeSeq a, h, ofWholeSeq_wholeSeq], congrArg wholeSeq⟩

/-- `SetValue`: the fields take the low bits. -/
def HcomSeqNo.setValue (flat : Bool) (ver seq : ℕ) : HcomSeqNo where
  realSeq := Fin.ofNat _ seq
  version := Fin.ofNat _ ver
  fromFlat := flat

/-- A number, with or without the response bit. -/
def HcomSeqNo.withResp (no : HcomSeqNo) (resp : Bool) : HcomSeqNo := { no with isResp := resp }

/-! ## The store -/

/-- The size of the flat array is a power of two between `MIN_FLAT_CAPACITY`
and `MAX_FLAT_CAPACITY`, as `Initialize` makes it
(`exists_shape_of_alignedCapacity`). -/
structure StoreShape where
  versionShift : ℕ
  le_versionShift : 7 ≤ versionShift
  versionShift_le : versionShift ≤ 24

/-- `mFlatCapacity`. -/
def StoreShape.flatCapacity (shape : StoreShape) : ℕ := 2 ^ shape.versionShift

/-- `mSeqNoMask`. -/
def StoreShape.seqNoMask (shape : StoreShape) : UInt32 := UInt32.ofNat (2 ^ shape.versionShift - 1)

/-- The capacity `Initialize` gives the flat array; `BITS_PER_INT` less
`__builtin_clz` and one is the number of the highest bit. -/
def alignedCapacity (flatCapacity : UInt32) : ℕ :=
  2 ^ (if flatCapacity < 128 then 128
    else if flatCapacity > 16 * 1024 * 1024 then 16 * 1024 * 1024
    else flatCapacity.toNat).log2

theorem exists_shape_of_alignedCapacity (c : UInt32) :
    ∃ shape : StoreShape, alignedCapacity c = shape.flatCapacity := by
  unfold alignedCapacity
  split_ifs with hlow hhigh
  · exact ⟨⟨7, by decide, by decide⟩, by decide⟩
  · exact ⟨⟨24, by decide, by decide⟩, by decide⟩
  · rw [UInt32.lt_iff_toNat_lt] at hlow
    have hlow' : 2 ^ 7 ≤ c.toNat := Nat.le_of_not_lt hlow
    have hhigh' : c.toNat ≤ 2 ^ 24 := Nat.le_of_not_lt hhigh
    have hne : c.toNat ≠ 0 := ((Nat.two_pow_pos 7).trans_le hlow').ne'
    refine ⟨⟨_, (le_log2 hne).mpr hlow', ?_⟩, rfl⟩
    exact le_of_lt_succ ((log2_lt hne).mpr (lt_of_le_of_lt hhigh'
      (Nat.pow_lt_pow_right Nat.one_lt_two (lt_succ_self 24))))

/-- The slot of a value of the counter. -/
def StoreShape.seqNo (shape : StoreShape) (idx : UInt32) : ℕ := (idx &&& shape.seqNoMask).toNat

/-- The version of a value of the counter. -/
def StoreShape.version (shape : StoreShape) (idx : UInt32) : UInt64 :=
  ((idx >>> UInt32.ofNat shape.versionShift) &&& 0x3F).toUInt64

/-- The address of a context: the high bits of an address are free. -/
structure CtxPtr where
  addr : UInt64
  addr_lt : addr.toNat < 2 ^ 58
deriving DecidableEq

/-- `mSeqNoAndVersionIndex`, `mFlatCtxBucks` and the four hash tables. -/
structure CtxStore where
  seqNoAndVersionIndex : UInt32 := 1
  flatCtxBucks : ℕ → UInt64 := fun _ => 0
  hashCtxMap : Fin 4 → UInt32 → Option UInt64 := fun _ _ => none

/-- The results of the operations. -/
inductive SerResult where
  | ok
  | invalidParam
  | storeSeqDup
  | storeSeqNoFound
deriving DecidableEq

/-- `VERSION_SHIFT`, and the number of bits of `PTR_MASK`. -/
def ptrBits : ℕ := 58

section Operations

variable (shape : StoreShape) (st : CtxStore)

/-- `__sync_fetch_and_add` on the counter. -/
def CtxStore.fetch : UInt32 × CtxStore :=
  (st.seqNoAndVersionIndex, { st with seqNoAndVersionIndex := st.seqNoAndVersionIndex + 1 })

/-- The next value of the counter, where the slot `0` is passed over
once. -/
def CtxStore.nextIndex : UInt32 × CtxStore :=
  let first := st.fetch
  if shape.seqNo first.1 = 0 then first.2.fetch else first

/-- An attempt to store a word: the index, the word with the version or-ed
in, and whether the slot was free. -/
structure Probe where
  idx : UInt32
  value : UInt64
  stored : Bool
  store : CtxStore

/-- One of the three steps of `PutAndGetSeqNo`. -/
def CtxStore.probe (value : UInt64) : Probe :=
  let next := st.nextIndex shape
  let seqNo := shape.seqNo next.1
  let value := Tagged.tag ptrBits (shape.version next.1) value
  if next.2.flatCtxBucks seqNo = 0 then
    { idx := next.1, value := value, stored := true
      store := { next.2 with
        flatCtxBucks := update next.2.flatCtxBucks seqNo value } }
  else { idx := next.1, value := value, stored := false, store := next.2 }

/-- `n + 1` steps, up to the first that finds a free slot. -/
def CtxStore.probes : ℕ → UInt64 → CtxStore → Probe
  | 0, value, st => st.probe shape value
  | n + 1, value, st =>
    let r := st.probe shape value
    if r.stored then r else probes n r.value r.store

section

variable (no : HcomSeqNo)

/-- The hash table of a number. -/
def HcomSeqNo.mapIndex : Fin 4 := Fin.ofNat _ no.realSeq

/-- The key of a number in the hash tables. -/
def HcomSeqNo.key : UInt32 := (no.withResp false).wholeSeq

/-- The entry of a number in the hash tables. -/
def CtxStore.find : Option UInt64 := st.hashCtxMap no.mapIndex no.key

/-- An entry of a hash table is set or erased. -/
def CtxStore.setHash (v : Option UInt64) : CtxStore := { st with
    hashCtxMap := update st.hashCtxMap no.mapIndex (update (st.hashCtxMap no.mapIndex) no.key v) }

/-- `emplace`. -/
def CtxStore.emplace (value : UInt64) : SerResult × CtxStore :=
  match st.find no with
  | none => (.ok, st.setHash no (some value))
  | some _ => (.storeSeqDup, st)

end

namespace CtxStore

/-- `PutAndGetSeqNo`, with `output`. -/
def putAndGetSeqNo (ctx : CtxPtr) : SerResult × Option UInt32 × CtxStore :=
  if ctx.addr = 0 then (.invalidParam, none, st)
  else
    let r := CtxStore.probes shape 2 ctx.addr st
    let sn := HcomSeqNo.setValue r.stored (shape.version r.idx).toNat (shape.seqNo r.idx)
    if r.stored then (.ok, some sn.wholeSeq, r.store)
    else
      let e := r.store.emplace sn r.value
      (e.1, some sn.wholeSeq, e.2)

/-- `PutBySeqNo`. -/
def putBySeqNo (ctx : CtxPtr) (seqNo : UInt32) : SerResult × CtxStore :=
  if ctx.addr = 0 then (.invalidParam, st)
  else
    let no := HcomSeqNo.ofWholeSeq seqNo
    if no.fromFlat then
      if no.realSeq ≥ shape.flatCapacity then (.invalidParam, st)
      else if st.flatCtxBucks no.realSeq = 0 then
        (.ok, { st with
          flatCtxBucks := update st.flatCtxBucks no.realSeq
            (Tagged.tag ptrBits (UInt64.ofNat no.version) (Tagged.low ptrBits ctx.addr)) })
      else (.storeSeqDup, st)
    else st.emplace no ctx.addr

/-- `GetBySeqNo`, with `out`. -/
def getBySeqNo (seqNo : UInt32) : SerResult × Option UInt64 :=
  let no := HcomSeqNo.ofWholeSeq seqNo
  if no.fromFlat then
    if no.realSeq ≥ shape.flatCapacity then (.storeSeqNoFound, none)
    else
      let value := Tagged.low ptrBits (st.flatCtxBucks no.realSeq)
      if value = 0 then (.storeSeqNoFound, none) else (.ok, some value)
  else
    match st.find no with
    | some v => (.ok, some (Tagged.low ptrBits v))
    | none => (.storeSeqNoFound, none)

/-- The compare-and-swap of `GetSeqNoAndRemove`: the word expected has the
pointer that was read and the version of the number. -/
def takeFlat (no : HcomSeqNo) (value : UInt64) : SerResult × Option UInt64 × CtxStore :=
  if st.flatCtxBucks no.realSeq = Tagged.tag ptrBits (UInt64.ofNat no.version) value then
    let st := { st with
      flatCtxBucks := update st.flatCtxBucks no.realSeq 0 }
    if value = 0 then (.storeSeqNoFound, none, st) else (.ok, some value, st)
  else (.storeSeqNoFound, none, st)

/-- The part of `GetSeqNoAndRemove` under the lock of a hash table. -/
def takeHash (no : HcomSeqNo) : SerResult × Option UInt64 × CtxStore :=
  match st.find no with
  | some v => (.ok, some (Tagged.low ptrBits v), st.setHash no none)
  | none => (.storeSeqNoFound, none, st)

/-- `GetSeqNoAndRemove`, with `out`. -/
def getSeqNoAndRemove (seqNo : UInt32) : SerResult × Option UInt64 × CtxStore :=
  let no := HcomSeqNo.ofWholeSeq seqNo
  if no.fromFlat then
    if no.realSeq ≥ shape.flatCapacity then (.storeSeqNoFound, none, st)
    else st.takeFlat no (Tagged.low ptrBits (st.flatCtxBucks no.realSeq))
  else st.takeHash no

end CtxStore

end Operations

/-! ## Words, slots and numbers -/

section Words

variable (shape : StoreShape)

theorem StoreShape.toNat_seqNo (n : ℕ) : shape.seqNo (UInt32.ofNat n) = n % shape.flatCapacity :=
  UInt32.toNat_ofNat_and_mask (shape.versionShift_le.trans (by decide)) n

theorem StoreShape.seqNo_lt (idx : UInt32) : shape.seqNo idx < shape.flatCapacity := by
  rw [← UInt32.ofNat_toNat (x := idx), shape.toNat_seqNo]
  exact mod_lt _ (Nat.two_pow_pos _)

theorem StoreShape.version_lt (idx : UInt32) : (shape.version idx).toNat < 2 ^ 6 := by
  exact and_lt_two_pow _ (by decide)

/-- The number of a slot has its version. -/
@[simp] theorem HcomSeqNo.realSeq_setValue (flat : Bool) (ver : ℕ) (idx : UInt32) :
    ((setValue flat ver (shape.seqNo idx)).realSeq : ℕ) = shape.seqNo idx :=
  mod_eq_of_lt ((shape.seqNo_lt idx).trans_le
    (Nat.pow_le_pow_right Nat.two_pos shape.versionShift_le))

@[simp] theorem HcomSeqNo.version_setValue (flat : Bool) (idx : UInt32) (seq : ℕ) :
    ofNat (setValue flat (shape.version idx).toNat seq).version = shape.version idx := by
  show ofNat ((shape.version idx).toNat % 2 ^ 6) = _
  rw [mod_eq_of_lt (shape.version_lt idx), UInt64.ofNat_toNat]

end Words

theorem HcomSeqNo.toNat_version_lt (no : HcomSeqNo) : (ofNat no.version).toNat < 2 ^ 6 := by
  have := no.version.isLt
  rw [toNat_ofNat_of_lt' (this.trans (by decide))]
  exact this

/-- A number and its version as a word determine each other. -/
theorem HcomSeqNo.ofNat_version_inj :
    ofNat a.version = ofNat b.version ↔ a.version = b.version := by
  constructor
  · intro h
    have hnat := congrArg toNat h
    rw [toNat_ofNat_of_lt' (a.version.isLt.trans (by decide)),
      toNat_ofNat_of_lt' (b.version.isLt.trans (by decide))] at hnat
    exact Fin.ext hnat
  · exact fun h => by rw [h]

variable {v : UInt64}

theorem CtxPtr.tag_inj {v' : UInt64} (hv : v.toNat < 2 ^ 6) (hv' : v'.toNat < 2 ^ 6)
    (ctx ctx' : CtxPtr) :
    Tagged.tag ptrBits v ctx.addr = Tagged.tag ptrBits v' ctx'.addr
      ↔ v = v' ∧ ctx.addr = ctx'.addr :=
  Tagged.tag_inj (by decide) hv hv' ctx.addr_lt ctx'.addr_lt

theorem CtxPtr.low_tag (ctx : CtxPtr) (hv : v.toNat < 2 ^ 6) :
    Tagged.low ptrBits (Tagged.tag ptrBits v ctx.addr) = ctx.addr :=
  Tagged.low_tag (by decide) hv ctx.addr_lt

theorem CtxPtr.tag_ne_zero {ctx : CtxPtr} (hne : ctx.addr ≠ 0) (hv : v.toNat < 2 ^ 6) :
    Tagged.tag ptrBits v ctx.addr ≠ 0 :=
  Tagged.tag_ne_zero (by decide) hv ctx.addr_lt hne

/-- Equal keys are of one slot, and so of one table. -/
theorem HcomSeqNo.mapIndex_eq_of_key (h : a.key = b.key) : a.mapIndex = b.mapIndex := by
  have hno := congrArg realSeq (wholeSeq_inj.mp h)
  exact congrArg (fun n : Fin (2 ^ 24) => Fin.ofNat 4 (n : ℕ)) hno

theorem CtxStore.find_setHash (st : CtxStore) (no no' : HcomSeqNo) (v : Option UInt64) :
    (st.setHash no v).find no' = if no'.key = no.key then v else st.find no' := by
  unfold find setHash
  split
  case isTrue h => simp [HcomSeqNo.mapIndex_eq_of_key h, h]
  case isFalse h =>
    by_cases hmap : no'.mapIndex = no.mapIndex
    · simp [hmap, h]
    · simp [hmap]

/-! ## The cases of a removal -/

section Removal

variable {shape : StoreShape} {st : CtxStore} {no : HcomSeqNo}

theorem CtxStore.getSeqNoAndRemove_of_lt (hflat : no.fromFlat = true)
    (hlt : no.realSeq < shape.flatCapacity) :
    st.getSeqNoAndRemove shape no.wholeSeq
      = st.takeFlat no (Tagged.low ptrBits (st.flatCtxBucks no.realSeq)) := by
  unfold getSeqNoAndRemove
  rw [HcomSeqNo.ofWholeSeq_wholeSeq]
  rw [if_pos hflat, if_neg (not_le.mpr hlt)]

theorem CtxStore.getSeqNoAndRemove_of_le (hflat : no.fromFlat = true)
    (hle : shape.flatCapacity ≤ no.realSeq) :
    st.getSeqNoAndRemove shape no.wholeSeq = (.storeSeqNoFound, none, st) := by
  unfold getSeqNoAndRemove
  rw [HcomSeqNo.ofWholeSeq_wholeSeq]
  rw [if_pos hflat, if_pos hle]

theorem CtxStore.getSeqNoAndRemove_of_hash (hflat : no.fromFlat = false) :
    st.getSeqNoAndRemove shape no.wholeSeq = st.takeHash no := by
  unfold getSeqNoAndRemove
  rw [HcomSeqNo.ofWholeSeq_wholeSeq]
  rw [if_neg (by rw [hflat]; exact Bool.false_ne_true)]

end Removal

end Service
