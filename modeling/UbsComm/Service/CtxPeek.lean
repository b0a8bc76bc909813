import UbsComm.Service.CtxStore

/-!
# Looking a context up without taking it out

`GetBySeqNo` reads the place its number points at and returns what is there.
In the hash tables the number is the key, so what is found was stored under
it. In the flat array the number names a slot and a version, and of the two
`GetBySeqNo` uses the slot: the word it reads carries a version too, which is
masked off and not compared.

So a number whose context is gone finds the context that uses the slot now
(`exists_access_peeks_anothers`), and only that: `peeksOwn_iff` says that a
lookup is right in exactly those states in which the slot is free or was last
filled under the version that is asked for.

The threads of the store work at the same time, and each call changes the
store by one access to a slot or, under its lock, to a table. The accesses
are taken one by one here, in any order; what a thread has drawn from the
counter or read before its access is arbitrary.
-/

namespace Service

open Function CtxStore HcomSeqNo Tagged Option

/-! ## Places -/

/-- A slot of the flat array, or a key of the hash tables. -/
inductive Place where
  | flat (slot : ℕ)
  | hash (key : UInt32)
deriving DecidableEq

/-- Where a number points. -/
def HcomSeqNo.place (no : HcomSeqNo) : Place :=
  if no.fromFlat then .flat no.realSeq else .hash no.key

/-- The word at a place. -/
def CtxStore.wordAt (st : CtxStore) : Place → Option UInt64
  | .flat slot =>
    if st.flatCtxBucks slot = 0 then none else some (st.flatCtxBucks slot)
  | .hash key => st.hashCtxMap (HcomSeqNo.ofWholeSeq key).mapIndex key

section

variable {shape : StoreShape} {st : CtxStore} {no no' : HcomSeqNo} {w : UInt64}

theorem HcomSeqNo.place_flat (h : no.fromFlat = true) :
    no.place = .flat no.realSeq := if_pos h

theorem HcomSeqNo.place_hash (h : no.fromFlat = false) :
    no.place = .hash no.key :=
  if_neg (by rw [h]; exact Bool.false_ne_true)

/-- Two numbers of one place and one version are the same number. -/
theorem HcomSeqNo.withResp_of_place (hplace : no.place = no'.place)
    (hversion : no'.fromFlat = true → no.version = no'.version) :
    no.withResp false = no'.withResp false := by
  cases hf : no.fromFlat <;> cases hf' : no'.fromFlat
  · rw [place_hash hf, place_hash hf'] at hplace
    exact wholeSeq_inj.mp (Place.hash.inj hplace)
  · rw [place_hash hf, place_flat hf'] at hplace
    cases hplace
  · rw [place_flat hf, place_hash hf'] at hplace
    cases hplace
  · rw [place_flat hf, place_flat hf'] at hplace
    rw [withResp, withResp, hversion hf', hf, hf',
      Fin.ext (Place.flat.inj hplace)]

theorem CtxStore.wordAt_flat_eq_some {slot : ℕ} :
    st.wordAt (.flat slot) = some w ↔ st.flatCtxBucks slot = w ∧ w ≠ 0 := by
  unfold wordAt
  rw [Option.ite_none_left_eq_some, Option.some.injEq]
  exact ⟨fun h => ⟨h.2, h.2 ▸ h.1⟩, fun h => ⟨h.1 ▸ h.2, h.1⟩⟩

theorem CtxStore.wordAt_flat_eq_none {slot : ℕ} :
    st.wordAt (.flat slot) = none ↔ st.flatCtxBucks slot = 0 := by
  simp [wordAt]

theorem CtxStore.wordAt_hash (st : CtxStore) (no : HcomSeqNo) :
    st.wordAt (.hash no.key) = st.find no := by
  rw [wordAt, HcomSeqNo.key, HcomSeqNo.ofWholeSeq_wholeSeq]
  rfl

theorem CtxStore.wordAt_update (st : CtxStore) (slot : ℕ) (w : UInt64) :
    { st with flatCtxBucks := update st.flatCtxBucks slot w }.wordAt
      = update st.wordAt (.flat slot) (if w = 0 then none else some w) := by
  funext pl
  cases pl with
  | flat a =>
    by_cases h : a = slot
    · simp [wordAt, h]
    · simp [wordAt, h]
  | hash key => simp [wordAt]

theorem CtxStore.wordAt_setHash (st : CtxStore) (no : HcomSeqNo)
    (v : Option UInt64) :
    (st.setHash no v).wordAt = update st.wordAt (.hash no.key) v := by
  funext pl
  cases pl with
  | flat a =>
    rw [update_of_ne Place.noConfusion]
    rfl
  | hash key =>
    have hmap : (ofWholeSeq no.key).mapIndex = no.mapIndex := by
      rw [HcomSeqNo.key, ofWholeSeq_wholeSeq]
      rfl
    by_cases h : key = no.key
    · simp [wordAt, setHash, h, hmap]
    · by_cases hm : (ofWholeSeq key).mapIndex = no.mapIndex
      · simp [wordAt, setHash, h, hm]
      · simp [wordAt, setHash, h, hm]

end

/-! ## Accesses -/

/-- An access that can change the store. -/
inductive StoreAccess where
  /-- `PutAndGetSeqNo` has drawn `idx` and swaps its word into the slot, or has
  found no free slot and puts it into a table. The `bits` are those of the
  versions it has passed over. -/
  | put (ctx : CtxPtr) (flat : Bool) (idx : UInt32) (bits : Fin (2 ^ 6))
  /-- `PutBySeqNo`. -/
  | putBy (ctx : CtxPtr) (seqNo : UInt32)
  /-- `GetSeqNoAndRemove`, which has `read` a pointer from the slot before. -/
  | remove (seqNo : UInt32) (read : CtxPtr)

/-- The store, and for every place the number and the context of the put that
has stored what is there. -/
structure PeekState where
  store : CtxStore := {}
  holder : Place → Option (HcomSeqNo × CtxPtr) := fun _ => none

/-- The swap of `PutAndGetSeqNo` into a slot. -/
def CtxStore.swapIn (shape : StoreShape) (st : CtxStore) (idx : UInt32)
    (value : UInt64) : SerResult × CtxStore :=
  if st.flatCtxBucks (shape.seqNo idx) = 0 then
    (.ok, { st with
      flatCtxBucks := update st.flatCtxBucks (shape.seqNo idx) value })
  else (.storeSeqDup, st)

namespace PeekState

/-- A put of `ctx` under the number `no`, with what it returns. -/
def keep (s : PeekState) (no : HcomSeqNo) (ctx : CtxPtr)
    (r : SerResult × CtxStore) : PeekState where
  store := r.2
  holder := if r.1 = .ok then update s.holder no.place (some (no, ctx))
    else s.holder

/-- A removal under the number `no`, with what it returns. -/
def takeOut (s : PeekState) (no : HcomSeqNo)
    (r : SerResult × Option UInt64 × CtxStore) : PeekState where
  store := r.2.2
  holder := if r.1 = .ok then update s.holder no.place none else s.holder

/-- An access of one of the threads. -/
def step (shape : StoreShape) (s : PeekState) : StoreAccess → PeekState
  | .put ctx flat idx bits =>
    if ctx.addr = 0 then s
    else
      let no := setValue flat (shape.version idx).toNat (shape.seqNo idx)
      let value := tag ptrBits (shape.version idx)
        (tag ptrBits (UInt64.ofNat bits) ctx.addr)
      s.keep no ctx (if flat then s.store.swapIn shape idx value
        else s.store.emplace no value)
  | .putBy ctx seqNo =>
    s.keep (ofWholeSeq seqNo) ctx (s.store.putBySeqNo shape ctx seqNo)
  | .remove seqNo read =>
    let no := ofWholeSeq seqNo
    if no.fromFlat then
      if no.realSeq ≥ shape.flatCapacity then s
      else s.takeOut no (s.store.takeFlat no read.addr)
    else s.takeOut no (s.store.takeHash no)

/-- What is returned was stored under the number, and has not been taken out
since. -/
def PeeksOwn (shape : StoreShape) (s : PeekState) (seqNo : UInt32) : Prop :=
  ∀ out, s.store.getBySeqNo shape seqNo = (.ok, some out) →
    ∃ no ctx, s.holder (ofWholeSeq seqNo).place = some (no, ctx)
      ∧ no.withResp false = (ofWholeSeq seqNo).withResp false
      ∧ ctx.addr = out

/-- What is in the slot of the number was stored under its version. -/
def SameVersion (s : PeekState) (seqNo : UInt32) : Prop :=
  (ofWholeSeq seqNo).fromFlat = true → ∀ no ctx,
    s.holder (ofWholeSeq seqNo).place = some (no, ctx) →
      no.version = (ofWholeSeq seqNo).version

/-! ## What is at a place -/

/-- The word at a place is that of its holder. -/
def Agrees (shape : StoreShape) (pl : Place) :
    Option (HcomSeqNo × CtxPtr) → Option UInt64 → Prop
  | none, w => w = none
  | some (no, ctx), w => no.place = pl ∧ ctx.addr ≠ 0
    ∧ (no.fromFlat = true → no.realSeq < shape.flatCapacity)
    ∧ ∃ bits : UInt64, bits.toNat < 2 ^ 6 ∧ w = some (tag ptrBits bits ctx.addr)

/-- Every place agrees with its holder. -/
def Inv (shape : StoreShape) (s : PeekState) : Prop :=
  ∀ pl, Agrees shape pl (s.holder pl) (s.store.wordAt pl)

variable {shape : StoreShape} {s : PeekState} {no : HcomSeqNo} {ctx : CtxPtr}
  {st' : CtxStore} {seqNo : UInt32} {bits : UInt64}

/-- A holder and its word are set together. -/
theorem Inv.update (h : s.Inv shape) {pl : Place}
    {e : Option (HcomSeqNo × CtxPtr)} {w : Option UInt64}
    (hagree : Agrees shape pl e w)
    (hword : st'.wordAt = Function.update s.store.wordAt pl w) :
    Inv shape ⟨st', Function.update s.holder pl e⟩ := by
  intro pl'
  show Agrees shape pl' (Function.update s.holder pl e pl') (st'.wordAt pl')
  rw [hword]
  by_cases heq : pl' = pl
  · rw [heq, update_self, update_self]
    exact hagree
  · rw [update_of_ne heq, update_of_ne heq]
    exact h pl'

theorem Inv.keep_flat (h : s.Inv shape) (hflat : no.fromFlat = true) {slot : ℕ}
    (hslot : no.realSeq = slot) (hlt : slot < shape.flatCapacity)
    (hne : ctx.addr ≠ 0) (hbits : bits.toNat < 2 ^ 6) :
    Inv shape ⟨{ s.store with
        flatCtxBucks := Function.update s.store.flatCtxBucks slot
          (tag ptrBits bits ctx.addr) },
      Function.update s.holder no.place (some (no, ctx))⟩ := by
  subst hslot
  refine h.update ⟨rfl, hne, fun _ => hlt, bits, hbits, rfl⟩ ?_
  rw [wordAt_update, if_neg (CtxPtr.tag_ne_zero hne hbits), place_flat hflat]

theorem Inv.keep_emplace (h : s.Inv shape) (hflat : no.fromFlat = false)
    (hne : ctx.addr ≠ 0) (hbits : bits.toNat < 2 ^ 6) :
    (s.keep no ctx (s.store.emplace no (tag ptrBits bits ctx.addr))).Inv
      shape := by
  unfold keep emplace
  cases s.store.find no with
  | some v => exact h
  | none =>
    have hno : no.fromFlat = true → no.realSeq < shape.flatCapacity := by
      rw [hflat]
      nofun
    refine h.update ⟨rfl, hne, hno, bits, hbits, rfl⟩ ?_
    rw [wordAt_setHash, place_hash hflat]

theorem Inv.keep_put (h : s.Inv shape) (flat : Bool) (idx : UInt32)
    (bits : Fin (2 ^ 6)) : (s.step shape (.put ctx flat idx bits)).Inv shape := by
  rw [step]
  by_cases hne : ctx.addr = 0
  · rw [if_pos hne]
    exact h
  have hlt : (UInt64.ofNat bits).toNat < 2 ^ 6 := by
    rw [UInt64.toNat_ofNat_of_lt' (bits.isLt.trans (by decide))]
    exact bits.isLt
  have hbits := toNat_or_lt (shape.version_lt idx) hlt
  rw [if_neg hne]
  dsimp only
  rw [tag_tag]
  cases flat with
  | false =>
    have hhash : (setValue false (shape.version idx).toNat
        (shape.seqNo idx)).fromFlat = false := rfl
    exact h.keep_emplace hhash hne hbits
  | true =>
    rw [if_pos rfl, swapIn]
    split_ifs with hfree
    · exact h.keep_flat rfl (realSeq_setValue ..) (shape.seqNo_lt idx) hne hbits
    · exact h

theorem Inv.keep_putBy (h : s.Inv shape) :
    (s.step shape (.putBy ctx seqNo)).Inv shape := by
  rw [step, putBySeqNo]
  generalize ofWholeSeq seqNo = no
  have hzero : (0 : UInt64).toNat < 2 ^ 6 := by decide
  dsimp only
  split_ifs with hne hflat hcap hfree
  · exact h
  · exact h
  · have hlow := ctx.low_tag hzero
    rw [tag_zero] at hlow
    rw [hlow]
    exact h.keep_flat hflat rfl (not_le.mp hcap) hne no.toNat_version_lt
  · exact h
  · rw [← tag_zero (k := ptrBits) ctx.addr]
    exact h.keep_emplace (Bool.not_eq_true _ ▸ hflat) hne hzero

/-- A slot from which a null pointer is taken is free. -/
theorem Inv.wordAt_of_null (h : s.Inv shape) {ver : UInt64} {slot : ℕ}
    (hver : ver.toNat < 2 ^ 6) {read : CtxPtr} (hzero : read.addr = 0)
    (hcas : s.store.flatCtxBucks slot = tag ptrBits ver read.addr) :
    s.store.wordAt (.flat slot) = none := by
  have hag := h (.flat slot)
  cases hholder : s.holder (.flat slot) with
  | none =>
    rw [hholder] at hag
    exact hag
  | some e =>
    rw [hholder] at hag
    obtain ⟨-, hne, -, bits, hbits, heq⟩ := hag
    have hinj := (wordAt_flat_eq_some.mp heq).1.symm.trans hcas
    rw [CtxPtr.tag_inj hbits hver] at hinj
    exact absurd (hinj.2.trans hzero) hne

/-- The swap of a removal takes the word of a context, or finds nothing. -/
theorem Inv.takeOut_flat (h : s.Inv shape) (hflat : no.fromFlat = true)
    (read : CtxPtr) :
    (s.takeOut no (s.store.takeFlat no read.addr)).Inv shape := by
  rw [takeFlat]
  by_cases hcas : s.store.flatCtxBucks no.realSeq
      = tag ptrBits (UInt64.ofNat no.version) read.addr
  · rw [if_pos hcas]
    by_cases hzero : read.addr = 0
    · rw [if_pos hzero]
      intro pl
      have hword := wordAt_update s.store no.realSeq 0
      rw [if_pos rfl, ← h.wordAt_of_null no.toNat_version_lt hzero hcas,
        update_eq_self] at hword
      exact (congrFun hword pl).symm ▸ h pl
    · rw [if_neg hzero]
      refine h.update (w := none) (e := none) rfl ?_
      rw [wordAt_update, if_pos rfl, place_flat hflat]
  · rw [if_neg hcas]
    exact h

theorem Inv.takeOut_hash (h : s.Inv shape) (hflat : no.fromFlat = false) :
    (s.takeOut no (s.store.takeHash no)).Inv shape := by
  unfold takeOut takeHash
  cases s.store.find no with
  | none => exact h
  | some v =>
    refine h.update (w := none) (e := none) rfl ?_
    rw [wordAt_setHash, place_hash hflat]

/-- **Every access keeps the words and their holders together.** -/
theorem Inv.step (h : s.Inv shape) (a : StoreAccess) :
    (s.step shape a).Inv shape := by
  cases a with
  | put ctx flat idx bits => exact h.keep_put flat idx bits
  | putBy ctx seqNo => exact h.keep_putBy
  | remove seqNo read =>
    rw [PeekState.step]
    generalize ofWholeSeq seqNo = no
    split_ifs with hflat hcap
    · exact h
    · exact h.takeOut_flat hflat read
    · exact h.takeOut_hash (Bool.not_eq_true _ ▸ hflat)

theorem inv_of_accesses (shape : StoreShape) (accesses : List StoreAccess) :
    (accesses.foldl (PeekState.step shape) {}).Inv shape := by
  have hinit : Inv shape {} := by
    rintro (slot | key) <;> rfl
  exact List.foldlRecOn accesses _ hinit fun _ h a _ => h.step a

/-! ## Lookups -/

/-- **What a lookup finds**: the context of the holder of the place. -/
theorem Inv.getBySeqNo_eq (h : s.Inv shape) {out : UInt64} :
    s.store.getBySeqNo shape seqNo = (.ok, some out)
      ↔ ∃ no ctx, s.holder (ofWholeSeq seqNo).place = some (no, ctx)
        ∧ ctx.addr = out := by
  unfold getBySeqNo
  dsimp only
  generalize ofWholeSeq seqNo = no
  have hag := h no.place
  cases hholder : s.holder no.place with
  | none =>
    rw [hholder] at hag
    cases hf : no.fromFlat with
    | true =>
      rw [place_flat hf] at hag
      simp [wordAt_flat_eq_none.mp hag, low]
    | false =>
      rw [place_hash hf] at hag
      simp [(wordAt_hash s.store no).symm.trans hag]
  | some e =>
    obtain ⟨no', ctx⟩ := e
    rw [hholder] at hag
    obtain ⟨hplace, hne, hlt, bits, hbits, hword⟩ := hag
    have hlow := ctx.low_tag hbits
    cases hf : no.fromFlat with
    | true =>
      have hf' : no'.fromFlat = true := by
        by_contra hhash
        rw [place_flat hf, place_hash (Bool.not_eq_true _ ▸ hhash)] at hplace
        cases hplace
      rw [place_flat hf] at hword hplace
      rw [place_flat hf'] at hplace
      have hslot : no.realSeq < shape.flatCapacity :=
        Place.flat.inj hplace ▸ hlt hf'
      simp [not_le.mpr hslot, (wordAt_flat_eq_some.mp hword).1, hlow, hne]
    | false =>
      rw [place_hash hf, wordAt_hash] at hword
      simp [hword, hlow]

theorem Inv.peeksOwn_iff (h : s.Inv shape) :
    s.PeeksOwn shape seqNo ↔ s.SameVersion seqNo := by
  unfold PeeksOwn
  simp only [h.getBySeqNo_eq]
  constructor
  · intro hown _ no ctx hholder
    obtain ⟨no', ctx', hholder', hno, -⟩ := hown _ ⟨no, ctx, hholder, rfl⟩
    obtain ⟨rfl, rfl⟩ := Prod.mk.inj (some.inj (hholder.symm.trans hholder'))
    exact (HcomSeqNo.mk.inj hno).2.1
  · rintro hsame out ⟨no, ctx, hholder, rfl⟩
    have hag := h (ofWholeSeq seqNo).place
    rw [hholder] at hag
    exact ⟨no, ctx, hholder,
      withResp_of_place hag.1 fun hf => hsame hf no ctx hholder, rfl⟩

end PeekState

/-- **A lookup returns nothing but the context stored under its number exactly
when the slot of the number is free or was filled under its version**, after
all accesses in any order. A number of a hash table finds its own context in
every state. -/
theorem peeksOwn_iff_of_accesses (shape : StoreShape)
    (accesses : List StoreAccess) (seqNo : UInt32) :
    let s := accesses.foldl (PeekState.step shape) {}
    s.PeeksOwn shape seqNo ↔ s.SameVersion seqNo :=
  (PeekState.inv_of_accesses shape accesses).peeksOwn_iff

/-- **Another's context.** The slot `1` is used with the version `0`, given up,
and used again with the version `1`; the first number then finds the second
context. -/
theorem exists_access_peeks_anothers : ∃ shape accesses,
    let s := List.foldl (PeekState.step shape) {} accesses
    s.store.getBySeqNo shape (setValue true 0 1).wholeSeq = (.ok, some 128)
      ∧ ¬s.PeeksOwn shape (setValue true 0 1).wholeSeq := by
  refine ⟨⟨7, by decide, by decide⟩,
    [.putBy ⟨64, by decide⟩ (setValue true 0 1).wholeSeq,
      .remove (setValue true 0 1).wholeSeq ⟨64, by decide⟩,
      .putBy ⟨128, by decide⟩ (setValue true 1 1).wholeSeq], rfl, fun hown => ?_⟩
  have hversion := (PeekState.inv_of_accesses _ _).peeksOwn_iff.mp hown rfl _ _ rfl
  exact absurd hversion (by decide)

end Service
