import UbsComm.Service.CtxStore

/-!
# Finding a context again

A context that has been put into the store is to be found under the number
the store has given it, until it is taken out. In the flat array that is so
if the version in the slot is the version in the number. The word, however,
is not made afresh for each of the three slots that are tried: the version
of the next one is or-ed into the word made for the one before. The bits of
both versions are then in the slot, and the number has only those of the
last.

**A context is found under its number if and only if the versions passed
over add no bits to the version of the slot taken**
(`found_iff_versionsCover`). This fails when the counter goes from an odd
version to the next between two attempts (`exists_put_not_found`).
-/

namespace Service

open Function CtxStore HcomSeqNo Tagged Option

/-- An operation of the store. -/
inductive StoreOp where
  | put (ctx : CtxPtr)
  | putBy (ctx : CtxPtr) (seqNo : UInt32)
  | get (seqNo : UInt32)
  | remove (seqNo : UInt32)

/-- The store after an operation. -/
def CtxStore.after (shape : StoreShape) (st : CtxStore) : StoreOp → CtxStore
  | .put ctx => (st.putAndGetSeqNo shape ctx).2.2
  | .putBy ctx seqNo => (st.putBySeqNo shape ctx seqNo).2
  | .get _ => st
  | .remove seqNo => (st.getSeqNoAndRemove shape seqNo).2.2

/-- The operation is not one that removes a number. -/
def StoreOp.Spares (no : HcomSeqNo) : StoreOp → Prop
  | .remove seqNo => (HcomSeqNo.ofWholeSeq seqNo).withResp false ≠ no.withResp false
  | .put _ | .putBy _ _ | .get _ => True

/-! ## What the store keeps -/

section Keeping

variable {shape : StoreShape} {st st' : CtxStore} {no no' : HcomSeqNo} {ctx : CtxPtr}

namespace CtxStore

/-- The store keeps a context under a number. -/
def Keeps (shape : StoreShape) (st : CtxStore) (no : HcomSeqNo) (ctx : CtxPtr) : Prop :=
  if no.fromFlat then no.realSeq < shape.flatCapacity
    ∧ st.flatCtxBucks no.realSeq = Tagged.tag ptrBits (UInt64.ofNat no.version) ctx.addr
  else ∃ v, st.find no = some v ∧ Tagged.low ptrBits v = ctx.addr

/-- Nothing is kept where a number points. -/
def Vacant (st : CtxStore) (no : HcomSeqNo) : Prop :=
  if no.fromFlat then st.flatCtxBucks no.realSeq = 0 else st.find no = none

theorem keeps_flat (hflat : no.fromFlat = true) :
    st.Keeps shape no ctx ↔ no.realSeq < shape.flatCapacity ∧ st.flatCtxBucks no.realSeq
        = tag ptrBits (UInt64.ofNat no.version) ctx.addr := by
  rw [Keeps, if_pos hflat]

theorem keeps_hash (hflat : no.fromFlat = false) :
    st.Keeps shape no ctx ↔ ∃ v, st.find no = some v ∧ low ptrBits v = ctx.addr := by
  rw [Keeps, if_neg (by simp [hflat])]

theorem vacant_flat (hflat : no.fromFlat = true) :
    st.Vacant no ↔ st.flatCtxBucks no.realSeq = 0 := by
  rw [Vacant, if_pos hflat]

theorem vacant_hash (hflat : no.fromFlat = false) : st.Vacant no ↔ st.find no = none := by
  rw [Vacant, if_neg (by simp [hflat])]

/-- **What is kept is found, and then gone.** -/
theorem Keeps.remove (hk : st.Keeps shape no ctx) (hne : ctx.addr ≠ 0) :
    ∃ st', st.getSeqNoAndRemove shape no.wholeSeq = (.ok, some ctx.addr, st') ∧ st'.Vacant no := by
  cases hflat : no.fromFlat with
  | true =>
    obtain ⟨hlt, hbuck⟩ := (keeps_flat hflat).mp hk
    rw [getSeqNoAndRemove_of_lt hflat hlt, hbuck, ctx.low_tag no.toNat_version_lt, takeFlat,
      if_pos hbuck]
    exact ⟨_, if_neg hne, (vacant_flat hflat).mpr (update_self _ _ _)⟩
  | false =>
    obtain ⟨v, hfind, hlow⟩ := (keeps_hash hflat).mp hk
    rw [getSeqNoAndRemove_of_hash hflat, takeHash, hfind, ← hlow]
    refine ⟨_, rfl, ?_⟩
    rw [vacant_hash hflat, find_setHash, if_pos rfl]

/-- Only what is kept is found. -/
theorem keeps_of_remove (h : st.getSeqNoAndRemove shape no.wholeSeq = (.ok, some ctx.addr, st')) :
    st.Keeps shape no ctx := by
  cases hflat : no.fromFlat with
  | true =>
    rcases Nat.lt_or_ge no.realSeq shape.flatCapacity with hlt | hge
    · rw [getSeqNoAndRemove_of_lt hflat hlt, takeFlat] at h
      split_ifs at h with hcas hzero
      · cases h
      · have hval : low ptrBits (st.flatCtxBucks no.realSeq) = ctx.addr :=
          some.inj (congrArg (·.2.1) h)
        rw [hval] at hcas
        exact (keeps_flat hflat).mpr ⟨hlt, hcas⟩
      · cases h
    · rw [getSeqNoAndRemove_of_le hflat hge] at h
      cases h
  | false =>
    rw [getSeqNoAndRemove_of_hash hflat, takeHash] at h
    cases hfind : st.find no with
    | none =>
      rw [hfind] at h
      cases h
    | some v =>
      rw [hfind] at h
      exact (keeps_hash hflat).mpr ⟨v, hfind, some.inj (congrArg (·.2.1) h)⟩

theorem Vacant.remove (hv : st.Vacant no) :
    (st.getSeqNoAndRemove shape no.wholeSeq).1 = .storeSeqNoFound := by
  cases hflat : no.fromFlat with
  | true =>
    rw [vacant_flat hflat] at hv
    rcases Nat.lt_or_ge no.realSeq shape.flatCapacity with hlt | hge
    · have hzero : low ptrBits 0 = 0 := UInt64.zero_and
      rw [getSeqNoAndRemove_of_lt hflat hlt, hv, takeFlat]
      split <;> rfl
    · rw [getSeqNoAndRemove_of_le hflat hge]
  | false =>
    rw [vacant_hash hflat] at hv
    rw [getSeqNoAndRemove_of_hash hflat, takeHash, hv]

/-! ## What is kept stays -/

/-- Slots that are taken and entries that are there stay. -/
structure Grows (st st' : CtxStore) : Prop where
  flat : ∀ a, st.flatCtxBucks a ≠ 0 → st'.flatCtxBucks a = st.flatCtxBucks a
  hash : ∀ no v, st.find no = some v → st'.find no = some v

theorem Grows.refl : st.Grows st := ⟨fun _ _ => rfl, fun _ _ h => h⟩

theorem Grows.trans {st'' : CtxStore} (h : st.Grows st') (h' : st'.Grows st'') : st.Grows st'' where
  flat a ha := by rw [h'.flat a (by rwa [h.flat a ha]), h.flat a ha]
  hash no v hv := h'.hash no v (h.hash no v hv)

theorem Keeps.grows (hk : st.Keeps shape no ctx) (hne : ctx.addr ≠ 0) (h : st.Grows st') :
    st'.Keeps shape no ctx := by
  cases hflat : no.fromFlat with
  | true =>
    obtain ⟨hlt, hbuck⟩ := (keeps_flat hflat).mp hk
    have htaken : st.flatCtxBucks no.realSeq ≠ 0 := by
      rw [hbuck]
      exact CtxPtr.tag_ne_zero hne no.toNat_version_lt
    exact (keeps_flat hflat).mpr ⟨hlt, (h.flat _ htaken).trans hbuck⟩
  | false =>
    obtain ⟨v, hfind, hlow⟩ := (keeps_hash hflat).mp hk
    exact (keeps_hash hflat).mpr ⟨v, h.hash no v hfind, hlow⟩

theorem nextIndex_store (shape : StoreShape) (st : CtxStore) :
    (st.nextIndex shape).2.flatCtxBucks = st.flatCtxBucks
      ∧ (st.nextIndex shape).2.hashCtxMap = st.hashCtxMap := by
  unfold nextIndex
  dsimp only
  split <;> exact ⟨rfl, rfl⟩

/-- An attempt writes to a free slot only. -/
theorem grows_probe (value : UInt64) : st.Grows (st.probe shape value).store := by
  obtain ⟨hflat, hhash⟩ := nextIndex_store shape st
  unfold probe
  dsimp only
  refine ⟨fun a ha => ?_, fun no v hv => ?_⟩
  · split_ifs with hfree
    · rw [hflat] at hfree ⊢
      refine update_of_ne ?_ _ _
      rintro rfl
      exact ha hfree
    · exact congrFun hflat a
  · split_ifs <;> exact (congrArg (· no.mapIndex no.key) hhash).trans hv

theorem grows_probes (n : ℕ) (value : UInt64) (st : CtxStore) :
    st.Grows (probes shape n value st).store := by
  induction n generalizing value st with
  | zero => exact grows_probe value
  | succ n ih =>
    unfold probes
    dsimp only
    split
    · exact grows_probe value
    · exact (grows_probe value).trans (ih _ _)

/-- An entry is put in under a free key only. -/
theorem grows_emplace (no' : HcomSeqNo) (value : UInt64) : st.Grows (st.emplace no' value).2 := by
  unfold emplace
  split
  case h_1 hfree =>
    refine ⟨fun _ _ => rfl, fun no v hv => ?_⟩
    rw [find_setHash, if_neg, hv]
    intro hkey
    rw [find, mapIndex_eq_of_key hkey, hkey] at hv
    exact some_ne_none v (hv.symm.trans hfree)
  case h_2 => exact .refl

theorem grows_putAndGetSeqNo (ctx : CtxPtr) : st.Grows (st.putAndGetSeqNo shape ctx).2.2 := by
  unfold putAndGetSeqNo
  split
  · exact .refl
  · dsimp only
    split
    · exact grows_probes 2 ctx.addr st
    · exact (grows_probes 2 ctx.addr st).trans (grows_emplace _ _)

theorem grows_putBySeqNo (ctx : CtxPtr) (seqNo : UInt32) :
    st.Grows (st.putBySeqNo shape ctx seqNo).2 := by
  unfold putBySeqNo
  dsimp only
  split_ifs with hzero hflat hcap hfree
  · exact .refl
  · exact .refl
  · refine ⟨fun a ha => update_of_ne ?_ _ _, fun _ _ h => h⟩
    rintro rfl
    exact ha hfree
  · exact .refl
  · exact grows_emplace _ _

theorem find_takeFlat (no' : HcomSeqNo) (value : UInt64) :
    (st.takeFlat no' value).2.2.find no = st.find no := by
  unfold takeFlat
  split
  · dsimp only
    split <;> rfl
  · rfl

/-- A swap leaves the slots that do not hold the word expected. -/
theorem takeFlat_of_ne {value : UInt64} {a : ℕ}
    (h : a = no'.realSeq → st.flatCtxBucks a ≠ tag ptrBits (UInt64.ofNat no'.version) value) :
    (st.takeFlat no' value).2.2.flatCtxBucks a = st.flatCtxBucks a := by
  unfold takeFlat
  split
  next hcas =>
    have hne : a ≠ no'.realSeq := by
      rintro rfl
      exact h rfl hcas
    split <;> exact update_of_ne hne _ _
  next => rfl

/-- A swap that expects another version, or is for another slot, leaves what
is kept. -/
theorem Keeps.takeFlat_other (hk : st.Keeps shape no ctx) (hflat' : no'.fromFlat = true)
    (hother : no'.withResp false ≠ no.withResp false) :
    (st.takeFlat no' (low ptrBits (st.flatCtxBucks no'.realSeq))).2.2.Keeps shape no ctx := by
  cases hflat : no.fromFlat with
  | true =>
    obtain ⟨hlt, hbuck⟩ := (keeps_flat hflat).mp hk
    refine (keeps_flat hflat).mpr ⟨hlt, (takeFlat_of_ne ?_).trans hbuck⟩
    intro hslot hword
    rw [← hslot, hbuck, ctx.low_tag no.toNat_version_lt] at hword
    have hver := ((CtxPtr.tag_inj no.toNat_version_lt no'.toNat_version_lt ctx ctx).mp hword).1
    refine hother ?_
    rw [withResp, withResp, hflat, hflat', ofNat_version_inj.mp hver, Fin.ext hslot]
  | false =>
    obtain ⟨v, hfind, hlow⟩ := (keeps_hash hflat).mp hk
    exact (keeps_hash hflat).mpr ⟨v, (find_takeFlat _ _).trans hfind, hlow⟩

/-- A removal under another number leaves what is kept. -/
theorem Keeps.remove_other (hk : st.Keeps shape no ctx)
    (hother : no'.withResp false ≠ no.withResp false) :
    (st.getSeqNoAndRemove shape no'.wholeSeq).2.2.Keeps shape no ctx := by
  cases hflat' : no'.fromFlat with
  | true =>
    rcases Nat.lt_or_ge no'.realSeq shape.flatCapacity with hlt' | hge'
    · rw [getSeqNoAndRemove_of_lt hflat' hlt']
      exact hk.takeFlat_other hflat' hother
    · rwa [getSeqNoAndRemove_of_le hflat' hge']
  | false =>
    rw [getSeqNoAndRemove_of_hash hflat', takeHash]
    cases hfind' : st.find no' with
    | none => exact hk
    | some v' =>
      cases hflat : no.fromFlat with
      | true =>
        have hkeeps := (keeps_flat hflat).mp hk
        exact (keeps_flat hflat).mpr hkeeps
      | false =>
        obtain ⟨v, hfind, hlow⟩ := (keeps_hash hflat).mp hk
        refine (keeps_hash hflat).mpr ⟨v, ?_, hlow⟩
        rw [find_setHash, if_neg, hfind]
        exact fun hkey => hother (wholeSeq_inj.mp hkey).symm

/-- **What is kept stays, unless it is removed.** -/
theorem Keeps.after {op : StoreOp} (hk : st.Keeps shape no ctx) (hne : ctx.addr ≠ 0)
    (hop : op.Spares no) : (st.after shape op).Keeps shape no ctx := by
  cases op with
  | put ctx' => exact hk.grows hne (grows_putAndGetSeqNo ctx')
  | putBy ctx' seqNo => exact hk.grows hne (grows_putBySeqNo ctx' seqNo)
  | get seqNo => exact hk
  | remove seqNo =>
    have := hk.remove_other hop
    rwa [wholeSeq_ofWholeSeq] at this

end CtxStore

end Keeping

/-! ## Putting and finding -/

/-- The versions of the slots passed over, on top of `bits`, have no bits
that the version of the slot taken has not; if no slot is taken, there is
nothing to ask. -/
def CtxStore.VersionsCover (shape : StoreShape) : ℕ → UInt64 → CtxStore → Prop
  | 0, bits, st =>
    let next := st.nextIndex shape
    st.flatCtxBucks (shape.seqNo next.1) = 0 → shape.version next.1 ||| bits = shape.version next.1
  | n + 1, bits, st =>
    let next := st.nextIndex shape
    if st.flatCtxBucks (shape.seqNo next.1) = 0 then
      shape.version next.1 ||| bits = shape.version next.1
    else VersionsCover shape n (shape.version next.1 ||| bits) next.2

instance CtxStore.decidableVersionsCover (shape : StoreShape) :
    (n : ℕ) → (bits : UInt64) → (st : CtxStore) → Decidable (VersionsCover shape n bits st)
  | 0, _, st => inferInstanceAs (Decidable
      (st.flatCtxBucks (shape.seqNo (st.nextIndex shape).1) = 0 → _ = _))
  | n + 1, bits, st =>
    haveI := decidableVersionsCover shape n
      (shape.version (st.nextIndex shape).1 ||| bits) (st.nextIndex shape).2
    inferInstanceAs (Decidable (if st.flatCtxBucks
      (shape.seqNo (st.nextIndex shape).1) = 0 then _ = _ else _))

section Putting

variable {shape : StoreShape} {ctx : CtxPtr}

/-- What an attempt leaves. -/
structure Probe.Of (shape : StoreShape) (st : CtxStore) (value : UInt64) (r : Probe) : Prop where
  idx : (st.nextIndex shape).1 = r.idx
  value : r.value = Tagged.tag ptrBits (shape.version r.idx) value
  stored : r.stored = true ↔ st.flatCtxBucks (shape.seqNo r.idx) = 0
  slot : r.stored = true → r.store.flatCtxBucks (shape.seqNo r.idx) = r.value
  store : r.stored = false → (st.nextIndex shape).2 = r.store

theorem CtxStore.probe_of (shape : StoreShape) (st : CtxStore) (value : UInt64) :
    (st.probe shape value).Of shape st value := by
  obtain ⟨hflat, -⟩ := nextIndex_store shape st
  unfold probe
  dsimp only
  split_ifs with h
  · exact ⟨rfl, rfl, iff_of_true rfl (hflat ▸ h), fun _ => update_self _ _ _, nofun⟩
  · exact ⟨rfl, rfl, iff_of_false Bool.false_ne_true (hflat ▸ h), nofun, fun _ => rfl⟩

/-- The bits of a version are covered if or-ing them in changes nothing. -/
theorem CtxStore.versionsCover_of_stored {n : ℕ} {bits value : UInt64} {st : CtxStore} {r : Probe}
    (hr : r.Of shape st value) (hstored : r.stored = true) :
    shape.version r.idx ||| bits = shape.version r.idx ↔ VersionsCover shape n bits st := by
  have hfree := hr.stored.mp hstored
  cases n with
  | zero => simp only [VersionsCover, hr.idx, hfree, forall_const]
  | succ n => simp only [VersionsCover, hr.idx, hfree, if_true]

/-- **What the attempts leave**: a word that holds the context, in a slot
that has its version if and only if the versions cover each other. -/
theorem CtxStore.probes_spec (shape : StoreShape) (ctx : CtxPtr) (n : ℕ)
    {bits : UInt64} (hbits : bits.toNat < 2 ^ 6) (st : CtxStore) :
    let r := probes shape n (tag ptrBits bits ctx.addr) st
    ∃ bits' : UInt64, bits'.toNat < 2 ^ 6 ∧ r.value = tag ptrBits bits' ctx.addr
      ∧ (r.stored = true → r.store.flatCtxBucks (shape.seqNo r.idx) = r.value
          ∧ (bits' = shape.version r.idx ↔ VersionsCover shape n bits st))
      ∧ (r.stored = false → VersionsCover shape n bits st) := by
  induction n generalizing bits st with
  | zero =>
    have hr := probe_of shape st (tag ptrBits bits ctx.addr)
    dsimp only [probes]
    generalize st.probe shape _ = r at hr
    refine ⟨_, toNat_or_lt (shape.version_lt r.idx) hbits, hr.value.trans (tag_tag _ _ _),
      fun h => ⟨hr.slot h, versionsCover_of_stored hr h⟩, fun h hfree => ?_⟩
    rw [hr.idx] at hfree
    exact absurd (hr.stored.mpr hfree) (by simp [h])
  | succ n ih =>
    have hr := probe_of shape st (tag ptrBits bits ctx.addr)
    dsimp only [probes]
    generalize st.probe shape _ = r at hr
    have hbits' := toNat_or_lt (shape.version_lt r.idx) hbits
    have hvalue := hr.value.trans (tag_tag _ _ _)
    split_ifs with h
    · exact ⟨_, hbits', hvalue, fun h => ⟨hr.slot h, versionsCover_of_stored hr h⟩,
        fun h' => absurd (h.symm.trans h') (by simp)⟩
    · have htaken : ¬ st.flatCtxBucks (shape.seqNo r.idx) = 0 := mt hr.stored.mpr h
      have hcover : VersionsCover shape (n + 1) bits st
          ↔ VersionsCover shape n (shape.version r.idx ||| bits) r.store := by
        rw [VersionsCover, hr.idx, if_neg htaken, hr.store (Bool.not_eq_true _ ▸ h)]
      rw [hvalue, hcover]
      exact ih hbits' r.store

/-- **A context just put is kept under its number if and only if the
versions cover each other.** -/
theorem CtxStore.keeps_iff_of_put {st st' : CtxStore} {s : UInt32}
    (h : st.putAndGetSeqNo shape ctx = (.ok, some s, st')) :
    ctx.addr ≠ 0 ∧ (st'.Keeps shape (.ofWholeSeq s) ctx ↔ VersionsCover shape 2 0 st) := by
  have hzero : (0 : UInt64).toNat < 2 ^ 6 := by decide
  obtain ⟨bits, hbits, hvalue, hflat, hhash⟩ := probes_spec shape ctx 2 hzero st
  rw [tag_zero] at hvalue hflat hhash
  unfold putAndGetSeqNo at h
  split_ifs at h with hnull
  · cases h
  refine ⟨hnull, ?_⟩
  generalize probes shape 2 ctx.addr st = r at h hvalue hflat hhash
  cases hstored : r.stored with
  | true =>
    simp only [hstored, if_true, Prod.mk.injEq, true_and, some.injEq] at h
    obtain ⟨rfl, rfl⟩ := h
    obtain ⟨hslot, hcover⟩ := hflat hstored
    rw [ofWholeSeq_wholeSeq, keeps_flat rfl, realSeq_setValue, version_setValue, hslot, hvalue,
      CtxPtr.tag_inj hbits (shape.version_lt _), ← hcover]
    exact ⟨fun h => h.2.1, fun h => ⟨shape.seqNo_lt _, h, rfl⟩⟩
  | false =>
    simp only [hstored, Bool.false_eq_true, if_false, Prod.mk.injEq, some.injEq, emplace] at h
    refine iff_of_true ?_ (hhash hstored)
    obtain ⟨hok, rfl, rfl⟩ := h
    rw [ofWholeSeq_wholeSeq]
    split at hok
    case h_2 => cases hok
    case h_1 hfree =>
      refine ⟨r.value, ?_, hvalue ▸ ctx.low_tag hbits⟩
      rw [find_setHash, if_pos rfl]

end Putting

/-- The context is found under the number, with or without the response bit,
and then not again. -/
def CtxStore.FoundOnce (shape : StoreShape) (st : CtxStore) (no : HcomSeqNo)
    (ctx : CtxPtr) : Prop :=
  ∀ resp, ∃ st', st.getSeqNoAndRemove shape (no.withResp resp).wholeSeq = (.ok, some ctx.addr, st')
    ∧ ∀ resp', (st'.getSeqNoAndRemove shape (no.withResp resp').wholeSeq).1 = .storeSeqNoFound

/-- **A context is found under its number, in every later store in which it
has not been removed, if and only if the versions of the slots passed over
add no bits to the version of the slot taken.** -/
theorem found_iff_versionsCover (shape : StoreShape) (st st' : CtxStore) (ctx : CtxPtr)
    (s : UInt32) (h : st.putAndGetSeqNo shape ctx = (.ok, some s, st')) :
    (∀ ops : List StoreOp, (∀ op ∈ ops, op.Spares (.ofWholeSeq s)) →
        (ops.foldl (CtxStore.after shape) st').FoundOnce shape (.ofWholeSeq s) ctx)
      ↔ CtxStore.VersionsCover shape 2 0 st := by
  obtain ⟨hnull, hkeeps⟩ := keeps_iff_of_put h
  rw [← hkeeps]
  constructor
  · intro hfound
    -- the store right after the put is one of the later ones
    obtain ⟨st'', hremove, -⟩ := hfound [] (by simp) (ofWholeSeq s).isResp
    exact keeps_of_remove hremove
  · intro hk ops hops resp
    have hlater : (ops.foldl (after shape) st').Keeps shape (.ofWholeSeq s) ctx := by
      clear h hkeeps
      induction ops generalizing st' with
      | nil => exact hk
      | cons op ops ih =>
        rw [List.forall_mem_cons] at hops
        exact ih _ (hk.after hnull hops.1) hops.2
    obtain ⟨st'', hremove, hvacant⟩ :=
      (show Keeps shape _ ((ofWholeSeq s).withResp resp) ctx from hlater).remove hnull
    exact ⟨st'', hremove, fun resp' =>
      (show st''.Vacant ((ofWholeSeq s).withResp resp') from hvacant).remove⟩

/-- The smallest store. -/
def smallStore : StoreShape := ⟨7, by decide, by decide⟩

/-- The counter is at the slot `1` with version `1`, which is taken since the
round before. -/
def firstSlotTaken : CtxStore where
  seqNoAndVersionIndex := 129
  flatCtxBucks a := if a = 1 then Tagged.tag ptrBits 0 32 else 0

theorem found_past_slot :
    ∃ s st', firstSlotTaken.putAndGetSeqNo smallStore ⟨64, by decide⟩ = (.ok, some s, st')
      ∧ HcomSeqNo.ofWholeSeq s = .setValue true 1 2
      ∧ ∀ ops : List StoreOp, (∀ op ∈ ops, op.Spares (.ofWholeSeq s)) →
        (ops.foldl (CtxStore.after smallStore) st').FoundOnce smallStore
          (.ofWholeSeq s) ⟨64, by decide⟩ :=
  ⟨_, _, rfl, rfl,
    (found_iff_versionsCover smallStore firstSlotTaken _ ⟨64, by decide⟩ _ rfl).mpr (by decide)⟩

/-- The counter is at the last slot of version `1`, which is taken. -/
def lastSlotTaken : CtxStore where
  seqNoAndVersionIndex := 255
  flatCtxBucks a := if a = 127 then Tagged.tag ptrBits 1 32 else 0

/-- **Where a context is not found.** The second attempt is at the slot `1`
with version `2`, and stores the version `3`. -/
theorem exists_put_not_found :
    ∃ s st', lastSlotTaken.putAndGetSeqNo smallStore ⟨64, by decide⟩ = (.ok, some s, st')
      ∧ HcomSeqNo.ofWholeSeq s = .setValue true 2 1
      ∧ st'.flatCtxBucks 1 = Tagged.tag ptrBits 3 64
      ∧ ∀ resp, (st'.getSeqNoAndRemove smallStore
        ((HcomSeqNo.ofWholeSeq s).withResp resp).wholeSeq).1 = .storeSeqNoFound := by
  refine ⟨_, _, rfl, rfl, rfl, ?_⟩
  decide

end Service
