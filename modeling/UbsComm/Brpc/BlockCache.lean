import UbsComm.Lib.Execution

/-!
# The receive cache

What a socket has received is kept as a chain of blocks, `BlockCache`, until
the caller reads. `CutAndInsertAfter` hands blocks over without copying: it
links them behind the first block of the caller, whole blocks as long as they
are less than what is asked for. A first block that is too long is cut: the
caller gets it with a smaller `cap`, the cache goes on tracking it as the
partial block, and hands it over again, with more of it, when it is asked the
next time.

For the record, a block knows how much of it the caller has been shown. What a
call shows of a block is the part from there to the `cap` that it is handed
over with.

**The stream** (`delivers_rxRun`): what the caller is shown is what has been
inserted, in order, up to the sum of the values returned. This needs of a call
that does not ask for exactly what is left of the partial block while there
are others – the next block is then handed over and not counted
(`exists_run_uncounted`) – and that no sum of sizes in it wraps around.
-/

namespace Brpc

open List UInt32 Machine Nat

/-! ## Blocks -/

/-- `Block`, with the bytes that are in it. -/
structure Block where
  data : List UInt8
  cap : UInt32
  nshared : ℕ := 1
  /-- How much the caller has been shown. -/
  exposed : ℕ := 0

/-- What the caller is shown of a block that is handed over. -/
def Block.shown (b : Block) : List UInt8 := (b.data.take b.cap.toNat).drop b.exposed

/-- `BlockRef`: what is left of a block. -/
structure BlockRef where
  offset : UInt32
  length : UInt32
  block : Block

/-- The chain from `m_head_block` to `m_tail_block` is a list. -/
structure BlockCache where
  partialBlock : Option BlockRef := none
  blocks : List Block := []
  cacheLen : UInt64 := 0

/-! ## The operations -/

/-- `Insert` -/
def BlockCache.insert (cache : BlockCache) (data : List UInt8) : BlockCache :=
  let dataSize := UInt32.ofNat data.length
  { cache with
    blocks := cache.blocks ++ [⟨data, dataSize, 1, 0⟩]
    cacheLen := cache.cacheLen + dataSize.toUInt64 }

/-- `CutPartialBlock`: the number of bytes, the block as it is handed over,
and the partial block afterwards. -/
def BlockRef.cutPartialBlock (p : BlockRef) (cutSize : UInt32) : UInt32 × Block × Option BlockRef :=
  if cutSize ≥ p.length then (p.length, { p.block with cap := p.block.cap + p.length }, none)
  else
    let block := { p.block with
      cap := p.block.cap + cutSize
      nshared := p.block.nshared + 1 }
    (cutSize, block, some ⟨p.offset + cutSize, p.length - cutSize,
      { block with exposed := block.cap.toNat }⟩)

/-- What the loop over the blocks leaves. -/
structure CutLoop where
  rxTotalLen : UInt32
  /-- The blocks up to `last_cache_block`. -/
  taken : List Block
  rest : List Block
  partialBlock : Option BlockRef

/-- A first block that is longer than what is asked for, or just as long. -/
def cutBlock (cutSize : UInt32) (b : Block) (bs : List Block) : CutLoop :=
  let block := { b with cap := cutSize, nshared := b.nshared + 1 }
  ⟨cutSize, [block], bs, some ⟨cutSize, b.cap - cutSize, { block with exposed := cutSize.toNat }⟩⟩

/-- The loop over the blocks. -/
def cutLoop (cutSize : UInt32) : UInt32 → List Block → CutLoop
  | rxTotalLen, [] => ⟨rxTotalLen, [], [], none⟩
  | rxTotalLen, b :: bs =>
    if rxTotalLen + b.cap < cutSize then
      let r := cutLoop cutSize (rxTotalLen + b.cap) bs
      { r with taken := b :: r.taken }
    else if rxTotalLen < cutSize then
      if rxTotalLen ≠ 0 then ⟨rxTotalLen, [], b :: bs, none⟩
      else cutBlock cutSize b bs
    -- nothing more is asked for: the block goes nevertheless
    else ⟨cutSize, [b], bs, none⟩

/-- The value returned by `CutAndInsertAfter`, the blocks that are linked
behind the first one of the caller, and the cache afterwards. -/
structure CutResult where
  rxTotalLen : UInt32
  linked : List Block
  cache : BlockCache

namespace BlockCache

variable (cache : BlockCache)

/-- The loop over the blocks and what is done after it, behind what is linked
already. -/
def cutBlocks (cutSize rxTotalLen : UInt32) (linked : List Block) : CutResult :=
  let r := cutLoop cutSize rxTotalLen cache.blocks
  ⟨r.rxTotalLen, linked ++ r.taken,
    ⟨r.partialBlock, r.rest, cache.cacheLen - r.rxTotalLen.toUInt64⟩⟩

/-- `CutAndInsertAfter` -/
def cutAndInsertAfter (cutSize : UInt32) : CutResult :=
  if cache.cacheLen = 0 then ⟨0, [], cache⟩
  else
    match cache.partialBlock with
    | none => cache.cutBlocks cutSize 0 []
    | some p =>
      match p.cutPartialBlock cutSize with
      | (rxTotalLen, block, some p) =>
        ⟨rxTotalLen, [block], { cache with
          partialBlock := some p
          cacheLen := cache.cacheLen - rxTotalLen.toUInt64 }⟩
      | (rxTotalLen, block, none) => cache.cutBlocks cutSize rxTotalLen [block]

end BlockCache

/-! ## Runs -/

/-- What happens to the cache. -/
inductive RxAction where
  /-- A block that has been received, which has at least a byte. -/
  | insert (data : List UInt8)
  | cutAndInsertAfter (cutSize : UInt32)

/-- The cache, and for the record what has been inserted, what the caller has
been shown, and the sum of the values returned. -/
structure RxStream where
  cache : BlockCache := {}
  inserted : List UInt8 := []
  exposed : List UInt8 := []
  returned : ℕ := 0

/-- One call; it is for at least a byte. -/
def rxStep (st : RxStream) : RxAction → Option RxStream
  | .insert data =>
    if 0 < data.length ∧ data.length < 2 ^ 32 then
      some { st with cache := st.cache.insert data, inserted := st.inserted ++ data }
    else none
  | .cutAndInsertAfter cutSize =>
    if 0 < cutSize then
      let r := st.cache.cutAndInsertAfter cutSize
      some { st with
        cache := r.cache
        exposed := st.exposed ++ r.linked.flatMap Block.shown
        returned := st.returned + r.rxTotalLen.toNat }
    else none

/-- Calls from an empty cache on. -/
def rxRun (xs : List RxAction) : Option RxStream := Machine.run rxStep {} xs

/-! ## The condition -/

/-- The sums of sizes that the loop makes do not wrap around. -/
def NoWrap (cutSize : ℕ) : ℕ → List Block → Prop
  | _, [] => True
  | rxTotalLen, b :: bs => rxTotalLen + b.cap.toNat < 2 ^ 32
    ∧ (rxTotalLen + b.cap.toNat < cutSize → NoWrap cutSize (rxTotalLen + b.cap.toNat) bs)

instance decidableNoWrap (cutSize : ℕ) :
    (rxTotalLen : ℕ) → (bs : List Block) → Decidable (NoWrap cutSize rxTotalLen bs)
  | _, [] => .isTrue trivial
  | rxTotalLen, b :: bs =>
    haveI := decidableNoWrap cutSize (rxTotalLen + b.cap.toNat) bs
    inferInstanceAs (Decidable (rxTotalLen + b.cap.toNat < 2 ^ 32
      ∧ (rxTotalLen + b.cap.toNat < cutSize → NoWrap cutSize (rxTotalLen + b.cap.toNat) bs)))

/-- A call asks for something other than exactly what is left of the partial
block, if there are other blocks. -/
def BlockCache.CutFits (cache : BlockCache) (cutSize : UInt32) : Prop :=
  match cache.partialBlock with
  | none => NoWrap cutSize.toNat 0 cache.blocks
  | some p => cutSize < p.length
    ∨ (p.length = cutSize → cache.blocks = []) ∧ NoWrap cutSize.toNat p.length.toNat cache.blocks

instance decidableCutFits (cache : BlockCache) (cutSize : UInt32) :
    Decidable (cache.CutFits cutSize) :=
  match h : cache.partialBlock with
  | none => decidable_of_iff (NoWrap cutSize.toNat 0 cache.blocks) (by rw [BlockCache.CutFits, h])
  | some p =>
    decidable_of_iff (cutSize < p.length ∨ (p.length = cutSize → cache.blocks.isEmpty = true)
        ∧ NoWrap cutSize.toNat p.length.toNat cache.blocks)
      (by rw [BlockCache.CutFits, h, List.isEmpty_iff])

/-- The condition on a step. -/
def RxAction.Fits (st : RxStream) : RxAction → Prop
  | .insert data => st.cache.cacheLen.toNat + data.length < 2 ^ 64
  | .cutAndInsertAfter cutSize => st.cache.CutFits cutSize

instance decidableFits (st : RxStream) : (a : RxAction) → Decidable (a.Fits st)
  | .insert data => inferInstanceAs (Decidable (st.cache.cacheLen.toNat + data.length < 2 ^ 64))
  | .cutAndInsertAfter cutSize => inferInstanceAs (Decidable (st.cache.CutFits cutSize))

/-! ## What is in the cache -/

/-- A block that has not been handed over. -/
structure Block.Fresh (b : Block) : Prop where
  cap : b.cap.toNat = b.data.length
  pos : 0 < b.data.length
  exposed : b.exposed = 0

theorem Block.Fresh.shown {b : Block} (h : b.Fresh) : b.shown = b.data := by
  rw [Block.shown, h.cap, h.exposed, take_length, drop_zero]

/-- A block of which the caller has been shown the part before `offset`. -/
structure BlockRef.Partial (p : BlockRef) : Prop where
  length : p.offset.toNat + p.length.toNat = p.block.data.length
  lt : p.block.data.length < 2 ^ 32
  cap : p.block.cap = p.offset
  exposed : p.block.exposed = p.offset.toNat

/-- What the caller has not been shown of the partial block. -/
def partialRest : Option BlockRef → List UInt8
  | none => []
  | some p => p.block.data.drop p.offset.toNat

/-- **What is cached**, and in which state the blocks are. -/
structure BlockCache.Holds (cache : BlockCache) (pending : List UInt8) : Prop where
  bytes : pending = partialRest cache.partialBlock ++ cache.blocks.flatMap Block.data
  cacheLen : cache.cacheLen.toNat = pending.length
  isPartial : ∀ p ∈ cache.partialBlock, p.Partial
  fresh : ∀ b ∈ cache.blocks, b.Fresh

/-! ## The loop -/

/-- What the loop does: it shows a prefix of what is there and counts it. -/
structure CutLoop.Spec (r : CutLoop) (cutSize rxTotalLen : UInt32) (bs : List Block) : Prop where
  bytes : r.taken.flatMap Block.shown ++ (partialRest r.partialBlock ++ r.rest.flatMap Block.data)
    = bs.flatMap Block.data
  counted : r.rxTotalLen.toNat = rxTotalLen.toNat + (r.taken.flatMap Block.shown).length
  le : r.rxTotalLen ≤ cutSize
  isPartial : ∀ p ∈ r.partialBlock, p.Partial
  fresh : ∀ b ∈ r.rest, b.Fresh
  pos : bs ≠ [] → 0 < r.rxTotalLen

variable {cutSize : UInt32} {cache : BlockCache} {rxTotalLen : UInt32} {bs : List Block}
  {p : BlockRef}

theorem cutBlock_spec {b : Block} (hcut : 0 < cutSize) (hle : cutSize ≤ b.cap) (hb : b.Fresh)
    (hbs : ∀ b ∈ bs, b.Fresh) : (cutBlock cutSize b bs).Spec cutSize 0 (b :: bs) := by
  have hle : cutSize.toNat ≤ b.data.length := hb.cap ▸ le_iff_toNat_le.mp hle
  have hshown : (cutBlock cutSize b bs).taken.flatMap Block.shown = b.data.take cutSize.toNat := by
    rw [cutBlock, flatMap_singleton, Block.shown, hb.exposed, drop_zero]
  have hsub : (b.cap - cutSize).toNat = b.data.length - cutSize.toNat := by
    rw [UInt32.toNat_sub_of_le _ _ ‹cutSize ≤ b.cap›, hb.cap]
  constructor
  case bytes =>
    rw [hshown, ← append_assoc]
    exact congrArg (· ++ _) (take_append_drop _ _)
  case counted =>
    rw [hshown, length_take, Nat.min_eq_left hle]
    exact (Nat.zero_add _).symm
  case le => exact UInt32.le_refl _
  case isPartial =>
    rintro p ⟨⟩
    refine ⟨?_, hb.cap ▸ b.cap.toNat_lt, rfl, rfl⟩
    rw [hsub]
    exact Nat.add_sub_cancel' hle
  case fresh => exact hbs
  case pos => exact fun _ => hcut

theorem toNat_add_of_lt {x y : UInt32} (h : x.toNat + y.toNat < 2 ^ 32) :
    (x + y).toNat = x.toNat + y.toNat := by
  rw [UInt32.toNat_add, mod_eq_of_lt h]

theorem cutLoop_spec (hlt : bs ≠ [] → rxTotalLen < cutSize) (hle : rxTotalLen ≤ cutSize)
    (hbs : ∀ b ∈ bs, b.Fresh) (hwrap : NoWrap cutSize.toNat rxTotalLen.toNat bs) :
    (cutLoop cutSize rxTotalLen bs).Spec cutSize rxTotalLen bs := by
  induction bs generalizing rxTotalLen with
  | nil =>
    exact ⟨rfl, rfl, hle, nofun, nofun, fun hne => absurd rfl hne⟩
  | cons b bs ih =>
    obtain ⟨hb, hbs'⟩ := forall_mem_cons.mp hbs
    have hsum := toNat_add_of_lt hwrap.1
    rw [cutLoop]
    split_ifs with hmore _ hfirst
    · have hwrap' := hwrap.2 (hsum ▸ lt_iff_toNat_lt.mp hmore)
      have hspec := ih (fun _ => hmore) (UInt32.le_of_lt hmore) hbs' (hsum ▸ hwrap')
      have hcounted := hspec.counted
      rw [hsum, hb.cap] at hcounted
      refine { hspec with bytes := ?_, counted := ?_, pos := fun _ => ?_ }
      · rw [flatMap_cons, flatMap_cons, hb.shown, append_assoc, hspec.bytes]
      · rw [flatMap_cons, hb.shown, length_append, hcounted, Nat.add_assoc]
      · rw [lt_iff_toNat_lt, hcounted]
        exact Nat.lt_of_lt_of_le hb.pos (Nat.le_trans (Nat.le_add_left ..) (Nat.le_add_right ..))
    · exact ⟨rfl, rfl, hle, nofun, hbs, fun _ => UInt32.pos_iff_ne_zero.mpr hfirst⟩
    · obtain rfl := not_not.mp hfirst
      refine cutBlock_spec (hlt (cons_ne_nil b bs)) ?_ hb hbs'
      rwa [UInt32.zero_add, UInt32.not_lt] at hmore
    · exact absurd (hlt (cons_ne_nil b bs)) ‹_›

/-! ## A call -/

/-- What a call does. -/
structure CutResult.Spec (r : CutResult) (cutSize : UInt32) (pending : List UInt8) : Prop where
  shown : r.linked.flatMap Block.shown = pending.take r.rxTotalLen.toNat
  counted : r.rxTotalLen.toNat ≤ pending.length
  holds : r.cache.Holds (pending.drop r.rxTotalLen.toNat)
  le : r.rxTotalLen ≤ cutSize
  pos : pending ≠ [] → 0 < r.rxTotalLen

theorem BlockCache.Holds.insert {pending data : List UInt8} (h : cache.Holds pending)
    (hpos : 0 < data.length) (hlt : data.length < 2 ^ 32)
    (hlen : cache.cacheLen.toNat + data.length < 2 ^ 64) :
    (cache.insert data).Holds (pending ++ data) where
  bytes := by rw [h.bytes, BlockCache.insert, flatMap_append, flatMap_singleton, append_assoc]
  cacheLen := by
    have hsize : (ofNat data.length).toNat = data.length := toNat_ofNat_of_lt' hlt
    rw [BlockCache.insert, UInt64.toNat_add, toNat_toUInt64, hsize,
      mod_eq_of_lt hlen, h.cacheLen, length_append]
  isPartial := h.isPartial
  fresh := forall_mem_append.mpr ⟨h.fresh, forall_mem_singleton.mpr
    ⟨toNat_ofNat_of_lt' hlt, hpos, rfl⟩⟩

/-- A call from what it has shown and what is still cached. -/
theorem CutResult.Spec.of_append {r : CutResult} {shown rest : List UInt8} {cacheLen : UInt64}
    (hshown : r.linked.flatMap Block.shown = shown) (hlen : r.rxTotalLen.toNat = shown.length)
    (hcacheLen : cacheLen.toNat = (shown ++ rest).length)
    (hcache : r.cache.cacheLen = cacheLen - r.rxTotalLen.toUInt64)
    (hrest : rest = partialRest r.cache.partialBlock ++ r.cache.blocks.flatMap Block.data)
    (hpart : ∀ p ∈ r.cache.partialBlock, p.Partial) (hfresh : ∀ b ∈ r.cache.blocks, b.Fresh)
    (hle : r.rxTotalLen ≤ cutSize) (hpos : shown ++ rest ≠ [] → 0 < r.rxTotalLen) :
    r.Spec cutSize (shown ++ rest) where
  shown := by rw [hlen, take_left, hshown]
  counted := by
    rw [hlen, length_append]
    exact Nat.le_add_right ..
  holds := by
    rw [hlen, drop_left]
    refine ⟨hrest, ?_, hpart, hfresh⟩
    have hle : r.rxTotalLen.toUInt64 ≤ cacheLen := by
      rw [UInt64.le_iff_toNat_le, toNat_toUInt64, hlen, hcacheLen, length_append]
      exact Nat.le_add_right ..
    rw [hcache, UInt64.toNat_sub_of_le _ _ hle, hcacheLen, toNat_toUInt64, hlen,
      length_append, Nat.add_sub_cancel_left]
  le := hle
  pos := hpos

/-- The loop over the blocks, behind the partial block. -/
theorem cutBlocks_spec {linked : List Block} {shown : List UInt8}
    (hlinked : linked.flatMap Block.shown = shown)
    (hlen : cache.cacheLen.toNat = (shown ++ cache.blocks.flatMap Block.data).length)
    (hshown : rxTotalLen.toNat = shown.length) (hlt : cache.blocks ≠ [] → rxTotalLen < cutSize)
    (hle : rxTotalLen ≤ cutSize) (hbs : ∀ b ∈ cache.blocks, b.Fresh)
    (hwrap : NoWrap cutSize.toNat rxTotalLen.toNat cache.blocks) :
    (cache.cutBlocks cutSize rxTotalLen linked).Spec cutSize
      (shown ++ cache.blocks.flatMap Block.data) := by
  have hspec := cutLoop_spec hlt hle hbs hwrap
  rw [← hspec.bytes, ← append_assoc] at hlen ⊢
  refine CutResult.Spec.of_append ?_ ?_ hlen rfl rfl hspec.isPartial hspec.fresh hspec.le
    fun hne => ?_
  · rw [BlockCache.cutBlocks, flatMap_append, hlinked]
  · rw [BlockCache.cutBlocks, hspec.counted, hshown, length_append]
  · rw [append_assoc] at hne
    by_cases hblocks : cache.blocks = []
    · have hpos : 0 < shown.length := by
        refine length_pos_iff.mpr fun hnil => hne ?_
        rw [hnil, hblocks]
        rfl
      show 0 < (cutLoop cutSize rxTotalLen cache.blocks).rxTotalLen.toNat
      rw [hspec.counted, hshown]
      exact Nat.lt_of_lt_of_le hpos (Nat.le_add_right ..)
    · exact hspec.pos hblocks

theorem BlockRef.Partial.shown (h : p.Partial) {n : UInt32} (hn : n.toNat ≤ p.length.toNat) :
    (p.block.cap + n).toNat = p.offset.toNat + n.toNat
      ∧ (p.block.data.take (p.block.cap + n).toNat).drop p.block.exposed
        = (partialRest (some p)).take n.toNat := by
  have hcap : (p.block.cap + n).toNat = p.offset.toNat + n.toNat := by
    rw [h.cap]
    refine toNat_add_of_lt (Nat.lt_of_le_of_lt ?_ h.lt)
    rw [← h.length]
    exact Nat.add_le_add_left hn _
  rw [hcap, h.exposed, drop_take, Nat.add_sub_cancel_left]
  exact ⟨rfl, rfl⟩

/-- **A call shows a prefix of what is cached, and returns its length.** -/
theorem BlockCache.Holds.cutAndInsertAfter {pending : List UInt8} (h : cache.Holds pending)
    (hcut : 0 < cutSize) (hfits : cache.CutFits cutSize) :
    (cache.cutAndInsertAfter cutSize).Spec cutSize pending := by
  rw [BlockCache.cutAndInsertAfter]
  by_cases hempty : cache.cacheLen = 0
  · have hnil : pending = [] := by
      rw [← length_eq_zero_iff, ← h.cacheLen, hempty]
      rfl
    rw [if_pos hempty]
    subst hnil
    exact ⟨rfl, Nat.le_refl 0, h, UInt32.le_of_lt hcut, fun hne => absurd rfl hne⟩
  · rw [if_neg hempty]
    rw [BlockCache.CutFits] at hfits
    have hbytes := h.bytes
    have hlen := h.cacheLen
    rw [hbytes] at hlen ⊢
    cases hp : cache.partialBlock with
    | none =>
      rw [hp] at hfits hlen
      exact cutBlocks_spec rfl hlen rfl (fun _ => hcut) (UInt32.le_of_lt hcut) h.fresh hfits
    | some p =>
      rw [hp] at hfits hlen
      have hpart := h.isPartial p hp
      have hrest : (partialRest (some p)).length = p.length.toNat := by
        rw [partialRest, length_drop, ← hpart.length, Nat.add_sub_cancel_left]
      by_cases hmore : cutSize ≥ p.length
      · simp only [BlockRef.cutPartialBlock, if_pos hmore]
        obtain ⟨-, hshown⟩ := hpart.shown (Nat.le_refl p.length.toNat)
        rw [take_of_length_le (Nat.le_of_eq hrest)] at hshown
        rcases hfits with hless | ⟨hexact, hwrap⟩
        · exact absurd hless (UInt32.not_lt.mpr hmore)
        refine cutBlocks_spec ?_ hlen hrest.symm (fun hblocks => ?_) hmore h.fresh hwrap
        · rw [flatMap_singleton]
          exact hshown
        · exact UInt32.lt_of_le_of_ne hmore fun heq => hblocks (hexact heq)
      · have hless : cutSize < p.length := UInt32.not_le.mp hmore
        have hle : cutSize.toNat ≤ p.length.toNat := Nat.le_of_lt (lt_iff_toNat_lt.mp hless)
        simp only [BlockRef.cutPartialBlock, if_neg hmore]
        obtain ⟨hcap, hshown⟩ := hpart.shown hle
        have hoffset : (p.offset + cutSize).toNat = p.offset.toNat + cutSize.toNat :=
          hpart.cap ▸ hcap
        rw [← take_append_drop cutSize.toNat (partialRest (some p)), append_assoc] at hlen ⊢
        refine CutResult.Spec.of_append ?_ ?_ hlen rfl ?_ ?_ h.fresh (UInt32.le_refl _)
          fun _ => hcut
        · rw [flatMap_singleton]
          exact hshown
        · rw [length_take, hrest, Nat.min_eq_left hle]
        · rw [partialRest, partialRest, drop_drop, hoffset]
        · rintro q ⟨⟩
          refine ⟨?_, hpart.lt, ?_, ?_⟩
          · rw [hoffset, UInt32.toNat_sub_of_le _ _ (UInt32.le_of_lt hless), Nat.add_assoc,
              Nat.add_sub_cancel' hle, hpart.length]
          · rw [hpart.cap]
          · exact congrArg (fun c => (c + cutSize).toNat) hpart.cap

/-! ## The stream -/

/-- **The stream is delivered.** -/
structure RxStream.Delivers (st : RxStream) : Prop where
  exposed : st.exposed = st.inserted.take st.returned
  returned : st.returned ≤ st.inserted.length
  cacheLen : st.cache.cacheLen.toNat = st.inserted.length - st.returned
  /-- What the next call returns: at most what is asked for, exactly what it
  shows, and nothing only if nothing is cached. -/
  next : ∀ cutSize, 0 < cutSize → st.cache.CutFits cutSize →
    (st.cache.cutAndInsertAfter cutSize).rxTotalLen ≤ cutSize
      ∧ (st.cache.cutAndInsertAfter cutSize).rxTotalLen.toNat
        = ((st.cache.cutAndInsertAfter cutSize).linked.flatMap Block.shown).length
      ∧ ((st.cache.cutAndInsertAfter cutSize).rxTotalLen = 0 → st.cache.cacheLen = 0)

/-- The cache has what has been inserted and not returned. -/
structure RxStream.Inv (st : RxStream) : Prop where
  exposed : st.exposed = st.inserted.take st.returned
  returned : st.returned ≤ st.inserted.length
  holds : st.cache.Holds (st.inserted.drop st.returned)

theorem rxStep_inv {st st' : RxStream} {a : RxAction} (h : st.Inv) (ha : a.Fits st)
    (hstep : rxStep st a = some st') : st'.Inv := by
  cases a with
  | insert data =>
    obtain ⟨⟨hpos, hlt⟩, rfl⟩ := guard_eq_some.mp hstep
    refine ⟨?_, ?_, ?_⟩
    · exact h.exposed.trans (take_append_of_le_length h.returned).symm
    · exact Nat.le_trans h.returned (length_append ▸ Nat.le_add_right ..)
    · rw [drop_append_of_le_length h.returned]
      exact h.holds.insert hpos hlt ha
  | cutAndInsertAfter cutSize =>
    obtain ⟨hcut, rfl⟩ := guard_eq_some.mp hstep
    have hspec := h.holds.cutAndInsertAfter hcut ha
    refine ⟨?_, ?_, ?_⟩
    · rw [h.exposed, hspec.shown, ← take_add]
    · have hcounted := hspec.counted
      rw [length_drop] at hcounted
      have hreturned := h.returned
      show st.returned + _ ≤ st.inserted.length
      omega
    · have hholds := hspec.holds
      rw [drop_drop] at hholds
      exact hholds

theorem RxStream.Inv.delivers {st : RxStream} (h : st.Inv) : st.Delivers where
  __ := h
  cacheLen := by rw [h.holds.cacheLen, length_drop]
  next cutSize hcut hfits := by
    have hspec := h.holds.cutAndInsertAfter hcut hfits
    refine ⟨hspec.le, ?_, fun hzero => ?_⟩
    · rw [hspec.shown, length_take, Nat.min_eq_left hspec.counted]
    · have hnil : st.inserted.drop st.returned = [] := by
        by_contra hne
        exact UInt32.lt_irrefl 0 (hzero ▸ hspec.pos hne)
      have hlen := h.holds.cacheLen
      rw [hnil] at hlen
      exact UInt64.toNat_inj.mp hlen

/-- **In every run whose calls fit, the caller is shown what has been
inserted, in order, up to the sum of the values returned.** -/
theorem delivers_rxRun (xs : List RxAction) (st : RxStream)
    (hfits : Machine.Along rxStep (fun st a => a.Fits st) {} xs) (hrun : rxRun xs = some st) :
    st.Delivers :=
  have hinit : RxStream.Inv {} := ⟨rfl, Nat.le_refl 0, rfl, rfl, nofun, nofun⟩
  (run_invariant_along (fun _ _ _ hinv ha => rxStep_inv hinv ha) hinit hfits hrun).delivers

/-- A block in three pieces, the last one together with another block. -/
theorem delivers_rxRun_pieces :
    ∃ st, rxRun [.insert [1, 2, 3, 4, 5], .cutAndInsertAfter 2, .insert [6, 7],
        .cutAndInsertAfter 1, .cutAndInsertAfter 8] = some st
      ∧ st.Delivers ∧ st.returned = 7 :=
  ⟨_, rfl, delivers_rxRun [.insert [1, 2, 3, 4, 5], .cutAndInsertAfter 2, .insert [6, 7],
    .cutAndInsertAfter 1, .cutAndInsertAfter 8] _ (by decide) rfl, rfl⟩

/-- **A call that asks for exactly what is left of the partial block hands the
next block over and does not count it.** The stream says that three bytes are
still cached, and the cache has none. -/
theorem exists_run_uncounted :
    ∃ st, rxRun [.insert [1, 2, 3, 4, 5], .cutAndInsertAfter 2, .insert [6, 7, 8],
        .cutAndInsertAfter 3] = some st
      ∧ st.returned = 5 ∧ st.exposed = [1, 2, 3, 4, 5, 6, 7, 8]
      ∧ st.cache.cacheLen = 3 ∧ st.cache.blocks.length = 0
      ∧ (st.cache.cutAndInsertAfter 3).rxTotalLen = 0 :=
  ⟨_, rfl, rfl, rfl, rfl, rfl, rfl⟩

end Brpc
