import UbsComm.Lib.Execution

/-!
# The page table of memory regions

Which region an address is in is looked up in a radix tree with directories
of sixteen entries: an entry at *shift* `s` is for the `2 ^ s` addresses that
agree above their lowest `s` bits, and is empty, the directory of the entries
at shift `s - 4`, or a page of a region. A region is cut into pages from its
start on, each as large as the alignment of its address and what is left of
the region allow.

The table does not begin at the full address space. It has the root of the
smallest subtree that has all pages, with the shift of the root and the bits
of the addresses above it; to insert a page may put directories above the
root, and to remove one may take them away.
-/

namespace Common

open Function

/-- A region, with the place that it is known by. -/
structure PgtRegion where
  ptr : UInt64
  start : UInt64
  endAddr : UInt64
deriving DecidableEq

/-- The results of the operations. -/
inductive NResult where
  | ok
  | error
  | invalidParam
deriving DecidableEq

/-! ## Constants -/

/-- `PAGE_SHIFT_MIN` -/
def pageShiftMin : ℕ := 4

/-- `PGT_ADDR_ORDER_MAX` -/
def pgtAddrOrderMax : ℕ := 64

/-- `PTE_SHIFT_PER_DIR` -/
def pteShiftPerDir : ℕ := 4

/-- `PTE_INDEX_MASK` -/
def pteIndexMask : ℕ := 15

/-! ## Entries -/

/-- An entry: nothing, a region, or a directory with its number of present
entries. -/
inductive PgtEntry where
  | absent
  | region (region : PgtRegion)
  | dir (count : ℕ) (entries : Fin 16 → PgtEntry)

/-- `IsPresent` -/
def PgtEntry.isPresent : PgtEntry → Bool
  | .absent => false
  | _ => true

/-- `HasFlag` for the flag of a region. -/
def PgtEntry.isRegion : PgtEntry → Bool
  | .region _ => true
  | _ => false

/-- The directory of an entry, which is made if there is none. -/
def PgtEntry.getDir : PgtEntry → ℕ × (Fin 16 → PgtEntry)
  | .dir count entries => (count, entries)
  | _ => (0, fun _ => .absent)

/-- Where in a directory whose entries are at `shift` an address is. -/
def pteIndex (address shift : ℕ) : Fin 16 := Fin.ofNat 16 ((address >>> shift) &&& pteIndexMask)

/-! ## The root -/

/-- `PgTable`: the root and the block it is for. -/
structure PgTable where
  rootEntry : PgtEntry := .absent
  virBaseAddr : ℕ := 0
  spaceMask : ℕ := (2 ^ 64 - 1) <<< pageShiftMin % 2 ^ 64
  indexShift : ℕ := pageShiftMin

namespace PgTable

/-- One level more, if there are not all; directories can always be had. -/
def pgtExpand (t : PgTable) : Option PgTable :=
  if t.indexShift > pgtAddrOrderMax - pteShiftPerDir then none
  else
    some
      { rootEntry :=
          if t.rootEntry.isPresent then
            .dir 1 (update (fun _ => .absent) (pteIndex t.virBaseAddr t.indexShift) t.rootEntry)
          else t.rootEntry
        virBaseAddr := t.virBaseAddr &&& t.spaceMask <<< pteShiftPerDir % 2 ^ 64
        spaceMask := t.spaceMask <<< pteShiftPerDir % 2 ^ 64
        indexShift := t.indexShift + pteShiftPerDir }

theorem pgtExpand_indexShift {t t' : PgTable} (h : t.pgtExpand = some t') :
    t.indexShift ≤ 60 ∧ t'.indexShift = t.indexShift + 4 := by
  obtain ⟨hle, h⟩ := Option.ite_none_left_eq_some.mp h
  exact ⟨Nat.le_of_not_lt hle, by rw [← Option.some.inj h]; rfl⟩

/-- `while (!done) { if (!PgtExpand()) return; }`. -/
def expandUntil (done : PgTable → Bool) (t : PgTable) : PgTable :=
  if done t then t
  else
    match _h : t.pgtExpand with
    | none => t
    | some t' => expandUntil done t'
termination_by 64 - t.indexShift
decreasing_by
  obtain ⟨hle, heq⟩ := pgtExpand_indexShift _h
  omega

/-- `PgtEnsureCapacity` -/
def pgtEnsureCapacity (t : PgTable) (order address : ℕ) : PgTable :=
  let t := expandUntil (fun t => ¬t.indexShift < order) t
  if t.indexShift < order then t
  else if ¬t.rootEntry.isPresent then
    { t with virBaseAddr := address &&& t.spaceMask }
  else expandUntil (fun t => address &&& t.spaceMask = t.virBaseAddr) t

/-- `PgtShrink`, with what it returns. -/
def pgtShrink (t : PgTable) : Bool × PgTable :=
  match t.rootEntry with
  | .absent => (false, {})
  | .region _ => (false, t)
  | .dir count entries =>
    if count ≠ 1 then (false, t)
    else
      match (List.finRange 16).find? (fun i => (entries i).isPresent) with
      | none => (false, t)
      | some idx =>
        if t.indexShift < pteShiftPerDir then (false, t)
        else
          (true,
            { rootEntry := entries idx
              virBaseAddr := t.virBaseAddr ||| idx.val <<< (t.indexShift - pteShiftPerDir)
              spaceMask := t.spaceMask ||| pteIndexMask <<< (t.indexShift - pteShiftPerDir)
              indexShift := t.indexShift - pteShiftPerDir })

theorem pgtShrink_indexShift {t t' : PgTable} (h : t.pgtShrink = (true, t')) :
    4 ≤ t.indexShift ∧ t'.indexShift = t.indexShift - 4 := by
  unfold pgtShrink at h
  repeat' split at h
  all_goals cases h
  rename_i hle
  exact ⟨Nat.le_of_not_lt hle, rfl⟩

/-- `while (PgtShrink()) {}`. -/
def shrinkAll (t : PgTable) : PgTable :=
  match _h : t.pgtShrink with
  | (false, t') => t'
  | (true, t') => shrinkAll t'
termination_by t.indexShift
decreasing_by
  obtain ⟨hle, heq⟩ := pgtShrink_indexShift _h
  omega

end PgTable

/-! ## Pages -/

/-- `IsAddrAligned` -/
def isAddrAligned (addr : ℕ) : Bool := addr &&& (2 ^ pageShiftMin - 1) = 0

/-- The position of the highest bit that is set. -/
def highestBitPosition (n : ℕ) : ℕ := n.log2

/-- The position of the lowest bit that is set. -/
def lowestBitPosition (n : ℕ) : ℕ := ((List.range 64).find? n.testBit).getD 0

/-- `ValidatePage` -/
def validatePage (address order : ℕ) : Bool :=
  address &&& (2 ^ order - 1) = 0 ∧ (order + 2 ^ 32 - pageShiftMin) % 2 ^ 32 % pteShiftPerDir = 0

/-- `GetNextPageOrder` -/
def getNextPageOrder (start endAddr : ℕ) : Option ℕ :=
  if ¬isAddrAligned start ∨ ¬isAddrAligned endAddr then none
  else
    let maxOrder :=
      if endAddr = 0 ∧ start = 0 then pgtAddrOrderMax
      else if endAddr = start then pageShiftMin
      else if start ≠ 0 then min (lowestBitPosition start) (highestBitPosition (endAddr - start))
      else highestBitPosition (endAddr - start)
    if maxOrder < pageShiftMin ∨ maxOrder > pgtAddrOrderMax then none
    else some ((maxOrder - pageShiftMin) / pteShiftPerDir * pteShiftPerDir + pageShiftMin)

/-- The loop of `InsertPage` from an entry on, and what becomes of it. -/
def insertEntry (address order : ℕ) (region : PgtRegion) (shift : ℕ) (entry : PgtEntry) :
    Bool × PgtEntry :=
  if order = shift then if entry.isPresent then (false, entry) else (true, .region region)
  else if entry.isRegion ∨ shift < pteShiftPerDir + order then (false, entry)
  else
    let index := pteIndex address (shift - pteShiftPerDir)
    let old := entry.getDir.2 index
    let new := insertEntry address order region (shift - pteShiftPerDir) old
    -- an entry that was not there is counted when it is
    (new.1, .dir (entry.getDir.1 + if ¬old.isPresent ∧ new.2.isPresent then 1 else 0)
      (update entry.getDir.2 index new.2))
termination_by shift
decreasing_by
  rename_i h
  have hle := Nat.le_of_not_lt (not_or.mp h).2
  unfold pteShiftPerDir at hle ⊢
  omega

/-- `UnlinkRegion` -/
def unlinkRegion (address order : ℕ) (region : PgtRegion) (shift : ℕ) :
    PgtEntry → Bool × PgtEntry
  | .absent => (false, .absent)
  | .region r =>
    if shift ≠ order then (false, .region r)
    else if r ≠ region then (false, .region r)
    else (true, .absent)
  | .dir count entries =>
    let nextShift := shift - pteShiftPerDir
    let index := pteIndex address nextShift
    let new := unlinkRegion address order region nextShift (entries index)
    if ¬new.1 then (false, .dir count entries)
    else
      let count := if new.2.isPresent then count else count - 1
      (true, if count = 0 then .absent else .dir count (update entries index new.2))

/-- The loop of `Lookup`. -/
def lookupEntry (address : ℕ) : ℕ → PgtEntry → Option PgtRegion
  | _, .absent => none
  | _, .region region =>
    if address < region.start.toNat ∨ address ≥ region.endAddr.toNat then none
    else some region
  | shift, .dir _ entries =>
    lookupEntry address (shift - pteShiftPerDir)
      (entries (pteIndex address (shift - pteShiftPerDir)))

namespace PgTable

/-- `InsertPage` -/
def insertPage (t : PgTable) (address order : ℕ) (region : PgtRegion) : NResult × PgTable :=
  if ¬validatePage address order then (.invalidParam, t)
  else
    let t := t.pgtEnsureCapacity order address
    let new := insertEntry address order region t.indexShift t.rootEntry
    let t := { t with rootEntry := new.2 }
    if new.1 then (.ok, t) else (.error, t.shrinkAll)

/-- `RemovePage` -/
def removePage (t : PgTable) (address order : ℕ) (region : PgtRegion) : NResult × PgTable :=
  if ¬validatePage address order then (.invalidParam, t)
  else if address &&& t.spaceMask ≠ t.virBaseAddr then (.error, t)
  else
    let new := unlinkRegion address order region t.indexShift t.rootEntry
    if ¬new.1 then (.error, t)
    else (.ok, { t with rootEntry := new.2 }.shrinkAll)

/-! ## Regions -/

/-- The loop of `Insert`, with the address it has come to. -/
def insertPages (region : PgtRegion) (t : PgTable) (address : ℕ) : Bool × ℕ × PgTable :=
  if address < region.endAddr.toNat then
    match getNextPageOrder address region.endAddr.toNat with
    | none => (false, address, t)
    | some order =>
      if order ≥ 64 then (false, address, t)
      else
        let new := t.insertPage address order region
        if new.1 ≠ .ok then (false, address, new.2)
        else insertPages region new.2 (address + 2 ^ order)
  else (true, address, t)
termination_by region.endAddr.toNat - address
decreasing_by exact Nat.sub_lt_sub_left ‹_› (Nat.lt_add_of_pos_right (Nat.two_pow_pos _))

/-- The loop after `ROLLBACK`. -/
def rollback (region : PgtRegion) (endAddr : ℕ) (t : PgTable) (address : ℕ) : PgTable :=
  if address < endAddr then
    match getNextPageOrder address endAddr with
    | none => t
    | some order =>
      rollback region endAddr (t.removePage address order region).2 (address + 2 ^ order)
  else t
termination_by endAddr - address
decreasing_by exact Nat.sub_lt_sub_left ‹_› (Nat.lt_add_of_pos_right (Nat.two_pow_pos _))

/-- `Insert` -/
def insert (t : PgTable) (region : PgtRegion) : NResult × PgTable :=
  if region.start ≥ region.endAddr ∨ ¬isAddrAligned region.start.toNat
      ∨ ¬isAddrAligned region.endAddr.toNat then (.invalidParam, t)
  else
    let new := insertPages region t region.start.toNat
    if new.1 then (.ok, new.2.2)
    else (.error, rollback region new.2.1 new.2.2 region.start.toNat)

/-- The loop of `Remove`. -/
def removePages (region : PgtRegion) (t : PgTable) (address : ℕ) : NResult × PgTable :=
  if address < region.endAddr.toNat then
    match getNextPageOrder address region.endAddr.toNat with
    | none => (.error, t)
    | some order =>
      if order ≥ 64 then (.error, t)
      else
        let new := t.removePage address order region
        if new.1 ≠ .ok then (if address ≠ region.start.toNat then .error else new.1, new.2)
        else removePages region new.2 (address + 2 ^ order)
  else (.ok, t)
termination_by region.endAddr.toNat - address
decreasing_by exact Nat.sub_lt_sub_left ‹_› (Nat.lt_add_of_pos_right (Nat.two_pow_pos _))

/-- `Remove` -/
def remove (t : PgTable) (region : PgtRegion) : NResult × PgTable :=
  if region.start ≥ region.endAddr ∨ ¬isAddrAligned region.start.toNat
      ∨ ¬isAddrAligned region.endAddr.toNat then (.error, t)
  else removePages region t region.start.toNat

/-- `Lookup` -/
def lookup (t : PgTable) (address : UInt64) : Option PgtRegion :=
  if address.toNat &&& t.spaceMask ≠ t.virBaseAddr then none
  else lookupEntry address.toNat t.indexShift t.rootEntry

end PgTable

end Common
