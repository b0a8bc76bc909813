import UbsComm.Common.PgTableRoot

/-!
# Lookups in a page table are exact

A region is cut into pages from its start on, each the largest that its
address and the end allow (`IsNext`). The cut is determined by the two, so
the order of the page of an address is a function of the address
(`orderAt`); and it is the same if the region ended at the address that the
loop has come to (`Reached.orderAt_eq`), which is how far `Insert` takes back
what it has done.

A table stands for a list of regions if each is mapped by its pages and
nothing else is (`Represents`). The operations keep that, whatever they are
called with: the regions that were inserted and not removed since are those
that are found, an insertion succeeds exactly if the region is aligned, is
not empty and overlaps none of them, and a removal exactly if the region is
one of them.
-/

namespace Common

open Block List PgTable Nat Option

/-! ## The next page -/

variable {x : ℕ}

theorem isAddrAligned_iff : isAddrAligned x = true ↔ 16 ∣ x := by
  unfold isAddrAligned pageShiftMin
  rw [decide_eq_true_iff, and_two_pow_sub_one_eq_mod]
  exact (dvd_iff_mod_eq_zero).symm

variable {o : ℕ}

/-- How a number is aligned is read off its bits. -/
theorem two_pow_dvd_iff_testBit {n : ℕ} : 2 ^ o ∣ n ↔ ∀ i < o, n.testBit i = false := by
  rw [dvd_iff_mod_eq_zero]
  constructor
  · intro h i hi
    have hbit := testBit_mod_two_pow n o i
    rw [h, zero_testBit, decide_eq_true hi] at hbit
    exact hbit.symm
  · intro h
    refine eq_of_testBit_eq fun i => ?_
    rw [testBit_mod_two_pow, zero_testBit]
    by_cases hi : i < o
    · rw [h i hi, Bool.and_false]
    · rw [decide_eq_false hi, Bool.false_and]

theorem le_lowestBitPosition_iff {n : ℕ} (hn : n ≠ 0) (hlt : n < 2 ^ 64) :
    o ≤ lowestBitPosition n ↔ 2 ^ o ∣ n := by
  rw [two_pow_dvd_iff_testBit]
  unfold lowestBitPosition
  cases hfind : (range 64).find? n.testBit with
  | none =>
    refine absurd (eq_of_testBit_eq fun i => ?_) hn
    rw [zero_testBit]
    by_cases hi : i < 64
    · exact Bool.eq_false_iff.mpr (find?_eq_none.mp hfind i (mem_range.mpr hi))
    · exact testBit_lt_two_pow (lt_of_lt_of_le hlt
        (Nat.pow_le_pow_right Nat.two_pos (Nat.le_of_not_lt hi)))
  | some p =>
    obtain ⟨hbit, -, hmin⟩ := find?_range_eq_some.mp hfind
    show o ≤ p ↔ _
    constructor
    · intro hle i hi
      exact (Bool.not_eq_true' _).mp (hmin i (hi.trans_le hle))
    · intro h
      refine Nat.le_of_not_lt fun hlt => ?_
      exact Bool.false_ne_true ((h p hlt).symm.trans hbit)

/-- A page is the next one of a range: it fits, and no larger one does. -/
structure IsNext (a e o : ℕ) : Prop where
  page : PgTable.IsPage a o
  fits : a + 2 ^ o ≤ e
  max : ∀ o', 4 ∣ o' → 2 ^ o' ∣ a → a + 2 ^ o' ≤ e → o' ≤ o

variable {a e f : ℕ}

theorem IsNext.unique {o' : ℕ} (h : IsNext a e o) (h' : IsNext a e o') : o = o' :=
  le_antisymm (h'.max o h.page.dvd h.page.aligned h.fits)
    (h.max o' h'.page.dvd h'.page.aligned h'.fits)

theorem le_maxOrder_iff (hlt : a < e) (he : e < 2 ^ 64) :
    o ≤ (if a ≠ 0 then min (lowestBitPosition a) (highestBitPosition (e - a))
      else highestBitPosition (e - a)) ↔ 2 ^ o ∣ a ∧ a + 2 ^ o ≤ e := by
  have hlog : o ≤ highestBitPosition (e - a) ↔ a + 2 ^ o ≤ e := by
    unfold highestBitPosition
    rw [le_log2 (sub_ne_zero_of_lt hlt), Nat.le_sub_iff_add_le' (hlt.le)]
  split_ifs with ha
  · rw [Nat.le_min, hlog, le_lowestBitPosition_iff ha (hlt.trans he)]
  · rw [hlog, not_not.mp ha]
    exact ⟨fun h => ⟨dvd_zero _, h⟩, fun h => h.2⟩

theorem getNextPageOrder_isNext (ha : 16 ∣ a) (he : 16 ∣ e) (hlt : a < e) (hmax : e < 2 ^ 64) :
    ∃ o, getNextPageOrder a e = some o ∧ IsNext a e o := by
  unfold getNextPageOrder
  have haligned : ¬(¬isAddrAligned a = true ∨ ¬isAddrAligned e = true) :=
    not_or.mpr ⟨not_not_intro (isAddrAligned_iff.mpr ha), not_not_intro (isAddrAligned_iff.mpr he)⟩
  have hall : ¬(e = 0 ∧ a = 0) := fun h => (zero_lt_of_lt hlt).ne' h.1
  simp only [haligned, hall, hlt.ne', if_false]
  have hle := fun o => le_maxOrder_iff (o := o) hlt hmax
  generalize (if a ≠ 0 then min (lowestBitPosition a) (highestBitPosition (e - a))
      else highestBitPosition (e - a)) = m at hle
  have hmin : 4 ≤ m := (hle 4).mpr ⟨ha, by omega⟩
  have hbound : m < 64 := by
    by_contra hge
    have hfits := ((hle 64).mp (Nat.le_of_not_lt hge)).2
    omega
  have hok : ¬(m < pageShiftMin ∨ m > pgtAddrOrderMax) := by
    unfold pageShiftMin pgtAddrOrderMax
    omega
  rw [if_neg hok]
  unfold pageShiftMin pteShiftPerDir
  obtain ⟨hdvd, hfits⟩ := (hle ((m - 4) / 4 * 4 + 4)).mp (by omega)
  refine ⟨_, rfl, ⟨by omega, by omega, by omega, hdvd, hlt.trans hmax⟩, hfits, ?_⟩
  intro o' hdvd' haligned' hfits'
  have := (hle o').mpr ⟨haligned', hfits'⟩
  omega

/-! ## The pages of a range -/

/-- The order of the page that an address is in, if a range from `a` to `e`
is cut into pages. -/
def orderAt (e a x : ℕ) : ℕ :=
  if a < e then
    match getNextPageOrder a e with
    | none => 0
    | some o => if x < a + 2 ^ o then o else orderAt e (a + 2 ^ o) x
  else 0
termination_by e - a
decreasing_by exact Nat.sub_lt_sub_left ‹_› (Nat.lt_add_of_pos_right (Nat.two_pow_pos _))

/-- A range, as the operations cut it. -/
structure IsRange (a e : ℕ) : Prop where
  start : 16 ∣ a
  finish : 16 ∣ e
  le : a ≤ e
  lt : e < 2 ^ 64

section

variable (h : IsRange a e)
include h

namespace IsRange

theorem next (hnext : IsNext a e o) : IsRange (a + 2 ^ o) e :=
  ⟨dvd_add h.start (dvd_trans (by decide : 16 ∣ 2 ^ 4)
    (pow_dvd_pow 2 hnext.page.le)), h.finish, hnext.fits, h.lt⟩

theorem getNextPageOrder_eq (hnext : IsNext a e o) : getNextPageOrder a e = some o := by
  have hlt : a < e := (Nat.lt_add_of_pos_right (Nat.two_pow_pos o)).trans_le hnext.fits
  obtain ⟨o', heq, hnext'⟩ := getNextPageOrder_isNext h.start h.finish hlt h.lt
  rw [heq, hnext.unique hnext']

theorem isNext (hlt : a < e) (heq : getNextPageOrder a e = some o) : IsNext a e o := by
  obtain ⟨o', heq', hnext⟩ := getNextPageOrder_isNext h.start h.finish hlt h.lt
  rw [heq, some.injEq] at heq'
  exact heq' ▸ hnext

theorem getNextPageOrder_ne_none (hlt : a < e) : getNextPageOrder a e ≠ none := by
  obtain ⟨o, heq, -⟩ := getNextPageOrder_isNext h.start h.finish hlt h.lt
  rw [heq]
  exact some_ne_none o

theorem orderAt_eq (hnext : IsNext a e o) (x : ℕ) :
    orderAt e a x = if x < a + 2 ^ o then o else orderAt e (a + 2 ^ o) x := by
  have hlt : a < e := (Nat.lt_add_of_pos_right (Nat.two_pow_pos o)).trans_le hnext.fits
  rw [orderAt, if_pos hlt, h.getNextPageOrder_eq hnext]

end IsRange

end

/-- An address that the cut of a range comes to. -/
inductive Reached (e : ℕ) : ℕ → ℕ → Prop
  | refl (a : ℕ) : Reached e a a
  | next {a o f : ℕ} (hnext : IsNext a e o) (h : Reached e (a + 2 ^ o) f) : Reached e a f

theorem Reached.le (h : Reached e a f) : a ≤ f := by
  induction h with
  | refl a => exact le_refl a
  | next hnext h ih => exact (le_add_right _ _).trans ih

theorem Reached.isRange (h : Reached e a f) (hrange : IsRange a e) : IsRange a f ∧ f ≤ e := by
  induction h with
  | refl a => exact ⟨⟨hrange.start, hrange.start, le_refl a,
      hrange.le.trans_lt hrange.lt⟩, hrange.le⟩
  | next hnext h ih =>
    obtain ⟨hrest, hle⟩ := ih (hrange.next hnext)
    exact ⟨⟨hrange.start, hrest.finish, (le_add_right _ _).trans hrest.le, hrest.lt⟩, hle⟩

/-- **Up to where the cut has come it is the cut of the shorter range.** -/
theorem Reached.orderAt_eq (h : Reached e a f) (hrange : IsRange a e) (ha : a ≤ x) (hx : x < f) :
    orderAt f a x = orderAt e a x := by
  induction h with
  | refl a => exact absurd hx (ha.not_gt)
  | @next a o f hnext h ih =>
    have hrest := hrange.next hnext
    obtain ⟨hshort, hle⟩ := (Reached.next hnext h).isRange hrange
    rw [hrange.orderAt_eq hnext, hshort.orderAt_eq ⟨hnext.page, h.le, fun o' hdvd haligned hfits =>
      hnext.max o' hdvd haligned (hfits.trans hle)⟩]
    split_ifs with hpage
    · rfl
    · exact ih hrest (Nat.le_of_not_lt hpage) hx

/-- An address is in the page, or in the rest of the range. -/
theorem IsNext.same_iff (h : IsNext a e o) :
    Same o a x ↔ a ≤ x ∧ x < a + 2 ^ o := same_iff_of_dvd h.page.aligned

/-! ## The loops -/

namespace PgTable

/-- **What the loop of `Insert` does**: it maps the range up to where it has
come, where there was nothing, and comes to the end if there is nothing. -/
structure InsertsPages (region : PgtRegion) (t : PgTable) (a : ℕ) (r : Bool × ℕ × PgTable) :
    Prop where
  wf : r.2.2.WF
  reached : Reached region.endAddr.toNat a r.2.1
  pageAt : ∀ x, r.2.2.pageAt x = if a ≤ x ∧ x < r.2.1 then
    some (orderAt region.endAddr.toNat a x, region) else t.pageAt x
  free : ∀ x, a ≤ x → x < r.2.1 → t.pageAt x = none
  ok : r.1 = true → r.2.1 = region.endAddr.toNat
  failed : r.1 = false → ∃ x, a ≤ x ∧ x < region.endAddr.toNat ∧ t.pageAt x ≠ none

variable {t : PgTable} {region : PgtRegion} {a : ℕ}

theorem insertPages_spec (region : PgtRegion) (h : t.WF) (hrange : IsRange a region.endAddr.toNat) :
    InsertsPages region t a (insertPages region t a) := by
  fun_induction insertPages region t a with
  | case1 t a hlt hnone => exact absurd hnone (hrange.getNextPageOrder_ne_none hlt)
  | case2 t a hlt o heq hge => exact absurd (hrange.isNext hlt heq).page.lt (hge.not_gt)
  | case3 t a hlt o heq hge new hfailed =>
    have hnext := hrange.isNext hlt heq
    have hpage : InsertsPage a o region t new := insertPage_spec h hnext.page
    have hnone : ∀ x, ¬(a ≤ x ∧ x < a) := fun x hx => hx.1.not_gt hx.2
    refine ⟨hpage.wf, .refl a, fun x => ?_, fun x ha hx => absurd ⟨ha, hx⟩ (hnone x),
      nofun, fun _ => ?_⟩
    · rw [hpage.pageAt, if_neg fun h => hfailed h.1, if_neg (hnone x)]
    · by_contra hfree
      refine hfailed (hpage.iff.mpr fun x hx => ?_)
      by_contra hsome
      have hin := hnext.same_iff.mp hx
      exact hfree ⟨x, hin.1, hin.2.trans_le hnext.fits, hsome⟩
  | case4 t a hlt o heq hge new hok ih =>
    have hnext := hrange.isNext hlt heq
    have hpage : InsertsPage a o region t new := insertPage_spec h hnext.page
    have hok := not_not.mp hok
    have hrest := ih hpage.wf (hrange.next hnext)
    generalize insertPages region new.2 (a + 2 ^ o) = r at hrest
    have hout : ∀ x, a + 2 ^ o ≤ x → new.2.pageAt x = t.pageAt x := fun x hx => by
      rw [hpage.pageAt, if_neg fun h => hx.not_gt (hnext.same_iff.mp h.2).2]
    refine ⟨hrest.wf, .next hnext hrest.reached, fun x => ?_, fun x ha hx => ?_, hrest.ok,
      fun hr => ?_⟩
    · have hle := hrest.reached.le
      have hpos := Nat.two_pow_pos o
      rw [hrest.pageAt, hpage.pageAt, hrange.orderAt_eq hnext]
      simp only [hok, true_and, hnext.same_iff]
      -- in the rest, in the page, or outside of both
      split_ifs <;> first | rfl | omega
    · by_cases hin : x < a + 2 ^ o
      · exact hpage.iff.mp hok x (hnext.same_iff.mpr ⟨ha, hin⟩)
      · have hle := Nat.le_of_not_lt hin
        exact (hout x hle).symm.trans (hrest.free x hle hx)
    · obtain ⟨x, hax, hxe, hsome⟩ := hrest.failed hr
      exact ⟨x, (le_add_right a _).trans hax, hxe, hout x hax ▸ hsome⟩
  | case5 t a hge =>
    have hend := le_antisymm hrange.le (Nat.le_of_not_lt hge)
    have hnone : ∀ x, ¬(a ≤ x ∧ x < a) := fun x hx => hx.1.not_gt hx.2
    exact ⟨h, .refl a, fun x => (if_neg (hnone x)).symm, fun x ha hx => absurd ⟨ha, hx⟩ (hnone x),
      fun _ => hend, nofun⟩

/-- A range of a table is mapped to a region by its pages. -/
def Mapped (region : PgtRegion) (t : PgTable) (a e : ℕ) : Prop :=
  ∀ x, a ≤ x → x < e → t.pageAt x = some (orderAt e a x, region)

/-- What unmapping a range does. -/
structure Unmaps (a e : ℕ) (t t' : PgTable) : Prop where
  wf : t'.WF
  pageAt : ∀ x, t'.pageAt x = if a ≤ x ∧ x < e then none else t.pageAt x

/-- The first page of a range that is mapped can be removed, and the rest of
the range is still mapped. -/
theorem Mapped.removePage {a e o : ℕ} (hmapped : Mapped region t a e) (h : t.WF)
    (hrange : IsRange a e) (hnext : IsNext a e o) :
    let r := t.removePage a o region
    r.1 = .ok ∧ Unmaps a (a + 2 ^ o) t r.2 ∧ Mapped region r.2 (a + 2 ^ o) e := by
  have hlt : a < a + 2 ^ o := Nat.lt_add_of_pos_right (Nat.two_pow_pos o)
  have hpage : RemovesPage a o region t (t.removePage a o region) := removePage_spec h hnext.page
  have hok : (t.removePage a o region).1 = .ok := by
    rw [hpage.iff, hmapped a le_rfl (hlt.trans_le hnext.fits), hrange.orderAt_eq hnext, if_pos hlt]
  refine ⟨hok, ⟨hpage.wf, fun x => ?_⟩, fun x ha hx => ?_⟩
  · rw [hpage.pageAt]
    simp only [hok, true_and, hnext.same_iff]
  · rw [hpage.pageAt, if_neg fun h => ha.not_gt (hnext.same_iff.mp h.2).2,
      hmapped x ((le_add_right a _).trans ha) hx, hrange.orderAt_eq hnext,
      if_neg (ha.not_gt)]

theorem Unmaps.append {a b e : ℕ} {t' t'' : PgTable} (hab : a ≤ b) (hbe : b ≤ e)
    (h : Unmaps a b t t') (h' : Unmaps b e t' t'') : Unmaps a e t t'' := by
  refine ⟨h'.wf, fun x => ?_⟩
  rw [h'.pageAt, h.pageAt]
  split_ifs with h₁ h₂ h₃ h₄ h₅ <;> first | rfl | omega

theorem unmaps_self (h : t.WF) : Unmaps a a t t :=
  ⟨h, fun _ => (if_neg fun hx => hx.1.not_gt hx.2).symm⟩

theorem removePages_spec (h : t.WF) (hrange : IsRange a region.endAddr.toNat)
    (hmapped : Mapped region t a region.endAddr.toNat) :
    (removePages region t a).1 = .ok
      ∧ Unmaps a region.endAddr.toNat t (removePages region t a).2 := by
  fun_induction removePages region t a with
  | case1 t a hlt hnone => exact absurd hnone (hrange.getNextPageOrder_ne_none hlt)
  | case2 t a hlt o heq hge => exact absurd (hrange.isNext hlt heq).page.lt (hge.not_gt)
  | case3 t a hlt o heq hge new hfailed =>
    exact absurd (hmapped.removePage h hrange (hrange.isNext hlt heq)).1 hfailed
  | case4 t a hlt o heq hge new hok ih =>
    have hnext := hrange.isNext hlt heq
    obtain ⟨-, hunmaps, hrest⟩ := hmapped.removePage h hrange hnext
    obtain ⟨hok, hunmaps'⟩ := ih hunmaps.wf (hrange.next hnext) hrest
    exact ⟨hok, hunmaps.append (le_add_right a _) hnext.fits hunmaps'⟩
  | case5 t a hge =>
    rw [le_antisymm hrange.le (Nat.le_of_not_lt hge)]
    exact ⟨rfl, unmaps_self h⟩

theorem rollback_spec {e : ℕ} (h : t.WF) (hrange : IsRange a e)
    (hmapped : Mapped region t a e) : Unmaps a e t (rollback region e t a) := by
  fun_induction rollback region e t a with
  | case1 t a hlt hnone => exact absurd hnone (hrange.getNextPageOrder_ne_none hlt)
  | case2 t a hlt o heq ih =>
    have hnext := hrange.isNext hlt heq
    obtain ⟨-, hunmaps, hrest⟩ := hmapped.removePage h hrange hnext
    exact hunmaps.append (le_add_right a _) hnext.fits (ih hunmaps.wf (hrange.next hnext) hrest)
  | case3 t a hge =>
    rw [le_antisymm hrange.le (Nat.le_of_not_lt hge)]
    exact unmaps_self h

end PgTable

/-! ## Regions -/

namespace PgtRegion

/-- A region that can be in a table: it is not empty, and its bounds are
multiples of the smallest page. -/
structure Valid (r : PgtRegion) : Prop where
  lt : r.start.toNat < r.endAddr.toNat
  start : 16 ∣ r.start.toNat
  finish : 16 ∣ r.endAddr.toNat

/-- A region has an address. -/
def Contains (r : PgtRegion) (x : ℕ) : Prop := r.start.toNat ≤ x ∧ x < r.endAddr.toNat

/-- Two regions have an address in common. -/
def Overlaps (r q : PgtRegion) : Prop := ∃ x, r.Contains x ∧ q.Contains x

theorem Valid.isRange {r : PgtRegion} (h : r.Valid) : IsRange r.start.toNat r.endAddr.toNat :=
  ⟨h.start, h.finish, h.lt.le, r.endAddr.toNat_lt⟩

theorem valid_iff (r : PgtRegion) :
    ¬(r.start ≥ r.endAddr ∨ ¬isAddrAligned r.start.toNat ∨ ¬isAddrAligned r.endAddr.toNat)
      ↔ r.Valid := by
  rw [not_or, not_or, not_not, not_not, isAddrAligned_iff, isAddrAligned_iff, ge_iff_le,
    UInt64.le_iff_toNat_le, not_le]
  exact ⟨fun h => ⟨h.1, h.2.1, h.2.2⟩, fun h => ⟨h.lt, h.start, h.finish⟩⟩

end PgtRegion

/-- **A table stands for a list of regions**: each of them is mapped, and
nothing else is. -/
structure Represents (t : PgTable) (regions : List PgtRegion) : Prop where
  wf : t.WF
  valid : ∀ r ∈ regions, r.Valid
  mapped : ∀ r ∈ regions, PgTable.Mapped r t r.start.toNat r.endAddr.toNat
  only : ∀ x o r, t.pageAt x = some (o, r) → r ∈ regions ∧ r.Contains x

namespace Represents

variable {t t' : PgTable} {regions : List PgtRegion} {r : PgtRegion}

section

variable (h : Represents t regions)
include h

theorem pageAt_eq_none_iff {x : ℕ} : t.pageAt x = none ↔ ∀ r ∈ regions, ¬r.Contains x := by
  constructor
  · intro hnone r hr hx
    exact some_ne_none _ ((h.mapped r hr x hx.1 hx.2).symm.trans hnone)
  · intro hall
    cases hpage : t.pageAt x with
    | none => rfl
    | some page =>
      obtain ⟨hr, hx⟩ := h.only x page.1 page.2 hpage
      exact absurd hx (hall page.2 hr)

theorem lookup_iff (a : UInt64) (r : PgtRegion) :
    t.lookup a = some r ↔ r ∈ regions ∧ r.Contains a.toNat := by
  rw [lookup_eq h.wf]
  constructor
  · intro hlookup
    obtain ⟨page, hpage, hr⟩ := bind_eq_some_iff.mp hlookup
    obtain ⟨-, hr⟩ := ite_none_left_eq_some.mp hr
    rw [← some.inj hr]
    exact h.only _ page.1 page.2 hpage
  · rintro ⟨hr, hx⟩
    rw [h.mapped r hr a.toNat hx.1 hx.2]
    exact if_neg (not_or.mpr ⟨hx.1.not_gt, hx.2.not_ge⟩)

/-- The list with a region more, which has no address with another. -/
theorem cons (hr : r.Valid) (hfree : ∀ q ∈ regions, ¬r.Overlaps q)
    (hwf : t'.WF) (hpageAt : ∀ x, t'.pageAt x = if r.start.toNat ≤ x ∧ x < r.endAddr.toNat then
      some (orderAt r.endAddr.toNat r.start.toNat x, r) else t.pageAt x) :
    Represents t' (r :: regions) where
  wf := hwf
  valid := forall_mem_cons.mpr ⟨hr, h.valid⟩
  mapped := by
    refine forall_mem_cons.mpr ⟨fun x ha hx => ?_, fun q hq x ha hx => ?_⟩
    · rw [hpageAt, if_pos ⟨ha, hx⟩]
    · have hout : ¬(r.start.toNat ≤ x ∧ x < r.endAddr.toNat) := fun hin =>
        hfree q hq ⟨x, hin, ha, hx⟩
      rw [hpageAt, if_neg hout]
      exact h.mapped q hq x ha hx
  only x o q hpage := by
    rw [hpageAt] at hpage
    split_ifs at hpage with hin
    · have hq : r = q := congrArg Prod.snd (some.inj hpage)
      exact hq ▸ ⟨mem_cons_self, hin⟩
    · obtain ⟨hq, hx⟩ := h.only x o q hpage
      exact ⟨mem_cons_of_mem r hq, hx⟩

/-- The list without a region. -/
theorem filter (hr : r ∈ regions) (hunmaps : PgTable.Unmaps r.start.toNat r.endAddr.toNat t t') :
    Represents t' (regions.filter (· ≠ r)) where
  wf := hunmaps.wf
  valid q hq := h.valid q (mem_of_mem_filter hq)
  mapped q hq x ha hx := by
    have hmem := mem_of_mem_filter hq
    have hne : q ≠ r := of_decide_eq_true (mem_filter.mp hq).2
    rw [hunmaps.pageAt, if_neg fun hin => ?_]
    · exact h.mapped q hmem x ha hx
    · -- the two would be mapped at the same address
      have heq := (h.mapped q hmem x ha hx).symm.trans (h.mapped r hr x hin.1 hin.2)
      exact hne (congrArg Prod.snd (some.inj heq))
  only x o q hpage := by
    rw [hunmaps.pageAt] at hpage
    obtain ⟨hin, hpage⟩ := ite_none_left_eq_some.mp hpage
    obtain ⟨hq, hx⟩ := h.only x o q hpage
    exact ⟨mem_filter.mpr ⟨hq, decide_eq_true fun heq => hin (heq ▸ hx)⟩, hx⟩

theorem congr (hkeeps : PgTable.Keeps t t') : Represents t' regions where
  wf := hkeeps.wf
  valid := h.valid
  mapped r hr x ha hx := (hkeeps.pageAt x).trans (h.mapped r hr x ha hx)
  only x o r hpage := h.only x o r ((hkeeps.pageAt x).symm.trans hpage)

theorem insert_spec (r : PgtRegion) :
    ((t.insert r).1 = .ok ↔ r.Valid ∧ ∀ q ∈ regions, ¬r.Overlaps q) ∧ Represents (t.insert r).2
        (if (t.insert r).1 = .ok then r :: regions else regions) := by
  unfold PgTable.insert
  split
  case isTrue hcheck => exact ⟨⟨nofun, fun hr => absurd hcheck (r.valid_iff.mpr hr.1)⟩, h⟩
  case isFalse hcheck =>
    have hvalid := r.valid_iff.mp hcheck
    have hinserts := PgTable.insertPages_spec r h.wf hvalid.isRange
    generalize PgTable.insertPages r t r.start.toNat = new at hinserts
    by_cases hr : new.1 = true
    · rw [if_pos hr]
      have hend := hinserts.ok hr
      have hfree : ∀ q ∈ regions, ¬r.Overlaps q := by
        rintro q hq ⟨x, hx, hqx⟩
        have hnone := hinserts.free x hx.1 (hend ▸ hx.2)
        exact h.pageAt_eq_none_iff.mp hnone q hq hqx
      refine ⟨⟨fun _ => ⟨hvalid, hfree⟩, fun _ => rfl⟩, ?_⟩
      exact h.cons hvalid hfree hinserts.wf (hend ▸ hinserts.pageAt)
    · rw [if_neg hr]
      obtain ⟨hshort, hle⟩ := hinserts.reached.isRange hvalid.isRange
      have hmapped : PgTable.Mapped r new.2.2 r.start.toNat new.2.1 := fun x ha hx => by
        rw [hinserts.pageAt, if_pos ⟨ha, hx⟩, hinserts.reached.orderAt_eq hvalid.isRange ha hx]
      have hunmaps := PgTable.rollback_spec hinserts.wf hshort hmapped
      refine ⟨⟨nofun, fun hfree => ?_⟩, h.congr ⟨hunmaps.wf, fun x => ?_⟩⟩
      · obtain ⟨x, ha, hx, hsome⟩ := hinserts.failed (Bool.eq_false_iff.mpr hr)
        refine absurd (h.pageAt_eq_none_iff.mpr fun q hq hqx => ?_) hsome
        exact hfree.2 q hq ⟨x, ⟨ha, hx⟩, hqx⟩
      · -- what was mapped is unmapped, and there was nothing before
        show (PgTable.rollback r new.2.1 new.2.2 r.start.toNat).pageAt x = _
        rw [hunmaps.pageAt, hinserts.pageAt]
        split_ifs with hin
        · rw [hinserts.free x hin.1 hin.2]
        · rfl

theorem removePages_failed (hr : r.Valid) (hmem : r ∉ regions) :
    (removePages r t r.start.toNat).1 ≠ .ok
      ∧ PgTable.Keeps t (removePages r t r.start.toNat).2 := by
  obtain ⟨o, heq, hnext⟩ := getNextPageOrder_isNext hr.start hr.finish hr.lt r.endAddr.toNat_lt
  have hpage : PgTable.RemovesPage r.start.toNat o r t (t.removePage r.start.toNat o r) :=
    removePage_spec h.wf hnext.page
  have hfailed : (t.removePage r.start.toNat o r).1 ≠ .ok := fun hok =>
    hmem (h.only _ o r (hpage.iff.mp hok)).1
  rw [removePages, if_pos hr.lt, heq]
  dsimp only
  rw [if_neg (hnext.page.lt.not_ge), if_pos hfailed, if_neg (not_not_intro rfl)]
  exact ⟨hfailed, hpage.wf, fun x => by rw [hpage.pageAt, if_neg fun h => hfailed h.1]⟩

theorem remove_spec (r : PgtRegion) :
    ((t.remove r).1 = .ok ↔ r ∈ regions) ∧ Represents (t.remove r).2
        (if (t.remove r).1 = .ok then regions.filter (· ≠ r) else regions) := by
  unfold remove
  split
  case isTrue hcheck => exact ⟨⟨nofun, fun hr => absurd hcheck (r.valid_iff.mpr (h.valid r hr))⟩, h⟩
  case isFalse hcheck =>
    have hvalid := r.valid_iff.mp hcheck
    by_cases hmem : r ∈ regions
    · obtain ⟨hok, hunmaps⟩ := removePages_spec h.wf hvalid.isRange (h.mapped r hmem)
      rw [if_pos hok]
      exact ⟨⟨fun _ => hmem, fun _ => hok⟩, h.filter hmem hunmaps⟩
    · obtain ⟨hfailed, hkeeps⟩ := h.removePages_failed hvalid hmem
      rw [if_neg hfailed]
      exact ⟨⟨fun hok => absurd hok hfailed, fun hr => absurd hr hmem⟩, h.congr hkeeps⟩

end

end Represents

/-! ## Runs -/

/-- A table; for the record, with the regions whose insertion has succeeded
and whose removal has not since. -/
structure PgtState where
  table : PgTable := {}
  regions : List PgtRegion := []

/-- What happens to the table. -/
inductive PgtAction where
  | insert (region : PgtRegion)
  | remove (region : PgtRegion)

/-- One operation; a failed one does not change the regions. -/
def pgtStep (st : PgtState) : PgtAction → PgtState
  | .insert region =>
    { table := (st.table.insert region).2
      regions := if (st.table.insert region).1 = .ok then region :: st.regions
        else st.regions }
  | .remove region =>
    { table := (st.table.remove region).2
      regions := if (st.table.remove region).1 = .ok then st.regions.filter (· ≠ region)
        else st.regions }

/-- Operations on an empty table. -/
def pgtRun (xs : List PgtAction) : PgtState := xs.foldl pgtStep {}

theorem pgtStep_represents {st : PgtState} (h : Represents st.table st.regions)
    (x : PgtAction) : Represents (pgtStep st x).table (pgtStep st x).regions := by
  cases x with
  | insert region => exact (h.insert_spec region).2
  | remove region => exact (h.remove_spec region).2

theorem represents_empty : Represents {} [] where
  wf := wf_empty
  valid := nofun
  mapped := nofun
  only x _ _ hpage := absurd ((pageAt_of_absent rfl x).symm.trans hpage) (some_ne_none _).symm

theorem pgtRun_represents (xs : List PgtAction) :
    Represents (pgtRun xs).table (pgtRun xs).regions :=
  foldlRecOn (motive := fun st => Represents st.table st.regions)
    xs pgtStep represents_empty fun _ h x _ => pgtStep_represents h x

/-- What a table answers is what its list of regions says. -/
structure Exact (st : PgtState) : Prop where
  lookup : ∀ (a : UInt64) (r : PgtRegion), st.table.lookup a = some r
    ↔ r ∈ st.regions ∧ r.Contains a.toNat
  insert : ∀ r : PgtRegion, (st.table.insert r).1 = .ok ↔ r.Valid ∧ ∀ q ∈ st.regions, ¬r.Overlaps q
  remove : ∀ r : PgtRegion, (st.table.remove r).1 = .ok ↔ r ∈ st.regions

/-- **Lookups are exact.** After any insertions and removals, an address is
found in the region that was inserted and has not been removed and that has
the address, and in none if there is none; a region can be inserted exactly
if it is valid – aligned, and not empty – and overlaps none of them. -/
theorem exact_pgtRun (xs : List PgtAction) : Exact (pgtRun xs) where
  lookup := (pgtRun_represents xs).lookup_iff
  insert r := ((pgtRun_represents xs).insert_spec r).1
  remove r := ((pgtRun_represents xs).remove_spec r).1

/-- **A region that is empty is not inserted**, though it overlaps nothing. -/
theorem insert_empty_refused : (∀ q ∈ (pgtRun []).regions, ¬PgtRegion.Overlaps ⟨0, 16, 16⟩ q)
      ∧ ((pgtRun []).table.insert ⟨0, 16, 16⟩).1 = .invalidParam :=
  ⟨nofun, by decide⟩

end Common
