import UbsComm.Common.PgTableTree

/-!
# The root of a page table

The root of the table is for one block of the address space. A table means
what its tree means in that block, and nothing outside of it
(`PgTable.pageAt`), so that the moves of the root – another directory above
it, or one less – are seen by none of its addresses. A page can then be
inserted exactly if it meets no other, and removed exactly if it is there,
wherever the root is (`insertPage_spec`, `removePage_spec`).
-/

namespace Common

open Block Function PgtEntry Nat

/-- The block of the root, as its words have it. -/
structure PgTable.WF (t : PgTable) : Prop where
  le : 4 ≤ t.indexShift
  le_max : t.indexShift ≤ 64
  dvd : 4 ∣ t.indexShift
  mask : t.spaceMask = 2 ^ 64 - 2 ^ t.indexShift
  base : 2 ^ t.indexShift ∣ t.virBaseAddr
  base_lt : t.virBaseAddr < 2 ^ 64
  root : t.rootEntry.WF t.indexShift

namespace PgTable

/-- **What a table means**: the order and the region of the page that an
address is in. -/
def pageAt (t : PgTable) (x : ℕ) : Option (ℕ × PgtRegion) :=
  if Same t.indexShift t.virBaseAddr x then t.rootEntry.pageAt t.indexShift x else none

variable {t : PgTable}

theorem pageAt_of_absent (h : t.rootEntry = .absent) (x : ℕ) : t.pageAt x = none := by
  unfold pageAt
  rw [h]
  exact ite_self none

theorem wf_empty : ({} : PgTable).WF where
  le := le_refl 4
  le_max := by decide
  dvd := dvd_refl 4
  mask := by decide
  base := dvd_zero _
  base_lt := by decide
  root := trivial

theorem WF.masked_iff (h : t.WF) {x : ℕ} (hx : x < 2 ^ 64) :
    x &&& t.spaceMask = t.virBaseAddr ↔ Same t.indexShift t.virBaseAddr x := by
  rw [h.mask]
  exact and_mask_eq_iff h.le_max hx h.base

/-! ## A directory more -/

/-- One table means the same as another. -/
structure Keeps (t t' : PgTable) : Prop where
  wf : t'.WF
  pageAt : ∀ x, t'.pageAt x = t.pageAt x

theorem Keeps.trans {t' t'' : PgTable} (h : Keeps t t') (h' : Keeps t' t'') : Keeps t t'' :=
  ⟨h'.wf, fun x => (h'.pageAt x).trans (h.pageAt x)⟩

theorem wf_dir_single {e : PgtEntry} {s : ℕ} (hs : 4 ≤ s) (h : e.WF s)
    (hpresent : e.isPresent = true) (i : Fin 16) :
    (dir 1 (update (fun _ => .absent) i e)).WF (s + 4) := by
  have hempty : 0 = presentCount fun _ => .absent := (Finset.sum_eq_zero fun _ _ => rfl).symm
  have hnew : (0 + if ¬absent.isPresent ∧ e.isPresent then 1 else 0) = 1 := by
    rw [if_pos ⟨Bool.false_ne_true, hpresent⟩]
  rw [← hnew]
  exact wf_dir_update (Nat.add_le_add_right hs 4) hempty (fun _ => trivial) h hpresent

theorem pgtExpand_keeps {t' : PgTable} (h : t.WF) (hexpand : t.pgtExpand = some t') :
    Keeps t t' := by
  have hle := (pgtExpand_indexShift hexpand).1
  obtain ⟨-, hexpand⟩ := Option.ite_none_left_eq_some.mp hexpand
  have hmask : t.spaceMask <<< pteShiftPerDir % 2 ^ 64 = 2 ^ 64 - 2 ^ (t.indexShift + 4) := by
    rw [h.mask]
    exact mask_shiftLeft (Nat.add_le_add_right hle 4)
  obtain ⟨base, hbase⟩ : ∃ base, base
      = t.virBaseAddr / 2 ^ (t.indexShift + 4) * 2 ^ (t.indexShift + 4) := ⟨_, rfl⟩
  have hsame : ∀ x, Same (t.indexShift + 4) base x ↔ Same (t.indexShift + 4) t.virBaseAddr x := by
    intro x
    unfold Same
    rw [hbase, Nat.mul_div_cancel _ (Nat.two_pow_pos _)]
  rw [hmask, and_mask (by omega) h.base_lt, ← hbase] at hexpand
  rw [← Option.some.inj hexpand]
  have hwf (e : PgtEntry) (he : e.WF (t.indexShift + 4)) :
      PgTable.WF ⟨e, base, 2 ^ 64 - 2 ^ (t.indexShift + 4), t.indexShift + 4⟩ :=
    ⟨le_add_left 4 _, Nat.add_le_add_right hle 4, dvd_add h.dvd (dvd_refl 4), rfl,
      hbase ▸ dvd_mul_left _ _, hbase ▸ (div_mul_le_self _ _).trans_lt h.base_lt, he⟩
  by_cases hpresent : t.rootEntry.isPresent = true
  · rw [if_pos hpresent]
    refine ⟨hwf _ (wf_dir_single h.le h.root hpresent _), fun x => ?_⟩
    unfold pageAt
    simp only [pteShiftPerDir, hsame, pageAt_dir, Nat.add_sub_cancel]
    by_cases hblock : Same (t.indexShift + 4) t.virBaseAddr x
    · rw [if_pos hblock]
      split_ifs with hroot
      · rw [(pteIndex_eq_iff hblock).mpr hroot, update_self]
      · rw [update_of_ne fun hindex => hroot ((pteIndex_eq_iff hblock).mp hindex)]
        rfl
    · rw [if_neg hblock, if_neg fun hroot => hblock (hroot.mono (le_add_right _ 4))]
  · rw [eq_absent hpresent]
    refine ⟨hwf _ trivial, fun x => ?_⟩
    rw [pageAt_of_absent rfl, pageAt_of_absent (eq_absent hpresent)]

/-- What an expansion of the root does: it ends as asked, or with all bits of
an address below the root. -/
structure Expands (done : PgTable → Bool) (t t' : PgTable) : Prop where
  keeps : Keeps t t'
  le : t.indexShift ≤ t'.indexShift
  done : done t' = true ∨ t'.indexShift = 64

theorem expandUntil_expands (done : PgTable → Bool) (h : t.WF) :
    Expands done t (expandUntil done t) := by
  fun_induction expandUntil done t with
  | case1 t hdone => exact ⟨⟨h, fun _ => rfl⟩, le_rfl, .inl hdone⟩
  | case2 t hdone hexpand =>
    refine ⟨⟨h, fun _ => rfl⟩, le_rfl, .inr ?_⟩
    have hlt : t.indexShift > pgtAddrOrderMax - pteShiftPerDir := by
      by_contra hle
      exact Option.some_ne_none _ ((if_neg hle).symm.trans hexpand)
    have := h.le_max
    have := h.dvd
    unfold pgtAddrOrderMax pteShiftPerDir at hlt
    omega
  | case3 t hdone t' hexpand ih =>
    have hkeeps := pgtExpand_keeps h hexpand
    have hrest := ih hkeeps.wf
    have hshift := (pgtExpand_indexShift hexpand).2
    exact ⟨hkeeps.trans hrest.keeps, (hshift ▸ le_add_right _ 4).trans hrest.le, hrest.done⟩

theorem pgtEnsureCapacity_keeps (h : t.WF) {order address : ℕ} (horder : order ≤ 64)
    (haddress : address < 2 ^ 64) : let u := t.pgtEnsureCapacity order address
    Keeps t u ∧ order ≤ u.indexShift ∧ Same u.indexShift u.virBaseAddr address := by
  unfold pgtEnsureCapacity
  dsimp only
  have hfirst := expandUntil_expands (fun t => ¬t.indexShift < order) h
  generalize expandUntil (fun t => ¬t.indexShift < order) t = t₁ at hfirst
  have hle : order ≤ t₁.indexShift := by
    rcases hfirst.done with hdone | hmax
    · exact Nat.le_of_not_lt (of_decide_eq_true hdone)
    · exact hmax ▸ horder
  have hwf := hfirst.keeps.wf
  rw [if_neg (hle.not_gt)]
  by_cases hpresent : t₁.rootEntry.isPresent = true
  · rw [if_neg (not_not_intro hpresent)]
    have hsecond := expandUntil_expands (fun t => address &&& t.spaceMask = t.virBaseAddr) hwf
    refine ⟨hfirst.keeps.trans hsecond.keeps, hle.trans hsecond.le, ?_⟩
    have hwf := hsecond.keeps.wf
    rcases hsecond.done with hdone | hmax
    · exact (hwf.masked_iff haddress).mp (of_decide_eq_true hdone)
    · have hbase := hwf.base_lt
      rw [hmax]
      unfold Same
      rw [div_eq_of_lt haddress, div_eq_of_lt hbase]
  · rw [if_pos hpresent]
    have habsent := eq_absent hpresent
    have hbase : address &&& t₁.spaceMask = address / 2 ^ t₁.indexShift * 2 ^ t₁.indexShift := by
      rw [hwf.mask]
      exact and_mask hwf.le_max haddress
    refine ⟨hfirst.keeps.trans ⟨{ hwf with base := ?_, base_lt := ?_ }, fun x => ?_⟩, hle, ?_⟩
    · exact hbase ▸ dvd_mul_left _ _
    · exact and_le_left.trans_lt haddress
    · rw [pageAt_of_absent habsent]
      refine pageAt_of_absent ?_ x
      exact habsent
    · unfold Same
      rw [hbase, Nat.mul_div_cancel _ (Nat.two_pow_pos _)]

/-! ## A directory less -/

theorem absent_of_presentCount {entries : Fin 16 → PgtEntry} {i j : Fin 16}
    (hcount : presentCount entries = 1) (hi : (entries i).isPresent = true) (hj : j ≠ i) :
    entries j = .absent := by
  refine eq_absent fun hpresent => ?_
  have hupdate := presentCount_update entries i .absent
  rw [if_pos hi, hcount] at hupdate
  have hpos : 0 < presentCount (update entries i .absent) :=
    presentCount_pos (i := j) (by rw [update_of_ne hj]; exact hpresent)
  exact hpos.ne' (add_right_cancel (hupdate.trans (zero_add 1).symm))

theorem pgtShrink_keeps (h : t.WF) : Keeps t t.pgtShrink.2 := by
  unfold pgtShrink
  cases hroot : t.rootEntry with
  | absent => exact ⟨wf_empty, fun x => by rw [pageAt_of_absent rfl, pageAt_of_absent hroot]⟩
  | region r => exact ⟨h, fun _ => rfl⟩
  | dir count entries =>
    dsimp only
    have hwf := h.root
    rw [hroot] at hwf
    obtain ⟨hshift, hcount, hpos, hentries⟩ := hwf
    by_cases hone : count = 1
    · rw [if_neg (not_not_intro hone)]
      cases hfind : (List.finRange 16).find? (fun i => (entries i).isPresent) with
      | none => exact ⟨h, fun _ => rfl⟩
      | some idx =>
        dsimp only
        rw [if_neg ((le_trans (by decide) hshift).not_gt)]
        have hidx : (entries idx).isPresent = true :=
          List.find?_some (p := fun i => (entries i).isPresent) hfind
        have hsucc : t.indexShift = t.indexShift - pteShiftPerDir + 4 :=
          (Nat.sub_add_cancel h.le).symm
        generalize hm : t.indexShift - pteShiftPerDir = m at hsucc hentries ⊢
        have hdvd : 2 ^ (m + 4) ∣ t.virBaseAddr := hsucc ▸ h.base
        have hmask : t.spaceMask ||| pteIndexMask <<< m = 2 ^ 64 - 2 ^ m := by
          rw [h.mask, hsucc]
          exact mask_or (hsucc ▸ h.le_max)
        have hbase := or_digit hdvd idx.isLt
        have hle := h.le_max
        have hdvd' := h.dvd
        refine ⟨⟨(by omega : 4 ≤ m), (by omega : m ≤ 64), (by omega : 4 ∣ m), hmask, ?_, ?_,
          hentries idx⟩, fun x => ?_⟩
        · rw [hbase]
          exact dvd_add (dvd_trans (pow_dvd_pow 2 (le_add_right _ 4)) hdvd) (dvd_mul_left _ _)
        · refine or_lt_two_pow h.base_lt ?_
          rw [shiftLeft_eq]
          calc idx.val * 2 ^ m
              < 2 ^ 4 * 2 ^ m := Nat.mul_lt_mul_of_pos_right idx.isLt (Nat.two_pow_pos _)
            _ = 2 ^ t.indexShift := by rw [← pow_add, add_comm, ← hsucc]
            _ ≤ 2 ^ 64 := Nat.pow_le_pow_right Nat.two_pos h.le_max
        · unfold pageAt
          rw [hbase, hroot, pageAt_dir, hm]
          have hsame := same_add_digit (x := x) hdvd idx.isLt
          rw [← hsucc, ← pteIndex_val, ← Fin.ext_iff] at hsame
          simp only [hsame]
          split_ifs with hboth hblock hblock
          · rw [hboth.2]
          · exact absurd hboth.1 hblock
          · rw [absent_of_presentCount (hcount.symm.trans hone) hidx fun h => hboth ⟨hblock, h⟩]
            rfl
          · rfl
    · rw [if_pos hone]
      exact ⟨h, fun _ => rfl⟩

theorem shrinkAll_keeps (h : t.WF) : Keeps t t.shrinkAll := by
  fun_induction shrinkAll t with
  | case1 t t' hshrink =>
    have hkeeps := pgtShrink_keeps h
    rw [hshrink] at hkeeps
    exact hkeeps
  | case2 t t' hshrink ih =>
    have hkeeps := pgtShrink_keeps h
    rw [hshrink] at hkeeps
    exact hkeeps.trans (ih hkeeps.wf)

/-! ## Pages of the table -/

/-- What a page can be. -/
structure IsPage (address order : ℕ) : Prop where
  le : 4 ≤ order
  lt : order < 64
  dvd : 4 ∣ order
  aligned : 2 ^ order ∣ address
  address_lt : address < 2 ^ 64

theorem IsPage.validatePage {address order : ℕ} (h : IsPage address order) :
    validatePage address order = true := by
  refine decide_eq_true ⟨?_, ?_⟩
  · rw [and_two_pow_sub_one_eq_mod]
    exact mod_eq_zero_of_dvd h.aligned
  · have := h.le
    have := h.dvd
    unfold pageShiftMin pteShiftPerDir
    omega

section Page

variable {t : PgTable} {address order : ℕ} {region : PgtRegion}

/-- **What inserting a page into a table does.** -/
structure InsertsPage (address order : ℕ) (region : PgtRegion) (t : PgTable)
    (r : NResult × PgTable) : Prop where
  iff : r.1 = .ok ↔ ∀ x, Same order address x → t.pageAt x = none
  wf : r.2.WF
  pageAt : ∀ x, r.2.pageAt x
    = if r.1 = .ok ∧ Same order address x then some (order, region) else t.pageAt x

theorem insertPage_spec (h : t.WF) (hpage : IsPage address order) :
    InsertsPage address order region t (t.insertPage address order region) := by
  unfold insertPage
  rw [if_neg (not_not_intro hpage.validatePage)]
  obtain ⟨hkeeps, hle, hblock⟩ := pgtEnsureCapacity_keeps h (hpage.lt.le) hpage.address_lt
  generalize t.pgtEnsureCapacity order address = t₁ at hkeeps hle hblock
  obtain ⟨k, hk⟩ : ∃ k, t₁.indexShift = order + k * 4 := by
    obtain ⟨k, hk⟩ := dvd_sub hkeeps.wf.dvd hpage.dvd
    exact ⟨k, by omega⟩
  have hroot : t₁.rootEntry.WF (order + k * 4) := hk ▸ hkeeps.wf.root
  have hinserted := insertEntry_inserted address order region k t₁.rootEntry hroot hpage.le
  rw [← hk] at hinserted
  dsimp only
  generalize insertEntry address order region t₁.indexShift t₁.rootEntry = r at hinserted
  have hin : ∀ x, Same order address x → Same t₁.indexShift t₁.virBaseAddr x :=
    fun x hx => hblock.trans (hx.mono hle)
  have hfree : r.1 = true ↔ ∀ x, Same order address x → t.pageAt x = none := by
    refine hinserted.iff.trans (forall_congr' fun x => forall_congr' fun hx => ?_)
    rw [← hkeeps.pageAt, pageAt, if_pos (hin x hx)]
  have hwf' : ({ t₁ with rootEntry := r.2 } : PgTable).WF := { hkeeps.wf with root := hinserted.wf }
  cases hr : r.1 with
  | true =>
    rw [if_pos rfl]
    refine ⟨⟨fun _ => hfree.mp hr, fun _ => rfl⟩, hwf', fun x => ?_⟩
    rw [← hkeeps.pageAt]
    unfold pageAt
    split_ifs with hx hpage hpage
    · rw [hinserted.pageAt hr x (hblock.symm.trans hx), if_pos hpage.2]
    · rw [hinserted.pageAt hr x (hblock.symm.trans hx), if_neg fun h => hpage ⟨rfl, h⟩]
    · exact hx (hin x hpage.2)
    · rfl
  | false =>
    rw [if_neg Bool.false_ne_true]
    have hshrunk := shrinkAll_keeps hwf'
    have hsame : ({ t₁ with rootEntry := r.2 } : PgTable) = t₁ := by rw [hinserted.failed hr]
    refine ⟨⟨nofun, fun hnone => ?_⟩, hshrunk.wf, fun x => ?_⟩
    · exact absurd (hr.symm.trans (hfree.mpr hnone)) Bool.false_ne_true
    · rw [if_neg nofun, hshrunk.pageAt, hsame, hkeeps.pageAt]

/-- **What removing a page from a table does.** -/
structure RemovesPage (address order : ℕ) (region : PgtRegion) (t : PgTable)
    (r : NResult × PgTable) : Prop where
  iff : r.1 = .ok ↔ t.pageAt address = some (order, region)
  wf : r.2.WF
  pageAt : ∀ x, r.2.pageAt x = if r.1 = .ok ∧ Same order address x then none else t.pageAt x

theorem removesPage_failed (h : t.WF) (hnone : t.pageAt address ≠ some (order, region)) :
    RemovesPage address order region t (.error, t) where
  iff := ⟨nofun, fun h => absurd h hnone⟩
  wf := h
  pageAt _ := (if_neg nofun).symm

theorem removePage_spec (h : t.WF) (hpage : IsPage address order) :
    RemovesPage address order region t (t.removePage address order region) := by
  unfold removePage
  rw [if_neg (not_not_intro hpage.validatePage)]
  by_cases hmasked : address &&& t.spaceMask = t.virBaseAddr
  · rw [if_neg (not_not_intro hmasked)]
    have hblock := (h.masked_iff hpage.address_lt).mp hmasked
    have hunlinked := unlinkRegion_unlinked address order region t.indexShift t.rootEntry h.root
    dsimp only
    generalize unlinkRegion address order region t.indexShift t.rootEntry = r at hunlinked
    have hiff : r.1 = true ↔ t.pageAt address = some (order, region) := by
      rw [hunlinked.iff, pageAt, if_pos hblock]
    cases hr : r.1 with
    | true =>
      rw [if_neg (not_not_intro rfl)]
      have hshrunk := shrinkAll_keeps (t := { t with rootEntry := r.2 })
        { h with root := hunlinked.wf }
      refine ⟨⟨fun _ => hiff.mp hr, fun _ => rfl⟩, hshrunk.wf, fun x => ?_⟩
      rw [hshrunk.pageAt]
      unfold pageAt
      by_cases hx : Same t.indexShift t.virBaseAddr x
      · rw [if_pos hx, if_pos hx, hunlinked.pageAt hr x (hblock.symm.trans hx)]
        simp only [true_and]
      · rw [if_neg hx, if_neg hx, ite_self]
    | false =>
      refine removesPage_failed h fun hpage => ?_
      exact Bool.false_ne_true (hr.symm.trans (hiff.mpr hpage))
  · rw [if_pos hmasked]
    refine removesPage_failed h fun hsome => ?_
    rw [pageAt, if_neg fun hblock => hmasked ((h.masked_iff hpage.address_lt).mpr hblock)] at hsome
    exact Option.some_ne_none _ hsome.symm

end Page

/-! ## Lookups -/

theorem lookupEntry_eq (e : PgtEntry) (s x : ℕ) :
    lookupEntry x s e = (e.pageAt s x).bind fun page =>
      if x < page.2.start.toNat ∨ x ≥ page.2.endAddr.toNat then none else some page.2 := by
  induction e generalizing s with
  | absent => rfl
  | region r => rfl
  | dir count entries ih => exact ih _ _

/-- **What is looked up is the region of the page of the address**, if it has
the address. -/
theorem lookup_eq (h : t.WF) (address : UInt64) :
    t.lookup address = (t.pageAt address.toNat).bind fun page =>
      if address.toNat < page.2.start.toNat ∨ address.toNat ≥ page.2.endAddr.toNat then none
      else some page.2 := by
  have hmasked := h.masked_iff address.toNat_lt
  unfold lookup pageAt
  simp only [ne_eq, hmasked, ite_not]
  split_ifs
  · exact lookupEntry_eq _ _ _
  · rfl

end PgTable

end Common
