import UbsComm.Common.PgTable
import UbsComm.Lib.Block

/-!
# The pages of a page table

What a tree of directories means is which page an address is in: the region
and the order of the entry where its path ends (`PgtEntry.pageAt`). Inserting
and unlinking a page change the meaning at the addresses of the page and at
no others, and they succeed exactly if the page meets no other one and if the
page is there. The number of present entries of a directory is right, and no
directory is empty, so that what is present has a page.
-/

namespace Common

open Block Function PgtEntry Nat Option Prod Finset

/-! ## Meaning -/

/-- The order and the region of the page that an address is in, by its bits
below `shift`. -/
def PgtEntry.pageAt : PgtEntry → ℕ → ℕ → Option (ℕ × PgtRegion)
  | .absent, _, _ => none
  | .region r, shift, _ => some (shift, r)
  | .dir _ entries, shift, x =>
    (entries (pteIndex x (shift - pteShiftPerDir))).pageAt (shift - pteShiftPerDir) x

theorem PgtEntry.pageAt_dir (count : ℕ) (entries : Fin 16 → PgtEntry) (s x : ℕ) :
    (dir count entries).pageAt s x
      = (entries (pteIndex x (s - pteShiftPerDir))).pageAt (s - pteShiftPerDir) x := rfl

/-- How many entries of a directory are present. -/
def presentCount (entries : Fin 16 → PgtEntry) : ℕ := ∑ i, if (entries i).isPresent then 1 else 0

/-- The numbers of present entries are right, and no directory is empty. -/
def PgtEntry.WF : PgtEntry → ℕ → Prop
  | .absent, _ => True
  | .region _, _ => True
  | .dir count entries, shift => 8 ≤ shift ∧ count = presentCount entries ∧ 0 < count
    ∧ ∀ i, (entries i).WF (shift - pteShiftPerDir)

theorem pteIndex_val (x s : ℕ) : (pteIndex x s).val = digit 4 s x := by
  show ((x >>> s) &&& (2 ^ 4 - 1)) % 16 = _
  rw [and_two_pow_sub_one_eq_mod, shiftRight_eq_div_pow]
  exact mod_mod _ _

variable {s x : ℕ}

/-- Addresses of one block go the same way in it if they are in the same
smaller block. -/
theorem pteIndex_eq_iff {a : ℕ} (h : Same (s + 4) a x) :
    pteIndex x s = pteIndex a s ↔ Same s a x := by
  rw [Fin.ext_iff, pteIndex_val, pteIndex_val, same_iff_digit (w := 4)]
  exact ⟨fun hdigit => ⟨h, hdigit⟩, fun hsame => hsame.2⟩

theorem presentCount_eq (entries : Fin 16 → PgtEntry) (i : Fin 16) :
    presentCount entries = (if (entries i).isPresent then 1 else 0)
      + ∑ j ∈ univ.erase i, if (entries j).isPresent then 1 else 0 :=
  (add_sum_erase _ _ (mem_univ i)).symm

theorem presentCount_update (entries : Fin 16 → PgtEntry) (i : Fin 16) (e : PgtEntry) :
    presentCount (update entries i e) + (if (entries i).isPresent then 1 else 0)
      = presentCount entries + if e.isPresent then 1 else 0 := by
  have hsame : ∑ j ∈ univ.erase i, (if (update entries i e j).isPresent then 1 else 0)
      = ∑ j ∈ univ.erase i, if (entries j).isPresent then 1 else 0 :=
    sum_congr rfl fun j hj => by
      rw [update_of_ne (ne_of_mem_erase hj)]
  rw [presentCount_eq (update entries i e) i, presentCount_eq entries i, update_self]
  omega

variable {entries : Fin 16 → PgtEntry} {i : Fin 16}

theorem presentCount_pos (h : (entries i).isPresent = true) : 0 < presentCount entries := by
  rw [presentCount_eq entries i, if_pos h]
  exact one_pos.trans_le (le_add_right 1 _)

theorem exists_present_of_presentCount (h : 0 < presentCount entries) :
    ∃ i, (entries i).isPresent = true := by
  by_contra hnone
  rw [not_exists] at hnone
  refine h.ne' (sum_eq_zero fun i _ => ?_)
  rw [if_neg (hnone i)]

variable {e : PgtEntry} {region : PgtRegion} {shift : ℕ} {address order : ℕ}

namespace PgtEntry

theorem eq_absent (h : ¬e.isPresent = true) : e = .absent := by
  cases e with
  | absent => rfl
  | region r | dir count entries => exact absurd rfl h

theorem WF.exists_page (h : e.WF s) (hpresent : e.isPresent = true) (a : ℕ) :
    ∃ x, Same s a x ∧ e.pageAt s x ≠ none := by
  induction e generalizing s a with
  | absent => cases hpresent
  | region r => exact ⟨a, same_self, some_ne_none _⟩
  | dir count entries ih =>
    obtain ⟨hs, hcount, hpos, hentries⟩ := h
    obtain ⟨i, hi⟩ := exists_present_of_presentCount (hcount ▸ hpos)
    have hshift : s - pteShiftPerDir + 4 = s := Nat.sub_add_cancel (le_trans (by decide) hs)
    -- an address of the block that goes to this entry
    obtain ⟨b, hb, hdigit⟩ := exists_digit_eq (w := 4) a (s - pteShiftPerDir) i.isLt
    obtain ⟨x, hx, hpage⟩ := ih i (hentries i) hi b
    have hi : pteIndex x (s - pteShiftPerDir) = i := by
      rw [Fin.ext_iff, pteIndex_val, (same_iff_digit.mp hx).2]
      exact hdigit
    refine ⟨x, ?_, ?_⟩
    · rw [← hshift]
      exact hb.trans (hx.mono (le_add_right _ 4))
    · rw [pageAt_dir, hi]
      exact hpage

/-! ## Inserting -/

theorem getDir_wf (h : e.WF s) (hregion : e.isRegion = false) :
    e.getDir.1 = presentCount e.getDir.2 ∧ ∀ i, (e.getDir.2 i).WF (s - pteShiftPerDir) := by
  cases e with
  | absent => exact ⟨(sum_eq_zero fun _ _ => rfl).symm, fun _ => trivial⟩
  | region r => cases hregion
  | dir count entries => exact ⟨h.2.1, h.2.2.2⟩

theorem pageAt_getDir (hregion : e.isRegion = false) :
    e.pageAt s x = (e.getDir.2 (pteIndex x (s - pteShiftPerDir))).pageAt
      (s - pteShiftPerDir) x := by
  cases e with
  | absent | dir => rfl
  | region r => cases hregion

/-- The directory of an entry with another entry in it. -/
def dirWith (e : PgtEntry) (i : Fin 16) (new : PgtEntry) : PgtEntry :=
  .dir (e.getDir.1 + if ¬(e.getDir.2 i).isPresent ∧ new.isPresent then 1 else 0)
    (update e.getDir.2 i new)

theorem dirWith_self (hregion : e.isRegion = false) (habsent : e ≠ .absent) :
    e.dirWith i (e.getDir.2 i) = e := by
  cases e with
  | absent => exact absurd rfl habsent
  | region r => cases hregion
  | dir count entries =>
    unfold dirWith getDir
    rw [update_eq_self, if_neg fun h => h.1 h.2, add_zero]

end PgtEntry

/-- **What inserting a page into an entry does.** -/
structure Inserted (address order : ℕ) (region : PgtRegion) (shift : ℕ) (e : PgtEntry)
    (r : Bool × PgtEntry) : Prop where
  iff : r.1 = true ↔ ∀ x, Same order address x → e.pageAt shift x = none
  failed : r.1 = false → r.2 = e
  wf : r.2.WF shift
  pageAt : r.1 = true → ∀ x, Same shift address x →
    r.2.pageAt shift x = if Same order address x then some (order, region) else e.pageAt shift x
  present : r.1 = true → r.2.isPresent = true

theorem inserted_failed (h : e.WF shift) (hx : Same order address x)
    (hpage : e.pageAt shift x ≠ none) : Inserted address order region shift e (false, e) where
  iff := ⟨nofun, fun hnone => absurd (hnone x hx) hpage⟩
  failed _ := rfl
  wf := h
  pageAt := nofun
  present := nofun

theorem wf_dir_update {count : ℕ} (hshift : 8 ≤ shift) (hcount : count = presentCount entries)
    (hentries : ∀ i, (entries i).WF (shift - pteShiftPerDir)) (he : e.WF (shift - pteShiftPerDir))
    (hpresent : e.isPresent = true) :
    (dir (count + if ¬(entries i).isPresent ∧ e.isPresent then 1 else 0)
      (update entries i e)).WF shift := by
  have hupdate := presentCount_update entries i e
  rw [if_pos hpresent] at hupdate
  have hnew : count + (if ¬(entries i).isPresent ∧ e.isPresent then 1 else 0)
      = presentCount (update entries i e) := by
    simp only [hpresent, and_true]
    split_ifs at hupdate ⊢ <;> omega
  have hpos : 0 < presentCount (update entries i e) :=
    presentCount_pos (i := i) (by rw [update_self]; exact hpresent)
  exact ⟨hshift, hnew, hnew ▸ hpos, (forall_update_iff entries fun _ e => e.WF _).mpr
    ⟨he, fun j _ => hentries j⟩⟩

theorem insertEntry_inserted (address order : ℕ) (region : PgtRegion) (k : ℕ) (e : PgtEntry)
    (h : e.WF (order + k * 4)) (horder : 4 ≤ order) :
    Inserted address order region (order + k * 4) e
      (insertEntry address order region (order + k * 4) e) := by
  induction k generalizing e with
  | zero =>
    rw [Nat.add_zero] at h ⊢
    unfold insertEntry
    rw [if_pos rfl]
    split_ifs with hpresent
    · obtain ⟨x, hx, hpage⟩ := h.exists_page hpresent address
      exact inserted_failed h hx hpage
    · rw [eq_absent hpresent]
      exact ⟨⟨fun _ _ _ => rfl, fun _ => rfl⟩, nofun, trivial, fun _ x hx => (if_pos hx).symm,
        fun _ => rfl⟩
  | succ k ih =>
    have hle : order ≤ order + k * 4 := Nat.le_add_right ..
    have hsucc : order + (k + 1) * 4 = order + k * 4 + 4 := by omega
    rw [hsucc] at h ⊢
    generalize order + k * 4 = m at ih h hle ⊢
    have hshift : m + 4 - pteShiftPerDir = m := rfl
    have hroom : ¬m + 4 < pteShiftPerDir + order := by
      unfold pteShiftPerDir
      omega
    unfold insertEntry
    rw [if_neg (by omega)]
    simp only [hroom, or_false]
    split
    case isTrue hregion =>
      cases e with
      | absent | dir => cases hregion
      | region r => exact inserted_failed h same_self (some_ne_none _)
    case isFalse hregion =>
      have hregion := Bool.eq_false_iff.mpr hregion
      obtain ⟨hcount, hentries⟩ := e.getDir_wf h hregion
      have hchild := ih _ (hentries (pteIndex address m))
      rw [hshift]
      generalize insertEntry address order region m (e.getDir.2 (pteIndex address m)) = r at hchild
      have hpath : ∀ x, Same m address x →
          e.pageAt (m + 4) x = (e.getDir.2 (pteIndex address m)).pageAt m x := by
        intro x hx
        rw [pageAt_getDir hregion, hshift, (pteIndex_eq_iff (hx.mono (le_add_right _ 4))).mpr hx]
      have hfree : r.1 = true ↔ ∀ x, Same order address x → e.pageAt (m + 4) x = none := by
        refine hchild.iff.trans (forall_congr' fun x => forall_congr' fun hx => ?_)
        rw [hpath x (hx.mono hle)]
      have hfailed : r.1 = false → e.dirWith (pteIndex address m) r.2 = e := by
        intro hr
        rw [hchild.failed hr]
        refine dirWith_self hregion fun habsent => ?_
        rw [habsent] at hfree
        exact Bool.false_ne_true (hr.symm.trans (hfree.mpr fun _ _ => rfl))
      refine ⟨hfree, hfailed, ?_, fun hr x hx => ?_, fun _ => rfl⟩
      · cases hr : r.1 with
        | false =>
          show (e.dirWith _ r.2).WF _
          rw [hfailed hr]
          exact h
        | true => exact wf_dir_update (by omega) hcount hentries hchild.wf (hchild.present hr)
      · rw [pageAt_dir, hshift]
        by_cases hsame : Same m address x
        · rw [(pteIndex_eq_iff hx).mpr hsame, update_self, hchild.pageAt hr x hsame, hpath x hsame]
        · rw [update_of_ne fun hindex => hsame ((pteIndex_eq_iff hx).mp hindex),
            if_neg fun hx => hsame (hx.mono hle), pageAt_getDir hregion, hshift]

/-! ## Removing -/

theorem PgtEntry.le_of_pageAt {o : ℕ} (h : e.pageAt s x = some (o, region)) : o ≤ s := by
  induction e generalizing s with
  | absent => cases h
  | region r => exact (congrArg fst (some.inj h)).symm.le
  | dir count entries ih => exact (ih _ h).trans (sub_le s pteShiftPerDir)

theorem PgtEntry.isPresent_of_pageAt {page : ℕ × PgtRegion} (h : e.pageAt s x = some page) :
    e.isPresent = true := by
  cases e with
  | absent => cases h
  | region | dir => rfl

/-- **What unlinking a page from an entry does.** -/
structure Unlinked (address order : ℕ) (region : PgtRegion) (shift : ℕ) (e : PgtEntry)
    (r : Bool × PgtEntry) : Prop where
  iff : r.1 = true ↔ e.pageAt shift address = some (order, region)
  wf : r.2.WF shift
  pageAt : r.1 = true → ∀ x, Same shift address x →
    r.2.pageAt shift x = if Same order address x then none else e.pageAt shift x

theorem unlinked_failed (h : e.WF shift) (hpage : e.pageAt shift address ≠ some (order, region)) :
    Unlinked address order region shift e (false, e) where
  iff := ⟨nofun, fun h => absurd h hpage⟩
  wf := h
  pageAt := nofun

/-- The entry of a directory after an entry in it has changed; it has none if
the directory is empty. -/
def dirOrAbsent (count : ℕ) (entries : Fin 16 → PgtEntry) : PgtEntry :=
  if count = 0 then .absent else .dir count entries

section DirOrAbsent

variable {count : ℕ} {entries : Fin 16 → PgtEntry} {shift : ℕ}

theorem dirOrAbsent_wf (hcount : count = presentCount entries) (hshift : 8 ≤ shift)
    (hentries : ∀ i, (entries i).WF (shift - pteShiftPerDir)) :
    (dirOrAbsent count entries).WF shift := by
  unfold dirOrAbsent
  split_ifs with hzero
  · trivial
  · exact ⟨hshift, hcount, Nat.pos_of_ne_zero hzero, hentries⟩

theorem dirOrAbsent_pageAt (hcount : count = presentCount entries) (x : ℕ) :
    (dirOrAbsent count entries).pageAt shift x
      = (entries (pteIndex x (shift - pteShiftPerDir))).pageAt (shift - pteShiftPerDir) x := by
  unfold dirOrAbsent
  split_ifs with hzero
  · rw [eq_absent fun hpresent => (presentCount_pos hpresent).ne' (hcount.symm.trans hzero)]
    rfl
  · rfl

end DirOrAbsent

theorem unlinkRegion_unlinked (address order : ℕ) (region : PgtRegion) (shift : ℕ)
    (e : PgtEntry) (h : e.WF shift) :
    Unlinked address order region shift e (unlinkRegion address order region shift e) := by
  induction e generalizing shift with
  | absent => exact unlinked_failed h nofun
  | region r =>
    unfold unlinkRegion
    split_ifs with horder hregion
    · exact unlinked_failed h fun h => horder (congrArg fst (some.inj h))
    · exact unlinked_failed h fun h => hregion (congrArg snd (some.inj h))
    · rw [not_not.mp horder, not_not.mp hregion]
      exact ⟨⟨fun _ => rfl, fun _ => rfl⟩, trivial, fun _ x hx => (if_pos hx).symm⟩
  | dir count entries ih =>
    have hwf := h
    obtain ⟨hshift, hcount, hpos, hentries⟩ := h
    obtain ⟨m, rfl⟩ : ∃ m, shift = m + pteShiftPerDir :=
      Nat.exists_eq_add_of_le' (le_trans (by decide) hshift)
    have hchild := ih (pteIndex address m) m (hentries _)
    unfold unlinkRegion
    dsimp only
    rw [Nat.add_sub_cancel]
    generalize unlinkRegion address order region m (entries (pteIndex address m)) = r at hchild
    cases hr : r.1 with
    | false =>
      refine unlinked_failed hwf fun hpage => ?_
      exact Bool.false_ne_true (hr.symm.trans (hchild.iff.mpr hpage))
    | true =>
      have hpage := hchild.iff.mp hr
      have hnew : (if r.2.isPresent then count else count - 1)
          = presentCount (update entries (pteIndex address m) r.2) := by
        have hupdate := presentCount_update entries (pteIndex address m) r.2
        rw [if_pos (isPresent_of_pageAt hpage), ← hcount] at hupdate
        split_ifs at hupdate ⊢
        · exact (add_right_cancel hupdate).symm
        · exact Nat.sub_eq_of_eq_add hupdate.symm
      have hle := le_of_pageAt hpage
      refine ⟨⟨fun _ => hpage, fun _ => rfl⟩, dirOrAbsent_wf hnew hshift
        ((forall_update_iff entries fun _ e => e.WF _).mpr ⟨hchild.wf, fun i _ => hentries i⟩),
        fun _ x hx => (dirOrAbsent_pageAt hnew x).trans ?_⟩
      rw [pageAt_dir, Nat.add_sub_cancel]
      by_cases hsame : Same m address x
      · rw [(pteIndex_eq_iff hx).mpr hsame, update_self, hchild.pageAt hr x hsame]
      · rw [update_of_ne fun hindex => hsame ((pteIndex_eq_iff hx).mp hindex),
          if_neg fun hx => hsame (hx.mono hle)]

end Common
