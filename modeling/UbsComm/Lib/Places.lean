import Mathlib.Algebra.BigOperators.Fin

/-!
# Things in places

Finitely many things are distributed over places, each place with the list of
those that are there. `Partition items L` says that every one of the `items` is
in exactly one place, and there only once. What keeps it is a move: where two
places together have what they had before, and all others are left alone
(`Partition.move`). Things can get lost, too; what is left of them is still in
exactly one place (`Partition.drop`).
-/

namespace Places

open Function List

variable {π α : Type*} {items : List α} {L L' : π → List α} {X Y : π} {b : α}

/-- **Every thing is in exactly one place.** -/
structure Partition (items : List α) (L : π → List α) : Prop where
  nodup : ∀ X, (L X).Nodup
  apart : ∀ X Y b, b ∈ L X → b ∈ L Y → X = Y
  cover : ∀ b, b ∈ items ↔ ∃ X, b ∈ L X

section

variable (h : Partition items L)
include h

theorem Partition.mem_items (hb : b ∈ L X) : b ∈ items := (h.cover b).mpr ⟨X, hb⟩

theorem Partition.not_mem (hb : b ∈ L X) (hne : X ≠ Y) : b ∉ L Y :=
  fun hY => hne (h.apart X Y b hb hY)

/-- The two places of a move have no thing in common. -/
theorem Partition.nodup_append (hne : X ≠ Y) : (L X ++ L Y).Nodup :=
  List.nodup_append.mpr ⟨h.nodup X, h.nodup Y, fun _ ha _ hc heq => h.not_mem ha hne (heq ▸ hc)⟩

omit h in
/-- Where a thing is after a move: where it was, or in one of the two places
if it was in one of them. -/
theorem exists_mem_of_move (hother : ∀ Z, Z ≠ X → Z ≠ Y → L' Z = L Z)
    (hmem : ∀ b, b ∈ L X ∨ b ∈ L Y → b ∈ L' X ∨ b ∈ L' Y) {Z : π} (hb : b ∈ L Z) :
    ∃ W, b ∈ L' W ∧ (W = Z ∨ (Z = X ∨ Z = Y) ∧ (W = X ∨ W = Y)) := by
  by_cases hZ : Z = X ∨ Z = Y
  · have hor : b ∈ L X ∨ b ∈ L Y := by
      obtain rfl | rfl := hZ
      · exact .inl hb
      · exact .inr hb
    obtain hX | hY := hmem b hor
    · exact ⟨X, hX, .inr ⟨hZ, .inl rfl⟩⟩
    · exact ⟨Y, hY, .inr ⟨hZ, .inr rfl⟩⟩
  · obtain ⟨hZX, hZY⟩ := not_or.mp hZ
    exact ⟨Z, by rw [hother Z hZX hZY]; exact hb, .inl rfl⟩

/-- **Moving things between two places.** -/
theorem Partition.move (hne : X ≠ Y) (hother : ∀ Z, Z ≠ X → Z ≠ Y → L' Z = L Z)
    (hperm : (L' X ++ L' Y).Perm (L X ++ L Y)) : Partition items L' := by
  have hnodup : (L' X ++ L' Y).Nodup := hperm.nodup_iff.mpr (h.nodup_append hne)
  obtain ⟨hX, hY, hXY⟩ := List.nodup_append.mp hnodup
  have hmem : ∀ b, (b ∈ L' X ∨ b ∈ L' Y) ↔ (b ∈ L X ∨ b ∈ L Y) := fun b => by
    rw [← mem_append, ← mem_append, hperm.mem_iff]
  have hback : ∀ Z, Z ≠ X → Z ≠ Y → L Z = L' Z := fun Z hZX hZY => (hother Z hZX hZY).symm
  refine ⟨fun Z => ?_, fun Z W b hZ hW => ?_, fun b => ?_⟩
  · by_cases hZX : Z = X
    · exact hZX ▸ hX
    by_cases hZY : Z = Y
    · exact hZY ▸ hY
    rw [hother Z hZX hZY]
    exact h.nodup Z
  · obtain ⟨V, hV, hVZ⟩ := exists_mem_of_move hback (fun b => (hmem b).mp) hZ
    obtain ⟨V', hV', hVW⟩ := exists_mem_of_move hback (fun b => (hmem b).mp) hW
    obtain rfl := h.apart V V' b hV hV'
    have htwo : ∀ P Q, P = X ∨ P = Y → Q = X ∨ Q = Y → b ∈ L' P → b ∈ L' Q → P = Q := by
      rintro P Q (rfl | rfl) (rfl | rfl) hP hQ
      · rfl
      · exact absurd rfl (hXY b hP b hQ)
      · exact absurd rfl (hXY b hQ b hP)
      · rfl
    obtain rfl | ⟨hZ', hVXY⟩ := hVZ
    · obtain rfl | ⟨hW', hVXY⟩ := hVW
      · rfl
      · exact htwo V W hVXY hW' hZ hW
    · obtain rfl | ⟨hW', -⟩ := hVW
      · exact htwo Z V hZ' hVXY hZ hW
      · exact htwo Z W hZ' hW' hZ hW
  · rw [h.cover b]
    constructor
    · rintro ⟨Z, hZ⟩
      obtain ⟨W, hW, -⟩ := exists_mem_of_move hother (fun b => (hmem b).mpr) hZ
      exact ⟨W, hW⟩
    · rintro ⟨Z, hZ⟩
      obtain ⟨W, hW, -⟩ := exists_mem_of_move hback (fun b => (hmem b).mp) hZ
      exact ⟨W, hW⟩

end

/-! ## Moves as updates -/

variable [DecidableEq π] {l l' : List α}

/-- The contents of two places replaced. -/
def moved (L : π → List α) (X Y : π) (l l' : List α) : π → List α := update (update L X l) Y l'

theorem moved_source (hne : X ≠ Y) : moved L X Y l l' X = l := by
  rw [moved, update_of_ne hne, update_self]

theorem moved_target : moved L X Y l l' Y = l' := by rw [moved, update_self]

theorem moved_of_ne {Z : π} (hX : Z ≠ X) (hY : Z ≠ Y) : moved L X Y l l' Z = L Z := by
  rw [moved, update_of_ne hY, update_of_ne hX]

theorem Partition.moved (h : Partition items L) (hne : X ≠ Y)
    (hperm : (l ++ l').Perm (L X ++ L Y)) : Partition items (moved L X Y l l') := by
  refine h.move hne (fun Z hX hY => moved_of_ne hX hY) ?_
  rw [moved_source hne, moved_target]
  exact hperm

/-! ## Things that get lost -/

theorem mem_update_nil {Z : π} : b ∈ update L X [] Z ↔ Z ≠ X ∧ b ∈ L Z := by
  by_cases hZ : Z = X
  · simp [hZ]
  · simp [hZ]

/-- **The things of one place get lost.** -/
theorem Partition.drop [DecidableEq α] (h : Partition items L) (X : π) :
    Partition (items.filter (· ∉ L X)) (update L X []) := by
  refine ⟨fun Z => ?_, fun Z W b hZ hW => ?_, fun b => ?_⟩
  · by_cases hZ : Z = X
    · rw [hZ, update_self]
      exact nodup_nil
    · rw [update_of_ne hZ]
      exact h.nodup Z
  · exact h.apart Z W b (mem_update_nil.mp hZ).2 (mem_update_nil.mp hW).2
  · rw [mem_filter, decide_eq_true_eq, h.cover b]
    constructor
    · rintro ⟨⟨Z, hZ⟩, hX⟩
      exact ⟨Z, mem_update_nil.mpr ⟨fun heq => hX (heq ▸ hZ), hZ⟩⟩
    · rintro ⟨Z, hZ⟩
      obtain ⟨hne, hZ⟩ := mem_update_nil.mp hZ
      exact ⟨⟨Z, hZ⟩, h.not_mem hZ hne⟩

end Places
