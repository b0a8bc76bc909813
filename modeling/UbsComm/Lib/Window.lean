import Mathlib.Order.Interval.Finset.Nat

/-!
# A window that slides over a ring

The positions of an unbounded sequence are kept in the `n` cells of a ring, the
position `j` in the cell `j % n`. `Window n cells free front want` says what the
`n` positions from `front` on look like: `want j` is what stands at the position
`j`, if anything does, and otherwise the cell is `free`, that is, it has what a
cell without contents may have.

Two things can happen to a window. A position gets other contents or none
(`Window.update`), which no other position notices, since the positions of the
window have different cells; and the window moves on by one position when its
first is free (`Window.advance`).
-/

namespace Cyclic

open Function Nat Finset

variable {α : Type*} {n : ℕ} {cells : ℕ → α} {free : α → Prop} {front i j : ℕ}
  {want want' : ℕ → Option α} {a : α} {o : Option α}

/-- **The window from `front` on**: what is wanted stands there, and where nothing
is wanted the cell is free. -/
structure Window (n : ℕ) (cells : ℕ → α) (free : α → Prop) (front : ℕ)
    (want : ℕ → Option α) : Prop where
  holds : ∀ j, front ≤ j → j < front + n → ∀ a, want j = some a → cells (j % n) = a
  vacant : ∀ j, front ≤ j → j < front + n → want j = none → free (cells (j % n))

theorem mod_ne_mod (hi : front ≤ i) (hi' : i < front + n) (hj : front ≤ j)
    (hj' : j < front + n) (hne : i ≠ j) : i % n ≠ j % n := fun h =>
  hne (mod_injOn_Ico front n (mem_coe.mpr (mem_Ico.mpr ⟨hi, hi'⟩))
    (mem_coe.mpr (mem_Ico.mpr ⟨hj, hj'⟩)) h)

section

variable (h : Window n cells free front want)
include h

theorem Window.congr (hw : ∀ j, front ≤ j → j < front + n → want' j = want j) :
    Window n cells free front want' where
  holds j hj hj' a ha := h.holds j hj hj' a ((hw j hj hj').symm.trans ha)
  vacant j hj hj' hn := h.vacant j hj hj' ((hw j hj hj').symm.trans hn)

/-- **The cell of a position is written**, with the contents `o` that are then
wanted, or with something free. -/
theorem Window.update (hi : front ≤ i)
    (hi' : i < front + n) (hsome : ∀ b, o = some b → a = b) (hnone : o = none → free a) :
    Window n (update cells (i % n) a) free front (update want i o) where
  holds j hj hj' b hb := by
    by_cases hji : j = i
    · subst hji
      rw [update_self] at hb ⊢
      exact hsome b hb
    · rw [update_of_ne hji] at hb
      rw [update_of_ne (mod_ne_mod hj hj' hi hi' hji)]
      exact h.holds j hj hj' b hb
  vacant j hj hj' hn := by
    by_cases hji : j = i
    · subst hji
      rw [update_self] at hn ⊢
      exact hnone hn
    · rw [update_of_ne hji] at hn
      rw [update_of_ne (mod_ne_mod hj hj' hi hi' hji)]
      exact h.vacant j hj hj' hn

/-- The window moves on by a position: the one that comes in has the cell of the
one that goes out. -/
theorem Window.advance (hn : 0 < n) (hfirst : want front = none) (hlast : want (front + n) = none) :
    Window n cells free (front + 1) want where
  holds j hj hj' a ha := by
    have hne : j ≠ front + n := fun he => by
      rw [he, hlast] at ha
      cases ha
    exact h.holds j (by omega) (by omega) a ha
  vacant j hj hj' hv := by
    by_cases he : j = front + n
    · rw [he, add_mod_right]
      exact h.vacant front le_rfl (Nat.lt_add_of_pos_right hn) hfirst
    · exact h.vacant j (by omega) (by omega) hv

end

end Cyclic
