import Mathlib.Algebra.BigOperators.Fin

/-!
# Runs of a labelled machine, and retry loops

Two small theories the protocol models share.

The first is about **machines**: a state, and for each action either a next
state or a refusal. A run is a list of actions none of which is refused.
What a run preserves is read off what one step preserves
(`Machine.run_invariant`), also when the steps are only known to meet a
side condition (`Machine.Along`). What has happened, and what has not since
(`Machine.Since`), is read off the last action.

The second is about the **compare-and-swap retry loop**. Executed without
interference, such a loop only ever repeats because a weak
compare-and-swap may fail without cause; `casLoop_eq_zero` says the number
of such failures cannot be observed.
-/

namespace Machine

open Option List

variable {σ τ α β : Type*} {step : σ → α → Option σ} {as : List α} {s t u : σ} {P : σ → Prop}

/-- Run a list of actions; `none` as soon as one of them is refused. -/
def run (step : σ → α → Option σ) : σ → List α → Option σ
  | s, [] => some s
  | s, a :: as => (step s a).bind (fun t => run step t as)

@[simp] theorem run_nil (step : σ → α → Option σ) (s : σ) : run step s [] = some s := rfl

@[simp] theorem run_cons (step : σ → α → Option σ) (s : σ) (a : α) (as : List α) :
    run step s (a :: as) = (step s a).bind (fun t => run step t as) := rfl

/-- A guarded step is taken exactly when its guard holds. -/
theorem guard_eq_some {p : Prop} {_ : Decidable p} {x y : σ} :
    (if p then some x else none) = some y ↔ p ∧ x = y := by
  rw [ite_none_right_eq_some, some.injEq]

/-- The same for a step that goes on from a state that has to be found. -/
theorem guard_map_eq_some {τ : Type*} {p : Prop} {_ : Decidable p} {o : Option τ} {f : τ → σ}
    {y : σ} : (if p then o.map f else none) = some y ↔ p ∧ ∃ x, o = some x ∧ f x = y := by
  rw [ite_none_right_eq_some, map_eq_some_iff]

theorem run_append (step : σ → α → Option σ) (s : σ) (as bs : List α) :
    run step s (as ++ bs) = (run step s as).bind (fun t => run step t bs) := by
  induction as generalizing s with
  | nil => rfl
  | cons a as ih =>
    rw [cons_append, run_cons, run_cons]
    cases step s a with
    | none => rfl
    | some t => exact ih t

theorem run_cons_eq_some {a : α} :
    run step s (a :: as) = some u ↔ ∃ t, step s a = some t ∧ run step t as = some u := by
  rw [run_cons, bind_eq_some_iff]

theorem run_trans {bs : List α} (h₁ : run step s as = some t) (h₂ : run step t bs = some u) :
    run step s (as ++ bs) = some u := by
  rw [run_append, h₁]
  exact h₂

theorem run_concat {a : α} (h : run step s as = some t) (ha : step t a = some u) :
    run step s (as ++ [a]) = some u :=
  run_trans h (run_cons_eq_some.mpr ⟨u, ha, rfl⟩)

/-- **Every step of the run meets `G`**, a condition on the state before
the step and the action taken there. -/
def Along (step : σ → α → Option σ) (G : σ → α → Prop) : σ → List α → Prop
  | _, [] => True
  | s, a :: as => G s a ∧ ∀ t, step s a = some t → Along step G t as

/-- Whether all steps of a run meet a decidable condition can be computed. -/
instance decidableAlong (step : σ → α → Option σ) (G : σ → α → Prop)
    [hG : ∀ s a, Decidable (G s a)] :
    (s : σ) → (as : List α) → Decidable (Along step G s as)
  | _, [] => .isTrue trivial
  | s, a :: as =>
    haveI : ∀ t, Decidable (Along step G t as) := fun t => decidableAlong step G t as
    inferInstanceAs (Decidable (G s a ∧ ∀ t ∈ step s a, Along step G t as))

theorem Along.imp {G H : σ → α → Prop} (h : Along step G s as) (hGH : ∀ s a, G s a → H s a) :
    Along step H s as := by
  induction as generalizing s with
  | nil => trivial
  | cons a as ih => exact ⟨hGH s a h.1, fun t ht => ih (h.2 t ht)⟩

/-- A condition on the actions alone. -/
theorem along_of_forall_mem {P : α → Prop} (h : ∀ a ∈ as, P a) :
    Along step (fun _ a => P a) s as := by
  induction as generalizing s with
  | nil => trivial
  | cons a as ih => exact ⟨h a mem_cons_self, fun _ _ => ih fun b hb => h b (mem_cons_of_mem a hb)⟩

/-- **The invariant rule under a side condition**: what every step that
meets `G` preserves, a run whose steps all meet `G` preserves. -/
theorem run_invariant_along {G : σ → α → Prop}
    (hstep : ∀ s a t, P s → G s a → step s a = some t → P t) (hs : P s) (hG : Along step G s as)
    (h : run step s as = some t) : P t := by
  induction as generalizing s with
  | nil =>
    rw [run_nil, some.injEq] at h
    exact h ▸ hs
  | cons a as ih =>
    obtain ⟨u, hu, hrun⟩ := run_cons_eq_some.mp h
    exact ih (hstep s a u hs hG.1 hu) (hG.2 u hu) hrun

/-- **What every step preserves, every run preserves.** -/
theorem run_invariant (hstep : ∀ s a t, P s → step s a = some t → P t) (hs : P s)
    (h : run step s as = some t) : P t :=
  run_invariant_along (fun s a t hs _ => hstep s a t hs) hs
    (along_of_forall_mem (P := fun _ => True) fun _ _ => trivial) h

/-! ## Since -/

/-- **`P` of an event, and `Q` of none since.** -/
def Since (P Q : α → Prop) (as : List α) : Prop :=
  ∃ before a after, as = before ++ a :: after ∧ P a ∧ ∀ b ∈ after, ¬Q b

theorem Since.imp {P P' Q : α → Prop} (h : Since P Q as) (himp : ∀ a, P a → P' a) :
    Since P' Q as := by
  obtain ⟨before, a, after, heq, ha, hafter⟩ := h
  exact ⟨before, a, after, heq, himp a ha, hafter⟩

theorem not_since_nil {P Q : α → Prop} : ¬Since P Q [] := by
  rintro ⟨before, a, after, h, -⟩
  exact append_ne_nil_of_right_ne_nil before (cons_ne_nil a after) h.symm

theorem since_concat {P Q : α → Prop} {a : α} :
    Since P Q (as ++ [a]) ↔ P a ∨ Since P Q as ∧ ¬Q a := by
  constructor
  · rintro ⟨before, c, after, heq, hc, hafter⟩
    rcases eq_nil_or_concat after with rfl | ⟨after, x, rfl⟩
    · obtain ⟨-, rfl⟩ := append_singleton_inj.mp heq
      exact .inl hc
    · rw [concat_eq_append, ← cons_append, ← append_assoc] at heq
      obtain ⟨rfl, rfl⟩ := append_singleton_inj.mp heq
      rw [concat_eq_append] at hafter
      exact .inr ⟨⟨before, c, after, rfl, hc, fun b hb => hafter b (mem_append_left _ hb)⟩,
        hafter a mem_concat_self⟩
  · rintro (ha | ⟨⟨before, c, after, rfl, hc, hafter⟩, ha⟩)
    · exact ⟨as, a, [], rfl, ha, nofun⟩
    · refine ⟨before, c, after ++ [a], append_assoc .., hc, ?_⟩
      exact forall_mem_append.mpr ⟨hafter, forall_mem_singleton.mpr ha⟩

end Machine

/-! ## Retry loops -/

/-- One pass of the body of a retry loop over a cell holding values `V`:
leave the loop, or try to swap a new value in. -/
inductive CasPass (V R : Type*) where
  | leave (r : R)
  | swap (after : V) (r : R)

/-- **A weak compare-and-swap loop run without interference.** The body
sees the value of the cell; a swap is retried `spurious` times – each time
with the value the failed attempt has read back, which nobody else has
changed – and then goes through. -/
def casLoop {V R : Type*} (body : V → CasPass V R) (cell : V) : ℕ → V × R
  | 0 =>
    match body cell with
    | .leave r => (cell, r)
    | .swap after r => (after, r)
  | spurious + 1 =>
    match body cell with
    | .leave r => (cell, r)
    | .swap _ _ => casLoop body cell spurious

/-- Spurious failures of the swap cannot be observed. -/
theorem casLoop_eq_zero {V R : Type*} (body : V → CasPass V R) (cell : V) (spurious : ℕ) :
    casLoop body cell spurious = casLoop body cell 0 := by
  induction spurious with
  | zero => rfl
  | succ n ih =>
    cases h : body cell with
    | leave r => simp only [casLoop, h]
    | swap after r =>
      rw [← ih]
      rw [casLoop, h]
