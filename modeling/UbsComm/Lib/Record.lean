import Mathlib.Algebra.BigOperators.Fin

/-!
# Programs that keep a record

A program over a state that notes what happens as it goes: a function of the
state to a value, a new state and the list of what was noted. The record
only grows – what one part of a program has noted, the whole has – and this
is what triples are for: `Recorded.Triple bad P m Q` says that `m`, begun in
a state and with a record that meet `P`, ends with a value, a state and a
record that meet `Q`, **unless something bad has been noted**. As nothing
is ever crossed out, triples compose (`Recorded.Triple.bind`) without a word
about the bad things noted on the way.
-/

/-- A program over the states `σ` that notes things of type `ν`. -/
def Recorded (σ ν α : Type) : Type := σ → α × σ × List ν

namespace Recorded

open List

variable {σ ν α β : Type}

instance : Monad (Recorded σ ν) where
  pure a := fun s => (a, s, [])
  bind m f := fun s =>
    let x := m s
    let y := f x.1 x.2.1
    (y.1, y.2.1, x.2.2 ++ y.2.2)

/-- The state. -/
def get : Recorded σ ν σ := fun s => (s, s, [])

/-- A new state. -/
def modify (f : σ → σ) : Recorded σ ν Unit := fun s => ((), f s, [])

/-- One more note. -/
def note (e : ν) : Recorded σ ν Unit := fun s => ((), s, [e])

@[simp] theorem pure_apply (a : α) (s : σ) : (pure a : Recorded σ ν α) s = (a, s, []) := rfl

@[simp] theorem bind_apply (m : Recorded σ ν α) (f : α → Recorded σ ν β) (s : σ) :
    (m >>= f) s = ((f (m s).1 (m s).2.1).1, (f (m s).1 (m s).2.1).2.1,
      (m s).2.2 ++ (f (m s).1 (m s).2.1).2.2) := rfl

@[simp] theorem get_apply (s : σ) : (get : Recorded σ ν σ) s = (s, s, []) := rfl

@[simp] theorem modify_apply (f : σ → σ) (s : σ) :
    (modify f : Recorded σ ν Unit) s = ((), f s, []) := rfl

@[simp] theorem note_apply (e : ν) (s : σ) : (note e : Recorded σ ν Unit) s = ((), s, [e]) := rfl

/-- What `m` brings about unless something bad is noted. -/
def Triple (bad : ν → Prop) (P : σ → List ν → Prop) (m : Recorded σ ν α)
    (Q : α → σ → List ν → Prop) : Prop :=
  ∀ s l, P s l → (∀ e ∈ l ++ (m s).2.2, ¬bad e) → Q (m s).1 (m s).2.1 (l ++ (m s).2.2)

namespace Triple

variable {bad : ν → Prop} {P P' : σ → List ν → Prop} {m : Recorded σ ν α}
  {f : α → Recorded σ ν β} {Q Q' : α → σ → List ν → Prop}
  {R : β → σ → List ν → Prop}

theorem pure {a : α} (h : ∀ s l, P s l → Q a s l) : Triple bad P (Pure.pure a) Q := by
  intro s l hP _
  show Q a s (l ++ [])
  rw [append_nil]
  exact h s l hP

theorem modify {g : σ → σ} {Q : Unit → σ → List ν → Prop}
    (h : ∀ s l, P s l → Q () (g s) l) : Triple bad P (modify g) Q := by
  intro s l hP _
  show Q () (g s) (l ++ [])
  rw [append_nil]
  exact h s l hP

theorem note {e : ν} {Q : Unit → σ → List ν → Prop}
    (h : ∀ s l, P s l → ¬bad e → Q () s (l ++ [e])) : Triple bad P (note e) Q := by
  intro s l hP hbad
  exact h s l hP (hbad e (mem_append_right _ (mem_singleton_self e)))

/-- **One after the other.** -/
theorem bind (hm : Triple bad P m Q)
    (hf : ∀ a, Triple bad (Q a) (f a) R) : Triple bad P (m >>= f) R := by
  intro s l hP hbad
  have hassoc : l ++ (m s).2.2 ++ (f (m s).1 (m s).2.1).2.2
      = l ++ ((m >>= f) s).2.2 := append_assoc _ _ _
  have hmid := hm s l hP fun e he => hbad e (by
    rw [← hassoc]
    exact mem_append_left _ he)
  have hend := hf (m s).1 (m s).2.1 (l ++ (m s).2.2) hmid (by
    rw [hassoc]
    exact hbad)
  rw [hassoc] at hend
  exact hend

theorem get_bind {k : σ → Recorded σ ν β}
    (h : ∀ s₀, Triple bad (fun s l => s = s₀ ∧ P s l) (k s₀) R) : Triple bad P (get >>= k) R :=
  fun s l hP hbad => h s s l ⟨rfl, hP⟩ hbad

theorem ite {c : Prop} [Decidable c] {m m' : Recorded σ ν α} (hpos : c → Triple bad P m Q)
    (hneg : ¬c → Triple bad P m' Q) : Triple bad P (if c then m else m') Q := by
  by_cases hc : c
  · rw [if_pos hc]
    exact hpos hc
  · rw [if_neg hc]
    exact hneg hc

theorem conseq (hm : Triple bad P' m Q') (hpre : ∀ s l, P s l → P' s l)
    (hpost : ∀ a s l, Q' a s l → Q a s l) : Triple bad P m Q :=
  fun s l hP hbad => hpost _ _ _ (hm s l (hpre s l hP) hbad)

theorem pre (hm : Triple bad P' m Q) (hpre : ∀ s l, P s l → P' s l) : Triple bad P m Q :=
  hm.conseq hpre fun _ _ _ => id

theorem post (hm : Triple bad P m Q') (hpost : ∀ a s l, Q' a s l → Q a s l) : Triple bad P m Q :=
  hm.conseq (fun _ _ => id) hpost

end Triple

end Recorded
