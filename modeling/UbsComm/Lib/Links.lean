import Mathlib.Algebra.BigOperators.Fin

/-!
# Linked lists in memory

A list in memory is a start and a function that gives for each cell the next
one; 0 is the null pointer. `Seg next p l z` says that following the links
from `p` leads through the cells `l` and arrives at `z`. Segments compose
(`seg_append`), depend on the links of their cells only (`Seg.congr`), and are
what a walk finds (`walk_of_seg`). Setting one link puts the front of a list in
front of another one (`Seg.splice`).

Where links are stored as words that are not addresses – offsets, or addresses
of another process – the list is `Coded`; a loop that replaces the words one by
one takes it from one code to another (`Coded.recode`).
-/

namespace Links

open Function List Nat

/-- **From `p` through `l` to `z`**, along non-null cells. -/
def Seg (next : ℕ → ℕ) : ℕ → List ℕ → ℕ → Prop
  | p, [], z => p = z
  | p, x :: l, z => p = x ∧ x ≠ 0 ∧ Seg next (next x) l z

instance decidableSeg (next : ℕ → ℕ) : (p : ℕ) → (l : List ℕ) → (z : ℕ) → Decidable (Seg next p l z)
  | p, [], z => inferInstanceAs (Decidable (p = z))
  | p, x :: l, z =>
    haveI := decidableSeg next (next x) l z
    inferInstanceAs (Decidable (p = x ∧ x ≠ 0 ∧ Seg next (next x) l z))

/-- The cells met from `p` on, at most as many as the fuel. -/
def walk (next : ℕ → ℕ) : ℕ → ℕ → List ℕ
  | 0, _ => []
  | fuel + 1, p => if p = 0 then [] else p :: walk next fuel (next p)

variable {next next' : ℕ → ℕ} {p q x z z' : ℕ} {l l' : List ℕ}

/-- **Segments compose.** -/
theorem seg_append : Seg next p (l ++ l') z ↔ ∃ q, Seg next p l q ∧ Seg next q l' z := by
  induction l generalizing p with
  | nil => exact ⟨fun h => ⟨p, rfl, h⟩, fun ⟨q, hq, h⟩ => hq ▸ h⟩
  | cons x l ih =>
    rw [cons_append, Seg, ih]
    constructor
    · rintro ⟨hp, hx, q, hl, hl'⟩
      exact ⟨q, ⟨hp, hx, hl⟩, hl'⟩
    · rintro ⟨q, ⟨hp, hx, hl⟩, hl'⟩
      exact ⟨hp, hx, q, hl, hl'⟩

theorem seg_concat : Seg next p (l ++ [x]) z ↔ Seg next p l x ∧ x ≠ 0 ∧ next x = z := by
  rw [seg_append]
  constructor
  · rintro ⟨q, hl, hq, hx, hz⟩
    exact ⟨hq ▸ hl, hx, hz⟩
  · rintro ⟨hl, hx, hz⟩
    exact ⟨x, hl, rfl, hx, hz⟩

section

variable (h : Seg next p l z)
include h

/-- A segment depends on the links of its cells only. -/
theorem Seg.congr (heq : ∀ x ∈ l, next' x = next x) : Seg next' p l z := by
  induction l generalizing p with
  | nil => exact h
  | cons x l ih =>
    obtain ⟨hp, hx, hl⟩ := h
    obtain ⟨hself, hrest⟩ := forall_mem_cons.mp heq
    exact ⟨hp, hx, hself ▸ ih hl hrest⟩

theorem Seg.update_of_not_mem (hx : x ∉ l) (w : ℕ) : Seg (update next x w) p l z :=
  h.congr fun _ hy => update_of_ne (ne_of_mem_of_not_mem hy hx) ..

theorem Seg.ne_zero (hx : x ∈ l) : x ≠ 0 := by
  induction l generalizing p with
  | nil => exact nomatch hx
  | cons y l ih =>
    obtain rfl | hx := mem_cons.mp hx
    · exact h.2.1
    · exact ih h.2.2 hx

theorem Seg.end_unique (h' : Seg next p l z') : z = z' := by
  induction l generalizing p with
  | nil => exact h.symm.trans h'
  | cons x l ih => exact ih h.2.2 h'.2.2

theorem Seg.start_mem (hl : l ≠ []) : p ∈ l := by
  cases l with
  | nil => exact absurd rfl hl
  | cons x l => exact h.1 ▸ mem_cons_self

theorem Seg.start_unique (h' : Seg next' q l z) : p = q := by
  cases l with
  | nil => exact h.trans h'.symm
  | cons x l => exact h.1.trans h'.1.symm

theorem Seg.next_mem (hx : x ∈ l) (hlast : l.getLast? ≠ some x) : next x ∈ l := by
  induction l generalizing p with
  | nil => exact nomatch hx
  | cons y l ih =>
    obtain ⟨-, -, hl⟩ := h
    cases l with
    | nil =>
      obtain rfl := mem_singleton.mp hx
      exact absurd rfl hlast
    | cons w l =>
      obtain rfl | hx := mem_cons.mp hx
      · rw [hl.1]
        exact mem_cons_of_mem _ mem_cons_self
      · rw [getLast?_cons_cons] at hlast
        exact mem_cons_of_mem _ (ih hl hx hlast)

end

theorem Seg.update_last (h : Seg next p (l ++ [x]) z) (hx : x ∉ l) (w : ℕ) :
    Seg (update next x w) p (l ++ [x]) w := by
  obtain ⟨hl, hne, -⟩ := seg_concat.mp h
  exact seg_concat.mpr ⟨hl.update_of_not_mem hx w, hne, update_self ..⟩

theorem walk_of_seg {fuel : ℕ} (h : Seg next p l 0) (hfuel : l.length ≤ fuel) :
    walk next fuel p = l := by
  induction l generalizing p fuel with
  | nil =>
    rw [show p = 0 from h]
    cases fuel with
    | zero => rfl
    | succ fuel => rw [walk, if_pos rfl]
  | cons x l ih =>
    obtain ⟨rfl, hx, hl⟩ := h
    cases fuel with
    | zero => cases hfuel
    | succ fuel => rw [walk, if_neg hx, ih hl (le_of_succ_le_succ hfuel)]

/-! ## A list made of cells -/

/-- The links of the cells of a list set, each to the next one. -/
def link : List ℕ → (ℕ → ℕ) → ℕ → ℕ
  | [], next => next
  | x :: l, next => update (link l next) x (l.headD 0)

theorem link_of_not_mem (hx : x ∉ l) : link l next x = next x := by
  induction l with
  | nil => rfl
  | cons y l ih =>
    obtain ⟨hxy, hxl⟩ := not_or.mp fun hor => hx (mem_cons.mpr hor)
    rw [link, update_of_ne hxy, ih hxl]

theorem seg_link (hnodup : l.Nodup) (hne : ∀ x ∈ l, x ≠ 0) : Seg (link l next) (l.headD 0) l 0 := by
  induction l with
  | nil => rfl
  | cons x l ih =>
    obtain ⟨hx, hnodup⟩ := nodup_cons.mp hnodup
    obtain ⟨hx0, hne⟩ := forall_mem_cons.mp hne
    refine ⟨rfl, hx0, ?_⟩
    rw [link, update_self]
    exact (ih hnodup hne).update_of_not_mem hx _

/-! ## The cell at a position -/

/-- The `n`-th cell from `p` on, counted from 1; there is none behind the
end. -/
def nth (next : ℕ → ℕ) : ℕ → ℕ → Option ℕ
  | 0, _ => none
  | 1, p => if p = 0 then none else some p
  | n + 2, p => if p = 0 then none else nth next (n + 1) (next p)

theorem nth_of_seg (h : Seg next p (l ++ x :: l') z) : nth next (l.length + 1) p = some x := by
  induction l generalizing p with
  | nil =>
    obtain ⟨rfl, hx, -⟩ := h
    exact if_neg hx
  | cons y l ih =>
    obtain ⟨rfl, hy, hl⟩ := h
    exact (if_neg hy).trans (ih hl)

/-- **The front of a list in front of another one.** The link of the last cell
`x` of the front is set to the start of the other list. -/
theorem Seg.splice {o : List ℕ} (h : Seg next p (l ++ x :: l') 0) (ho : Seg next q o 0)
    (hl : x ∉ l) (hl' : x ∉ l') (hxo : x ∉ o) :
    Seg (update next x q) p (l ++ x :: o) 0 ∧ Seg (update next x q) (next x) l' 0 := by
  have hne {k : List ℕ} (hk : x ∉ k) (y : ℕ) (hy : y ∈ k) : update next x q y = next y :=
    update_of_ne (ne_of_mem_of_not_mem hy hk) ..
  obtain ⟨w, hfront, hback⟩ := seg_append.mp h
  obtain ⟨rfl, hx, hrest⟩ := hback
  refine ⟨seg_append.mpr ⟨w, hfront.congr (hne hl), rfl, hx, ?_⟩, hrest.congr (hne hl')⟩
  rw [update_self]
  exact ho.congr (hne hxo)

/-! ## Links that are words -/

/-- **A list whose links are words**: `enc` gives the word for a cell, and for
null. -/
def Coded (enc : ℕ → ℕ) (next : ℕ → ℕ) : ℕ → List ℕ → Prop
  | w, [] => w = enc 0
  | w, x :: l => w = enc x ∧ x ≠ 0 ∧ Coded enc next (next x) l

theorem coded_id : Coded id next p l ↔ Seg next p l 0 := by
  induction l generalizing p with
  | nil => exact Iff.rfl
  | cons x l ih =>
    show p = x ∧ x ≠ 0 ∧ Coded id next (next x) l ↔ p = x ∧ x ≠ 0 ∧ Seg next (next x) l 0
    rw [ih]

variable {enc enc' : ℕ → ℕ} {w : ℕ}

theorem Coded.congr (h : Coded enc next w l) (heq : ∀ x ∈ l, next' x = next x) :
    Coded enc next' w l := by
  induction l generalizing w with
  | nil => exact h
  | cons x l ih =>
    obtain ⟨hw, hx, hl⟩ := h
    obtain ⟨hself, hrest⟩ := forall_mem_cons.mp heq
    exact ⟨hw, hx, hself ▸ ih hl hrest⟩

/-- The loop that replaces the link `w` of each cell by `f w`; `go w` is the
cell that it goes on with. -/
def recode (f : ℕ → ℕ) (go : ℕ → Option ℕ) : ℕ → (ℕ → ℕ) → ℕ → ℕ → ℕ
  | 0, next, _ => next
  | fuel + 1, next, x =>
    match go (next x) with
    | none => update next x (f (next x))
    | some y => recode f go fuel (update next x (f (next x))) y

variable {f : ℕ → ℕ} {go : ℕ → Option ℕ} {fuel : ℕ}

/-- **Recoding a list in place**, from the words `enc` to the words `enc'`. -/
theorem Coded.recode (h : Coded enc next w (x :: l)) (hnodup : (x :: l).Nodup)
    (hfuel : (x :: l).length ≤ fuel) (hnull : f (enc 0) = enc' 0) (hstop : go (enc 0) = none)
    (hf : ∀ y ∈ l, f (enc y) = enc' y) (hgo : ∀ y ∈ l, go (enc y) = some y) :
    Coded enc' (recode f go fuel next x) (enc' x) (x :: l) ∧
      ∀ y, y ∉ x :: l → recode f go fuel next x y = next y := by
  induction l generalizing x next w fuel with
  | nil =>
    obtain ⟨-, hx, hend⟩ := h
    obtain ⟨fuel, rfl⟩ := exists_eq_succ_of_ne_zero (Nat.ne_zero_of_lt hfuel)
    have hlink : next x = enc 0 := hend
    rw [Links.recode, hlink, hstop, hnull]
    exact ⟨⟨rfl, hx, update_self ..⟩,
      fun y hy => update_of_ne (fun heq => hy (mem_singleton.mpr heq)) ..⟩
  | cons y l ih =>
    obtain ⟨-, hx, hrest⟩ := h
    obtain ⟨fuel, rfl⟩ := exists_eq_succ_of_ne_zero (Nat.ne_zero_of_lt hfuel)
    obtain ⟨hnot, hnodup⟩ := nodup_cons.mp hnodup
    have hlink : next x = enc y := hrest.1
    have hcode : Coded enc (update next x (enc' y)) (enc y) (y :: l) :=
      (hlink ▸ hrest).congr fun v hv => update_of_ne (ne_of_mem_of_not_mem hv hnot) ..
    obtain ⟨hcoded, hsame⟩ := ih hcode hnodup (le_of_succ_le_succ hfuel)
      (fun v hv => hf v (mem_cons_of_mem y hv)) fun v hv => hgo v (mem_cons_of_mem y hv)
    rw [Links.recode, hlink, hgo y mem_cons_self, hf y mem_cons_self]
    dsimp only
    refine ⟨⟨rfl, hx, ?_⟩, fun v hv => ?_⟩
    · rw [hsame x hnot, update_self]
      exact hcoded
    · obtain ⟨hvx, hvl⟩ := not_or.mp fun hor => hv (mem_cons.mpr hor)
      rw [hsame v hvl, update_of_ne hvx]

/-- The links of a list in two codings lead to the same cells. -/
theorem Coded.link_eq {next₁ next₂ : ℕ → ℕ} {w₁ w₂ : ℕ} (h₁ : Coded enc next₁ w₁ l)
    (h₂ : Coded enc' next₂ w₂ l) : ∀ x ∈ l, ∃ y, next₁ x = enc y ∧ next₂ x = enc' y := by
  induction l generalizing w₁ w₂ with
  | nil => exact nofun
  | cons z l ih =>
    refine forall_mem_cons.mpr ⟨?_, ih h₁.2.2 h₂.2.2⟩
    cases l with
    | nil => exact ⟨0, h₁.2.2, h₂.2.2⟩
    | cons y l => exact ⟨y, h₁.2.2.1, h₂.2.2.1⟩

/-! ## Contents of the cells -/

/-- The same loop when each cell has contents, too, which it replaces. -/
def recodeWith {α : Type*} (f : ℕ → ℕ) (g : ℕ → α → α) (go : ℕ → Option ℕ) :
    ℕ → (ℕ → ℕ) → (ℕ → α) → ℕ → (ℕ → ℕ) × (ℕ → α)
  | 0, next, data, _ => (next, data)
  | fuel + 1, next, data, x =>
    match go (next x) with
    | none => (update next x (f (next x)), update data x (g x (data x)))
    | some y => recodeWith f g go fuel (update next x (f (next x))) (update data x (g x (data x))) y

variable {α : Type*} {g : ℕ → α → α} {data : ℕ → α}

theorem recodeWith_fst : (recodeWith f g go fuel next data x).1 = recode f go fuel next x := by
  induction fuel generalizing next data x with
  | zero => rfl
  | succ fuel ih =>
    rw [recodeWith, recode]
    cases go (next x) with
    | none => rfl
    | some y => exact ih

/-- **The contents of the cells of a list**, and of no others, are replaced. -/
theorem Coded.recodeWith_snd (h : Coded enc next w (x :: l)) (hnodup : (x :: l).Nodup)
    (hfuel : (x :: l).length ≤ fuel) (hstop : go (enc 0) = none)
    (hgo : ∀ y ∈ l, go (enc y) = some y) (y : ℕ) :
    (recodeWith f g go fuel next data x).2 y = if y ∈ x :: l then g y (data y) else data y := by
  induction l generalizing x next data w fuel with
  | nil =>
    obtain ⟨-, -, hend⟩ := h
    obtain ⟨fuel, rfl⟩ := exists_eq_succ_of_ne_zero (Nat.ne_zero_of_lt hfuel)
    have hlink : next x = enc 0 := hend
    rw [recodeWith, hlink, hstop]
    show update data x (g x (data x)) y = _
    by_cases hy : y = x
    · rw [hy, update_self, if_pos mem_cons_self]
    · rw [update_of_ne hy, if_neg fun hmem => hy (mem_singleton.mp hmem)]
  | cons z l ih =>
    obtain ⟨-, -, hrest⟩ := h
    obtain ⟨fuel, rfl⟩ := exists_eq_succ_of_ne_zero (Nat.ne_zero_of_lt hfuel)
    obtain ⟨hnot, hnodup⟩ := nodup_cons.mp hnodup
    have hlink : next x = enc z := hrest.1
    have hcode : Coded enc (update next x (f (enc z))) (enc z) (z :: l) :=
      (hlink ▸ hrest).congr fun v hv => update_of_ne (ne_of_mem_of_not_mem hv hnot) ..
    rw [recodeWith, hlink, hgo z mem_cons_self]
    refine (ih hcode hnodup (le_of_succ_le_succ hfuel) fun v hv =>
      hgo v (mem_cons_of_mem z hv)).trans ?_
    by_cases hy : y = x
    · rw [hy, update_self, if_neg hnot, if_pos mem_cons_self]
    · have hiff : y ∈ x :: z :: l ↔ y ∈ z :: l :=
        ⟨fun hmem => (mem_cons.mp hmem).resolve_left hy, mem_cons_of_mem x⟩
      rw [update_of_ne hy, if_congr hiff rfl rfl]

end Links
