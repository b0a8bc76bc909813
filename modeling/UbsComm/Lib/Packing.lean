import Mathlib.Algebra.BigOperators.Fin

/-!
# Pieces of memory packed into buffers

Pieces of one memory are copied, in order, into buffers of another: the first
group of them into the first buffer, one behind the other, the next group into
the next buffer, and so on. A group is ended when the next piece does not fit
behind it (`Packs`). A packing says where every piece goes (`layAll`). The
copies do not touch each other and stay inside the buffers, and afterwards the
filled parts of the buffers, read one after the other, are the pieces
(`flatMap_bytes_filled`).
-/

namespace Packing

open List Nat

/-- A range of addresses. -/
structure Range where
  addr : ℕ
  size : ℕ
deriving DecidableEq

/-- A piece of the memory copied from. -/
structure Piece where
  src : ℕ
  len : ℕ
deriving DecidableEq

/-- A piece with the place it is copied to. -/
structure Copy where
  src : ℕ
  dst : ℕ
  len : ℕ
deriving DecidableEq

/-- What is copied. -/
def Copy.piece (c : Copy) : Piece := ⟨c.src, c.len⟩

/-! ## Copies between two memories -/

variable {c : Copy} {ps : List Piece}

section Memory

variable {β : Type*} {mem : ℕ → β} {cs : List Copy}

/-- The contents of a range. -/
def bytes (mem : ℕ → β) (addr len : ℕ) : List β := (List.range len).map (fun i => mem (addr + i))

@[simp] theorem length_bytes (mem : ℕ → β) (addr len : ℕ) : (bytes mem addr len).length = len := by
  rw [bytes, length_map, length_range]

theorem bytes_add (mem : ℕ → β) (addr m n : ℕ) :
    bytes mem addr (m + n) = bytes mem addr m ++ bytes mem (addr + m) n := by
  rw [bytes, range_add, map_append, map_map]
  congr 1
  refine map_congr_left fun i _ => ?_
  rw [Function.comp_apply, add_assoc]

theorem bytes_congr {mem' : ℕ → β} {addr addr' len : ℕ}
    (h : ∀ i < len, mem (addr + i) = mem' (addr' + i)) :
    bytes mem addr len = bytes mem' addr' len :=
  map_congr_left fun i hi => h i (mem_range.mp hi)

/-- One copy. -/
def copy (remote mem : ℕ → β) (c : Copy) : ℕ → β := fun x =>
  if c.dst ≤ x ∧ x < c.dst + c.len then remote (c.src + (x - c.dst)) else mem x

/-- The copies one after the other. -/
def copyAll (remote mem : ℕ → β) (cs : List Copy) : ℕ → β := cs.foldl (copy remote) mem

/-- The destinations of two copies do not touch. -/
def Apart (c c' : Copy) : Prop := c.dst + c.len ≤ c'.dst ∨ c'.dst + c'.len ≤ c.dst

theorem copyAll_of_outside (remote : ℕ → β) {x : ℕ}
    (h : ∀ c ∈ cs, x < c.dst ∨ c.dst + c.len ≤ x) : copyAll remote mem cs x = mem x := by
  induction cs generalizing mem with
  | nil => rfl
  | cons c cs ih =>
    obtain ⟨hc, hcs⟩ := forall_mem_cons.mp h
    refine (ih hcs).trans ?_
    rw [copy, if_neg (by omega)]

/-- **Copies that do not touch each other all arrive.** -/
theorem bytes_copyAll (remote : ℕ → β) (h : cs.Pairwise Apart)
    (hc : c ∈ cs) : bytes (copyAll remote mem cs) c.dst c.len = bytes remote c.src c.len := by
  induction cs generalizing mem with
  | nil => exact nomatch hc
  | cons c' cs ih =>
    obtain ⟨hapart, hcs⟩ := pairwise_cons.mp h
    obtain rfl | hc := mem_cons.mp hc
    · refine bytes_congr fun i hi => ?_
      have hlater : copyAll remote mem (c :: cs) (c.dst + i) = copy remote mem c (c.dst + i) := by
        show copyAll remote (copy remote mem c) cs (c.dst + i) = _
        refine copyAll_of_outside remote fun d hd => ?_
        obtain h | h := hapart d hd
        · exact .inl (by omega)
        · exact .inr (by omega)
      rw [hlater, copy, if_pos ⟨le_add_right _ _, Nat.add_lt_add_left hi _⟩,
        Nat.add_sub_cancel_left]
    · exact ih hcs hc

end Memory

/-! ## Laying pieces one behind the other -/

/-- The length of the pieces together. -/
def total (ps : List Piece) : ℕ := (ps.map Piece.len).sum

@[simp] theorem total_nil : total [] = 0 := rfl

@[simp] theorem total_cons (p : Piece) (ps : List Piece) : total (p :: ps) = p.len + total ps := rfl

@[simp] theorem total_append (ps qs : List Piece) : total (ps ++ qs) = total ps + total qs := by
  rw [total, map_append, sum_append_nat]
  rfl

theorem total_le {n : ℕ} (h : ∀ p ∈ ps, p.len ≤ n) : total ps ≤ ps.length * n := by
  induction ps with
  | nil => exact zero_le _
  | cons p ps ih =>
    obtain ⟨hp, hps⟩ := forall_mem_cons.mp h
    have := ih hps
    rw [total_cons, length_cons, succ_mul]
    omega

/-- The copies that lay the pieces one behind the other, from `dst` on. -/
def lay : ℕ → List Piece → List Copy
  | _, [] => []
  | dst, p :: ps => ⟨p.src, dst, p.len⟩ :: lay (dst + p.len) ps

theorem map_piece_lay (dst : ℕ) (ps : List Piece) : (lay dst ps).map Copy.piece = ps := by
  induction ps generalizing dst with
  | nil => rfl
  | cons p ps ih => rw [lay, map_cons, ih, Copy.piece]

theorem mem_lay {dst : ℕ} (hc : c ∈ lay dst ps) : dst ≤ c.dst ∧ c.dst + c.len ≤ dst + total ps := by
  induction ps generalizing dst with
  | nil => exact nomatch hc
  | cons p ps ih =>
    rw [total_cons]
    obtain rfl | hc := mem_cons.mp hc
    · exact ⟨Nat.le_refl _, show dst + p.len ≤ _ by omega⟩
    · have := ih hc
      omega

theorem pairwise_lay (dst : ℕ) (ps : List Piece) : (lay dst ps).Pairwise Apart := by
  induction ps generalizing dst with
  | nil => exact List.Pairwise.nil
  | cons p ps ih =>
    refine pairwise_cons.mpr ⟨fun c hc => ?_, ih _⟩
    exact .inl (mem_lay hc).1

theorem bytes_lay {β : Type*} (mem : ℕ → β) (dst : ℕ) (ps : List Piece) :
    bytes mem dst (total ps) = (lay dst ps).flatMap (fun c => bytes mem c.dst c.len) := by
  induction ps generalizing dst with
  | nil => rfl
  | cons p ps ih => rw [total_cons, bytes_add, ih, lay, flatMap_cons]

/-! ## Packings -/

/-- **The groups pack the buffers**: there is one for each, it fits, and the
first piece of the next group does not fit behind it. -/
def Packs : List ℕ → List (List Piece) → Prop
  | [size], [g] => total g ≤ size
  | size :: size' :: sizes, g :: g' :: gs =>
    total g ≤ size ∧ (∃ p ∈ g'.head?, size < total g + p.len) ∧ Packs (size' :: sizes) (g' :: gs)
  | _, _ => False

instance decidablePacks : (sizes : List ℕ) → (gs : List (List Piece)) → Decidable (Packs sizes gs)
  | [], [] => .isFalse id
  | [], _ :: _ => .isFalse id
  | [_], [] => .isFalse id
  | [size], [g] => inferInstanceAs (Decidable (total g ≤ size))
  | [_], _ :: _ :: _ => .isFalse id
  | _ :: _ :: _, [] => .isFalse id
  | _ :: _ :: _, [_] => .isFalse id
  | size :: size' :: sizes, g :: g' :: gs =>
    haveI := decidablePacks (size' :: sizes) (g' :: gs)
    inferInstanceAs (Decidable (total g ≤ size ∧ (∃ p ∈ g'.head?, size < total g + p.len)
      ∧ Packs (size' :: sizes) (g' :: gs)))

/-- The copies of a packing. -/
def layAll : List Range → List (List Piece) → List Copy
  | r :: rs, g :: gs => lay r.addr g ++ layAll rs gs
  | _, _ => []

/-- The filled parts of the buffers. -/
def filled : List Range → List (List Piece) → List Range
  | r :: rs, g :: gs => ⟨r.addr, total g⟩ :: filled rs gs
  | _, _ => []

/-- Two ranges do not touch. -/
def Range.Apart (r r' : Range) : Prop := r.addr + r.size ≤ r'.addr ∨ r'.addr + r'.size ≤ r.addr

/-- A packing, without what makes it one: each group fits its buffer. -/
def Fits (rs : List Range) (gs : List (List Piece)) : Prop :=
  List.Forall₂ (fun r g => total g ≤ r.size) rs gs

variable {gs : List (List Piece)} {rs : List Range}

theorem Packs.fits (h : Packs (rs.map Range.size) gs) : Fits rs gs := by
  induction rs generalizing gs with
  | nil => cases gs <;> exact h.elim
  | cons r rs ih =>
    cases rs with
    | nil =>
      match gs, h with
      | [g], h => exact List.Forall₂.cons h List.Forall₂.nil
    | cons r' rs =>
      match gs, h with
      | g :: g' :: gs, h => exact List.Forall₂.cons h.1 (ih h.2.2)

theorem map_piece_layAll (h : Fits rs gs) : (layAll rs gs).map Copy.piece = gs.flatten := by
  induction h with
  | nil => rfl
  | cons _ _ ih => rw [layAll, map_append, map_piece_lay, ih, flatten_cons]

theorem mem_layAll (h : Fits rs gs) (hc : c ∈ layAll rs gs) :
    ∃ r ∈ rs, r.addr ≤ c.dst ∧ c.dst + c.len ≤ r.addr + r.size := by
  induction h with
  | nil => exact nomatch hc
  | @cons r g rs gs hfit _ ih =>
    obtain hc | hc := mem_append.mp hc
    · obtain ⟨hlow, hhigh⟩ := mem_lay hc
      exact ⟨r, mem_cons_self, hlow, Nat.le_trans hhigh (Nat.add_le_add_left hfit _)⟩
    · obtain ⟨r', hr', hin⟩ := ih hc
      exact ⟨r', mem_cons_of_mem r hr', hin⟩

theorem pairwise_layAll (h : Fits rs gs) (hrs : rs.Pairwise Range.Apart) :
    (layAll rs gs).Pairwise Apart := by
  induction h with
  | nil => exact List.Pairwise.nil
  | @cons r g rs gs hfit hrest ih =>
    obtain ⟨hr, hrs⟩ := pairwise_cons.mp hrs
    refine pairwise_append.mpr ⟨pairwise_lay _ _, ih hrs, ?_⟩
    intro c hc c' hc'
    obtain ⟨hlow, hhigh⟩ := mem_lay hc
    obtain ⟨r', hr', hlow', hhigh'⟩ := mem_layAll hrest hc'
    obtain hapart | hapart := hr r' hr'
    · exact .inl (by omega)
    · exact .inr (by omega)

/-- **The pieces arrive**: after the copies the filled parts of the buffers
are the pieces, in order. -/
theorem flatMap_bytes_filled {β : Type*} (remote : ℕ → β) (mem : ℕ → β) (h : Fits rs gs)
    (hrs : rs.Pairwise Range.Apart) :
    (filled rs gs).flatMap (fun r => bytes (copyAll remote mem (layAll rs gs)) r.addr r.size)
      = gs.flatten.flatMap (fun p => bytes remote p.src p.len) := by
  have hall := pairwise_layAll h hrs
  generalize hmem : copyAll remote mem (layAll rs gs) = after
  have harrive : ∀ c ∈ layAll rs gs, bytes after c.dst c.len = bytes remote c.src c.len := by
    intro c hc
    rw [← hmem]
    exact bytes_copyAll remote hall hc
  clear hmem hall hrs
  induction h with
  | nil => rfl
  | @cons r g rs gs _ _ ih =>
    obtain ⟨hg, hgs⟩ := forall_mem_append.mp harrive
    have hmap : (lay r.addr g).flatMap (fun c => bytes after c.dst c.len)
        = g.flatMap (fun p => bytes remote p.src p.len) := by
      rw [← map_piece_lay r.addr g, flatMap_map, map_piece_lay]
      exact flatMap_congr hg
    rw [filled, flatMap_cons, flatten_cons, flatMap_append, ih hgs, bytes_lay, hmap]

end Packing
