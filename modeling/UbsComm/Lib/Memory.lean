import UbsComm.Lib.Packing

/-!
# Structures in memory

A program that fills in a structure writes one member after the other, each at
its offset. `StructLayout` has the offsets: the members lie in the structure and
do not overlap. What is written to different members is all there afterwards
(`holds_storeMembers`), and nothing else has changed
(`storeMembers_of_outside`), in whatever order the members are written.
-/

namespace Memory

open Packing List

/-! ## Writing bytes -/

section Store

variable {β : Type*} {mem : ℕ → β} {addr addr' x len : ℕ} {l : List β}

/-- The memory with these bytes from an address on. -/
def store (mem : ℕ → β) (addr : ℕ) (l : List β) : ℕ → β := fun x =>
  if addr ≤ x then l[x - addr]?.getD (mem x) else mem x

theorem store_of_outside (h : x < addr ∨ addr + l.length ≤ x) : store mem addr l x = mem x := by
  rw [store]
  split
  case isTrue hle =>
    rw [getElem?_eq_none (by omega)]
    rfl
  case isFalse => rfl

theorem bytes_store : bytes (store mem addr l) addr l.length = l := by
  refine ext_getElem (length_bytes _ _ _) fun i _ hi => ?_
  have hget : store mem addr l (addr + i) = l[i] := by
    rw [store, if_pos (Nat.le_add_right addr i), Nat.add_sub_cancel_left, getElem?_eq_getElem hi]
    rfl
  simp only [bytes, getElem_map, getElem_range, hget]

theorem bytes_store_of_apart (h : addr' + len ≤ addr ∨ addr + l.length ≤ addr') :
    bytes (store mem addr l) addr' len = bytes mem addr' len :=
  bytes_congr fun i hi => store_of_outside (by omega)

end Store

/-! ## Writing members -/

/-- Where the members of a structure are, which have these sizes. -/
structure StructLayout {F : Type} (size : F → ℕ) where
  sizeof : ℕ
  offset : F → ℕ
  inside : ∀ f, offset f + size f ≤ sizeof
  apart : ∀ f g, f ≠ g → offset f + size f ≤ offset g ∨ offset g + size g ≤ offset f

namespace StructLayout

variable {β F : Type} {size : F → ℕ} (L : StructLayout size)

/-- The values have the sizes of the members, and no member has two. -/
structure Valued (size : F → ℕ) (vals : List (F × List β)) : Prop where
  length : ∀ v ∈ vals, v.2.length = size v.1
  nodup : (vals.map Prod.fst).Nodup

/-- The memory after values have been written to the members of a structure. -/
def storeMembers (base : ℕ) (mem : ℕ → β) (vals : List (F × List β)) : ℕ → β :=
  vals.foldl (fun mem v => store mem (base + L.offset v.1) v.2) mem

/-- The members of the structure at an address have these values. -/
def Holds (mem : ℕ → β) (base : ℕ) (vals : List (F × List β)) : Prop :=
  ∀ v ∈ vals, bytes mem (base + L.offset v.1) (size v.1) = v.2

variable {L} {base x : ℕ} {mem mem' : ℕ → β} {v : F × List β} {vals : List (F × List β)}

theorem Valued.tail (h : Valued size (v :: vals)) : Valued size vals :=
  ⟨fun w hw => h.length w (mem_cons_of_mem v hw), (nodup_cons.mp h.nodup).2⟩

theorem storeMembers_of_outside (h : Valued size vals) (hx : x < base ∨ base + L.sizeof ≤ x) :
    L.storeMembers base mem vals x = mem x := by
  induction vals generalizing mem with
  | nil => rfl
  | cons v vals ih =>
    have hlen := h.length v mem_cons_self
    have hin := L.inside v.1
    rw [storeMembers, foldl_cons, ← storeMembers, ih h.tail]
    exact store_of_outside (by omega)

theorem bytes_storeMembers_of_notMem {f : F} (h : Valued size vals) (hf : f ∉ vals.map Prod.fst) :
    bytes (L.storeMembers base mem vals) (base + L.offset f) (size f) =
      bytes mem (base + L.offset f) (size f) := by
  induction vals generalizing mem with
  | nil => rfl
  | cons v vals ih =>
    rw [map_cons, mem_cons, not_or] at hf
    have hlen := h.length v mem_cons_self
    have hapart := L.apart f v.1 hf.1
    rw [storeMembers, foldl_cons, ← storeMembers, ih h.tail hf.2]
    exact bytes_store_of_apart (by omega)

/-- **The members have the values that were written.** -/
theorem holds_storeMembers (h : Valued size vals) :
    L.Holds (L.storeMembers base mem vals) base vals := by
  induction vals generalizing mem with
  | nil => exact nofun
  | cons v vals ih =>
    rw [storeMembers, foldl_cons, ← storeMembers]
    refine forall_mem_cons.mpr ⟨?_, ih h.tail⟩
    rw [bytes_storeMembers_of_notMem h.tail (nodup_cons.mp h.nodup).1,
      ← h.length v mem_cons_self, bytes_store]

theorem Holds.congr (h : L.Holds mem base vals) (hmem : ∀ v ∈ vals, ∀ i < size v.1,
      mem' (base + L.offset v.1 + i) = mem (base + L.offset v.1 + i)) :
    L.Holds mem' base vals := by
  intro v hv
  rw [← h v hv]
  exact bytes_congr (hmem v hv)

theorem Holds.storeMembers {ws : List (F × List β)} (h : L.Holds mem base vals)
    (hws : Valued size ws) (hnew : ∀ v ∈ vals, v.1 ∉ ws.map Prod.fst) :
    L.Holds (L.storeMembers base mem ws) base (vals ++ ws) := by
  refine forall_mem_append.mpr ⟨fun v hv => ?_, holds_storeMembers hws⟩
  rw [bytes_storeMembers_of_notMem hws (hnew v hv)]
  exact h v hv

end StructLayout

end Memory
