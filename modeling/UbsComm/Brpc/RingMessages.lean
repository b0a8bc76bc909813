import UbsComm.Brpc.RingBuffer

/-!
# The elements of a message

The bytes of a message that fits are spread over exactly as many elements as are
reserved for it, in order (`RingMessage.Split`), whether it is sent from one
buffer (`split_of_sendMessage`) or gathered from several vectors
(`split_of_writeVMessage`). The first loop counts elements, and the second bytes:
what it keeps is the number of elements that the bytes in hand and the bytes to
come will fill.
-/

namespace Brpc

open List Nat

/-- An element that is written has its flag set, and nothing of it was read. -/
def Element.Fresh (e : Element) : Prop := e.hasData ≠ .empty ∧ e.readOffset = 0

/-- The bytes of a list of elements. -/
def elementBytes (es : List Element) : List UInt8 := (es.map Element.data).flatten

@[simp] theorem elementBytes_nil : elementBytes [] = [] := rfl

@[simp] theorem elementBytes_cons (e : Element) (es : List Element) :
    elementBytes (e :: es) = e.data ++ elementBytes es := rfl

@[simp] theorem elementBytes_append (es es' : List Element) :
    elementBytes (es ++ es') = elementBytes es ++ elementBytes es' := by
  rw [elementBytes, elementBytes, elementBytes, map_append, flatten_append]

/-- **A message is split** into the elements that are reserved for it. -/
structure RingMessage.Split (m : RingMessage) : Prop where
  length_eq : m.elements.length = m.elementsNeeded
  bytes_eq : elementBytes m.elements = m.bytes
  fresh : ∀ e ∈ m.elements, e.Fresh

/-! ## Send -/

theorem length_sendElements (n : ℕ) (buf : List UInt8) : (sendElements n buf).length = n := by
  induction n generalizing buf with
  | zero => rfl
  | succ n ih =>
    rw [sendElements]
    split <;> rw [length_cons, ih]

theorem elementBytes_sendElements (n : ℕ) (buf : List UInt8) :
    elementBytes (sendElements n buf) = buf.take (ringDataSize * n) := by
  induction n generalizing buf with
  | zero => simp [sendElements]
  | succ n ih =>
    rw [sendElements, mul_succ, Nat.add_comm]
    split_ifs
    · rw [elementBytes_cons, ih, take_nil, append_nil, take_of_length_le (by omega)]
    · rw [elementBytes_cons, ih, take_add]

theorem fresh_sendElements {n : ℕ} {buf : List UInt8} {e : Element}
    (he : e ∈ sendElements n buf) : e.Fresh := by
  induction n generalizing buf with
  | zero => cases he
  | succ n ih =>
    rw [sendElements] at he
    split at he
    all_goals
      obtain rfl | he := mem_cons.mp he
      · exact ⟨nofun, rfl⟩
      · exact ih he

/-- Without wrapping, the elements have room for the bytes, and for less than an
element more. -/
theorem bytesToElements_eq {n : ℕ} (h : n + ringDataSize ≤ word) :
    bytesToElements n = (n + ringDataSize - 1) / ringDataSize := by
  have hsize : ringDataSize = 60 := rfl
  rw [bytesToElements, mod_eq_of_lt (a := n) (by omega), mod_eq_of_lt (by omega)]

theorem split_of_sendMessage {buf : List UInt8} {m : RingMessage}
    (hfits : buf.length + ringDataSize ≤ word) (h : sendMessage buf = .ok m) : m.Split := by
  rw [sendMessage] at h
  split_ifs at h
  cases h
  refine ⟨length_sendElements _ _, ?_, fun e => fresh_sendElements⟩
  have hroom : buf.length ≤ ringDataSize * bytesToElements buf.length := by
    rw [bytesToElements_eq hfits, ringDataSize]
    omega
  exact (elementBytes_sendElements _ _).trans (take_of_length_le hroom)

/-! ## WriteV -/

/-- The number of elements for the bytes in hand and those to come. -/
def Gather.count (g : Gather) : ℕ := (g.elem.length + g.remaining + 59) / 60

/-- What is in hand is less than an element, and nothing once all bytes were
copied. -/
structure Gather.Ok (g : Gather) : Prop where
  length_lt : g.elem.length < ringDataSize
  lt_word : g.remaining < word
  nil_of_zero : g.remaining = 0 → g.elem = []

/-- **What the loop over a vector does**: the bytes are in the elements or in
hand, and the elements are those that were counted. -/
structure Gathered (src : List UInt8) (g : Gather) (r : List Element × Gather) : Prop where
  ok : r.2.Ok
  remaining : r.2.remaining + src.length = g.remaining
  bytes : elementBytes r.1 ++ r.2.elem = g.elem ++ src
  count : r.1.length + r.2.count = g.count
  fresh : ∀ e ∈ r.1, e.Fresh

theorem gatherIov_spec {fuel : ℕ} {src : List UInt8} {g : Gather} (hg : g.Ok)
    (hfuel : src.length ≤ fuel) (hle : src.length ≤ g.remaining) :
    Gathered src g (gatherIov fuel src g) := by
  induction fuel generalizing src g with
  | zero =>
    obtain rfl := eq_nil_of_length_eq_zero (le_zero.mp hfuel)
    exact ⟨hg, rfl, by simp [gatherIov], by simp [gatherIov], by simp [gatherIov]⟩
  | succ fuel ih =>
    rw [gatherIov]
    split
    next hnil =>
      obtain rfl := eq_nil_of_length_eq_zero hnil
      exact ⟨hg, rfl, by simp, by simp, by simp⟩
    next hnil =>
      have hsize : ringDataSize = 60 := rfl
      have hlt := hg.length_lt
      have hword := hg.lt_word
      generalize hc : min src.length (ringDataSize - g.elem.length) = toCopy
      have htake : (src.take toCopy).length = toCopy := by
        rw [length_take]
        omega
      have hdrop : (src.drop toCopy).length = src.length - toCopy := length_drop
      have hrem : (g.remaining + word - toCopy) % word = g.remaining - toCopy := by
        rw [show g.remaining + word - toCopy = g.remaining - toCopy + word by omega,
          add_mod_right, mod_eq_of_lt (by omega)]
      have helem : (g.elem ++ src.take toCopy).length = g.elem.length + toCopy := by
        rw [length_append, htake]
      have hwhole : g.elem ++ src.take toCopy ++ src.drop toCopy = g.elem ++ src := by
        rw [append_assoc, take_append_drop]
      dsimp only
      rw [hrem, helem]
      split
      next hmore =>
        have hok : Gather.Ok ⟨g.elem ++ src.take toCopy, g.remaining - toCopy⟩ :=
          ⟨helem ▸ hmore.1, by dsimp only; omega, fun h0 => absurd h0 hmore.2⟩
        have hr : Gathered (src.drop toCopy) _ _ := ih hok (by omega) (by dsimp only; omega)
        refine ⟨hr.ok, ?_, hr.bytes.trans hwhole, hr.count.trans ?_, hr.fresh⟩
        · have := hr.remaining
          dsimp only at this
          omega
        · simp only [Gather.count]
          congr 1
          omega
      next hfull =>
        have hok : Gather.Ok ⟨[], g.remaining - toCopy⟩ :=
          ⟨zero_lt_succ 59, by dsimp only; omega, fun _ => rfl⟩
        have hr : Gathered (src.drop toCopy) _ _ := ih hok (by omega) (by dsimp only; omega)
        refine ⟨hr.ok, ?_, ?_, ?_, fun e he => ?_⟩
        · have := hr.remaining
          dsimp only at this ⊢
          omega
        · rw [elementBytes_cons, append_assoc, hr.bytes]
          exact hwhole
        · -- a full element, or the last one
          have hcount := hr.count
          simp only [Gather.count, length_cons, length_nil] at hcount ⊢
          rw [Nat.add_right_comm]
          omega
        · obtain rfl | he := mem_cons.mp he
          · refine ⟨?_, rfl⟩
            dsimp only
            split <;> nofun
          · exact hr.fresh e he

variable {iov : List (List UInt8)}

/-- The loop over all vectors leaves nothing in hand. -/
theorem gatherAll_spec {g : Gather} (hg : g.Ok) (hlen : iov.flatten.length = g.remaining) :
    (gatherAll iov g).length = g.count ∧ elementBytes (gatherAll iov g) = g.elem ++ iov.flatten ∧
      ∀ e ∈ gatherAll iov g, e.Fresh := by
  induction iov generalizing g with
  | nil =>
    have hzero : g.remaining = 0 := hlen.symm
    have hnil := hg.nil_of_zero hzero
    refine ⟨?_, ?_, nofun⟩
    · rw [Gather.count, hnil, hzero]
      rfl
    · rw [hnil]
      rfl
  | cons v vs ih =>
    rw [flatten_cons, length_append] at hlen
    have hv : v.take (v.length % word) = v := by
      rw [mod_eq_of_lt (by have := hg.lt_word; omega), take_length]
    have hr : Gathered v g (gatherIov v.length v g) := gatherIov_spec hg (Nat.le_refl _) (by omega)
    obtain ⟨hcount, hbytes, hfresh⟩ := ih hr.ok (by have := hr.remaining; omega)
    rw [gatherAll, hv]
    refine ⟨?_, ?_, fun e he => ?_⟩
    · rw [length_append, hcount, hr.count]
    · rw [elementBytes_append, hbytes, ← append_assoc, hr.bytes, append_assoc, flatten_cons]
    · obtain he | he := mem_append.mp he
      · exact hr.fresh e he
      · exact hfresh e he

theorem split_of_writeVMessage {elemCount : ℕ} {m : RingMessage} (hfits : iov.flatten.length < word)
    (h : writeVMessage elemCount iov = .ok m) : m.Split := by
  have hsize : ringDataSize = 60 := rfl
  have hword : word = 4294967296 := rfl
  rw [writeVMessage] at h
  dsimp only at h
  split_ifs at h with _ _ hneeded
  cases h
  -- in the last 60 lengths of a word no elements are needed, and the call fails
  have hroom : iov.flatten.length + ringDataSize ≤ word := by
    by_contra hlast
    refine hneeded (.inl ?_)
    rw [bytesToElements, hsize, hword]
    omega
  rw [mod_eq_of_lt hfits]
  have hok : Gather.Ok ⟨[], iov.flatten.length⟩ := ⟨zero_lt_succ 59, hfits, fun _ => rfl⟩
  obtain ⟨hcount, hbytes, hfresh⟩ := gatherAll_spec hok rfl
  refine ⟨hcount.trans ?_, hbytes, hfresh⟩
  rw [bytesToElements_eq hroom, Gather.count, length_nil, Nat.zero_add]
  rfl

end Brpc
