import UbsComm.Service.SpliceWhole

/-!
# What a self-polling endpoint puts together

`SyncSpliceMessage` has one buffer. It compares the lengths that the fragments
give and not the numbers of their messages, and it returns when a fragment ends
where its header says that the message ends, whichever bytes have come. What it
returns is one message exactly if for each byte the last fragment that has come for
it is of that message (`syncWhole_iff`); `exists_sync_not_whole` is a message with a
fragment lost.
-/

namespace Service

open List Machine

/-- The fragments that the loop of `SyncSpliceMessage` takes. -/
def syncTaken (acc : List UInt8) : List Received → List (List UInt8)
  | .ok (.fragment, msg) :: received =>
    msg :: match syncSpliceFragment acc msg with
      | .ok (acc, false) => syncTaken acc received
      | _ => []
  | _ => []

/-- The buffer for a fragment: the first one of a message gives it its length. -/
def Incomplete.resize (m : Incomplete) (msg : List UInt8) : Incomplete :=
  let totalLength := (serviceHeader msg).totalLength.toNat
  if (serviceHeader msg).offset = 0 then
    { m with
      buffer := m.buffer.take totalLength ++ replicate (totalLength - m.buffer.length) 0
      source := fun b => if b < totalLength then m.source b else none }
  else m

/-- What fragments make, with the fragment that each byte was copied from last. -/
def Incomplete.syncCopy (m : Incomplete) (frags : List (List UInt8)) : Incomplete :=
  frags.foldl (fun m msg => (m.resize msg).copy msg) m

/-- **What is returned is one message**: its bytes were copied from fragments of one
message that have them for their places. -/
def SyncWhole (frags : List (List UInt8)) (data : List UInt8) : Prop :=
  ∃ msgId, ∀ b < data.length, ∃ f ∈ frags, (Incomplete.syncCopy {} frags).source b = some f
    ∧ (serviceHeader f).msgId = msgId ∧ ∃ byte, data[b]? = some byte ∧ FragmentHas f b byte

/-- A fragment has the place `b`, or is a first one of a message that ends
before it. -/
def Displaces (b : ℕ) (msg : List UInt8) : Prop :=
  Covers msg b ∨ (serviceHeader msg).offset = 0 ∧ (serviceHeader msg).totalLength.toNat ≤ b

instance (b : ℕ) (msg : List UInt8) : Decidable (Displaces b msg) :=
  inferInstanceAs (Decidable (_ ∨ _))

/-- **Fragments of one message have come for every byte** up to the length that
the last one gives, and nothing has displaced them since. -/
def FromOne (frags : List (List UInt8)) : Prop :=
  ∃ msgId, ∀ last ∈ frags.getLast?, ∀ b < (serviceHeader last).totalLength.toNat,
    Since (fun f => Covers f b ∧ (serviceHeader f).msgId = msgId) (Displaces b) frags

variable {m : Incomplete} {msg acc data : List UInt8} {done : Bool} {received : List Received}
  {history : List (List UInt8)}

/-- One round: the fragment is copied into a buffer of the length that it gives. -/
theorem syncSpliceFragment_ok (h : syncSpliceFragment m.buffer msg = .ok (acc, done))
    (hm : m.buffer.length < 2 ^ 32) :
    (m.resize msg).buffer.length = (serviceHeader msg).totalLength.toNat
      ∧ (serviceHeader msg).offset.toNat + (payload msg).length ≤ (m.resize msg).buffer.length
      ∧ acc = ((m.resize msg).copy msg).buffer := by
  have hresize : (if (serviceHeader msg).offset = 0 then _ else m.buffer) = (m.resize msg).buffer :=
    (apply_ite Incomplete.buffer ..).symm
  have hlt : (m.resize msg).buffer.length < 2 ^ 32 := by
    rw [← hresize]
    split_ifs
    · have := (serviceHeader msg).totalLength.toNat_lt
      rw [length_append, length_take, length_replicate]
      omega
    · exact hm
  unfold syncSpliceFragment at h
  dsimp only at h
  rw [hresize] at h
  split_ifs at h with _ _ hlength _ hcopied
  obtain ⟨-, hfits, hcopy⟩ := memcpyS_of_fst hcopied
  cases h
  rw [not_not.mp hlength]
  exact ⟨(Nat.mod_eq_of_lt hlt).symm, hfits, hcopy⟩

theorem Incomplete.Sound.resize (h : m.Sound history) : (m.resize msg).Sound history := by
  unfold Incomplete.resize
  split_ifs
  · intro b f hf
    obtain ⟨hb, hf⟩ := Option.ite_none_right_eq_some.mp hf
    obtain ⟨hmem, byte, hbyte, hhas⟩ := h b f hf
    refine ⟨hmem, byte, ?_, hhas⟩
    rw [getElem?_append_left, getElem?_take_of_lt hb, hbyte]
    rw [length_take]
    exact lt_min hb (List.getElem?_eq_some_iff.mp hbyte).1
  · exact h

/-- The fragment that a byte was copied from last is the last that had its
place, and nothing has displaced it. -/
theorem Incomplete.syncCopy_source (frags : List (List UInt8)) (b : ℕ) (f : List UInt8) :
    (Incomplete.syncCopy {} frags).source b = some f
      ↔ Since (fun g => Covers g b ∧ g = f) (Displaces b) frags := by
  induction frags using reverseRecOn with
  | nil => exact iff_of_false nofun not_since_nil
  | append_singleton frags msg ih =>
    rw [since_concat, ← ih, syncCopy, foldl_append]
    show (if Covers msg b then some msg
      else ((syncCopy {} frags).resize msg).source b) = some f ↔ _
    unfold Displaces resize
    by_cases hcovers : Covers msg b
    · simp [hcovers]
    · by_cases hfirst : (serviceHeader msg).offset = 0
      · simp [hcovers, hfirst, and_comm]
      · simp [hcovers, hfirst]

/-- **The loop** returns what the fragments make. -/
theorem syncSpliceLoop_ok (h : syncSpliceLoop m.buffer received = some (.ok data))
    (hm : m.buffer.length < 2 ^ 32) (hsound : m.Sound history)
    (hhistory : syncTaken m.buffer received ⊆ history) :
    data = (m.syncCopy (syncTaken m.buffer received)).buffer
      ∧ (m.syncCopy (syncTaken m.buffer received)).Sound history
      ∧ ∃ last ∈ (syncTaken m.buffer received).getLast?,
        (serviceHeader last).totalLength.toNat = data.length := by
  induction received generalizing m with
  | nil => cases h
  | cons r received ih =>
    match r, h with
    | .ok (.fragment, msg), h =>
      unfold syncSpliceLoop at h
      unfold syncTaken at hhistory ⊢
      cases hround : syncSpliceFragment m.buffer msg with
      | error code =>
        rw [hround] at h
        cases h
      | ok r =>
        obtain ⟨acc, done⟩ := r
        obtain ⟨hlen, hfits, rfl⟩ := syncSpliceFragment_ok hround hm
        have hsound' := hsound.resize.copy (hhistory mem_cons_self) hfits
        have hlength : ((m.resize msg).copy msg).buffer.length
            = (serviceHeader msg).totalLength.toNat := (length_overlay hfits).trans hlen
        rw [hround] at h hhistory
        cases done with
        | true =>
          cases h
          exact ⟨rfl, hsound', msg, rfl, hlength.symm⟩
        | false =>
          obtain ⟨hdata, hsound, last, hlast, htotal⟩ := ih h
            (hlength ▸ (serviceHeader msg).totalLength.toNat_lt) hsound'
            fun f hf => hhistory (mem_cons_of_mem msg hf)
          exact ⟨hdata, hsound, last, mem_getLast?_cons hlast, htotal⟩

/-- **Whole or not**: no round copies beyond the end of its buffer, and what is returned
where the first message is a fragment is one message if and only if fragments of one
message have come for all of it. -/
theorem syncWhole_iff {received : List Received} {data : List UInt8}
    (h : syncSpliceMessage received = some (.ok data))
    (hfragment : ∀ msg, received.head? ≠ some (.ok (.raw, msg))) :
    (∀ acc msg r, acc.length < 2 ^ 32 → syncSpliceFragment acc msg = .ok r →
        (serviceHeader msg).offset.toNat + (payload msg).length ≤ r.1.length)
      ∧ (SyncWhole (syncTaken [] received) data ↔ FromOne (syncTaken [] received)) := by
  have hloop : syncSpliceLoop [] received = some (.ok data) := by
    unfold syncSpliceMessage at h
    split at h
    · exact absurd rfl (hfragment _)
    · exact h
  obtain ⟨hdata, hsound, last, hlast, htotal⟩ :=
    syncSpliceLoop_ok (m := {}) hloop (by decide) (fun _ _ => nofun) (Subset.refl _)
  refine ⟨fun acc msg r hacc hr => ?_, exists_congr fun msgId => ⟨fun h => ?_, fun h b hb => ?_⟩⟩
  · obtain ⟨-, hfits, heq⟩ := syncSpliceFragment_ok (m := { buffer := acc }) hr hacc
    rw [heq, Incomplete.copy, length_overlay hfits]
    exact hfits
  · rintro last' hlast' b hb
    obtain rfl : last = last' := Option.some.inj (hlast.symm.trans hlast')
    obtain ⟨f, -, hf, hid, -⟩ := h b (htotal ▸ hb)
    exact ((Incomplete.syncCopy_source _ _ _).mp hf).imp fun g hg => ⟨hg.1, hg.2 ▸ hid⟩
  · obtain ⟨before, f, after, heq, ⟨hcovers, hid⟩, hafter⟩ := h last hlast b (htotal ▸ hb)
    have hf := (Incomplete.syncCopy_source _ b f).mpr
      ⟨before, f, after, heq, ⟨hcovers, rfl⟩, hafter⟩
    obtain ⟨hmem, hbyte⟩ := hsound b f hf
    exact ⟨f, hmem, hf, hid, hdata ▸ hbyte⟩

theorem syncWhole_shortFragments : ∃ received, syncSpliceMessage received = some (.ok [72, 105, 33])
      ∧ SyncWhole (syncTaken [] received) [72, 105, 33] := by
  refine ⟨[.ok (.fragment, shortFragment 0 [72, 105]), .ok (.fragment, shortFragment 2 [33])],
    rfl, (syncWhole_iff rfl (by simp)).2.mpr ⟨⟨7, 1⟩, ?_⟩⟩
  rintro _ ⟨⟩ (_ | _ | _ | b) hb
  · exact ⟨[], _, [_], rfl, ⟨by decide, by decide⟩, by decide⟩
  · exact ⟨[], _, [_], rfl, ⟨by decide, by decide⟩, by decide⟩
  · exact ⟨[_], _, [], rfl, ⟨by decide, by decide⟩, nofun⟩
  · exact absurd (show b + 3 < 3 from hb) (by omega)

/-- **A message with a fragment lost is returned**, with a zero in its place. -/
theorem exists_sync_not_whole : ∃ received, syncSpliceMessage received = some (.ok [72, 0, 33])
      ∧ ¬SyncWhole (syncTaken [] received) [72, 0, 33] := by
  refine ⟨[.ok (.fragment, shortFragment 0 [72]), .ok (.fragment, shortFragment 2 [33])], rfl,
    fun ⟨msgId, hwhole⟩ => ?_⟩
  obtain ⟨f, -, hf, -⟩ := hwhole 1 (by decide)
  exact Option.some_ne_none f (hf.symm.trans rfl)

end Service
