import UbsComm.Lib.Window
import UbsComm.Brpc.RingMessages

/-!
# The ring delivers the stream

Whatever the threads do in whatever order, what the receiver has read is a
beginning of the messages that were reserved, one after the other
(`delivers_of_ringRun`). Every element has its position in the sequence of all
elements ever reserved. From the position `front` on, which the receiver is about
to look at, the positions are a window on the ring (`Cyclic.Window`): an element
stands at its position once the thread that has reserved it has written it, and
the cell is empty as long as the element is pending, and where nothing is
reserved. Since a thread reserves only what the receiver has said to be free, no
position outside the window is ever written.

Between `front` and the receiver's own count is at most the element that it has
just cleared, and between that and the word that it has told the senders fewer
elements than the threshold.
-/

namespace Brpc

open Function List RingState Machine Nat Option

/-! ## What is pending and what stands -/

/-- The thread still has to write the element at a position. -/
def ProducerPc.Covers : ProducerPc → ℕ → Prop
  | .writing prodHead _ _ written elements, j =>
    prodHead + written ≤ j ∧ j < prodHead + written + elements.length
  | .idle _, _ | .loadHead _, _ | .loadTail _ _, _ | .cas _ _, _ => False

section Want

variable {pending pending' : ℕ → Prop} {reserved : List Element} {front r r' j p : ℕ}
  {e : Element}

/-- The element at a position was written. -/
def Stands (pending : ℕ → Prop) (reserved : List Element) (j : ℕ) (e : Element) : Prop :=
  ¬pending j ∧ reserved[j]? = some e

/-- The first element may be read in part. -/
def readTo (front r j : ℕ) (e : Element) : Element :=
  if j = front then { e with readOffset := r } else e

open Classical in
/-- What the window shows of the elements. -/
noncomputable def want (pending : ℕ → Prop) (reserved : List Element) (front r j : ℕ) :
    Option Element :=
  if pending j then none else reserved[j]?.map (readTo front r j)

theorem want_of_pending (h : pending j) : want pending reserved front r j = none := if_pos h

theorem want_of_not_pending (h : ¬pending j) :
    want pending reserved front r j = reserved[j]?.map (readTo front r j) := if_neg h

theorem want_of_length_le (h : reserved.length ≤ j) : want pending reserved front r j = none := by
  rw [want, getElem?_eq_none h]
  split <;> rfl

theorem Stands.want_eq (h : Stands pending reserved j e) :
    want pending reserved front r j = some (readTo front r j e) := by
  rw [want_of_not_pending h.1, h.2, map_some]

theorem Stands.lt_length (h : Stands pending reserved j e) : j < reserved.length :=
  (List.getElem?_eq_some_iff.mp h.2).1

theorem exists_stands_of_want_ne (h : want pending reserved front r j ≠ none) :
    ∃ e, Stands pending reserved j e := by
  by_cases hp : pending j
  · exact absurd (want_of_pending hp) h
  · rw [want_of_not_pending hp] at h
    obtain ⟨e, he⟩ := ne_none_iff_exists'.mp fun hn => h (congrArg _ hn)
    exact ⟨e, hp, he⟩

theorem want_congr {reserved' : List Element} (hp : pending' j ↔ pending j)
    (hres : reserved'[j]?.map (readTo p r' j) = reserved[j]?.map (readTo front r j)) :
    want pending' reserved' p r' j = want pending reserved front r j := by
  by_cases h : pending j
  · rw [want_of_pending h, want_of_pending (hp.mpr h)]
  · rw [want_of_not_pending h, want_of_not_pending (h ∘ hp.mp), hres]

/-- Away from the first position nothing depends on how much of it was read. -/
theorem readTo_of_ne (hj : j ≠ front) : readTo front r j = id := by
  funext e
  exact if_neg hj

end Want

/-! ## The invariant -/

/-- What a thread that sends knows. What it has computed to be free is free if
nobody has reserved since it read the head. -/
def ProducerOk (cfg : RingConfig) (reserved : List Element) (txTail front : ℕ) : ProducerPc → Prop
  | .idle _ => True
  | .loadHead m => m.Split
  | .loadTail m prodHead => m.Split ∧ prodHead ≤ reserved.length
  | .cas m prodHead => m.Split ∧ prodHead ≤ reserved.length ∧
    (prodHead = reserved.length → prodHead + m.elementsNeeded + 1 ≤ txTail + cfg.elemCount)
  | .writing prodHead _ _ written elements =>
    (elements ≠ [] → front ≤ prodHead + written) ∧ elements <+: reserved.drop (prodHead + written)

/-- Where the thread that receives is: `r` is the offset in the element at `front`,
and `off` how much of it was read. -/
def ConsumerOk (pending : ℕ → Prop) (reserved : List Element) (cons front r off : ℕ) :
    ConsumerPc → Prop
  | .idle _ | .look _ _ => cons = front ∧ off = r
  | .copy _ _ => cons = front ∧ off = r ∧ ∃ e, Stands pending reserved front e
  | .copied readOffset dataLen _ _ => cons = front ∧ readOffset = off ∧
    ∃ e, Stands pending reserved front e ∧ e.data.length = dataLen
  | .clear _ _ => cons = front ∧ r = 0 ∧ ∃ e, Stands pending reserved front e ∧ e.data.length ≤ off
  | .advance _ _ => cons + 1 = front ∧ r = 0 ∧ off = 0

/-- The bytes of the element that is read in part. -/
def partBytes (reserved : List Element) (front off : ℕ) : List UInt8 :=
  reserved[front]?.elim [] fun e => e.data.take off

theorem partBytes_zero {reserved : List Element} {front : ℕ} : partBytes reserved front 0 = [] := by
  rw [partBytes]
  cases reserved[front]? <;> rfl

/-- **What the senders have in hand**: each knows what it may, and they have
different elements to write, which are those pending. -/
structure Threads (cfg : RingConfig) (producers : ℕ → ProducerPc) (reserved : List Element)
    (txTail front : ℕ) (pending : ℕ → Prop) : Prop where
  producer : ∀ t, ProducerOk cfg reserved txTail front (producers t)
  pending_iff : ∀ j, pending j ↔ ∃ t, (producers t).Covers j
  apart : ∀ t t' j, (producers t).Covers j → (producers t').Covers j → t = t'

/-- **The invariant of the ring.** -/
structure RingInv (cfg : RingConfig) (s : RingState) (pending : ℕ → Prop)
    (front r off : ℕ) : Prop where
  few : s.reserved.length < word
  head : s.prodHead = s.reserved.length
  bytes : elementBytes s.reserved = s.sent.flatten
  fresh : ∀ e ∈ s.reserved, e.Fresh
  counted : s.txTail + s.consCnt = s.cons
  lag : s.consCnt = 0 ∨ s.consCnt < cfg.updateLim
  room : s.reserved.length + 1 ≤ s.txTail + cfg.elemCount
  front_le : front ≤ s.reserved.length
  threads : Threads cfg s.producers s.reserved s.txTail front pending
  window : Cyclic.Window cfg.elemCount s.elems (fun e => e.hasData = .empty) front
    (want pending s.reserved front r)
  consumer : ConsumerOk pending s.reserved s.cons front r off s.consumer
  start : (∀ e, ¬Stands pending s.reserved front e) → r = 0 ∧ off = 0
  out : s.out = elementBytes (s.reserved.take front) ++ partBytes s.reserved front off

section Frames

variable {cfg : RingConfig} {pending pending' : ℕ → Prop} {reserved reserved' : List Element}
  {txTail txTail' cons front front' r off : ℕ} {pc : ProducerPc} {j : ℕ}

/-- What a sender knows stays right when more is reserved and more is freed. -/
theorem ProducerOk.mono (h : ProducerOk cfg reserved txTail front pc)
    (hres : reserved <+: reserved') (htail : txTail ≤ txTail')
    (hfront : ∀ j, pc.Covers j → front' ≤ j) : ProducerOk cfg reserved' txTail' front' pc := by
  have hlen := hres.length_le
  cases pc with
  | idle => trivial
  | loadHead m => exact h
  | loadTail m prodHead => exact ⟨h.1, h.2.trans hlen⟩
  | cas m prodHead =>
    refine ⟨h.1, h.2.1.trans hlen, fun heq => ?_⟩
    have := h.2.2 (le_antisymm h.2.1 (heq ▸ hlen))
    omega
  | writing prodHead prodNext len written elements =>
    refine ⟨fun hne => hfront _ ⟨le_rfl, ?_⟩, h.2.trans (hres.drop _)⟩
    exact Nat.lt_add_of_pos_right (length_pos_of_ne_nil hne)

/-- What a sender has to write is not behind the first position. -/
theorem ProducerOk.front_le (h : ProducerOk cfg reserved txTail front pc)
    (hc : pc.Covers j) : front ≤ j := by
  cases pc with
  | writing prodHead prodNext len written elements =>
    refine (h.1 fun hnil => ?_).trans hc.1
    have := hc.2
    rw [hnil] at this
    exact absurd hc.1 (this.not_ge)
  | idle | loadHead | loadTail | cas => exact hc.elim

/-- The receiver only needs that what stands stays. -/
theorem ConsumerOk.mono {pc : ConsumerPc} (h : ConsumerOk pending reserved cons front r off pc)
    (hst : ∀ e, Stands pending reserved front e → Stands pending' reserved' front e) :
    ConsumerOk pending' reserved' cons front r off pc := by
  cases pc with
  | idle | look | advance => exact h
  | copy =>
    obtain ⟨hc, hr, e, he⟩ := h
    exact ⟨hc, hr, e, hst e he⟩
  | copied | clear =>
    obtain ⟨hc, hr, e, he, hlen⟩ := h
    exact ⟨hc, hr, e, hst e he, hlen⟩

theorem ProducerOk.lt_length (h : ProducerOk cfg reserved txTail front pc)
    (hc : pc.Covers j) : j < reserved.length := by
  cases pc with
  | writing prodHead prodNext len written elements =>
    obtain ⟨hge, hlt⟩ : prodHead + written ≤ j ∧ j < prodHead + written + elements.length := hc
    have hle := h.2.length_le
    rw [length_drop] at hle
    omega
  | idle | loadHead | loadTail | cas => exact hc.elim

namespace Threads

variable {producers : ℕ → ProducerPc} {t : ℕ} {pc : ProducerPc}

section

variable (h : Threads cfg producers reserved txTail front pending)
include h

theorem front_le (hj : pending j) : front ≤ j := by
  obtain ⟨t, ht⟩ := (h.pending_iff j).mp hj
  exact (h.producer t).front_le ht

theorem lt_length (hj : pending j) : j < reserved.length := by
  obtain ⟨t, ht⟩ := (h.pending_iff j).mp hj
  exact (h.producer t).lt_length ht

theorem mono (htail : txTail ≤ txTail') (hfront : ∀ j, pending j → front' ≤ j) :
    Threads cfg producers reserved txTail' front' pending :=
  { h with
    producer := fun t => (h.producer t).mono (prefix_refl reserved) htail
      fun j hj => hfront j ((h.pending_iff j).mpr ⟨t, hj⟩) }

/-- **A sender takes a step**: what it then has to write, it had before or nobody
had. -/
theorem update (hres : reserved <+: reserved') (hok : ProducerOk cfg reserved' txTail front pc)
    (hnew : ∀ j, pc.Covers j → (producers t).Covers j ∨ ¬pending j)
    (hpending : ∀ j, pending' j ↔ pc.Covers j ∨ pending j ∧ ¬(producers t).Covers j) :
    Threads cfg (update producers t pc) reserved' txTail front pending' := by
  -- nobody else has what the thread has now
  have hother : ∀ t' j, pc.Covers j → (producers t').Covers j → t' = t := by
    intro t' j hj hj'
    obtain hold | hnone := hnew j hj
    · exact h.apart t' t j hj' hold
    · exact absurd ((h.pending_iff j).mpr ⟨t', hj'⟩) hnone
  refine ⟨(forall_update_iff _ _).mpr ⟨hok, fun t' _ => ?_⟩, fun j => ?_, fun t₁ t₂ j h₁ h₂ => ?_⟩
  · exact (h.producer t').mono hres le_rfl fun j => (h.producer t').front_le
  · rw [hpending j]
    constructor
    · rintro (hj | ⟨hj, hnot⟩)
      · exact ⟨t, by rwa [update_self]⟩
      · obtain ⟨t', ht'⟩ := (h.pending_iff j).mp hj
        have hne : t' ≠ t := fun heq => hnot (heq ▸ ht')
        exact ⟨t', by rwa [update_of_ne hne]⟩
    · rintro ⟨t', ht'⟩
      rw [update_apply] at ht'
      split_ifs at ht' with ht
      · exact .inl ht'
      · refine .inr ⟨(h.pending_iff j).mpr ⟨t', ht'⟩, fun hold => ht ?_⟩
        exact h.apart t' t j ht' hold
  · rw [update_apply] at h₁ h₂
    split_ifs at h₁ h₂ with ht₁ ht₂ ht₂
    · exact ht₁.trans ht₂.symm
    · exact absurd (hother t₂ j h₁ h₂) ht₂
    · exact absurd (hother t₁ j h₂ h₁) ht₁
    · exact h.apart t₁ t₂ j h₁ h₂

end

end Threads

theorem ConsumerOk.cons_le {pc : ConsumerPc}
    (h : ConsumerOk pending reserved cons front r off pc) : cons ≤ front := by
  cases pc with
  | advance => exact h.1 ▸ le_succ cons
  | idle | look | copy | copied | clear => exact h.1.le

/-- The free elements as they are, when the two counts are of one window. -/
theorem ringFreeElements_eq {head tail size : ℕ} (hle : tail ≤ head) (hlt : head + 1 ≤ tail + size)
    (hsize : size < word) : ringFreeElements head tail size = tail + size - head - 1 := by
  have hshift : tail + size + 2 * word - head - 1 = tail + size - head - 1 + word + word := by omega
  have hfree : tail + size - head - 1 < size := by omega
  rw [ringFreeElements, hshift, add_mod_right, add_mod_right,
    mod_eq_of_lt (hfree.trans hsize), mod_eq_of_lt hfree]

end Frames

namespace RingInv

variable {cfg : RingConfig} {s : RingState} {pending : ℕ → Prop} {front r off t : ℕ}
  {pc : ProducerPc} {e : Element}

section

variable (h : RingInv cfg s pending front r off)
include h

theorem cons_le : s.cons ≤ front := h.consumer.cons_le

theorem length_lt : s.reserved.length < front + cfg.elemCount := by
  have := h.room
  have := h.counted
  have := h.cons_le
  omega

theorem elem_front (he : Stands pending s.reserved front e) :
    s.elems (front % cfg.elemCount) = { e with readOffset := r } := by
  have hlt : front < front + cfg.elemCount := he.lt_length.trans h.length_lt
  have hw : want pending s.reserved front r front = some (readTo front r front e) := he.want_eq
  rw [readTo, if_pos rfl] at hw
  exact h.window.holds front le_rfl hlt _ hw

/-! ## Steps of a sender -/

theorem setProducer {old : ProducerPc} (hpc : s.producers t = old) (hold : ∀ j, ¬old.Covers j)
    (hnew : ∀ j, ¬pc.Covers j) (hok : ProducerOk cfg s.reserved s.txTail front pc) :
    RingInv cfg (s.setProducer t pc) pending front r off :=
  { h with
    threads := h.threads.update (prefix_refl _) hok (fun j hj => absurd hj (hnew j)) fun j =>
      ⟨fun hj => .inr ⟨hj, hpc ▸ hold j⟩, fun hj => hj.elim (absurd · (hnew j)) And.left⟩ }

/-- **The elements of a message are reserved.** -/
theorem reserve {m : RingMessage} {prodHead : ℕ} (hpc : s.producers t = .cas m prodHead)
    (heq : s.prodHead = prodHead) (hfew : (s.reserved ++ m.elements).length < word) :
    RingInv cfg
      ((s.reserve m ((prodHead + m.elementsNeeded) % word)).setProducer t
        (.writing prodHead ((prodHead + m.elementsNeeded) % word) m.bytes.length 0 m.elements))
      (fun j => pending j ∨ (prodHead ≤ j ∧ j < prodHead + m.elements.length)) front r off := by
  have hok : ProducerOk cfg s.reserved s.txTail front (.cas m prodHead) :=
    hpc ▸ h.threads.producer t
  obtain ⟨hsplit, -, hroom⟩ := hok
  have hhead : prodHead = s.reserved.length := heq ▸ h.head
  have hlen : (s.reserved ++ m.elements).length = prodHead + m.elementsNeeded := by
    rw [length_append, hsplit.length_eq, hhead]
  -- a position that was reserved before is as it was
  have hpend : ∀ j, j < s.reserved.length →
      ((pending j ∨ (prodHead ≤ j ∧ j < prodHead + m.elements.length)) ↔ pending j) := by
    intro j hj
    refine or_iff_left fun hnew => ?_
    omega
  have hget : ∀ j, j < s.reserved.length → (s.reserved ++ m.elements)[j]? = s.reserved[j]? :=
    fun j hj => getElem?_append_left hj
  have hstay : ∀ e, Stands pending s.reserved front e → Stands
      (fun j => pending j ∨ (prodHead ≤ j ∧ j < prodHead + m.elements.length))
      (s.reserved ++ m.elements) front e := by
    intro e he
    refine ⟨fun hp => he.1 ((hpend front he.lt_length).mp hp), ?_⟩
    rw [hget front he.lt_length]
    exact he.2
  refine ⟨hfew, ?_, ?_, forall_mem_append.mpr ⟨h.fresh, hsplit.fresh⟩, h.counted, h.lag, ?_, ?_, ?_,
    ?_, h.consumer.mono hstay, fun hnone => ?_, ?_⟩
  · exact (mod_eq_of_lt (hlen ▸ hfew)).trans hlen.symm
  · have hflat : (s.sent ++ [m.bytes]).flatten = s.sent.flatten ++ m.bytes := by
      rw [flatten_append, flatten_singleton]
    exact (elementBytes_append _ _).trans
      ((congrArg₂ (· ++ ·) h.bytes hsplit.bytes_eq).trans hflat.symm)
  · have := hroom hhead
    show (s.reserved ++ m.elements).length + 1 ≤ s.txTail + cfg.elemCount
    omega
  · exact h.front_le.trans (prefix_append _ _).length_le
  · refine h.threads.update (prefix_append _ _) ⟨fun _ => ?_, ?_⟩ (fun j hj => ?_) fun j => ?_
    · exact h.front_le.trans (hhead.symm.le)
    · show m.elements <+: (s.reserved ++ m.elements).drop (prodHead + 0)
      rw [hhead, add_zero, drop_left]
    · refine .inr fun hp => ?_
      have := h.threads.lt_length hp
      have := hj.1
      omega
    · rw [hpc]
      show _ ↔ (prodHead + 0 ≤ j ∧ j < prodHead + 0 + m.elements.length) ∨ (pending j ∧ ¬False)
      rw [not_false_eq_true, and_true, add_zero, or_comm]
  · refine h.window.congr fun j _ _ => ?_
    show want _ (s.reserved ++ m.elements) front r j = want pending s.reserved front r j
    by_cases hj : j < s.reserved.length
    · exact want_congr (hpend j hj) (congrArg _ (hget j hj))
    · rw [want_of_length_le (Nat.le_of_not_lt hj)]
      by_cases hj' : j < prodHead + m.elements.length
      · exact want_of_pending (.inr ⟨by omega, hj'⟩)
      · refine want_of_length_le ?_
        rw [length_append]
        omega
  · exact h.start fun e he => hnone e (hstay e he)
  · show s.out = elementBytes ((s.reserved ++ m.elements).take front)
        ++ partBytes (s.reserved ++ m.elements) front off
    rw [take_append_of_le_length h.front_le, h.out]
    congr 1
    by_cases hlt : front < s.reserved.length
    · rw [partBytes, partBytes, hget front hlt]
    · -- nothing of the first new element was read
      have hoff : off = 0 := (h.start fun e he => hlt he.lt_length).2
      rw [hoff, partBytes_zero, partBytes_zero]

/-- **An element is written** at its position. -/
theorem write {prodHead prodNext len written : ℕ} {es : List Element}
    (hpc : s.producers t = .writing prodHead prodNext len written (e :: es)) :
    (s.elemAt cfg ((prodHead + written) % word)).hasData = .empty ∧
    RingInv cfg
      ((s.setElem cfg ((prodHead + written) % word) e).setProducer t
        (.writing prodHead prodNext len (written + 1) es))
      (fun j => pending j ∧ j ≠ prodHead + written) front r off := by
  have hok : ProducerOk cfg s.reserved s.txTail front
      (.writing prodHead prodNext len written (e :: es)) := hpc ▸ h.threads.producer t
  obtain ⟨hfront, hpre⟩ := hok
  generalize hp : prodHead + written = p at *
  have hfp : front ≤ p := hfront (cons_ne_nil e es)
  have hcov : ∀ j, (s.producers t).Covers j ↔ p ≤ j ∧ j < p + (es.length + 1) := by
    intro j
    rw [hpc, ← hp]
    rfl
  have hpend : pending p := (h.threads.pending_iff p).mpr ⟨t, (hcov p).mpr ⟨le_refl p, by omega⟩⟩
  have hlt : p < s.reserved.length := h.threads.lt_length hpend
  have hget : s.reserved[p]? = some e := by
    obtain ⟨rest, hrest⟩ := hpre
    rw [← head?_drop, ← hrest]
    rfl
  have hmod : p % word = p := mod_eq_of_lt (hlt.trans h.few)
  have hwin : p < front + cfg.elemCount := hlt.trans h.length_lt
  have hstay : ∀ e, Stands pending s.reserved front e →
      Stands (fun j => pending j ∧ j ≠ p) s.reserved front e :=
    fun e he => ⟨fun hp => he.1 hp.1, he.2⟩
  rw [hmod]
  refine ⟨h.window.vacant p hfp hwin (want_of_pending hpend), ?_⟩
  refine { h with threads := ?_, window := ?_, consumer := h.consumer.mono hstay,
                  start := fun hnone => h.start fun e he => hnone e (hstay e he) }
  · refine h.threads.update (prefix_refl _) ⟨fun _ => ?_, ?_⟩ (fun j hj => ?_) fun j => ?_
    · omega
    · obtain ⟨rest, hrest⟩ := hpre
      refine ⟨rest, ?_⟩
      show es ++ rest = s.reserved.drop (prodHead + (written + 1))
      rw [← add_assoc, hp, ← drop_drop, ← hrest]
      rfl
    · refine .inl ((hcov j).mpr ?_)
      obtain ⟨hj₁, hj₂⟩ := hj
      omega
    · rw [hcov j]
      show _ ↔ (prodHead + (written + 1) ≤ j ∧ j < prodHead + (written + 1) + es.length) ∨ _
      constructor
      · rintro ⟨hj, hne⟩
        by_cases hold : p ≤ j ∧ j < p + (es.length + 1)
        · exact .inl (by omega)
        · exact .inr ⟨hj, hold⟩
      · rintro (hj | ⟨hj, hold⟩)
        · refine ⟨(h.threads.pending_iff j).mpr ⟨t, (hcov j).mpr (by omega)⟩, by omega⟩
        · exact ⟨hj, by omega⟩
  · -- nothing was read of an element that is only written now
    have hread : readTo front r p e = e := by
      rw [readTo]
      split_ifs with heq
      · have hzero : r = 0 := (h.start fun e he => he.1 (heq ▸ hpend)).1
        rw [hzero, ← (h.fresh e (mem_of_getElem? hget)).2]
      · rfl
    refine (h.window.update (a := e) (o := some e) hfp hwin (fun b hb => some.inj hb)
      fun hn => absurd hn (some_ne_none e)).congr fun j _ _ => ?_
    by_cases hj : j = p
    · subst hj
      rw [update_self, want_of_not_pending fun hp' => hp'.2 rfl]
      exact (congrArg _ hget).trans (congrArg some hread)
    · rw [update_of_ne hj]
      exact want_congr (and_iff_left hj) rfl

/-! ## Steps of the receiver -/

theorem exists_stands (hne : (s.elems (front % cfg.elemCount)).hasData ≠ .empty) :
    ∃ e, Stands pending s.reserved front e := by
  have hpos : 0 < cfg.elemCount := Nat.two_pos.trans_le cfg.two_le
  have hwant : want pending s.reserved front r front ≠ none := fun hnone =>
    hne (h.window.vacant front le_rfl (Nat.lt_add_of_pos_right hpos) hnone)
  exact exists_stands_of_want_ne hwant

theorem setOffset {r' : ℕ} (he : Stands pending s.reserved front e) :
    Cyclic.Window cfg.elemCount (update s.elems (front % cfg.elemCount)
        { s.elems (front % cfg.elemCount) with readOffset := r' })
      (fun e => e.hasData = .empty) front (want pending s.reserved front r') := by
  have hwin : front < front + cfg.elemCount := he.lt_length.trans h.length_lt
  rw [h.elem_front he]
  refine (h.window.update (o := some { e with readOffset := r' }) le_rfl hwin
    (fun b hb => some.inj hb) fun hn => absurd hn (some_ne_none _)).congr
    fun j _ _ => ?_
  by_cases hj : j = front
  · subst hj
    rw [update_self, he.want_eq, readTo, if_pos rfl]
  · rw [update_of_ne hj]
    exact want_congr Iff.rfl (by rw [readTo_of_ne hj, readTo_of_ne hj])

/-- **The first element is cleared**, all of it having been read. -/
theorem clear (he : Stands pending s.reserved front e) (hcons : s.cons = front)
    (hall : e.data.length ≤ off) (room : List ℕ) (totalRead : ℕ) :
    RingInv cfg ((s.setElem cfg s.cons { s.elemAt cfg s.cons with hasData := .empty }).setConsumer
        (.advance room totalRead)) pending (front + 1) 0 0 := by
  have hlt := he.lt_length
  have hwin : front < front + cfg.elemCount := hlt.trans h.length_lt
  have hpos : 0 < cfg.elemCount := Nat.two_pos.trans_le cfg.two_le
  -- what is pending comes after the element
  have hpend : ∀ j, pending j → front + 1 ≤ j := by
    intro j hj
    have hne : front ≠ j := fun heq => he.1 (heq ▸ hj)
    exact lt_of_le_of_ne (h.threads.front_le hj) hne
  refine { h with front_le := hlt, threads := h.threads.mono le_rfl hpend, window := ?_,
                  consumer := ⟨congrArg (· + 1) hcons, rfl, rfl⟩, start := fun _ => ⟨rfl, rfl⟩,
                  out := ?_ }
  · rw [hcons]
    have hset := h.window.update (o := none)
      (a := { s.elemAt cfg front with hasData := .empty }) le_rfl hwin
      (fun b hb => absurd hb.symm (some_ne_none b)) fun _ => rfl
    refine (hset.advance hpos (update_self _ _ _) ?_).congr fun j hj _ => ?_
    · rw [update_of_ne (hwin.ne')]
      exact want_of_length_le (h.length_lt.le)
    · have hne : j ≠ front := by omega
      rw [update_of_ne hne]
      refine want_congr Iff.rfl ?_
      show s.reserved[j]?.map _ = s.reserved[j]?.map _
      cases hget : s.reserved[j]? with
      | none => rfl
      | some e' =>
        -- nothing of the elements behind the first was read
        have hzero := (h.fresh e' (mem_of_getElem? hget)).2
        rw [map_some, map_some, readTo_of_ne hne, readTo, ← hzero]
        exact congrArg some (ite_self _)
  · show s.out = elementBytes (s.reserved.take (front + 1)) ++ partBytes s.reserved (front + 1) 0
    have hpart : partBytes s.reserved front off = e.data := by
      rw [partBytes, he.2, elim_some, take_of_length_le hall]
    rw [partBytes_zero, append_nil, h.out, hpart, take_add_one, he.2, elementBytes_append]
    congr 1
    exact (append_nil e.data).symm

end

/-- **The receiver counts the element**, and tells the senders now and then. -/
theorem advance (h : RingInv cfg s pending front 0 0) (hcons : s.cons + 1 = front)
    (room : List ℕ) (totalRead : ℕ) :
    RingInv cfg ((s.advanceCons cfg).setConsumer (.look room totalRead)) pending front 0 0 := by
  have hcounted := h.counted
  have hlt : s.cons + 1 < word := by
    rw [hcons]
    exact h.front_le.trans_lt h.few
  have hroom := h.room
  rw [advanceCons, mod_eq_of_lt hlt, mod_eq_of_lt (show s.consCnt + 1 < word by omega)]
  split_ifs with hlim
  · refine { h with counted := add_zero _, lag := .inl rfl, room := ?_,
                    threads := ?_, consumer := ⟨hcons, rfl⟩ }
    · show s.reserved.length + 1 ≤ s.cons + 1 + cfg.elemCount
      omega
    · have htail : s.txTail ≤ s.cons + 1 := by omega
      exact h.threads.mono htail fun j => h.threads.front_le
  · refine { h with counted := ?_, lag := .inr (Nat.lt_of_not_le hlim), consumer := ⟨hcons, rfl⟩ }
    show s.txTail + (s.consCnt + 1) = s.cons + 1
    omega

end RingInv

/-! ## Steps and runs -/

section Steps

variable {cfg : RingConfig} {s s' : RingState} {pending : ℕ → Prop} {front r off t : ℕ}

section

variable (h : RingInv cfg s pending front r off) {a : RingAction}
include h

theorem RingInv.call {m : Except Int RingMessage} (hm : ∀ m', m = .ok m' → m'.Split)
    (hs : s.call t m = some s') : RingInv cfg s' pending front r off := by
  unfold RingState.call at hs
  generalize hpc : s.producers t = pc at hs
  cases pc with
  | idle =>
    cases m with
    | error r =>
      cases hs
      exact h.setProducer hpc (fun _ => id) (fun _ => id) trivial
    | ok m =>
      cases hs
      exact h.setProducer hpc (fun _ => id) (fun _ => id) (hm m rfl)
  | loadHead | loadTail | cas | writing => cases hs

/-- **A sender's step keeps the invariant.** -/
theorem RingInv.producerStep {fails : Bool}
    (hfew : s'.reserved.length < word) (hs : s.producerStep cfg t fails = some s') :
    ∃ pending', RingInv cfg s' pending' front r off := by
  have hok := h.threads.producer t
  rw [RingState.producerStep] at hs
  generalize hpc : s.producers t = pc at hs hok
  cases pc with
  | idle => cases hs
  | loadHead m =>
    cases hs
    exact ⟨pending, h.setProducer hpc (fun _ => id) (fun _ => id) ⟨hok, h.head.le⟩⟩
  | loadTail m prodHead =>
    dsimp only at hs
    split_ifs at hs with hfree <;> cases hs
    · exact ⟨pending, h.setProducer hpc (fun _ => id) (fun _ => id) trivial⟩
    · refine ⟨pending, h.setProducer hpc (fun _ => id) (fun _ => id) ⟨hok.1, hok.2, fun heq => ?_⟩⟩
      have hcons := h.cons_le
      have hcounted := h.counted
      have hfront := h.front_le
      have hroom := h.room
      rw [heq, ringFreeElements_eq (by omega) hroom cfg.lt_word] at hfree
      omega
  | cas m prodHead =>
    dsimp only at hs
    split_ifs at hs with hcas <;> cases hs
    · exact ⟨_, h.reserve hpc hcas.1 hfew⟩
    · exact ⟨pending, h.setProducer hpc (fun _ => id) (fun _ => id) hok.1⟩
  | writing prodHead prodNext len written elements =>
    cases elements with
    | cons e es =>
      cases hs
      exact ⟨_, (h.write hpc).2⟩
    | nil =>
      obtain ⟨-, rfl⟩ := guard_eq_some.mp hs
      have hcommit : RingInv cfg (s.commit prodNext) pending front r off := { h with }
      exact ⟨pending, hcommit.setProducer hpc (fun j hj => absurd hj.1 (hj.2.not_ge))
        (fun _ => id) trivial⟩

theorem RingInv.receive {lens : List ℕ}
    (hs : s.receive lens = some s') : RingInv cfg s' pending front r off := by
  have hc := h.consumer
  rw [RingState.receive] at hs
  generalize s.consumer = pc at hs hc
  cases pc with
  | idle =>
    dsimp only at hs
    split_ifs at hs <;> cases hs <;> exact { h with consumer := hc }
  | look | copy | copied | clear | advance => cases hs

/-- **The receiver's step keeps the invariant.** -/
theorem RingInv.consumerStep (hs : s.consumerStep cfg = some s') :
    ∃ front' r' off', RingInv cfg s' pending front' r' off' := by
  have hc := h.consumer
  rw [RingState.consumerStep] at hs
  generalize s.consumer = pc at hs hc
  cases pc with
  | idle => cases hs
  | look room totalRead =>
    obtain ⟨hcons, hoff⟩ := hc
    dsimp only at hs
    split_ifs at hs with hfull <;> cases hs
    · exact ⟨front, r, off, { h with consumer := ⟨hcons, hoff⟩ }⟩
    · rw [hcons] at hfull
      have hstands := h.exists_stands fun hempty => hfull (.inr hempty)
      exact ⟨front, r, off, { h with consumer := ⟨hcons, hoff, hstands⟩ }⟩
  | copy room totalRead =>
    obtain ⟨hcons, rfl, e, he⟩ := hc
    cases hs
    have helem : s.elemAt cfg s.cons = { e with readOffset := off } := by
      rw [hcons]
      exact h.elem_front he
    rw [helem]
    exact ⟨front, off, _, { h with
        consumer := ⟨hcons, rfl, e, he, rfl⟩
        start := fun hnone => absurd he (hnone e)
        out := by
          show s.out ++ _ = _ ++ partBytes s.reserved front (off + _)
          rw [h.out, partBytes, partBytes, he.2, elim_some, elim_some, append_assoc, take_add]
          rfl }⟩
  | copied readOffset dataLen room totalRead =>
    obtain ⟨hcons, rfl, e, he, hlen⟩ := hc
    rw [hcons] at hs
    dsimp only at hs
    split_ifs at hs with hall <;> cases hs
    · exact ⟨front, readOffset, readOffset, { h with
          window := h.setOffset he
          consumer := ⟨hcons, rfl⟩
          start := fun hnone => absurd he (hnone e) }⟩
    · exact ⟨front, 0, readOffset, { h with
          window := h.setOffset he
          consumer := ⟨hcons, rfl, e, he, hlen ▸ Nat.le_of_not_lt hall⟩
          start := fun hnone => absurd he (hnone e) }⟩
  | clear room totalRead =>
    obtain ⟨hcons, -, e, he, hall⟩ := hc
    cases hs
    exact ⟨front + 1, 0, 0, h.clear he hcons hall room totalRead⟩
  | advance room totalRead =>
    obtain ⟨hcons, rfl, rfl⟩ := hc
    cases hs
    exact ⟨front, 0, 0, h.advance hcons room totalRead⟩

omit h in
theorem reserved_isPrefix_of_ringStep (hs : ringStep cfg s a = some s') :
    s.reserved <+: s'.reserved := by
  -- the reservation appends, and no other step touches what is reserved
  cases a
  all_goals
    simp only [ringStep, call, receive, producerStep, consumerStep, advanceCons] at hs
    repeat' split at hs
    all_goals cases hs
    all_goals first | exact prefix_refl _ | exact prefix_append _ _

/-- The invariant, for some view of the ring. -/
def RingState.Inv (cfg : RingConfig) (s : RingState) : Prop :=
  ∃ pending front r off, RingInv cfg s pending front r off

omit h in
theorem inv_ringStep (h : s.Inv cfg) (hfits : a.Fits)
    (hfew : s'.reserved.length < word) (hs : ringStep cfg s a = some s') : s'.Inv cfg := by
  obtain ⟨pending, front, r, off, h⟩ := h
  cases a with
  | send t buf =>
    have hcall := (ite_none_right_eq_some.mp hs).2
    exact ⟨pending, front, r, off, h.call (fun _ => split_of_sendMessage hfits) hcall⟩
  | writeV t iov =>
    exact ⟨pending, front, r, off, h.call (fun _ => split_of_writeVMessage hfits) hs⟩
  | producer t fails =>
    obtain ⟨pending', h'⟩ := h.producerStep hfew hs
    exact ⟨pending', front, r, off, h'⟩
  | recv bufLen => exact ⟨pending, front, r, off, h.receive (ite_none_right_eq_some.mp hs).2⟩
  | readV lens => exact ⟨pending, front, r, off, h.receive hs⟩
  | consumer =>
    obtain ⟨front', r', off', h'⟩ := h.consumerStep hs
    exact ⟨pending, front', r', off', h'⟩

omit h in
theorem inv_init : RingState.Inv cfg {} := by
  have hpos : 1 ≤ cfg.elemCount := le_of_succ_le cfg.two_le
  refine ⟨fun _ => False, 0, 0, 0, ?_⟩
  exact
    { few := zero_lt_succ _
      head := rfl
      bytes := rfl
      fresh := nofun
      counted := rfl
      lag := .inl rfl
      room := by
        show 0 + 1 ≤ 0 + cfg.elemCount
        omega
      front_le := le_refl 0
      threads := ⟨fun _ => trivial, fun j => ⟨False.elim, fun ⟨_, h⟩ => h⟩, fun _ _ _ h => h.elim⟩
      window := by
        refine ⟨fun j _ _ a ha => ?_, fun _ _ _ _ => rfl⟩
        rw [want_of_length_le (zero_le j)] at ha
        cases ha
      consumer := ⟨rfl, rfl⟩
      start := fun _ => ⟨rfl, rfl⟩
      out := rfl }

/-- **The ring delivers**: what was read is a beginning of the messages, one after
the other in the order of the reservations; an element is written only where the
last one was read and cleared; and the senders see as many free elements as
there are or fewer, but by less than the threshold. -/
structure RingState.Delivers (cfg : RingConfig) (s : RingState) : Prop where
  stream : s.out <+: s.sent.flatten
  unread : ∀ t prodHead prodNext len written e es,
    s.producers t = .writing prodHead prodNext len written (e :: es) →
      (s.elemAt cfg ((prodHead + written) % word)).hasData = .empty
  view_le : ringFreeElements s.prodHead s.txTail cfg.elemCount
    ≤ ringFreeElements s.prodHead s.cons cfg.elemCount
  view_lag : ringFreeElements s.prodHead s.txTail cfg.elemCount
      = ringFreeElements s.prodHead s.cons cfg.elemCount ∨
    ringFreeElements s.prodHead s.cons cfg.elemCount
      < ringFreeElements s.prodHead s.txTail cfg.elemCount + cfg.updateLim

theorem RingInv.delivers : s.Delivers cfg := by
  have hcons := h.cons_le
  have hcounted := h.counted
  have hfront := h.front_le
  have hroom := h.room
  have htail : ringFreeElements s.prodHead s.txTail cfg.elemCount
      = s.txTail + cfg.elemCount - s.reserved.length - 1 := by
    rw [h.head]
    exact ringFreeElements_eq (by omega) hroom cfg.lt_word
  have hfree : ringFreeElements s.prodHead s.cons cfg.elemCount
      = s.cons + cfg.elemCount - s.reserved.length - 1 := by
    rw [h.head]
    exact ringFreeElements_eq (by omega) (by omega) cfg.lt_word
  refine ⟨?_, fun t prodHead prodNext len written e es hpc => (h.write hpc).1, ?_, ?_⟩
  · have hpart : partBytes s.reserved front off <+: elementBytes (s.reserved.drop front) := by
      rw [partBytes, ← head?_drop]
      cases s.reserved.drop front with
      | nil => exact prefix_refl []
      | cons e es => exact ( take_prefix off e.data).trans (prefix_append _ _)
    have hall : elementBytes (s.reserved.take front) ++ elementBytes (s.reserved.drop front)
        = s.sent.flatten := by
      rw [← elementBytes_append, take_append_drop, h.bytes]
    rw [h.out, ← hall]
    exact (prefix_append_right_inj _).mpr hpart
  · rw [hfree]
    omega
  · rw [hfree]
    obtain hzero | hlt := h.lag
    · left
      omega
    · right
      omega

end

end Steps

/-- **The ring delivers the stream**, in every run of any number of senders and a
receiver in which the messages fit and fewer than `2 ^ 32` elements are sent. -/
theorem delivers_of_ringRun {cfg : RingConfig} {as : List RingAction} {s : RingState}
    (hfits : ∀ a ∈ as, a.Fits) (hrun : Machine.run (ringStep cfg) {} as = some s)
    (hfew : s.reserved.length < word) : s.Delivers cfg := by
  have hinv : s.reserved.length < word → s.Inv cfg := by
    refine run_invariant_along (P := fun s => s.reserved.length < word → s.Inv cfg)
      (fun s a s' hs ha hstep hfew => ?_) (fun _ => inv_init)
      (along_of_forall_mem hfits) hrun
    have hle := (reserved_isPrefix_of_ringStep hstep).length_le
    exact inv_ringStep (hs (hle.trans_lt hfew)) ha hfew hstep
  obtain ⟨pending, front, r, off, h⟩ := hinv hfew
  exact h.delivers

/-- Two threads send, and the receiver reads across their messages. -/
def sampleRing : RingConfig := ⟨4, 2, by decide, by decide⟩

/-- Two threads send and the receiver reads, in turns. -/
def sampleActions : List RingAction :=
  [.send 0 [1, 2, 3], .writeV 1 [[4], [], [5, 6]], .producer 0 false, .producer 1 false,
    .producer 1 false, .producer 0 false, .producer 0 false, .producer 1 false,
    .producer 1 false, .producer 1 false, .producer 1 true, .producer 1 false,
    .producer 1 false, .producer 1 false, .producer 1 false, .producer 0 false,
    .recv 2, .consumer, .consumer, .consumer, .consumer, .readV [2, 0, 1], .consumer, .consumer,
    .consumer, .consumer, .consumer, .consumer, .consumer, .consumer]

theorem delivers_of_ringRun_sample : ∃ s ∈ Machine.run (ringStep sampleRing) {} sampleActions,
      s.Delivers sampleRing ∧ s.out = [1, 2, 3, 4] := by
  have hfits : ∀ a ∈ sampleActions, a.Fits := by decide
  have hrun : ∃ s ∈ run (ringStep sampleRing) {} sampleActions,
      s.reserved.length < word ∧ s.out = [1, 2, 3, 4] := by decide +kernel
  obtain ⟨s, hs, hfew, hout⟩ := hrun
  exact ⟨s, hs, delivers_of_ringRun hfits hs hfew, hout⟩

/-! ## A message that does not fit -/

/-- A message of almost 4 GiB for which no elements are computed. -/
theorem sendMessage_of_wrap {buf : List UInt8} (hlt : buf.length < word)
    (hwrap : word < buf.length + ringDataSize) : sendMessage buf = .ok ⟨0, [], buf⟩ := by
  have hsize : ringDataSize = 60 := rfl
  have hword : word = 4294967296 := rfl
  have hzero : bytesToElements buf.length = 0 := by
    rw [bytesToElements, hsize, hword]
    omega
  rw [sendMessage, if_neg (by omega), hzero]
  rfl

/-- A message that wraps is taken for sent, and the next one is what is read. -/
theorem out_of_wrap {buf : List UInt8} (hlt : buf.length < word)
    (hwrap : word < buf.length + ringDataSize) :
    ∃ as s, run (ringStep sampleRing) {} as = some s ∧
      s.reserved.length < word ∧ s.sent = [buf, [1]] ∧ s.out = [1] := by
  have hcall : run (ringStep sampleRing) {} [.send 0 buf]
      = some (RingState.setProducer {} 0 (.loadHead ⟨0, [], buf⟩)) := by
    rw [run_cons, ringStep, if_pos hlt, sendMessage_of_wrap hlt hwrap]
    rfl
  have hrest : ∃ s, run (ringStep sampleRing)
      (RingState.setProducer {} 0 (.loadHead ⟨0, [], buf⟩))
      [.producer 0 false, .producer 0 false, .producer 0 false, .producer 0 false, .send 0 [1],
        .producer 0 false, .producer 0 false, .producer 0 false, .producer 0 false,
        .recv 1, .consumer, .consumer] = some s ∧
      s.reserved.length < word ∧ s.sent = [buf, [1]] ∧ s.out = [1] := by
    simp [ringStep, RingState.producerStep, setProducer, RingState.reserve, commit, RingState.call,
      sendMessage, bytesToElements, ringDataSize, word, sendElements, ringFreeElements, sampleRing,
      setElem, RingState.receive, RingState.consumerStep, elemAt, setConsumer, nextRoom,
      RingState.read]
  obtain ⟨s, hrun, hrest⟩ := hrest
  exact ⟨_, s, run_trans hcall hrun, hrest⟩

/-- **`Send` reports a message of `2 ^ 32 - 1` bytes as sent, and sends nothing of
it.** -/
theorem exists_ringRun_lost : ∃ as s, Machine.run (ringStep sampleRing) {} as = some s ∧
    s.reserved.length < word ∧ ¬s.out <+: s.sent.flatten := by
  have hword : word = 4294967296 := rfl
  have hlen : (replicate (4294967294 + 1) (0 : UInt8)).length = 4294967294 + 1 := length_replicate
  rw [replicate_succ] at hlen
  generalize replicate 4294967294 (0 : UInt8) = rest at hlen
  have hlt : ((0 : UInt8) :: rest).length < word := by omega
  have hwrap : word < ((0 : UInt8) :: rest).length + ringDataSize := by
    rw [ringDataSize]
    omega
  obtain ⟨as, s, hrun, hfew, hsent, hout⟩ := out_of_wrap hlt hwrap
  refine ⟨as, s, hrun, hfew, ?_⟩
  rw [hsent, hout, flatten_cons, cons_append, cons_prefix_cons]
  exact fun h => absurd h.1 (by decide)

end Brpc
