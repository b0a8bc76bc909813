import UbsComm.Service.Splice

/-!
# What a spliced message consists of

Whatever fragments come and in whatever order, each byte that a buffer has
received is the byte that a fragment of the same message has for that place,
and the length of the buffer is the one the first fragment gave
(`Incomplete.Legit`). A message is given to the user when a fragment ends
where its own header says that the message ends, and nobody asks whether the
other fragments have come: `whole_iff_receivedAll` says that the message is
whole exactly if they have, and `exists_run_not_whole` is a message with a
fragment lost.
-/

namespace Service

open Function List Nat Option Machine

/-- What has arrived. -/
def arrivals (xs : List SpliceAction) : List (List UInt8) :=
  xs.filterMap fun
    | .arrive msg _ => some msg
    | .timeout _ => none

/-- The fragment has this byte for the place `b` of its message. -/
def FragmentHas (msg : List UInt8) (b : ℕ) (byte : UInt8) : Prop :=
  (serviceHeader msg).offset.toNat ≤ b
    ∧ (payload msg)[b - (serviceHeader msg).offset.toNat]? = some byte

/-- **A message delivered is whole**: it has the length that its first
fragment gave, and each of its bytes was copied from a fragment of the same
message that has it for that place. -/
def Whole (history : List (List UInt8)) (msgId : UBSHcomFragmentMessageId)
    (msg : List UInt8) (source : ℕ → Option (List UInt8)) : Prop :=
  (∃ first ∈ history, (serviceHeader first).msgId = msgId ∧ (serviceHeader first).offset = 0
      ∧ (serviceHeader first).totalLength.toNat = msg.length)
    ∧ ∀ b < msg.length, ∃ f ∈ history, source b = some f
      ∧ (serviceHeader f).msgId = msgId ∧ ∃ byte, msg[b]? = some byte ∧ FragmentHas f b byte

/-- The fragment has the place `b` of its message. -/
def Covers (msg : List UInt8) (b : ℕ) : Prop :=
  (serviceHeader msg).offset.toNat ≤ b
    ∧ b < (serviceHeader msg).offset.toNat + (payload msg).length

instance (msg : List UInt8) (b : ℕ) : Decidable (Covers msg b) :=
  inferInstanceAs (Decidable (_ ∧ _))

/-- The fragment ends within a message of this length. -/
def EndsWithin (msg : List UInt8) (total : ℕ) : Prop :=
  (serviceHeader msg).offset.toNat + (payload msg).length ≤ total

instance (msg : List UInt8) (total : ℕ) : Decidable (EndsWithin msg total) :=
  inferInstanceAs (Decidable (_ ≤ _))

/-- **The byte has come, and has not been lost again**: a fragment that ends
within the message had it, and since then none that is too long has begun
there or before. -/
def Came (total : ℕ) (arrived : List (List UInt8)) (b : ℕ) : Prop :=
  Since (fun f => Covers f b ∧ EndsWithin f total)
    (fun f => (serviceHeader f).offset.toNat ≤ b ∧ ¬EndsWithin f total) arrived

/-- **All that the fragment does not bring has come before.** -/
def ReceivedAll (msgReceived : MsgReceived) (msg : List UInt8) : Prop :=
  ∀ incompleteMsg, msgReceived (serviceHeader msg).msgId = some incompleteMsg →
    ∀ first ∈ incompleteMsg.arrived.head?, ∀ b < (serviceHeader first).totalLength.toNat,
      Covers msg b
        ∨ Came (serviceHeader first).totalLength.toNat incompleteMsg.arrived b

/-! ## Buffers -/

/-- The fragments of one message. -/
def ofMessage (msgId : UBSHcomFragmentMessageId) (history : List (List UInt8)) :
    List (List UInt8) := history.filter fun f => (serviceHeader f).msgId = msgId

namespace Incomplete

/-- The bytes of a buffer are those of the fragments they were copied from. -/
def Sound (history : List (List UInt8)) (m : Incomplete) : Prop :=
  ∀ b f, m.source b = some f → f ∈ history
    ∧ ∃ byte, m.buffer[b]? = some byte ∧ FragmentHas f b byte

/-- What is known of a buffer. -/
structure Legit (history : List (List UInt8)) (m : Incomplete) : Prop where
  arrived : m.arrived ⊆ history
  sound : m.Sound history
  /-- The bytes that were copied and not reset are those that have come. -/
  came : ∀ b < m.buffer.length, m.source b ≠ none ↔ Came m.buffer.length m.arrived b

/-- The first fragment has given the buffer its length. -/
def Opened (m : Incomplete) (arrived : List (List UInt8)) : Prop :=
  m.buffer ≠ [] → ∃ first ∈ arrived.head?, (serviceHeader first).offset = 0
    ∧ (serviceHeader first).totalLength.toNat = m.buffer.length

theorem legit_of_arrived_eq_nil {history : List (List UInt8)} {m : Incomplete}
    (harrived : m.arrived = []) (hsource : m.source = fun _ => none) : m.Legit history where
  arrived := harrived ▸ nil_subset history
  sound b f hf := by
    rw [hsource] at hf
    cases hf
  came b _ := by
    rw [harrived, hsource]
    exact iff_of_false (fun h => h rfl) not_since_nil

end Incomplete

variable {offset : ℕ} {buffer src : List UInt8}

/-- A copy that fails leaves zeros from its place on. -/
theorem memcpyS_of_not (hoffset : offset ≤ buffer.length)
    (h : ¬(memcpyS buffer offset src).1 = true) :
    (offset = buffer.length ∨ ¬offset + src.length ≤ buffer.length)
      ∧ (memcpyS buffer offset src).2
        = buffer.take offset ++ replicate (buffer.length - offset) 0 := by
  unfold memcpyS at h ⊢
  split_ifs at h ⊢ with hroom hmuch
  · rw [hroom, replicate_zero, append_nil, take_of_length_le (by omega)]
    exact ⟨.inl (by omega), rfl⟩
  · exact ⟨.inr (by omega), rfl⟩
  · exact absurd rfl h

theorem memcpyS_of_fst (h : (memcpyS buffer offset src).1 = true) :
    buffer ≠ [] ∧ offset + src.length ≤ buffer.length
      ∧ (memcpyS buffer offset src).2 = overlay buffer offset src := by
  unfold memcpyS at h ⊢
  split_ifs at h ⊢ with hroom hmuch
  refine ⟨fun hnil => hroom ?_, by omega, rfl⟩
  rw [hnil]
  exact Nat.zero_sub offset

theorem memcpyS_of_fits (hoffset : offset < buffer.length)
    (hfits : offset + src.length ≤ buffer.length) :
    memcpyS buffer offset src = (true, overlay buffer offset src) := by
  unfold memcpyS
  rw [if_neg (by omega), if_neg (by omega)]

section Copy

variable (msgReceived : MsgReceived) (msg : List UInt8) (answers : SpliceAnswers) (m : Incomplete)

/-- The buffer after a fragment that is refused. -/
def Incomplete.note : Incomplete := { m with arrived := m.arrived ++ [msg] }

/-- The buffer after a copy that fails. -/
def Incomplete.reset : Incomplete :=
  let offset := (serviceHeader msg).offset.toNat
  { m.note msg with
    buffer := m.buffer.take offset ++ List.replicate (m.buffer.length - offset) 0
    source := fun b => if offset ≤ b then none else m.source b }

/-- The buffer after a copy. -/
def Incomplete.copy : Incomplete :=
  { m.note msg with
    buffer := overlay m.buffer (serviceHeader msg).offset.toNat (payload msg)
    source := fun b => if Covers msg b then some msg else m.source b }

/-- What becomes of a fragment and its buffer. -/
inductive CopyOutcome : SpliceMessageResult × MsgReceived → Prop
  | refused (h : m.buffer.length < (serviceHeader msg).offset.toNat) :
      CopyOutcome (.error .splitInvalidMsg,
        update msgReceived (serviceHeader msg).msgId (some (m.note msg)))
  | reset (h : (serviceHeader msg).offset.toNat ≤ m.buffer.length)
      (hlong : (serviceHeader msg).offset.toNat = m.buffer.length ∨
        ¬EndsWithin msg m.buffer.length) :
      CopyOutcome (.error .splitInvalidMsg,
        update msgReceived (serviceHeader msg).msgId (some (m.reset msg)))
  | complete (hne : m.buffer ≠ []) (h : EndsWithin msg m.buffer.length)
      (hend : (serviceHeader msg).offset.toNat + (payload msg).length
        = (serviceHeader msg).totalLength.toNat) :
      CopyOutcome (.ok (m.copy msg).buffer (m.copy msg).source,
        update msgReceived (serviceHeader msg).msgId
          (if answers.found then none else some { seqNo := m.seqNo }))
  | more (h : EndsWithin msg m.buffer.length)
      (hend : (serviceHeader msg).offset.toNat + (payload msg).length
        ≠ (serviceHeader msg).totalLength.toNat) :
      CopyOutcome (.indeterminate, update msgReceived (serviceHeader msg).msgId (some (m.copy msg)))

theorem copyFragment_of_fits (hoffset : (serviceHeader msg).offset.toNat < m.buffer.length)
    (hfits : (serviceHeader msg).offset.toNat + (payload msg).length ≤ m.buffer.length) :
    copyFragment msgReceived msg answers m
      = if (serviceHeader msg).offset.toNat + (payload msg).length
            = (serviceHeader msg).totalLength.toNat then
          (.ok (m.copy msg).buffer (m.copy msg).source, update msgReceived (serviceHeader msg).msgId
              (if answers.found then none else some { seqNo := m.seqNo }))
        else (.indeterminate, update msgReceived
          (serviceHeader msg).msgId (some (m.copy msg))) := by
  unfold copyFragment
  rw [if_neg (Nat.not_lt_of_lt hoffset), memcpyS_of_fits hoffset hfits]
  rfl

theorem copyFragment_outcome :
    CopyOutcome msgReceived msg answers m (copyFragment msgReceived msg answers m) := by
  unfold copyFragment
  by_cases hoffset : (serviceHeader msg).offset.toNat > m.buffer.length
  · rw [if_pos hoffset]
    exact .refused hoffset
  rw [if_neg hoffset]
  by_cases hcopied : (memcpyS m.buffer (serviceHeader msg).offset.toNat (payload msg)).1 = true
  · obtain ⟨hne, hfits, hbuffer⟩ := memcpyS_of_fst hcopied
    rw [if_neg (not_not.mpr hcopied), hbuffer]
    by_cases hend : (serviceHeader msg).offset.toNat + (payload msg).length
        = (serviceHeader msg).totalLength.toNat
    · rw [if_pos hend]
      exact .complete hne hfits hend
    · rw [if_neg hend]
      exact .more hfits hend
  · have hle := Nat.le_of_not_lt hoffset
    obtain ⟨hlong, hzeros⟩ := memcpyS_of_not hle hcopied
    rw [if_pos hcopied, hzeros]
    exact .reset hle hlong

/-- The buffer that a fragment goes to. -/
def Destination : Prop :=
  msgReceived (serviceHeader msg).msgId = some m ∨ msgReceived (serviceHeader msg).msgId = none
      ∧ (serviceHeader msg).offset = 0
      ∧ m = { seqNo := answers.prepared.2
              buffer := List.replicate (serviceHeader msg).totalLength.toNat 0 }

/-- What becomes of a message that arrives. -/
inductive SpliceOutcome : SpliceMessageResult × MsgReceived → Prop
  | refused (code : SerCode) : SpliceOutcome (.error code, msgReceived)
  | emplaced (code : SerCode) : SpliceOutcome (.error code,
      update msgReceived (serviceHeader msg).msgId (some {}))
  | copied {m : Incomplete} {r : SpliceMessageResult × MsgReceived}
      (hm : Destination msgReceived msg answers m)
      (h : CopyOutcome msgReceived msg answers m r) : SpliceOutcome r

theorem spliceMessage_outcome :
    SpliceOutcome msgReceived msg answers (spliceMessage msgReceived msg answers) := by
  cases hentry : msgReceived (serviceHeader msg).msgId with
  | some m =>
    unfold spliceMessage
    simp only [hentry]
    split_ifs
    · exact .refused _
    · exact .refused _
    · exact .refused _
    · exact .copied (.inl hentry) (copyFragment_outcome _ _ _ m)
  | none =>
    unfold spliceMessage
    simp only [hentry]
    split_ifs with hsize hlong hfirst
    · exact .refused _
    · exact .refused _
    · exact .emplaced _
    · exact .copied (.inr ⟨hentry, hfirst, rfl⟩) (copyFragment_outcome _ _ _ _)
    · exact .emplaced _
    · exact .refused _

end Copy

section Legit

variable {history : List (List UInt8)} {msg : List UInt8} {m : Incomplete}

namespace Incomplete

theorem length_reset (hoffset : (serviceHeader msg).offset.toNat ≤ m.buffer.length) :
    (m.reset msg).buffer.length = m.buffer.length := by
  show (take _ _ ++ replicate _ _).length = _
  rw [length_append, length_take, length_replicate]
  omega

theorem Sound.reset (h : m.Sound history)
    (hoffset : (serviceHeader msg).offset.toNat ≤ m.buffer.length) :
    (m.reset msg).Sound history := by
  intro b f hf
  obtain ⟨hb, hf⟩ := ite_none_left_eq_some.mp hf
  have hbyte : (m.reset msg).buffer[b]? = m.buffer[b]? := by
    show (take _ _ ++ replicate _ _)[b]? = _
    rw [getElem?_append_left (by rw [length_take]; omega), getElem?_take_of_lt (by omega)]
  rw [hbyte]
  exact h b f hf

theorem Sound.copy (h : m.Sound history) (hmsg : msg ∈ history)
    (hfits : EndsWithin msg m.buffer.length) : (m.copy msg).Sound history := by
  intro b f hf
  have hbyte : (m.copy msg).buffer[b]? = if Covers msg b then
      (payload msg)[b - (serviceHeader msg).offset.toNat]? else m.buffer[b]? :=
    getElem?_overlay hfits b
  rw [hbyte]
  obtain ⟨hb, hf⟩ | ⟨hb, hf⟩ := ite_eq_iff.mp hf
  · -- after a copy a byte is from the fragment …
    have hin : b - (serviceHeader msg).offset.toNat < (payload msg).length :=
      Nat.sub_lt_left_of_lt_add hb.1 hb.2
    obtain rfl := some.inj hf
    rw [if_pos hb, getElem?_eq_getElem hin]
    exact ⟨hmsg, _, rfl, hb.1, getElem?_eq_getElem hin⟩
  · -- … or from where it was
    rw [if_neg hb]
    exact h b f hf

section

variable (h : m.Legit history) (hmsg : msg ∈ history)
include h hmsg

theorem Legit.arrived_note : (m.note msg).arrived ⊆ history :=
  append_subset.mpr ⟨h.arrived, cons_subset.mpr ⟨hmsg, nil_subset _⟩⟩

theorem Legit.note (hoffset : m.buffer.length < (serviceHeader msg).offset.toNat) :
    (m.note msg).Legit history where
  arrived := h.arrived_note hmsg
  sound := h.sound
  came b hb := by
    have hbefore : ¬(serviceHeader msg).offset.toNat ≤ b := (hb.trans hoffset).not_ge
    rw [Came, Incomplete.note, since_concat, ← Came, ← h.came b hb]
    simp [Covers, hbefore]

theorem Legit.reset (hoffset : (serviceHeader msg).offset.toNat ≤ m.buffer.length)
    (hlong : (serviceHeader msg).offset.toNat = m.buffer.length ∨ ¬EndsWithin msg m.buffer.length) :
    (m.reset msg).Legit history where
  arrived := h.arrived_note hmsg
  sound := h.sound.reset hoffset
  came b hb := by
    rw [length_reset hoffset] at hb ⊢
    rw [Came, Incomplete.reset, Incomplete.note, since_concat, ← Came, ← h.came b hb]
    by_cases hle : (serviceHeader msg).offset.toNat ≤ b
    · simp [hle, hlong.resolve_left (by omega)]
    · simp [hle, Covers]

theorem Legit.copy (hfits : EndsWithin msg m.buffer.length) : (m.copy msg).Legit history where
  arrived := h.arrived_note hmsg
  sound := h.sound.copy hmsg hfits
  came b hb := by
    have hlength : (m.copy msg).buffer.length = m.buffer.length := length_overlay hfits
    rw [hlength] at hb ⊢
    rw [Came, Incomplete.copy, Incomplete.note, since_concat, ← Came, ← h.came b hb]
    by_cases hcovers : Covers msg b
    · simp [hcovers, hfits]
    · simp [hcovers, hfits]

end

end Incomplete

/-- All buffers are legitimate. -/
def MsgReceived.Legit (history : List (List UInt8)) (st : MsgReceived) : Prop :=
  ∀ msgId m, st msgId = some m → m.Legit (ofMessage msgId history) ∧ m.Opened m.arrived

variable {st : MsgReceived} {answers : SpliceAnswers} {r : SpliceMessageResult × MsgReceived}

theorem MsgReceived.Legit.update (h : st.Legit history) {msgId : UBSHcomFragmentMessageId}
    {entry : Option Incomplete}
    (hentry : ∀ m, entry = some m → m.Legit (ofMessage msgId history) ∧ m.Opened m.arrived) :
    MsgReceived.Legit history (update st msgId entry) := by
  intro msgId' m hm
  by_cases hid : msgId' = msgId
  · rw [hid, update_self] at hm
    rw [hid]
    exact hentry m hm
  · rw [update_of_ne hid] at hm
    exact h msgId' m hm

theorem Incomplete.legit_empty (seqNo : UInt32) :
    Incomplete.Legit history { seqNo } ∧ Incomplete.Opened { seqNo } [] :=
  ⟨legit_of_arrived_eq_nil rfl rfl, fun h => absurd rfl h⟩

theorem CopyOutcome.legit (hr : CopyOutcome st msg answers m r) (h : st.Legit history)
    (hmsg : msg ∈ history) (hm : m.Legit (ofMessage (serviceHeader msg).msgId history))
    (hopened : m.Opened (m.arrived ++ [msg])) : r.2.Legit history := by
  have hmsg' : msg ∈ ofMessage (serviceHeader msg).msgId history :=
    mem_filter.mpr ⟨hmsg, decide_eq_true rfl⟩
  have hput {m' : Incomplete} (hm' : m'.Legit (ofMessage (serviceHeader msg).msgId history))
      (hlength : m'.buffer.length = m.buffer.length) (harrived : m'.arrived = m.arrived ++ [msg]) :
      MsgReceived.Legit history (update st (serviceHeader msg).msgId (some m')) := by
    refine h.update fun _ h => some.inj h ▸ ⟨hm', fun hne => ?_⟩
    rw [harrived, hlength]
    exact hopened fun hnil => hne (length_eq_zero_iff.mp (hlength.trans (by rw [hnil]; rfl)))
  cases hr with
  | refused hoffset => exact hput (hm.note hmsg' hoffset) rfl rfl
  | reset hoffset hlong =>
    exact hput (hm.reset hmsg' hoffset hlong) (Incomplete.length_reset hoffset) rfl
  | complete =>
    refine h.update fun m' hm' => ?_
    split_ifs at hm'
    rw [← some.inj hm']
    exact Incomplete.legit_empty _
  | more hfits => exact hput (hm.copy hmsg' hfits) (length_overlay hfits) rfl

theorem Destination.legit (hm : Destination st msg answers m) (h : st.Legit history) :
    m.Legit (ofMessage (serviceHeader msg).msgId history) ∧ m.Opened (m.arrived ++ [msg]) := by
  obtain hm | ⟨-, hfirst, rfl⟩ := hm
  · obtain ⟨hlegit, hopened⟩ := h _ _ hm
    refine ⟨hlegit, fun hne => ?_⟩
    obtain ⟨first, hfirst, hrest⟩ := hopened hne
    exact ⟨first, mem_head?_append_of_mem_head? hfirst, hrest⟩
  · exact ⟨Incomplete.legit_of_arrived_eq_nil rfl rfl,
      fun _ => ⟨msg, rfl, hfirst, length_replicate.symm⟩⟩

/-- **Whatever arrives, the buffers stay legitimate.** -/
theorem SpliceOutcome.legit (hr : SpliceOutcome st msg answers r) (h : st.Legit history)
    (hmsg : msg ∈ history) : r.2.Legit history := by
  cases hr with
  | refused => exact h
  | emplaced => exact h.update fun _ hm => some.inj hm ▸ Incomplete.legit_empty _
  | copied hm hr =>
    obtain ⟨hlegit, hopened⟩ := hm.legit h
    exact hr.legit h hmsg hlegit hopened

theorem legit_of_spliceRun {xs : List SpliceAction} (hrun : spliceRun xs = some st)
    (hhistory : arrivals xs ⊆ history) : st.Legit history := by
  have hall : ∀ x ∈ xs, ∀ msg answers, x = .arrive msg answers → msg ∈ history := by
    rintro _ hx msg answers rfl
    exact hhistory (mem_filterMap.mpr ⟨_, hx, rfl⟩)
  refine run_invariant_along (fun st x st' h hx hstep => ?_)
    (fun _ _ h => absurd h (some_ne_none _).symm)
    (along_of_forall_mem hall) hrun
  cases x with
  | arrive msg answers =>
    rw [← some.inj hstep]
    exact (spliceMessage_outcome st msg answers).legit h (hx msg answers rfl)
  | timeout msgId =>
    rw [← some.inj hstep]
    exact h.update fun _ h => absurd h (some_ne_none _).symm

end Legit

/-! ## Messages delivered -/

/-- What a message that is delivered was copied from. -/
theorem spliceMessage_ok {st : MsgReceived} {msg : List UInt8} {answers : SpliceAnswers}
    {data : List UInt8} {source : ℕ → Option (List UInt8)}
    (hok : (spliceMessage st msg answers).1 = .ok data source) :
    ∃ m, Destination st msg answers m ∧ m.buffer ≠ [] ∧ EndsWithin msg m.buffer.length
      ∧ (serviceHeader msg).offset.toNat + (payload msg).length
        = (serviceHeader msg).totalLength.toNat
      ∧ data = (m.copy msg).buffer ∧ source = (m.copy msg).source := by
  have hr := spliceMessage_outcome st msg answers
  generalize spliceMessage st msg answers = r at hr hok
  cases hr with
  | refused => cases hok
  | emplaced => cases hok
  | @copied m _ hm hr =>
    cases hr with
    | refused | reset | more => cases hok
    | complete hne hfits hend =>
      obtain ⟨hdata, hsource⟩ := SpliceMessageResult.ok.inj hok
      exact ⟨m, hm, hne, hfits, hend, hdata.symm, hsource.symm⟩

/-- **A message delivered is whole exactly if all else has been received**
when the fragment comes that ends where it says that the message ends. -/
theorem whole_iff_receivedAll {xs : List SpliceAction} {st : MsgReceived}
    (hrun : spliceRun xs = some st) (msg : List UInt8) (answers : SpliceAnswers)
    {data : List UInt8} {source : ℕ → Option (List UInt8)}
    (hok : (spliceMessage st msg answers).1 = .ok data source) :
    Whole (arrivals (xs ++ [.arrive msg answers])) (serviceHeader msg).msgId data source
      ↔ ReceivedAll st msg := by
  obtain ⟨m, hm, hne, hfits, hend, rfl, rfl⟩ := spliceMessage_ok hok
  have harrivals : arrivals (xs ++ [.arrive msg answers]) = arrivals xs ++ [msg] := filterMap_append
  rw [harrivals]
  have hst := legit_of_spliceRun hrun (subset_append_left _ [msg])
  obtain ⟨hlegit, hopened⟩ := hm.legit hst
  obtain ⟨first, hfirst, hzero, htotal⟩ := hopened hne
  have hlength : (m.copy msg).buffer.length = m.buffer.length := length_overlay hfits
  have hmsg : msg ∈ ofMessage (serviceHeader msg).msgId (arrivals xs ++ [msg]) :=
    mem_filter.mpr ⟨mem_concat_self, decide_eq_true rfl⟩
  constructor
  · rintro ⟨-, hbytes⟩ m' hm' first' hfirst' b hb
    obtain rfl : m = m' := by
      obtain hm | ⟨hm, -⟩ := hm
      · exact some.inj (hm.symm.trans hm')
      · exact absurd (hm.symm.trans hm') (some_ne_none m').symm
    obtain rfl : first = first' :=
      some.inj (hfirst.symm.trans (mem_head?_append_of_mem_head? hfirst'))
    rw [htotal] at hb ⊢
    refine or_iff_not_imp_left.mpr fun hout => (hlegit.came b hb).mp ?_
    obtain ⟨f, -, hf, -⟩ := hbytes b (lt_of_lt_of_eq hb hlength.symm)
    rw [show (m.copy msg).source b = m.source b from if_neg hout] at hf
    rw [hf]
    exact some_ne_none f
  · intro hreceived
    have hall : ∀ b < m.buffer.length, Covers msg b ∨ m.source b ≠ none := by
      intro b hb
      obtain hm | ⟨-, hstart, rfl⟩ := hm
      · obtain ⟨first, hfirst, -, htotal⟩ := (hst _ _ hm).2 hne
        rw [hlegit.came b hb, ← htotal]
        exact hreceived m hm first hfirst b (htotal ▸ hb)
      · -- the first fragment has it all
        rw [length_replicate, ← hend] at hb
        exact .inl ⟨by rw [hstart]; exact zero_le b, hb⟩
    have hofMessage {f : List UInt8}
        (hf : f ∈ ofMessage (serviceHeader msg).msgId (arrivals xs ++ [msg])) :
        f ∈ arrivals xs ++ [msg] ∧ (serviceHeader f).msgId = (serviceHeader msg).msgId :=
      ⟨(mem_filter.mp hf).1, of_decide_eq_true (mem_filter.mp hf).2⟩
    refine ⟨?_, fun b hb => ?_⟩
    · obtain ⟨hmem, hid⟩ := hofMessage (hlegit.arrived_note hmsg (mem_of_mem_head? hfirst))
      exact ⟨first, hmem, hid, hzero, htotal.trans hlength.symm⟩
    · obtain ⟨f, hf⟩ : ∃ f, (m.copy msg).source b = some f := by
        by_cases hin : Covers msg b
        · exact ⟨msg, if_pos hin⟩
        · rw [show (m.copy msg).source b = m.source b from if_neg hin]
          exact ne_none_iff_exists'.mp ((hall b (lt_of_lt_of_eq hb hlength)).resolve_left hin)
      obtain ⟨hmem, hbyte⟩ := hlegit.sound.copy hmsg hfits b f hf
      obtain ⟨hmem, hid⟩ := hofMessage hmem
      exact ⟨f, hmem, hf, hid, hbyte⟩

/-- The fragment of a message of three bytes. -/
def shortFragment (offset : UInt32) (bytes : List UInt8) : List UInt8 :=
  UBSHcomFragmentHeader.encode ⟨⟨7, 1⟩, 3, offset⟩ ++ bytes

/-- Two fragments that come in order. -/
theorem whole_shortFragments : ∃ st data source,
      spliceRun [.arrive (shortFragment 0 [72, 105]) {}] = some st
        ∧ (spliceMessage st (shortFragment 2 [33]) {}).1 = .ok data source
        ∧ data = [72, 105, 33]
        ∧ Whole (arrivals ([.arrive (shortFragment 0 [72, 105]) {}]
            ++ [.arrive (shortFragment 2 [33]) {}]))
          (serviceHeader (shortFragment 2 [33])).msgId data source :=
  ⟨_, _, _, rfl, rfl, by decide,
    (@whole_iff_receivedAll [.arrive (shortFragment 0 [72, 105]) {}] _ rfl
      (shortFragment 2 [33]) {} _ _ rfl).mpr fun m (hm : some _ = some m) => by
        obtain rfl := some.inj hm
        rintro _ ⟨⟩ (_ | _ | _ | b) hb
        · exact .inr ⟨[], _, [], rfl, ⟨by decide, by decide⟩, nofun⟩
        · exact .inr ⟨[], _, [], rfl, ⟨by decide, by decide⟩, nofun⟩
        · exact .inl (by decide)
        · exact absurd (show b + 3 < 3 from hb) (by omega)⟩

/-- **A message with a fragment lost is delivered**, with a zero in its
place. -/
theorem exists_run_not_whole : ∃ xs st msg data source, spliceRun xs = some st
      ∧ (spliceMessage st msg {}).1 = .ok data source
      ∧ ¬Whole (arrivals (xs ++ [.arrive msg {}])) (serviceHeader msg).msgId data source := by
  refine ⟨[.arrive (shortFragment 0 [72]) {}], _, shortFragment 2 [33], _, _, rfl,
    rfl, fun hwhole => ?_⟩
  obtain ⟨f, -, hf, -⟩ := hwhole.2 1 (by decide)
  exact some_ne_none f (hf.symm.trans rfl)

end Service
