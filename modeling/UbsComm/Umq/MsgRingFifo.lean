import UbsComm.Umq.MsgRingSlots

/-!
# The message ring is a queue

When the rings and their headers do not overlap, each ring is a queue
(`fifo_of_run`): what polls have returned is the beginning of what was posted, and
the messages in between are the ones in the slots from `ci` on. A call that fails
has changed neither.

Every step is one of one ring, and leaves the bytes of the other as they are
(`Inv.ofRing`), so that the invariant of a ring is looked at only for its own steps.
-/

namespace Umq.MsgRing

open Memory Packing Function List State Machine Nat Option UInt32

/-! ## One step -/

/-- Both rings. -/
def Inv (opt : MsgRingOption) (s : State) : Prop :=
  ∀ d, RingInv opt d s.mem (s.producer d) (s.consumer d) (s.posted d) (s.delivered d)

variable {mem : ℕ → UInt8}

section Step

variable {opt : MsgRingOption} {s t : State} {d d' : Dir} {maxBufSize : UInt32}
  {got : List (List UInt8)} {p : Producer} {msgs done : List Message} {single batch : Bool}
  {c : Consumer} {m : Message} {k : ℕ} {posted delivered : List (List UInt8)}
  {left : List Message} {l : List UInt8} {ret : PostRet}

/-- What is as it was: a ring, as far as its parties are concerned. -/
structure SameRing (s t : State) (d : Dir) : Prop where
  producer : t.producer d = s.producer d
  consumer : t.consumer d = s.consumer d
  posts : t.posts d = s.posts d
  polls : t.polls d = s.polls d

/-- **A step of one ring** leaves the other one as it is. -/
theorem Inv.ofRing (h : Inv opt s) (hfits : opt.Fits)
    (hself : RingInv opt d t.mem p c posted delivered) (hp : t.producer d = p)
    (hc : t.consumer d = c) (hposted : t.posted d = posted)
    (hdelivered : t.delivered d = delivered) (hother : ∀ d', d' ≠ d → SameRing s t d')
    (hmem : ∀ x, ¬ Owned opt d x → t.mem x = s.mem x) : Inv opt t := by
  intro d'
  by_cases hd : d' = d
  · rwa [hd, hp, hc, hposted, hdelivered]
  · obtain ⟨hp, hc, hposts, hpolls⟩ := hother d' hd
    rw [State.posted, State.delivered, hp, hc, hposts, hpolls]
    exact (h d').congr hfits fun x hx => hmem x (hx.not_other hfits (Ne.symm hd))

theorem posted_postReturns (ret : PostRet) (msgs : List Message) :
    (s.postReturns d ret msgs).posted d =
      s.posted d ++ if ret = .ok then msgs.map Message.bytes else [] := by
  have hposts : (s.postReturns d ret msgs).posts d =
      s.posts d ++ [(ret, msgs.map Message.bytes)] := update_self _ _ _
  rw [State.posted, hposts, flatMap_append, flatMap_singleton]
  rfl

theorem delivered_pollReturns (msgs : Option (List (List UInt8))) :
    (s.pollReturns d msgs).delivered d = s.delivered d ++ msgs.getD [] := by
  have hpolls : (s.pollReturns d msgs).polls d = s.polls d ++ [msgs] := update_self _ _ _
  rw [State.delivered, hpolls, flatMap_append, flatMap_singleton]
  rfl

theorem Producer.eq_idle (h : p.isIdle = true) : p = .idle := by
  cases p with
  | idle => rfl
  | writing | sizing => cases h

theorem length_of_size_le (hfits : opt.Fits) (h : ¬ m.size > opt.payloadSize d) :
    m.bytes.length + 4 ≤ opt.w d := by
  have hle := hfits.header_le d
  have hsize : m.size.toNat = m.bytes.length := by exact mod_eq_of_lt m.length_lt
  have hpayload : (opt.payloadSize d).toNat = opt.w d - 4 :=
    UInt32.toNat_sub_of_le _ _ (le_iff_toNat_le.mpr hle)
  have hnot := le_iff_toNat_le.mp (UInt32.not_lt.mp h)
  have hw : 4 ≤ opt.w d := hle
  omega

theorem postSlot_eq (h : RingInv opt d s.mem p c posted delivered) (hfits : opt.Fits)
    (hk : k < p.msgs.length) (hsingle : batch = false → k = 0) :
    s.postSlot opt d batch k = opt.ring d + (posted.length + k) % opt.n d * opt.w d := by
  have hroom := h.room
  have hle := h.le
  refine slot_eq_of_lt hfits.size_lt ?_ (mod_lt _ (hfits.depth_pos d))
  cases batch with
  | true => exact index_add hfits h.pi (by omega)
  | false =>
    rw [hsingle rfl]
    exact h.pi

theorem pollSlot_eq (h : RingInv opt d s.mem p c posted delivered) (hfits : opt.Fits)
    (hk : delivered.length + k < posted.length) (hsingle : single = true → k = 0) :
    s.pollSlot opt d single k = opt.ring d + (delivered.length + k) % opt.n d * opt.w d := by
  have hroom := h.room
  refine slot_eq_of_lt hfits.size_lt ?_ (mod_lt _ (hfits.depth_pos d))
  cases single with
  | false => exact index_add hfits h.ci (by omega)
  | true =>
    rw [hsingle rfl]
    exact h.ci

/-- A write in what belongs to a ring. -/
theorem store_of_not_owned {a x : ℕ} (hin : ∀ y, a ≤ y → y < a + l.length → Owned opt d y)
    (hx : ¬ Owned opt d x) : store mem a l x = mem x := by
  refine store_of_outside ?_
  by_contra hmid
  exact hx (hin x (by omega) (by omega))

/-- The consumer sees a message when the indices differ. -/
theorem lt_of_index_ne (h : Inv opt s) (hne : s.pi opt d ≠ s.ci opt d) :
    (s.delivered d).length < (s.posted d).length := by
  refine lt_of_le_of_ne (h d).le fun heq => hne (UInt32.toNat_inj.mp ?_)
  exact (h d).pi.trans ((congrArg (· % opt.n d) heq).symm.trans (h d).ci.symm)

section

variable (h : Inv opt s) (hfits : opt.Fits)
include h hfits

namespace Inv

/-- A post returns; it may have written in its ring. -/
theorem postReturns (mem : ℕ → UInt8) (hself : RingInv opt d mem .idle (s.consumer d)
      (s.posted d ++ if ret = .ok then msgs.map Message.bytes else []) (s.delivered d))
    (hmem : ∀ x, ¬ Owned opt d x → mem x = s.mem x) :
    Inv opt (State.postReturns { s with mem := mem } d ret msgs) :=
  h.ofRing hfits hself (update_self _ _ _) rfl (posted_postReturns ret msgs) rfl
    (fun _ hd => ⟨update_of_ne hd _ _, rfl, update_of_ne hd _ _, rfl⟩) hmem

/-- A poll returns; it may have written in its ring. -/
theorem pollReturns (mem : ℕ → UInt8) {msgs : Option (List (List UInt8))}
    (hself : RingInv opt d mem (s.producer d) .idle (s.posted d) (s.delivered d ++ msgs.getD []))
    (hmem : ∀ x, ¬ Owned opt d x → mem x = s.mem x) :
    Inv opt (State.pollReturns { s with mem := mem } d msgs) :=
  h.ofRing hfits hself rfl (update_self _ _ _) rfl (delivered_pollReturns msgs)
    (fun _ hd => ⟨rfl, update_of_ne hd _ _, rfl, update_of_ne hd _ _⟩) hmem

theorem postFails (hret : ret ≠ .ok) : Inv opt (s.postReturns d ret msgs) := by
  refine h.postReturns hfits s.mem ?_ fun _ _ => rfl
  rw [if_neg hret, append_nil]
  exact (h d).producerIdle

theorem pollFails {msgs : Option (List (List UInt8))} (hmsgs : msgs.getD [] = []) :
    Inv opt (s.pollReturns d msgs) := by
  refine h.pollReturns hfits s.mem ?_ fun _ _ => rfl
  rw [hmsgs, append_nil]
  exact (h d).setConsumer trivial

theorem setConsumer
    (hc : c.Ok (s.posted d) (s.delivered d).length) : Inv opt (s.setConsumer d c) :=
  h.ofRing hfits ((h d).setConsumer hc) rfl (update_self _ _ _) rfl rfl
    (fun _ hd => ⟨rfl, update_of_ne hd _ _, rfl, rfl⟩) fun _ _ => rfl

theorem setProducer (hp : RingInv opt d s.mem p (s.consumer d) (s.posted d) (s.delivered d)) :
    Inv opt (s.setProducer d p) :=
  h.ofRing hfits hp (update_self _ _ _) rfl rfl rfl
    (fun _ hd => ⟨update_of_ne hd _ _, rfl, rfl, rfl⟩) fun _ _ => rfl

theorem post (hidle : (s.producer d).isIdle = true) : Inv opt (msgRingPost opt s d m) := by
  rw [msgRingPost]
  split_ifs with hlong hfull
  iterate 3 exact h.postFails hfits (by decide)
  · have hd := h d
    rw [Producer.eq_idle hidle] at hd
    refine h.setProducer hfits (hd.writing ?_ fun _ => ⟨rfl, fun m' hm' => ?_⟩)
    · have hroom := hd.room
      have hne : (s.posted d).length + 1 ≠ (s.delivered d).length + opt.n d := by
        intro heq
        refine hfull (UInt32.toNat_inj.mp ?_)
        have hadd := index_add hfits (k := 1) hd.pi (hfits.depth_pos d)
        refine hadd.trans ?_
        rw [heq, add_mod_right]
        exact hd.ci.symm
      rw [length_singleton]
      omega
    · obtain rfl := mem_singleton.mp hm'
      exact length_of_size_le hfits hlong

theorem postTxBatch (hidle : (s.producer .tx).isIdle = true) (hcnt : msgs.length < 2 ^ 32) :
    Inv opt (msgRingPostTxBatch opt s msgs) := by
  have hd := h .tx
  rw [Producer.eq_idle hidle] at hd
  have hroom := hd.room
  have hle := hd.le
  have hleft := leftCnt_post hfits (x := s.pi opt .tx) (y := s.ci opt .tx)
    (j := (s.delivered .tx).length) (k := (s.posted .tx).length - (s.delivered .tx).length)
    ((Nat.add_sub_cancel' hle).symm ▸ hd.pi) hd.ci (by omega)
  rw [msgRingPostTxBatch]
  split_ifs with hcan
  · exact h.postFails hfits (by decide)
  · refine h.setProducer hfits (hd.writing ?_ nofun)
    have hnum : (ofNat msgs.length).toNat = msgs.length := by exact mod_eq_of_lt hcnt
    have hcan := le_iff_toNat_le.mp (UInt32.not_lt.mp hcan)
    omega

theorem writeSlot {a : ℕ}
    (hself : RingInv opt d (store s.mem a l) p (s.consumer d) (s.posted d) (s.delivered d))
    (hin : ∀ y, a ≤ y → y < a + l.length → Owned opt d y) :
    Inv opt ((s.write a l).setProducer d p) :=
  h.ofRing hfits hself (update_self _ _ _) rfl rfl rfl
    (fun _ hd => ⟨update_of_ne hd _ _, rfl, rfl, rfl⟩) fun _ hx => store_of_not_owned hin hx

theorem copy (hp : s.producer d = .writing batch done (m :: left))
    (hlong : ¬ (batch = true ∧ m.size > opt.payloadSize d)) :
    Inv opt ((s.write (s.postSlot opt d batch done.length + sizeofRingBufHdr.toNat)
      m.bytes).setProducer d (.sizing batch done m left)) := by
  have hd := h d
  rw [hp] at hd
  have hlen : m.bytes.length + 4 ≤ opt.w d := by
    cases batch with
    | true => exact length_of_size_le hfits fun hgt => hlong ⟨rfl, hgt⟩
    | false => exact (hd.producer rfl).2 m mem_cons_self
  have hzero : batch = false → done.length = 0 := by
    intro hb
    have hone := (hd.producer hb).1
    rw [length_cons] at hone
    omega
  have hslot : s.postSlot opt d batch done.length + sizeofRingBufHdr.toNat =
      opt.ring d + ((s.posted d).length + done.length) % opt.n d * opt.w d + 4 :=
    congrArg (· + 4) (postSlot_eq hd hfits (length_lt_append_cons done m left) hzero)
  refine h.writeSlot hfits (hd.copy hfits hlen hslot) fun y hy hy' => ?_
  have hin := slot_mod_inside hfits d ((s.posted d).length + done.length)
  exact .inl (by omega)

theorem size (hp : s.producer d = .sizing batch done m left) :
    Inv opt ((s.write (s.postSlot opt d batch done.length) (u32 m.size)).setProducer d
      (.writing batch (done ++ [m]) left)) := by
  have hd := h d
  rw [hp] at hd
  obtain ⟨hbatch, hlen, -⟩ := hd.producer
  have hslot := postSlot_eq hd hfits (length_lt_append_cons done m left) fun hb =>
    length_eq_zero_iff.mpr (hbatch hb).1
  refine h.writeSlot hfits (hd.size hfits hslot) fun y hy hy' => ?_
  rw [length_u32] at hy'
  have hin := slot_mod_inside hfits d ((s.posted d).length + done.length)
  exact .inl (by omega)

theorem publish (hp : s.producer d = .writing batch done []) : Inv opt ((s.write (opt.hdr d)
      (u32 ((s.pi opt d + ofNat done.length) % opt.depth d))).postReturns d .ok done) := by
  have hd := h d
  rw [hp] at hd
  have hroom := hd.room
  rw [Producer.msgs, append_nil] at hroom
  have hle := hd.le
  refine h.postReturns hfits _ (hd.publish hfits (index_add hfits hd.pi (by omega))) fun x hx =>
    store_of_not_owned (fun y hy hy' => .inr ?_) hx
  rw [length_u32] at hy'
  omega

theorem produce (ht : produce opt s d = some t) : Inv opt t := by
  rw [MsgRing.produce] at ht
  generalize hp : s.producer d = p at ht
  cases p with
  | idle => cases ht
  | writing batch done left =>
    cases left with
    | cons m left =>
      dsimp only at ht
      split_ifs at ht with hlong <;> cases ht
      · exact h.postFails hfits (by decide)
      · exact h.copy hfits hp hlong
    | nil =>
      cases ht
      exact h.publish hfits hp
  | sizing batch done m left =>
    cases ht
    exact h.size hfits hp

theorem poll : Inv opt (msgRingPoll opt s d maxBufSize) := by
  rw [msgRingPoll]
  split_ifs with hne
  · exact h.pollFails hfits rfl
  · exact h.setConsumer hfits ⟨rfl, lt_of_index_ne h hne, fun _ => rfl⟩

theorem pollBatch {maxCnt : UInt32} : Inv opt (msgRingPollBatch opt s d maxBufSize maxCnt) := by
  rw [msgRingPollBatch]
  split_ifs
  · exact h.pollFails hfits rfl
  · exact h.setConsumer hfits trivial

end Inv

theorem leftCnt_eq : ((s.pi opt d + opt.depth d - s.ci opt d) % opt.depth d).toNat =
      (s.posted d).length - (s.delivered d).length := by
  have hroom := (h d).room
  have hle := (h d).le
  exact leftCnt_poll hfits (j := (s.delivered d).length)
    ((Nat.add_sub_cancel' hle).symm ▸ (h d).pi) (h d).ci (by omega)

/-- A message whose length is seen, and which is copied. -/
theorem seen (single : Bool) {m : List UInt8}
    (hm : (s.posted d)[(s.delivered d).length + k]? = some m) (hsingle : single = true → k = 0) :
    (wordAt s.mem (s.pollSlot opt d single k)).toNat = m.length ∧
      bytes s.mem (s.pollSlot opt d single k + sizeofRingBufHdr.toNat) m.length = m := by
  have hlt := (List.getElem?_eq_some_iff.mp hm).1
  rw [pollSlot_eq (h d) hfits hlt hsingle]
  have hslot := (h d).slots _ m (le_add_right _ k) ((getElem?_append_left hlt).trans hm)
  exact ⟨hslot.len, hslot.bytes⟩

theorem Inv.check {cnt : ℕ} (hc : s.consumer d = .checking single maxBufSize (cnt + 1) got) :
    Inv opt (s.setConsumer d (.copying single maxBufSize cnt got
      (wordAt s.mem (s.pollSlot opt d single got.length)))) := by
  have hok := (h d).consumer
  rw [hc] at hok
  obtain ⟨hgot, hle, hsingle⟩ := hok
  refine h.setConsumer hfits ⟨hgot, by omega, fun hs => by have := hsingle hs; omega, ?_⟩
  exact fun m hm => (seen h hfits single hm fun hs => by have := hsingle hs; omega).1

theorem Inv.take {tempBufSize : UInt32} {cnt : ℕ}
    (hc : s.consumer d = .copying single maxBufSize cnt got tempBufSize) {len : UInt32}
    (hlen : len = tempBufSize ∨ len = wordAt s.mem (s.pollSlot opt d single got.length)) :
    Inv opt (s.setConsumer d (.checking single maxBufSize cnt (got ++
      [bytes s.mem (s.pollSlot opt d single got.length + sizeofRingBufHdr.toNat) len.toNat]))) := by
  have hok := (h d).consumer
  rw [hc] at hok
  obtain ⟨hgot, hlt, hsingle, htemp⟩ := hok
  obtain ⟨m, hm⟩ : ∃ m, (s.posted d)[(s.delivered d).length + got.length]? = some m :=
    ⟨_, getElem?_eq_getElem (by omega)⟩
  obtain ⟨hword, hbytes⟩ := seen h hfits single hm fun hs => by
    have := hsingle hs
    omega
  have hlenNat : len.toNat = m.length := by
    obtain rfl | rfl := hlen
    · exact htemp m hm
    · exact hword
  rw [hlenNat, hbytes]
  refine h.setConsumer hfits ⟨?_, ?_, fun hs => ?_⟩
  · rw [length_append, length_singleton, take_add_one, ← hgot, getElem?_drop, hm]
    rfl
  · rw [length_append, length_singleton]
    omega
  · have := hsingle hs
    rw [length_append, length_singleton]
    omega

/-- The messages are taken out of the ring. -/
theorem Inv.deliver (hc : s.consumer d = .checking single maxBufSize 0 got) :
    Inv opt ((s.write (opt.hdr d + 4)
      (u32 ((s.ci opt d + ofNat got.length) % opt.depth d))).pollReturns d (some got)) := by
  have hd := h d
  rw [hc] at hd
  have hroom := hd.room
  have hle := hd.consumer.2.1
  refine h.pollReturns hfits _ (hd.take hfits (index_add hfits hd.ci (by omega))) fun x hx =>
    store_of_not_owned (fun y hy hy' => .inr ?_) hx
  rw [length_u32] at hy'
  omega

theorem Inv.consume (ht : consume opt s d = some t) : Inv opt t := by
  rw [MsgRing.consume] at ht
  generalize hc : s.consumer d = c at ht
  cases c with
  | idle => cases ht
  | counting maxBufSize maxCnt =>
    cases ht
    have hcnt := leftCnt_eq h hfits (d := d)
    have hle := (h d).le
    refine h.setConsumer hfits ⟨rfl, ?_, nofun⟩
    rw [length_nil]
    split_ifs with hmin
    · omega
    · have hmin := le_iff_toNat_le.mp (UInt32.not_lt.mp hmin)
      omega
  | checking single maxBufSize cnt got =>
    cases cnt with
    | zero =>
      cases ht
      exact h.deliver hfits hc
    | succ cnt =>
      dsimp only at ht
      split_ifs at ht <;> cases ht
      · exact h.pollFails hfits rfl
      · exact h.check hfits hc
  | copying single maxBufSize cnt got tempBufSize =>
    cases ht
    exact h.take hfits hc (ite_eq_or_eq ..)

/-- **Every step of every party keeps both rings.** -/
theorem Inv.step {x : Action} (ht : step opt s x = some t) : Inv opt t := by
  cases x with
  | post d m =>
    obtain ⟨hidle, rfl⟩ := guard_eq_some.mp ht
    exact h.post hfits hidle
  | postTxBatch msgs =>
    obtain ⟨⟨hidle, hcnt⟩, rfl⟩ := guard_eq_some.mp ht
    exact h.postTxBatch hfits hidle hcnt
  | produce d => exact h.produce hfits ht
  | poll d maxBufSize =>
    obtain ⟨-, rfl⟩ := guard_eq_some.mp ht
    exact h.poll hfits
  | pollBatch d maxBufSize maxCnt =>
    obtain ⟨-, rfl⟩ := guard_eq_some.mp ht
    exact h.pollBatch hfits
  | consume d => exact h.consume hfits ht

end

end Step

/-! ## Every run -/

/-- The messages in a ring, as they are found from `ci` up to `pi`. -/
def State.queue (opt : MsgRingOption) (s : State) (d : Dir) : List (List UInt8) :=
  let leftCnt := (s.pi opt d + opt.depth d - s.ci opt d) % opt.depth d
  (List.range leftCnt.toNat).map fun i =>
    let slot := s.pollSlot opt d false i
    bytes s.mem (slot + sizeofRingBufHdr.toNat) (wordAt s.mem slot).toNat

/-- **A bounded queue**: what was delivered is the beginning of what was posted, the
rest of it is in the ring, in order, and there is never more than fits. -/
structure Fifo (opt : MsgRingOption) (s : State) (d : Dir) : Prop where
  delivered : s.delivered d <+: s.posted d
  queue : s.posted d = s.delivered d ++ s.queue opt d
  outstanding : (s.queue opt d).length ≤ (opt.depth d).toNat - 1

section Run

variable {opt : MsgRingOption} {s : State} {d : Dir}

theorem Inv.queue_eq (h : Inv opt s) (hfits : opt.Fits) :
    s.queue opt d = (s.posted d).drop (s.delivered d).length := by
  refine ext_getElem ?_ fun i hi hi' => ?_
  · rw [queue, length_map, length_range, leftCnt_eq h hfits, length_drop]
  · rw [length_drop] at hi'
    obtain ⟨hword, hbytes⟩ := seen h hfits false (d := d) (k := i)
      (getElem?_eq_getElem (by omega)) nofun
    simp only [queue, getElem_map, getElem_range]
    rw [hword, hbytes, getElem_drop]

theorem Inv.fifo (h : Inv opt s) (hfits : opt.Fits) : Fifo opt s d := by
  have hqueue := h.queue_eq hfits (d := d)
  obtain ⟨rest, hrest⟩ := (h d).took
  have hroom := (h d).room
  refine ⟨(h d).took, ?_, ?_⟩
  · rw [hqueue, ← hrest, drop_left]
  · rw [hqueue, length_drop]
    show _ ≤ opt.n d - 1
    omega

theorem wordAt_cleared {a b : ℕ} (hb : a ≤ b) (hb' : b + 4 ≤ a + 16) :
    wordAt (store mem a (replicate sizeofRingHdr.toNat 0)) b = 0 := by
  have hzero : ∀ i < 4, store mem a (replicate sizeofRingHdr.toNat 0) (b + i) = 0 := by
    intro i hi
    have hlt : b + i - a < sizeofRingHdr.toNat := show b + i - a < 16 by omega
    rw [store, if_pos (by omega), getElem?_replicate_of_lt hlt]
    rfl
  have h₀ := hzero 0 (by omega)
  rw [wordAt, hzero 1 (by omega), hzero 2 (by omega), hzero 3 (by omega)]
  rw [add_zero] at h₀
  rw [h₀]
  rfl

theorem inv_msgRingCreate {addr : Bool} (hfits : opt.Fits)
    (h : msgRingCreate opt addr mem = some s) : Inv opt s := by
  rw [msgRingCreate] at h
  split_ifs at h
  · cases h
    obtain ⟨-, -, htxHdr, hrxHdr⟩ := layout_of_lt hfits.size_lt
    have hwords : ∀ d i, i ≤ 4 → wordAt (store (store mem (opt.hdr .tx)
        (replicate sizeofRingHdr.toNat 0)) (opt.hdr .rx)
        (replicate sizeofRingHdr.toNat 0)) (opt.hdr d + i) = 0 := by
      intro d i hi
      cases d with
      | rx => exact wordAt_cleared (by omega) (by omega)
      | tx =>
        rw [wordAt_store_of_apart (.inl (by omega))]
        exact wordAt_cleared (by omega) (by omega)
    intro d
    have hpos : 0 < opt.n d := hfits.depth_pos d
    exact {
      pi := (congrArg toNat (hwords d 0 (by omega))).trans (zero_mod _).symm
      ci := (congrArg toNat (hwords d 4 (by omega))).trans (zero_mod _).symm
      took := prefix_refl _
      room := Nat.add_lt_add_left hpos 0
      slots := fun _ _ _ h => by cases h
      producer := trivial
      consumer := trivial }

end Run

/-- **The message ring is a queue**, in each direction, in every state that the two
producers and the two consumers can reach, whatever the order of their steps. -/
theorem fifo_of_run (opt : MsgRingOption) (hfits : opt.Fits) (addr : Bool) (mem : ℕ → UInt8)
    (s t : State) (hs : msgRingCreate opt addr mem = some s) (xs : List Action)
    (ht : Machine.run (step opt) s xs = some t) (d : Dir) : Fifo opt t d :=
  Inv.fifo (run_invariant (fun _ _ _ h hstep => h.step hfits hstep)
    (inv_msgRingCreate hfits hs) ht) hfits

/-- A message of one byte is posted. -/
def postByte (b : UInt8) : List Action :=
  [.post .tx ⟨[b], Nat.one_lt_two_pow (by decide)⟩, .produce .tx, .produce .tx, .produce .tx]

/-- A message is polled. -/
def pollOnce : List Action := [.poll .tx 8, .consume .tx, .consume .tx, .consume .tx]

/-- What was posted and what was delivered, after a run. -/
def outcome (opt : MsgRingOption) (xs : List Action) :
    Option (List (List UInt8) × List (List UInt8)) :=
  ((msgRingCreate opt false fun _ => 0).bind fun s => Machine.run (step opt) s xs).map
    fun t => (t.posted .tx, t.delivered .tx)

theorem exists_of_outcome {opt : MsgRingOption} {xs : List Action}
    {r : List (List UInt8) × List (List UInt8)} (h : outcome opt xs = some r) :
    ∃ s t, msgRingCreate opt false (fun _ => 0) = some s ∧
      run (step opt) s xs = some t ∧ t.posted .tx = r.1 ∧ t.delivered .tx = r.2 := by
  obtain ⟨t, ht, rfl⟩ := map_eq_some_iff.mp h
  obtain ⟨s, hs, hrun⟩ := bind_eq_some_iff.mp ht
  exact ⟨s, t, hs, hrun, rfl, rfl⟩

theorem fifo_of_run_sample : ∃ s t, msgRingCreate ⟨16, 3, 16, 3⟩ false (fun _ => 0) = some s ∧
      Machine.run (step ⟨16, 3, 16, 3⟩) s (postByte 1 ++ postByte 2 ++ pollOnce) = some t ∧
      t.delivered .tx = [[1]] ∧ Fifo ⟨16, 3, 16, 3⟩ t .tx := by
  have hfits : MsgRingOption.Fits ⟨16, 3, 16, 3⟩ :=
    ⟨fun d => by cases d <;> decide, fun d => by cases d <;> decide, by decide⟩
  have hout : outcome ⟨16, 3, 16, 3⟩ (postByte 1 ++ postByte 2 ++ pollOnce)
      = some ([[1], [2]], [[1]]) := by decide +kernel
  obtain ⟨s, t, hs, ht, -, hdel⟩ := exists_of_outcome hout
  exact ⟨s, t, hs, ht, hdel, fifo_of_run _ hfits false _ s t hs _ ht .tx⟩

/-- **A message is lost**: with three slots of 2 GiB the last one is at the same place
as the first, because their distance is 4 GiB, and the size of the memory passes the
check for the same reason. -/
theorem exists_run_overwritten :
    ∃ s t, msgRingCreate ⟨0x80000000, 3, 64, 2⟩ false (fun _ => 0) = some s ∧
      Machine.run (step ⟨0x80000000, 3, 64, 2⟩) s (postByte 1 ++ pollOnce ++ postByte 2 ++
        pollOnce ++ postByte 3 ++ postByte 4 ++ pollOnce) = some t ∧
      ¬ Fifo ⟨0x80000000, 3, 64, 2⟩ t .tx := by
  have hout : outcome ⟨0x80000000, 3, 64, 2⟩ (postByte 1 ++ pollOnce ++ postByte 2 ++
      pollOnce ++ postByte 3 ++ postByte 4 ++ pollOnce)
      = some ([[1], [2], [3], [4]], [[1], [2], [4]]) := by decide +kernel
  obtain ⟨s, t, hs, ht, hposted, hdel⟩ := exists_of_outcome hout
  refine ⟨s, t, hs, ht, fun h => ?_⟩
  have hpre := h.delivered
  rw [hposted, hdel] at hpre
  exact absurd hpre (by decide)

end Umq.MsgRing
