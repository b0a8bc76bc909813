import UbsComm.Service.Connect

/-!
# New channels: what is guaranteed, and the parts of the invariant

What the server guarantees of the channels it hands to the user is
`NewChannels.Sound`, and the condition on the links and on the driver is
`ConnectAction.Orderly`. The invariant is of parts that have little to do with
each other, and each is kept by the small changes that the steps are made of:
the links that are together (`Joined`), that complete ones are noticed
(`Progress`), and that no channel is there twice (`Once`).
-/

namespace Service

open Function HcomConnectingEpInfo ConnectingEpState NewChannels NewEpHandler Option List

/-! ## What is guaranteed -/

/-- **A channel as its first link announced it**: it has as many endpoints as
that link said, in the order of their numbers, all of this channel, and none
of them had broken. -/
structure HandedChannel.Whole (c : HandedChannel) : Prop where
  complete : ∃ first, c.eps.head? = some first ∧ c.eps.length = first.connInfo.totalLinkCount.toNat
  inOrder : ∀ (i : ℕ) (link : Link), c.eps[i]? = some link →
    link.connInfo.index.toNat = i ∧ link.connInfo.channelId = c.uuid.channelId
  unbroken : ∀ link ∈ c.eps, c.broke link.ep = false

/-- The handler has yet to see whether its endpoint is the last one. -/
def NewEpStage.Pending (stage : NewEpStage) : Prop := stage = .emplaced ∨ stage = .marked

namespace NewChannels

variable (st : NewChannels)

/-- A handler has yet to see whether these links are complete. -/
def Pending (n : ℕ) : Prop :=
  ∃ ep call stage, st.handlers ep = .running call stage ∧ call.info = n ∧ stage.Pending

/-- A handler is about to make the channel of these links, or has tried to. -/
def Making (n : ℕ) : Prop :=
  st.attempted n = true ∨ ∃ ep call, st.handlers ep = .running call .last ∧ call.info = n

/-- **What the server guarantees of new channels**: what it hands to the user
is whole and has all the links that have joined; of the channels that the user
has not refused, no two are of the same client and number; links that are not
complete have no channel made of them, and those that are complete have. -/
structure Sound : Prop where
  whole : ∀ c ∈ st.handed, c.Whole
  joined : ∀ c ∈ st.handed, ∃ n info, st.epInfos n = some info
    ∧ info.uuid = c.uuid ∧ info.epVector = c.eps
  once : st.handed.Pairwise fun c d =>
    st.refused c.creator = false → st.refused d.creator = false → c.uuid ≠ d.uuid
  waiting : ∀ n info, st.epInfos n = some info → info.connState = .newEp →
    info.epVector.length < info.connInfo.totalLinkCount.toNat ∨ st.Pending n
  making : ∀ n info, st.epInfos n = some info → info.connState = .newChannel →
    info.epVector.length = info.connInfo.totalLinkCount.toNat ∧ st.Making n

end NewChannels

/-- What a link announces, if it is taken in, agrees with what the first one
did; `allocated` says whether there is memory for a first one. -/
def SerConnInfo.Agrees (connInfo : SerConnInfo) (allocated : Bool) :
    Option HcomConnectingEpInfo → Prop
  | none => serConnInfoCheck connInfo = true → allocated = true → connInfo.index = 0
  | some info => info.compare connInfo = true → info.epVector.length < channelEpMaxNum →
    connInfo.index < connInfo.totalLinkCount
      ∧ connInfo.totalLinkCount = info.connInfo.totalLinkCount

instance SerConnInfo.decidableAgrees (connInfo : SerConnInfo) (allocated : Bool) :
    DecidablePred (connInfo.Agrees allocated)
  | none => inferInstanceAs (Decidable (serConnInfoCheck connInfo = true → _ → _))
  | some info => inferInstanceAs (Decidable (info.compare connInfo = true → _ → _))

/-- **The condition on a step**: the links taken into a channel agree on their
number, each is below it, the first to come is the first; and the driver says of
each link that breaks that it is broken, and not that it is established. -/
def ConnectAction.Orderly (st : NewChannels) : ConnectAction → Prop
  | .arrive _ (some ip) (some connInfo) allocated =>
    connInfo.Agrees allocated ((st.newEpMap ⟨ip, connInfo.channelId⟩).bind st.epInfos)
  | .establish ep => st.broke ep = false
  | .linkBroken ep always => always = true ∨ st.epStates ep = .established
  | _ => True

instance ConnectAction.decidableOrderly (st : NewChannels) :
    (x : ConnectAction) → Decidable (x.Orderly st)
  | .arrive _ (some ip) (some connInfo) allocated =>
    inferInstanceAs (Decidable (connInfo.Agrees allocated
      ((st.newEpMap ⟨ip, connInfo.channelId⟩).bind st.epInfos)))
  | .arrive _ (some _) none _ | .arrive _ none none _ | .arrive _ none (some _) _ | .goOn ..
  | .brokenGoOn _ => .isTrue trivial
  | .establish ep => inferInstanceAs (Decidable (st.broke ep = false))
  | .linkBroken ep always =>
    inferInstanceAs (Decidable (always = true ∨ st.epStates ep = .established))

/-! ## Links -/

/-- What is known of the links of a channel. -/
structure HcomConnectingEpInfo.Ok (info : HcomConnectingEpInfo) : Prop where
  first : ∃ link, info.epVector.head? = some link
    ∧ link.connInfo.totalLinkCount = info.connInfo.totalLinkCount
  inOrder : ∀ (i : ℕ) (link : Link), info.epVector[i]? = some link →
    link.connInfo.index.toNat = i ∧ link.connInfo.channelId = info.uuid.channelId
  channelId : info.connInfo.channelId = info.uuid.channelId
  length_le : info.epVector.length ≤ info.connInfo.totalLinkCount.toNat
  total_le : info.connInfo.totalLinkCount.toNat ≤ channelEpMaxNum
  complete : info.connState = .newChannel →
    info.epVector.length = info.connInfo.totalLinkCount.toNat

section Links

variable {info : HcomConnectingEpInfo} {ep : ℕ} {connInfo : SerConnInfo} {uuid : SerUuid}

theorem HcomConnectingEpInfo.ok_new (hcheck : serConnInfoCheck connInfo = true)
    (hindex : connInfo.index = 0) (huuid : connInfo.channelId = uuid.channelId) :
    (new uuid ep connInfo).Ok := by
  obtain ⟨htotal, -, hbelow⟩ := of_decide_eq_true hcheck
  rw [not_or] at htotal
  rw [hindex] at hbelow
  refine ⟨⟨_, rfl, rfl⟩, fun i link hlink => ?_, huuid, ?_,
    UInt16.le_iff_toNat_le.mp (UInt16.not_lt.mp htotal.2), nofun⟩
  · cases i with
    | zero =>
      cases hlink
      exact ⟨congrArg UInt16.toNat hindex, huuid⟩
    | succ i => cases hlink
  · exact UInt16.lt_iff_toNat_lt.mp (UInt16.not_le.mp hbelow)

/-- What may become of the links of a channel: once it is being made of them,
they stay as they are. -/
structure HcomConnectingEpInfo.Becomes (info info' : HcomConnectingEpInfo) : Prop where
  ok : info'.Ok
  uuid : info'.uuid = info.uuid
  connInfo : info'.connInfo = info.connInfo
  kept : info.connState = .newChannel →
    info'.connState = .newChannel ∧ info'.epVector = info.epVector

section Turn

variable (hcompare : info.compare connInfo = true)
  (hindex : connInfo.index < connInfo.totalLinkCount)
  (htotal : connInfo.totalLinkCount = info.connInfo.totalLinkCount)

include hcompare hindex htotal

/-- A link that comes in its turn is missing. -/
theorem HcomConnectingEpInfo.length_lt :
    info.epVector.length < info.connInfo.totalLinkCount.toNat := by
  obtain ⟨-, -, -, hlast, -⟩ := of_decide_eq_true hcompare
  rw [← hlast, ← htotal]
  exact UInt16.lt_iff_toNat_lt.mp hindex

variable (h : info.Ok)

include h

theorem HcomConnectingEpInfo.Ok.addEp_eq :
    info.addEp ep connInfo = (decide (info.connState = .newEp), { info with
      epState := update info.epState info.epVector.length .established
      epVector := info.epVector ++ [⟨ep, connInfo⟩] }) :=
  if_neg (Nat.not_le_of_lt (Nat.lt_of_lt_of_le (length_lt hcompare hindex htotal) h.total_le))

theorem HcomConnectingEpInfo.Ok.addEp_becomes : info.Becomes (info.addEp ep connInfo).2 := by
  have hlength := length_lt hcompare hindex htotal
  have hnew : info.connState ≠ .newChannel := fun hnew => Nat.ne_of_lt hlength (h.complete hnew)
  rw [addEp_eq hcompare hindex htotal h]
  refine ⟨⟨?_, fun i link hlink => ?_, h.channelId, ?_, h.total_le,
    fun h => absurd h hnew⟩, rfl, rfl, fun h => absurd h hnew⟩
  · obtain ⟨link, hlink, hsame⟩ := h.first
    exact ⟨link, by rw [head?_append, hlink]; rfl, hsame⟩
  · rw [getElem?_append] at hlink
    split at hlink
    · exact h.inOrder i link hlink
    · rename_i hi
      obtain ⟨-, hchannelId, -, hlast, -⟩ := of_decide_eq_true hcompare
      obtain ⟨hone, rfl⟩ := List.getElem?_eq_some_iff.mp hlink
      rw [getElem_singleton]
      have hone : i - info.epVector.length < 1 := hone
      exact ⟨by show connInfo.index.toNat = i; omega, hchannelId ▸ h.channelId⟩
  · rw [length_append]
    exact hlength

end Turn

/-- A link sees that it is the last one. -/
theorem HcomConnectingEpInfo.Ok.cas_becomes (h : info.Ok)
    (hlast : info.connInfo.totalLinkCount.toNat ≤ info.epVector.length) :
    info.Becomes (info.cas .newEp .newChannel).2 := by
  unfold cas
  split
  · rename_i hstate
    exact ⟨{ h with complete := fun _ => Nat.le_antisymm h.length_le hlast }, rfl, rfl,
      fun _ => ⟨rfl, rfl⟩⟩
  · exact ⟨h, rfl, rfl, fun hnew => ⟨hnew, rfl⟩⟩

theorem HcomConnectingEpInfo.Ok.allEPBroken_becomes (h : info.Ok) (index : ℕ) :
    let info' := (info.allEPBroken index).2
    info.Becomes info' ∧ (info'.connState = info.connState ∨ info'.connState = .epBroken)
      ∧ info'.epVector = info.epVector := by
  unfold allEPBroken cas
  dsimp only
  split_ifs with hrange hall hstate
  · exact ⟨⟨h, rfl, rfl, fun hnew => ⟨hnew, rfl⟩⟩, .inl rfl, rfl⟩
  · exact ⟨⟨{ h with }, rfl, rfl, fun hnew => ⟨hnew, rfl⟩⟩, .inl rfl, rfl⟩
  · exact ⟨⟨{ h with complete := nofun }, rfl, rfl,
      fun hnew => absurd (hstate.symm.trans hnew) noConfusion⟩, .inr rfl, rfl⟩
  · exact ⟨⟨{ h with }, rfl, rfl, fun hnew => ⟨hnew, rfl⟩⟩, .inl rfl, rfl⟩

end Links

/-! ## Joining -/

/-- What a handler that is under way knows. -/
def NewEpHandler.Knows (epInfos : ℕ → Option HcomConnectingEpInfo)
    (handler : NewEpHandler) : Prop :=
  ∀ call stage, handler = .running call stage → ∃ info,
    epInfos call.info = some info ∧ info.uuid = call.uuid
      ∧ call.connInfo.totalLinkCount = info.connInfo.totalLinkCount
      ∧ (stage = .last → info.connState = .newChannel)

/-- The links that are together, and who knows them. -/
structure NewChannels.Joined (st : NewChannels) : Prop where
  ok : ∀ n info, st.epInfos n = some info → info.Ok
  fresh : ∀ n, st.made ≤ n → st.epInfos n = none
  mapped : ∀ uuid n, st.newEpMap uuid = some n → ∃ info, st.epInfos n = some info ∧ info.uuid = uuid
  knows : ∀ ep, (st.handlers ep).Knows st.epInfos
  handed : ∀ c ∈ st.handed, ∃ n info, st.epInfos n = some info
    ∧ info.uuid = c.uuid ∧ info.epVector = c.eps ∧ info.connState = .newChannel

variable {stage : NewEpStage} {call : NewEpCall}

section Joined

variable {st : NewChannels} {n : ℕ} {info info' : HcomConnectingEpInfo} {ep : ℕ}
  {handler : NewEpHandler} {connInfo : SerConnInfo} {uuid : SerUuid}

theorem NewChannels.setInfo_self : (st.setInfo n info').epInfos n = some info' := update_self ..

/-- What is to hold of the links of every channel, where those of one change. -/
theorem NewChannels.forall_setInfo {P : ℕ → HcomConnectingEpInfo → Prop} (hn : P n info')
    (h : ∀ m info, m ≠ n → st.epInfos m = some info → P m info) (m : ℕ)
    (info : HcomConnectingEpInfo) (hm : (st.setInfo n info').epInfos m = some info) : P m info := by
  by_cases hmn : m = n
  · subst hmn
    exact some.inj (setInfo_self.symm.trans hm) ▸ hn
  · exact h m info hmn ((update_of_ne hmn ..).symm.trans hm)

theorem NewChannels.emplaceInfo_self :
    (st.emplaceInfo uuid ep connInfo).epInfos st.made = some (.new uuid ep connInfo) :=
  update_self ..

theorem NewEpHandler.knows_running
    (hinfo : st.epInfos call.info = some info) (huuid : info.uuid = call.uuid)
    (htotal : call.connInfo.totalLinkCount = info.connInfo.totalLinkCount)
    (hlast : stage = .last → info.connState = .newChannel) :
    (NewEpHandler.running call stage).Knows st.epInfos := by
  rintro call' stage' hcall
  obtain ⟨rfl, rfl⟩ := running.inj hcall
  exact ⟨info, hinfo, huuid, htotal, hlast⟩

theorem NewChannels.Joined.setHandler (h : st.Joined)
    (hknows : handler.Knows st.epInfos) : (st.setHandler ep handler).Joined :=
  { h with
    knows := (forall_update_iff st.handlers fun _ hd => hd.Knows st.epInfos).mpr
      ⟨hknows, fun ep' _ => h.knows ep'⟩ }

/-- What is found of the links of a channel is found of what has become of
them. -/
theorem HcomConnectingEpInfo.Becomes.update (hb : info.Becomes info')
    (hn : st.epInfos n = some info) {m : ℕ} {infoₘ : HcomConnectingEpInfo}
    (hm : st.epInfos m = some infoₘ) :
    ∃ infoₘ', (st.setInfo n info').epInfos m = some infoₘ'
      ∧ infoₘ'.uuid = infoₘ.uuid ∧ infoₘ'.connInfo = infoₘ.connInfo
      ∧ (infoₘ.connState = .newChannel →
        infoₘ'.connState = .newChannel ∧ infoₘ'.epVector = infoₘ.epVector) := by
  by_cases hmn : m = n
  · obtain rfl : info = infoₘ := some.inj (hn.symm.trans (hmn ▸ hm))
    exact ⟨info', hmn ▸ setInfo_self, hb.uuid, hb.connInfo, hb.kept⟩
  · exact ⟨infoₘ, (update_of_ne hmn ..).trans hm, rfl, rfl, fun hnew => ⟨hnew, rfl⟩⟩

theorem NewChannels.Joined.setInfo (h : st.Joined) (hn : st.epInfos n = some info)
    (hb : info.Becomes info') : (st.setInfo n info').Joined where
  ok := forall_setInfo hb.ok fun m infoₘ _ => h.ok m infoₘ
  fresh m hm := by
    have hmn : m ≠ n := by
      rintro rfl
      exact some_ne_none info (hn.symm.trans (h.fresh m hm))
    exact (update_of_ne hmn ..).trans (h.fresh m hm)
  mapped uuid m hm := by
    obtain ⟨infoₘ, hinfo, huuid⟩ := h.mapped uuid m hm
    obtain ⟨infoₘ', hinfo', huuid', -⟩ := hb.update hn hinfo
    exact ⟨infoₘ', hinfo', huuid'.trans huuid⟩
  knows ep call stage hcall := by
    obtain ⟨infoₘ, hinfo, huuid, htotal, hlast⟩ := h.knows ep call stage hcall
    obtain ⟨infoₘ', hinfo', huuid', hconn', hkept⟩ := hb.update hn hinfo
    exact ⟨infoₘ', hinfo', huuid'.trans huuid, hconn' ▸ htotal,
      fun hstage => (hkept (hlast hstage)).1⟩
  handed c hc := by
    obtain ⟨m, infoₘ, hinfo, huuid, heps, hnew⟩ := h.handed c hc
    obtain ⟨infoₘ', hinfo', huuid', -, hkept⟩ := hb.update hn hinfo
    exact ⟨m, infoₘ', hinfo', huuid'.trans huuid, (hkept hnew).2.trans heps, (hkept hnew).1⟩

theorem NewChannels.Joined.emplaceInfo (h : st.Joined) (hok : (new uuid ep connInfo).Ok) :
    (st.emplaceInfo uuid ep connInfo).Joined := by
  have hold : ∀ {m infoₘ}, st.epInfos m = some infoₘ →
      (st.emplaceInfo uuid ep connInfo).epInfos m = some infoₘ := by
    intro m infoₘ hm
    have hne : m ≠ st.made := by
      rintro rfl
      exact some_ne_none infoₘ (hm.symm.trans (h.fresh _ (Nat.le_refl _)))
    exact (update_of_ne hne ..).trans hm
  refine ⟨?_, fun m hm => ?_, ?_, fun ep call stage hcall => ?_, fun c hc => ?_⟩
  · exact (forall_update_iff st.epInfos fun _ i => ∀ infoₘ, i = some infoₘ → infoₘ.Ok).mpr
      ⟨fun _ hm => some.inj hm ▸ hok, fun m _ => h.ok m⟩
  · have hlt : st.made < m := hm
    exact (update_of_ne (Nat.ne_of_gt hlt) ..).trans (h.fresh m (Nat.le_of_lt hlt))
  · refine (forall_update_iff st.newEpMap fun uuid' i => ∀ m, i = some m →
      ∃ info, (st.emplaceInfo uuid ep connInfo).epInfos m = some info ∧ info.uuid = uuid').mpr
      ⟨fun m hm => some.inj hm ▸ ⟨_, emplaceInfo_self, rfl⟩, fun uuid' _ m hm => ?_⟩
    obtain ⟨info, hinfo, heq⟩ := h.mapped uuid' m hm
    exact ⟨info, hold hinfo, heq⟩
  · obtain ⟨info, hinfo, hrest⟩ := h.knows ep call stage hcall
    exact ⟨info, hold hinfo, hrest⟩
  · obtain ⟨m, info, hinfo, hrest⟩ := h.handed c hc
    exact ⟨m, info, hold hinfo, hrest⟩

theorem NewChannels.Joined.eraseInfo (h : st.Joined) (uuid : SerUuid) :
    (st.eraseInfo uuid).Joined :=
  { h with
    mapped := (forall_update_iff st.newEpMap fun uuid' i => ∀ n, i = some n →
      ∃ info, st.epInfos n = some info ∧ info.uuid = uuid').mpr
      ⟨nofun, fun uuid' _ => h.mapped uuid'⟩ }

end Joined

/-! ## Completing -/

namespace NewChannels

/-- Links that are complete are noticed, and a channel is made of them. -/
structure Progress (st : NewChannels) : Prop where
  waiting : ∀ n info, st.epInfos n = some info → info.connState = .newEp →
    info.epVector.length < info.connInfo.totalLinkCount.toNat ∨ st.Pending n
  making : ∀ n info, st.epInfos n = some info → info.connState = .newChannel → st.Making n

section Progress

variable {st : NewChannels} {n ep : ℕ} {handler : NewEpHandler}

theorem handlers_setHandler_self : (st.setHandler ep handler).handlers ep = handler :=
  update_self ..

theorem Pending.setHandler (h : st.Pending n)
    (hep : ∀ call stage, st.handlers ep = .running call stage → stage.Pending → call.info ≠ n) :
    (st.setHandler ep handler).Pending n := by
  obtain ⟨ep', call, stage, hcall, hinfo, hstage⟩ := h
  have hne : ep' ≠ ep := by
    rintro rfl
    exact hep call stage hcall hstage hinfo
  exact ⟨ep', call, stage, (update_of_ne hne ..).trans hcall, hinfo, hstage⟩

theorem Making.setHandler (h : st.Making n)
    (hep : ∀ call, st.handlers ep = .running call .last → call.info ≠ n) :
    (st.setHandler ep handler).Making n := by
  obtain h | ⟨ep', call, hcall, hinfo⟩ := h
  · exact .inl h
  · have hne : ep' ≠ ep := by
      rintro rfl
      exact hep call hcall hinfo
    exact .inr ⟨ep', call, (update_of_ne hne ..).trans hcall, hinfo⟩

/-- A handler goes on that does not make a channel. -/
theorem Making.goOn (h : st.Making n) (hcall : st.handlers ep = .running call stage)
    (hstage : stage ≠ .last) : (st.setHandler ep handler).Making n :=
  h.setHandler fun _ hlast => absurd (running.inj (hcall.symm.trans hlast)).2 hstage

/-- A handler goes on that has tried to make a channel. -/
theorem Progress.attempted (h : st.Progress) (hcall : st.handlers ep = .running call .last)
    (hattempted : st.attempted call.info = true) : (st.setHandler ep handler).Progress where
  waiting n info hinfo hstate := (h.waiting n info hinfo hstate).imp_right fun hpending =>
      hpending.setHandler fun call' stage hcall' hstage => by
        rw [(running.inj (hcall'.symm.trans hcall)).2] at hstage
        obtain ⟨⟨⟩⟩ | ⟨⟨⟩⟩ := hstage
  making n info hinfo hstate := by
    by_cases hn : call.info = n
    · exact .inl (hn ▸ hattempted)
    · refine (h.making n info hinfo hstate).setHandler fun call' hcall' => ?_
      rw [(running.inj (hcall'.symm.trans hcall)).1]
      exact hn

theorem not_pending_of_handlers (hcall : st.handlers ep = .running call stage)
    (hstage : ¬stage.Pending ∧ stage ≠ .last) (call' : NewEpCall) (stage' : NewEpStage)
    (hcall' : st.handlers ep = .running call' stage') : ¬stage'.Pending ∧ stage' ≠ .last :=
  (running.inj (hcall.symm.trans hcall')).2 ▸ hstage

theorem Progress.setHandler (h : st.Progress)
    (hep : ∀ call stage, st.handlers ep = .running call stage → ¬stage.Pending ∧ stage ≠ .last) :
    (st.setHandler ep handler).Progress where
  waiting n info hinfo hstate := (h.waiting n info hinfo hstate).imp_right fun hpending =>
      hpending.setHandler fun call stage hcall hstage => absurd hstage (hep call stage hcall).1
  making n info hinfo hstate := (h.making n info hinfo hstate).setHandler fun call hcall =>
      absurd rfl (hep call .last hcall).2

theorem idle_of_handlers (h : st.handlers ep = .idle) (call : NewEpCall) (stage : NewEpStage)
    (hcall : st.handlers ep = .running call stage) : ¬stage.Pending ∧ stage ≠ .last :=
  absurd (h.symm.trans hcall) nofun

theorem Progress.emplaceInfo (h : st.Progress) (hidle : st.handlers ep = .idle)
    (uuid : SerUuid) (connInfo : SerConnInfo) :
    ((st.emplaceInfo uuid ep connInfo).setHandler ep
      (.running ⟨uuid, st.made, connInfo⟩ .emplaced)).Progress := by
  have hold : ∀ {m info}, m ≠ st.made → (st.emplaceInfo uuid ep connInfo).epInfos m = some info →
      st.epInfos m = some info := fun hm hinfo =>
    (update_of_ne hm ..).symm.trans hinfo
  refine ⟨fun m info hinfo hstate => ?_, fun m info hinfo hstate => ?_⟩
  · by_cases hm : m = st.made
    · exact .inr ⟨ep, _, .emplaced, handlers_setHandler_self, hm.symm, .inl rfl⟩
    · refine (h.waiting m info (hold hm hinfo) hstate).imp_right fun hpending => ?_
      exact hpending.setHandler fun call stage hcall hstage =>
        absurd hstage (idle_of_handlers hidle call stage hcall).1
  · by_cases hm : m = st.made
    · rw [hm] at hinfo
      rw [← some.inj (emplaceInfo_self.symm.trans hinfo)] at hstate
      exact noConfusion hstate
    · have hmaking : (st.emplaceInfo uuid ep connInfo).Making m :=
        h.making m info (hold hm hinfo) hstate
      exact hmaking.setHandler fun call hcall =>
        absurd rfl (idle_of_handlers hidle call .last hcall).2

/-- Links change, and a handler goes on that was on them. -/
theorem Progress.setInfo (h : st.Progress) {info' : HcomConnectingEpInfo}
    (hep : ∀ call stage, st.handlers ep = .running call stage →
      stage.Pending ∨ stage = .last → call.info = n)
    (hwaiting : info'.connState = .newEp →
      info'.epVector.length < info'.connInfo.totalLinkCount.toNat
        ∨ ((st.setInfo n info').setHandler ep handler).Pending n)
    (hmaking : info'.connState = .newChannel →
      ((st.setInfo n info').setHandler ep handler).Making n) :
    ((st.setInfo n info').setHandler ep handler).Progress := by
  refine ⟨forall_setInfo hwaiting fun m info hm hinfo hstate => ?_,
    forall_setInfo hmaking fun m info hm hinfo hstate => ?_⟩
  · refine (h.waiting m info hinfo hstate).imp_right fun hpending => ?_
    exact hpending.setHandler fun call stage hcall hstage heq =>
      hm (heq.symm.trans (hep call stage hcall (.inl hstage)))
  · have hmaking : (st.setInfo n info').Making m := h.making m info hinfo hstate
    exact hmaking.setHandler fun call hcall heq =>
      hm (heq.symm.trans (hep call .last hcall (.inr rfl)))

end Progress

/-! ## Once -/

/-- The handler has done all but return. -/
def Over (handler : NewEpHandler) : Prop :=
  (∃ call result, handler = .running call (.created result)) ∨ ∃ result, handler = .returned result

/-- A channel in the hands of the user is in the map, and the map has one for
each client and number. -/
structure Once (st : NewChannels) : Prop where
  apart : st.handed.Pairwise fun c d =>
    st.refused c.creator = false → st.refused d.creator = false → c.uuid ≠ d.uuid
  mapped : ∀ c ∈ st.handed, st.refused c.creator = false → st.channelMap c.uuid = true
  handling : ∀ ep call, st.handlers ep = .running call .handling →
    ∃ c ∈ st.handed, c.creator = ep ∧ c.uuid = call.uuid
  refused : ∀ ep, st.refused ep = true → Over (st.handlers ep)

section Once

variable {st : NewChannels} {ep : ℕ} {handler : NewEpHandler} {call : NewEpCall}

theorem Once.setHandler (h : st.Once) (hhandling : ∀ call, handler = .running call .handling →
      ∃ c ∈ st.handed, c.creator = ep ∧ c.uuid = call.uuid)
    (hover : Over (st.handlers ep) → Over handler) : (st.setHandler ep handler).Once :=
  { h with
    handling := (forall_update_iff st.handlers fun ep' hd => ∀ call, hd = .running call .handling →
      ∃ c ∈ st.handed, c.creator = ep' ∧ c.uuid = call.uuid).mpr
      ⟨hhandling, fun ep' _ => h.handling ep'⟩
    refused := (forall_update_iff st.handlers fun ep' hd => st.refused ep' = true → Over hd).mpr
      ⟨fun hrefused => hover (h.refused ep hrefused), fun ep' _ => h.refused ep'⟩ }

theorem not_over_idle : ¬Over .idle := by
  rintro (⟨_, _, ⟨⟩⟩ | ⟨_, ⟨⟩⟩)

theorem Once.emplaced (h : st.Once) (hidle : st.handlers ep = .idle) (call : NewEpCall) :
    (st.setHandler ep (.running call .emplaced)).Once :=
  h.setHandler nofun fun hover => absurd (hidle ▸ hover) not_over_idle

theorem stage_of_over (h : Over (.running call stage)) : ∃ result, stage = .created result := by
  obtain ⟨_, result, h⟩ | ⟨_, ⟨⟩⟩ := h
  exact ⟨result, (NewEpHandler.running.inj h).2⟩

/-- A channel is handed over that the map did not have. -/
theorem Once.handOver (h : st.Once) (hmap : st.channelMap call.uuid = false)
    (eps : List Link) : (st.handOver ep call eps).Once where
  apart := by
    show (st.handed ++ [_]).Pairwise _
    refine pairwise_append.mpr ⟨h.apart, pairwise_singleton _ _, fun c hc d hd hrefused _ heq => ?_⟩
    rw [mem_singleton.mp hd] at heq
    have hmapped := h.mapped c hc hrefused
    rw [heq, hmap] at hmapped
    exact Bool.false_ne_true hmapped
  mapped c hc hrefused := by
    show update st.channelMap call.uuid true c.uuid = true
    by_cases huuid : c.uuid = call.uuid
    · rw [huuid, update_self]
    · rw [update_of_ne huuid]
      obtain hc | hc := mem_append.mp hc
      · exact h.mapped c hc hrefused
      · rw [mem_singleton.mp hc] at huuid
        exact absurd rfl huuid
  handling ep' call' hcall := by
    obtain ⟨c, hc, hrest⟩ := h.handling ep' call' hcall
    exact ⟨c, mem_append_left _ hc, hrest⟩
  refused := h.refused

theorem Once.eraseChannel (h : st.Once)
    (hcall : st.handlers ep = .running call .handling) (result : SerCode) :
    ((st.eraseChannel ep call.uuid).setHandler ep (.running call (.created result))).Once := by
  have hep : st.refused ep = false := by
    refine Bool.eq_false_iff.mpr fun hrefused => ?_
    obtain ⟨result, hstage⟩ := stage_of_over (hcall ▸ h.refused ep hrefused)
    exact NewEpStage.noConfusion hstage
  have hold : ∀ {ep'}, update st.refused ep true ep' = false →
      ep' ≠ ep ∧ st.refused ep' = false := by
    intro ep' hrefused
    have hne : ep' ≠ ep := by
      rintro rfl
      rw [update_self] at hrefused
      exact Bool.false_ne_true hrefused.symm
    exact ⟨hne, (update_of_ne hne ..).symm.trans hrefused⟩
  obtain ⟨d, hd, hcreator, huuid⟩ := h.handling ep call hcall
  have : Std.Symm fun c d : HandedChannel => st.refused c.creator = false →
      st.refused d.creator = false → c.uuid ≠ d.uuid :=
    ⟨fun _ _ hne hc hd heq => hne hd hc heq.symm⟩
  refine ⟨h.apart.imp fun hne hc hd => hne (hold hc).2 (hold hd).2,
    fun c hc hrefused => ?_, fun ep' call' hcall' => ?_, ?_⟩
  · obtain ⟨hne, hrefused⟩ := hold hrefused
    have hapart : c.uuid ≠ d.uuid :=
      h.apart.forall hc hd (by rintro rfl; exact hne hcreator) hrefused (hcreator ▸ hep)
    rw [huuid] at hapart
    exact (update_of_ne hapart ..).trans (h.mapped c hc hrefused)
  · have hne : ep' ≠ ep := by
      rintro rfl
      have hstage := (running.inj (handlers_setHandler_self.symm.trans hcall')).2
      exact NewEpStage.noConfusion hstage
    exact h.handling ep' call' ((update_of_ne hne ..).symm.trans hcall')
  · exact (forall_update_iff st.handlers fun ep' hd =>
      update st.refused ep true ep' = true → Over hd).mpr ⟨fun _ => .inl ⟨_, _, rfl⟩,
        fun ep' hne hrefused => h.refused ep' ((update_of_ne hne ..).symm.trans hrefused)⟩

end Once

end NewChannels

end Service
