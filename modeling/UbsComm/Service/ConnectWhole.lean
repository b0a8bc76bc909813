import UbsComm.Service.ConnectInvariant

/-!
# Channels as they are handed to the user

If the links of a channel agree on how many they are, each is one of them and
the first to come is the first, and if the driver says of each link that
breaks that it is broken, then what the user is handed is a channel as its
first link announced it, with all its links in their order and none of them
broken, once for each client and number, and as soon as the last link has
joined: `sound_of_connectRun`, for handlers that go on in any order.

Nobody checks the first two. Each handler takes the number of links from what
its own link announced, and the first link may have any index below it. And
of the links that break while a channel is not complete, `AllEPBroken` keeps
a record that is looked at only for whether all are broken; whether one is
broken is read off its endpoint, which does not say so if it was not yet
established. `exists_connectRun_not_sound` has a channel with fewer links than
its first one announced, and one with a link that had broken.
-/

namespace Service

open Function Option List Bool Machine

namespace NewChannels

/-! ## The invariant -/

/-- What every orderly step keeps. -/
structure Inv (st : NewChannels) : Prop where
  joined : st.Joined
  progress : st.Progress
  once : st.Once
  whole : ∀ c ∈ st.handed, c.Whole
  broken : ∀ ep, st.broke ep = true → st.epStates ep = .broken

section Inv

variable {st : NewChannels} {ep : ℕ} {call : NewEpCall} {info : HcomConnectingEpInfo}

theorem Inv.sound (h : st.Inv) : st.Sound where
  whole := h.whole
  joined c hc := by
    obtain ⟨n, info, hinfo, huuid, heps, -⟩ := h.joined.handed c hc
    exact ⟨n, info, hinfo, huuid, heps⟩
  once := h.once.apart
  waiting := h.progress.waiting
  making n info hinfo hstate :=
    ⟨(h.joined.ok n info hinfo).complete hstate, h.progress.making n info hinfo hstate⟩

theorem inv_empty : Inv {} where
  joined := ⟨nofun, fun _ _ => rfl, nofun, nofun, nofun⟩
  progress := ⟨nofun, nofun⟩
  once := ⟨List.Pairwise.nil, nofun, nofun, nofun⟩
  whole := nofun
  broken := nofun

section

variable (h : st.Inv) (hidle : st.handlers ep = .idle) {connInfo : SerConnInfo}
include h hidle

theorem Inv.returned (result : SerCode) : (st.setHandler ep (.returned result)).Inv := { h with
    joined := h.joined.setHandler nofun
    progress := h.progress.setHandler (idle_of_handlers hidle)
    once := h.once.setHandler nofun fun hover => absurd (hidle ▸ hover) not_over_idle }

theorem Inv.addEp {n : ℕ}
    (hinfo : st.epInfos n = some info) {uuid : SerUuid} (huuid : info.uuid = uuid)
    (hcompare : info.compare connInfo = true)
    (hindex : connInfo.index < connInfo.totalLinkCount)
    (htotal : connInfo.totalLinkCount = info.connInfo.totalLinkCount) :
    ((st.setInfo n (info.addEp ep connInfo).2).setHandler ep
      (if (info.addEp ep connInfo).1 then .running ⟨uuid, n, connInfo⟩ .emplaced
        else .returned .invalidParam)).Inv := by
  have hok := h.joined.ok n info hinfo
  have hbecomes : info.Becomes (info.addEp ep connInfo).2 :=
    HcomConnectingEpInfo.Ok.addEp_becomes hcompare hindex htotal hok
  have heq : info.addEp ep connInfo = _ :=
    HcomConnectingEpInfo.Ok.addEp_eq hcompare hindex htotal hok
  have hjoined := h.joined.setInfo hinfo hbecomes
  have honce : (st.setInfo n (info.addEp ep connInfo).2).Once := { h.once with }
  by_cases hstate : info.connState = .newEp
  · have hadded : (info.addEp ep connInfo).1 = true := by
      rw [heq]
      exact decide_eq_true hstate
    rw [if_pos hadded]
    refine ⟨hjoined.setHandler ?_, h.progress.setInfo ?_ ?_ ?_, honce.emplaced hidle _,
      h.whole, h.broken⟩
    · exact NewEpHandler.knows_running setInfo_self (hbecomes.uuid.trans huuid)
        (hbecomes.connInfo ▸ htotal) nofun
    · exact fun _ _ hcall => absurd (hidle.symm.trans hcall) nofun
    · exact fun _ => .inr ⟨ep, _, .emplaced, handlers_setHandler_self, rfl, .inl rfl⟩
    · intro hnew
      rw [heq] at hnew
      exact ConnectingEpState.noConfusion (hstate.symm.trans hnew)
  · have hadded : ¬(info.addEp ep connInfo).1 = true := by
      rw [heq]
      exact mt of_decide_eq_true hstate
    rw [if_neg hadded]
    refine ⟨hjoined.setHandler nofun,
      h.progress.setInfo ?_ ?_ ?_, ?_, h.whole, h.broken⟩
    · exact fun _ _ hcall => absurd (hidle.symm.trans hcall) nofun
    · intro hnew
      rw [heq] at hnew
      exact absurd hnew hstate
    · intro hnew
      rw [heq] at hnew
      exact absurd (hok.complete hnew) (Nat.ne_of_lt
        (HcomConnectingEpInfo.length_lt hcompare hindex htotal))
    · exact honce.setHandler nofun fun _ => .inr ⟨_, rfl⟩

theorem Inv.emplaceNewEndpoint {ip : UInt32} {allocated : Bool}
    (horderly : (ConnectAction.arrive ep (some ip) (some connInfo) allocated).Orderly st) :
    (st.emplaceNewEndpoint ep ⟨ip, connInfo.channelId⟩ connInfo allocated).Inv := by
  rw [ConnectAction.Orderly] at horderly
  unfold NewChannels.emplaceNewEndpoint
  cases hentry : st.newEpMap ⟨ip, connInfo.channelId⟩ with
  | none =>
    rw [hentry] at horderly
    by_cases hcheck : serConnInfoCheck connInfo = true
    · by_cases hallocated : allocated = true
      · have hok : (HcomConnectingEpInfo.new ⟨ip, connInfo.channelId⟩ ep connInfo).Ok :=
          HcomConnectingEpInfo.ok_new hcheck (horderly hcheck hallocated) rfl
        rw [hcheck, hallocated]
        refine ⟨(h.joined.emplaceInfo hok).setHandler ?_, h.progress.emplaceInfo hidle _ _,
          ?_, h.whole, h.broken⟩
        · exact NewEpHandler.knows_running emplaceInfo_self rfl rfl nofun
        · have hold : (st.emplaceInfo ⟨ip, connInfo.channelId⟩ ep connInfo).Once := { h.once with }
          exact hold.emplaced hidle _
      · simp only [hcheck, hallocated]
        exact h.returned hidle _
    · simp only [hcheck]
      exact h.returned hidle _
  | some n =>
    obtain ⟨info, hinfo, huuid⟩ := h.joined.mapped _ n hentry
    rw [hentry, bind_some, hinfo] at horderly
    simp only [hinfo]
    by_cases hcompare : info.compare connInfo = true
    · rw [hcompare]
      by_cases hroom : info.epVector.length < channelEpMaxNum
      · obtain ⟨hindex, htotal⟩ := horderly hcompare hroom
        exact h.addEp hidle hinfo huuid hcompare hindex htotal
      · have hfull : info.addEp ep connInfo = (false, info) := if_pos (not_lt.mp hroom)
        have hsame : st.setInfo n info = st := by rw [setInfo, ← hinfo, update_eq_self]
        rw [hfull, hsame]
        exact h.returned hidle _
    · simp only [hcompare]
      exact h.returned hidle _

end

/-- The contexts of the endpoints and the handlers of broken ones are not in
the invariant. -/
theorem Inv.setCtx (h : st.Inv) (upCtx : ℕ → Ep2ChanUpCtx)
    (brokenHandlers : ℕ → BrokenHandler) : Inv { st with upCtx, brokenHandlers } :=
  ⟨{ h.joined with }, { h.progress with }, { h.once with }, h.whole, h.broken⟩

theorem Inv.setEpUpCtx (h : st.Inv) (eps : List Link) (ctx : Ep2ChanUpCtx) :
    (st.setEpUpCtx eps ctx).Inv := h.setCtx _ _

theorem Once.goOn (h : st.Once) {stage : NewEpStage} (hcall : st.handlers ep = .running call stage)
    (hstage : ∀ result, stage ≠ .created result) {handler : NewEpHandler}
    (hhandling : ∀ call, handler ≠ .running call .handling) : (st.setHandler ep handler).Once :=
  h.setHandler (fun call h => absurd h (hhandling call)) fun hover => by
    obtain ⟨result, hresult⟩ := stage_of_over (hcall ▸ hover)
    exact absurd hresult (hstage result)

theorem Inv.marked (h : st.Inv) (hcall : st.handlers ep = .running call .emplaced) :
    (st.setHandler ep (.running call .marked)).Inv := by
  obtain ⟨info, hinfo, huuid, htotal, -⟩ := h.joined.knows ep call _ hcall
  refine ⟨h.joined.setHandler (NewEpHandler.knows_running hinfo huuid htotal nofun),
    ⟨fun n info hinfo hstate => ?_, fun n info hinfo hstate => ?_⟩,
    h.once.goOn hcall nofun nofun, h.whole, h.broken⟩
  · refine (h.progress.waiting n info hinfo hstate).imp_right fun hpending => ?_
    by_cases hn : call.info = n
    · exact ⟨ep, call, .marked, handlers_setHandler_self, hn, .inr rfl⟩
    · refine hpending.setHandler fun call' stage hcall' _ => ?_
      rw [(NewEpHandler.running.inj (hcall'.symm.trans hcall)).1]
      exact hn
  · exact (h.progress.making n info hinfo hstate).goOn hcall nofun

theorem Inv.checkLast (h : st.Inv) (hcall : st.handlers ep = .running call .marked) :
    (st.checkLast ep call).Inv := by
  obtain ⟨info, hinfo, huuid, htotal, -⟩ := h.joined.knows ep call _ hcall
  have hok := h.joined.ok _ info hinfo
  have hep : ∀ call' stage, st.handlers ep = .running call' stage →
      stage.Pending ∨ stage = .last → call'.info = call.info := fun call' stage hcall' _ => by
    rw [(NewEpHandler.running.inj (hcall'.symm.trans hcall)).1]
  unfold NewChannels.checkLast
  simp only [hinfo]
  by_cases hlength : info.epVector.length < call.connInfo.totalLinkCount.toNat
  · rw [if_pos hlength]
    refine ⟨h.joined.setHandler nofun,
      ⟨fun n info' hinfo' hstate => ?_, fun n info' hinfo' hstate => ?_⟩,
      h.once.goOn hcall nofun nofun, h.whole, h.broken⟩
    · by_cases hn : call.info = n
      · obtain rfl : info = info' := some.inj (hinfo.symm.trans (hn ▸ hinfo'))
        exact .inl (htotal ▸ hlength)
      · refine (h.progress.waiting n info' hinfo' hstate).imp_right fun hpending => ?_
        refine hpending.setHandler fun call' stage hcall' hstage => ?_
        rw [hep call' stage hcall' (.inl hstage)]
        exact hn
    · exact (h.progress.making n info' hinfo' hstate).goOn hcall nofun
  · rw [if_neg hlength]
    have hbecomes := hok.cas_becomes (htotal ▸ Nat.le_of_not_lt hlength)
    have hjoined := h.joined.setInfo hinfo hbecomes
    have honce : (st.setInfo call.info (info.cas .newEp .newChannel).2).Once := { h.once with }
    have hcall' : (st.setInfo call.info (info.cas .newEp .newChannel).2).handlers ep
      = .running call .marked := hcall
    by_cases hstate : info.connState = .newEp
    · have hcas : info.cas .newEp .newChannel = (true, { info with connState := .newChannel }) :=
        if_pos hstate
      rw [hcas] at hbecomes hjoined honce hcall' ⊢
      exact ⟨hjoined.setHandler (NewEpHandler.knows_running setInfo_self huuid htotal fun _ => rfl),
        h.progress.setInfo hep nofun fun _ => .inr ⟨ep, call, handlers_setHandler_self, rfl⟩,
        honce.goOn hcall' nofun nofun, h.whole, h.broken⟩
    · have hcas : info.cas .newEp .newChannel = (false, info) := if_neg hstate
      rw [hcas] at hbecomes hjoined honce hcall' ⊢
      refine ⟨hjoined.setHandler nofun,
        h.progress.setInfo hep (fun h => absurd h hstate) fun hnew => ?_,
        honce.goOn hcall' nofun nofun, h.whole, h.broken⟩
      have hmaking : (st.setInfo call.info info).Making call.info :=
        h.progress.making _ info hinfo hnew
      exact hmaking.goOn hcall' nofun

theorem Inv.attempt (h : st.Inv) (n : ℕ) : (st.attempt n).Inv := by
  refine ⟨{ h.joined with }, ⟨h.progress.waiting, fun m info hinfo hstate => ?_⟩,
    { h.once with }, h.whole, h.broken⟩
  refine (h.progress.making m info hinfo hstate).imp_left fun hattempted => ?_
  show update st.attempted n true m = true
  rw [update_apply]
  split
  exacts [rfl, hattempted]

section Last

variable (h : st.Inv) (hcall : st.handlers ep = .running call .last)
  (hattempted : st.attempted call.info = true)

include h hcall hattempted

theorem Inv.created (result : SerCode) :
    (st.setHandler ep (.running call (.created result))).Inv := by
  obtain ⟨info, hinfo, huuid, htotal, -⟩ := h.joined.knows ep call _ hcall
  exact ⟨h.joined.setHandler (NewEpHandler.knows_running hinfo huuid htotal nofun),
    h.progress.attempted hcall hattempted, h.once.goOn hcall nofun nofun, h.whole, h.broken⟩

/-- **A channel is handed to the user.** -/
theorem Inv.handOver {info : HcomConnectingEpInfo} (hinfo : st.epInfos call.info = some info)
    (hmap : st.channelMap call.uuid = false)
    (hbroken : ∀ link ∈ info.epVector, st.epStates link.ep ≠ .broken) :
    ((st.handOver ep call info.epVector).setHandler ep (.running call .handling)).Inv := by
  obtain ⟨info', hinfo', huuid, htotal, hnew⟩ := h.joined.knows ep call _ hcall
  obtain rfl : info = info' := some.inj (hinfo.symm.trans hinfo')
  have hok := h.joined.ok _ info hinfo
  have hjoined : (st.handOver ep call info.epVector).Joined := by
    refine { h.joined with handed := forall_mem_append.mpr ⟨h.joined.handed, ?_⟩ }
    exact forall_mem_singleton.mpr ⟨_, info, hinfo, huuid, rfl, hnew rfl⟩
  have hprogress : (st.handOver ep call info.epVector).Progress := { h.progress with }
  refine ⟨hjoined.setHandler (NewEpHandler.knows_running hinfo huuid htotal nofun),
    hprogress.attempted hcall hattempted, (h.once.handOver hmap _).setHandler ?_ ?_,
    forall_mem_append.mpr ⟨h.whole, forall_mem_singleton.mpr ?_⟩, h.broken⟩
  · rintro call' hcall'
    exact ⟨_, mem_concat_self, rfl, (NewEpHandler.running.inj hcall').1 ▸ rfl⟩
  · intro hover
    obtain ⟨_, ⟨⟩⟩ := stage_of_over (hcall ▸ hover)
  · obtain ⟨first, hfirst, hsame⟩ := hok.first
    refine ⟨⟨first, hfirst, ?_⟩, fun i link hlink => ?_, fun link hlink => ?_⟩
    · rw [hsame]
      exact hok.complete (hnew rfl)
    · rw [← huuid]
      exact hok.inOrder i link hlink
    · exact eq_false_iff.mpr fun hbroke => hbroken link hlink (h.broken link.ep hbroke)

end Last

section

variable (h : st.Inv)
include h

namespace Inv

theorem openChannel (hcall : st.handlers ep = .running call .last)
    (hattempted : st.attempted call.info = true) (hinfo : st.epInfos call.info = some info)
    (hbroken : ∀ link ∈ info.epVector, st.epStates link.ep ≠ .broken) (chNewHandler : Bool) :
    (st.openChannel ep call info.epVector chNewHandler).Inv := by
  unfold NewChannels.openChannel
  split_ifs with hmap
  · exact h.created hcall hattempted _
  · exact h.handOver hcall hattempted hinfo (eq_false_iff.mpr hmap) hbroken
  · exact h.created hcall hattempted _

theorem serviceNewChannel (hcall : st.handlers ep = .running call .last)
    (initialized chNewHandler : Bool) :
    (st.serviceNewChannel ep call initialized chNewHandler).Inv := by
  obtain ⟨info, hinfo, -⟩ := h.joined.knows ep call _ hcall
  have hattempt := h.attempt call.info
  have hattempted : (st.attempt call.info).attempted call.info = true := update_self ..
  unfold NewChannels.serviceNewChannel
  simp only [hinfo]
  split_ifs with hinit hbroken
  · exact (hattempt.setEpUpCtx _ _).created hcall hattempted _
  · refine (hattempt.setEpUpCtx _ _).openChannel hcall hattempted hinfo
      (fun link hlink hstate => ?_) _
    exact hbroken (any_eq_true.mpr ⟨link, hlink, decide_eq_true hstate⟩)
  · exact hattempt.created hcall hattempted _

theorem chNewHandlerReturned (hcall : st.handlers ep = .running call .handling)
    (result : SerCode) : (st.chNewHandlerReturned ep call result).Inv := by
  obtain ⟨info, hinfo, huuid, htotal, -⟩ := h.joined.knows ep call _ hcall
  have hep := not_pending_of_handlers hcall ⟨nofun, nofun⟩
  have hknows : ∀ result, NewEpHandler.Knows st.epInfos (.running call (.created result)) :=
    fun _ => NewEpHandler.knows_running hinfo huuid htotal nofun
  unfold NewChannels.chNewHandlerReturned
  split_ifs
  · exact ⟨h.joined.setHandler (hknows _), h.progress.setHandler hep,
      h.once.setHandler nofun fun _ => .inl ⟨_, _, rfl⟩, h.whole, h.broken⟩
  · have hjoined : (st.eraseChannel ep call.uuid).Joined := { h.joined with }
    have hprogress : (st.eraseChannel ep call.uuid).Progress := { h.progress with }
    exact ⟨hjoined.setHandler (hknows _), hprogress.setHandler hep,
      h.once.eraseChannel hcall _, h.whole, h.broken⟩

theorem finish {result : SerCode} (hcall : st.handlers ep = .running call (.created result)) :
    (st.finish ep call result).Inv := by
  have hep := not_pending_of_handlers hcall ⟨nofun, nofun⟩
  have hprogress : (st.eraseInfo call.uuid).Progress := { h.progress with }
  have honce : (st.eraseInfo call.uuid).Once := { h.once with }
  exact ⟨(h.joined.eraseInfo _).setHandler nofun,
    hprogress.setHandler hep,
    honce.setHandler nofun fun _ => .inr ⟨_, rfl⟩,
    h.whole, h.broken⟩

/-! ### Endpoints -/

theorem setEpStates {broke : ℕ → Bool} {epStates : ℕ → UBSHcomNetEndPointState}
    (hbroken : ∀ ep, broke ep = true → epStates ep = .broken) : Inv { st with broke, epStates } :=
  ⟨{ h.joined with }, { h.progress with }, { h.once with }, h.whole, hbroken⟩

theorem establish (hbroke : st.broke ep = false) :
    Inv { st with epStates := update st.epStates ep .established } := by
  refine h.setEpStates fun ep' (hbroke' : st.broke ep' = true) => ?_
  have hne : ep' ≠ ep := by
    rintro rfl
    exact false_ne_true (hbroke.symm.trans hbroke')
  exact (update_of_ne hne ..).trans (h.broken ep' hbroke')

theorem linkBroken {always : Bool} (horderly : always = true ∨ st.epStates ep = .established) :
    (st.linkBroken ep always).Inv := by
  refine h.setEpStates fun ep' hbroke => ?_
  rw [if_pos horderly]
  by_cases hep : ep' = ep
  · rw [hep, update_self]
  · rw [update_of_ne hep]
    exact h.broken ep' ((update_of_ne hep ..).symm.trans hbroke)

theorem setInfo {n : ℕ} {info' : HcomConnectingEpInfo}
    (hinfo : st.epInfos n = some info) (hbecomes : info.Becomes info')
    (hstate : info'.connState = info.connState ∨ info'.connState = .epBroken)
    (hvector : info'.epVector = info.epVector) : (st.setInfo n info').Inv := by
  have hsame : ∀ {state}, info'.connState = state → state ≠ .epBroken → info.connState = state := by
    rintro _ rfl hne
    exact (hstate.resolve_right hne).symm
  refine ⟨h.joined.setInfo hinfo hbecomes,
    ⟨forall_setInfo (fun hstate => ?_) fun m infoₘ _ => h.progress.waiting m infoₘ,
      forall_setInfo (fun hstate => ?_) fun m infoₘ _ => h.progress.making m infoₘ⟩,
    { h.once with }, h.whole, h.broken⟩
  · rw [hvector, hbecomes.connInfo]
    exact h.progress.waiting n info hinfo (hsame hstate nofun)
  · exact h.progress.making n info hinfo (hsame hstate nofun)

theorem serviceEndPointBroken : (st.serviceEndPointBroken ep).Inv := by
  unfold NewChannels.serviceEndPointBroken
  cases st.upCtx ep with
  | zero | connected => exact h.setCtx _ _
  | connecting n epIdx =>
    cases hinfo : st.epInfos n with simp only [hinfo]
    | none => exact h
    | some info =>
      obtain ⟨hbecomes, hstate, hvector⟩ := (h.joined.ok n info hinfo).allEPBroken_becomes epIdx
      exact (h.setInfo hinfo hbecomes hstate hvector).setCtx _ _

theorem eraseBroken (n : ℕ) : (st.eraseBroken ep n).Inv := by
  unfold NewChannels.eraseBroken
  cases st.epInfos n with
  | none => exact h
  | some info =>
    have herased : (st.eraseInfo info.uuid).Inv :=
      ⟨h.joined.eraseInfo _, { h.progress with }, { h.once with }, h.whole, h.broken⟩
    exact herased.setCtx _ _

/-- **An orderly step keeps the invariant.** -/
theorem step {x : ConnectAction} {st' : NewChannels}
    (horderly : x.Orderly st) (hstep : connectStep st x = some st') : st'.Inv := by
  cases x with
  | arrive ep ip payload allocated =>
    obtain ⟨hidle, rfl⟩ := guard_eq_some.mp hstep
    cases payload with
    | none => exact h.returned hidle _
    | some connInfo =>
      cases ip with
      | none => exact h.returned hidle _
      | some ip => exact h.emplaceNewEndpoint hidle horderly
  | goOn ep initialized chNewHandler result =>
    unfold connectStep at hstep
    cases hhandler : st.handlers ep with simp only [hhandler] at hstep
    | idle | returned _ => cases hstep
    | running call stage =>
      cases stage with rw [← some.inj hstep]
      | emplaced => exact (h.setCtx _ st.brokenHandlers).marked hhandler
      | marked => exact h.checkLast hhandler
      | last => exact h.serviceNewChannel hhandler _ _
      | handling => exact h.chNewHandlerReturned hhandler _
      | created => exact h.finish hhandler
  | establish ep =>
    rw [← some.inj hstep]
    exact h.establish horderly
  | linkBroken ep always =>
    obtain ⟨-, hstep⟩ := ite_none_left_eq_some.mp hstep
    rw [← some.inj hstep]
    exact h.linkBroken horderly
  | brokenGoOn ep =>
    obtain ⟨-, hstep⟩ := ite_none_left_eq_some.mp hstep
    cases hhandler : st.brokenHandlers ep with (simp only [hhandler] at hstep; cases hstep)
    | idle => exact h.serviceEndPointBroken
    | erasing n => exact h.eraseBroken n

end Inv

end

end Inv

end NewChannels

/-- **New channels are sound in every orderly run**: in whatever order the
links of whatever channels come and break and their handlers go on. -/
theorem sound_of_connectRun {xs : List ConnectAction} {st : NewChannels}
    (horderly : Machine.Along connectStep (fun st x => x.Orderly st) {} xs)
    (hrun : connectRun xs = some st) : st.Sound :=
  (run_invariant_along (fun _ _ _ h => h.step) NewChannels.inv_empty horderly hrun).sound

/-- The handler of an endpoint goes on a number of times. -/
def goOnTimes (k ep : ℕ) : List ConnectAction := List.replicate k (.goOn ep true true .ok)

/-- A link of a channel comes. -/
def arriveOf (ep : ℕ) (index totalLinkCount : UInt16) : ConnectAction :=
  .arrive ep (some 1) (some { channelId := 7, index, totalLinkCount }) true

/-- Two links whose handlers are run one after the other. -/
def twoLinks : List ConnectAction :=
  arriveOf 0 0 2 :: goOnTimes 2 0 ++ arriveOf 1 1 2 :: goOnTimes 5 1

theorem sound_twoLinks : ∃ st, connectRun twoLinks = some st
      ∧ st.handed.map (fun c => c.eps.map Link.ep) = [[0, 1]] ∧ st.Sound :=
  ⟨_, rfl, by decide, @sound_of_connectRun twoLinks _ (by decide) rfl⟩

/-- A channel whose second link announces fewer links than the first. -/
def fewerLinks : List ConnectAction :=
  arriveOf 0 0 3 :: goOnTimes 2 0 ++ arriveOf 1 1 2 :: goOnTimes 3 1

/-- A channel whose second link breaks before it is established. -/
def brokenLink : List ConnectAction :=
  arriveOf 0 0 3 :: goOnTimes 2 0 ++ arriveOf 1 1 3 :: goOnTimes 2 1
    ++ [.linkBroken 1 false, .brokenGoOn 1] ++ arriveOf 2 2 3 :: goOnTimes 3 2

/-- **A channel with too few links is handed to the user, and one with a
broken link.** -/
theorem exists_connectRun_not_sound : (∃ st, connectRun fewerLinks = some st ∧ ¬st.Sound)
      ∧ ∃ st, connectRun brokenLink = some st ∧ ¬st.Sound := by
  refine ⟨⟨_, rfl, fun h => ?_⟩, ⟨_, rfl, fun h => ?_⟩⟩
  · obtain ⟨first, hfirst, hlength⟩ := (h.whole _ mem_cons_self).complete
    cases hfirst
    cases hlength
  · exact absurd ((h.whole _ mem_cons_self).unbroken
      ⟨1, { channelId := 7, index := 1, totalLinkCount := 3 }⟩ (by decide)) (by decide)

end Service
