import UbsComm.Umq.PostTx
import UbsComm.Umq.CreditConservation

/-!
# What a post promises

Two promises of `umq_ub_post_tx`. The first is to the caller
(`contract_umqUbPostTx_iff`): success is returned just when all buffers of the
chain were handed over, and otherwise the bad buffer is the first one that was
not. It is broken by three of the ways in which the loop over the buffers ends
early, where the bad buffer is not set, and for one of them not even the return
code.

The second is to the peer (`accounts_umqUbPostTx_iff`): the window gets smaller by
the requests handed over that consume a receive buffer. It is kept as long as
requests that do are not mixed with others.
-/

namespace Umq.PostTx

open List TxBuffer TxWr TxOutcome Nat Bool UInt16

/-! ## The requests of a chain -/

section Build

variable {queue : TxQueue} {bs bs' : List TxBuffer} {b : TxBuffer} {wrs : List TxWr}
  {restSize sgeNum left n : ℕ} {fault : TxFault}

/-- The inner loop takes buffers from the beginning of the chain. -/
theorem addSges_ok (h : addSges queue restSize sgeNum bs = .ok (n, bs')) :
    ∃ l, bs = l ++ bs' ∧ (l.map dataSize).sum + n = restSize := by
  induction bs generalizing restSize sgeNum with
  | nil =>
    cases h
    exact ⟨[], rfl, zero_add _⟩
  | cons b bs ih =>
    rw [addSges] at h
    split at h
    case isTrue hzero =>
      cases h
      exact ⟨[], rfl, hzero.symm⟩
    -- all other ways out of the loop are faults
    repeat' split at h
    all_goals first | cases h | skip
    case isFalse hle =>
      obtain ⟨l, rfl, hsum⟩ := ih h
      refine ⟨b :: l, rfl, ?_⟩
      rw [map_cons, sum_cons, add_assoc, hsum, add_sub_of_le (not_lt.mp hle)]

/-- **The requests of a chain are made of its buffers**, each of one at least,
which is its context. -/
structure Built (bs : List TxBuffer) (wrs : List TxWr) : Prop where
  bufs_eq : wrs.flatMap TxWr.bufs = bs.map TxBuffer.addr
  starts : ∀ wr ∈ wrs, ∃ l, wr.bufs = wr.userCtx :: l

theorem buildWrs_succ_ok (h : buildWrs queue (left + 1) (b :: bs) = .ok wrs) :
    ∃ bs' wrs', addSges queue b.totalDataSize 0 (b :: bs) = .ok (0, bs') ∧
      buildWrs queue left bs' = .ok wrs' ∧
      wrs = ⟨b.addr, b.opcode,
        ((b :: bs).take ((b :: bs).length - bs'.length)).map addr⟩ :: wrs' := by
  rw [buildWrs] at h
  repeat' split at h
  all_goals cases h
  rename_i bs' hadd hn _ _ wrs' hwrs
  rw [Decidable.not_not.mp hn] at hadd
  exact ⟨bs', wrs', hadd, hwrs, rfl⟩

/-- A request without size is made again and again. -/
theorem buildWrs_of_zero (hzero : b.totalDataSize = 0) :
    buildWrs queue left (b :: bs) ≠ .ok wrs := by
  induction left generalizing wrs with
  | zero => nofun
  | succ left ih =>
    intro h
    obtain ⟨bs', wrs', hadd, hwrs, -⟩ := buildWrs_succ_ok h
    rw [hzero, addSges] at hadd
    obtain ⟨-, rfl⟩ := Prod.mk.inj (Except.ok.inj hadd)
    exact ih hwrs

/-- **One more request** is made of buffers at the beginning of the chain, one at
least, that add up to its size. -/
theorem buildWrs_succ (h : buildWrs queue (left + 1) (b :: bs) = .ok wrs) :
    ∃ l bs' wrs', bs = l ++ bs' ∧ buildWrs queue left bs' = .ok wrs' ∧
      ((b :: l).map dataSize).sum = b.totalDataSize ∧
      wrs = ⟨b.addr, b.opcode, (b :: l).map addr⟩ :: wrs' := by
  obtain ⟨bs', wrs', hadd, hwrs, rfl⟩ := buildWrs_succ_ok h
  obtain ⟨l, hl, hsum⟩ := addSges_ok hadd
  cases l with
  | nil => exact absurd h (buildWrs_of_zero hsum.symm)
  | cons x l =>
    rw [cons_append] at hl
    obtain ⟨rfl, rfl⟩ := cons_eq_cons.mp hl
    refine ⟨l, bs', wrs', rfl, hwrs, hsum, ?_⟩
    rw [← cons_append, length_append, Nat.add_sub_cancel, take_left]

theorem buildWrs_ok (h : buildWrs queue left bs = .ok wrs) : Built bs wrs ∧ wrs.length ≤ left := by
  induction left generalizing bs wrs with
  | zero =>
    cases bs with
    | nil =>
      cases h
      exact ⟨⟨rfl, nofun⟩, le_refl 0⟩
    | cons b bs => cases h
  | succ left ih =>
    cases bs with
    | nil =>
      cases h
      exact ⟨⟨rfl, nofun⟩, zero_le _⟩
    | cons b bs =>
      obtain ⟨l, bs', wrs', rfl, hwrs, -, rfl⟩ := buildWrs_succ h
      obtain ⟨hbuilt, hlen⟩ := ih hwrs
      refine ⟨⟨?_, forall_mem_cons.mpr ⟨⟨l.map addr, rfl⟩, hbuilt.starts⟩⟩, succ_le_succ hlen⟩
      rw [flatMap_cons, hbuilt.bufs_eq, ← cons_append, map_append]

theorem addSges_error (h : addSges queue restSize sgeNum bs = .error fault) :
    fault = .notPooled ∨ fault.ret ≠ .success := by
  induction bs generalizing restSize sgeNum with
  | nil => cases h
  | cons b bs ih =>
    rw [addSges] at h
    repeat' split at h
    all_goals first | exact ih h | cases h
    all_goals first | exact .inl rfl | exact .inr (by decide)

/-- Every fault but one has a return code of its own. -/
theorem buildWrs_error (h : buildWrs queue left bs = .error fault) :
    fault = .notPooled ∨ fault.ret ≠ .success := by
  induction left generalizing bs with
  | zero =>
    cases bs with
    | nil => cases h
    | cons b bs =>
      cases h
      exact .inr (by decide)
  | succ left ih =>
    cases bs with
    | nil => cases h
    | cons b bs =>
      rw [buildWrs] at h
      repeat' split at h
      all_goals cases h
      · exact .inr (by decide)
      · rename_i hadd
        exact addSges_error hadd
      · exact .inr (by decide)
      · rename_i hfill
        exact .inr hfill
      · rename_i hrest
        exact ih hrest

end Build

/-! ## The bad request -/

section Requests

variable {bs : List TxBuffer} {wrs : List TxWr} {wr : TxWr} {k : ℕ}

/-- The buffers before a request, and its first one. -/
theorem Built.split (h : Built bs wrs) (hk : wrs[k]? = some wr) :
    ∃ rest, bs.map addr = (wrs.take k).flatMap bufs ++ wr.userCtx :: rest := by
  obtain ⟨l, hl⟩ := h.starts wr (mem_of_getElem? hk)
  have hdrop : wrs.drop k = wr :: wrs.drop (k + 1) := by
    obtain ⟨hlt, rfl⟩ := List.getElem?_eq_some_iff.mp hk
    exact drop_eq_getElem_cons hlt
  refine ⟨l ++ (wrs.drop (k + 1)).flatMap bufs, ?_⟩
  rw [← h.bufs_eq]
  conv_lhs => rw [← take_append_drop k wrs, flatMap_append, hdrop, flatMap_cons, hl]
  rfl

/-- The contexts are different, being buffers of the chain. -/
theorem Built.nodup_userCtx (h : Built bs wrs) (hnodup : (bs.map addr).Nodup) :
    (wrs.map userCtx).Nodup := by
  rw [← h.bufs_eq] at hnodup
  have hsub : (wrs.map userCtx).Sublist (wrs.flatMap bufs) := by
    have hstarts := h.starts
    clear h hnodup
    induction wrs with
    | nil => exact List.Sublist.refl _
    | cons wr wrs ih =>
      obtain ⟨l, hl⟩ := hstarts wr mem_cons_self
      rw [ flatMap_cons, hl]
      have hrest := ih fun wr' hwr' => hstarts wr' (mem_cons_of_mem wr hwr')
      exact (hrest.trans (sublist_append_right l _)).cons_cons wr.userCtx
  exact hsub.nodup hnodup

/-- The requests from the bad one on have failed. -/
theorem umqUbTxFailedNum_eq (hnodup : (wrs.map userCtx).Nodup) (hk : wrs[k]? = some wr) :
    umqUbTxFailedNum wrs wr.userCtx = wrs.length - k := by
  induction wrs generalizing k with
  | nil => cases hk
  | cons x wrs ih =>
    rw [map_cons, nodup_cons] at hnodup
    rw [umqUbTxFailedNum]
    cases k with
    | zero =>
      cases hk
      rw [if_pos rfl, length_cons, Nat.sub_zero]
    | succ k =>
      have hne : x.userCtx ≠ wr.userCtx := fun heq =>
        hnodup.1 (heq ▸ mem_map_of_mem (mem_of_getElem? hk))
      rw [if_neg hne, ih hnodup.2 hk, length_cons, Nat.add_sub_add_right]

end Requests

/-! ## What the caller is told -/

/-- **The result of a post**: success when all buffers were handed over, and only
then; otherwise the bad buffer is the first one that was not. -/
structure Contract {κ : Type} (chain : TxChain) (r : PostTxResult κ) : Prop where
  success_iff : r.ret = .success ↔ r.handed.flatMap TxWr.bufs = chain.bufs.map TxBuffer.addr
  bad : r.ret ≠ .success → r.badQbuf ≠ 0 ∧
    ∃ rest, chain.bufs.map TxBuffer.addr = r.handed.flatMap TxWr.bufs ++ r.badQbuf :: rest

section Contract

variable {κ : Type} {queue : TxQueue} {s : SharedRq κ} {q : κ}
  {chain : TxChain} {wrs : List TxWr}
  {wr : TxWr} {r : PostTxResult κ} {k : ℕ}

theorem Contract.ofBad (hret : r.ret ≠ .success) (hbad : ∃ rest, chain.bufs.map addr =
      r.handed.flatMap bufs ++ r.badQbuf :: rest) : Contract chain r := by
  obtain ⟨rest, hrest⟩ := hbad
  refine ⟨⟨fun h => absurd h hret, fun h => ?_⟩, fun _ => ⟨?_, rest, hrest⟩⟩
  · rw [h] at hrest
    exact absurd (self_eq_append_right.mp hrest) (cons_ne_nil _ _)
  · have hmem : r.badQbuf ∈ chain.bufs.map addr := by
      rw [hrest]
      exact mem_append_right _ mem_cons_self
    obtain ⟨b, hb, haddr⟩ := mem_map.mp hmem
    exact haddr ▸ chain.ne_zero b hb

theorem Contract.ofNone (hret : r.ret ≠ .success) (hhanded : r.handed = [])
    (hbad : r.badQbuf = chain.first.addr) : Contract chain r := by
  refine .ofBad hret ⟨chain.rest.map addr, ?_⟩
  rw [hhanded, hbad]
  rfl

/-- The requests before one of them were handed over. -/
theorem Contract.ofTake (hbuilt : Built chain.bufs wrs) (hret : r.ret ≠ .success)
    (hk : wrs[k]? = some wr) (hhanded : r.handed = wrs.take k)
    (hbad : r.badQbuf = wr.userCtx) : Contract chain r := by
  refine .ofBad hret ?_
  rw [hhanded, hbad]
  exact hbuilt.split hk

theorem TxRet.ofUmqRet_ne {ret : UmqRet} (h : ret ≠ .success) : TxRet.ofUmqRet ret ≠ .success := by
  cases ret with
  | success => exact absurd rfl h
  | fail | einval | eflowctl => decide

theorem umqStatusConvert_ne {status : UrmaStatus} (h : status ≠ .success) :
    umqStatusConvert status ≠ .success := by
  cases status with
  | success => exact absurd rfl h
  | fail | eagain | enomem | enoperm | etimeout | einval | eexist | einprogress | other => decide

variable [DecidableEq κ]

theorem requestMore_ne (T : FcTables) (att : SendAttempt) :
    (requestMore T queue s q att).2 ≠ .success := by
  rw [requestMore]
  dsimp only
  split_ifs with h
  · exact TxRet.ofUmqRet_ne h
  · decide

theorem umqUbWindowDec_le (n : UInt16) : (umqUbWindowDec plainTables s q n).2.toNat ≤ n.toNat := by
  rw [umqUbWindowDec]
  split_ifs
  · exact le_rfl
  · exact (remoteRxWindowDecNonAtomic_spec (s.sub q).fc n false).1.trans_le (min_le_left _ _)

theorem toNat_length (hlen : wrs.length ≤ umqBatchSize) :
    (UInt16.ofNat wrs.length).toNat = wrs.length :=
  mod_eq_of_lt (hlen.trans_lt (by decide))

/-- The transport takes the requests before the bad one. -/
theorem TxOutcome.bad_cases (outcome : TxOutcome) (posted : List TxWr)
    (h : outcome.status ≠ .success) :
    (outcome.bad posted = none ∧ outcome.accepted posted = []) ∨
      ∃ k wr, posted[k]? = some wr ∧ outcome.bad posted = some wr ∧
        outcome.accepted posted = posted.take k := by
  rw [bad, accepted, if_neg h]
  cases outcome.badWr with
  | none => exact .inl ⟨rfl, rfl⟩
  | some k =>
    by_cases hk : k < posted.length
    · exact .inr ⟨k, posted[k], getElem?_eq_getElem hk, getElem?_eq_getElem hk, if_pos hk⟩
    · exact .inl ⟨getElem?_eq_none (not_lt.mp hk), if_neg hk⟩

theorem contract_postWrs (s : SharedRq κ) (q : κ) (att : SendAttempt) (outcome : TxOutcome)
    (hbuilt : Built chain.bufs wrs) (hlen : wrs.length ≤ umqBatchSize) :
    Contract chain (postWrs plainTables queue s q att outcome chain.first.addr wrs) := by
  have hidx := toNat_length hlen
  rw [postWrs]
  have hle : (if lastConsumesRqe wrs then umqUbWindowDec plainTables s q (ofNat wrs.length)
      else (s, ofNat wrs.length)).2.toNat ≤ wrs.length := by
    split_ifs
    · exact (umqUbWindowDec_le _).trans hidx.le
    · exact hidx.le
  generalize (if lastConsumesRqe wrs then umqUbWindowDec plainTables s q (ofNat wrs.length)
    else (s, ofNat wrs.length)) = dec at hle ⊢
  dsimp only
  split
  · exact .ofNone (requestMore_ne plainTables att) rfl rfl
  split
  case isTrue hfail =>
    obtain ⟨hbad, hacc⟩ | ⟨k, wr, hk, hbad, hacc⟩ := outcome.bad_cases (wrs.take dec.2.toNat) hfail
    · rw [hbad]
      exact .ofNone (umqStatusConvert_ne hfail) hacc rfl
    · rw [hbad]
      have hlt : k < dec.2.toNat := by
        have hlt := (List.getElem?_eq_some_iff.mp hk).1
        rw [length_take] at hlt
        exact hlt.trans_le (min_le_left _ _)
      rw [getElem?_take_of_lt hlt] at hk
      refine .ofTake hbuilt (umqStatusConvert_ne hfail) hk (hacc.trans ?_) rfl
      rw [take_take, min_eq_left hlt.le]
  split
  case isTrue hlt =>
    exact .ofTake hbuilt (requestMore_ne plainTables att) (getElem?_eq_getElem hlt) rfl rfl
  case isFalse hge =>
    have htake : wrs.take dec.2.toNat = wrs := take_of_length_le (not_lt.mp hge)
    refine ⟨⟨fun _ => ?_, fun _ => rfl⟩, fun h => absurd rfl h⟩
    rw [htake]
    exact hbuilt.bufs_eq

end Contract

/-- The loop over the buffers ends early and does not say which buffer is bad. -/
def EndsUnmarked (queue : TxQueue) (bs : List TxBuffer) : Prop :=
  ∃ fault, buildWrs queue umqBatchSize bs = .error fault ∧ fault.setsBad = false

/-- **The caller is told what has become of the buffers** if and only if the loop
does not end early without saying which buffer is bad. -/
theorem contract_umqUbPostTx_iff {κ : Type} [DecidableEq κ] (useAtomicWindow : Bool)
    (spurious : ℕ → ℕ) (queue : TxQueue) (s : SharedRq κ) (q : κ) (att att' : SendAttempt)
    (outcome : TxOutcome) (chain : TxChain) :
    Contract chain (umqUbPostTx (fcTables useAtomicWindow spurious) queue s q att att' outcome
        chain) ↔
      ¬ (queue.bound = true ∧
        (umqUbCreditCheckAndRequestSend (fcTables useAtomicWindow spurious) queue s q att).2
          = .success ∧
        EndsUnmarked queue chain.bufs) := by
  rw [fcTables_eq, umqUbPostTx]
  dsimp only
  split_ifs with hbound hcheck
  · refine iff_of_true (.ofNone nofun rfl rfl) fun h => ?_
    rw [hbound] at h
    exact false_ne_true h.1
  · exact iff_of_true (.ofNone (TxRet.ofUmqRet_ne hcheck) rfl rfl) fun h => hcheck h.2.1
  · cases hbuild : buildWrs queue umqBatchSize chain.bufs with
    | ok wrs =>
      obtain ⟨hbuilt, hlen⟩ := buildWrs_ok hbuild
      refine iff_of_true { contract_postWrs _ q att' outcome hbuilt hlen with } ?_
      rintro ⟨-, -, fault, hfault, -⟩
      cases hbuild.symm.trans hfault
    | error fault =>
      dsimp only
      cases hset : fault.setsBad with
      | true =>
        refine iff_of_true (.ofNone ?_ rfl ?_) fun ⟨_, _, fault', hfault, hunset⟩ => ?_
        · obtain rfl | hne := buildWrs_error hbuild
          · cases hset
          · exact hne
        · rfl
        · obtain rfl := Except.error.inj (hbuild.symm.trans hfault)
          exact false_ne_true (hunset.symm.trans hset)
      | false =>
        refine iff_of_false (fun h => ?_) fun h => h ⟨?_, ?_, fault, hbuild, hset⟩
        · by_cases hret : fault.ret = .success
          · cases h.success_iff.mp hret
          · exact (h.bad hret).1 rfl
        · exact eq_true_of_not_eq_false hbound
        · exact Decidable.not_not.mp hcheck

/-- A queue with one segment, and nothing imported but one segment of the peer. -/
def oneSegment : TxQueue where
  maxTxSge := 4
  txBufSize := 64
  remoteRxBufSize := 64
  tseg := fun mempoolId => mempoolId == 0
  enableImportRemoteMem := true
  importedTseg := fun mempoolId => mempoolId == 0

/-- Five credits in the window. -/
def fiveCredits : SharedRq Unit where
  pool := { capacity := 0 }
  sub := fun _ => { fc := { remoteRxWindow := 5, enabled := true } }
  granted := fun _ => 0

/-- A message, and another whose buffer is not from a pool. -/
def sendNotPooled : TxChain where
  first := { addr := 1, opcode := .send, totalDataSize := 8, dataSize := 8 }
  rest := [{ addr := 2, opcode := .send, totalDataSize := 8, dataSize := 8, mempoolId := 1023 }]
  nodup := by decide
  ne_zero := by decide

/-- **Success, with nothing sent**: the request made of the first buffer is never
given to the transport. -/
theorem exists_broken_contract :
    ¬ Contract sendNotPooled (umqUbPostTx (fcTables false fun _ => 0) oneSegment fiveCredits ()
      {} {} {} sendNotPooled) := by
  intro h
  exact absurd (h.success_iff.mp (by decide +kernel)) (by decide +kernel)

/-! ## The window -/

/-- The requests that consume a receive buffer of the peer. -/
def consumed (wrs : List TxWr) : ℕ := wrs.countP fun wr => wr.opcode.consumesRqe

variable {wrs : List TxWr}

/-- **The window pays for what was handed over**, when flow control is on: it gets
smaller by one for each request that consumes a receive buffer, and no more of them
are given to the transport than were taken from the window. -/
structure Accounts {κ : Type} (s : SharedRq κ) (q : κ) (r : PostTxResult κ) : Prop where
  window : (s.sub q).fc.enabled = true →
    (r.state.window q : Int) + consumed r.handed = s.window q + r.restored
  granted : (s.sub q).fc.enabled = true → consumed r.posted ≤ r.taken

/-- What a post does to the window: the last request decides for all of them. -/
structure Charged {κ : Type} (s : SharedRq κ) (q : κ) (outcome : TxOutcome) (wrs : List TxWr)
    (r : PostTxResult κ) : Prop where
  posted : r.posted = wrs.take (if lastConsumesRqe wrs then s.window q else wrs.length)
  handed : r.handed = outcome.accepted r.posted
  window : (r.state.window q : Int) + (if lastConsumesRqe wrs then r.handed.length else 0 : ℕ) =
    s.window q + r.restored
  taken : r.taken = if lastConsumesRqe wrs then r.posted.length else 0

section Window

variable {κ : Type} [DecidableEq κ] {queue : TxQueue} {s t : SharedRq κ} {q : κ}
  {att : SendAttempt} {outcome : TxOutcome} {chain : TxChain} {wrs : List TxWr}
  {r : PostTxResult κ}

/-- A request for credits that goes well finds no return that has failed. -/
theorem umqUbSharedCreditReqSend_keep
    (h : (umqUbSharedCreditReqSend plainTables s q att).2.1 = .success) :
    s.Window (umqUbSharedCreditReqSend plainTables s q att).1 q (s.window q) := by
  rw [umqUbSharedCreditReqSend] at h ⊢
  dsimp only at h ⊢
  have hacq : s.Window (umqUbPermissionAcquire s q) q _ := s.setFc_window q _ rfl
  split_ifs at h ⊢ with hoff hret happlying hok
  · exact .refl s q
  · exact absurd h hret
  all_goals rw [(umqUbPollFcTx_success plainTables s q att (Decidable.not_not.mp hret)).1]
  · exact .refl s q
  all_goals exact hacq

theorem umqUbCreditCheckAndRequestSend_keep
    (h : (umqUbCreditCheckAndRequestSend plainTables queue s q att).2 = .success) :
    s.Window (umqUbCreditCheckAndRequestSend plainTables queue s q att).1 q (s.window q) := by
  rw [umqUbCreditCheckAndRequestSend] at h ⊢
  split_ifs at h ⊢
  · exact .refl s q
  · exact umqUbSharedCreditReqSend_keep h
  · exact .refl s q

theorem umqUbWindowDec_eq (n : UInt16) (hen : (s.sub q).fc.enabled = true) :
    (umqUbWindowDec plainTables s q n).2.toNat = min n.toNat (s.window q) := by
  rw [umqUbWindowDec]
  split_ifs with hz
  · obtain rfl | hoff := hz
    · exact (zero_min _).symm
    · cases hoff.symm.trans hen
  · exact (remoteRxWindowDecNonAtomic_spec (s.sub q).fc n false).1

/-- The failed requests are those that were not taken. -/
theorem umqUbTxFailedNum_bad {posted : List TxWr} {qbuf : ℕ} (hnodup : (posted.map userCtx).Nodup)
    (hfirst : ∀ wr, posted[0]? = some wr → wr.userCtx = qbuf) (hfail : outcome.status ≠ .success) :
    umqUbTxFailedNum posted (((outcome.bad posted).map userCtx).getD qbuf) =
      posted.length - (outcome.accepted posted).length := by
  obtain ⟨hbad, hacc⟩ | ⟨k, wr, hk, hbad, hacc⟩ := outcome.bad_cases posted hfail
  · rw [hbad, hacc]
    cases posted with
    | nil => rfl
    | cons wr posted =>
      have hqbuf : wr.userCtx = qbuf := hfirst wr rfl
      exact hqbuf ▸ umqUbTxFailedNum_eq hnodup rfl
  · have hlt := (List.getElem?_eq_some_iff.mp hk).1
    rw [hbad, hacc, length_take, min_eq_left hlt.le]
    exact umqUbTxFailedNum_eq hnodup hk

theorem Built.first (h : Built chain.bufs wrs) {wr : TxWr} (hwr : wrs[0]? = some wr) :
    wr.userCtx = chain.first.addr := by
  obtain ⟨rest, hrest⟩ := h.split hwr
  exact (cons_eq_cons.mp hrest).1.symm

/-- The window before the requests are posted, and how many of them are. -/
theorem dec_postWrs (hen : (s.sub q).fc.enabled = true) (hlen : wrs.length ≤ umqBatchSize)
    {dec : SharedRq κ × UInt16}
    (hdec : dec = if lastConsumesRqe wrs then
      umqUbWindowDec plainTables s q (ofNat wrs.length)
      else (s, ofNat wrs.length)) :
    (dec.1.sub q).fc.enabled = true ∧
      wrs.take dec.2.toNat = wrs.take (if lastConsumesRqe wrs then s.window q else wrs.length) ∧
      dec.2.toNat ≤ wrs.length ∧
      s.window q = dec.1.window q + if lastConsumesRqe wrs then dec.2.toNat else 0 := by
  have hidx := toNat_length hlen
  cases hlast : lastConsumesRqe wrs with
  | false =>
    rw [hlast] at hdec
    rw [hdec, if_neg Bool.false_ne_true, hidx]
    exact ⟨hen, rfl, le_rfl, rfl⟩
  | true =>
    rw [hlast, if_pos rfl] at hdec
    obtain ⟨m, hm, hle, hwin⟩ := umqUbWindowDec_window s q hen (ofNat wrs.length)
    have hmin := umqUbWindowDec_eq (ofNat wrs.length) hen
    rw [← hdec] at hm hwin hmin
    rw [hidx] at hmin
    rw [if_pos rfl, hwin.window, ← hm]
    refine ⟨hwin.enabled.trans hen, ?_, hmin ▸ min_le_left _ _,
      (Nat.sub_add_cancel (hm ▸ hle)).symm⟩
    rw [hmin, min_comm, ← take_take, take_length]

theorem accepted_sublist (outcome : TxOutcome) (posted : List TxWr) :
    (outcome.accepted posted).Sublist posted := by
  rw [accepted]
  repeat' split
  · exact List.Sublist.refl _
  · exact nil_sublist _
  · exact take_sublist _ _
  · exact nil_sublist _

/-- What fails goes back. -/
theorem umqUbWindowInc_back {n : ℕ} (hen : (t.sub q).fc.enabled = true)
    (hroom : t.window q + n ≤ s.window q) :
    (umqUbWindowInc plainTables t q (ofNat n)).window q = t.window q + n := by
  have hcap : s.window q < 2 ^ 16 := (s.sub q).fc.remoteRxWindow.toNat_lt
  have hn : (UInt16.ofNat n).toNat = n := mod_eq_of_lt (by omega)
  have hinc := umqUbWindowInc_window t q hen (ofNat n)
    (by rw [hn]; exact le_of_lt_succ (hroom.trans_lt hcap))
  rw [hinc.window, hn]

theorem charged_postWrs (hen : (s.sub q).fc.enabled = true) (hbuilt : Built chain.bufs wrs)
    (hlen : wrs.length ≤ umqBatchSize) :
    Charged s q outcome wrs (postWrs plainTables queue s q att outcome chain.first.addr wrs) := by
  rw [postWrs]
  generalize hdec : (if lastConsumesRqe wrs then
    umqUbWindowDec plainTables s q (ofNat wrs.length)
    else (s, ofNat wrs.length)) = dec
  obtain ⟨hen', htake, hle, hwin⟩ := dec_postWrs hen hlen hdec.symm
  have hposted : (wrs.take dec.2.toNat).length = dec.2.toNat := by rw [length_take, min_eq_left hle]
  have htaken : s.window q - dec.1.window q =
      if lastConsumesRqe wrs then (wrs.take dec.2.toNat).length else 0 := by
    rw [hwin, Nat.add_sub_cancel_left, hposted]
  rw [← hposted] at hwin
  -- a request for more credits changes the window by what it gives back
  have hmore : ((requestMore plainTables queue dec.1 q att).1.window q : Int) +
      (if lastConsumesRqe wrs then (wrs.take dec.2.toNat).length else 0 : ℕ) =
      s.window q + gain dec.1 (requestMore plainTables queue dec.1 q att).1 q := by
    rw [gain, hwin]
    push_cast
    ring
  dsimp only
  split
  case isTrue hzero =>
    rw [hzero] at htake hmore htaken
    exact ⟨htake, (sublist_nil.mp (accepted_sublist outcome [])).symm, hmore, htaken⟩
  split
  case isTrue hfail =>
    refine ⟨htake, rfl, ?_, htaken⟩
    have hnum : umqUbTxFailedNum (wrs.take dec.2.toNat)
        (((outcome.bad (wrs.take dec.2.toNat)).map userCtx).getD chain.first.addr) =
        (wrs.take dec.2.toNat).length - (outcome.accepted (wrs.take dec.2.toNat)).length := by
      refine umqUbTxFailedNum_bad ?_ (fun wr hwr => hbuilt.first ?_) hfail
      · rw [map_take]
        exact (hbuilt.nodup_userCtx chain.nodup).take
      · rw [getElem?_take] at hwr
        split_ifs at hwr
        exact hwr
    have hacc := (accepted_sublist outcome (wrs.take dec.2.toNat)).length_le
    rw [hnum]
    generalize wrs.take dec.2.toNat = posted at hwin hacc ⊢
    show ((if lastConsumesRqe wrs then _ else _ : SharedRq κ).window q : Int) +
      (if lastConsumesRqe wrs then (outcome.accepted posted).length else 0 : ℕ) = s.window q + 0
    split at hwin
    case isTrue hlast =>
      rw [if_pos hlast, if_pos hlast, umqUbWindowInc_back hen' (s := s) (by omega)]
      omega
    case isFalse hlast => rw [if_neg hlast, if_neg hlast, hwin, Int.add_zero, cast_add]
  split
  case isTrue hok hlt =>
    refine ⟨htake, ?_, hmore, htaken⟩
    rw [accepted, if_pos (Decidable.not_not.mp hok)]
  case isFalse hok hge =>
    refine ⟨htake, ?_, ?_, htaken⟩
    · rw [accepted, if_pos (Decidable.not_not.mp hok)]
    · show (dec.1.window q : Int) + _ = s.window q + 0
      rw [hwin, Int.add_zero, cast_add]

omit [DecidableEq κ] in
/-- The same from a state before, when the window was what it is now. -/
theorem Charged.before (h : Charged t q outcome wrs r) (hkeep : s.Window t q (s.window q)) :
    Charged s q outcome wrs { r with restored := gain s t q + r.restored } := by
  obtain ⟨hposted, hhanded, hwindow, htaken⟩ := h
  rw [hkeep.window] at hposted hwindow
  refine ⟨hposted, hhanded, ?_, htaken⟩
  rw [gain, hkeep.window, sub_self, Int.zero_add]
  exact hwindow

end Window

/-- **Requests that consume a receive buffer are mixed with others**: if the last of
them does, one was handed over that does not, and if it does not, one of them does. -/
def Mixed (window : ℕ) (outcome : TxOutcome) (wrs : List TxWr) : Prop :=
  if lastConsumesRqe wrs then
    ∃ wr ∈ outcome.accepted (wrs.take window), wr.opcode.consumesRqe = false
  else ∃ wr ∈ wrs, wr.opcode.consumesRqe = true

theorem Charged.accounts_iff {κ : Type} {s : SharedRq κ} {q : κ} {outcome : TxOutcome}
    {r : PostTxResult κ} (hen : (s.sub q).fc.enabled = true) (h : Charged s q outcome wrs r) :
    Accounts s q r ↔ ¬ Mixed (s.window q) outcome wrs := by
  have hposted := h.posted
  have hwindow := h.window
  have htaken := h.taken
  rw [Mixed]
  split
  case isTrue hlast =>
    rw [if_pos hlast] at hposted hwindow htaken
    have hle : consumed r.posted ≤ r.taken := htaken ▸ countP_le_length
    have hiff : Accounts s q r ↔ consumed r.handed = r.handed.length :=
      ⟨fun hacc => by have := hacc.window hen; omega, fun hall => ⟨fun _ => by omega, fun _ => hle⟩⟩
    rw [hiff, consumed, countP_eq_length, ← hposted, ← h.handed]
    simp
  case isFalse hlast =>
    rw [if_neg hlast] at hposted hwindow htaken
    have hsub : consumed r.handed ≤ consumed r.posted := by
      rw [h.handed]
      exact (accepted_sublist outcome r.posted).countP_le
    have hiff : Accounts s q r ↔ consumed r.posted = 0 :=
      ⟨fun hacc => by have := hacc.granted hen; omega,
        fun hnone => ⟨fun _ => by omega, fun _ => by omega⟩⟩
    rw [hiff, consumed, countP_eq_zero, hposted]
    simp

/-- **The window pays for what was handed over** if and only if requests that consume
a receive buffer are not mixed with others. -/
theorem accounts_umqUbPostTx_iff {κ : Type} [DecidableEq κ] (useAtomicWindow : Bool)
    (spurious : ℕ → ℕ) (queue : TxQueue) (s : SharedRq κ) (q : κ) (att att' : SendAttempt)
    (outcome : TxOutcome) (chain : TxChain) :
    Accounts s q (umqUbPostTx (fcTables useAtomicWindow spurious) queue s q att att' outcome
        chain) ↔
      ¬ ((s.sub q).fc.enabled = true ∧ queue.bound = true ∧
        (umqUbCreditCheckAndRequestSend (fcTables useAtomicWindow spurious) queue s q att).2
          = .success ∧
        ∃ wrs, buildWrs queue umqBatchSize chain.bufs = .ok wrs ∧
          Mixed (s.window q) outcome wrs) := by
  rw [fcTables_eq]
  by_cases hen : (s.sub q).fc.enabled = true
  case neg => exact iff_of_true ⟨fun h => absurd h hen, fun h => absurd h hen⟩ fun h => hen h.1
  -- without a request only the one for credits can change the window
  have hnone : ∀ r : PostTxResult κ, r.posted = [] → r.handed = [] →
      r.restored = gain s r.state q → Accounts s q r := by
    intro r hposted hhanded hrestored
    refine ⟨fun _ => ?_, fun _ => ?_⟩
    · rw [hhanded, hrestored, gain]
      show _ + 0 = _
      ring
    · rw [hposted]
      exact zero_le _
  rw [umqUbPostTx]
  dsimp only
  split_ifs with hbound hcheck
  · refine iff_of_true (hnone _ rfl rfl (sub_self _).symm) fun h => ?_
    rw [hbound] at h
    exact false_ne_true h.2.1
  · exact iff_of_true (hnone _ rfl rfl rfl) fun h => hcheck h.2.2.1
  · have hbound := eq_true_of_not_eq_false hbound
    have hcheck := Decidable.not_not.mp hcheck
    have hkeep := umqUbCreditCheckAndRequestSend_keep hcheck
    cases hbuild : buildWrs queue umqBatchSize chain.bufs with
    | error fault =>
      refine iff_of_true (hnone _ rfl rfl rfl) fun ⟨_, _, _, wrs, hwrs, _⟩ => ?_
      cases hwrs
    | ok wrs =>
      obtain ⟨hbuilt, hlen⟩ := buildWrs_ok hbuild
      refine (((charged_postWrs (hkeep.enabled.trans hen) hbuilt hlen).before hkeep).accounts_iff
        hen).trans (not_congr ⟨fun h => ?_, ?_⟩)
      · exact ⟨hen, hbound, hcheck, wrs, rfl, h⟩
      · rintro ⟨-, -, -, wrs', hwrs, h⟩
        cases hwrs
        exact h

/-- A message, and a write after it. -/
def sendThenWrite : TxChain where
  first := { addr := 1, opcode := .send, totalDataSize := 8, dataSize := 8 }
  rest := [{ addr := 2, opcode := .write, totalDataSize := 8, dataSize := 8, remoteLength := 8 }]
  nodup := by decide
  ne_zero := by decide

/-- **A message that is not paid for**: the write after it decides that the window is
left alone. -/
theorem exists_unpaid :
    ¬ Accounts fiveCredits () (umqUbPostTx (fcTables false fun _ => 0) oneSegment fiveCredits ()
      {} {} {} sendThenWrite) := by
  intro h
  exact absurd (h.granted rfl) (by decide +kernel)

end Umq.PostTx
