import UbsComm.Umq.CreditRuns

/-!
# Credit conservation between two bound queues

The steps of a link come in two kinds. A step of the sender changes the
sender's window and what is in flight; `SharedRq.Window` records what it
does to the window, and each of the sender's functions has one lemma that
says so. A step of the receiver is a move of the receiving side
(`SharedRq.Moves`), or a batch of arrivals, together with a change of what
is in flight. In both cases an equation between four numbers remains, and
the two assembly lemmas `Link.Inv.ofSender` and `Link.Inv.ofReceiver`
reduce every case of the step to it.

The argument has one circle in it: the sender's window is a 16-bit counter
that drops what does not fit, so conservation needs the window not to
overflow, and that it cannot overflow follows from conservation and from
the receiving side's books, by which all credits about are within the pool
(`Link.Inv.total_le`).

**Conservation** (`conserved_of_linkRun`) holds in every state the link can
reach while no sub queue of the receiving side has been granted 2^64
credits; `exists_linkRun_not_conserved` is a run past that bound.
-/

namespace Umq

open Function List SharedRq Link Machine Nat Option UInt16

variable {ι κ : Type} {s : Link Unit Unit} {x : UInt64}

/-! ## The window, operation by operation -/

theorem remoteRxWindowIncNonAtomic_window (fc : FlowControl) (n : UInt16)
    (rb : Bool) (h : fc.remoteRxWindow.toNat + n.toNat ≤ uint16Max) :
    (remoteRxWindowIncNonAtomic fc n rb).1.remoteRxWindow.toNat
      = fc.remoteRxWindow.toNat + n.toNat := by
  unfold remoteRxWindowIncNonAtomic
  rw [if_neg (not_lt.mpr h)]
  cases rb <;> exact toNat_add_of_le h

theorem remoteRxWindowDecNonAtomic_spec (fc : FlowControl) (n : UInt16) (ret : Bool) :
    let r := remoteRxWindowDecNonAtomic fc n ret
    r.2.toNat = min n.toNat fc.remoteRxWindow.toNat ∧ r.1.remoteRxWindow.toNat
        = fc.remoteRxWindow.toNat - min n.toNat fc.remoteRxWindow.toNat
      ∧ r.1.enabled = fc.enabled := by
  unfold remoteRxWindowDecNonAtomic
  by_cases hge : fc.remoteRxWindow ≥ n
  · have hle : n.toNat ≤ fc.remoteRxWindow.toNat := le_iff_toNat_le.mp hge
    rw [if_pos hge, if_pos hge, min_eq_left hle, ← toNat_sub_of_toNat_le hle]
    cases ret <;> exact ⟨rfl, rfl, rfl⟩
  · have hlt : fc.remoteRxWindow.toNat < n.toNat := lt_iff_toNat_lt.mp (UInt16.not_le.mp hge)
    rw [if_neg hge, if_neg hge, min_eq_right hlt.le, Nat.sub_self]
    cases ret <;> exact ⟨rfl, rfl, rfl⟩

/-- The sending side as far as conservation is concerned: queue `a` now has
`w` credits in its window. -/
structure SharedRq.Window (s t : SharedRq κ) (a : κ) (w : ℕ) : Prop where
  window : t.window a = w
  enabled : (t.sub a).fc.enabled = (s.sub a).fc.enabled

theorem SharedRq.Window.refl (s : SharedRq κ) (a : κ) : s.Window s a (s.window a) := ⟨rfl, rfl⟩

theorem SharedRq.Window.trans {s t u : SharedRq κ} {a : κ} {v w : ℕ}
    (h₁ : s.Window t a v) (h₂ : t.Window u a w) : s.Window u a w :=
  ⟨h₂.window, h₂.enabled.trans h₁.enabled⟩

/-- A change that keeps the window can follow any other. -/
theorem SharedRq.Window.keep {s t u : SharedRq κ} {a : κ} {v : ℕ} (h₁ : s.Window t a v)
    (h₂ : t.Window u a (t.window a)) : s.Window u a v :=
  ⟨h₂.window.trans h₁.window, h₂.enabled.trans h₁.enabled⟩

theorem SharedRq.window_le (s : SharedRq κ) (a : κ) : s.window a ≤ uint16Max :=
  le_of_lt_succ (s.sub a).fc.remoteRxWindow.toNat_lt

section Sender

variable [DecidableEq κ]

theorem SharedRq.setFc_window (s : SharedRq κ) (a : κ) (fc : FlowControl)
    (hen : fc.enabled = (s.sub a).fc.enabled) :
    s.Window (s.setFc a fc) a fc.remoteRxWindow.toNat := by
  have hself : (s.setFc a fc).sub a = { s.sub a with fc := fc } := update_self _ _ _
  refine ⟨?_, ?_⟩
  · unfold window
    rw [hself]
  · rw [hself]
    exact hen

theorem umqUbPermissionRelease_window (s : SharedRq κ) (a : κ) :
    s.Window (umqUbPermissionRelease s a) a (s.window a) :=
  s.setFc_window a _ rfl

section

variable (s : SharedRq κ) (a : κ)

theorem umqUbFcProcessTxError_window (obj : FcUserCtx)
    (h : s.window a + failedCredits .creditReturnReq [obj] ≤ uint16Max) :
    s.Window (umqUbFcProcessTxError plainTables s a obj) a
      (s.window a + failedCredits .creditReturnReq [obj]) := by
  obtain ⟨type, notify⟩ := obj
  rw [failedCredits_singleton] at h ⊢
  cases type with
  | creditReturnReq =>
    have hwin := remoteRxWindowIncNonAtomic_window (s.sub a).fc notify true h
    obtain ⟨-, hen, -⟩ := remoteRxWindowIncNonAtomic_frame (s.sub a).fc notify true
    have hset := s.setFc_window a { (remoteRxWindowIncNonAtomic (s.sub a).fc
      notify true).1 with isCreditApplying := false } hen
    rw [hwin] at hset
    exact hset
  | creditRep =>
    -- a grant of this side's own: its pool and its grant counter change
    have hset := (s.availableCreditReturn plainTables notify).setFc_window a
      (localRxAllocatedDecNonAtomic (s.sub a).fc notify).1 rfl
    exact ⟨hset.window, hset.enabled⟩
  | creditReq => exact s.setFc_window a _ rfl
  | creditInit | creditReturnAck => exact .refl s a

/-- Polling puts the credits of undelivered returns back. -/
theorem umqUbPollFcTx_window (att : SendAttempt) (hb : att.Bound)
    (h : s.window a + failedCredits .creditReturnReq att.errors ≤ uint16Max) :
    s.Window (umqUbPollFcTx plainTables s a att).1 a
      (s.window a + failedCredits .creditReturnReq att.errors) := by
  have hfold : ∀ (errors : List FcUserCtx) (s : SharedRq κ),
      s.window a + failedCredits .creditReturnReq errors ≤ uint16Max →
      s.Window (errors.foldl (fun s obj => umqUbFcProcessTxError plainTables s a obj) s) a
        (s.window a + failedCredits .creditReturnReq errors) := by
    intro errors
    induction errors with
    | nil => exact fun s _ => .refl s a
    | cons obj errors ih =>
      intro s hs
      rw [failedCredits_cons] at hs ⊢
      have h₁ := umqUbFcProcessTxError_window s a obj (by omega)
      have hw := h₁.window
      have h₂ := ih (umqUbFcProcessTxError plainTables s a obj) (by omega)
      rw [hw, add_assoc] at h₂
      exact h₁.trans h₂
  unfold umqUbPollFcTx
  cases hp : att.pollOk with
  | true => exact hfold att.errors s h
  | false =>
    rw [hb.2.resolve_left (by simp [hp])]
    exact .refl s a

variable (hen : (s.sub a).fc.enabled = true)
include hen

theorem umqUbWindowInc_window (n : UInt16) (h : s.window a + n.toNat ≤ uint16Max) :
    s.Window (umqUbWindowInc plainTables s a n) a (s.window a + n.toNat) := by
  unfold umqUbWindowInc
  by_cases hz : n = 0
  · rw [hz]
    exact .refl s a
  · rw [if_neg (by simp [hz, hen])]
    have hset := s.setFc_window a (remoteRxWindowIncNonAtomic (s.sub a).fc n false).1
      (remoteRxWindowIncNonAtomic_frame (s.sub a).fc n false).2.1
    rw [remoteRxWindowIncNonAtomic_window (s.sub a).fc n false h] at hset
    exact hset

theorem umqUbWindowDec_window (n : UInt16) :
    ∃ m, (umqUbWindowDec plainTables s a n).2.toNat = m ∧ m ≤ s.window a
      ∧ s.Window (umqUbWindowDec plainTables s a n).1 a (s.window a - m) := by
  unfold umqUbWindowDec
  by_cases hz : n = 0
  · rw [hz]
    exact ⟨0, rfl, zero_le _, .refl s a⟩
  · rw [if_neg (by simp [hz, hen])]
    obtain ⟨hret, hwin, hen'⟩ := remoteRxWindowDecNonAtomic_spec (s.sub a).fc n false
    have hset := s.setFc_window a (remoteRxWindowDecNonAtomic (s.sub a).fc n false).1 hen'
    rw [hwin] at hset
    exact ⟨_, hret, min_le_right _ _, hset⟩

/-- **Posting**: every credit that leaves the window is in a posted
message. -/
theorem umqUbPostTx_window (n taken : UInt16) :
    ∃ w, s.Window (umqUbPostTx plainTables s a n taken).1 a w
      ∧ w + (umqUbPostTx plainTables s a n taken).2.toNat = s.window a := by
  obtain ⟨m, hm, hle, hdec⟩ := umqUbWindowDec_window s a hen n
  have hcap := s.window_le a
  unfold umqUbPostTx
  dsimp only
  set d := umqUbWindowDec plainTables s a n
  by_cases hz : d.2 = 0
  · rw [if_pos hz]
    rw [hz] at hm
    refine ⟨_, hdec, ?_⟩
    show s.window a - m + 0 = _
    rw [← hm]
    rfl
  · rw [if_neg hz]
    by_cases hlt : taken < d.2
    · rw [if_pos hlt]
      have hnat : taken.toNat < m := by
        rw [← hm]
        exact lt_iff_toNat_lt.mp hlt
      have hdiff : (d.2 - taken).toNat = m - taken.toNat := by
        rw [toNat_sub_of_toNat_le (by omega), hm]
      have hwin := hdec.window
      have hinc := umqUbWindowInc_window d.1 a (hdec.enabled.trans hen) (d.2 - taken) (by omega)
      refine ⟨_, hdec.trans hinc, ?_⟩
      dsimp only
      omega
    · rw [if_neg hlt]
      refine ⟨_, hdec, ?_⟩
      dsimp only
      omega

/-- **A grant arrives**: the window grows by what it carries. -/
theorem umqUbSharedCreditRespHandle_window (scale : CreditScale) (imm : FcImm)
    (h : s.window a + imm.window.toNat ≤ uint16Max) :
    s.Window (umqUbPermissionRelease (umqUbSharedCreditRespHandle plainTables scale s a imm) a) a
      (s.window a + imm.window.toNat) := by
  obtain ⟨fc', heq, hwin, hen'⟩ : ∃ fc' : FlowControl,
      umqUbSharedCreditRespHandle plainTables scale s a imm
        = umqUbWindowInc plainTables (s.setFc a fc') a (ofWindow imm.window)
      ∧ fc'.remoteRxWindow.toNat = s.window a ∧ fc'.enabled = (s.sub a).fc.enabled :=
    ⟨_, rfl, rfl, rfl⟩
  have hset := s.setFc_window a fc' hen'
  rw [hwin] at hset
  have hinc := umqUbWindowInc_window (s.setFc a fc') a (hset.enabled.trans hen)
    (ofWindow imm.window) (by rw [hset.window]; exact h)
  rw [hset.window] at hinc
  rw [heq]
  exact (hset.trans hinc).keep (umqUbPermissionRelease_window _ a)

theorem umqUbSharedCreditReqSend_window (att : SendAttempt) (hb : att.Bound)
    (h : s.window a + failedCredits .creditReturnReq att.errors ≤ uint16Max) :
    s.Window (umqUbSharedCreditReqSend plainTables s a att).1 a
      (s.window a + failedCredits .creditReturnReq att.errors) := by
  have hpoll := umqUbPollFcTx_window s a att hb h
  have hacq : s.Window (umqUbPermissionAcquire _ a) a _ := hpoll.keep (setFc_window _ a _ rfl)
  unfold umqUbSharedCreditReqSend
  rw [if_neg (by simp [hen, hb.1])]
  dsimp only
  split
  · exact hpoll
  · split
    · exact hpoll
    · split
      · exact hacq
      · exact hacq.keep (umqUbPermissionRelease_window _ a)

end

/-- A message that carries credits tells its sender, should it fail, how
many. -/
def FcMsg.Carries (m : FcMsg) (k : ImmType) : Prop :=
  m.userCtx.type = k ∧ m.userCtx.notify.toNat = m.imm.window.toNat

theorem returnAmount_lt (fc : FlowControl) (threshold win : UInt16) :
    (returnAmount fc threshold win).toNat < 1024 := by
  have hcap : ∀ x : UInt16, (if x > umqUbFcMaxImmData then umqUbFcMaxImmData else x).toNat
        < 1024 := by
    intro x
    split
    · decide
    · rename_i hle
      exact lt_succ_of_le (le_iff_toNat_le.mp (UInt16.not_lt.mp hle))
  exact hcap _

theorem postReturnReq_window (scale : CreditScale) (s : SharedRq κ) (a : κ) (threshold win : UInt16)
    (accepted : Bool) : let r := postReturnReq plainTables scale s a threshold win accepted
    ∃ w, s.Window r.1 a w ∧ w + windowSum r.2.2.toList = s.window a
      ∧ ∀ m ∈ r.2.2, m.Carries .creditReturnReq := by
  intro r
  set fc : FlowControl := { (s.sub a).fc with
    creditsPerRequest := if (scale.divide (s.sub a).fc.creditsPerRequest).toUInt16 = 0 then 1
      else (scale.divide (s.sub a).fc.creditsPerRequest).toUInt16 } with hfc
  have hwin : fc.remoteRxWindow.toNat = s.window a := rfl
  have hamount := returnAmount_lt fc threshold win
  obtain ⟨hret, hdec, hen⟩ := remoteRxWindowDecNonAtomic_spec fc
    (returnAmount fc threshold win) true
  set d := remoteRxWindowDecNonAtomic fc (returnAmount fc threshold win) true
  have hset := s.setFc_window a d.1 hen
  rw [hwin] at hret hdec
  have hleft : d.1.remoteRxWindow.toNat = s.window a - d.2.toNat := by rw [hdec, hret]
  rw [hleft] at hset
  cases accepted with
  | true =>
    refine ⟨_, hset, ?_, ?_⟩
    · show s.window a - d.2.toNat + ((toWindow d.2).toNat + 0) = _
      rw [toNat_toWindow d.2 (by omega)]
      omega
    · intro m hm
      cases hm
      refine ⟨rfl, ?_⟩
      show d.2.toNat = (toWindow d.2).toNat
      rw [toNat_toWindow d.2 (by omega)]
  | false =>
    have hrel := hset.keep (umqUbPermissionRelease_window (s.setFc a d.1) a)
    have hcap := s.window_le a
    set u := umqUbPermissionRelease (s.setFc a d.1) a
    have hrw : (u.sub a).fc.remoteRxWindow.toNat = s.window a - d.2.toNat := hrel.window
    have hinc := u.setFc_window a (remoteRxWindowIncNonAtomic (u.sub a).fc d.2 true).1
      (remoteRxWindowIncNonAtomic_frame _ d.2 true).2.1
    rw [remoteRxWindowIncNonAtomic_window _ d.2 true (by rw [hrw]; omega), hrw] at hinc
    refine ⟨_, hrel.trans hinc, ?_, nofun⟩
    show s.window a - d.2.toNat + d.2.toNat + 0 = _
    omega

/-- **Credits are given back**: what leaves the window is in the message
posted, and comes back if there is none. -/
theorem umqUbSharedCreditReturnReqSend_window (scale : CreditScale) (s : SharedRq κ) (a : κ)
    (timestamp lastSend : UInt64) (att : SendAttempt) (hb : att.Bound)
    (hdue : att.errors = [] ∨ returnDue (s.sub a).fc timestamp lastSend = true)
    (hen : (s.sub a).fc.enabled = true)
    (h : s.window a + failedCredits .creditReturnReq att.errors ≤ uint16Max) :
    let r := umqUbSharedCreditReturnReqSend plainTables scale s a timestamp lastSend att
    ∃ w, s.Window r.1 a w ∧ w + windowSum r.2.2.toList
          = s.window a + failedCredits .creditReturnReq att.errors
      ∧ ∀ m ∈ r.2.2, m.Carries .creditReturnReq := by
  intro r
  by_cases hd : returnDue (s.sub a).fc timestamp lastSend = false
  · have hr : r = (s, .success, none) := by
      show umqUbSharedCreditReturnReqSend _ _ _ _ _ _ _ = _
      unfold umqUbSharedCreditReturnReqSend
      rw [if_neg (by simp [hen, hb.1]), if_pos hd]
    rw [hr, hdue.resolve_right (by simp [hd])]
    exact ⟨_, .refl s a, rfl, nofun⟩
  · have hacq : s.Window (umqUbPermissionAcquire s a) a _ := s.setFc_window a _ rfl
    have hpoll := hacq.trans (umqUbPollFcTx_window
      (umqUbPermissionAcquire s a) a att hb (by rw [hacq.window]; exact h))
    rw [hacq.window] at hpoll
    set p := umqUbPollFcTx plainTables (umqUbPermissionAcquire s a) a att
    have hr : r = if p.2 ≠ .success then (umqUbPermissionRelease p.1 a, p.2, none)
      else postReturnReq plainTables scale p.1 a (returnThreshold (s.sub a).fc)
        (s.sub a).fc.remoteRxWindow att.accepted := by
      show umqUbSharedCreditReturnReqSend _ _ _ _ _ _ _ = _
      unfold umqUbSharedCreditReturnReqSend
      rw [if_neg (by simp [hen, hb.1]), if_neg hd]
    rw [hr]
    split
    · exact ⟨_, hpoll.keep (umqUbPermissionRelease_window _ a), rfl, nofun⟩
    · obtain ⟨w, hw, hsum, hcarry⟩ := postReturnReq_window scale p.1 a
        (returnThreshold (s.sub a).fc) (s.sub a).fc.remoteRxWindow att.accepted
      exact ⟨w, hpoll.trans hw, hsum.trans hpoll.window, hcarry⟩

end Sender

/-! ## Messages in flight -/

theorem windowSum_append (l l' : List FcMsg) :
    windowSum (l ++ l') = windowSum l + windowSum l' := by
  unfold windowSum
  rw [map_append, sum_append_nat]

theorem windowSum_erase {l : List FcMsg} {m : FcMsg} (h : m ∈ l) :
    windowSum (l.erase m) + m.imm.window.toNat = windowSum l := by
  have hperm := (perm_cons_erase h).map fun m => m.imm.window.toNat
  unfold windowSum
  rw [hperm.sum_eq, map_cons]
  exact add_comm _ _

/-- Error completions take out of flight as many credits as they
report. -/
theorem failMsgs_spec (k : ImmType) (errors : List FcUserCtx) :
    ∀ {msgs msgs' : List FcMsg}, (∀ m ∈ msgs, m.Carries k) → failMsgs k msgs errors = some msgs' →
      windowSum msgs' + failedCredits k errors = windowSum msgs ∧ ∀ m ∈ msgs', m.Carries k := by
  induction errors with
  | nil =>
    intro msgs msgs' hc h
    cases h
    exact ⟨rfl, hc⟩
  | cons o os ih =>
    intro msgs msgs' hc h
    rw [failedCredits_cons, failedCredits_singleton]
    unfold failMsgs at h
    by_cases ho : o.type = k
    · rw [if_pos ho] at h ⊢
      cases hf : msgs.find? (fun m => m.userCtx = o) with
      | none =>
        rw [hf] at h
        cases h
      | some m =>
        rw [hf] at h
        have hmem := mem_of_find?_eq_some hf
        have hctx : m.userCtx = o := by simpa using find?_some hf
        obtain ⟨hsum, hcars⟩ := ih (fun x hx => hc x (mem_of_mem_erase hx)) h
        have herase := windowSum_erase hmem
        have hcar := (hc m hmem).2
        rw [hctx] at hcar
        exact ⟨by omega, hcars⟩
    · rw [if_neg ho] at h ⊢
      obtain ⟨hsum, hcars⟩ := ih hc h
      exact ⟨by omega, hcars⟩

/-! ## The invariant of the link -/

/-- What conservation rests on: the receiving side's books, and messages
that carry their credits in both places. -/
structure Link.Inv [Fintype ι] (cfg : RqConfig) (b : ι) (a : κ) (s : Link ι κ) : Prop where
  rx : s.rx.Inv cfg
  live : (s.rx.sub b).live = true
  enabled : (s.tx.sub a).fc.enabled = true
  reps : ∀ m ∈ s.reps, m.Carries .creditRep
  returns : ∀ m ∈ s.returns, m.Carries .creditReturnReq
  conserved : s.Conserved b a

section LinkInvariant

variable {cfg : RqConfig} {scale : CreditScale} {b : ι} {a : κ} {att : SendAttempt}
  {reqs reps returns acks : List FcMsg} {s s₁ : Link ι κ} {x : LinkAction ι}

theorem Link.failAtSender_eq (h : s.failAtSender att = some s₁) :
    ∃ reqs returns, s₁ = { s with reqs := reqs, returns := returns }
      ∧ ((∀ m ∈ s.returns, m.Carries .creditReturnReq) → windowSum returns
        + failedCredits .creditReturnReq att.errors = windowSum s.returns
          ∧ ∀ m ∈ returns, m.Carries .creditReturnReq) := by
  obtain ⟨reqs, -, h⟩ := bind_eq_some_iff.mp h
  obtain ⟨returns, hret, rfl⟩ := map_eq_some_iff.mp h
  exact ⟨reqs, returns, rfl, fun hc => failMsgs_spec _ _ hc hret⟩

theorem Link.failAtReceiver_eq (h : s.failAtReceiver att = some s₁) :
    ∃ reps acks, s₁ = { s with reps := reps, acks := acks }
      ∧ ((∀ m ∈ s.reps, m.Carries .creditRep) → windowSum reps
        + failedGrants att.errors = windowSum s.reps ∧ ∀ m ∈ reps, m.Carries .creditRep) := by
  obtain ⟨reps, hrep, h⟩ := bind_eq_some_iff.mp h
  obtain ⟨acks, -, rfl⟩ := map_eq_some_iff.mp h
  exact ⟨reps, acks, rfl, fun hc => failMsgs_spec _ _ hc hrep⟩

theorem SendAttempt.Bound.takenBack (h : att.Bound) : att.takenBack = failedGrants att.errors := by
  unfold SendAttempt.takenBack
  rcases h.2 with hp | hnil
  · rw [if_pos ⟨h.1, hp⟩]
  · rw [hnil]
    exact ite_self 0

variable [Fintype ι]

/-- **The sender's window cannot overflow**: all credits about are within
the pool. -/
theorem Link.Inv.total_le (h : s.Inv cfg b a) :
    s.tx.window a + s.data + windowSum s.reps + windowSum s.returns ≤ uint16Max := by
  have hc : s.rx.held b = _ := h.conserved
  have hle := h.rx.held_le b
  have hcap := h.rx.pool_le_uint16Max
  omega

/-- A step that changes only the sending side. -/
theorem Link.Inv.ofSender (h : s.Inv cfg b a) {tx : SharedRq κ} {data : ℕ} {w : ℕ}
    (hw : s.tx.Window tx a w)
    (hreps : ∀ m ∈ reps, m.Carries .creditRep)
    (hreturns : ∀ m ∈ returns, m.Carries .creditReturnReq)
    (hsum : w + data + windowSum reps + windowSum returns
      = s.tx.window a + s.data + windowSum s.reps + windowSum s.returns) :
    Link.Inv cfg b a ⟨s.rx, tx, data, reqs, reps, returns, acks⟩ where
  __ := h
  enabled := hw.enabled.trans h.enabled
  reps := hreps
  returns := hreturns
  conserved := by
    show s.rx.held b = tx.window a + data + windowSum reps + windowSum returns
    rw [hw.window, hsum]
    exact h.conserved

/-- A step that changes only the receiving side: `v` is what `b` counts
afterwards. -/
theorem Link.Inv.ofReceiver (h : s.Inv cfg b a) {rx : SharedRq ι} {data : ℕ} {v : ℕ}
    (hrx : rx.Inv cfg) (hlive : (rx.sub b).live = (s.rx.sub b).live)
    (hheld : rx.held b = v)
    (hreps : ∀ m ∈ reps, m.Carries .creditRep)
    (hreturns : ∀ m ∈ returns, m.Carries .creditReturnReq)
    (hsum : v + (s.tx.window a + s.data + windowSum s.reps + windowSum s.returns) = s.rx.held b
        + (s.tx.window a + data + windowSum reps + windowSum returns)) :
    Link.Inv cfg b a ⟨rx, s.tx, data, reqs, reps, returns, acks⟩ where
  rx := hrx
  live := hlive.trans h.live
  enabled := h.enabled
  reps := hreps
  returns := hreturns
  conserved := by
    have hc : s.rx.held b = _ := h.conserved
    show rx.held b = s.tx.window a + data + windowSum reps + windowSum returns
    omega

variable [DecidableEq ι] [DecidableEq κ]

/-- **One step conserves credits.** -/
theorem linkStep_inv {s t : Link ι κ} (hs : s.Inv cfg b a)
    (h : linkStep plainTables plainTables cfg scale b a s x = some t)
    (hbound : ∀ q, t.rx.granted q < 2 ^ 64) : t.Inv cfg b a := by
  have htotal := hs.total_le
  have hcons : s.rx.held b = _ := hs.conserved
  cases x with
  | other x =>
    obtain ⟨hx, rx, hstep, rfl⟩ := guard_map_eq_some.mp h
    obtain ⟨hinv, havoids⟩ := rqStep_spec hs.rx hstep hbound
    obtain ⟨hheld, hlive⟩ := havoids b hx
    exact hs.ofReceiver hinv hlive hheld hs.reps hs.returns rfl
  | reqSend att =>
    obtain ⟨hb, s₁, hfail, rfl⟩ := guard_map_eq_some.mp h
    obtain ⟨reqs, returns, rfl, hret⟩ := failAtSender_eq hfail
    obtain ⟨hsum, hcar⟩ := hret hs.returns
    refine hs.ofSender (umqUbSharedCreditReqSend_window s.tx a hs.enabled att hb
      (by omega)) hs.reps hcar ?_
    dsimp only
    omega
  | reqHandle m att =>
    obtain ⟨⟨hb, -⟩, s₁, hfail, rfl⟩ := guard_map_eq_some.mp h
    obtain ⟨reps, acks, rfl, hrep⟩ := failAtReceiver_eq hfail
    obtain ⟨hsum, hcar⟩ := hrep hs.reps
    have hspec := umqUbSharedCreditReqHandle_spec hs.rx b m.imm att hs.live (by omega) (hbound b)
    have htb := hb.takenBack
    dsimp only
    cases hmsg : (umqUbSharedCreditReqHandle plainTables s.rx b m.imm att).2.2 with
    | none =>
      rw [hmsg] at hspec
      exact hs.ofReceiver hspec.inv (hspec.rest.live b) hspec.held_self hcar
        hs.returns (by dsimp only [toList, nil_append]; omega)
    | some msg =>
      rw [hmsg] at hspec
      obtain ⟨hmoves, hz, -, hwin, hty, hnot⟩ := hspec
      refine hs.ofReceiver hmoves.inv (hmoves.rest.live b) hmoves.held_self
        (forall_mem_cons.mpr ⟨⟨hty, hnot.trans hwin.symm⟩, hcar⟩) hs.returns ?_
      have happ : windowSum ((some msg).toList ++ reps)
          = msg.imm.window.toNat + windowSum reps := by
        rfl
      omega
  | respHandle m =>
    obtain ⟨hm, rfl⟩ := guard_eq_some.mp h
    have herase := windowSum_erase hm
    exact hs.ofSender (umqUbSharedCreditRespHandle_window s.tx a hs.enabled scale m.imm
      (by omega)) (fun x hx => hs.reps x (mem_of_mem_erase hx)) hs.returns (by omega)
  | postTx wrIndex taken =>
    cases h
    obtain ⟨w, hw, hsum⟩ := umqUbPostTx_window s.tx a hs.enabled wrIndex taken
    exact hs.ofSender hw hs.reps hs.returns (by omega)
  | pollRx qs =>
    obtain ⟨⟨hin, hdata, hother⟩, rfl⟩ := guard_eq_some.mp h
    have hcount : ∀ q ∈ qs, qs.count q ≤ s.rx.held q := by
      intro q hq
      by_cases hqb : q = b
      · subst hqb
        omega
      · exact hother q hq hqb
    obtain ⟨hinv, hheld, hlive⟩ := umqUbPollRx_spec hs.rx qs hin (count_le_of_forall_mem hcount)
    exact hs.ofReceiver hinv (hlive b) (hheld b) hs.reps hs.returns (by omega)
  | returnReqSend timestamp lastSend att =>
    obtain ⟨⟨hb, hdue⟩, s₁, hfail, rfl⟩ := guard_map_eq_some.mp h
    obtain ⟨reqs, returns, rfl, hret⟩ := failAtSender_eq hfail
    obtain ⟨hsum, hcar⟩ := hret hs.returns
    obtain ⟨w, hw, hsend, hmsg⟩ := umqUbSharedCreditReturnReqSend_window scale
      s.tx a timestamp lastSend att hb hdue hs.enabled (by omega)
    refine hs.ofSender hw hs.reps
      (forall_mem_append.mpr ⟨fun x hx => hmsg x (mem_toList.mp hx), hcar⟩) ?_
    rw [windowSum_append]
    dsimp only
    omega
  | returnReqHandle m att =>
    obtain ⟨⟨hb, hm⟩, s₁, hfail, rfl⟩ := guard_map_eq_some.mp h
    obtain ⟨reps, acks, rfl, hrep⟩ := failAtReceiver_eq hfail
    obtain ⟨hsum, hcar⟩ := hrep hs.reps
    have htb := hb.takenBack
    have herase := windowSum_erase hm
    have hmoves := umqUbSharedCreditReturnReqHandle_moves hs.rx b m.imm att (by omega)
    refine hs.ofReceiver hmoves.inv (hmoves.rest.live b) hmoves.held_self
      hcar (fun x hx => hs.returns x (mem_of_mem_erase hx)) ?_
    dsimp only
    omega
  | returnAck m =>
    obtain ⟨hm, rfl⟩ := guard_eq_some.mp h
    have hset := s.tx.setFc_window a { (s.tx.sub a).fc with
      peerRatio := ofNat m.imm.ratio.toNat } rfl
    exact hs.ofSender (hset.keep (umqUbPermissionRelease_window _ a)) hs.reps hs.returns rfl
  | senderPollFcTx att =>
    obtain ⟨hb, s₁, hfail, rfl⟩ := guard_map_eq_some.mp h
    obtain ⟨reqs, returns, rfl, hret⟩ := failAtSender_eq hfail
    obtain ⟨hsum, hcar⟩ := hret hs.returns
    refine hs.ofSender (umqUbPollFcTx_window s.tx a att hb (by omega)) hs.reps hcar ?_
    dsimp only
    omega
  | receiverPollFcTx att =>
    obtain ⟨hb, s₁, hfail, rfl⟩ := guard_map_eq_some.mp h
    obtain ⟨reps, acks, rfl, hrep⟩ := failAtReceiver_eq hfail
    obtain ⟨hsum, hcar⟩ := hrep hs.reps
    have htb := hb.takenBack
    have hm := umqUbPollFcTx_moves hs.rx b att hb.1 (by omega)
    refine hs.ofReceiver hm.inv (hm.rest.live b) hm.held_self hcar hs.returns ?_
    dsimp only
    omega
  | dataError =>
    obtain ⟨hd, rfl⟩ := guard_eq_some.mp h
    have hinc := umqUbWindowInc_window s.tx a hs.enabled 1 (by show _ + 1 ≤ _; omega)
    exact hs.ofSender hinc hs.reps hs.returns (by show s.tx.window a + 1 + _ + _ + _ = _; omega)

omit [Fintype ι] in
theorem linkStep_granted_le {Tr Ts : FcTables} {s t : Link ι κ}
    (h : linkStep Tr Ts cfg scale b a s x = some t)
    (q : ι) : s.rx.granted q ≤ t.rx.granted q := by
  cases x with
  | other x =>
    obtain ⟨-, rx, hstep, rfl⟩ := guard_map_eq_some.mp h
    exact rqStep_granted_le hstep q
  | reqSend att | returnReqSend timestamp lastSend att | senderPollFcTx att =>
    obtain ⟨-, s₁, hf, rfl⟩ := guard_map_eq_some.mp h
    obtain ⟨-, -, rfl, -⟩ := failAtSender_eq hf
    exact le_rfl
  | reqHandle m att =>
    obtain ⟨-, s₁, hf, rfl⟩ := guard_map_eq_some.mp h
    obtain ⟨-, -, rfl, -⟩ := failAtReceiver_eq hf
    exact umqUbSharedCreditReqHandle_granted_le Tr s.rx b m.imm att q
  | respHandle m | returnAck m | dataError =>
    obtain ⟨-, rfl⟩ := guard_eq_some.mp h
    exact le_rfl
  | postTx wrIndex taken =>
    cases h
    exact le_rfl
  | pollRx qs =>
    obtain ⟨-, rfl⟩ := guard_eq_some.mp h
    exact (congrFun (umqUbPollRx_granted Tr s.rx qs) q).ge
  | returnReqHandle m att =>
    obtain ⟨-, s₁, hf, rfl⟩ := guard_map_eq_some.mp h
    obtain ⟨-, -, rfl, -⟩ := failAtReceiver_eq hf
    rw [umqUbSharedCreditReturnReqHandle_granted]
  | receiverPollFcTx att =>
    obtain ⟨-, s₁, hf, rfl⟩ := guard_map_eq_some.mp h
    obtain ⟨-, -, rfl, -⟩ := failAtReceiver_eq hf
    rw [umqUbPollFcTx_granted]

omit [DecidableEq ι] in
theorem Link.inv_init (cfg : RqConfig) (b : ι) (a : κ) (tx : SharedRq κ) :
    (init cfg a tx : Link ι κ).Inv cfg b a := by
  refine ⟨SharedRq.inv_init cfg, rfl, ?_, nofun, nofun, ?_⟩
  · simp [init, setFc]
  · simp [Conserved, init, SharedRq.init, setFc, held, SubQueue.unconsumed, window, windowSum]

end LinkInvariant

/-! ## Runs of the link -/

variable [DecidableEq ι] [DecidableEq κ]

/-- A run of the link; each side's tables are chosen by its own
`use_atomic_window`, and each action comes with the spurious failures its
loops meet. -/
def linkRun (atomicRx atomicTx : Bool) (cfg : RqConfig) (scale : CreditScale) (b : ι) (a : κ) :
    Link ι κ → List (LinkAction ι × (ℕ → ℕ)) → Option (Link ι κ) :=
  Machine.run (fun s x => linkStep (fcTables atomicRx x.2)
    (fcTables atomicTx x.2) cfg scale b a s x.1)

/-- On plain tables the spurious failures are of no account. -/
theorem linkRun_false_map (cfg : RqConfig) (scale : CreditScale) (b : ι)
    (a : κ) (s : Link ι κ) (xs : List (LinkAction ι)) (f : ℕ → ℕ) :
    linkRun false false cfg scale b a s (xs.map fun x => (x, f))
      = run (linkStep plainTables plainTables cfg scale b a) s xs := by
  induction xs generalizing s with
  | nil => rfl
  | cons x xs ih => exact congrArg _ (funext ih)

/-- **Credit conservation.** In every state the link can reach – by any
interleaving of requests, grants, transmissions, arrivals, returns, their
rollbacks and error completions, on either table – the credits the
receiver counts as granted and unused are exactly those in the sender's
window and in flight, as long as no sub queue of the receiving side has
been granted 2^64 credits. -/
theorem conserved_of_linkRun [Fintype ι] (atomicRx atomicTx : Bool) (cfg : RqConfig)
    (scale : CreditScale) (b : ι) (a : κ) (tx : SharedRq κ) (xs : List (LinkAction ι × (ℕ → ℕ)))
    (s : Link ι κ) (h : linkRun atomicRx atomicTx cfg scale b a (Link.init cfg a tx) xs = some s)
    (hbound : ∀ q, s.rx.granted q < 2 ^ 64) : s.Conserved b a := by
  suffices hinv : s.Inv cfg b a from hinv.conserved
  refine run_invariant
    (P := fun s : Link ι κ => (∀ q, s.rx.granted q < 2 ^ 64) → s.Inv cfg b a)
    ?_ (fun _ => inv_init cfg b a tx) h hbound
  intro s x t hs hstep hb
  rw [fcTables_eq, fcTables_eq] at hstep
  refine linkStep_inv (hs fun q => ?_) hstep hb
  exact (linkStep_granted_le hstep q).trans_lt (hb q)

/-- `credit_multiple` at its default of two. -/
def doubling : CreditScale := ⟨fun x => (x / 2).toUInt32, fun x => x.toUInt32 * 2⟩

/-- A sending side that will ask for two credits at first. -/
def freshSender : SharedRq Unit where
  pool := {}
  sub := fun _ => { fc := { creditsPerRequest := 2, maxCreditsRequest := 2 } }
  granted := fun _ => 0

/-- A request for two credits, its grant, a transmission that is only half
accepted, an arrival, and a return that is not delivered. -/
def twoCreditsRun : List (LinkAction (Fin 2) × (ℕ → ℕ)) :=
  let req : FcMsg := ⟨⟨.creditReq, 2, 0⟩, .creditReq, 2⟩
  let rep : FcMsg := ⟨⟨.creditRep, 2, 0⟩, .creditRep, 2⟩
  [(.other (.postRx 2), fun _ => 0), (.reqSend {}, fun _ => 0),
    (.reqHandle req {}, fun _ => 1), (.respHandle rep, fun _ => 0),
    (.postTx 2 1, fun i => i), (.pollRx [⟨0, Nat.two_pos⟩], fun _ => 0),
    (.returnReqSend 9 3 {}, fun _ => 0),
    (.senderPollFcTx { errors := [⟨.creditReturnReq, 1⟩] }, fun _ => 2)]

theorem conserved_twoCreditsRun : ∃ s, linkRun true false twoBuffers doubling 0 ()
          (Link.init twoBuffers () freshSender) twoCreditsRun = some s
      ∧ (∀ q, s.rx.granted q < 2 ^ 64) ∧ s.Conserved 0 () :=
  ⟨_, rfl, by decide, conserved_of_linkRun true false twoBuffers doubling 0 ()
    freshSender twoCreditsRun _ rfl (by decide)⟩

/-! ## Past the bound

The run that brings the receiver's counters to their last value can be
made with a live sender: each round one credit is asked for, granted, used
and its buffer posted again. -/

/-- The sender between two requests: its window, and whether a request is
outstanding. -/
structure SharedRq.SenderAt (s : SharedRq Unit) (window : ℕ) (applying : Bool) : Prop where
  window : s.window () = window
  enabled : (s.sub ()).fc.enabled = true
  applying : (s.sub ()).fc.isCreditApplying = applying
  request : 1 ≤ (s.sub ()).fc.creditsPerRequest.toNat

/-- The link at rest, with both of the receiver's counters at `x`. -/
structure Link.At (s : Link Unit Unit) (x : UInt64) : Prop where
  rx : s.rx.At 1 0 1 x x
  tx : s.tx.SenderAt 0 false
  data : s.data = 0
  reqs : s.reqs = []
  reps : s.reps = []
  returns : s.returns = []

/-- The size of a request is never zero after an answer. -/
theorem one_le_threasholdModify (x : UInt16) (r : UInt8) :
    1 ≤ (umqUbFcThreasholdModify x r + 1).toNat := by
  have hratio : ∀ i, creditRatio.getD i 1 ≤ 7 := by
    intro i
    match i with
    | 0 | 1 | 2 | 3 => decide
    | n + 4 => simp [creditRatio]
  have hx := x.toNat_lt
  have hle : (umqUbFcThreasholdModify x r).toNat ≤ 45874 := by
    unfold umqUbFcThreasholdModify
    dsimp only
    split
    · decide
    · rw [toNat_ofNat']
      have hmul : x.toNat * umqUbFcImmToRatio r ≤ 65535 * 7 :=
        Nat.mul_le_mul (by omega) (hratio r.toNat)
      omega
  rw [UInt16.toNat_add]
  show 1 ≤ (_ + 1) % 65536
  omega

theorem SharedRq.SenderAt.reqSend {s : SharedRq Unit} (h : s.SenderAt 0 false) :
    let r := umqUbSharedCreditReqSend plainTables s () {}
    r.1.SenderAt 0 true ∧ ∃ m, r.2.2 = some m ∧ 1 ≤ m.imm.window.toNat := by
  set n := if (s.sub ()).fc.creditsPerRequest > umqUbFcMaxImmData then umqUbFcMaxImmData
    else (s.sub ()).fc.creditsPerRequest with hn
  have hsend : umqUbSharedCreditReqSend plainTables s () {} = (umqUbPermissionAcquire s (),
      .success, some ⟨{ type := .creditReq, window := toWindow n }, .creditReq, n⟩) := by
    unfold umqUbSharedCreditReqSend
    rw [if_neg (by simp [h.enabled])]
    show (if (s.sub ()).fc.isCreditApplying = true then _ else _) = _
    rw [h.applying]
    rfl
  rw [hsend]
  refine ⟨⟨h.window, h.enabled, rfl, h.request⟩, _, rfl, ?_⟩
  show 1 ≤ (toWindow n).toNat
  rw [hn]
  split
  · decide
  · rename_i hle
    have hsmall := le_iff_toNat_le.mp (UInt16.not_lt.mp hle)
    rw [toNat_toWindow _ (lt_succ_of_le hsmall)]
    exact h.request

theorem SharedRq.SenderAt.respHandle {s : SharedRq Unit}
    (h : s.SenderAt 0 true) {imm : FcImm} (hw : imm.window = 1) :
    (umqUbPermissionRelease (umqUbSharedCreditRespHandle plainTables doubling
      s () imm) ()).SenderAt 1 false := by
  have hwin := umqUbSharedCreditRespHandle_window s () h.enabled doubling imm
    (by rw [h.window, hw]; decide)
  rw [h.window, hw] at hwin
  refine ⟨hwin.window, hwin.enabled.trans h.enabled, rfl, ?_⟩
  have hframe : ∀ (fc : FlowControl) (n : UInt16),
      (remoteRxWindowIncNonAtomic fc n false).1.creditsPerRequest = fc.creditsPerRequest := by
    intro fc n
    unfold remoteRxWindowIncNonAtomic
    split <;> rfl
  have hone : ofWindow imm.window = 1 := by
    rw [hw]
    rfl
  unfold umqUbSharedCreditRespHandle umqUbWindowInc
  rw [hone, if_neg (by simp [setFc, h.enabled])]
  show 1 ≤ (remoteRxWindowIncNonAtomic _ 1 false).1.creditsPerRequest.toNat
  rw [hframe]
  exact one_le_threasholdModify _ _

theorem SharedRq.SenderAt.postTx {s : SharedRq Unit} (h : s.SenderAt 1 false) :
    (umqUbPostTx plainTables s () 1 1).1.SenderAt 0 false
      ∧ (umqUbPostTx plainTables s () 1 1).2 = 1 := by
  have hone : (s.sub ()).fc.remoteRxWindow = 1 := UInt16.toNat_inj.mp h.window
  have hdec : umqUbWindowDec plainTables s () 1 = (s.setFc () { (s.sub ()).fc with
          remoteRxWindow := 0
          totalRemoteRxConsumed := (s.sub ()).fc.totalRemoteRxConsumed + 1 }, 1) := by
    unfold umqUbWindowDec
    rw [if_neg (by simp [h.enabled])]
    show (s.setFc () (remoteRxWindowDecNonAtomic (s.sub ()).fc 1 false).1,
      (remoteRxWindowDecNonAtomic (s.sub ()).fc 1 false).2) = _
    unfold remoteRxWindowDecNonAtomic
    rw [hone]
    rfl
  have hpost : umqUbPostTx plainTables s () 1 1 = (umqUbWindowDec plainTables s () 1) := by
    unfold umqUbPostTx
    rw [hdec]
    rfl
  rw [hpost, hdec]
  exact ⟨⟨rfl, h.enabled, h.applying, h.request⟩, rfl⟩

/-- The step function of this section. -/
def oneCreditStep : Link Unit Unit → LinkAction Unit → Option (Link Unit Unit) :=
  linkStep plainTables plainTables oneBuffer doubling () ()

/-- With nothing in flight, the request sent is the only one in flight. -/
theorem oneCreditStep_reqSend {rx tx : SharedRq Unit} {acks : List FcMsg} {m : FcMsg}
    (hm : (umqUbSharedCreditReqSend plainTables tx () {}).2.2 = some m) :
    oneCreditStep ⟨rx, tx, 0, [], [], [], acks⟩ (.reqSend {})
      = some ⟨rx, (umqUbSharedCreditReqSend plainTables tx () {}).1, 0, [m], [], [], acks⟩ := by
  show some (mk rx _ 0 (((umqUbSharedCreditReqSend plainTables tx ()
    {}).2.2).toList ++ []) [] [] acks) = _
  rw [hm]
  rfl

/-- A round ends with the link at rest and the counters one further. -/
theorem Link.At.round (h : s.At x) : ∃ xs t, run oneCreditStep s xs = some t ∧ t.At (x + 1) := by
  obtain ⟨rx, tx, data, reqs, reps, returns, acks⟩ := s
  obtain ⟨hrx, htx, rfl, rfl, rfl, rfl⟩ := h
  -- the request, its grant, the transmission
  obtain ⟨htx₁, m, hm, hmw⟩ := htx.reqSend
  obtain ⟨hrx₂, g, hg, hgw⟩ := hrx.grantOne m.imm hmw
  have htx₃ := htx₁.respHandle hgw
  obtain ⟨htx₄, hposted⟩ := htx₃.postTx
  -- the arrival, and the buffer posted again
  have hrx₅ := hrx₂.arrive
  obtain ⟨rx₆, hstep₆, hrx₆⟩ := hrx₅.post
  set tx₁ := (umqUbSharedCreditReqSend plainTables tx () {}).1
  set rx₂ := (umqUbSharedCreditReqHandle plainTables rx () m.imm {}).1
  set tx₃ := umqUbPermissionRelease
    (umqUbSharedCreditRespHandle plainTables doubling tx₁ () g.imm) ()
  set tx₄ := (umqUbPostTx plainTables tx₃ () 1 1).1
  have h₁ : oneCreditStep ⟨rx, tx, 0, [], [], [], acks⟩ (.reqSend {})
      = some ⟨rx, tx₁, 0, [m], [], [], acks⟩ := oneCreditStep_reqSend hm
  have h₂ : oneCreditStep ⟨rx, tx₁, 0, [m], [], [], acks⟩ (.reqHandle m {})
      = some ⟨rx₂, tx₁, 0, [], [g], [], acks⟩ := by
    refine (if_pos ⟨by decide, mem_singleton_self m⟩).trans ?_
    show some (Link.mk rx₂ tx₁ 0 ([m].erase m) (((umqUbSharedCreditReqHandle
      plainTables rx () m.imm {}).2.2).toList ++ []) [] acks) = _
    rw [hg, erase_cons_head]
    rfl
  have h₃ : oneCreditStep ⟨rx₂, tx₁, 0, [], [g], [], acks⟩ (.respHandle g)
      = some ⟨rx₂, tx₃, 0, [], [], [], acks⟩ := by
    refine (if_pos (mem_singleton_self g)).trans ?_
    rw [erase_cons_head]
  have h₄ : oneCreditStep ⟨rx₂, tx₃, 0, [], [], [], acks⟩ (.postTx 1 1)
      = some ⟨rx₂, tx₄, 1, [], [], [], acks⟩ := by
    show some (Link.mk rx₂ tx₄ (0 + (umqUbPostTx plainTables tx₃ () 1 1).2.toNat) [] [] [] acks) = _
    rw [hposted]
    rfl
  have h₅ : oneCreditStep ⟨rx₂, tx₄, 1, [], [], [], acks⟩ (.pollRx [()])
      = some ⟨umqUbPollRx plainTables rx₂ [()], tx₄, 0, [], [], [], acks⟩ :=
    if_pos ⟨hrx₂.rxInUse.ge, le_rfl, fun _ _ hne => absurd rfl hne⟩
  have h₆ : oneCreditStep ⟨umqUbPollRx plainTables rx₂ [()], tx₄, 0, [], [],
      [], acks⟩ (.other (.postRx 1)) = some ⟨rx₆, tx₄, 0, [], [], [], acks⟩ := by
    show Option.map _ (rqStep plainTables oneBuffer _ (.postRx 1)) = _
    rw [hstep₆]
    rfl
  refine ⟨[.reqSend {}, .reqHandle m {}, .respHandle g, .postTx 1 1,
    .pollRx [()], .other (.postRx 1)], ⟨rx₆, tx₄, 0, [], [], [], acks⟩, ?_,
    ⟨hrx₆, htx₄, rfl, rfl, rfl, rfl⟩⟩
  · simp only [run_cons, h₁, h₂, h₃, h₄, h₅, h₆, bind_some, run_nil]

theorem Link.At.rounds (n : ℕ) (h : s.At x) :
    ∃ xs t, run oneCreditStep s xs = some t ∧ t.At (x + UInt64.ofNat n) := by
  induction n generalizing s x with
  | zero =>
    have hz : x + UInt64.ofNat 0 = x := by grind
    rw [hz]
    exact ⟨[], s, rfl, h⟩
  | succ n ih =>
    obtain ⟨xs, t, hrun, ht⟩ := h.round
    obtain ⟨ys, u, hrun', hu⟩ := ih ht
    rw [← add_one_add_ofNat]
    exact ⟨xs ++ ys, u, run_trans hrun hrun', hu⟩

/-- With the counters at their last value, a grant that cannot be posted
destroys the balance. -/
theorem Link.At.wrap (hx : x = 18446744073709551615) (h : s.At x) :
    ∃ xs t, run oneCreditStep s xs = some t ∧ ¬t.Conserved () () := by
  obtain ⟨rx, tx, data, reqs, reps, returns, acks⟩ := s
  obtain ⟨hrx, htx, rfl, rfl, rfl, rfl⟩ := h
  obtain ⟨htx₁, m, hm, hmw⟩ := htx.reqSend
  obtain ⟨-, -, hheld⟩ := hrx.wrap hx m.imm hmw
  set tx₁ := (umqUbSharedCreditReqSend plainTables tx () {}).1
  set rx₂ := (umqUbSharedCreditReqHandle plainTables rx () m.imm { accepted := false }).1
  have h₁ : oneCreditStep ⟨rx, tx, 0, [], [], [], acks⟩ (.reqSend {})
      = some ⟨rx, tx₁, 0, [m], [], [], acks⟩ := oneCreditStep_reqSend hm
  have h₂ : oneCreditStep ⟨rx, tx₁, 0, [m], [], [], acks⟩ (.reqHandle m { accepted := false })
      = some ⟨rx₂, tx₁, 0, [], [], [], acks⟩ := by
    refine (if_pos ⟨by decide, mem_singleton_self m⟩).trans ?_
    show some (Link.mk rx₂ tx₁ 0 ([m].erase m) [] [] acks) = _
    rw [erase_cons_head]
  refine ⟨[.reqSend {}, .reqHandle m { accepted := false }],
    ⟨rx₂, tx₁, 0, [], [], [], acks⟩, ?_, ?_⟩
  · simp only [run_cons, h₁, h₂, bind_some, run_nil]
  · intro hcons
    have heq : rx₂.held () = tx₁.window () + 0 + 0 + 0 := hcons
    rw [hheld, htx₁.window] at heq
    cases heq

/-- **Conservation fails** once 2^64 credits have been granted: a run of
the link after which the receiver counts a credit that is nowhere. -/
theorem exists_linkRun_not_conserved :
    ∃ (xs : List (LinkAction Unit × (ℕ → ℕ))) (s : Link Unit Unit),
      linkRun false false oneBuffer doubling () () (Link.init oneBuffer () freshSender) xs = some s
        ∧ ¬s.Conserved () () := by
  have hstart : ∃ t, oneCreditStep (init oneBuffer () freshSender)
      (.other (.postRx 1)) = some t ∧ t.At 0 :=
    ⟨_, rfl, ⟨⟨rfl, rfl, rfl, rfl, rfl, rfl, rfl, rfl⟩,
      ⟨rfl, rfl, rfl, by decide⟩, rfl, rfl, rfl, rfl⟩⟩
  obtain ⟨s₀, h₀, hat₀⟩ := hstart
  obtain ⟨xs, s₁, h₁, hat₁⟩ := hat₀.rounds (2 ^ 64 - 1)
  obtain ⟨ys, s₂, h₂, hnot⟩ := hat₁.wrap (by decide)
  have hrun : run oneCreditStep (init oneBuffer () freshSender)
      (.other (.postRx 1) :: (xs ++ ys)) = some s₂ := by
    rw [run_cons, h₀]
    exact run_trans h₁ h₂
  refine ⟨(.other (.postRx 1) :: (xs ++ ys)).map (fun x => (x, fun _ => 0)), s₂, ?_, hnot⟩
  rw [linkRun_false_map]
  exact hrun

end Umq
