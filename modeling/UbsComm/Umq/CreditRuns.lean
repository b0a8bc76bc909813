import UbsComm.Umq.CreditMoves
import UbsComm.Umq.CreditProtocol

/-!
# Runs of the receive side

Arrivals and posted buffers move the credits of several sub queues, or of
none; with them every step of the receive side keeps the books
(`rqStep_spec`), and so does every run in which no sub queue is granted
2^64 credits (`SharedRq.inv_of_run`). Past that bound the books can
disagree, and `exists_run_books_differ` exhibits a run in which they do.
-/

namespace Umq

open Function List SharedRq Machine Nat

variable {ι : Type} {s : SharedRq Unit} {x : UInt64}

section Runs

variable {cfg : RqConfig} {s : SharedRq ι} {a : RqAction ι}

theorem umqUbRqePostedCntInc_frame (T : FcTables) (cfg : RqConfig)
    (s : SharedRq ι) (count : UInt16) :
    (umqUbRqePostedCntInc T cfg s count).granted = s.granted
      ∧ (umqUbRqePostedCntInc T cfg s count).sub = s.sub := by
  have hre : ∀ (s : SharedRq ι) (n : UInt16), (umqUbSharedCreditRecharge T s n).granted = s.granted
      ∧ (umqUbSharedCreditRecharge T s n).sub = s.sub := by
    intro s n
    unfold umqUbSharedCreditRecharge
    split <;> exact ⟨rfl, rfl⟩
  unfold umqUbRqePostedCntInc
  split
  · exact hre s count
  · dsimp only
    split
    · exact hre _ _
    · exact ⟨rfl, rfl⟩

/-- **Recharging** adds free credits and nothing else. -/
theorem umqUbSharedCreditRecharge_spec (n : UInt16) (hen : s.enabled = true)
    (h : s.pool.idle.toNat + n.toNat ≤ uint16Max) (hex : ∀ u ∈ s.updates, u.Exact) :
    ∃ pool updates, umqUbSharedCreditRecharge plainTables s n
          = { s with pool := pool, updates := updates }
      ∧ pool.idle.toNat = s.pool.idle.toNat + n.toNat ∧ pool.allocated = s.pool.allocated
      ∧ pool.capacity = s.pool.capacity ∧ ∀ u ∈ updates, u.Exact := by
  by_cases hz : n = 0
  · rw [hz]
    exact ⟨s.pool, s.updates, rfl, rfl, rfl, rfl, hex⟩
  · obtain ⟨hi, ha, hc⟩ := availableCreditIncNonAtomic_spec s.pool n h
    have hsum : (availableCreditIncNonAtomic s.pool n).1.idle.toNat = _ :=
      (congrArg UInt16.toNat hi).trans (toNat_add_of_le h)
    refine ⟨_, _, if_neg (by simp [hz, hen]), hsum, ha, hc, forall_mem_cons.mpr ⟨?_, hex⟩⟩
    show ((availableCreditIncNonAtomic s.pool n).1.idle.toNat : ℤ) = s.pool.idle.toNat + n.toNat
    omega

variable [DecidableEq ι]

theorem umqUbSharedCreditReturnReqHandle_granted (T : FcTables)
    (s : SharedRq ι) (q : ι) (imm : FcImm) (att : SendAttempt) :
    (umqUbSharedCreditReturnReqHandle T s q imm att).1.granted = s.granted := by
  have hack : ∀ (s : SharedRq ι) (n : UInt16),
      (umqUbSharedCreditReturnAck T s q n att).1.granted = s.granted := by
    intro s n
    rw [umqUbSharedCreditReturnAck_fst]
    split
    · rfl
    · exact umqUbPollFcTx_granted T s q att
  unfold umqUbSharedCreditReturnReqHandle
  dsimp only
  split
  · exact hack s 0
  · exact hack _ _

theorem umqUbPollRx_granted (T : FcTables) (s : SharedRq ι) (qs : List ι) :
    (umqUbPollRx T s qs).granted = s.granted := by
  have hfold : ∀ (qs : List ι) (s : SharedRq ι),
      (qs.foldl rxConsumedInc s).granted = s.granted := by
    intro qs
    induction qs with
    | nil => exact fun _ => rfl
    | cons q qs ih => exact fun s => ih _
  refine (hfold qs _).trans ?_
  split <;> rfl

theorem umqUbSharedCreditReqHandle_granted_le (T : FcTables) (s : SharedRq ι) (q : ι) (imm : FcImm)
    (att : SendAttempt) : s.granted ≤ (umqUbSharedCreditReqHandle T s q imm att).1.granted := by
  rw [umqUbSharedCreditReqHandle_granted]
  exact le_update_iff.mpr ⟨Nat.le_add_right .., fun _ _ => le_rfl⟩

theorem rqStep_granted_le {T : FcTables} {s t : SharedRq ι} (h : rqStep T cfg s a = some t)
    (x : ι) :
    s.granted x ≤ t.granted x := by
  cases a <;> obtain ⟨-, rfl⟩ := guard_eq_some.mp h
  case postRx count =>
    exact (congrFun (umqUbRqePostedCntInc_frame T cfg s count).1 x).ge
  case reqHandle q imm att =>
    exact umqUbSharedCreditReqHandle_granted_le T s q imm att x
  case returnReqHandle q imm att =>
    rw [umqUbSharedCreditReturnReqHandle_granted]
  case pollFcTx q att =>
    rw [umqUbPollFcTx_granted]
  case pollRx qs =>
    rw [umqUbPollRx_granted]
  case cleanUp q =>
    show s.granted x ≤ (umqUbCreditCleanUp T s q).granted x
    unfold umqUbCreditCleanUp
    dsimp only
    split <;> exact le_rfl

/-- A run on a device, whose tables are chosen by `use_atomic_window`; each
action comes with the spurious failures its loops meet. -/
def rqRun (useAtomicWindow : Bool) (cfg : RqConfig) :
    SharedRq ι → List (RqAction ι × (ℕ → ℕ)) → Option (SharedRq ι) :=
  Machine.run (fun s a => rqStep (fcTables useAtomicWindow a.2) cfg s a.1)

/-- The tables make no difference to a run. -/
theorem rqRun_eq (useAtomicWindow : Bool) (cfg : RqConfig) (s : SharedRq ι)
    (as : List (RqAction ι × (ℕ → ℕ))) :
    rqRun useAtomicWindow cfg s as = run (rqStep plainTables cfg) s (as.map Prod.fst) := by
  induction as generalizing s with
  | nil => rfl
  | cons a as ih =>
    show (rqStep (fcTables useAtomicWindow a.2) cfg s a.1).bind
        (fun t => rqRun useAtomicWindow cfg t as) = _
    rw [fcTables_eq, map_cons]
    exact congrArg _ (funext ih)

/-! ## Arrivals -/

/-- A batch of arrivals adds to each sub queue's entry the number of its
messages. -/
theorem foldl_rxConsumedInc_spec (qs : List ι) (s : SharedRq ι)
    (h : ∀ x, (s.sub x).rxConsumed.toNat + qs.count x ≤ (s.sub x).fc.allocatedSuccess.toNat)
    (hexact : ∀ u ∈ s.updates, u.Exact) :
    ∃ sub updates, qs.foldl rxConsumedInc s = { s with sub := sub, updates := updates }
      ∧ (∀ x, (sub x).fc = (s.sub x).fc ∧ (sub x).live = (s.sub x).live
        ∧ (sub x).rxConsumed.toNat = (s.sub x).rxConsumed.toNat + qs.count x)
      ∧ ∀ u ∈ updates, u.Exact := by
  induction qs generalizing s with
  | nil => exact ⟨s.sub, s.updates, rfl, fun _ => ⟨rfl, rfl, rfl⟩, hexact⟩
  | cons q qs ih =>
    have hone : ((s.sub q).rxConsumed + 1).toNat = (s.sub q).rxConsumed.toNat + 1 := by
      have hq := h q
      rw [count_cons_self] at hq
      have hlt := (s.sub q).fc.allocatedSuccess.toNat_lt
      exact mod_eq_of_lt (by simp; omega)
    have hsub : ∀ x, ((s.rxConsumedInc q).sub x).fc = (s.sub x).fc
        ∧ ((s.rxConsumedInc q).sub x).live = (s.sub x).live
        ∧ ((s.rxConsumedInc q).sub x).rxConsumed.toNat
            = (s.sub x).rxConsumed.toNat + if q = x then 1 else 0 :=
      (forall_update_iff s.sub fun x sq => sq.fc = (s.sub x).fc ∧ sq.live = (s.sub x).live
        ∧ sq.rxConsumed.toNat = (s.sub x).rxConsumed.toNat + if q = x then 1 else 0).mpr
        ⟨⟨rfl, rfl, by rw [if_pos rfl]; exact hone⟩, fun x hx => ⟨rfl, rfl, by
          rw [if_neg hx.symm, add_zero]⟩⟩
    have hcount : ∀ x, (q :: qs).count x = qs.count x + if q = x then 1 else 0 := by
      intro x
      rw [count_cons]
      simp
    obtain ⟨sub, updates, heq, hall, hup⟩ := ih (s.rxConsumedInc q) (by
        intro x
        have hx := h x
        rw [hcount x] at hx
        obtain ⟨hfc, -, hcons⟩ := hsub x
        rw [hfc]
        omega)
      (forall_mem_cons.mpr ⟨by
        show (((s.sub q).rxConsumed + 1).toNat : ℤ) = (s.sub q).rxConsumed.toNat + 1
        omega, hexact⟩)
    refine ⟨sub, updates, heq, fun x => ?_, hup⟩
    obtain ⟨hfc, hlive, hcons⟩ := hall x
    obtain ⟨hfc', hlive', hcons'⟩ := hsub x
    refine ⟨hfc.trans hfc', hlive.trans hlive', ?_⟩
    rw [hcount x]
    exact hcons.trans (by omega)

theorem count_le_of_forall_mem {qs : List ι} {f : ι → ℕ}
    (h : ∀ q ∈ qs, qs.count q ≤ f q) (x : ι) : qs.count x ≤ f x := by
  by_cases hx : x ∈ qs
  · exact h x hx
  · rw [count_eq_zero_of_not_mem hx]
    exact zero_le _

variable [Fintype ι]

theorem sum_count_eq_length (qs : List ι) : ∑ x, qs.count x = qs.length := by
  have h := Multiset.sum_count_eq_card (s := Finset.univ)
    (m := (qs : Multiset ι)) fun a _ => Finset.mem_univ a
  simpa using h

omit [DecidableEq ι] in
/-- The pool is told of arrivals, of all at once. -/
theorem SharedRq.Inv.allocatedCreditDec (hs : s.Inv cfg) {n : ℕ} (hn : n ≤ s.pool.allocated.toNat) :
    ∃ pool updates, (if s.enabled = true ∧ n ≠ 0 then
        s.allocatedCreditDec plainTables (UInt16.ofNat n) else s)
          = { s with pool := pool, updates := updates }
      ∧ pool.idle = s.pool.idle ∧ pool.allocated.toNat = s.pool.allocated.toNat - n
      ∧ pool.capacity = s.pool.capacity ∧ ∀ u ∈ updates, u.Exact := by
  by_cases hz : n = 0
  · rw [if_neg (by simp [hz])]
    exact ⟨s.pool, s.updates, rfl, rfl, by omega, rfl, hs.exact⟩
  · rw [if_pos ⟨hs.enabled, hz⟩]
    have hk : (UInt16.ofNat n).toNat = n := mod_eq_of_lt (hn.trans_lt s.pool.allocated.toNat_lt)
    have hdec := allocatedCreditDecNonAtomic_spec s.pool (UInt16.ofNat n) (by omega)
    have hsub : (allocatedCreditDecNonAtomic s.pool (UInt16.ofNat n)).1.allocated.toNat
        = s.pool.allocated.toNat - n := by
      rw [hdec]
      exact (toNat_sub_of_toNat_le (by omega)).trans (by rw [hk])
    refine ⟨_, _, rfl, (congrArg CreditPool.idle hdec :), hsub,
      (congrArg CreditPool.capacity hdec :), forall_mem_cons.mpr ⟨?_, hs.exact⟩⟩
    show ((allocatedCreditDecNonAtomic s.pool (UInt16.ofNat n)).1.allocated.toNat : ℤ)
      = s.pool.allocated.toNat + -((UInt16.ofNat n).toNat : ℤ)
    omega

/-- **Arrivals** use up one credit each. -/
theorem umqUbPollRx_spec (hs : s.Inv cfg) (qs : List ι)
    (hin : qs.length ≤ s.rxInUse) (hcount : ∀ x, qs.count x ≤ s.held x) :
    let t := umqUbPollRx plainTables s qs
    t.Inv cfg ∧ (∀ x, t.held x = s.held x - qs.count x)
      ∧ (∀ x, (t.sub x).live = (s.sub x).live) := by
  have hlen : qs.length ≤ s.pool.allocated.toNat := by
    rw [hs.allocated, ← sum_count_eq_length]
    exact Finset.sum_le_sum (fun x _ => hcount x)
  have hfit : ∀ x, (s.sub x).rxConsumed.toNat + qs.count x
      ≤ (s.sub x).fc.allocatedSuccess.toNat := by
    intro x
    have hx := hcount x
    have hle := hs.consumed_le x
    rw [held_eq hle] at hx
    omega
  obtain ⟨pool, updates, hpool, hidle, halloc, hcap, hex⟩ := hs.allocatedCreditDec hlen
  obtain ⟨sub, updates', hsub, hall, hup⟩ :=
    foldl_rxConsumedInc_spec qs { s with pool := pool, updates := updates } hfit hex
  have ht : umqUbPollRx plainTables s qs = { s with
      pool := pool, sub := sub, updates := updates', rxInUse := s.rxInUse - qs.length } := by
    unfold umqUbPollRx
    rw [hpool]
    dsimp only
    rw [hsub]
  rw [ht]
  have hle : ∀ x, (sub x).rxConsumed.toNat ≤ (sub x).fc.allocatedSuccess.toNat := by
    intro x
    rw [(hall x).1, (hall x).2.2]
    exact hfit x
  have hheld : ∀ x, (sub x).unconsumed.toNat = s.held x - qs.count x := by
    intro x
    obtain ⟨hfc, -, hcons⟩ := hall x
    have hhe := held_eq (hs.consumed_le x)
    refine (held_eq (s := { s with sub := sub }) (hle x)).trans ?_
    dsimp only at hfc hcons ⊢
    rw [hfc]
    omega
  have hsum : ∑ x, (s.held x - qs.count x) = (∑ x, s.held x) - qs.length := by
    rw [← sum_count_eq_length qs]
    exact Finset.sum_tsub_distrib _ fun x _ => hcount x
  refine ⟨?_, hheld, fun x => (hall x).2.1⟩
  refine
    { enabled := hs.enabled
      subEnabled := fun x => (hall x).1 ▸ hs.subEnabled x
      capacity := hcap ▸ hs.capacity
      noLocal := fun x => (hall x).1 ▸ hs.noLocal x
      consumed_le := hle
      success_le := fun x => (hall x).1 ▸ hs.success_le x
      dead := fun x hx => (hheld x).trans <| by
        rw [hs.dead x ((hall x).2.1.symm.trans hx), Nat.zero_sub]
      allocated := by
        refine halloc.trans (Eq.trans ?_ (Finset.sum_congr rfl fun x _ => hheld x).symm)
        rw [hsum, ← hs.allocated]
      inUse_le := (sub_le ..).trans hs.inUse_le
      filling := fun hd => ?_
      filled := fun hd => ?_
      exact := hup }
  · obtain ⟨hi, hal, hc⟩ := hs.filling hd
    dsimp only
    rw [hidle]
    omega
  · have hfl := hs.filled hd
    dsimp only
    rw [hidle]
    omega

/-! ## Posting buffers -/

omit [DecidableEq ι] in
/-- Adding free credits that are covered by buffers keeps the books. -/
theorem SharedRq.Inv.recharged {pool : CreditPool} {prefillRqeCnt : UInt32}
    {prefillDone : Bool} {rxInUse : ℕ} {updates : List (CounterUpdate ι)} (hs : s.Inv cfg)
    (hcap : pool.capacity = s.pool.capacity) (hal : pool.allocated = s.pool.allocated)
    (hin : rxInUse ≤ (umqUbPjfrDepth cfg).toNat)
    (hfilling : prefillDone = false → pool.idle.toNat = 0 ∧ pool.allocated.toNat = 0
      ∧ prefillRqeCnt.toNat = rxInUse)
    (hfilled : prefillDone = true → pool.idle.toNat + pool.allocated.toNat
      + (umqUbPjfrDepth cfg).toNat = rxInUse + cfg.rxDepth.toNat)
    (hex : ∀ u ∈ updates, u.Exact) :
    SharedRq.Inv cfg { s with
      pool := pool, prefillRqeCnt := prefillRqeCnt, prefillDone := prefillDone
      rxInUse := rxInUse, updates := updates } :=
  { hs with
    capacity := hcap ▸ hs.capacity
    allocated := hal ▸ hs.allocated
    inUse_le := hin
    filling := hfilling
    filled := hfilled
    exact := hex }

omit [DecidableEq ι] in
/-- **Posting buffers.** While the queue is being filled nothing is
granted; the buffer that fills it brings all its credits. -/
theorem umqUbRqePostedCntInc_inv (hs : s.Inv cfg) (count : UInt16)
    (hroom : s.rxInUse + count.toNat ≤ (umqUbPjfrDepth cfg).toNat) :
    SharedRq.Inv cfg { umqUbRqePostedCntInc plainTables cfg s count with
      rxInUse := s.rxInUse + count.toNat } := by
  have hdepth : cfg.rxDepth.toUInt16.toNat = cfg.rxDepth.toNat := by
    have := cfg.rxDepth_le
    unfold uint16Max at this
    rw [UInt32.toNat_toUInt16]
    omega
  have hd16 := cfg.rxDepth_le
  cases hd : s.prefillDone with
  | true =>
    have hfl := hs.filled hd
    obtain ⟨pool, updates, hpost, hi, ha, hc, hex⟩ :=
      umqUbSharedCreditRecharge_spec count hs.enabled (by omega) hs.exact
    unfold umqUbRqePostedCntInc
    rw [if_pos hd, hpost]
    refine hs.recharged hc ha hroom (fun hnot => absurd (hd.symm.trans hnot) (by simp))
      (fun _ => ?_) hex
    rw [hi, ha]
    omega
  | false =>
    obtain ⟨hi0, ha0, hcnt⟩ := hs.filling hd
    have htotal : (s.prefillRqeCnt + count.toUInt32).toNat = s.rxInUse + count.toNat := by
      have hlt := (umqUbPjfrDepth cfg).toNat_lt
      rw [UInt32.toNat_add, UInt16.toNat_toUInt32, hcnt]
      exact mod_eq_of_lt (by omega)
    unfold umqUbRqePostedCntInc
    rw [if_neg (by simp [hd])]
    by_cases hfull : s.prefillRqeCnt + count.toUInt32 ≥ umqUbPjfrDepth cfg
    · have hge : (umqUbPjfrDepth cfg).toNat ≤ s.rxInUse + count.toNat := by
        rw [← htotal]
        exact UInt32.le_iff_toNat_le.mp hfull
      obtain ⟨pool, updates, hpost, hi, ha, hc, hex⟩ :=
        umqUbSharedCreditRecharge_spec
          (s := { s with prefillRqeCnt := s.prefillRqeCnt + count.toUInt32 })
          cfg.rxDepth.toUInt16 hs.enabled
          (by show s.pool.idle.toNat + _ ≤ _; omega) hs.exact
      rw [if_pos hfull, hpost]
      refine hs.recharged hc ha hroom (fun hnot => absurd hnot (by simp)) (fun _ => ?_) hex
      dsimp only at hi ha ⊢
      rw [ha]
      omega
    · rw [if_neg hfull]
      exact hs.recharged rfl rfl hroom (fun _ => ⟨hi0, ha0, htotal⟩)
        (fun hyes => absurd (hd.symm.trans hyes) (by simp)) hs.exact

/-! ## Steps and runs -/

/-- **One step keeps the books**, as long as the grants recorded after it
fit the 64-bit counters; what happens to other sub queues does not concern
`b`. -/
theorem rqStep_spec {s t : SharedRq ι} (hs : s.Inv cfg)
    (h : rqStep plainTables cfg s a = some t) (hbound : ∀ x, t.granted x < 2 ^ 64) :
    t.Inv cfg ∧ ∀ b, a.Avoids b → t.held b = s.held b ∧ (t.sub b).live = (s.sub b).live := by
  have hmoves {t : SharedRq ι} {q : ι} {v : ℕ} (hm : s.Moves cfg t q v) : t.Inv cfg ∧
      ∀ b, q ≠ b → t.held b = s.held b ∧ (t.sub b).live = (s.sub b).live :=
    ⟨hm.inv, fun b hb => ⟨hm.held ▸ update_of_ne hb.symm .., hm.rest.live b⟩⟩
  cases a with
  | postRx count =>
    obtain ⟨hroom, rfl⟩ := guard_eq_some.mp h
    refine ⟨umqUbRqePostedCntInc_inv hs count hroom, fun b _ => ?_⟩
    unfold held
    rw [(umqUbRqePostedCntInc_frame plainTables cfg s count).2]
    exact ⟨rfl, rfl⟩
  | reqHandle q imm att =>
    obtain ⟨⟨hlive, hfail⟩, rfl⟩ := guard_eq_some.mp h
    have hspec := umqUbSharedCreditReqHandle_spec hs q imm att hlive hfail (hbound q)
    cases hmsg : (umqUbSharedCreditReqHandle plainTables s q imm att).2.2 with
    | none =>
      rw [hmsg] at hspec
      exact hmoves hspec
    | some msg =>
      rw [hmsg] at hspec
      exact hmoves hspec.1
  | returnReqHandle q imm att =>
    obtain ⟨⟨-, hfail⟩, rfl⟩ := guard_eq_some.mp h
    exact hmoves (umqUbSharedCreditReturnReqHandle_moves hs q imm att hfail)
  | pollFcTx q att =>
    obtain ⟨⟨-, hb, hfail⟩, rfl⟩ := guard_eq_some.mp h
    exact hmoves (umqUbPollFcTx_moves hs q att hb hfail)
  | pollRx qs =>
    obtain ⟨⟨hin, hcount⟩, rfl⟩ := guard_eq_some.mp h
    obtain ⟨hinv, hheld, hlive⟩ := umqUbPollRx_spec hs qs hin (count_le_of_forall_mem hcount)
    refine ⟨hinv, fun b hb => ⟨?_, hlive b⟩⟩
    rw [hheld b, count_eq_zero_of_not_mem hb]
    rfl
  | cleanUp q =>
    obtain ⟨-, rfl⟩ := guard_eq_some.mp h
    have hm := umqUbCreditCleanUp_moves hs q
    refine ⟨hm.inv.kill q hm.held_self, fun b hb => ?_⟩
    have hsame := (hmoves hm).2 b hb
    unfold held at hsame ⊢
    dsimp only
    rwa [update_of_ne hb.symm]

omit [DecidableEq ι] in
theorem SharedRq.inv_init (cfg : RqConfig) : (init cfg : SharedRq ι).Inv cfg := by
  have hd := cfg.rxDepth_le
  unfold uint16Max at hd
  have hz : ∀ x, (init cfg : SharedRq ι).held x = 0 := by
    intro x
    show ((0 : UInt64) - 0).toNat = 0
    decide
  exact
    { enabled := rfl
      subEnabled := fun _ => rfl
      capacity := by
        show cfg.rxDepth.toUInt16.toNat = cfg.rxDepth.toNat
        rw [UInt32.toNat_toUInt16]
        omega
      noLocal := fun _ => rfl
      consumed_le := fun _ => le_rfl
      success_le := fun _ => le_rfl
      dead := fun x _ => hz x
      allocated := by
        rw [Finset.sum_eq_zero (fun x _ => hz x)]
        rfl
      inUse_le := zero_le _
      filling := fun _ => ⟨rfl, rfl, rfl⟩
      filled := fun h => absurd h (by simp [init])
      exact := nofun }

/-- **Every run keeps the books** while no sub queue has been granted 2^64
credits. -/
theorem SharedRq.inv_of_run {as : List (RqAction ι)}
    (h : run (rqStep plainTables cfg) (init cfg) as = some s)
    (hbound : ∀ x, s.granted x < 2 ^ 64) : s.Inv cfg := by
  refine run_invariant (P := fun s : SharedRq ι => (∀ x, s.granted x < 2 ^ 64) → s.Inv cfg)
    ?_ (fun _ => inv_init cfg) h hbound
  intro s a t hs hstep hb
  refine (rqStep_spec (hs fun x => ?_) hstep hb).1
  exact (rqStep_granted_le hstep x).trans_lt (hb x)

/-- **What the books say to an observer**: the handed-out credits of the
pool are those the live sub queues account for, the pool is within its
capacity, and no counter update was dropped or cut off. -/
structure SharedRq.BooksAgree (s : SharedRq ι) : Prop where
  allocated : s.pool.allocated.toNat = ∑ q with (s.sub q).live = true, s.held q
  within : s.pool.idle.toNat + s.pool.allocated.toNat ≤ s.pool.capacity.toNat
  exact : ∀ u ∈ s.updates, u.Exact

/-- **The shared pool, over whole runs.** On either table, in every state
that any sequence of posts, requests, returns, error completions, arrivals
and clean-ups leads to, the books agree – as long as no sub queue has been
granted 2^64 credits. -/
theorem booksAgree_of_rqRun (useAtomicWindow : Bool) (cfg : RqConfig)
    (as : List (RqAction ι × (ℕ → ℕ))) (s : SharedRq ι)
    (h : rqRun useAtomicWindow cfg (SharedRq.init cfg) as = some s)
    (hbound : ∀ q, s.granted q < 2 ^ 64) : s.BooksAgree := by
  rw [rqRun_eq] at h
  have hinv := inv_of_run h hbound
  refine ⟨?_, ?_, hinv.exact⟩
  · rw [hinv.allocated, Finset.sum_filter]
    refine Finset.sum_congr rfl fun q _ => ?_
    -- a destroyed sub queue accounts for nothing
    cases hq : (s.sub q).live with
    | true => rw [if_pos rfl]
    | false => exact hinv.dead q hq
  · rw [hinv.capacity]
    exact hinv.pool_le

end Runs

/-- A request for `n` credits. -/
def creditRequest (n : BitVec 10) : FcImm := ⟨.creditReq, n, 0⟩

/-- A queue of two buffers. -/
def twoBuffers : RqConfig := ⟨2, 1, by decide⟩

/-- Two sub queues: a grant that is used, a partial grant that cannot be
delivered, a grant that is returned, and a clean-up. -/
def twoSubsRun : List (RqAction (Fin 2) × (ℕ → ℕ)) :=
  let q : Fin 2 := ⟨0, Nat.two_pos⟩
  let r : Fin 2 := ⟨1, Nat.one_lt_two⟩
  [(.postRx 2, fun _ => 0), (.reqHandle q (creditRequest 1) {}, fun _ => 3),
    (.reqHandle r (creditRequest 5) { accepted := false }, fun i => i),
    (.pollRx [q], fun _ => 0),
    (.reqHandle r (creditRequest 5) {}, fun _ => 1),
    (.returnReqHandle r ⟨.creditReturnReq, 1, 0⟩ {}, fun _ => 0),
    (.cleanUp r, fun _ => 2)]

theorem booksAgree_twoSubsRun :
    ∃ s, rqRun true twoBuffers (SharedRq.init twoBuffers) twoSubsRun = some s
      ∧ (∀ q, s.granted q < 2 ^ 64) ∧ s.BooksAgree :=
  ⟨_, rfl, by decide, booksAgree_of_rqRun true twoBuffers twoSubsRun _ rfl (by decide)⟩

/-- A queue of one buffer. -/
def oneBuffer : RqConfig := ⟨1, 1, by decide⟩

/-- A filled queue with one live sub queue: free and handed-out credits,
buffers in use, and the two 64-bit counters. -/
structure SharedRq.At (s : SharedRq Unit) (idle allocated inUse : ℕ)
    (success consumed : UInt64) : Prop where
  idle : s.pool.idle.toNat = idle
  allocated : s.pool.allocated.toNat = allocated
  enabled : s.enabled = true
  prefillDone : s.prefillDone = true
  rxInUse : s.rxInUse = inUse
  live : (s.sub ()).live = true
  success : (s.sub ()).fc.allocatedSuccess = success
  consumed : (s.sub ()).rxConsumed = consumed

namespace SharedRq.At

/-- What is taken from the pool is the one credit, whatever is asked for. -/
theorem dec_one (h : s.At 1 0 1 x x) {imm : FcImm} (hw : 1 ≤ imm.window.toNat) :
    ∃ p, availableCreditDecNonAtomic s.pool (ofWindow imm.window) = (p, 1)
      ∧ p.idle.toNat = 0 ∧ p.allocated.toNat = 1 := by
  obtain ⟨hr, hi, ha, -⟩ := availableCreditDecNonAtomic_spec s.pool (ofWindow imm.window)
    (by rw [h.idle, h.allocated]; decide)
  rw [toNat_ofWindow, h.idle, min_eq_right hw] at hr hi ha
  rw [h.allocated] at ha
  exact ⟨_, Prod.ext rfl (UInt16.toNat_inj.mp hr), hi, ha⟩

theorem grantOne (h : s.At 1 0 1 x x) (imm : FcImm) (hw : 1 ≤ imm.window.toNat) :
    let r := umqUbSharedCreditReqHandle plainTables s () imm {}
    r.1.At 0 1 1 (x + 1) x ∧ ∃ msg, r.2.2 = some msg ∧ msg.imm.window = 1 := by
  obtain ⟨p, hdec, hi, ha⟩ := h.dec_one hw
  have hdec : plainTables.pool.availableCreditDec s.pool _ = (p, 1) := hdec
  unfold umqUbSharedCreditReqHandle availableCreditDec
  dsimp only
  rw [hdec]
  refine ⟨⟨hi, ha, h.enabled, h.prefillDone, h.rxInUse, h.live, ?_, h.consumed⟩, _, rfl, rfl⟩
  show (s.sub ()).fc.allocatedSuccess + 1 = x + 1
  rw [h.success]

theorem held_one {i a u : ℕ} (h : s.At i a u (x + 1) x) : s.held () = 1 := by
  unfold held SubQueue.unconsumed
  rw [h.success, h.consumed]
  have hdiff : x + 1 - x = 1 := by grind
  rw [hdiff]
  rfl

theorem arrive (h : s.At 0 1 1 (x + 1) x) :
    (umqUbPollRx plainTables s [()]).At 0 0 0 (x + 1) (x + 1) := by
  have hdec := allocatedCreditDecNonAtomic_spec s.pool 1 (by rw [h.allocated]; decide)
  have hsub := toNat_sub_of_toNat_le (a := s.pool.allocated) (b := 1) (by rw [h.allocated]; decide)
  unfold umqUbPollRx
  rw [if_pos ⟨h.enabled, by decide⟩]
  refine ⟨?_, ?_, h.enabled, h.prefillDone, ?_, h.live, h.success, ?_⟩
  · show (allocatedCreditDecNonAtomic s.pool 1).1.idle.toNat = 0
    rw [hdec]
    exact h.idle
  · show (allocatedCreditDecNonAtomic s.pool 1).1.allocated.toNat = 0
    rw [hdec]
    show (s.pool.allocated - 1).toNat = 0
    rw [hsub, h.allocated]
    rfl
  · show s.rxInUse - 1 = 0
    rw [h.rxInUse]
  · show (s.sub ()).rxConsumed + 1 = x + 1
    rw [h.consumed]

theorem arrive_step (h : s.At 0 1 1 (x + 1) x) :
    rqStep plainTables oneBuffer s (.pollRx [()]) = some (umqUbPollRx plainTables s [()]) := by
  have hguard : [()].length ≤ s.rxInUse ∧ ∀ q ∈ [()], [()].count q ≤ s.held q :=
    ⟨h.rxInUse.ge, fun _ _ => h.held_one.ge⟩
  exact if_pos hguard

theorem post (h : s.At 0 0 0 x x) :
    ∃ t, rqStep plainTables oneBuffer s (.postRx 1) = some t ∧ t.At 1 0 1 x x := by
  refine ⟨_, if_pos (by rw [h.rxInUse]; decide), ?_⟩
  have hpost : umqUbRqePostedCntInc plainTables oneBuffer s 1
      = s.availableCreditInc plainTables 1 := by
    unfold umqUbRqePostedCntInc umqUbSharedCreditRecharge
    rw [if_pos h.prefillDone, if_neg (by simp [h.enabled])]
  have hfit : s.pool.idle.toNat + (1 : UInt16).toNat ≤ uint16Max := by
    rw [h.idle]
    decide
  obtain ⟨hi, ha, -⟩ := availableCreditIncNonAtomic_spec s.pool 1 hfit
  have hsum := toNat_add_of_le hfit
  rw [hpost]
  refine { h with idle := ?_, allocated := ?_, rxInUse := ?_ }
  · show (availableCreditIncNonAtomic s.pool 1).1.idle.toNat = 1
    rw [hi, hsum, h.idle]
    rfl
  · show (availableCreditIncNonAtomic s.pool 1).1.allocated.toNat = 0
    rw [ha]
    exact h.allocated
  · show s.rxInUse + (1 : UInt16).toNat = 1
    rw [h.rxInUse]
    rfl

/-- With both counters at their last value, a grant that cannot be
delivered wraps `ALLOCATED_SUCCESS` around, and its rollback is cut off at
zero. -/
theorem wrap (hx : x = 18446744073709551615) (h : s.At 1 0 1 x x) (imm : FcImm)
    (hw : 1 ≤ imm.window.toNat) :
    let t := (umqUbSharedCreditReqHandle plainTables s () imm { accepted := false }).1
    t.pool.allocated.toNat = 0 ∧ (t.sub ()).live = true ∧ t.held () = 1 := by
  obtain ⟨p, hdec, hi, ha⟩ := h.dec_one hw
  have hdec : plainTables.pool.availableCreditDec s.pool _ = (p, 1) := hdec
  have hback := availableCreditReturnNonAtomic_spec p 1 (by rw [ha]; decide) (by rw [hi]; decide)
  unfold umqUbSharedCreditReqHandle availableCreditDec
  dsimp only
  rw [hdec]
  refine ⟨?_, h.live, ?_⟩
  · show (availableCreditReturnNonAtomic p 1).1.allocated.toNat = 0
    rw [hback]
    show (p.allocated - 1).toNat = 0
    rw [toNat_sub_of_toNat_le (by rw [ha]; decide), ha]
    rfl
  · show ((counterDecNonAtomicU64 ((s.sub ()).fc.allocatedSuccess + 1) 1).1
      - (s.sub ()).rxConsumed).toNat = 1
    rw [h.success, h.consumed, hx]
    decide

end SharedRq.At

/-- One credit goes around: granted, used, and its buffer posted again. -/
def wrapRound : List (RqAction Unit) :=
  [.reqHandle () (creditRequest 1) {}, .pollRx [()], .postRx 1]

theorem add_one_add_ofNat (x : UInt64) (n : ℕ) :
    x + 1 + UInt64.ofNat n = x + UInt64.ofNat (n + 1) := by
  rw [UInt64.ofNat_add]
  show x + 1 + _ = x + (_ + 1)
  grind

/-- `n` rounds move both 64-bit counters on by `n`, and nothing else. -/
theorem SharedRq.At.rounds (n : ℕ) (h : s.At 1 0 1 x x) :
    ∃ t, run (rqStep plainTables oneBuffer) s (replicate n wrapRound).flatten = some t
      ∧ t.At 1 0 1 (x + UInt64.ofNat n) (x + UInt64.ofNat n) := by
  induction n generalizing s x with
  | zero =>
    refine ⟨s, rfl, ?_⟩
    have hz : x + UInt64.ofNat 0 = x := by grind
    rw [hz]
    exact h
  | succ n ih =>
    obtain ⟨h₁, -⟩ := h.grantOne (creditRequest 1) (by decide)
    have h₂ := h₁.arrive
    obtain ⟨t₃, hstep₃, h₃⟩ := h₂.post
    obtain ⟨t, hrun, ht⟩ := ih h₃
    have hstep₁ : rqStep plainTables oneBuffer s (.reqHandle () (creditRequest 1) {}) = some _ :=
      if_pos ⟨h.live, zero_le _⟩
    have hround : run (rqStep plainTables oneBuffer) s wrapRound = some t₃ := by
      unfold wrapRound
      rw [run_cons, hstep₁, Option.bind_some, run_cons, h₁.arrive_step, Option.bind_some, run_cons,
        hstep₃]
      rfl
    refine ⟨t, ?_, ?_⟩
    · rw [replicate_succ]
      exact run_trans hround hrun
    · rw [← add_one_add_ofNat]
      exact ht

/-- The run: fill the queue, let 2^64 - 1 credits go around, and then fail
to deliver a grant. -/
def wrapRun : List (RqAction Unit) := [.postRx 1] ++ (List.replicate (2 ^ 64 - 1) wrapRound).flatten
    ++ [.reqHandle () (creditRequest 1) { accepted := false }]

/-- **The books can disagree** once a sub queue has been granted 2^64
credits: at the end of this run the pool has handed out nothing, and the
counters of the one sub queue differ by one. -/
theorem exists_run_books_differ : ∃ s, rqRun false oneBuffer (SharedRq.init oneBuffer)
        (wrapRun.map (fun a => (a, fun _ => 0))) = some s
      ∧ ¬s.BooksAgree := by
  rw [rqRun_eq, map_map]
  show ∃ s, run _ _ (wrapRun.map id) = some s ∧ _
  rw [map_id]
  obtain ⟨s₀, hs₀, hat₀⟩ : ∃ s, rqStep plainTables oneBuffer
      (init oneBuffer) (.postRx 1) = some s ∧ s.At 1 0 1 0 0 :=
    ⟨_, rfl, ⟨rfl, rfl, rfl, rfl, rfl, rfl, rfl, rfl⟩⟩
  obtain ⟨s₁, hs₁, hat₁⟩ := hat₀.rounds (2 ^ 64 - 1)
  obtain ⟨hzero, hlive, hone⟩ := hat₁.wrap (by decide) (creditRequest 1) (by decide)
  have hs₂ : rqStep plainTables oneBuffer s₁
      (.reqHandle () (creditRequest 1) { accepted := false }) = some _ :=
    if_pos ⟨hat₁.live, zero_le _⟩
  refine ⟨_, run_concat (run_trans (run_cons_eq_some.mpr ⟨s₀, hs₀, rfl⟩) hs₁) hs₂, fun hbooks => ?_⟩
  have hsum := hbooks.allocated
  rw [hzero, Finset.sum_filter] at hsum
  exact absurd (hsum.trans ((if_pos hlive).trans hone)) (by decide)

end Umq
