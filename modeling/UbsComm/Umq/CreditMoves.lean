import UbsComm.Umq.CreditPool
import Mathlib.Algebra.Order.BigOperators.Group.Finset
import Mathlib.Tactic.Ring

/-!
# Moves of credits that keep the books

The counters of the receive side are tied together by one invariant,
`SharedRq.Inv`: the credits the pool calls handed out are the sum of what
the peers of the sub queues have not used, free and handed-out credits
together are what the posted buffers are worth, and every counter update
so far did what its caller asked for.

A handler changes the credits of one sub queue at a time. `SharedRq.Moves`
says that it does so without disturbing the books – the peer now holds a
given number of credits, and the free credits make up for the difference –
and moves compose (`SharedRq.Moves.trans`). There are only three
elementary ones: a grant (`SharedRq.Inv.grant`), taking credits back
(`SharedRq.Inv.takeBack`) and a change that concerns no credit
(`SharedRq.Inv.setFc`). Each handler is a sequence of these, so its
specification is read off the sequence, rollbacks included.
-/

namespace Umq

open Function SharedRq SendAttempt Nat List UInt64 Finset UInt16

variable {ι : Type} [DecidableEq ι] {n : UInt16}

/-! ## What the plain operations do, as numbers -/

section

variable (p : CreditPool) (n : UInt16)

theorem counterDecNonAtomicU16_of_le (type : CreditStatU16) (h : n.toNat ≤ (p.statU16 type).toNat) :
    counterDecNonAtomicU16 p n type = (p.setStatU16 type (p.statU16 type - n), n) := by
  unfold counterDecNonAtomicU16
  have hnot : ¬p.statU16 type < n := by
    rw [UInt16.lt_iff_toNat_lt]
    omega
  rw [if_neg hnot]

theorem counterIncNonAtomicU16_of_le (type : CreditStatU16)
    (h : (p.statU16 type).toNat + n.toNat ≤ uint16Max) :
    counterIncNonAtomicU16 p n type
      = (p.setStatU16 type (p.statU16 type + n), p.statU16 type + n) := by
  unfold counterIncNonAtomicU16
  rw [if_neg (not_lt.mpr h)]

theorem toNat_sub_of_toNat_le {a b : UInt16} (h : b.toNat ≤ a.toNat) :
    (a - b).toNat = a.toNat - b.toNat :=
  UInt16.toNat_sub_of_le a b (le_iff_toNat_le.mpr h)

theorem toNat_add_of_le {a b : UInt16} (h : a.toNat + b.toNat ≤ uint16Max) :
    (a + b).toNat = a.toNat + b.toNat := by
  rw [UInt16.toNat_add]
  unfold uint16Max at h
  omega

theorem availableCreditIncNonAtomic_spec (h : p.idle.toNat + n.toNat ≤ uint16Max) :
    let a := (availableCreditIncNonAtomic p n).1
    a.idle = p.idle + n ∧ a.allocated = p.allocated ∧ a.capacity = p.capacity := by
  unfold availableCreditIncNonAtomic
  rw [counterIncNonAtomicU16_of_le p n .idle h]
  by_cases hsame : p.statU16 .idle + n = p.idle
  · rw [if_pos hsame]
    exact ⟨rfl, rfl, rfl⟩
  · rw [if_neg hsame]
    exact ⟨rfl, rfl, rfl⟩

theorem availableCreditReturnNonAtomic_spec (ha : n.toNat ≤ p.allocated.toNat)
    (hi : p.idle.toNat + n.toNat ≤ uint16Max) :
    (availableCreditReturnNonAtomic p n).1
      = { p with idle := p.idle + n, allocated := p.allocated - n } := by
  unfold availableCreditReturnNonAtomic
  rw [counterDecNonAtomicU16_of_le p n .allocated ha]
  exact congrArg Prod.fst (counterIncNonAtomicU16_of_le
    (p.setStatU16 .allocated (p.allocated - n)) n .idle hi)

end

/-- What is taken from the free credits is added to the handed-out ones. -/
theorem availableCreditDecNonAtomic_of_dec {p p' : CreditPool} {r : UInt16}
    (hdec : counterDecNonAtomicU16 p n .idle = (p', r))
    (h : p'.allocated.toNat + r.toNat ≤ uint16Max) : let a := availableCreditDecNonAtomic p n
    a.2 = r ∧ a.1.idle = p'.idle ∧ a.1.allocated = p'.allocated + r
      ∧ a.1.capacity = p'.capacity := by
  have hinc := counterIncNonAtomicU16_of_le p' r .allocated h
  unfold availableCreditDecNonAtomic
  simp only [hdec, hinc, true_and]
  exact ⟨rfl, rfl, rfl⟩

/-- A grant moves the smaller of the request and the free credits. -/
theorem availableCreditDecNonAtomic_spec (p : CreditPool) (n : UInt16)
    (h : p.idle.toNat + p.allocated.toNat ≤ uint16Max) : let a := availableCreditDecNonAtomic p n
    a.2.toNat = min n.toNat p.idle.toNat ∧ a.1.idle.toNat = p.idle.toNat - min n.toNat p.idle.toNat
      ∧ a.1.allocated.toNat = p.allocated.toNat + min n.toNat p.idle.toNat
      ∧ a.1.capacity = p.capacity := by
  dsimp only
  by_cases hlt : p.idle < n
  · -- the pool is short: everything it has is granted
    have hnat : p.idle.toNat < n.toNat := lt_iff_toNat_lt.mp hlt
    have hmin : min n.toNat p.idle.toNat = p.idle.toNat := by omega
    have hdec : counterDecNonAtomicU16 p n .idle = (p.setStatU16 .idle 0, p.idle) := if_pos hlt
    have hfit : p.allocated.toNat + p.idle.toNat ≤ uint16Max := by omega
    obtain ⟨hr, hi, ha, hc⟩ := availableCreditDecNonAtomic_of_dec hdec hfit
    rw [hr, hi, ha, hc, hmin, Nat.sub_self]
    exact ⟨rfl, rfl, toNat_add_of_le hfit, rfl⟩
  · have hnat : n.toNat ≤ p.idle.toNat := by
      rw [UInt16.lt_iff_toNat_lt] at hlt
      omega
    have hmin : min n.toNat p.idle.toNat = n.toNat := by omega
    have hfit : p.allocated.toNat + n.toNat ≤ uint16Max := by omega
    obtain ⟨hr, hi, ha, hc⟩ := availableCreditDecNonAtomic_of_dec
      (counterDecNonAtomicU16_of_le p n .idle hnat) hfit
    rw [hr, hi, ha, hc, hmin]
    exact ⟨rfl, toNat_sub_of_toNat_le hnat, toNat_add_of_le hfit, rfl⟩

theorem allocatedCreditDecNonAtomic_spec (p : CreditPool) (n : UInt16)
    (h : n.toNat ≤ p.allocated.toNat) :
    (allocatedCreditDecNonAtomic p n).1 = { p with allocated := p.allocated - n } := by
  unfold allocatedCreditDecNonAtomic
  rw [counterDecNonAtomicU16_of_le p n .allocated h]
  rfl

theorem localRxAllocatedDecNonAtomic_spec (fc : FlowControl) (n : UInt16)
    (h : n.toNat ≤ fc.allocatedSuccess.toNat) :
    (localRxAllocatedDecNonAtomic fc n).1
      = { fc with allocatedSuccess := fc.allocatedSuccess - n.toUInt64 } := by
  unfold localRxAllocatedDecNonAtomic counterDecNonAtomicU64
  have hge : fc.allocatedSuccess ≥ n.toUInt64 := by
    show n.toUInt64 ≤ _
    rw [UInt64.le_iff_toNat_le]
    simpa using h
  rw [if_pos hge]

theorem toNat_sub_toUInt64 {a : UInt64} (h : n.toNat ≤ a.toNat) :
    (a - n.toUInt64).toNat = a.toNat - n.toNat := by
  rw [UInt64.toNat_sub_of_le]
  · simp
  · rw [UInt64.le_iff_toNat_le]
    simpa using h

/-! ## The invariant -/

section Invariant

variable [Fintype ι] {s t : SharedRq ι} {cfg : RqConfig} {v : ℕ} {q : ι}

theorem sum_update_add (f : ι → ℕ) (q : ι) (v : ℕ) :
    (∑ x, update f q v x) + f q = (∑ x, f x) + v := by
  rw [sum_update_of_mem (mem_univ q), ← sum_sdiff (subset_univ {q}), Finset.sum_singleton]
  ring

/-- **The books of the receive side agree.** The equation `filled` is the
one that bounds the pool: of the `rxInUse` buffers posted, all but
`rqe_post_factor * rx_depth - rx_depth` are worth a credit. -/
structure SharedRq.Inv (cfg : RqConfig) (s : SharedRq ι) : Prop where
  enabled : s.enabled = true
  subEnabled : ∀ q, (s.sub q).fc.enabled = true
  capacity : s.pool.capacity.toNat = cfg.rxDepth.toNat
  noLocal : ∀ q, (s.sub q).fc.localRxPosted = 0
  consumed_le : ∀ q, (s.sub q).rxConsumed.toNat ≤ (s.sub q).fc.allocatedSuccess.toNat
  success_le : ∀ q, (s.sub q).fc.allocatedSuccess.toNat ≤ s.granted q
  dead : ∀ q, (s.sub q).live = false → s.held q = 0
  allocated : s.pool.allocated.toNat = ∑ q, s.held q
  inUse_le : s.rxInUse ≤ (umqUbPjfrDepth cfg).toNat
  filling : s.prefillDone = false →
    s.pool.idle.toNat = 0 ∧ s.pool.allocated.toNat = 0 ∧ s.prefillRqeCnt.toNat = s.rxInUse
  filled : s.prefillDone = true →
    s.pool.idle.toNat + s.pool.allocated.toNat + (umqUbPjfrDepth cfg).toNat
      = s.rxInUse + cfg.rxDepth.toNat
  exact : ∀ u ∈ s.updates, u.Exact

omit [DecidableEq ι] [Fintype ι] in
/-- Without wrap-around the difference the code takes is the difference. -/
theorem SharedRq.held_eq {s : SharedRq ι} {q : ι}
    (h : (s.sub q).rxConsumed.toNat ≤ (s.sub q).fc.allocatedSuccess.toNat) :
    s.held q = (s.sub q).fc.allocatedSuccess.toNat - (s.sub q).rxConsumed.toNat :=
  UInt64.toNat_sub_of_le _ _ (le_iff_toNat_le.mpr h)

namespace SharedRq.Inv

variable {cfg : RqConfig} {s : SharedRq ι}

omit [DecidableEq ι]

/-- **The pool stays within its capacity.** -/
theorem pool_le (h : s.Inv cfg) :
    s.pool.idle.toNat + s.pool.allocated.toNat ≤ cfg.rxDepth.toNat := by
  cases hd : s.prefillDone with
  | false =>
    obtain ⟨hi, ha, -⟩ := h.filling hd
    omega
  | true =>
    have := h.filled hd
    have := h.inUse_le
    omega

theorem pool_le_uint16Max (h : s.Inv cfg) :
    s.pool.idle.toNat + s.pool.allocated.toNat ≤ uint16Max :=
  h.pool_le.trans cfg.rxDepth_le

theorem held_le (h : s.Inv cfg) (q : ι) : s.held q ≤ s.pool.allocated.toNat := by
  rw [h.allocated]
  exact single_le_sum (fun x _ => zero_le (s.held x)) (mem_univ q)

end SharedRq.Inv

/-- What a handler leaves alone: everything but the pool, the counters of
the sub queues and the ghost records. -/
structure SharedRq.SameRest (s t : SharedRq ι) : Prop where
  enabled : t.enabled = s.enabled
  prefillRqeCnt : t.prefillRqeCnt = s.prefillRqeCnt
  prefillDone : t.prefillDone = s.prefillDone
  rxInUse : t.rxInUse = s.rxInUse
  live : ∀ q, (t.sub q).live = (s.sub q).live

omit [DecidableEq ι] [Fintype ι] in
theorem SharedRq.SameRest.refl (s : SharedRq ι) : s.SameRest s := ⟨rfl, rfl, rfl, rfl, fun _ => rfl⟩

omit [DecidableEq ι] [Fintype ι] in
theorem SharedRq.SameRest.trans {s t u : SharedRq ι} (h₁ : s.SameRest t)
    (h₂ : t.SameRest u) : s.SameRest u :=
  ⟨h₂.enabled.trans h₁.enabled, h₂.prefillRqeCnt.trans h₁.prefillRqeCnt,
    h₂.prefillDone.trans h₁.prefillDone, h₂.rxInUse.trans h₁.rxInUse,
    fun q => (h₂.live q).trans (h₁.live q)⟩

/-- **A move of credits of one sub queue** that keeps the books: the peer
of `q` now holds `v` credits, and the free credits make up for the
difference. -/
structure SharedRq.Moves (cfg : RqConfig) (s t : SharedRq ι) (q : ι) (v : ℕ) : Prop where
  inv : t.Inv cfg
  held : t.held = update s.held q v
  idle : t.pool.idle.toNat + v = s.pool.idle.toNat + s.held q
  rest : s.SameRest t

namespace SharedRq

/-- How a move is established: from the counters it changed. -/
theorem Inv.moves (pool : CreditPool) (fc : FlowControl) {updates : List (CounterUpdate ι)}
    {granted : ι → ℕ} (hs : s.Inv cfg) (hcap : pool.capacity = s.pool.capacity)
    (hen : fc.enabled = (s.sub q).fc.enabled)
    (hlocal : fc.localRxPosted = (s.sub q).fc.localRxPosted)
    (hsuccess : fc.allocatedSuccess.toNat = (s.sub q).rxConsumed.toNat + v)
    (hidle : pool.idle.toNat + v = s.pool.idle.toNat + s.held q)
    (halloc : pool.allocated.toNat + s.held q = s.pool.allocated.toNat + v)
    (hgranted : ∀ x, s.granted x ≤ granted x) (hfit : fc.allocatedSuccess.toNat ≤ granted q)
    (hdead : (s.sub q).live = false → v = 0) (hexact : ∀ u ∈ updates, u.Exact) :
    s.Moves cfg { s with
      pool := pool, sub := update s.sub q { s.sub q with fc := fc }
      updates := updates, granted := granted } q v := by
  have hle : (s.sub q).rxConsumed.toNat ≤ fc.allocatedSuccess.toNat :=
    hsuccess ▸ Nat.le_add_right ..
  set t : SharedRq ι := { s with
    pool := pool, sub := update s.sub q { s.sub q with fc := fc }
    updates := updates, granted := granted }
  have hheld : t.held = update s.held q v := by
    refine eq_update_iff.mpr ⟨?_, fun x hx => ?_⟩
    · show ((update s.sub q _ q).fc.allocatedSuccess - (update s.sub q _ q).rxConsumed).toNat = v
      rw [update_self, UInt64.toNat_sub_of_le _ _ (le_iff_toNat_le.mpr hle), hsuccess,
        Nat.add_sub_cancel_left]
    · show (update s.sub q _ x).unconsumed.toNat = _
      rw [update_of_ne hx]
      rfl
  have hlive : ∀ x, (t.sub x).live = (s.sub x).live :=
    (forall_update_iff s.sub fun x sq => sq.live = (s.sub x).live).mpr ⟨rfl, fun _ _ => rfl⟩
  refine ⟨?_, hheld, hidle, rfl, rfl, rfl, rfl, hlive⟩
  refine
    { enabled := hs.enabled
      subEnabled := (forall_update_iff s.sub fun _ sq => sq.fc.enabled = true).mpr
        ⟨hen.trans (hs.subEnabled q), fun x _ => hs.subEnabled x⟩
      capacity := hcap ▸ hs.capacity
      noLocal := (forall_update_iff s.sub fun _ sq => sq.fc.localRxPosted = 0).mpr
        ⟨hlocal.trans (hs.noLocal q), fun x _ => hs.noLocal x⟩
      consumed_le := (forall_update_iff s.sub
        fun _ sq => sq.rxConsumed.toNat ≤ sq.fc.allocatedSuccess.toNat).mpr
        ⟨hle, fun x _ => hs.consumed_le x⟩
      success_le := (forall_update_iff s.sub
        fun x sq => sq.fc.allocatedSuccess.toNat ≤ granted x).mpr
        ⟨hfit, fun x _ => (hs.success_le x).trans (hgranted x)⟩
      dead := ?_
      allocated := ?_
      inUse_le := hs.inUse_le
      filling := ?_
      filled := ?_
      exact := hexact }
  · rw [hheld]
    exact (forall_update_iff s.held fun x n => (t.sub x).live = false → n = 0).mpr
      ⟨fun hx => hdead (hlive q ▸ hx), fun x _ hx => hs.dead x (hlive x ▸ hx)⟩
  · rw [hheld]
    have hsum := sum_update_add s.held q v
    have hall := hs.allocated
    show pool.allocated.toNat = _
    omega
  · intro hd
    obtain ⟨hi, ha, hc⟩ := hs.filling hd
    show pool.idle.toNat = 0 ∧ pool.allocated.toNat = 0 ∧ s.prefillRqeCnt.toNat = s.rxInUse
    omega
  · intro hd
    have hf := hs.filled hd
    show pool.idle.toNat + pool.allocated.toNat + _ = s.rxInUse + _
    omega

/-! ## The moves -/

/-- **Taking credits back**: the pool and the sub queue are told the same
amount, and the peer holds that much less. -/
theorem Inv.takeBack (hs : s.Inv cfg) (q : ι) (n : UInt16) (hn : n.toNat ≤ s.held q) :
    s.Moves cfg ((s.availableCreditReturn plainTables n).localRxAllocatedDec
      plainTables q n) q (s.held q - n.toNat) := by
  have hhe := held_eq (hs.consumed_le q)
  have hal : n.toNat ≤ s.pool.allocated.toNat := hn.trans (hs.held_le q)
  have hcap := hs.pool_le_uint16Max
  have hpool := availableCreditReturnNonAtomic_spec s.pool n hal (by omega)
  have hle := hs.consumed_le q
  have hsl := hs.success_le q
  have hsucc : n.toNat ≤ (s.sub q).fc.allocatedSuccess.toNat := by omega
  have hfc := localRxAllocatedDecNonAtomic_spec (s.sub q).fc n hsucc
  have hti : (availableCreditReturnNonAtomic s.pool n).1.idle.toNat
      = s.pool.idle.toNat + n.toNat := by
    rw [hpool]
    exact toNat_add_of_le (by omega)
  have hta : (availableCreditReturnNonAtomic s.pool n).1.allocated.toNat
      = s.pool.allocated.toNat - n.toNat := by
    rw [hpool]
    exact toNat_sub_of_toNat_le hal
  have hts : (localRxAllocatedDecNonAtomic (s.sub q).fc n).1.allocatedSuccess.toNat
      = (s.sub q).fc.allocatedSuccess.toNat - n.toNat := by
    rw [hfc]
    exact toNat_sub_toUInt64 hsucc
  refine hs.moves (availableCreditReturnNonAtomic s.pool n).1
    (localRxAllocatedDecNonAtomic (s.sub q).fc n).1 (by rw [hpool]) (by rw [hfc])
    (by rw [hfc]) (by omega) (by omega) (by omega) (fun _ => le_rfl)
    (hts ▸ (sub_le ..).trans hsl) ?_ ?_
  · intro hd
    have := hs.dead q hd
    omega
  · refine forall_mem_cons.mpr ⟨?_, forall_mem_cons.mpr ⟨?_, forall_mem_cons.mpr ⟨?_, hs.exact⟩⟩⟩
    · show ((localRxAllocatedDecNonAtomic (s.sub q).fc n).1.allocatedSuccess.toNat : ℤ)
          = (s.sub q).fc.allocatedSuccess.toNat + -(n.toNat : ℤ)
      omega
    · show ((availableCreditReturnNonAtomic s.pool n).1.idle.toNat : ℤ)
        = s.pool.idle.toNat + n.toNat
      omega
    · show ((availableCreditReturnNonAtomic s.pool n).1.allocated.toNat : ℤ)
        = s.pool.allocated.toNat + -(n.toNat : ℤ)
      omega

/-- **A grant**: the smaller of the request and the free credits goes to
the peer. The bound is on the grants recorded after the move. -/
theorem Inv.grant (hs : s.Inv cfg) (q : ι) (n : UInt16) (hlive : (s.sub q).live = true)
    {r} (hd : s.availableCreditDec plainTables n = r)
    (ht : t = r.1.localRxAllocatedInc plainTables q r.2) (hbound : t.granted q < 2 ^ 64) :
    r.2.toNat = min n.toNat s.pool.idle.toNat
      ∧ s.Moves cfg t q (s.held q + min n.toNat s.pool.idle.toNat)
      ∧ t.granted = update s.granted q (s.granted q + min n.toNat s.pool.idle.toNat) := by
  obtain ⟨hr, hi, ha, hc⟩ := availableCreditDecNonAtomic_spec s.pool n hs.pool_le_uint16Max
  subst hd ht
  set r := (s.availableCreditDec plainTables n).2
  have hr : r.toNat = min n.toNat s.pool.idle.toNat := hr
  have hgrq : update s.granted q (s.granted q + r.toNat) q = s.granted q + r.toNat := update_self ..
  have hbound : update s.granted q (s.granted q + r.toNat) q < 2 ^ 64 := hbound
  have hsl := hs.success_le q
  have hle := hs.consumed_le q
  have hhe := held_eq hle
  have hnew : (localRxAllocatedIncNonAtomic (s.sub q).fc r).1.allocatedSuccess.toNat
      = (s.sub q).fc.allocatedSuccess.toNat + r.toNat :=
    mod_eq_of_lt (show (s.sub q).fc.allocatedSuccess.toNat + r.toNat < 2 ^ 64 by omega)
  refine ⟨hr, ?_, by rw [← hr]; rfl⟩
  refine hs.moves (availableCreditDecNonAtomic s.pool n).1
    (localRxAllocatedIncNonAtomic (s.sub q).fc r).1 hc rfl rfl
    (by omega) (by omega) (by omega) ?_ ?_ ?_ ?_
  · exact le_update_iff.mpr ⟨Nat.le_add_right .., fun _ _ => le_rfl⟩
  · show _ ≤ update s.granted q (s.granted q + r.toNat) q
    omega
  · intro hd
    rw [hlive] at hd
    exact absurd hd Bool.true_eq_false.mp
  · refine forall_mem_cons.mpr ⟨?_, forall_mem_cons.mpr ⟨?_, forall_mem_cons.mpr ⟨?_, hs.exact⟩⟩⟩
    · show ((localRxAllocatedIncNonAtomic (s.sub q).fc r).1.allocatedSuccess.toNat : ℤ)
        = (s.sub q).fc.allocatedSuccess.toNat + (r.toNat : ℤ)
      omega
    · show ((availableCreditDecNonAtomic s.pool n).1.idle.toNat : ℤ)
        = s.pool.idle.toNat + -(r.toNat : ℤ)
      omega
    · show ((availableCreditDecNonAtomic s.pool n).1.allocated.toNat : ℤ)
        = s.pool.allocated.toNat + (r.toNat : ℤ)
      omega

/-- Changing only the sender-side counters of a sub queue moves no
credit. -/
theorem Inv.setFc (hs : s.Inv cfg) (q : ι) (fc : FlowControl)
    (hsuccess : fc.allocatedSuccess = (s.sub q).fc.allocatedSuccess)
    (hen : fc.enabled = (s.sub q).fc.enabled)
    (hlocal : fc.localRxPosted = (s.sub q).fc.localRxPosted) :
    s.Moves cfg (s.setFc q fc) q (s.held q) := by
  have hhe := held_eq (hs.consumed_le q)
  have hle := hs.consumed_le q
  refine hs.moves _ fc rfl hen hlocal ?_ rfl rfl (fun _ => le_rfl) ?_ (hs.dead q) hs.exact
  · rw [hsuccess]
    omega
  · rw [hsuccess]
    exact hs.success_le q

omit [Fintype ι] in
theorem Moves.held_self [Fintype ι] {cfg : RqConfig} {s t : SharedRq ι} {q : ι} {v : ℕ}
    (h : s.Moves cfg t q v) : t.held q = v := by
  rw [h.held, update_self]

/-- Moves of one sub queue compose; only the last amount remains. -/
theorem Moves.trans {u : SharedRq ι} {w : ℕ} (h₁ : s.Moves cfg t q v)
    (h₂ : t.Moves cfg u q w) : s.Moves cfg u q w := by
  refine ⟨h₂.inv, ?_, ?_, h₁.rest.trans h₂.rest⟩
  · rw [h₂.held, h₁.held, update_idem]
  · have hi := h₁.idle
    have hi' := h₂.idle
    rw [h₁.held_self] at hi'
    omega

theorem Inv.moves_refl (hs : s.Inv cfg) (q : ι) : s.Moves cfg s q (s.held q) :=
  ⟨hs, (update_eq_self q s.held).symm, rfl, .refl s⟩

end SharedRq

/-! ## Error completions -/

/-- A window increment touches neither side's grant counters. -/
theorem remoteRxWindowIncNonAtomic_frame (fc : FlowControl) (n : UInt16) (rb : Bool) :
    let r := (remoteRxWindowIncNonAtomic fc n rb).1
    r.allocatedSuccess = fc.allocatedSuccess ∧ r.enabled = fc.enabled
      ∧ r.localRxPosted = fc.localRxPosted := by
  unfold remoteRxWindowIncNonAtomic
  by_cases hov : fc.remoteRxWindow.toNat + n.toNat > uint16Max
  · rw [if_pos hov]
    cases rb <;> exact ⟨rfl, rfl, rfl⟩
  · rw [if_neg hov]
    cases rb <;> exact ⟨rfl, rfl, rfl⟩

theorem failedCredits_cons (k : ImmType) (obj : FcUserCtx) (errors : List FcUserCtx) :
    failedCredits k (obj :: errors) = failedCredits k [obj] + failedCredits k errors := by
  unfold failedCredits
  rw [← singleton_append, filter_append, map_append, sum_append_nat]

theorem failedCredits_singleton (k : ImmType) (obj : FcUserCtx) :
    failedCredits k [obj] = if obj.type = k then obj.notify.toNat else 0 := by
  unfold failedCredits
  by_cases hk : obj.type = k
  · simp [hk]
  · simp [hk]

theorem umqUbFcProcessTxError_moves (hs : s.Inv cfg) (q : ι) (obj : FcUserCtx)
    (h : failedGrants [obj] ≤ s.held q) :
    s.Moves cfg (umqUbFcProcessTxError plainTables s q obj) q (s.held q - failedGrants [obj]) := by
  obtain ⟨type, notify⟩ := obj
  cases type with
  | creditRep =>
    have hn : failedGrants [⟨.creditRep, notify⟩] = notify.toNat :=
      (failedCredits_singleton _ _).trans (if_pos rfl)
    exact hs.takeBack q notify h
  | creditReq => exact hs.setFc q _ rfl rfl rfl
  | creditReturnReq =>
    obtain ⟨hsucc, hen, hloc⟩ := remoteRxWindowIncNonAtomic_frame (s.sub q).fc notify true
    exact hs.setFc q _ hsucc hen hloc
  | creditInit | creditReturnAck => exact hs.moves_refl q

/-- A batch of error completions takes back the grants among them. -/
theorem foldl_processTxError_moves (q : ι) (errors : List FcUserCtx) (hs : s.Inv cfg)
    (h : failedGrants errors ≤ s.held q) :
    s.Moves cfg (errors.foldl (fun s obj => umqUbFcProcessTxError plainTables s q obj) s)
      q (s.held q - failedGrants errors) := by
  induction errors generalizing s with
  | nil => exact hs.moves_refl q
  | cons obj errors ih =>
    have hcons := failedCredits_cons .creditRep obj errors
    change failedGrants _ = failedGrants _ + failedGrants _ at hcons
    rw [hcons] at h ⊢
    have h₁ := umqUbFcProcessTxError_moves hs q obj (by omega)
    have hheld := h₁.held_self
    have h₂ := ih h₁.inv (by omega)
    rw [hheld, Nat.sub_sub] at h₂
    exact h₁.trans h₂

/-- The grants taken back while a message is being posted. -/
def SendAttempt.takenBack (att : SendAttempt) : ℕ :=
  if att.bound = true ∧ att.pollOk = true then failedGrants att.errors else 0

theorem umqUbPollFcTx_moves (hs : s.Inv cfg) (q : ι) (att : SendAttempt) (hb : att.bound = true)
    (h : failedGrants att.errors ≤ s.held q) :
    s.Moves cfg (umqUbPollFcTx plainTables s q att).1 q (s.held q - att.takenBack) := by
  unfold umqUbPollFcTx takenBack
  cases hp : att.pollOk with
  | false =>
    rw [if_pos rfl, if_neg (by simp)]
    exact hs.moves_refl q
  | true =>
    have hboth : att.bound = true ∧ true = true := ⟨hb, rfl⟩
    rw [if_pos hboth]
    exact foldl_processTxError_moves q att.errors hs h

/-- Only a bound queue polls. -/
theorem SharedRq.Inv.polled (hs : s.Inv cfg) (q : ι) (att : SendAttempt)
    (h : failedGrants att.errors ≤ s.held q) :
    s.Moves cfg (if att.bound = false then s else (umqUbPollFcTx plainTables s q att).1) q
      (s.held q - att.takenBack) := by
  cases hb : att.bound with
  | false =>
    have hz : att.takenBack = 0 := by simp [takenBack, hb]
    rw [hz]
    exact hs.moves_refl q
  | true => exact umqUbPollFcTx_moves hs q att hb h

section

omit [Fintype ι]

variable (T : FcTables) (s : SharedRq ι) (q : ι) (att : SendAttempt) (n : UInt16)

/-- Polling succeeds only when it found no error, and then has changed
nothing. -/
theorem umqUbPollFcTx_success (h : (umqUbPollFcTx T s q att).2 = .success) :
    (umqUbPollFcTx T s q att).1 = s ∧ att.takenBack = 0 := by
  unfold umqUbPollFcTx at h ⊢
  cases hp : att.pollOk with
  | false =>
    rw [hp] at h
    cases h
  | true =>
    rw [hp] at h
    have hnil : att.errors = [] := by
      by_contra hne
      rw [if_neg hne] at h
      cases h
    rw [hnil]
    refine ⟨rfl, ?_⟩
    unfold takenBack
    rw [hnil]
    exact ite_self 0

/-- Only a grant counts as one. -/
theorem umqUbPollFcTx_granted : (umqUbPollFcTx T s q att).1.granted = s.granted := by
  have hone : ∀ (s : SharedRq ι) (obj : FcUserCtx),
      (umqUbFcProcessTxError T s q obj).granted = s.granted := by
    intro s obj
    unfold umqUbFcProcessTxError
    cases obj.type <;> rfl
  have hall : ∀ (errors : List FcUserCtx) (s : SharedRq ι),
      (errors.foldl (fun s obj => umqUbFcProcessTxError T s q obj) s).granted = s.granted := by
    intro errors
    induction errors with
    | nil => exact fun _ => rfl
    | cons obj errors ih => exact fun s => (ih _).trans (hone s obj)
  unfold umqUbPollFcTx
  split
  · rfl
  · exact hall att.errors s

/-! ## The handlers -/

theorem toNat_ofWindow (w : BitVec 10) : (ofWindow w).toNat = w.toNat := by
  show (w.setWidth 16).toNat = w.toNat
  rw [BitVec.toNat_setWidth]
  omega

theorem toNat_toWindow (h : n.toNat < 1024) : (toWindow n).toNat = n.toNat := by
  show (n.toBitVec.setWidth 10).toNat = n.toNat
  exact mod_eq_of_lt h

theorem umqUbSharedCreditRespSend_fst : (umqUbSharedCreditRespSend T s q n att).1
    = if att.bound = false then s else (umqUbPollFcTx T s q att).1 := by
  unfold umqUbSharedCreditRespSend
  dsimp only
  split_ifs <;> rfl

theorem umqUbSharedCreditReturnAck_fst : (umqUbSharedCreditReturnAck T s q n att).1
    = if (s.sub q).fc.enabled = false ∨ att.bound = false then s
      else (umqUbPollFcTx T s q att).1 := by
  unfold umqUbSharedCreditReturnAck
  dsimp only
  split_ifs <;> rfl

/-- A posted grant carries the amount, and nothing else has happened. -/
theorem umqUbSharedCreditRespSend_success
    (h : (umqUbSharedCreditRespSend T s q n att).2.1 = .success) :
    let r := umqUbSharedCreditRespSend T s q n att
    r.1 = s ∧ att.takenBack = 0 ∧ ∃ msg, r.2.2 = some msg
        ∧ msg.imm.type = .creditRep ∧ msg.imm.window = toWindow n
        ∧ msg.userCtx = ⟨.creditRep, n⟩ := by
  unfold umqUbSharedCreditRespSend at h ⊢
  cases hb : att.bound with
  | false =>
    rw [hb] at h
    cases h
  | true =>
    rw [hb] at h
    dsimp only at h ⊢
    by_cases hp : (umqUbPollFcTx T s q att).2 = .success
    · rw [if_neg (not_not_intro hp)] at h ⊢
      obtain ⟨hsame, hz⟩ := umqUbPollFcTx_success T s q att hp
      cases ha : att.accepted with
      | true => exact ⟨hsame, hz, _, rfl, rfl, rfl, rfl⟩
      | false =>
        rw [ha] at h
        cases h
    · rw [if_pos hp] at h
      exact absurd h hp

theorem umqUbSharedCreditReqHandle_granted (imm : FcImm) :
    (umqUbSharedCreditReqHandle T s q imm att).1.granted
      = let d := s.availableCreditDec T (ofWindow imm.window)
        (d.1.localRxAllocatedInc T q d.2).granted := by
  have hsend : ∀ (s : SharedRq ι) (n : UInt16),
      (umqUbSharedCreditRespSend T s q n att).1.granted = s.granted := by
    intro s n
    rw [umqUbSharedCreditRespSend_fst]
    split
    · rfl
    · exact umqUbPollFcTx_granted T s q att
  unfold umqUbSharedCreditReqHandle
  dsimp only
  split <;> exact hsend _ _

end

/-- What a request handler can do: post a grant of `r` credits, or undo
everything but the error completions it came across. -/
def ReqOutcome (cfg : RqConfig) (s t : SharedRq ι) (q : ι) (att : SendAttempt)
    (r : ℕ) : Option FcMsg → Prop
  | some msg =>
    s.Moves cfg t q (s.held q + r) ∧ att.takenBack = 0
      ∧ msg.imm.type = .creditRep ∧ msg.imm.window.toNat = r
      ∧ msg.userCtx.type = .creditRep ∧ msg.userCtx.notify.toNat = r
  | none => s.Moves cfg t q (s.held q - att.takenBack)

section

variable (hs : s.Inv cfg) (q : ι)
include hs

/-- **The request handler**, with its rollback. -/
theorem umqUbSharedCreditReqHandle_spec (imm : FcImm) (att : SendAttempt)
    (hlive : (s.sub q).live = true) (h : failedGrants att.errors ≤ s.held q) :
    let r := umqUbSharedCreditReqHandle plainTables s q imm att
    r.1.granted q < 2 ^ 64 →
      ReqOutcome cfg s r.1 q att (min imm.window.toNat s.pool.idle.toNat) r.2.2 := by
  dsimp only
  intro hbound
  rw [umqUbSharedCreditReqHandle_granted] at hbound
  obtain ⟨hr, hgrant, -⟩ := hs.grant q (ofWindow imm.window) hlive rfl rfl hbound
  rw [toNat_ofWindow] at hr hgrant
  have hheld := hgrant.held_self
  unfold umqUbSharedCreditReqHandle
  dsimp only
  set r := (s.availableCreditDec plainTables (ofWindow imm.window)).2
  set g := (s.availableCreditDec plainTables
    (ofWindow imm.window)).1.localRxAllocatedInc plainTables q r
  have hsend := hgrant.inv.polled q att (by omega)
  rw [← umqUbSharedCreditRespSend_fst plainTables g q att r] at hsend
  by_cases hret : (umqUbSharedCreditRespSend plainTables g q r att).2.1 = .success
  · rw [if_neg (not_not_intro hret)]
    obtain ⟨hsame, hz, msg, hmsg, htype, hwin, hctx⟩ :=
      umqUbSharedCreditRespSend_success plainTables g q att r hret
    rw [hmsg, hsame]
    refine ⟨hgrant, hz, htype, ?_, by rw [hctx], by rw [hctx]; exact hr⟩
    rw [hwin, toNat_toWindow r (by omega), hr]
  · rw [if_pos hret]
    have hmid := hsend.held_self
    have hback : att.takenBack ≤ failedGrants att.errors := by
      unfold takenBack
      split <;> omega
    have htb := hsend.inv.takeBack q r (by omega)
    have hfinal := (hgrant.trans hsend).trans htb
    have hv : (umqUbSharedCreditRespSend plainTables g q r att).1.held q
        - r.toNat = s.held q - att.takenBack := by omega
    rw [hv] at hfinal
    exact hfinal

/-- **The return handler** takes back what was returned, or all the peer
can hold if it claims more. -/
theorem umqUbSharedCreditReturnReqHandle_moves (imm : FcImm)
    (att : SendAttempt) (h : failedGrants att.errors + min imm.window.toNat (s.held q) ≤ s.held q) :
    s.Moves cfg (umqUbSharedCreditReturnReqHandle plainTables s q imm att).1 q
      (s.held q - min imm.window.toNat (s.held q) - att.takenBack) := by
  have hnot : ¬(s.sub q).fc.allocatedSuccess < (s.sub q).rxConsumed := by
    rw [UInt64.lt_iff_toNat_lt]
    have := hs.consumed_le q
    omega
  unfold umqUbSharedCreditReturnReqHandle
  rw [if_neg hnot]
  set rc := if (ofWindow imm.window).toUInt64 > (s.sub q).fc.allocatedSuccess - (s.sub q).rxConsumed
    then ((s.sub q).fc.allocatedSuccess - (s.sub q).rxConsumed).toUInt16
    else ofWindow imm.window with hrc
  have hheld : ((s.sub q).fc.allocatedSuccess - (s.sub q).rxConsumed).toNat = s.held q := rfl
  have hn : rc.toNat = min imm.window.toNat (s.held q) := by
    rw [hrc]
    split
    · rename_i hgt
      have hlt : s.held q < imm.window.toNat := by
        have hcmp := lt_iff_toNat_lt.mp hgt
        exact hcmp
      rw [toNat_toUInt16]
      omega
    · rename_i hle
      have hge : ¬s.held q < imm.window.toNat := by
        intro hlt
        refine hle (lt_iff_toNat_lt.mpr ?_)
        exact hlt
      rw [toNat_ofWindow]
      omega
  have hback := hs.takeBack q rc (by omega)
  have hmid := hback.held_self
  have hack := hback.inv.polled q att (by omega)
  rw [hmid, hn] at hack
  rw [umqUbSharedCreditReturnAck_fst, hback.inv.subEnabled q]
  simp only [Bool.true_eq_false, false_or]
  exact hback.trans hack

/-- **Cleaning up** returns everything the peer can still hold. -/
theorem umqUbCreditCleanUp_moves : s.Moves cfg (umqUbCreditCleanUp plainTables s q) q 0 := by
  have hloc := hs.noLocal q
  have hset := hs.setFc q { (s.sub q).fc with localRxPosted := 0 } rfl rfl hloc.symm
  have hsub : (s.setFc q { (s.sub q).fc with localRxPosted := 0 }).sub q
      = { s.sub q with fc := { (s.sub q).fc with localRxPosted := 0 } } :=
    update_self _ _ _
  have hle := hs.held_le q
  have hcap := hs.pool_le_uint16Max
  unfold umqUbCreditCleanUp
  dsimp only
  rw [hsub]
  have hheld : ((s.sub q).fc.allocatedSuccess - (s.sub q).rxConsumed).toNat = s.held q := rfl
  rw [if_neg (by rw [hheld]; omega), hloc]
  set n := ((s.sub q).fc.allocatedSuccess - (s.sub q).rxConsumed).toUInt16 with hn
  have hsame : (UInt16.toUInt64 0
      + ((s.sub q).fc.allocatedSuccess - (s.sub q).rxConsumed)).toUInt16 = n := by
    rw [hn]
    simp
  have hnat : n.toNat = s.held q := by
    rw [ toNat_toUInt16]
    unfold uint16Max at hcap
    omega
  have hmid := hset.held_self
  have hback := hset.inv.takeBack q n (by omega)
  rw [hmid, hnat, Nat.sub_self] at hback
  rw [hsame]
  exact hset.trans hback

/-- A sub queue whose peer holds nothing can go. -/
theorem SharedRq.Inv.kill (hz : s.held q = 0) : SharedRq.Inv cfg { s with
      sub := update s.sub q { s.sub q with live := false } } := by
  set t : SharedRq ι := { s with
    sub := update s.sub q { s.sub q with live := false } }
  have hfc : ∀ x, (t.sub x).fc = (s.sub x).fc ∧ (t.sub x).rxConsumed = (s.sub x).rxConsumed :=
    (forall_update_iff s.sub
      fun x sq => sq.fc = (s.sub x).fc ∧ sq.rxConsumed = (s.sub x).rxConsumed).mpr
      ⟨⟨rfl, rfl⟩, fun _ _ => ⟨rfl, rfl⟩⟩
  have hheld : t.held = s.held := by
    funext x
    unfold held SubQueue.unconsumed
    rw [(hfc x).1, (hfc x).2]
  refine
    { hs with
      subEnabled := fun x => by rw [(hfc x).1]; exact hs.subEnabled x
      noLocal := fun x => by rw [(hfc x).1]; exact hs.noLocal x
      consumed_le := fun x => by rw [(hfc x).1, (hfc x).2]; exact hs.consumed_le x
      success_le := fun x => by rw [(hfc x).1]; exact hs.success_le x
      dead := ?_
      allocated := by rw [hheld]; exact hs.allocated }
  rw [hheld]
  exact (forall_update_iff s.sub fun x sq => sq.live = false → s.held x = 0).mpr
    ⟨fun _ => hz, fun x _ => hs.dead x⟩

end

end Invariant

end Umq
