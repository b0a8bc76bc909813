import UbsComm.Service.AsyncCall

/-!
# The callback is used once

At any time the callback of a call is in one place: with the caller, with
one timer, or with the wrapper that the rails share, which is owed as many
runs as there are rails. A completion moves it on or uses it up
(`Completes`), and so does each step of a call; what is said of the place
alone is kept by all that the other threads do in between (`Steady`). So the
calls are gone through with triples, one for each function, and end with the
callback settled (`Settled`).

Four things spoil this, and they are noted as `bad`. The loop around a call
goes on with a callback that the last round has released. When a post fails
the shared wrapper is deleted, although other rails have it. Its two steps
overlap with those of another run, and both find that they are the last. And
the timer of the last fragment is out of time just before its post fails, so
that the callback is run and then destroyed.

`accounted_of_execute`: unless one of these was noted, the callback is never
used after its release, is run at most once, and exactly once if the call has
succeeded. A call that fails may yet run it: a one-sided call reports some
failures that way, and a timer out of time is taken before the post fails.
-/

namespace Service

open Recorded Function List CallbackRef Triple SerCode Nat Option

variable {i : ℕ}

section Lists

variable {α : Type} {p : α → Bool} {f : α → α} {P : α → Prop} {l : List α}

theorem countP_modify {a : α} (h : l[i]? = some a) :
    (l.modify i f).countP p + (if p a then 1 else 0) = l.countP p + (if p (f a) then 1 else 0) := by
  induction l generalizing i with
  | nil => simp at h
  | cons b l ih =>
    cases i with
    | zero =>
      obtain rfl : b = a := by simpa using h
      rw [modify_zero_cons, countP_cons, countP_cons]
      omega
    | succ i =>
      have := ih (i := i) (by simpa using h)
      rw [modify_succ_cons, countP_cons, countP_cons]
      omega

theorem forall_mem_modify (h : ∀ b ∈ l, P b)
    (hi : ∀ a, l[i]? = some a → P (f a)) : ∀ b ∈ l.modify i f, P b := by
  intro b hb
  obtain ⟨j, hj⟩ := mem_iff_getElem?.mp hb
  rw [getElem?_modify] at hj
  obtain ⟨a, ha, hab⟩ := map_eq_some_iff.mp hj
  rw [← hab]
  split_ifs with hij
  · exact hi a (hij ▸ ha)
  · exact h a (mem_of_getElem? ha)

theorem or_eq_false {a b : Bool} (ha : a = false) (hb : b = false) : (a || b) = false :=
  Bool.or_eq_false_iff.mpr ⟨ha, hb⟩

end Lists

/-! ## Who has the callback -/

/-- What runs the callback of the user when it is run. -/
def CallbackRef.direct : CallbackRef → Bool
  | .done => true
  | .fragment segIndex fragmentNum => segIndex = fragmentNum - 1
  | .closure _ => false

/-- A timer that is to run the callback itself. -/
def Pending.direct (p : Pending) : Bool := p.stage = .armed && p.cb.direct

variable {stage : PendingStage} {q : Pending → Bool}

namespace CallState

/-- How many are about to run the callback. -/
def direct (s : CallState) : ℕ := s.pending.countP Pending.direct

/-- How many are still to begin a run of a shared wrapper. -/
def armed (s : CallState) (k : ℕ) : ℕ := s.pending.countP fun p => p = ⟨.closure k, .armed⟩

/-- The callback is with `d` timers, or not with any, and not with a shared
wrapper. -/
structure Plain (d runs : ℕ) (released : Bool) (s : CallState) : Prop where
  misused : s.misused = false
  runs : s.runs = runs
  released : s.released = released
  direct : s.direct = d
  unshared : ∀ p ∈ s.pending, p.stage ≠ .ended → ∀ k, p.cb ≠ .closure k

/-- Nobody else has it. -/
structure Fresh (s : CallState) : Prop where
  plain : s.Plain 0 0 false
  idle : s.Idle

variable {s : CallState}

theorem Idle.countP_eq_zero (h : s.Idle)
    (hq : ∀ p, q p = true → p.stage ≠ .ended) : s.pending.countP q = 0 :=
  List.countP_eq_zero.mpr fun p hp hqp => hq p hqp (h p hp)

theorem Idle.direct_eq_zero (h : s.Idle) : s.direct = 0 := by
  refine h.countP_eq_zero fun p hp hover => ?_
  rw [Pending.direct, hover] at hp
  exact Bool.false_ne_true hp

theorem Idle.closure_eq_zero (h : s.Idle) (k : ℕ) (hstage : stage ≠ .ended) :
    s.pending.countP (fun p => p = ⟨.closure k, stage⟩) = 0 := by
  refine h.countP_eq_zero fun p hp => ?_
  rw [of_decide_eq_true hp]
  exact hstage

/-- One timer has it, or has run it. -/
def Held (s : CallState) : Prop := s.Plain 1 0 false ∨ s.Plain 0 1 true

/-- The shared wrapper `k` has it, which is to be run `n` times, and `c` runs
of it have been promised. -/
structure Shared (k n c : ℕ) (s : CallState) : Prop where
  misused : s.misused = false
  direct : s.direct = 0
  only : ∀ p ∈ s.pending, p.stage ≠ .ended → p.cb = .closure k
  total : (s.closures k).totalTime = n
  promised : (s.closures k).runTime + s.armed k = c
  le : c ≤ n
  counting_le : s.counting k ≤ 1
  state : ((s.closures k).released = false ∧ s.released = false ∧ s.runs = 0
      ∧ ((s.closures k).runTime = n → s.counting k = 1))
    ∨ (s.released = true ∧ s.runs = 1 ∧ (s.closures k).runTime = n ∧ s.counting k = 0)

end CallState

/-! ## Completions -/

/-- What a completion can do. -/
inductive Completes (s : CallState) (i : ℕ) : CallState → List Notice → Prop
  | none : Completes s i s []
  | run {cb : CallbackRef} (h : s.pending[i]? = some ⟨cb, .armed⟩)
      (hcb : cb.direct = true) : Completes s i (s.setStage i .ended).runDone []
  | pass {segIndex fragmentNum : ℕ}
      (h : s.pending[i]? = some ⟨.fragment segIndex fragmentNum, .armed⟩)
      (hcb : (CallbackRef.fragment segIndex fragmentNum).direct = false) :
      Completes s i (s.setStage i .ended) []
  | count {k : ℕ} {l : List Notice}
      (h : s.pending[i]? = some ⟨.closure k, .armed⟩)
      (hl : s.counting k = 0 ∧ l = [] ∨ Notice.overlapped ∈ l) :
      Completes s i ((s.setStage i .counting).count k) l
  | finish {k : ℕ} (h : s.pending[i]? = some ⟨.closure k, .counting⟩) :
      Completes s i ((s.setStage i .ended).finish k) []

theorem complete_spec (s : CallState) (i : ℕ) :
    Completes s i (complete i s).2.1 (complete i s).2.2 := by
  rcases h : s.pending[i]? with _ | ⟨cb, stage⟩
  · simpa [complete, h] using Completes.none
  · cases stage with
    | ended => cases cb <;> simpa [complete, h] using Completes.none
    | armed =>
      cases cb with
      | done => simpa [complete, h] using Completes.run h rfl
      | fragment segIndex fragmentNum =>
        by_cases hlast : segIndex = fragmentNum - 1
        · simpa [complete, h, hlast] using Completes.run h (by simp [CallbackRef.direct, hlast])
        · simpa [complete, h, hlast] using Completes.pass h (by simp [CallbackRef.direct, hlast])
      | closure k =>
        by_cases hc : s.counting k = 0
        · simpa [complete, h, hc] using Completes.count h (.inl ⟨hc, rfl⟩)
        · simpa [complete, h, hc] using Completes.count h (.inr (mem_singleton_self _))
    | counting =>
      cases cb with
      | closure k => simpa [complete, h] using Completes.finish h
      | _ => simpa [complete, h] using Completes.none

variable {cb : CallbackRef} {l : List Notice} {s : CallState} {j : ℕ}

namespace CallState

variable {s t : CallState} {i d runs k n c : ℕ} {released : Bool} {l : List Notice} {p : Pending}

theorem countP_setStage (stage : PendingStage) (h : s.pending[i]? = some p) :
    (s.setStage i stage).pending.countP q + (if q p then 1 else 0)
      = s.pending.countP q + (if q { p with stage } then 1 else 0) :=
  countP_modify h

theorem direct_setStage_over (h : s.pending[i]? = some p) :
    (s.setStage i .ended).direct + (if p.direct then 1 else 0) = s.direct := by
  have hcount := countP_setStage (q := Pending.direct) .ended h
  exact hcount

/-- A timer that is over is no matter to what is said of those that are not. -/
theorem forall_mem_setStage_over {P : Pending → Prop}
    (h : ∀ p ∈ s.pending, p.stage ≠ .ended → P p) :
    ∀ p ∈ (s.setStage i .ended).pending, p.stage ≠ .ended → P p :=
  forall_mem_modify h fun _ _ hover => absurd rfl hover

theorem Plain.setStage_over (h : s.Plain d runs released) (hp : s.pending[i]? = some p)
    (hdirect : p.direct = false) : (s.setStage i .ended).Plain d runs released :=
  { h with
    direct := by
      have := direct_setStage_over hp
      rw [hdirect] at this
      exact this.trans h.direct
    unshared := forall_mem_setStage_over h.unshared }

/-- **A completion runs the callback if it is with the timer completed.** -/
theorem Plain.complete (h : s.Plain d runs released) (hs : Completes s i t l) :
    t.Plain d runs released
      ∨ ∃ d', d = d' + 1 ∧ (released = false → t.Plain d' (runs + 1) true) := by
  cases hs with
  | none => exact .inl h
  | run hp hcb =>
    have hdirect := direct_setStage_over hp
    rw [if_pos (by simp [Pending.direct, hcb]), h.direct] at hdirect
    refine .inr ⟨_, hdirect.symm, fun hreleased => ?_⟩
    exact ⟨or_eq_false h.misused (h.released.trans hreleased), congrArg (· + 1) h.runs, rfl, rfl,
      forall_mem_setStage_over h.unshared⟩
  | pass hp hcb => exact .inl (h.setStage_over hp (by simp [Pending.direct, hcb]))
  | count hp | finish hp => exact absurd rfl (h.unshared _ (mem_of_getElem? hp) nofun _)

theorem Held.complete (h : s.Held) (hs : Completes s i t l) : t.Held := by
  rcases h with h | h
  · rcases h.complete hs with h' | ⟨d', hd', h'⟩
    · exact .inl h'
    · obtain rfl : d' = 0 := (succ.inj hd').symm
      exact .inr (h' rfl)
  · rcases h.complete hs with h' | ⟨d', hd', -⟩
    · exact .inr h'
    · exact nomatch hd'

theorem Fresh.complete (h : s.Fresh) (hs : Completes s i t l) : t.Fresh := by
  have hover : ∀ {p}, s.pending[i]? = some p → p.stage = .ended :=
    fun hp => h.idle _ (mem_of_getElem? hp)
  cases hs with
  | none => exact h
  | run hp | pass hp | count hp | finish hp => exact nomatch hover hp

theorem Shared.count (h : s.Shared k n c) (hp : s.pending[i]? = some ⟨.closure k, .armed⟩)
    (hzero : s.counting k = 0) : ((s.setStage i .counting).count k).Shared k n c := by
  have harmed : (s.setStage i .counting).armed k + 1 = s.armed k := by
    simpa using! countP_setStage (q := fun p => p = ⟨.closure k, .armed⟩) .counting hp
  have hcounting : (s.setStage i .counting).counting k = s.counting k + 1 := by
    simpa using! countP_setStage (q := fun p => p = ⟨.closure k, .counting⟩) .counting hp
  have hdirect : (s.setStage i .counting).direct = s.direct :=
    countP_setStage (q := Pending.direct) .counting hp
  have hpromised := h.promised
  -- a run can begin only while the wrapper is there
  obtain ⟨hthere, hreleased, hruns, -⟩ | ⟨-, -, hall, -⟩ := h.state
  · have hclosure : ((s.setStage i .counting).count k).closures k
        = { s.closures k with runTime := (s.closures k).runTime + 1 } :=
      update_self ..
    have hone : ((s.setStage i .counting).count k).counting k = 1 := by
      show (s.setStage i .counting).counting k = 1
      rw [hcounting, hzero]
    refine ⟨?_, hdirect.trans h.direct, ?_, ?_, ?_, h.le, Nat.le_of_eq hone, .inl ?_⟩
    · exact or_eq_false h.misused hthere
    · exact forall_mem_modify h.only fun a ha _ => by
        rw [hp] at ha
        rw [← some.inj ha]
    · rw [hclosure]
      exact h.total
    · rw [hclosure]
      show (s.closures k).runTime + 1 + (s.setStage i .counting).armed k = c
      omega
    · exact ⟨by rw [hclosure]; exact hthere, hreleased, hruns, fun _ => hone⟩
  · have := h.le
    omega

theorem Shared.finish (h : s.Shared k n c) (hp : s.pending[i]? = some ⟨.closure k, .counting⟩) :
    ((s.setStage i .ended).finish k).Shared k n c := by
  have harmed : (s.setStage i .ended).armed k = s.armed k := by
    simpa using! countP_setStage (q := fun p => p = ⟨.closure k, .armed⟩) .ended hp
  have hcounting : (s.setStage i .ended).counting k + 1 = s.counting k := by
    simpa using! countP_setStage (q := fun p => p = ⟨.closure k, .counting⟩) .ended hp
  have hdirect : (s.setStage i .ended).direct = s.direct :=
    countP_setStage (q := Pending.direct) .ended hp
  have hpromised := h.promised
  have hle := h.le
  have hcounting_le := h.counting_le
  obtain ⟨hthere, hreleased, hruns, -⟩ | ⟨-, -, -, hnone⟩ := h.state
  · have hmisused := or_eq_false h.misused hthere
    have honly := forall_mem_setStage_over (i := i) h.only
    rw [CallState.finish]
    split_ifs with hmore
    · have hclosure : ((s.setStage i .ended).setClosure k id).closures k
          = s.closures k := update_self ..
      refine ⟨hmisused, hdirect.trans h.direct, honly, by rw [hclosure]; exact h.total,
        ?_, hle, ?_, .inl ⟨by rw [hclosure]; exact hthere, hreleased, hruns, ?_⟩⟩
      · rw [hclosure]
        exact (congrArg _ harmed).trans hpromised
      · show (s.setStage i .ended).counting k ≤ 1
        omega
      · rw [hclosure]
        rw [show ((s.setStage i .ended).closures k).totalTime = n from h.total] at hmore
        exact fun hall => absurd hall (Nat.ne_of_lt hmore)
    · rw [show ((s.setStage i .ended).closures k).totalTime = n from h.total] at hmore
      have hall : (s.closures k).runTime = n := Nat.le_antisymm (by omega) (Nat.le_of_not_lt hmore)
      have hclosure : (((s.setStage i .ended).setClosure k
          fun c => { c with released := true }).runDone).closures k
          = { s.closures k with released := true } := update_self _ _ _
      refine ⟨or_eq_false hmisused hreleased, hdirect.trans h.direct, honly,
        by rw [hclosure]; exact h.total, ?_, hle, ?_,
        .inr ⟨rfl, congrArg (· + 1) hruns, by rw [hclosure]; exact hall, ?_⟩⟩
      · rw [hclosure]
        exact (congrArg _ harmed).trans hpromised
      · show (s.setStage i .ended).counting k ≤ 1
        omega
      · show (s.setStage i .ended).counting k = 0
        omega
  · omega

theorem Shared.complete (h : s.Shared k n c) (hs : Completes s i t l)
    (hl : Notice.overlapped ∉ l) : t.Shared k n c := by
  have honly : ∀ {cb stage}, s.pending[i]? = some ⟨cb, stage⟩ → stage ≠ .ended → cb = .closure k :=
    fun hp => h.only _ (mem_of_getElem? hp)
  cases hs with
  | none => exact h
  | run hp hcb =>
    rw [honly hp nofun] at hcb
    cases hcb
  | pass hp => exact nomatch honly hp nofun
  | @count k' _ hp hcount =>
    obtain rfl : k' = k := CallbackRef.closure.inj (honly hp nofun)
    obtain ⟨hzero, -⟩ := hcount.resolve_right hl
    exact h.count hp hzero
  | @finish k' hp =>
    obtain rfl : k' = k := CallbackRef.closure.inj (honly hp nofun)
    exact h.finish hp

/-- A timer that has been given a callback keeps it. -/
def Slot (j : ℕ) (cb : CallbackRef) (s : CallState) : Prop :=
  ∃ stage, s.pending[j]? = some ⟨cb, stage⟩

theorem Slot.setStage (h : s.Slot j cb)
    (stage : PendingStage) : (s.setStage i stage).Slot j cb := by
  obtain ⟨stage', hj⟩ := h
  refine ⟨if i = j then stage else stage', ?_⟩
  show (s.pending.modify i _)[j]? = _
  rw [getElem?_modify, hj]
  split_ifs <;> rfl

theorem Slot.complete (h : s.Slot j cb) (hs : Completes s i t l) : t.Slot j cb := by
  cases hs with
  | none => exact h
  | run | pass => exact h.setStage .ended
  | count => exact h.setStage .counting
  | @finish k =>
    show ((s.setStage i .ended).finish k).Slot j cb
    rw [CallState.finish]
    split_ifs <;> exact h.setStage .ended

end CallState

/-! ## Inner steps -/

/-- What makes it impossible to say what becomes of the callback. -/
def Notice.bad : Notice → Bool
  | .retried | .torn | .overlapped => true
  | .overtaken (.fragment segIndex fragmentNum) => segIndex = fragmentNum - 1
  | .overtaken _ | .reported => false

/-- What other threads and inner steps leave as it is. -/
structure Steady (I : CallState → Prop) : Prop where
  complete : ∀ {s t i l}, I s → Completes s i t l → Notice.overlapped ∉ l → I t
  steps : ∀ {s} n, I s → I { s with steps := n }

open CallState

theorem steady_plain (runs : ℕ) (released : Bool) : Steady (Plain 0 runs released) where
  complete h hs _ := (h.complete hs).elim id fun ⟨_, hd, _⟩ => nomatch hd
  steps _ h := { h with }

theorem steady_held : Steady Held where
  complete h hs _ := h.complete hs
  steps _ h := h.imp (fun h => { h with }) fun h => { h with }

theorem steady_fresh : Steady Fresh where
  complete h hs _ := h.complete hs
  steps n h := ⟨(steady_plain 0 false).steps n h.plain, h.idle⟩

theorem steady_shared (k n c : ℕ) : Steady (Shared k n c) where
  complete h hs := h.complete hs
  steps _ h := { h with }

theorem Steady.slot {I : CallState → Prop} (hI : Steady I) (j : ℕ)
    (cb : CallbackRef) : Steady fun s => I s ∧ s.Slot j cb where
  complete h hs hl := ⟨hI.complete h.1 hs hl, h.2.complete hs⟩
  steps n h := ⟨hI.steps n h.1, h.2⟩

/-- A triple about a call. -/
abbrev CallTriple {α : Type} (I : CallState → Prop) (N : List Notice → Prop)
    (m : CallM α) (Q : α → CallState → List Notice → Prop) : Prop :=
  Triple (fun e => e.bad = true) (fun s l => I s ∧ N l) m Q

section Inner

variable {I J : CallState → Prop} {N : List Notice → Prop}

theorem Completes.notes_eq_nil {s t : CallState}
    (hs : Completes s i t l) (hl : Notice.overlapped ∉ l) : l = [] := by
  cases hs with
  | count _ hcount => exact (hcount.resolve_right hl).2
  | _ => rfl

theorem Steady.complete_triple (hI : Steady I) (i : ℕ) :
    CallTriple I N (Service.complete i) fun _ s l => I s ∧ N l := by
  intro s l h hbad
  have hs := complete_spec s i
  have hl : Notice.overlapped ∉ (Service.complete i s).2.2 :=
    fun hmem => hbad _ (mem_append_right l hmem) rfl
  refine ⟨hI.complete h.1 hs hl, ?_⟩
  rw [hs.notes_eq_nil hl, append_nil]
  exact h.2

theorem Steady.completes_triple (hI : Steady I) (is : List ℕ) :
    CallTriple I N (completes is) fun _ s l => I s ∧ N l := by
  induction is with
  | nil => exact pure fun _ _ h => h
  | cons i is ih => exact (hI.complete_triple i).bind fun _ => ih

theorem Steady.ask_triple (hI : Steady I) (w : Surroundings) :
    CallTriple I N (ask w) fun _ s l => I s ∧ N l :=
  get_bind fun _ =>
    ((hI.completes_triple _).pre fun _ _ h => h.2).bind fun _ =>
      (modify fun _ _ h => ⟨hI.steps _ h.1, h.2⟩).bind fun _ => pure fun _ _ h => h

theorem hold_triple (hIJ : ∀ s, I s → J (s.push cb)) :
    CallTriple I N (hold cb) fun j s l => (J s ∧ s.Slot j cb) ∧ N l := by
  intro s l h _
  refine ⟨⟨hIJ s h.1, .armed, getElem?_concat_length⟩, ?_⟩
  show N (l ++ [])
  rw [append_nil]
  exact h.2

/-- **A timer is prepared, and the call goes on.** -/
theorem Steady.prepareTimer_bind (hI : Steady I) (w : Surroundings) {α : Type}
    {m : SerCode × ℕ → CallM α} {Q : α → CallState → List Notice → Prop}
    (hIJ : ∀ s, I s → J (s.push cb)) (herror : ∀ r, r ≠ .ok → CallTriple I N (m (r, 0)) Q)
    (hok : ∀ j, CallTriple (fun s => J s ∧ s.Slot j cb) N (m (.ok, j)) Q) :
    CallTriple I N (prepareTimer w cb >>= m) Q := by
  have hprepare : CallTriple I N (prepareTimer w cb) fun prepared s l =>
      (prepared.1 = .ok ∧ (J s ∧ s.Slot prepared.2 cb) ∧ N l)
        ∨ (prepared.1 ≠ .ok ∧ prepared.2 = 0 ∧ I s ∧ N l) :=
    (hI.ask_triple w).bind fun _ => ite
      (fun herror => pure fun _ _ h => .inr ⟨herror, rfl, h⟩)
      fun _ => (hold_triple hIJ).bind fun _ => pure fun _ _ h => .inl ⟨rfl, h⟩
  refine hprepare.bind ?_
  rintro ⟨r, j⟩ s l (⟨rfl, h⟩ | ⟨hr, rfl, h⟩)
  · exact hok j s l h
  · exact herror r hr s l h

end Inner

/-! ## What becomes of the callback -/

/-- Something has been noted for which a call that fails may still have run
the callback. -/
def Excused (l : List Notice) : Prop := .reported ∈ l ∨ ∃ cb, .overtaken cb ∈ l

/-- **Where the callback is when a call has returned.** -/
inductive Settled (r : SerCode) (s : CallState) (l : List Notice) : Prop
  | spent (hr : r ≠ .ok) (h : s.Plain 0 0 true)
  | untouched (hr : r ≠ .ok) (h : s.Fresh)
  | held (hr : r = .ok ∨ Excused l) (h : s.Held)
  | shared {k n c : ℕ} (hr : r = .ok ∧ c = n ∨ r ≠ .ok ∧ Excused l) (h : s.Shared k n c)

namespace CallState

variable {s : CallState} {j d runs k n c : ℕ} {released : Bool} {cb : CallbackRef}

theorem Plain.deleteDone (h : s.Plain 0 0 false) : s.deleteDone.Plain 0 0 true := { h with
    misused := or_eq_false h.misused h.released
    released := rfl }

theorem Plain.push (h : s.Plain d runs released) (cb : CallbackRef) (hcb : ∀ k, cb ≠ .closure k) :
    (s.push cb).Plain (d + if cb.direct then 1 else 0) runs released :=
  { h with
    direct := by
      show (s.pending ++ [_]).countP Pending.direct = _
      rw [countP_append, countP_singleton]
      exact congrArg (· + _) h.direct
    unshared := forall_mem_append.mpr ⟨h.unshared, forall_mem_singleton.mpr fun _ => hcb⟩ }

theorem Fresh.push_done (h : s.Fresh) : (s.push .done).Held := .inl (h.plain.push .done nofun)

/-- The timer that has the callback is destroyed before it has run it. -/
theorem Held.setStage_over (h : s.Held) (hp : s.pending[j]? = some ⟨cb, .armed⟩)
    (hcb : cb.direct = true) : (s.setStage j .ended).Plain 0 0 false := by
  have hdirect := direct_setStage_over hp
  rw [if_pos (by simp [Pending.direct, hcb])] at hdirect
  rcases h with h | h
  · exact { h with
      direct := succ.inj (hdirect.trans h.direct)
      unshared := forall_mem_setStage_over h.unshared }
  · exact nomatch hdirect.trans h.direct

theorem Shared.push (h : s.Shared k n c) (hlt : c < n) :
    (s.push (.closure k)).Shared k n (c + 1) := by
  have hpromised := h.promised
  have hcounting : (s.push (.closure k)).counting k = s.counting k := by
    show (s.pending ++ [(⟨.closure k, .armed⟩ : Pending)]).countP _ = _
    rw [countP_append, countP_singleton, if_neg (by simp)]
    rfl
  refine ⟨h.misused, ?_, ?_, h.total, ?_, hlt, ?_, ?_⟩
  · show (s.pending ++ [_]).countP Pending.direct = 0
    rw [countP_append]
    exact h.direct
  · exact forall_mem_append.mpr ⟨h.only, forall_mem_singleton.mpr fun _ => rfl⟩
  · show (s.closures k).runTime + (s.pending ++ [(⟨.closure k, .armed⟩ : Pending)]).countP _ = c + 1
    rw [countP_append, countP_singleton, if_pos (by simp)]
    exact congrArg (· + 1) hpromised
  · rw [hcounting]
    exact h.counting_le
  · have hopen := h.state.resolve_right fun hclosed => by omega
    exact .inl ⟨hopen.1, hopen.2.1, hopen.2.2.1, fun hall => by
      have : (s.closures k).runTime = n := hall
      omega⟩

theorem Fresh.share (h : s.Fresh) (hn : 0 < n) : (s.newClosure n).Shared s.made n 0 := by
  have hclosure : (s.newClosure n).closures s.made = { totalTime := n } := update_self _ _ _
  have hcounting : (s.newClosure n).counting s.made = 0 := h.idle.closure_eq_zero _ nofun
  refine ⟨h.plain.misused, h.plain.direct,
    fun p hp hover => absurd (h.idle p hp) hover, ?_, ?_, zero_le n, ?_,
    .inl ⟨?_, h.plain.released, h.plain.runs, ?_⟩⟩
  · rw [hclosure]
  · rw [hclosure]
    exact (Nat.zero_add _).trans (h.idle.closure_eq_zero _ nofun)
  · rw [hcounting]
    exact zero_le 1
  · rw [hclosure]
  · rw [hclosure]
    exact fun hall => absurd hall (Nat.ne_of_lt hn)

/-- The wrapper is deleted when nobody is to run it any more. -/
theorem Shared.delete (h : s.Shared k n c) (hp : s.pending[j]? = some ⟨.closure k, .armed⟩)
    (hwaiting : (s.setStage j .ended).waiting k = 0) :
    ((s.setStage j .ended).setClosure k fun c => { c with released := true }).Fresh := by
  have harmed : (s.setStage j .ended).armed k + 1 = s.armed k := by
    simpa using! countP_setStage (q := fun p => p = ⟨.closure k, .armed⟩) .ended hp
  have hpromised := h.promised
  have hle := h.le
  obtain ⟨hthere, hreleased, hruns, -⟩ := h.state.resolve_right fun hclosed => by omega
  have hidle : ∀ p ∈ (s.setStage j .ended).pending, p.stage = .ended := by
    intro p hmem
    by_contra hover
    have hcb := forall_mem_setStage_over h.only p hmem hover
    have := countP_eq_zero.mp hwaiting p hmem
    exact this (by simp [hcb, hover])
  refine ⟨⟨or_eq_false h.misused hthere, hruns, hreleased, ?_, ?_⟩, hidle⟩
  · exact (direct_setStage_over hp).trans h.direct
  · exact fun p hmem hover => absurd (hidle p hmem) hover

end CallState

theorem destroyTimer_apply (hj : s.pending[j]? = some ⟨cb, stage⟩) :
    destroyTimer j s = if stage = .armed then deleteCallBack cb (s.setStage j .ended)
        else ((), s, [.overtaken cb]) := by
  cases stage <;> simp [destroyTimer, hj]

section Outcome

variable {N : List Notice → Prop} (w : Surroundings) {fragmentNum j k n : ℕ} {r : SerCode}

theorem destroy_return_triple (hr : r ≠ .ok) :
    CallTriple (Plain 0 0 false) N (destroyCallback >>= fun _ => pure r) Settled :=
  (modify (Q := fun _ s l => s.Plain 0 0 true ∧ N l) fun _ _ h => ⟨h.1.deleteDone, h.2⟩).bind
    fun _ => pure fun _ _ h => .spent hr h.1

theorem fresh_destroy_return_triple (hr : r ≠ .ok) :
    CallTriple Fresh N (destroyCallback >>= fun _ => pure r) Settled :=
  (destroy_return_triple (N := N) hr).pre fun _ _ h => ⟨h.1.plain, h.2⟩

theorem destroyTimer_done_triple : CallTriple (fun s => s.Held ∧ s.Slot j .done) N (destroyTimer j)
      fun _ s l => s.Plain 0 0 true ∨ (s.Held ∧ Excused l) := by
  rintro s l ⟨⟨hheld, stage, hj⟩, -⟩ -
  rw [destroyTimer_apply hj]
  split_ifs with harmed
  · rw [harmed] at hj
    exact .inl (hheld.setStage_over hj rfl).deleteDone
  · exact .inr ⟨hheld, .inr ⟨_, mem_concat_self⟩⟩

/-- A fragment that has not been posted is not to run the callback: the last
one because it has not, and the others because they never do. -/
theorem destroyTimer_fragment_triple {segIndex : ℕ} (I : CallState → Prop)
    (hI : ∀ s, I s → s.Plain 0 0 false ∧ (fragment segIndex fragmentNum).direct = false
      ∨ s.Held ∧ (fragment segIndex fragmentNum).direct = true) :
    CallTriple (fun s => I s ∧ s.Slot j (.fragment segIndex fragmentNum)) N
      (destroyTimer j) fun _ s _ => s.Plain 0 0 false := by
  rintro s l ⟨⟨hs, stage, hj⟩, -⟩ hbad
  rw [destroyTimer_apply hj] at hbad ⊢
  split_ifs at hbad ⊢ with harmed
  · rw [harmed] at hj
    rcases hI s hs with ⟨hplain, hdirect⟩ | ⟨hheld, hdirect⟩
    · exact hplain.setStage_over hj (by simp [Pending.direct, hdirect])
    · exact hheld.setStage_over hj hdirect
  · rcases hI s hs with ⟨hplain, -⟩ | ⟨-, hdirect⟩
    · exact hplain
    · exact absurd hdirect (hbad _ mem_concat_self)

theorem destroyTimer_closure_triple {c : ℕ} :
    CallTriple (fun s => s.Shared k n c ∧ s.Slot j (.closure k)) N
      (destroyTimer j) fun _ s l => s.Fresh ∨ (s.Shared k n c ∧ Excused l) := by
  rintro s l ⟨⟨hshared, stage, hj⟩, -⟩ hbad
  rw [destroyTimer_apply hj] at hbad ⊢
  split_ifs at hbad ⊢ with harmed
  · rw [harmed] at hj
    by_cases hwaiting : (s.setStage j .ended).waiting k = 0
    · simpa [deleteCallBack, hwaiting] using .inl (hshared.delete hj hwaiting)
    · exact absurd rfl (hbad .torn (mem_append_right _ (by
        simp [deleteCallBack, hwaiting])))
  · exact .inr ⟨hshared, .inr ⟨_, mem_concat_self⟩⟩

/-! ## Two-sided operations -/

theorem post_done_triple (j : ℕ) :
    CallTriple (fun s => s.Held ∧ s.Slot j .done) N (ask w >>= fun r =>
      if r ≠ .ok then destroyTimer j >>= fun _ => pure r else pure .ok)
      Settled := by
  refine ((steady_held.slot j .done).ask_triple w).bind fun r => ite (fun hr => ?_) fun _ => ?_
  · exact destroyTimer_done_triple.bind fun _ => pure fun _ _ h =>
      h.elim (.spent hr) fun h => .held (.inr h.2) h.1
  · exact pure fun _ _ h => .held (.inl rfl) h.1.1

theorem postWithTimer_triple : CallTriple Fresh N (postWithTimer w) Settled := by
  refine steady_fresh.prepareTimer_bind w (fun _ => Fresh.push_done) (fun r hr => ?_) fun j => ?_
  · exact ite (fun _ => fresh_destroy_return_triple hr) fun hok => absurd hr hok
  · exact ite (fun herror => absurd rfl herror) fun _ => post_done_triple w j

theorem asyncSplit_succ {J : CallState → Prop} (hJ : Steady J) {left : ℕ}
    (hpush : ∀ s : CallState, s.Plain 0 0 false →
      J (s.push (.fragment (fragmentNum - (left + 1)) fragmentNum)))
    (hdirect : ∀ s, J s → s.Plain 0 0 false
      ∧ (fragment (fragmentNum - (left + 1)) fragmentNum).direct = false
      ∨ s.Held
      ∧ (fragment (fragmentNum - (left + 1)) fragmentNum).direct = true)
    (hrest : CallTriple J N (asyncSplit w fragmentNum left) Settled) :
    CallTriple (Plain 0 0 false) N (asyncSplit w fragmentNum (left + 1)) Settled := by
  refine ((steady_plain 0 false).ask_triple w).bind fun _ => ite
    (fun _ => destroy_return_triple nofun) fun _ => ?_
  refine (steady_plain 0 false).prepareTimer_bind w hpush (fun r hr => ?_) fun j => ?_
  · exact ite (fun _ => destroy_return_triple hr) fun hok => absurd hr hok
  · refine ite (fun herror => absurd rfl herror) fun _ => ?_
    refine ((hJ.slot j _).ask_triple w).bind fun r => ite (fun hr => ?_) fun _ => ?_
    · exact (destroyTimer_fragment_triple J hdirect).bind fun _ =>
        (destroy_return_triple (N := fun _ => True) hr).pre fun _ _ h => ⟨h, trivial⟩
    · exact hrest.pre fun _ _ h => ⟨h.1.1, h.2⟩

/-- **The fragments of a message.** Up to the last one the callback is with
the caller; the last one has it. -/
theorem asyncSplit_triple (fragmentNum left : ℕ) (hleft : left < fragmentNum) :
    CallTriple (Plain 0 0 false) N (asyncSplit w fragmentNum (left + 1)) Settled := by
  induction left with
  | zero =>
    have hlast : (CallbackRef.fragment (fragmentNum - 1) fragmentNum).direct = true :=
      decide_eq_true rfl
    refine asyncSplit_succ w steady_held (fun s h => .inl ?_)
      (fun s h => .inr ⟨h, hlast⟩) (pure fun _ _ h => .held (.inl rfl) h.1)
    have := h.push (.fragment (fragmentNum - 1) fragmentNum) nofun
    rwa [if_pos hlast] at this
  | succ left ih =>
    have hnot : (CallbackRef.fragment (fragmentNum - (left + 1 + 1))
        fragmentNum).direct = false := decide_eq_false (by omega)
    refine asyncSplit_succ w (steady_plain 0 false) (fun s h => ?_)
      (fun s h => .inl ⟨h, hnot⟩) (ih (lt_of_succ_lt hleft))
    have := h.push (.fragment (fragmentNum - (left + 1 + 1)) fragmentNum) nofun
    rwa [hnot] at this

section

variable (ch : HcomChannelImp)

theorem asyncInner_triple {split : ℕ → CallM SerCode}
    (hsplit : ∀ fragmentNum, 1 < fragmentNum → CallTriple Fresh N (split fragmentNum) Settled)
    (size : UInt32) : CallTriple Fresh N (asyncInner w ch split size) Settled := by
  refine ite (fun _ => fresh_destroy_return_triple nofun) fun _ => ?_
  exact (steady_fresh.ask_triple w).bind fun r =>
    ite fresh_destroy_return_triple fun _ => ite (hsplit _) fun _ => postWithTimer_triple w

theorem split_triple (h : 1 < fragmentNum) :
    CallTriple Fresh N (asyncSplit w fragmentNum fragmentNum) Settled := by
  obtain ⟨left, rfl⟩ := exists_eq_succ_of_ne_zero (Nat.ne_zero_of_lt h)
  exact (asyncSplit_triple (N := N) w _ left (lt_succ_self left)).pre fun _ _ h => ⟨h.1.plain, h.2⟩

theorem asyncReplyInner_triple (size : UInt32) :
    CallTriple Fresh N (asyncReplyInner w ch size) Settled := by
  refine (steady_fresh.ask_triple w).bind fun r =>
    ite fresh_destroy_return_triple fun _ => ite (split_triple w) fun _ => ?_
  refine (steady_fresh.ask_triple w).bind fun r => ite fresh_destroy_return_triple fun _ => ?_
  exact (hold_triple fun _ => Fresh.push_done).bind fun _ =>
    pure fun _ _ h => .held (.inl rfl) h.1.1

/-! ## One-sided operations -/

/-- A run by the caller keeps what completions keep. -/
theorem Steady.runHere_triple {I J : CallState → Prop} (hJ : Steady J)
    (hIJ : ∀ s, I s → J (s.push cb)) :
    CallTriple I N (runHere w cb) fun _ s l => J s ∧ N l :=
  ((hold_triple hIJ).post fun _ _ _ h => ⟨h.1.1, h.2⟩).bind fun i =>
    (hJ.complete_triple i).bind fun _ => (hJ.ask_triple w).bind fun _ => hJ.complete_triple i

/-- The runs that are left make the promise good. -/
theorem processRemainCallback_triple (remainNums c : ℕ) (hc : c + remainNums = n) :
    CallTriple (Shared k n c) N (processRemainCallback w (.closure k) remainNums)
      fun _ s l => s.Shared k n n ∧ N l := by
  induction remainNums generalizing c with
  | zero => exact pure fun _ _ h => hc ▸ h
  | succ remainNums ih =>
    exact ((steady_shared k n (c + 1)).runHere_triple w fun _ h =>
      h.push (by omega)).bind fun _ => ih (c + 1) (by omega)

/-- **The rails of a transfer.** -/
theorem oneSideRails_shared_triple (left c : ℕ) (hc : c + left = n) :
    CallTriple (Shared k n c) N (oneSideRails w n (.closure k) left) Settled := by
  induction left generalizing c with
  | zero => exact pure fun _ _ h => .shared (.inl ⟨rfl, hc⟩) h.1
  | succ left ih =>
    have hlt : c < n := by omega
    have hreport : ∀ r, r ≠ ok → CallTriple (Shared k n c) N
        (note .reported >>= fun _ => processRemainCallback w (.closure k)
          (n - (n - (left + 1))) >>= fun _ => pure r) Settled := by
      intro r hr
      refine (note (Q := fun _ s l => s.Shared k n c ∧ Excused l)
        fun _ _ h _ => ⟨h.1, .inl mem_concat_self⟩).bind fun _ => ?_
      exact (processRemainCallback_triple w _ c (by omega)).bind fun _ =>
        pure fun _ _ h => .shared (.inr ⟨hr, h.2⟩) h.1
    refine ((steady_shared k n c).ask_triple w).bind fun r => ite (hreport r) fun _ => ?_
    refine (steady_shared k n c).prepareTimer_bind w (fun _ h => h.push hlt)
      (fun r hr => ite (fun _ => hreport r hr) fun hok => absurd hr hok)
      fun j => ite (fun herror => absurd rfl herror) fun _ => ?_
    refine (((steady_shared k n (c + 1)).slot j _).ask_triple w).bind fun r =>
      ite (fun hr => ?_) fun _ => ?_
    · exact destroyTimer_closure_triple.bind fun _ => pure fun _ _ h =>
        h.elim (.untouched hr) fun h => .shared (.inr ⟨hr, h.2⟩) h.1
    · exact (ih (c + 1) (by omega)).pre fun _ _ h => ⟨h.1.1, h.2⟩

/-- A single rail has the callback itself. -/
theorem oneSideRails_done_triple : CallTriple Fresh N (oneSideRails w 1 .done 1) Settled := by
  have hreport : ∀ r, r ≠ ok → CallTriple Fresh N
      (note .reported >>= fun _ => processRemainCallback w .done 1 >>= fun _ =>
        pure r) Settled := by
    intro r hr
    have hrun : CallTriple Fresh Excused (processRemainCallback w .done 1)
        fun _ s l => s.Held ∧ Excused l :=
      (steady_held.runHere_triple w fun _ => Fresh.push_done).bind fun _ => pure fun _ _ h => h
    refine (note (Q := fun _ s l => s.Fresh ∧ Excused l)
      fun _ _ h _ => ⟨h.1, .inl mem_concat_self⟩).bind fun _ => ?_
    exact hrun.bind fun _ => pure fun _ _ h => .held (.inr h.2) h.1
  refine (steady_fresh.ask_triple w).bind fun r => ite (hreport r) fun _ => ?_
  refine steady_fresh.prepareTimer_bind w (fun _ => Fresh.push_done)
    (fun r hr => ite (fun _ => hreport r hr) fun hok => absurd hr hok)
    fun j => ite (fun herror => absurd rfl herror) fun _ => ?_
  exact post_done_triple w j

theorem oneSideInner_triple (size : UInt32) :
    CallTriple Fresh N (oneSideInner w ch size) Settled := by
  refine ite (fun _ => fresh_destroy_return_triple nofun) fun _ => ?_
  have hpos := ch.multiNum_pos size
  show CallTriple Fresh N (getAsyncCB w (ch.multiNum size) >>= _) Settled
  generalize ch.multiNum size = n at hpos ⊢
  by_cases hn : n > 1
  · have hcb : CallTriple Fresh N (getAsyncCB w n) fun cb s l =>
        (cb = none ∧ s.Fresh ∧ N l) ∨ ∃ k, cb = some (.closure k) ∧ s.Shared k n 0 ∧ N l := by
      rw [getAsyncCB, if_pos hn]
      refine (steady_fresh.ask_triple w).bind fun _ => ite
        (fun _ => pure fun _ _ h => .inl ⟨rfl, h⟩) fun _ => ?_
      exact fun s l h _ => .inr ⟨_, rfl, h.1.share hpos, by simpa using h.2⟩
    refine hcb.bind fun cb s l h => ?_
    obtain ⟨rfl, h⟩ | ⟨k, rfl, h⟩ := h
    · exact fresh_destroy_return_triple (N := N) SerCode.noConfusion s l h
    · exact oneSideRails_shared_triple w n 0 (Nat.zero_add n) s l h
  · obtain rfl : n = 1 := by omega
    exact oneSideRails_done_triple w

theorem oneSideSglInner_triple : CallTriple Fresh N (oneSideSglInner w ch) Settled :=
  ite (fun _ => fresh_destroy_return_triple nofun) fun _ =>
    (steady_fresh.ask_triple w).bind fun _ =>
      ite fresh_destroy_return_triple fun _ => postWithTimer_triple w

/-! ## The operations of a channel -/

/-- A further attempt finds the callback as the first one did, or it has been
noted that it does not. -/
theorem Settled.fresh (h : Settled r s l)
    (hreleased : s.released = false) (hidle : s.Idle) : s.Fresh := by
  cases h with
  | spent _ h => exact nomatch h.released.symm.trans hreleased
  | untouched _ h => exact h
  | held _ h =>
    obtain h | h := h
    · exact nomatch h.direct.symm.trans hidle.direct_eq_zero
    · exact nomatch h.released.symm.trans hreleased
  | shared _ h =>
    obtain ⟨-, -, hruns, -⟩ := h.state.resolve_right fun h => nomatch h.1.symm.trans hreleased
    exact ⟨⟨h.misused, hruns, hreleased, h.direct,
      fun p hp hover => absurd (hidle p hp) hover⟩, hidle⟩

theorem attempt_triple {inner again : CallM SerCode} (hinner : CallTriple Fresh N inner Settled)
    (hagain : Triple (fun e => e.bad = true) (Settled .newObjectFailed) again Settled) :
    CallTriple Fresh N (attempt w inner again) Settled := by
  refine (steady_fresh.ask_triple w).bind fun _ =>
    ite fresh_destroy_return_triple fun _ => hinner.bind fun r =>
      ite (fun hr => ?_) fun _ => pure fun _ _ h => h
  rw [hr]
  exact hagain

theorem attempts_triple {inner : CallM SerCode}
    (hinner : CallTriple Fresh (fun _ => True) inner Settled) (retries : ℕ) :
    CallTriple Fresh (fun _ => True) (attempts w inner retries) Settled := by
  induction retries with
  | zero => exact attempt_triple w hinner (pure fun _ _ h => h)
  | succ retries ih =>
    refine attempt_triple w hinner (get_bind fun s₀ => ite (fun hfresh => ?_) fun _ => ?_)
    · rintro s l ⟨rfl, h⟩
      exact ih s l ⟨h.fresh hfresh.1 hfresh.2, trivial⟩
    · exact bind (Q := fun _ _ _ => False) (note fun _ _ _ hbad => hbad rfl) fun _ _ _ h => h.elim

theorem invoke_triple (retries : ℕ) (op : Operation) :
    CallTriple Fresh (fun _ => True) (ch.invoke w retries op) Settled := by
  cases op with
  | send req =>
    refine ite (fun _ => pure fun _ _ h => .untouched nofun h.1) fun _ => ?_
    exact attempts_triple w (asyncInner_triple w ch (fun _ => split_triple w) _) _
  | call req => exact attempts_triple w (asyncInner_triple w ch (fun _ => split_triple w) _) _
  | reply req => exact attempts_triple w (asyncReplyInner_triple w ch _) _
  | put size | get size => exact attempts_triple w (oneSideInner_triple w ch size) _
  | putV | getV => exact attempts_triple w (oneSideSglInner_triple w ch) _

end

/-- Completions leave the callback settled. -/
theorem settled_completes_triple (r : SerCode) (later : List ℕ) :
    Triple (fun e => e.bad = true) (Settled r) (completes later) fun _ => Settled r := by
  intro s l h hbad
  cases h with
  | spent hr h =>
    exact .spent hr ((steady_plain 0 true).completes_triple
      (N := fun _ => True) later s l ⟨h, trivial⟩ hbad).1
  | untouched hr h =>
    exact .untouched hr (steady_fresh.completes_triple
      (N := fun _ => True) later s l ⟨h, trivial⟩ hbad).1
  | held hr h =>
    obtain ⟨h, hr⟩ := steady_held.completes_triple
      (N := fun l => r = .ok ∨ Excused l) later s l ⟨h, hr⟩ hbad
    exact .held hr h
  | @shared k n c hr h =>
    obtain ⟨h, hr⟩ := (steady_shared k n c).completes_triple
      (N := fun l => r = .ok ∧ c = n ∨ r ≠ .ok ∧ Excused l) later s l ⟨h, hr⟩ hbad
    exact .shared hr h

end Outcome

/-! ## Once -/

/-- A call, and what the other threads complete after its return. -/
def HcomChannelImp.execute (ch : HcomChannelImp) (w : Surroundings)
    (retries : ℕ) (op : Operation) (later : List ℕ) : CallM SerCode := do
  let r ← ch.invoke w retries op
  completes later
  return r

/-- **The callback is accounted for**: used once at most and never after its
release; run once if the call has succeeded and all is over; and not run if
it has failed, unless the failure was reported that way or the timer was
taken before the post. -/
structure Accounted (r : SerCode) (s : CallState) (l : List Notice) : Prop where
  misused : s.misused = false
  runs_le : s.runs ≤ 1
  ok : r = .ok → s.Idle → s.runs = 1
  error : r ≠ .ok → s.runs = 0 ∨ Excused l

theorem Settled.accounted {r : SerCode} (h : Settled r s l) : Accounted r s l := by
  cases h with
  | spent hr h =>
    exact ⟨h.misused, h.runs ▸ zero_le 1, fun hok => absurd hok hr, fun _ => .inl h.runs⟩
  | untouched hr h =>
    exact ⟨h.plain.misused, h.plain.runs ▸ zero_le 1,
      fun hok => absurd hok hr, fun _ => .inl h.plain.runs⟩
  | held hr h =>
    obtain h | h := h
    · exact ⟨h.misused, h.runs ▸ zero_le 1,
        fun _ hidle => (nomatch h.direct.symm.trans hidle.direct_eq_zero), fun _ => .inl h.runs⟩
    · exact ⟨h.misused, Nat.le_of_eq h.runs, fun _ _ => h.runs,
        fun herror => .inr (hr.resolve_left herror)⟩
  | @shared k n c hr h =>
    obtain ⟨-, -, hruns, hlast⟩ | ⟨-, hruns, -, -⟩ := h.state
    · refine ⟨h.misused, hruns ▸ zero_le 1, fun hok hidle => ?_, fun _ => .inl hruns⟩
      -- all runs are over, so one of them was the last
      have hcounting : s.counting k = 0 := hidle.closure_eq_zero k nofun
      have harmed : s.armed k = 0 := hidle.closure_eq_zero k nofun
      have hpromised := h.promised
      obtain ⟨-, rfl⟩ := hr.resolve_right fun herror => herror.1 hok
      rw [harmed] at hpromised
      exact nomatch hcounting.symm.trans (hlast hpromised)
    · exact ⟨h.misused, Nat.le_of_eq hruns, fun _ _ => hruns,
        fun herror => .inr (hr.resolve_left fun hok => herror hok.1).2⟩

theorem accounted_of_execute (ch : HcomChannelImp) (w : Surroundings)
    (retries : ℕ) (op : Operation) (later : List ℕ)
    (hgood : ∀ e ∈ (ch.execute w retries op later {}).2.2, e.bad = false) :
    Accounted (ch.execute w retries op later {}).1
      (ch.execute w retries op later {}).2.1
      (ch.execute w retries op later {}).2.2 := by
  have hstart : CallState.Fresh {} := ⟨⟨rfl, rfl, rfl, rfl, nofun⟩, nofun⟩
  have hexecute : CallTriple Fresh (fun _ => True) (ch.execute w retries op later) Settled :=
    (invoke_triple w ch retries op).bind fun r =>
      (settled_completes_triple r later).bind fun _ => pure fun _ _ h => h
  exact (hexecute {} [] ⟨hstart, trivial⟩ fun e he => Bool.eq_false_iff.mp (hgood e he)).accounted

/-- A channel over two devices. -/
def twoRailChannel : HcomChannelImp where
  enableMultiRail := true
  driverNum := 2

/-- All goes well, and the two rails are completed one after the other. -/
theorem accounted_twoRails :
    (twoRailChannel.execute ⟨fun _ => .ok, fun _ => []⟩ 0 (.put 9000) [0, 0, 1, 1] {}).1 = .ok
      ∧ Accounted .ok (twoRailChannel.execute ⟨fun _ => .ok, fun _ => []⟩ 0
          (.put 9000) [0, 0, 1, 1] {}).2.1 []
      ∧ (twoRailChannel.execute ⟨fun _ => .ok, fun _ => []⟩ 0 (.put 9000)
          [0, 0, 1, 1] {}).2.1.runs = 1 :=
  ⟨by decide, accounted_of_execute twoRailChannel ⟨fun _ => .ok, fun _ => []⟩ 0
      (.put 9000) [0, 0, 1, 1] (by decide),
    by decide⟩

/-- Inner steps that succeed but for one. -/
def failingAt (n : ℕ) (code : SerCode) : Surroundings where
  answer i := if i = n then code else .ok
  others _ := []

/-- **The callback may be released twice, run after a failure, run twice, or
used after its release.** A `Send` whose timer could not be had has released
it, tries once more and releases it again when the flow control then fails. A
`Put` over two rails fails to prepare its second timer and returns the error;
the completion of the first rail runs the callback. A `Put` over two rails
succeeds, the two completions both count before one of them looks, and both
run it. A `Put` fails to post its second rail and deletes the wrapper; the
first rail then counts in it. And a `Send` of two fragments fails to post the
second, whose timer has just been out of time and has run the callback. -/
theorem exists_execute_not_once :
    (∃ w ch req, (HcomChannelImp.execute ch w 1 (.send req) [] {}).1 ≠ .ok
      ∧ (HcomChannelImp.execute ch w 1 (.send req) [] {}).2.1.misused = true)
    ∧ (∃ w size, (twoRailChannel.execute w 0 (.put size) [] {}).1 ≠ .ok
      ∧ (twoRailChannel.execute w 0 (.put size) [] {}).2.1.runs = 0
      ∧ (twoRailChannel.execute w 0 (.put size) [0, 0] {}).2.1.runs = 1)
    ∧ (∃ w size, (twoRailChannel.execute w 0 (.put size) [0, 1, 0, 1] {}).1 = .ok
      ∧ (twoRailChannel.execute w 0 (.put size) [0, 1, 0, 1] {}).2.1.runs = 2)
    ∧ (∃ w size, (twoRailChannel.execute w 0 (.put size) [0] {}).1 ≠ .ok
      ∧ (twoRailChannel.execute w 0 (.put size) [0] {}).2.1.misused = true)
    ∧ ∃ w ch req, (HcomChannelImp.execute ch w 0 (.send req) [] {}).1 ≠ .ok
      ∧ (HcomChannelImp.execute ch w 0 (.send req) [] {}).2.1.runs = 1
      ∧ (HcomChannelImp.execute ch w 0 (.send req) [] {}).2.1.misused = true := by
  refine ⟨⟨⟨fun i => if i = 2 then .newObjectFailed
      else if i = 3 then .timeout else .ok, fun _ => []⟩, {}, ⟨1, 1⟩, ?_⟩,
    ⟨failingAt 6 .notEstablished, 9000, ?_⟩, ⟨failingAt 100 .ok, 9000, ?_⟩,
    ⟨failingAt 7 .notEstablished, 9000, ?_⟩,
    ⟨{ failingAt 7 .notEstablished with others := fun i => if i = 7 then [1] else [] },
      { protocol := .tcp, userSplitSendThreshold := 1000, driverNum_pos := Nat.one_pos },
      ⟨1, 1500⟩, ?_⟩⟩
  · decide
  · decide
  · decide
  · decide
  · decide

end Service
