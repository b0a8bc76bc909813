import UbsComm.Service.TimerShares

/-!
# The life of a timer

A step of a party changes the view of the timer it is on, and of no other, so
that what a step keeps is a fact about one view; only the numbers relate
timers to each other.

In every run in which nobody takes a timer before its preparation is over and
`DestroyTimerContext` comes before the timer is returned, the callback of a
timer is used once, the timer is returned once, and nobody reads or changes
it afterwards: `lifecycle_of_timerRun`.

Both conditions are needed (`exists_run_misused`). The last reference is taken
after the timer has been pushed; where its time is up between these two
lines, the periodic thread drops three references of two. And the requester
has no reference: where the time is up before the post has failed, it reads a
timer that has been returned.
-/

namespace Service

open Function List Nat Option

/-! ## The whole system -/

/-- The number of one timer is not that of another still in use. -/
def View.Apart (v w : View) : Prop := ∀ no, v.stored no → w.timer.returned = 0 → w.timer.seqNo ≠ no

/-- A timer that has not been made. -/
structure View.Unknown (v : View) : Prop where
  stored : ∀ no, ¬ v.stored no
  listed : ∀ c, ¬ v.listed c
  queued : ∀ tId i, ¬ v.queued tId i
  left : ∀ p, v.left p = []

/-- **The invariant.** -/
structure TimerSystem.Inv (s : TimerSystem) : Prop where
  ok : ∀ t, t < s.made → (s.view t).Ok
  unknown : ∀ t, s.made ≤ t → (s.view t).Unknown
  apart : ∀ t u, u < s.made → u ≠ t → (s.view t).Apart (s.view u)
  zero : s.store 0 = none
  lists : ∀ c, (s.lists c).Nodup
  queues : ∀ tId i, (s.queues tId i).Nodup
  tasks : ∀ p, ((s.parties p).tasks.map Prod.fst).Nodup
  misused : s.misused = false

theorem HcomServiceTimer.returned_le_access (timer : HcomServiceTimer)
    (a : Access) : timer.returned ≤ (timer.access a).returned := by
  cases a with
  | decreaseRef share =>
    rw [access_decreaseRef]
    exact le_add_right _ _
  | runCallBack | deleteCallBack =>
    unfold access
    dsimp only
    split <;> exact Nat.le_refl _
  | _ => exact Nat.le_refl _

/-- What only the requester does, before the timer is prepared. -/
def Instr.preparing : Instr → Bool
  | .putAndGetSeqNo | .setSeqNo _ | .validate | .addTimerCtx | .push | .returnObj
  | .deleteDone => true
  | _ => false

section System

variable {s s₁ : TimerSystem} {p : Party} {t : ℕ} {i : Instr}
  {prog rest : List Instr} {tasks : List (ℕ × List Instr)} {ts : List ℕ} {tc : ℕ} {st : PartyState}
  {no : ℕ} {u : ℕ} {c : ℕ} {r : ℕ} {tId k : ℕ} {num : Option ℕ} {seqNo : ℕ}

namespace TimerSystem

/-- **What an instruction does to the system apart from its timer**: nothing. -/
structure Effect (s : TimerSystem) (t : ℕ) (s₁ : TimerSystem) : Prop where
  parties : s₁.parties = s.parties
  made : s₁.made = s.made
  misused : s₁.misused = s.misused
  others : ∀ u, u ≠ t → s₁.view u = s.view u
  lists : (∀ c, (s.lists c).Nodup) → ∀ c, (s₁.lists c).Nodup
  queues : (∀ tId i, (s.queues tId i).Nodup) → ∀ tId i, (s₁.queues tId i).Nodup

theorem touch_eq (h : (s.timers t).returned = 0) : s.touch t = s := by simp [touch, h]

theorem foldl_touch_eq (h : ∀ t ∈ ts, (s.timers t).returned = 0) : ts.foldl touch s = s := by
  induction ts with
  | nil => rfl
  | cons t ts ih =>
    obtain ⟨ht, hts⟩ := forall_mem_cons.mp h
    rw [foldl_cons, touch_eq ht, ih hts]

theorem lookup_eq_none (h : t ∉ tasks.map Prod.fst) : tasks.lookup t = none := by
  rw [lookup_eq_none_iff]
  intro task htask
  rw [bne_iff_ne]
  exact fun heq => h (mem_map.mpr ⟨task, htask, heq.symm⟩)

theorem left_eq (hp : s.parties p = .running ((t, prog) :: tasks)) : (s.view t).left p = prog := by
  simp [view, hp, PartyState.tasks]

theorem Inv.lt_made (hi : s.Inv)
    (hp : s.parties p = .running ((t, i :: rest) :: tasks)) : t < s.made :=
  Nat.lt_of_not_le fun hle =>
    cons_ne_nil i rest ((left_eq hp).symm.trans ((hi.unknown t hle).left p))

/-- The number of a timer is not that of another, nor the other way about. -/
def Apart (s : TimerSystem) (t : ℕ) (v : View) : Prop :=
  ∀ u, u < s.made → u ≠ t → v.Apart (s.view u) ∧ (s.view u).Apart v

/-- **One timer is changed.** -/
theorem Inv.of_view (hi : s.Inv) (ht : t < s.made) (hmade : s₁.made = s.made)
    (hok : (s₁.view t).Ok) (hne : ∀ u, u ≠ t → s₁.view u = s.view u)
    (hapart : s.Apart t (s₁.view t))
    (hzero : s₁.store 0 = none) (hlists : ∀ c, (s₁.lists c).Nodup)
    (hqueues : ∀ tId i, (s₁.queues tId i).Nodup)
    (htasks : ∀ p, ((s₁.parties p).tasks.map Prod.fst).Nodup) (hmisused : s₁.misused = false) :
    s₁.Inv where
  ok u hu := by
    by_cases hut : u = t
    · rwa [hut]
    · rw [hne u hut]
      exact hi.ok u (hmade ▸ hu)
  unknown u hu := by
    rw [hmade] at hu
    rw [hne u (by omega)]
    exact hi.unknown u hu
  apart u w hw hwu := by
    rw [hmade] at hw
    by_cases hut : u = t
    · subst hut
      rw [hne w hwu]
      exact (hapart w hw hwu).1
    · rw [hne u hut]
      by_cases hwt : w = t
      · subst hwt
        by_cases hu : u < s.made
        · exact (hapart u hu hwu.symm).2
        · exact fun no hno => absurd hno ((hi.unknown u (Nat.le_of_not_lt hu)).stored no)
      · rw [hne w hwt]
        exact hi.apart u w hw hwu
  zero := hzero
  lists := hlists
  queues := hqueues
  tasks := htasks
  misused := hmisused

/-- What is left to the parties, where one of them has other tasks, on one timer
only. -/
theorem left_setParty (hparties : s₁.parties = s.parties)
    (hself : (st.tasks.lookup t).getD [] = prog)
    (hrest : ∀ u, u ≠ t → st.tasks.lookup u = (s.parties p).tasks.lookup u) (u : ℕ) :
    ((s₁.setParty p st).view u).left
      = if u = t then update (s.view t).left p prog else (s.view u).left := by
  funext q
  show ((update s₁.parties p st q).tasks.lookup u).getD [] = _
  rw [hparties]
  by_cases hq : q = p
  · subst hq
    rw [update_self]
    split_ifs with hu
    · rw [hu, update_self, hself]
    · rw [hrest u hu]
      rfl
  · rw [update_of_ne hq]
    split_ifs with hu
    · rw [hu, update_of_ne hq]
      rfl
    · rfl

/-- **One party has something else to do on one timer.** -/
theorem Inv.setParty (hi : s.Inv) (ht : t < s.made) (he : s.Effect t s₁)
    (hself : (st.tasks.lookup t).getD [] = prog)
    (hrest : ∀ u, u ≠ t → st.tasks.lookup u = (s.parties p).tasks.lookup u)
    (hnodup : (st.tasks.map Prod.fst).Nodup) (hok : ((s₁.view t).goOn p prog).Ok)
    (hzero : s₁.store 0 = none) (hapart : s.Apart t (s₁.view t)) : (s₁.setParty p st).Inv := by
  have hleft := left_setParty he.parties hself hrest
  have hview : (s₁.setParty p st).view t = (s₁.view t).goOn p prog := by
    refine View.ext rfl rfl rfl rfl ((hleft t).trans ?_)
    rw [if_pos rfl]
    show _ = update (s₁.view t).left p prog
    simp only [view, he.parties]
  refine hi.of_view ht he.made (hview ▸ hok) (fun u hu => ?_) (hview ▸ hapart) hzero
    (he.lists hi.lists) (he.queues hi.queues) (fun q => ?_) (he.misused.trans hi.misused)
  · obtain ⟨htimer, hstored, hlisted, hqueued, -⟩ := View.ext_iff.mp (he.others u hu)
    exact View.ext htimer hstored hlisted hqueued ((hleft u).trans (if_neg hu))
  · by_cases hq : q = p
    · subst hq
      simpa [TimerSystem.setParty] using hnodup
    · simpa [TimerSystem.setParty, hq, he.parties] using hi.tasks q

theorem lookup_cons_of_ne (hu : u ≠ t) : ((t, prog) :: tasks).lookup u = tasks.lookup u := by
  rw [lookup_cons, beq_false_of_ne hu]

/-- **A party goes on with the first of its timers**, … -/
theorem Inv.goOn (hi : s.Inv) (hp : s.parties p = .running ((t, i :: rest) :: tasks))
    (he : s.Effect t s₁) (hok : ((s₁.view t).goOn p prog).Ok) (hzero : s₁.store 0 = none)
    (hapart : s.Apart t (s₁.view t)) : (s₁.goOn p t prog tasks).Inv := by
  have hold := hi.tasks p
  rw [hp] at hold
  refine hi.setParty (hi.lt_made hp) he ?_ (fun u hu => ?_) ?_ hok hzero hapart
  · cases prog <;> simp [PartyState.tasks, lookup_eq_none (nodup_cons.mp hold).1]
  · cases prog <;> simp [PartyState.tasks, hp, lookup_cons_of_ne hu]
  · cases prog with
    | nil => exact (nodup_cons.mp hold).2
    | cons => exact hold

/-- … or takes one more. -/
theorem Inv.take (hi : s.Inv) (ht : t < s.made) (he : s.Effect t s₁)
    (htasks : st.tasks = (s.parties p).tasks ++ [(t, prog)])
    (hnew : t ∉ (s.parties p).tasks.map Prod.fst) (hok : ((s₁.view t).goOn p prog).Ok)
    (hzero : s₁.store 0 = none) (hapart : s.Apart t (s₁.view t)) : (s₁.setParty p st).Inv := by
  refine hi.setParty ht he ?_ (fun u hu => ?_) ?_ hok hzero hapart
  · simp [htasks, lookup_append, lookup_eq_none hnew]
  · simp [htasks, lookup_append, lookup_cons_of_ne hu]
  · rw [htasks, map_append]
    exact nodup_append.mpr ⟨hi.tasks p, by simp, by
      rintro u hu _ hmem rfl
      obtain rfl : u = t := mem_singleton.mp hmem
      exact hnew hu⟩

/-- **Whom a party reads has not been returned**, save where the requester
cleans up. -/
theorem Inv.returned_eq_zero (hi : s.Inv) (hp : s.parties p = .running ((t, i :: rest) :: tasks))
    (hpost : i ≠ .post) (hdone : i ≠ .deleteDone)
    (herase : ∀ body, i :: rest = [.ifErased body] → (s.timers t).returned = 0)
    (hremove : ∀ no body, i :: rest = [.ifRemoved no body] → (s.timers t).returned = 0) :
    (s.timers t).returned = 0 := by
  have hleft := left_eq hp
  rcases (hi.ok t (hi.lt_made hp)).life with ⟨prog, num, l, q, h⟩ | ⟨hold, h⟩
  · obtain ⟨-, rfl⟩ := h.party hleft
    exact h.stage.returned_eq_zero (by simp [hdone])
  · cases hproc : hleft ▸ h.ledger.procedure p with
    | post => exact absurd rfl hpost
    | erase => exact herase _ rfl
    | remove => exact hremove _ _ rfl
    | settle _ hc => exact h.returned_eq_zero_of_covered hleft hc

theorem effect_update (timer : HcomServiceTimer) :
    s.Effect t { s with timers := update s.timers t timer } :=
  ⟨rfl, rfl, rfl, fun u hu => by simp [view, hu], id, id⟩

theorem view_update (timer : HcomServiceTimer) :
    { s with timers := update s.timers t timer }.view t = { s.view t with timer := timer } := by
  simp [view]

/-- Numbers stay apart where no timer gets a number, and none comes back. -/
theorem Inv.apart_of (hi : s.Inv) (ht : t < s.made) {v : View}
    (hstored : ∀ no, v.stored no → (s.view t).stored no)
    (hseqNo : v.timer.seqNo = (s.timers t).seqNo)
    (hret : v.timer.returned = 0 → (s.timers t).returned = 0) : s.Apart t v := by
  refine fun u hu hne => ⟨fun no hno => hi.apart t u hu hne no (hstored no hno), fun no hno h => ?_⟩
  rw [hseqNo]
  exact hi.apart u t ht hne.symm no hno (hret h)

/-- **An access to the fields.** -/
theorem Inv.exec_access (hi : s.Inv) {a : Access}
    (hp : s.parties p = .running ((t, .access a :: rest) :: tasks)) :
    ((s.modify t (·.access a)).goOn p t rest tasks).Inv := by
  have hret := hi.returned_eq_zero hp (by simp) (by simp) (by simp) (by simp)
  have ht := hi.lt_made hp
  have hleft := left_eq hp
  have hok := hi.ok t ht
  rw [modify, touch_eq hret]
  refine hi.goOn hp (effect_update _) ⟨?_, hok.oneQueue⟩ hi.zero
    (hi.apart_of ht (fun _ h => h) (by simp [view]) fun h => ?_)
  · rw [view_update]
    rcases hok.life with ⟨prog, num, l, q, h⟩ | ⟨hold, h⟩
    · obtain ⟨rfl, rfl⟩ := h.party hleft
      exact h.access
    · exact .inr (h.access hleft)
  · have := (s.timers t).returned_le_access a
    omega

theorem effect_refl : s.Effect t s := ⟨rfl, rfl, rfl, fun _ _ => rfl, id, id⟩

variable {body : List Access}

/-- **The number is read.** -/
theorem Inv.exec_ifErased (hi : s.Inv)
    (hp : s.parties p = .running ((t, .ifErased body :: rest) :: tasks))
    (herase : rest = [] → (s.timers t).returned = 0) :
    ((s.touch t).goOn p t (.ifRemoved (s.timers t).seqNo body :: rest) tasks).Inv := by
  have hret := hi.returned_eq_zero hp (by simp) (by simp)
    (fun _ h => herase (cons.inj h).2) (by simp)
  have ht := hi.lt_made hp
  have hleft := left_eq hp
  have hok := hi.ok t ht
  rw [touch_eq hret]
  refine hi.goOn hp effect_refl ⟨?_, hok.oneQueue⟩ hi.zero (hi.apart_of ht (fun _ h => h) rfl id)
  rcases hok.life with ⟨prog, num, l, q, h⟩ | ⟨hold, h⟩
  · obtain ⟨rfl, rfl⟩ := h.party hleft
    exact .inl ⟨_, _, _, _, { h with
      stage := h.stage.ifErased, left := h.left_goOn _ }⟩
  · exact .inr ⟨hold, h.erase hleft⟩

/-- A number is taken out under which no other timer is. -/
theorem effect_erase (hno : ∀ u, s.store no = some u → u = t) :
    s.Effect t { s with store := update s.store no none } := by
  refine ⟨rfl, rfl, rfl, fun u hu => ?_, id, id⟩
  refine View.ext rfl (funext fun x => propext ?_) rfl rfl rfl
  show update s.store no none x = some u ↔ s.store x = some u
  rw [update_apply]
  split_ifs with hx
  · exact iff_of_false (by simp) fun h => hu (hno u (hx ▸ h))
  · rfl

/-- … and it was the only number of its timer. -/
theorem view_erase (hno : ∀ x, s.store x = some t → x = no) :
    { s with store := update s.store no none }.view t
      = { s.view t with stored := fun _ => False } := by
  refine View.ext rfl (funext fun x => propext ?_) rfl rfl rfl
  show update s.store no none x = some t ↔ False
  rw [update_apply]
  split_ifs with hx
  · simp
  · exact iff_of_false (fun h => hx (hno x h)) id

theorem store_of_erase {x : ℕ} (h : update s.store no none x = some u) : s.store x = some u := by
  rw [update_apply] at h
  split at h
  exacts [absurd h (by simp), h]

theorem Inv.zero_erase (hi : s.Inv) (no : ℕ) : update s.store no none 0 = none := by
  rw [update_apply]
  split
  exacts [rfl, hi.zero]

/-- **The number is taken out of the store.** -/
theorem Inv.exec_ifRemoved (hi : s.Inv)
    (hp : s.parties p = .running ((t, .ifRemoved no body :: rest) :: tasks))
    (hremove : rest = [] → (s.timers t).returned = 0) :
    ({ s with store := update s.store no none }.goOn p t
      (if s.store no = some t then body.map Instr.access ++ rest else rest)
      tasks).Inv := by
  have hret := hi.returned_eq_zero hp (by simp) (by simp) (by simp)
    fun _ _ h => hremove (cons.inj h).2
  have ht := hi.lt_made hp
  have hleft := left_eq hp
  have hok := hi.ok t ht
  obtain ⟨rfl, honly⟩ : no = (s.timers t).seqNo ∧ ∀ x, s.store x = some t → x = no := by
    rcases hok.life with ⟨prog, num, l, q, h⟩ | ⟨hold, h⟩
    · obtain ⟨rfl, rfl⟩ := h.party hleft
      obtain ⟨hno, hnum, -⟩ := h.stage.ifRemoved
      exact ⟨hno, fun x hx => (some.inj (hnum.symm.trans ((h.stored x).mp hx))).symm⟩
    · have hno := (procedure_of_ifRemoved (hleft ▸ h.ledger.procedure p)).1
      exact ⟨hno, fun x hx => hno ▸ ((h.stored x).mp hx).2⟩
  have heq : ∀ u, s.store (s.timers t).seqNo = some u → u = t := fun u hu =>
    by_contra fun hne => hi.apart u t ht (Ne.symm hne) _ hu hret rfl
  refine hi.goOn hp (effect_erase heq) ⟨?_, hok.oneQueue⟩ (hi.zero_erase _)
    (hi.apart_of ht (fun _ => store_of_erase) rfl id)
  rw [view_erase honly]
  rcases hok.life with ⟨prog, num, l, q, h⟩ | ⟨hold, h⟩
  · obtain ⟨rfl, rfl⟩ := h.party hleft
    obtain ⟨-, rfl, hstage⟩ := h.stage.ifRemoved
    have hstored : s.store (s.timers t).seqNo = some t := (h.stored _).mpr rfl
    rw [if_pos hstored]
    exact .inl ⟨_, _, _, _, { h with
      stage := hstage, left := h.left_goOn _, stored := by simp }⟩
  · obtain ⟨-, hrest, hbody, hdrops⟩ := procedure_of_ifRemoved (hleft ▸ h.ledger.procedure p)
    split_ifs with hstored
    · refine .inr (h.takeStore hbody ((h.stored _).mp hstored).1 ?_)
      rw [hdrops, hleft]
      rfl
    · have hgo := h.goOn hrest (p := p) (by rw [hleft]; rfl)
      refine .inr ⟨hold, { hgo with stored := fun x => ?_ }⟩
      exact iff_of_false id fun hx => hstored ((h.stored _).mpr ⟨hx.1, rfl⟩)

/-- Timers in a list have not been returned, … -/
theorem Inv.returned_of_listed (hi : s.Inv) (h : t ∈ s.lists c) : (s.timers t).returned = 0 := by
  have ht : t < s.made := Nat.lt_of_not_le fun hle => (hi.unknown t hle).listed c h
  rcases (hi.ok t ht).life with ⟨prog, num, l, q, hv⟩ | ⟨hold, hv⟩
  · exact hv.stage.returned_eq_zero_of_placed (.inl ((hv.listed c).mp h).1)
  · exact hv.returned_eq_zero .list (by simp [((hv.listed c).mp h).1]) (by simp)

/-- … nor have those in a queue. -/
theorem Inv.returned_of_queued (hi : s.Inv)
    (h : t ∈ s.queues tId k) : (s.timers t).returned = 0 := by
  have ht : t < s.made := Nat.lt_of_not_le fun hle => (hi.unknown t hle).queued tId k h
  rcases (hi.ok t ht).life with ⟨prog, num, l, q, hv⟩ | ⟨hold, hv⟩
  · exact hv.stage.returned_eq_zero_of_placed (.inr (hv.queued.mp ⟨tId, k, h⟩))
  · exact hv.returned_eq_zero .queue (by simp [hv.queued.mp ⟨tId, k, h⟩]) (by simp)

theorem mem_of_mem_neighbours {t : ℕ} (h : u ∈ neighbours t ts) : u ∈ ts := by
  fun_induction neighbours t ts with
  | case1 => simp_all
  | case2 a l hne =>
    rcases mem_cons.mp h with rfl | h
    · exact mem_cons_self
    · exact mem_cons_of_mem _ (mem_cons_of_mem _ (mem_of_mem_take h))
  | case3 a b l hne hne' ih => exact mem_cons_of_mem _ (ih h)
  | case4 => cases h

theorem effect_lists (hmem : ∀ u, u ≠ t → (u ∈ ts ↔ u ∈ s.lists c))
    (hnodup : (s.lists c).Nodup → ts.Nodup) :
    s.Effect t { s with lists := update s.lists c ts } where
  parties := rfl
  made := rfl
  misused := rfl
  others u hu := by
    refine View.ext rfl rfl (funext fun x => propext ?_) rfl rfl
    show u ∈ update s.lists c ts x ↔ u ∈ s.lists x
    rw [update_apply]
    split_ifs with hx
    · rw [hx, hmem u hu]
    · rfl
  lists h x := by
    show (update s.lists c ts x).Nodup
    rw [update_apply]
    split
    exacts [hnodup (h c), h x]
  queues := id

section

variable (hi : s.Inv)
include hi

/-- **The timer is taken out of its list, if it is there.** -/
theorem Inv.exec_removeLinkedList
    (hp : s.parties p = .running ((t, .removeLinkedList :: rest) :: tasks))
    (h : s.exec tc t rest .removeLinkedList = some (s₁, prog)) : (s₁.goOn p t prog tasks).Inv := by
  have hret := hi.returned_eq_zero hp (by simp) (by simp) (by simp) (by simp)
  have ht := hi.lt_made hp
  have hleft := left_eq hp
  have hok := hi.ok t ht
  obtain ⟨hold, hv⟩ : ∃ hold, (s.view t).Settled hold := by
    rcases hok.life with ⟨prog, num, l, q, hv⟩ | hv
    · obtain ⟨rfl, rfl⟩ := hv.party hleft
      cases hv.stage
    · exact hv
  rw [exec, touch_eq hret] at h
  split_ifs at h with hlisted
  · rw [foldl_touch_eq fun u hu => hi.returned_of_listed (mem_of_mem_neighbours hu)] at h
    cases h
    have hview : { s with
        lists := update s.lists (s.timers t).channel
          ((s.lists (s.timers t).channel).erase t) }.view t
        = { s.view t with listed := fun _ => False } := by
      refine View.ext rfl rfl (funext fun x => propext ?_) rfl rfl
      show t ∈ update s.lists _ _ x ↔ False
      refine iff_of_false (fun hx => ?_) id
      rw [update_apply] at hx
      split_ifs at hx with hne
      · exact (hi.lists _).not_mem_erase hx
      · exact hne ((hv.listed x).mp hx).2
    refine hi.goOn hp (effect_lists (fun u hu => mem_erase_of_ne hu) fun hn => hn.erase t)
      ⟨?_, hok.oneQueue⟩ hi.zero (hi.apart_of ht (fun _ h => h) rfl id)
    rw [hview]
    exact .inr (hv.unlink hleft hlisted)
  · cases h
    exact hi.goOn hp effect_refl ⟨.inr ⟨hold, hv.skip hleft⟩, hok.oneQueue⟩ hi.zero
      (hi.apart_of ht (fun _ h => h) rfl id)

theorem Inv.preparing
    (hp : s.parties p = .running ((t, i :: rest) :: tasks)) (hprep : i.preparing = true) :
    t < s.made ∧ (i ≠ .deleteDone → (s.timers t).returned = 0) ∧
      p = .worker (s.timers t).requester ∧ ∃ num l q, (s.view t).Preparing (i :: rest) num l q := by
  have hleft := left_eq hp
  have ht := hi.lt_made hp
  rcases (hi.ok t ht).life with ⟨prog, num, l, q, h⟩ | ⟨hold, h⟩
  · obtain ⟨rfl, rfl⟩ := h.party hleft
    exact ⟨ht, fun hne => h.stage.returned_eq_zero (by simp [hne]), rfl, num, l, q, h⟩
  · cases hleft ▸ h.ledger.procedure p with
    | post | erase | remove => cases hprep
    | settle h =>
      have hset := h _ mem_cons_self
      cases i <;> first | exact hset.elim | exact nomatch hprep

/-- **The timer gets its number.** -/
theorem Inv.exec_setSeqNo (hp : s.parties p = .running ((t, .setSeqNo no :: rest) :: tasks)) :
    ((s.modify t fun timer => { timer with seqNo := no }).goOn p t rest tasks).Inv := by
  obtain ⟨ht, hret, rfl, num, l, q, h⟩ := hi.preparing hp rfl
  obtain ⟨rfl, hstage⟩ := h.stage.setSeqNo
  rw [modify, touch_eq (hret nofun)]
  refine hi.goOn hp (effect_update _) ⟨.inl ?_, (hi.ok t ht).oneQueue⟩
    hi.zero fun u hu hne => ⟨?_, ?_⟩
  · rw [view_update]
    exact ⟨_, _, _, _, { h with stage := hstage, left := h.left_goOn _ }⟩
  · rw [view_update]
    exact hi.apart t u hu hne
  · rw [view_update]
    -- the number is in the store under the timer itself
    intro x hx _ heq
    have hself : s.store no = some t := (h.stored no).mpr rfl
    have hother : s.store x = some u := hx
    rw [← show no = x from heq, hself] at hother
    exact hne (some.inj hother).symm

/-- **`AddTimer` takes the timer, or does not.** -/
theorem Inv.exec_validate (hp : s.parties p = .running ((t, .validate :: rest) :: tasks))
    (h : s.exec tc t rest .validate = some (s₁, prog)) : (s₁.goOn p t prog tasks).Inv := by
  obtain ⟨ht, hret, rfl, num, l, q, hv⟩ := hi.preparing hp rfl
  obtain ⟨hvalid, hfailed⟩ := hv.stage.validate
  rw [exec, touch_eq (hret nofun)] at h
  split at h <;> obtain ⟨rfl, rfl⟩ := Prod.mk.inj (some.inj h) <;>
    refine hi.goOn hp effect_refl ⟨.inl ?_, (hi.ok t ht).oneQueue⟩
      hi.zero (hi.apart_of ht (fun _ h => h) rfl id)
  · exact ⟨_, _, _, _, { hv with stage := hfailed, left := hv.left_goOn _ }⟩
  · exact ⟨_, _, _, _, { hv with stage := hvalid, left := hv.left_goOn _ }⟩

/-- **The timer is put into its list.** -/
theorem Inv.exec_addTimerCtx (hp : s.parties p = .running ((t, .addTimerCtx :: rest) :: tasks))
    (h : s.exec tc t rest .addTimerCtx = some (s₁, prog)) : (s₁.goOn p t prog tasks).Inv := by
  obtain ⟨ht, hret, rfl, num, l, q, hv⟩ := hi.preparing hp rfl
  obtain ⟨rfl, hstage⟩ := hv.stage.addTimerCtx
  have hnot (c : ℕ) : t ∉ s.lists c := fun hc => by simpa using (hv.listed c).mp hc
  rw [exec, touch_eq (hret nofun)] at h
  rw [foldl_touch_eq fun u hu => hi.returned_of_listed (mem_of_mem_take hu)] at h
  cases h
  refine hi.goOn hp (effect_lists (fun u hu => ?_) fun hn => ?_)
    ⟨.inl ?_, (hi.ok t ht).oneQueue⟩ hi.zero
    (hi.apart_of ht (fun _ h => h) rfl id)
  · rw [mem_cons, or_iff_right hu]
  · exact nodup_cons.mpr ⟨hnot _, hn⟩
  · refine ⟨_, _, _, _, { hv with
      stage := hstage, left := hv.left_goOn _, listed := fun c => ?_ }⟩
    show t ∈ update s.lists _ _ c ↔ true = true ∧ c = (s.timers t).channel
    by_cases hc : c = (s.timers t).channel <;> simp [hc, hnot]

omit hi in
/-- One queue of one thread is changed. -/
theorem update_update_apply (queues : ℕ → ℕ → List ℕ) (tId k : ℕ) (ts : List ℕ) (a b : ℕ) :
    update queues tId (update (queues tId) k ts) a b
      = if a = tId ∧ b = k then ts else queues a b := by
  by_cases ha : a = tId
  · subst ha
    simp [update_apply]
  · simp [ha]

omit hi in
/-- … in one timer. -/
theorem effect_queues {next : ℕ → ℕ} (hmem : ∀ u, u ≠ t → (u ∈ ts ↔ u ∈ s.queues tId k))
    (hnodup : (s.queues tId k).Nodup → ts.Nodup) :
    s.Effect t { s with
      queues := update s.queues tId (update (s.queues tId) k ts)
      nextIndex := next } where
  parties := rfl
  made := rfl
  misused := rfl
  others u hu := by
    refine View.ext rfl rfl rfl (funext fun a => funext fun b => propext ?_) rfl
    show u ∈ update s.queues tId _ a b ↔ u ∈ s.queues a b
    rw [update_update_apply]
    split_ifs with h
    · rw [h.1, h.2, hmem u hu]
    · rfl
  lists := id
  queues h a b := by
    show (update s.queues tId _ a b).Nodup
    rw [update_update_apply]
    split
    exacts [hnodup (h tId k), h a b]

/-- **The timer is pushed.** -/
theorem Inv.exec_push (hp : s.parties p = .running ((t, .push :: rest) :: tasks))
    (h : s.exec tc t rest .push = some (s₁, prog)) : (s₁.goOn p t prog tasks).Inv := by
  obtain ⟨ht, hret, rfl, num, l, q, hv⟩ := hi.preparing hp rfl
  obtain ⟨rfl, hstage⟩ := hv.stage.push
  have hnot (a b : ℕ) : t ∉ s.queues a b := fun hq => by
    simpa using hv.queued.mp ⟨a, b, hq⟩
  rw [exec, touch_eq (hret nofun)] at h
  rw [foldl_touch_eq fun u hu => hi.returned_of_queued hu] at h
  cases h
  have hqueued {tId k : ℕ} (a b : ℕ) :
      t ∈ update s.queues tId (update (s.queues tId) k (t :: s.queues tId k)) a b
        ↔ a = tId ∧ b = k := by
    rw [update_update_apply]
    split_ifs with hab
    · simp [hab]
    · exact iff_of_false (hnot a b) hab
  refine hi.goOn hp (effect_queues (fun u hu => ?_) fun hn => ?_)
    ⟨.inl ?_, fun a b a' b' hab hab' => ?_⟩ hi.zero
    (hi.apart_of ht (fun _ h => h) rfl id)
  · rw [mem_cons, or_iff_right hu]
  · exact nodup_cons.mpr ⟨hnot _ _, hn⟩
  · refine ⟨_, _, _, _, { hv with
      stage := hstage, left := hv.left_goOn _, queued := ?_ }⟩
    exact iff_of_true ⟨_, _, (hqueued _ _).mpr ⟨rfl, rfl⟩⟩ rfl
  · obtain ⟨ha, hb⟩ := (hqueued a b).mp hab
    obtain ⟨ha', hb'⟩ := (hqueued a' b').mp hab'
    exact ⟨ha.trans ha'.symm, hb.trans hb'.symm⟩

/-- **A timer that could not be prepared is returned**, … -/
theorem Inv.exec_returnObj (hp : s.parties p = .running ((t, .returnObj :: rest) :: tasks))
    (h : s.exec tc t rest .returnObj = some (s₁, prog)) : (s₁.goOn p t prog tasks).Inv := by
  obtain ⟨ht, -, rfl, num, l, q, hv⟩ := hi.preparing hp rfl
  cases h
  refine hi.goOn hp (effect_update _) ⟨.inl ?_, (hi.ok t ht).oneQueue⟩ hi.zero
    (hi.apart_of ht (fun _ h => h) (by simp [view]) fun h => ?_)
  · rw [view_update]
    exact ⟨_, _, _, _, { hv with
      stage := hv.stage.returnObj, left := hv.left_goOn _ }⟩
  · simp [view] at h

/-- … and its callback deleted. -/
theorem Inv.exec_deleteDone (hp : s.parties p = .running ((t, .deleteDone :: rest) :: tasks))
    (h : s.exec tc t rest .deleteDone = some (s₁, prog)) : (s₁.goOn p t prog tasks).Inv := by
  obtain ⟨ht, -, rfl, num, l, q, hv⟩ := hi.preparing hp rfl
  obtain ⟨rfl, rfl, rfl, rfl, hr⟩ := hv.stage.deleteDone
  cases h
  refine hi.goOn hp (effect_update _) ⟨.inr ⟨fun _ => .spent, ?_⟩, (hi.ok t ht).oneQueue⟩ hi.zero
    (hi.apart_of ht (fun _ h => h) (by simp [view]) (by simp [view]))
  rw [view_update]
  exact {
    ledger := .of_nobody fun p => (hv.left_goOn [] p).trans (by split <;> rfl)
    stored := fun x => (hv.stored x).trans (by simp)
    listed := fun c => (hv.listed c).trans (by simp)
    queued := hv.queued.trans (by simp)
    callback := by simp
    refCount := fun h => absurd (hr.symm.trans h) (by decide)
    returned := hr
    used := congrArg (· + 1) hv.used
    usable := by simp }

/-- **Every instruction keeps the invariant.** -/
theorem Inv.exec (hp : s.parties p = .running ((t, i :: rest) :: tasks))
    (herase : ∀ body, i :: rest = [.ifErased body] → (s.timers t).returned = 0)
    (hremove : ∀ no body, i :: rest = [.ifRemoved no body] → (s.timers t).returned = 0)
    (h : s.exec tc t rest i = some (s₁, prog)) : (s₁.goOn p t prog tasks).Inv := by
  cases i with
  | access a =>
    cases h
    exact hi.exec_access hp
  | ifErased body =>
    cases h
    exact hi.exec_ifErased hp fun hrest => herase body (by rw [hrest])
  | ifRemoved no body =>
    have hexec := hi.exec_ifRemoved hp fun hrest => hremove no body (by rw [hrest])
    rw [TimerSystem.exec] at h
    split_ifs at h hexec <;> obtain ⟨rfl, rfl⟩ := Prod.mk.inj (some.inj h) <;> exact hexec
  | removeLinkedList => exact hi.exec_removeLinkedList hp h
  | putAndGetSeqNo | post => cases h
  | setSeqNo no =>
    cases h
    exact hi.exec_setSeqNo hp
  | validate => exact hi.exec_validate hp h
  | addTimerCtx => exact hi.exec_addTimerCtx hp h
  | push => exact hi.exec_push hp h
  | returnObj => exact hi.exec_returnObj hp h
  | deleteDone => exact hi.exec_deleteDone hp h

/-! ## The other actions -/

theorem Inv.congr (htimers : s₁.timers = s.timers) (hmade : s₁.made = s.made)
    (hstore : s₁.store = s.store) (hlists : s₁.lists = s.lists) (hqueues : s₁.queues = s.queues)
    (hmisused : s₁.misused = s.misused) (htasks : ∀ p, (s₁.parties p).tasks = (s.parties p).tasks) :
    s₁.Inv := by
  have hview (u : ℕ) : s₁.view u = s.view u := by
    simp only [view, htimers, hstore, hlists, hqueues, htasks]
  exact {
    ok := fun u hu => hview u ▸ hi.ok u (hmade ▸ hu)
    unknown := fun u hu => hview u ▸ hi.unknown u (hmade ▸ hu)
    apart := fun u w hw hne => hview u ▸ hview w ▸ hi.apart u w (hmade ▸ hw) hne
    zero := hstore ▸ hi.zero
    lists := hlists ▸ hi.lists
    queues := hqueues ▸ hi.queues
    tasks := fun p => htasks p ▸ hi.tasks p
    misused := hmisused ▸ hi.misused }

theorem Inv.setParty_eq (htasks : st.tasks = (s.parties p).tasks) : (s.setParty p st).Inv := by
  refine hi.congr rfl rfl rfl rfl rfl rfl fun q => ?_
  by_cases hq : q = p
  · subst hq
    simp [TimerSystem.setParty, htasks]
  · simp [TimerSystem.setParty, hq]

end

end TimerSystem

/-! ### Conditions -/

/-- What belongs to the preparation of a timer. -/
def Instr.prepares : Instr → Bool
  | .putAndGetSeqNo | .access (.increaseRef _) | .setSeqNo _ | .validate
  | .addTimerCtx | .push | .returnObj => true
  | _ => false

/-- `PrepareTimerContext` of the timer has returned. -/
def TimerSystem.prepared (s : TimerSystem) (t : ℕ) : Bool :=
  ((s.view t).left (.worker (s.timers t).requester)).all fun i => !i.prepares

/-- The timer whose number `DestroyTimerContext` is about to read, or to take
out of the store. -/
def TimerSystem.destroying (s : TimerSystem) (p : Party) : Option ℕ :=
  match s.parties p with
  | .running ((t, [.ifErased _]) :: _) | .running ((t, [.ifRemoved _ _]) :: _) => some t
  | _ => none

/-- **Nobody comes between**: a number is given to no second timer in use,
nobody takes a timer whose preparation is not over, and
`DestroyTimerContext` finds its timer not returned. -/
def Undisturbed (s : TimerSystem) : TimerAction → Prop
  | .put _ (some no) => no ≠ 0 ∧ ∀ t < s.made, (s.timers t).returned = 0 → (s.timers t).seqNo ≠ no
  | .respond _ no _ => ∀ t ∈ s.store no, s.prepared t = true
  | .broken _ channel => ∀ t ∈ s.lists channel, s.prepared t = true
  | .inspect _ _ t => s.ready t = true → s.prepared t = true
  | .cleanUp _ _ t => s.prepared t = true
  | .step p => ∀ t ∈ s.destroying p, (s.timers t).returned = 0
  | _ => True

instance (s : TimerSystem) : (x : TimerAction) → Decidable (Undisturbed s x)
  | .put _ (some no) => inferInstanceAs (Decidable (no ≠ 0
      ∧ ∀ t < s.made, (s.timers t).returned = 0 → (s.timers t).seqNo ≠ no))
  | .respond _ no _ => inferInstanceAs (Decidable (∀ t ∈ s.store no, s.prepared t = true))
  | .broken _ channel => inferInstanceAs (Decidable (∀ t ∈ s.lists channel, s.prepared t = true))
  | .inspect _ _ t => inferInstanceAs (Decidable (s.ready t = true → s.prepared t = true))
  | .cleanUp _ _ t => inferInstanceAs (Decidable (s.prepared t = true))
  | .step p => inferInstanceAs (Decidable (∀ t ∈ s.destroying p, (s.timers t).returned = 0))
  | .put _ none | .tick | .stop | .prepare _ _ _ | .post _ _ | .scan _ | .handle _ =>
    .isTrue trivial

/-- What is left after the preparation has failed is in no place. -/
theorem Stage.gone {l q : Bool} {n : ℤ} (h : Stage prog num l q n r seqNo)
    (hall : prog.all (fun i => !i.prepares) = true) : num = none ∧ l = false ∧ q = false := by
  cases h with
  | returned => exact ⟨rfl, rfl, rfl⟩
  | _ => exact absurd hall (by
      simp [prepareTimerContext, prepareNumbered, addTimerFailed, putFailed, Instr.prepares])

namespace TimerSystem

section

variable (hi : s.Inv)
include hi

/-- A timer that is prepared and still in a place is settled. -/
theorem Inv.settled (hprep : s.prepared t = true)
    (hplace : (∃ no, s.store no = some t) ∨ (∃ c, t ∈ s.lists c) ∨ ∃ tId k, t ∈ s.queues tId k) :
    t < s.made ∧ ∃ hold, (s.view t).Settled hold := by
  have ht : t < s.made := Nat.lt_of_not_le fun hle => by
    have hu := hi.unknown t hle
    rcases hplace with ⟨no, h⟩ | ⟨c, h⟩ | ⟨tId, k, h⟩
    exacts [hu.stored no h, hu.listed c h, hu.queued tId k h]
  refine ⟨ht, ?_⟩
  rcases (hi.ok t ht).life with ⟨prog, num, l, q, hv⟩ | hv
  · have hleft : (s.view t).left (.worker (s.timers t).requester) = prog :=
      (hv.left _).trans (if_pos rfl)
    rw [prepared, hleft] at hprep
    obtain ⟨rfl, rfl, rfl⟩ := hv.stage.gone hprep
    rcases hplace with ⟨no, h⟩ | ⟨c, h⟩ | ⟨tId, k, h⟩
    · exact nomatch (hv.stored no).mp h
    · exact nomatch ((hv.listed c).mp h).1
    · exact nomatch hv.queued.mp ⟨tId, k, h⟩
  · exact hv

/-- **The number is given**, or not. -/
theorem Inv.put (no : Option ℕ)
    (hp : s.parties p = .running ((t, .putAndGetSeqNo :: rest) :: tasks))
    (hfree : ∀ x ∈ no, s.store x = none) (hzero : ∀ x ∈ no, x ≠ 0)
    (hnew : ∀ x ∈ no, ∀ u < s.made, (s.timers u).returned = 0 → (s.timers u).seqNo ≠ x) :
    (match no with
      | none => s.goOn p t putFailed tasks
      | some x => { s with store := update s.store x (some t) }.goOn p t
          (prepareNumbered x) tasks).Inv := by
  obtain ⟨ht, -, rfl, num, l, q, hv⟩ := hi.preparing hp rfl
  have hqueue := (hi.ok t ht).oneQueue
  cases no with
  | none =>
    obtain ⟨rfl, -, hstage⟩ := hv.stage.put 0
    exact hi.goOn hp effect_refl ⟨.inl ⟨_, _, _, _, { hv with
      stage := hstage, left := hv.left_goOn _ }⟩, hqueue⟩ hi.zero
      (hi.apart_of ht (fun _ h => h) rfl id)
  | some x =>
    obtain ⟨rfl, hstage, -⟩ := hv.stage.put x
    have hstored (y u : ℕ) : update s.store x (some t) y = some u
        ↔ s.store y = some u ∨ y = x ∧ u = t := by
      rw [update_apply]
      split_ifs with hy
      · simp [hy, hfree x rfl, eq_comm]
      · simp [hy]
    have hself (y : ℕ) : update s.store x (some t) y = some t ↔ y = x := by
      rw [hstored]
      exact ⟨fun h => h.elim (fun h => absurd ((hv.stored y).mp h) (by simp))
        And.left, fun h => .inr ⟨h, rfl⟩⟩
    have he : s.Effect t { s with store := update s.store x (some t) } := {
      parties := rfl, made := rfl, misused := rfl, lists := id, queues := id
      others := fun u hu => View.ext rfl (funext fun y => propext
        ((hstored y u).trans (or_iff_left fun h => hu h.2))) rfl rfl rfl }
    refine hi.goOn hp he ⟨.inl ⟨_, _, _, _, { hv with
      stage := hstage, left := hv.left_goOn _
      stored := fun y => (hself y).trans (by simp [eq_comm]) }⟩, hqueue⟩ ?_
      fun u hu hne => ⟨fun y hy hret => ?_, hi.apart u t ht hne.symm⟩
    · exact (update_of_ne (hzero x rfl).symm _ _).trans hi.zero
    · rw [(hself y).mp hy]
      exact hnew x rfl u hu hret

theorem Inv.post (hp : s.parties p = .running ((t, .post :: rest) :: tasks)) (ok : Bool) :
    (s.goOn p t (if ok then rest else destroyTimerContext) tasks).Inv := by
  have ht := hi.lt_made hp
  have hleft := left_eq hp
  have hok := hi.ok t ht
  refine hi.goOn hp effect_refl ⟨.inr ?_, hok.oneQueue⟩ hi.zero
    (hi.apart_of ht (fun _ h => h) rfl id)
  rcases hok.life with ⟨prog, num, l, q, hv⟩ | ⟨hold, hv⟩
  · obtain ⟨rfl, rfl⟩ := hv.party hleft
    cases hv.stage
  · exact ⟨hold, hv.post hleft ok⟩

/-- **A number is found in the store.** -/
theorem Inv.respond (hp : s.parties p = .running [])
    (hno : s.store no = some t) (hprep : s.prepared t = true) (spliced : Bool) :
    ({ s with store := update s.store no none }.setParty p (.running
      [(t, if spliced then spliceComplete else runRequestCallback)])).Inv := by
  obtain ⟨ht, hold, hv⟩ := hi.settled hprep (.inl ⟨no, hno⟩)
  obtain ⟨hproc, hdrops⟩ := procedure_respond (s.timers t).seqNo spliced
  have hleft : (s.view t).left p = [] := by simp [view, hp, PartyState.tasks]
  have honly (x : ℕ) (hx : s.store x = some t) : x = no :=
    ((hv.stored x).mp hx).2.trans ((hv.stored no).mp hno).2.symm
  refine hi.take ht (effect_erase fun u hu => ?_) (by rw [hp]; rfl)
    (by simp [hp, PartyState.tasks]) ⟨.inr ?_, (hi.ok t ht).oneQueue⟩
    (hi.zero_erase _) (hi.apart_of ht (fun x hx => store_of_erase hx) rfl id)
  · exact some.inj (hu.symm.trans hno)
  · rw [view_erase honly]
    exact hv.takeStore hproc ((hv.stored no).mp hno).1 (by rw [hdrops, hleft]; rfl)

omit hi in
theorem left_eq_of_all {task : ℕ × List Instr} (htask : task ∈ (s.parties p).tasks)
    (hall : ∀ task ∈ (s.parties p).tasks, task.2 = prog) : (s.view task.1).left p = prog := by
  show ((s.parties p).tasks.lookup task.1).getD [] = prog
  cases hlookup : (s.parties p).tasks.lookup task.1 with
  | none =>
    rw [lookup_eq_none_iff] at hlookup
    exact absurd (hlookup task htask) (by simp)
  | some prog' =>
    obtain ⟨l₁, l₂, heq, -⟩ := lookup_eq_some_iff.mp hlookup
    exact hall (task.1, prog') (heq ▸ by simp)

/-- **The top of a queue is taken off.** -/
theorem Inv.pop (htop : t ∈ s.queues tId k) (hprep : s.prepared t = true)
    (htasks : st.tasks = (s.parties p).tasks ++ [(t, processTimeOut)])
    (hall : ∀ task ∈ (s.parties p).tasks, task.2 = processTimeOut) :
    ((s.pop tId k t).setParty p st).Inv := by
  obtain ⟨ht, hold, hv⟩ := hi.settled hprep (.inr (.inr ⟨tId, k, htop⟩))
  have hplaced := hv.queued.mp ⟨tId, k, htop⟩
  have hok := hi.ok t ht
  -- the thread has not got the timer, for it would have the share of the queue
  have hnew : t ∉ (s.parties p).tasks.map Prod.fst := fun hmem => by
    obtain ⟨task, htask, rfl⟩ := mem_map.mp hmem
    have hleft : (s.view task.1).left p = processTimeOut := left_eq_of_all htask hall
    have hheld : hold .queue = .held p :=
      (hv.ledger.held p .queue).mpr (hleft ▸ by simp [processTimeOut, drops, Instr.drops])
    cases hplaced.symm.trans hheld
  have hleft : (s.view t).left p = [] := by simp [view, lookup_eq_none hnew]
  have hview : (s.pop tId k t).view t = { s.view t with queued := fun _ _ => False } := by
    refine View.ext rfl rfl rfl (funext fun a => funext fun b => propext ?_) rfl
    show t ∈ update s.queues tId _ a b ↔ False
    refine iff_of_false (fun hab => ?_) id
    rw [update_update_apply] at hab
    split_ifs at hab with hne
    · exact (hi.queues _ _).not_mem_erase hab
    · exact hne (hok.oneQueue a b tId k hab htop)
  rw [TimerSystem.pop, touch_eq (hi.returned_of_queued htop)] at hview ⊢
  refine hi.take ht (effect_queues (fun u hu => mem_erase_of_ne hu)
    fun hn => hn.erase t) htasks hnew ⟨.inr ?_, ?_⟩ hi.zero
    (hi.apart_of ht (fun _ h => h) rfl id)
  · rw [hview]
    exact hv.takeQueue procedure_processTimeOut hplaced (by rw [hleft]; rfl)
  · rw [hview]
    exact fun _ _ _ _ h => h.elim

/-- **The channel breaks**: its timers are taken out of the list. -/
theorem Inv.broken (hp : s.parties p = .running []) (hprep : ∀ t ∈ s.lists c, s.prepared t = true) :
    ({ s with lists := update s.lists c [] }.setParty p
      (.running ((s.lists c).map fun t => (t, processIo)))).Inv := by
  set s' := { s with lists := update s.lists c [] }.setParty p
    (.running ((s.lists c).map fun t => (t, processIo))) with hs'
  have hleft (u : ℕ) : (s'.view u).left = if u ∈ s.lists c then update (s.view u).left p processIo
        else (s.view u).left := by
    funext q
    by_cases hq : q = p
    · subst hq
      split_ifs with hu
      · have hmem : (u, processIo) ∈ (s'.parties q).tasks := by
          simp [hs', TimerSystem.setParty, PartyState.tasks, hu]
        exact left_eq_of_all hmem (by simp [hs', TimerSystem.setParty, PartyState.tasks])
      · have hnone : ((s.lists c).map fun t => (t, processIo)).lookup u = none :=
          lookup_eq_none (by simpa using hu)
        simp [hs', view, TimerSystem.setParty, PartyState.tasks, hnone, hp]
    · split <;> simp [hs', view, TimerSystem.setParty, hq]
  have hlisted (u x : ℕ) : u ∈ update s.lists c [] x ↔ u ∈ s.lists x ∧ x ≠ c := by
    by_cases hx : x = c <;> simp [hx]
  refine {
    ok := fun u hu => ?_, unknown := fun u hu => ?_, apart := hi.apart
    zero := hi.zero, lists := fun x => ?_, queues := hi.queues
    tasks := fun q => ?_, misused := hi.misused }
  · by_cases hmem : u ∈ s.lists c
    · obtain ⟨ht, hold, hv⟩ := hi.settled (hprep u hmem) (.inr (.inl ⟨c, hmem⟩))
      obtain ⟨hplaced, hc⟩ := (hv.listed c).mp hmem
      have hview : s'.view u = { (s.view u).goOn p processIo with listed := fun _ => False } := by
        refine View.ext rfl rfl (funext fun x => propext ?_) rfl ((hleft u).trans (if_pos hmem))
        refine (hlisted u x).trans (iff_of_false (fun h => h.2 ?_) id)
        exact ((hv.listed x).mp h.1).2.trans hc.symm
      have hnone : (s.view u).left p = [] := by simp [view, hp, PartyState.tasks]
      rw [hview]
      exact ⟨.inr (hv.takeList procedure_processIo hplaced (by rw [hnone]; rfl)),
        (hi.ok u ht).oneQueue⟩
    · have hview : s'.view u = s.view u := by
        refine View.ext rfl rfl (funext fun x => propext ?_) rfl ((hleft u).trans (if_neg hmem))
        exact (hlisted u x).trans (and_iff_left_of_imp fun h hx => hmem (hx ▸ h))
      rw [hview]
      exact hi.ok u hu
  · obtain ⟨hstored, hlist, hqueue, hnone⟩ := hi.unknown u hu
    exact ⟨hstored, fun x hx => hlist x ((hlisted u x).mp hx).1, hqueue, fun q => by
      rw [hleft u, if_neg (show u ∉ s.lists c from hlist c)]
      exact hnone q⟩
  · show (update s.lists c [] x).Nodup
    rw [update_apply]
    split
    exacts [nodup_nil, hi.lists x]
  · by_cases hq : q = p
    · subst hq
      simpa [hs', TimerSystem.setParty, PartyState.tasks, comp_def] using hi.lists c
    · simpa [hs', TimerSystem.setParty, hq] using hi.tasks q

/-- **A timer is made.** -/
theorem Inv.prepare (hp : s.parties (.worker r) = .running []) (channel : ℕ) (timeout : ℤ) :
    ({ s with
      timers := update s.timers s.made (.new channel r s.now timeout)
      made := s.made + 1 }.setParty (.worker r)
        (.running [(s.made, prepareTimerContext)])).Inv := by
  have hu₀ := hi.unknown s.made (Nat.le_refl _)
  set s' := { s with
    timers := update s.timers s.made (.new channel r s.now timeout)
    made := s.made + 1 }.setParty (.worker r) (.running [(s.made, prepareTimerContext)]) with hs'
  have hne {u : ℕ} (hu : u ≠ s.made) : s'.view u = s.view u := by
    refine View.ext (update_of_ne hu _ _) rfl rfl rfl (funext fun q => ?_)
    by_cases hq : q = .worker r
    · subst hq
      simp [hs', view, TimerSystem.setParty, PartyState.tasks, hp, lookup_cons_of_ne hu]
    · simp [hs', view, TimerSystem.setParty, hq]
  have hself : s'.view s.made = { (s.view s.made).goOn (.worker r) prepareTimerContext with
          timer := .new channel r s.now timeout } := by
    refine View.ext (update_self ..) rfl rfl rfl (funext fun q => ?_)
    by_cases hq : q = .worker r
    · subst hq
      simp [hs', view, View.goOn, TimerSystem.setParty, PartyState.tasks]
    · simp [hs', view, View.goOn, TimerSystem.setParty, hq]
  refine {
    ok := fun u hu => ?_, unknown := fun u hu => ?_, apart := fun u w hw hwu => ?_
    zero := hi.zero, lists := hi.lists, queues := hi.queues
    tasks := fun q => ?_, misused := hi.misused }
  · by_cases hum : u = s.made
    · rw [hum, hself]
      refine ⟨.inl ⟨_, none, false, false, {
        stage := .start 0
        left := fun q => ?_
        stored := fun no => iff_of_false (hu₀.stored no) (by simp)
        listed := fun c => iff_of_false (hu₀.listed c) (by simp)
        queued := iff_of_false (fun ⟨a, b, h⟩ => hu₀.queued a b h) (by simp)
        used := rfl
        callback := rfl }⟩, fun a b _ _ h => absurd h (hu₀.queued a b)⟩
      show update (s.view s.made).left (.worker r) _ q = _
      rw [update_apply, hu₀.left]
      rfl
    · rw [hne hum]
      exact hi.ok u (by have : u < s.made + 1 := hu; omega)
  · have hle : s.made + 1 ≤ u := hu
    rw [hne (by omega)]
    exact hi.unknown u (by omega)
  · have hlt : w < s.made + 1 := hw
    by_cases hum : u = s.made
    · rw [hum]
      exact fun no hno => absurd hno (hu₀.stored no)
    · rw [hne hum]
      by_cases hwm : w = s.made
      · -- no timer has the number zero in the store
        rw [hwm, hself]
        rintro no hno - rfl
        exact absurd (hno.symm.trans hi.zero) (by simp)
      · rw [hne hwm]
        exact hi.apart u w (by omega) hwu
  · by_cases hq : q = .worker r
    · subst hq
      simp [hs', TimerSystem.setParty, PartyState.tasks]
    · simpa [hs', TimerSystem.setParty, hq] using hi.tasks q

/-! ## Steps and runs -/

/-- **One step keeps the invariant.** -/
theorem Inv.step {x : TimerAction} (hx : Undisturbed s x)
    (h : timerStep tc s x = some s₁) : s₁.Inv := by
  cases x with
  | tick | stop =>
    cases h
    exact hi.congr rfl rfl rfl rfl rfl rfl fun _ => rfl
  | prepare r channel timeout =>
    rw [timerStep] at h
    split at h <;> cases h
    case h_1 hp => exact hi.prepare hp channel timeout
  | put r no =>
    rw [timerStep] at h
    split at h
    case h_2 => cases h
    case h_1 t rest tasks hp =>
      cases no with
      | none =>
        cases h
        exact hi.put none hp (by simp) (by simp) (by simp)
      | some no =>
        rw [ite_none_right_eq_some, some.injEq] at h
        obtain ⟨hfree, rfl⟩ := h
        exact hi.put (some no) hp (by simpa using hfree) (by simpa using hx.1) (by simpa using hx.2)
  | post r ok =>
    rw [timerStep] at h
    split at h <;> cases h
    case h_1 t rest tasks hp => exact hi.post hp ok
  | respond r no spliced =>
    rw [timerStep] at h
    split at h
    case h_2 => cases h
    case h_1 hp =>
      split at h <;> cases h
      case h_1 => exact hi
      case h_2 t hno => exact hi.respond hp hno (hx t hno) spliced
  | broken r channel =>
    rw [timerStep] at h
    split at h
    case h_2 => cases h
    case h_1 hp =>
      rw [foldl_touch_eq fun t ht => hi.returned_of_listed ht] at h
      cases h
      exact hi.broken hp hx
  | scan tId =>
    rw [timerStep] at h
    split at h <;> cases h
    case h_1 hp => exact hi.setParty_eq (by rw [hp]; rfl)
  | inspect tId k t =>
    rw [timerStep] at h
    split at h
    case h_2 => cases h
    case h_1 handleQueue hp =>
      split_ifs at h with htop hready <;> cases h
      · exact hi.pop htop.1 (hx hready) (by simp [hp, PartyState.tasks])
          (by simp [hp, PartyState.tasks])
      · rw [touch_eq (hi.returned_of_queued htop.1)]
        exact hi
  | handle tId =>
    rw [timerStep] at h
    split at h <;> cases h
    case h_1 handleQueue hp => exact hi.setParty_eq (by rw [hp]; rfl)
  | cleanUp tId k t =>
    rw [timerStep] at h
    split at h
    case h_2 => cases h
    case h_1 hp =>
      rw [ite_none_right_eq_some, some.injEq] at h
      obtain ⟨⟨-, htop⟩, rfl⟩ := h
      exact hi.pop htop.1 hx (by simp [hp, PartyState.tasks]) (by simp [hp, PartyState.tasks])
  | step p =>
    rw [timerStep] at h
    split at h
    case h_2 => cases h
    case h_1 t i rest tasks hp =>
      obtain ⟨⟨s', prog⟩, hexec, rfl⟩ := map_eq_some_iff.mp h
      exact hi.exec hp (fun body heq => hx t (by simp [destroying, hp, heq]))
        (fun no body heq => hx t (by simp [destroying, hp, heq])) hexec

end

theorem Inv.init : ({} : TimerSystem).Inv where
  ok t h := absurd h (not_lt_zero t)
  unknown t _ := ⟨fun _ h => absurd h (by simp [view]), fun _ h => absurd h (by simp [view]),
    fun _ _ h => absurd h (by simp [view]), fun _ => rfl⟩
  apart _ u h := absurd h (not_lt_zero u)
  zero := rfl
  lists _ := nodup_nil
  queues _ _ := nodup_nil
  tasks _ := nodup_nil
  misused := rfl

/-- **The life of a timer**: its callback is used once, it is returned once,
and not read or changed afterwards. Both have happened when the timer is in
no place any more and nobody has anything left to do on it. -/
structure Lifecycle (s : TimerSystem) : Prop where
  used : ∀ t < s.made, (s.timers t).used ≤ 1
  returned : ∀ t < s.made, (s.timers t).returned ≤ 1
  unread : s.misused = false
  ended : ∀ t < s.made, (s.view t).Unknown → (s.timers t).used = 1 ∧ (s.timers t).returned = 1

end TimerSystem

theorem Stage.ne_nil {l q : Bool} {n : ℤ}
    (h : Stage prog num l q n r seqNo) : prog ≠ [] ∧ r ≤ 1 := by
  cases h <;> exact ⟨by
    simp [prepareTimerContext, prepareNumbered, addTimerFailed, putFailed], by simp⟩

/-- What nobody has is gone. -/
theorem View.Settled.spent {v : View} {hold : Share → Hold} (h : v.Settled hold)
    (hu : v.Unknown) (share : Share) : hold share = .spent := by
  have hheld (p : Party) (share : Share) : hold share ≠ .held p := fun heq => by
    have := (h.ledger.held p share).mp heq
    rw [hu.left p] at this
    exact not_mem_nil this
  have hstore : hold .store ≠ .placed := fun heq => hu.stored _ ((h.stored _).mpr ⟨heq, rfl⟩)
  have hplaced : hold share ≠ .placed := by
    cases share with
    | store => exact hstore
    | list => exact fun heq => hu.listed _ ((h.listed _).mpr ⟨heq, rfl⟩)
    | queue =>
      intro heq
      obtain ⟨tId, k, hq⟩ := h.queued.mpr heq
      exact hu.queued tId k hq
    | callback => exact fun heq => hstore (h.callback.mp heq)
  cases hs : hold share with
  | placed => exact absurd hs hplaced
  | held p => exact absurd hs (hheld p share)
  | spent => rfl

theorem TimerSystem.Inv.lifecycle (hi : s.Inv) : s.Lifecycle := by
  refine ⟨fun t ht => ?_, fun t ht => ?_, hi.misused, fun t ht hu => ?_⟩ <;>
    rcases (hi.ok t ht).life with ⟨prog, num, l, q, h⟩ | ⟨hold, h⟩
  · rw [show (s.timers t).used = 0 from h.used]
    exact zero_le 1
  · rw [show (s.timers t).used = _ from h.used]
    split <;> simp
  · exact h.stage.ne_nil.2
  · rw [show (s.timers t).returned = _ from h.returned]
    split <;> simp
  · have hleft : (s.view t).left (.worker (s.timers t).requester) = prog :=
      (h.left _).trans (if_pos rfl)
    rw [hu.left] at hleft
    exact absurd hleft.symm h.stage.ne_nil.1
  · have hspent := h.spent hu
    refine ⟨h.used.trans (if_pos (hspent _)), h.returned.trans (if_pos ?_)⟩
    simp [liveRefs, hspent]

end System

/-- **The life of a timer**, in every run in which nobody comes between. -/
theorem lifecycle_of_timerRun (threadCount : ℕ) (xs : List TimerAction) (s : TimerSystem)
    (h : timerRun threadCount xs = some s)
    (hxs : Machine.Along (timerStep threadCount) Undisturbed {} xs) : s.Lifecycle := by
  have hi : s.Inv := Machine.run_invariant_along (fun _ _ _ hi hx h => hi.step hx h) .init hxs h
  exact hi.lifecycle

/-- A request that is answered before its time is up. -/
def answeredRun : List TimerAction :=
  [.prepare 1 0 9, .put 1 (some 5)] ++ List.replicate 7 (.step (.worker 1))
    ++ [.post 1 true, .respond 2 5 false] ++ List.replicate 3 (.step (.worker 2))
    ++ [.scan 0, .inspect 0 0 0, .handle 0]
    ++ List.replicate 5 (.step (.periodic 0))

theorem lifecycle_answeredRun : ∃ s, timerRun 1 answeredRun = some s ∧ s.Lifecycle
      ∧ (s.timers 0).used = 1 ∧ (s.timers 0).returned = 1 :=
  ⟨_, rfl, lifecycle_of_timerRun 1 answeredRun _ rfl (by decide), rfl, rfl⟩

/-- **Where a timer is read after its return.** In the first run the time is
up between the push and the last reference; in the second, before the post
fails. -/
theorem exists_run_misused : (∃ s, timerRun 1 ([.tick, .prepare 1 0 0, .put 1 (some 5)]
        ++ List.replicate 6 (.step (.worker 1))
        ++ [.tick, .scan 0, .inspect 0 0 0, .handle 0]
        ++ List.replicate 9 (.step (.periodic 0))) = some s
      ∧ (s.timers 0).returned = 1 ∧ s.misused = true)
    ∧ ∃ s, timerRun 1 ([.tick, .prepare 1 0 0, .put 1 (some 5)]
        ++ List.replicate 7 (.step (.worker 1))
        ++ [.tick, .scan 0, .inspect 0 0 0, .handle 0]
        ++ List.replicate 9 (.step (.periodic 0))
        ++ [.post 1 false, .step (.worker 1)]) = some s
      ∧ (s.timers 0).returned = 1 ∧ s.misused = true :=
  ⟨⟨_, rfl, rfl, rfl⟩, _, rfl, rfl, rfl⟩

end Service
