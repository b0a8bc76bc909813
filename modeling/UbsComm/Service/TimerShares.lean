import UbsComm.Service.Timer

/-!
# Who has which share of a timer

After `PrepareTimerContext` the three references and the callback of a timer
are each in one hand: in their place, with one party that is about to drop
it, or gone. Here this is said of one timer at a time. `TimerSystem.view` is
all of the system that is about one timer – its fields, where it is, and what
each party has left to do on it – and `View.Settled` says who has which
share. A ledger is kept by what the parties are about to do: a party holds
the shares that it is going to drop (`Ledger`), and takes a share out of its
place as it takes over what drops it (`Ledger.take`, `Ledger.drop`).

Before, a timer is known to its requester alone, and `Stage` says how far the
preparation has come.
-/

namespace Service

open Function List

/-! ## Accesses -/

section Access

variable (timer : HcomServiceTimer) (a : Access)

@[simp] theorem HcomServiceTimer.seqNo_access : (timer.access a).seqNo = timer.seqNo := by
  cases a <;> unfold access <;> dsimp only <;> split_ifs <;> rfl

theorem HcomServiceTimer.access_decreaseRef (share : Share) :
    timer.access (.decreaseRef share) = { timer with
      refCount := timer.refCount - 1
      returned := timer.returned + if timer.refCount - 1 = 0 then 1 else 0 } := by
  unfold access
  dsimp only
  split_ifs <;> rfl

end Access

/-! ## What the system is to one timer -/

/-- What of the system is about one timer. -/
@[ext]
structure View where
  timer : HcomServiceTimer
  stored : ℕ → Prop
  listed : ℕ → Prop
  queued : ℕ → ℕ → Prop
  /-- What a party has left to do on it. -/
  left : Party → List Instr

/-- The view of a timer. -/
def TimerSystem.view (s : TimerSystem) (t : ℕ) : View where
  timer := s.timers t
  stored no := s.store no = some t
  listed c := t ∈ s.lists c
  queued tId i := t ∈ s.queues tId i
  left p := ((s.parties p).tasks.lookup t).getD []

/-- A party goes on. -/
@[simps timer stored listed queued]
def View.goOn (v : View) (p : Party) (prog : List Instr) : View :=
  { v with left := update v.left p prog }

/-! ## Shares -/

/-- Where a share of a timer is. -/
inductive Hold where
  | placed
  | held (p : Party)
  | spent
deriving DecidableEq

/-- The share that an instruction drops. -/
def Instr.drops : Instr → Option Share
  | .access (.decreaseRef share) => some share
  | .access .runCallBack | .access .callbackRun | .access .deleteCallBack => some .callback
  | _ => none

/-- The shares that a procedure drops. -/
def drops (prog : List Instr) : List Share := prog.filterMap Instr.drops

/-- Every instruction comes before one that drops a reference. -/
def Covered : List Instr → Prop
  | [] => True
  | i :: rest => (∃ share ∈ drops (i :: rest), share ≠ .callback) ∧ Covered rest

/-- An access after the preparation. -/
def Access.Plain : Access → Prop
  | .increaseRef _ | .decreaseRef .callback => False
  | _ => True

/-- What is done under a number that was in the store uses the callback and
drops the reference of the store. -/
structure BodyOk (body : List Access) : Prop where
  drops : drops (body.map .access) = [.callback, .store]
  covered : Covered (body.map .access)
  plain : ∀ a ∈ body, a.Plain

/-- The instructions after the preparation. -/
def Instr.Settling (seqNo : ℕ) : Instr → Prop
  | .access a => a.Plain
  | .ifErased body => BodyOk body
  | .ifRemoved no body => no = seqNo ∧ BodyOk body
  | .removeLinkedList => True
  | _ => False

/-- What a party may have left to do after the preparation: to post, to clean
up after a post that has failed, or to drop its shares. -/
inductive Instr.Procedure (seqNo : ℕ) : List Instr → Prop where
  | post : Procedure seqNo [.post]
  | erase {body : List Access} (h : BodyOk body) : Procedure seqNo [.ifErased body]
  | remove {body : List Access} (h : BodyOk body) : Procedure seqNo [.ifRemoved seqNo body]
  | settle {prog : List Instr} (h : ∀ i ∈ prog, i.Settling seqNo)
      (hc : Covered prog) : Procedure seqNo prog

/-- **Who has which share**: what a party holds is what it is about to
drop. -/
structure Ledger (seqNo : ℕ) (left : Party → List Instr) (hold : Share → Hold) : Prop where
  procedure : ∀ p, Instr.Procedure seqNo (left p)
  nodup : ∀ p, (drops (left p)).Nodup
  held : ∀ p share, hold share = .held p ↔ share ∈ drops (left p)

/-- The references that are not gone. -/
def liveRefs (hold : Share → Hold) : ℤ := (if hold .store = .spent then 0 else 1)
    + (if hold .list = .spent then 0 else 1)
    + (if hold .queue = .spent then 0 else 1)

/-- **A timer that is prepared.** -/
structure View.Settled (v : View) (hold : Share → Hold) : Prop where
  ledger : Ledger v.timer.seqNo v.left hold
  stored : ∀ no, v.stored no ↔ hold .store = .placed ∧ no = v.timer.seqNo
  listed : ∀ c, v.listed c ↔ hold .list = .placed ∧ c = v.timer.channel
  queued : (∃ tId i, v.queued tId i) ↔ hold .queue = .placed
  callback : hold .callback = .placed ↔ hold .store = .placed
  refCount : v.timer.returned = 0 → v.timer.refCount = liveRefs hold
  returned : v.timer.returned = if liveRefs hold = 0 then 1 else 0
  used : v.timer.used = if hold .callback = .spent then 1 else 0
  usable : hold .callback ≠ .spent → v.timer.callback = true

/-! ## Preparation -/

/-- How far the preparation of a timer is: what is left of it, the number in
the store, whether the timer is in the list and in a queue, its reference
count, how often it has been returned, and its number. -/
inductive Stage : List Instr → Option ℕ → Bool → Bool → ℤ → ℕ → ℕ → Prop where
  | start (seqNo : ℕ) : Stage prepareTimerContext none false false 0 0 seqNo
  | numbered (no seqNo : ℕ) : Stage (prepareNumbered no) (some no) false false 0 0 seqNo
  | counted (no seqNo : ℕ) : Stage ((prepareNumbered no).drop 1) (some no) false false 1 0 seqNo
  | set (no : ℕ) : Stage ((prepareNumbered no).drop 2) (some no) false false 1 0 no
  | valid (no : ℕ) : Stage ((prepareNumbered no).drop 3) (some no) false false 1 0 no
  | listed (no : ℕ) : Stage ((prepareNumbered no).drop 4) (some no) true false 1 0 no
  | listCounted (no : ℕ) : Stage ((prepareNumbered no).drop 5) (some no) true false 2 0 no
  | queued (no : ℕ) : Stage ((prepareNumbered no).drop 6) (some no) true true 2 0 no
  | failed (no : ℕ) (n : ℤ) : Stage addTimerFailed (some no) false false n 0 no
  | erasing (no : ℕ) (n : ℤ) : Stage (.ifRemoved no [] :: putFailed) (some no) false false n 0 no
  | erased (n : ℤ) (seqNo : ℕ) : Stage putFailed none false false n 0 seqNo
  | returned (n : ℤ) (seqNo : ℕ) : Stage [.deleteDone] none false false n 1 seqNo

variable {a : Access} {seqNo : ℕ} {share : Share}

section Stages

variable {prog rest : List Instr} {num : Option ℕ} {l q : Bool} {n : ℤ}
  {r seqNo no : ℕ} {body : List Access}

namespace Stage

theorem returned_eq_zero (h : Stage prog num l q n r seqNo)
    (hne : prog ≠ [.deleteDone]) : r = 0 := by
  cases h with
  | returned => exact absurd rfl hne
  | _ => rfl

/-- What is in a list or in a queue has not been returned. -/
theorem returned_eq_zero_of_placed (h : Stage prog num l q n r seqNo)
    (hplaced : l = true ∨ q = true) : r = 0 := by
  cases h with
  | returned => simp at hplaced
  | _ => rfl

theorem put (h : Stage (.putAndGetSeqNo :: rest) num l q n r seqNo) (no : ℕ) :
    num = none ∧ Stage (prepareNumbered no) (some no) l q n r seqNo
      ∧ Stage putFailed none l q n r seqNo := by
  cases h with
  | start => exact ⟨rfl, .numbered _ _, .erased _ _⟩

theorem access (h : Stage (.access a :: rest) num l q n r seqNo) :
    ∃ share, a = .increaseRef share ∧ (Stage rest num l q (n + 1) r seqNo
        ∨ rest = [.post] ∧ num = some seqNo ∧ l = true ∧ q = true ∧ n = 2 ∧ r = 0) := by
  cases h with
  | numbered => exact ⟨_, rfl, .inl (.counted _ _)⟩
  | listed => exact ⟨_, rfl, .inl (.listCounted _)⟩
  | queued => exact ⟨_, rfl, .inr ⟨rfl, rfl, rfl, rfl, rfl, rfl⟩⟩

theorem setSeqNo (h : Stage (.setSeqNo no :: rest) num l q n r seqNo) :
    num = some no ∧ Stage rest num l q n r no := by
  cases h with
  | counted => exact ⟨rfl, .set _⟩

theorem validate (h : Stage (.validate :: rest) num l q n r seqNo) :
    Stage rest num l q n r seqNo ∧ Stage addTimerFailed num l q n r seqNo := by
  cases h with
  | set => exact ⟨.valid _, .failed _ _⟩

theorem addTimerCtx (h : Stage (.addTimerCtx :: rest) num l q n r seqNo) :
    l = false ∧ Stage rest num true q n r seqNo := by
  cases h with
  | valid => exact ⟨rfl, .listed _⟩

theorem push (h : Stage (.push :: rest) num l q n r seqNo) :
    q = false ∧ Stage rest num l true n r seqNo := by
  cases h with
  | listCounted => exact ⟨rfl, .queued _⟩

theorem ifErased (h : Stage (.ifErased body :: rest) num l q n r seqNo) :
    Stage (.ifRemoved seqNo body :: rest) num l q n r seqNo := by
  cases h with
  | failed => exact .erasing _ _

theorem ifRemoved (h : Stage (.ifRemoved no body :: rest) num l q n r seqNo) :
    no = seqNo ∧ num = some no ∧ Stage (body.map .access ++ rest) none l q n r seqNo := by
  cases h with
  | erasing => exact ⟨rfl, rfl, .erased _ _⟩

theorem returnObj (h : Stage (.returnObj :: rest) num l q n r seqNo) :
    Stage rest num l q n (r + 1) seqNo := by
  cases h with
  | erased => exact .returned _ _

theorem deleteDone (h : Stage (.deleteDone :: rest) num l q n r seqNo) :
    rest = [] ∧ num = none ∧ l = false ∧ q = false ∧ r = 1 := by
  cases h with
  | returned => exact ⟨rfl, rfl, rfl, rfl, rfl⟩

end Stage

end Stages

/-- **A timer in preparation**, which only its requester knows. -/
structure View.Preparing (v : View) (prog : List Instr) (num : Option ℕ) (l q : Bool) : Prop where
  stage : Stage prog num l q v.timer.refCount v.timer.returned v.timer.seqNo
  left : ∀ p, v.left p = if p = .worker v.timer.requester then prog else []
  stored : ∀ no, v.stored no ↔ num = some no
  listed : ∀ c, v.listed c ↔ l = true ∧ c = v.timer.channel
  queued : (∃ tId i, v.queued tId i) ↔ q = true
  used : v.timer.used = 0
  callback : v.timer.callback = true

/-- What holds of a timer at any time. -/
structure View.Ok (v : View) : Prop where
  life : (∃ prog num l q, v.Preparing prog num l q) ∨ ∃ hold, v.Settled hold
  oneQueue : ∀ tId i tId' i', v.queued tId i → v.queued tId' i' → tId = tId' ∧ i = i'

/-! ## What a party does to a timer that is prepared -/

section Ledger

variable {seqNo : ℕ} {left : Party → List Instr} {hold : Share → Hold}
  {p : Party} {prog : List Instr}

theorem Covered.append {prog' : List Instr} (h : Covered prog)
    (h' : Covered prog') : Covered (prog ++ prog') := by
  induction prog with
  | nil => exact h'
  | cons i rest ih =>
    obtain ⟨⟨share, hmem, hne⟩, hrest⟩ := h
    refine ⟨⟨share, ?_, hne⟩, ih hrest⟩
    show share ∈ drops ((i :: rest) ++ prog')
    rw [drops, filterMap_append]
    exact mem_append_left _ hmem

/-- **A party takes shares** out of their places, and goes on to drop them. -/
theorem Ledger.take (h : Ledger seqNo left hold) (taken : List Share)
    (hplaced : ∀ share ∈ taken, hold share = .placed) (hnodup : taken.Nodup)
    (hproc : Instr.Procedure seqNo prog) (hdrops : drops prog = taken ++ drops (left p)) :
    Ledger seqNo (update left p prog)
      (fun share => if share ∈ taken then .held p else hold share) where
  procedure q := by
    rw [update_apply]
    split
    exacts [hproc, h.procedure q]
  nodup q := by
    rw [update_apply]
    split_ifs
    · rw [hdrops]
      refine nodup_append.mpr ⟨hnodup, h.nodup p, ?_⟩
      rintro share hmem _ hmem' rfl
      have hheld := (h.held p share).mpr hmem'
      rw [hplaced share hmem] at hheld
      cases hheld
    · exact h.nodup q
  held q share := by
    by_cases hq : q = p
    · subst hq
      rw [update_self, hdrops, mem_append, ← h.held]
      split <;> simp [*]
    · rw [update_of_ne hq, ← h.held]
      split_ifs with hmem
      · simp [hplaced share hmem, Ne.symm hq]
      · rfl

section

variable (h : Ledger seqNo left hold) (hproc : Instr.Procedure seqNo prog)
include h hproc

/-- **A party goes on** without a change of shares. -/
theorem Ledger.goOn (hdrops : drops prog = drops (left p)) :
    Ledger seqNo (update left p prog) hold := by
  have htake := h.take [] (by simp) nodup_nil hproc hdrops
  simpa using htake

/-- **A party drops a share.** -/
theorem Ledger.drop (hdrops : drops (left p) = share :: drops prog) :
    Ledger seqNo (update left p prog) (update hold share .spent) where
  procedure q := by
    rw [update_apply]
    split
    exacts [hproc, h.procedure q]
  nodup q := by
    rw [update_apply]
    split
    exacts [(nodup_cons.mp (hdrops ▸ h.nodup p)).2, h.nodup q]
  held q share' := by
    have hnotin : share ∉ drops prog := (nodup_cons.mp (hdrops ▸ h.nodup p)).1
    have hshare : hold share = .held p := (h.held p share).mpr (hdrops ▸ mem_cons_self)
    rw [update_apply]
    by_cases hq : q = p
    · subst hq
      rw [update_self]
      split_ifs with hs
      · simp [hs, hnotin]
      · rw [h.held, hdrops, mem_cons, or_iff_right hs]
    · rw [update_of_ne hq, ← h.held]
      split_ifs with hs
      · simp [hs, hshare, Ne.symm hq]
      · rfl

end

end Ledger

section Refs

variable {hold : Share → Hold} {share : Share}

theorem liveRefs_congr {hold' : Share → Hold}
    (h : ∀ share, hold' share = .spent ↔ hold share = .spent) : liveRefs hold' = liveRefs hold := by
  simp only [liveRefs, h]

theorem liveRefs_ne_zero (hlive : hold share ≠ .spent)
    (hne : share ≠ .callback) : liveRefs hold ≠ 0 := by
  unfold liveRefs
  cases share with
  | store | list | queue => split_ifs <;> simp_all
  | callback => exact absurd rfl hne

theorem liveRefs_update (hlive : hold share ≠ .spent) (hne : share ≠ .callback) :
    liveRefs (update hold share .spent) = liveRefs hold - 1 := by
  unfold liveRefs
  cases share with
  | store | list => simp [hlive]; omega
  | queue => simp [hlive]
  | callback => exact absurd rfl hne

/-- Taking shares out of their places leaves them. -/
theorem take_eq_spent {taken : List Share} {p : Party}
    (h : ∀ share ∈ taken, hold share = .placed) (share : Share) :
    (if share ∈ taken then Hold.held p else hold share) = .spent ↔ hold share = .spent := by
  split_ifs with hmem
  · simp [h share hmem]
  · rfl

end Refs

section Moves

variable {v : View} {hold : Share → Hold} {p : Party} {prog rest : List Instr}

section

variable (h : v.Settled hold) {body : List Access}
include h

/-- A timer with a reference has not been returned. -/
theorem View.Settled.returned_eq_zero (share : Share) (hlive : hold share ≠ .spent)
    (hne : share ≠ .callback) : v.timer.returned = 0 := by
  rw [h.returned, if_neg (liveRefs_ne_zero hlive hne)]

/-- … and a party that has more to do than the requester has one. -/
theorem View.Settled.returned_eq_zero_of_covered {i : Instr} (hleft : v.left p = i :: rest)
    (hc : Covered (i :: rest)) : v.timer.returned = 0 := by
  obtain ⟨⟨share, hmem, hne⟩, -⟩ := hc
  refine h.returned_eq_zero share ?_ hne
  simp [(h.ledger.held p share).mpr (hleft ▸ hmem)]

section

variable (hproc : Instr.Procedure v.timer.seqNo prog)
include hproc

namespace View.Settled

theorem goOn (hdrops : drops prog = drops (v.left p)) : (v.goOn p prog).Settled hold :=
  { h with ledger := h.ledger.goOn hproc hdrops }

/-- **A party takes the number out of the store**, and the callback with
it. -/
theorem takeStore (hplaced : hold .store = .placed)
    (hdrops : drops prog = [.callback, .store] ++ drops (v.left p)) :
    ∃ hold', { v.goOn p prog with stored := fun _ => False }.Settled hold' := by
  have hcb := h.callback.mpr hplaced
  have htaken : ∀ share ∈ [Share.callback, .store], hold share = .placed := by simp [hcb, hplaced]
  have hrefs := liveRefs_congr (take_eq_spent (p := p) htaken)
  exact ⟨_, { h with
    ledger := h.ledger.take [.callback, .store] htaken (by decide) hproc hdrops
    stored := by simp
    callback := by simp
    refCount := hrefs ▸ h.refCount
    returned := hrefs ▸ h.returned
    used := by simpa [hcb] using h.used
    usable := by simpa [hcb] using h.usable }⟩

/-- **A party takes the timer out of its list.** -/
theorem takeList (hplaced : hold .list = .placed)
    (hdrops : drops prog = [.list] ++ drops (v.left p)) :
    ∃ hold', { v.goOn p prog with listed := fun _ => False }.Settled hold' := by
  have htaken : ∀ share ∈ [Share.list], hold share = .placed := by simp [hplaced]
  have hrefs := liveRefs_congr (take_eq_spent (p := p) htaken)
  exact ⟨_, { h with
    ledger := h.ledger.take [.list] htaken (by decide) hproc hdrops
    listed := by simp
    refCount := hrefs ▸ h.refCount
    returned := hrefs ▸ h.returned }⟩

/-- **The periodic thread takes the timer out of its queue.** -/
theorem takeQueue (hplaced : hold .queue = .placed)
    (hdrops : drops prog = [.queue] ++ drops (v.left p)) :
    ∃ hold', { v.goOn p prog with queued := fun _ _ => False }.Settled hold' := by
  have htaken : ∀ share ∈ [Share.queue], hold share = .placed := by simp [hplaced]
  have hrefs := liveRefs_congr (take_eq_spent (p := p) htaken)
  exact ⟨_, { h with
    ledger := h.ledger.take [.queue] htaken (by decide) hproc hdrops
    queued := by simp
    refCount := hrefs ▸ h.refCount
    returned := hrefs ▸ h.returned }⟩

/-- **A party uses the callback.** -/
theorem dropCallback (hdrops : drops (v.left p) = .callback :: drops prog)
    {callback : Bool} :
    ∃ hold', { v.goOn p prog with
      timer := { v.timer with
        callback := callback
        used := v.timer.used + 1 } }.Settled hold' := by
  have hheld : hold .callback = .held p := (h.ledger.held p _).mpr (hdrops ▸ mem_cons_self)
  have hstore : hold .store ≠ .placed := fun hs => nomatch hheld.symm.trans (h.callback.mpr hs)
  have hrefs : liveRefs (update hold .callback .spent) = liveRefs hold := by simp [liveRefs]
  exact ⟨_, { h with
    ledger := h.ledger.drop hproc hdrops
    callback := by simp [hstore]
    refCount := hrefs ▸ h.refCount
    returned := hrefs ▸ h.returned
    used := by simp [h.used, hheld]
    usable := by simp }⟩

/-- **A party drops a reference**, and returns the timer if it was the
last. -/
theorem dropRef (hne : share ≠ .callback)
    (hdrops : drops (v.left p) = share :: drops prog) :
    ∃ hold', { v.goOn p prog with
      timer := v.timer.access (.decreaseRef share) }.Settled hold' := by
  have hheld : hold share = .held p := (h.ledger.held p _).mpr (hdrops ▸ mem_cons_self)
  have hlive : hold share ≠ .spent := by simp [hheld]
  have hret := h.returned_eq_zero share hlive hne
  have hcount := h.refCount hret
  have hrefs := liveRefs_update hlive hne
  have hplaced (share' : Share) : update hold share .spent share'
      = .placed ↔ hold share' = .placed := by
    rw [update_apply]
    split_ifs with hs
    · simp [hs, hheld]
    · rfl
  have hcb : update hold share .spent .callback = hold .callback := update_of_ne hne.symm _ _
  rw [HcomServiceTimer.access_decreaseRef]
  exact ⟨update hold share .spent, {
    ledger := h.ledger.drop hproc hdrops
    stored := by simpa [hplaced] using h.stored
    listed := by simpa [hplaced] using h.listed
    queued := by simpa [hplaced] using h.queued
    callback := by simpa [hplaced] using h.callback
    refCount := fun _ => by simp [hcount, hrefs]
    returned := by simp [hcount, hret, hrefs]
    used := by simpa [hcb] using h.used
    usable := by simpa [hcb] using h.usable }⟩

end View.Settled

end

omit h in
/-- An instruction on fields of a timer, after the preparation. -/
theorem Instr.Procedure.of_access (h : Instr.Procedure seqNo (.access a :: rest)) :
    a.Plain ∧ Covered (.access a :: rest) ∧ Instr.Procedure seqNo rest := by
  cases h with
  | settle h hc =>
    exact ⟨h _ mem_cons_self, hc, .settle (fun i hi => h i (mem_cons_of_mem _ hi)) hc.2⟩

/-- **An access to the fields of a timer.** -/
theorem View.Settled.access (hleft : v.left p = .access a :: rest) :
    ∃ hold', { v.goOn p rest with timer := v.timer.access a }.Settled hold' := by
  obtain ⟨hplain, -, hproc⟩ := (hleft ▸ h.ledger.procedure p).of_access
  -- whoever uses the callback has it
  have husable (hdrops : drops (v.left p) = .callback :: drops rest) : v.timer.callback = true := by
    refine h.usable ?_
    simp [(h.ledger.held p .callback).mpr (hdrops ▸ mem_cons_self)]
  cases a with
  | timeoutDump | markFinished | markTimeout =>
    have hgo := h.goOn hproc (p := p) (by rw [hleft]; rfl)
    exact ⟨hold, { hgo with }⟩
  | runCallBack | deleteCallBack =>
    have hdrops : drops (v.left p) = .callback :: drops rest := by rw [hleft]; rfl
    rw [HcomServiceTimer.access, if_pos (husable hdrops)]
    exact h.dropCallback hproc hdrops
  | callbackRun => exact h.dropCallback hproc (by rw [hleft]; rfl)
  | increaseRef => exact hplain.elim
  | decreaseRef share =>
    refine h.dropRef hproc ?_ (by rw [hleft]; rfl)
    rintro rfl
    exact hplain

/-- **A party reads the number.** -/
theorem View.Settled.erase (hleft : v.left p = .ifErased body :: rest) :
    (v.goOn p (.ifRemoved v.timer.seqNo body :: rest)).Settled hold := by
  refine h.goOn ?_ (by rw [hleft]; rfl)
  cases hleft ▸ h.ledger.procedure p with
  | erase hbody => exact .remove hbody
  | settle hset hc =>
    obtain ⟨hbody, hrest⟩ := forall_mem_cons.mp hset
    exact .settle (forall_mem_cons.mpr ⟨⟨rfl, hbody⟩, hrest⟩) hc

omit h in
/-- What is left to do with the number that is to be taken out. -/
theorem procedure_of_ifRemoved {seqNo no : ℕ}
    (h : Instr.Procedure seqNo (.ifRemoved no body :: rest)) :
    no = seqNo ∧ Instr.Procedure seqNo rest ∧ (Instr.Procedure seqNo (body.map .access ++ rest)
        ∧ drops (body.map .access ++ rest) = [.callback, .store] ++ drops rest) := by
  have hsettle {rest : List Instr} (hbody : BodyOk body)
      (hset : ∀ i ∈ rest, i.Settling seqNo) (hc : Covered rest) :
      Instr.Procedure seqNo (body.map .access ++ rest)
        ∧ drops (body.map .access ++ rest) = [.callback, .store] ++ drops rest := by
    refine ⟨.settle ?_ (hbody.covered.append hc),
      by rw [drops, filterMap_append]; exact congrArg (· ++ _) hbody.drops⟩
    exact forall_mem_append.mpr ⟨forall_mem_map.mpr hbody.plain, hset⟩
  cases h with
  | remove hbody => exact ⟨rfl, .settle (by simp) trivial, hsettle hbody (by simp) trivial⟩
  | settle hset hc =>
    obtain ⟨⟨hno, hbody⟩, hrest⟩ := forall_mem_cons.mp hset
    exact ⟨hno, .settle hrest hc.2, hsettle hbody hrest hc.2⟩

/-- **A party takes the timer out of its list, if it is there.** -/
theorem View.Settled.unlink (hleft : v.left p = .removeLinkedList :: rest)
    (hlisted : v.listed v.timer.channel) :
    ∃ hold', { v.goOn p (.access (.decreaseRef .list) :: rest) with
      listed := fun _ => False }.Settled hold' := by
  refine h.takeList ?_ ((h.listed _).mp hlisted).1 (by rw [hleft]; rfl)
  cases hleft ▸ h.ledger.procedure p with
  | settle hset hc =>
    exact .settle (forall_mem_cons.mpr ⟨trivial, (forall_mem_cons.mp hset).2⟩)
      ⟨⟨.list, mem_cons_self, by simp⟩, hc.2⟩

theorem View.Settled.skip (hleft : v.left p = .removeLinkedList :: rest) :
    (v.goOn p rest).Settled hold := by
  refine h.goOn ?_ (by rw [hleft]; rfl)
  cases hleft ▸ h.ledger.procedure p with
  | settle hset hc => exact .settle (forall_mem_cons.mp hset).2 hc.2

end

/-! ## The procedures -/

theorem bodyOk_destroyTimerContext :
    BodyOk [.deleteCallBack, .markFinished, .decreaseRef .store] where
  drops := rfl
  covered := by simp [Covered, drops, Instr.drops]
  plain := by simp [Access.Plain]

theorem bodyOk_processIo :
    BodyOk [.timeoutDump, .markFinished, .runCallBack, .decreaseRef .store] where
  drops := rfl
  covered := by simp [Covered, drops, Instr.drops]
  plain := by simp [Access.Plain]

theorem bodyOk_processTimeOut :
    BodyOk [.timeoutDump, .markTimeout, .callbackRun, .decreaseRef .store] where
  drops := rfl
  covered := by simp [Covered, drops, Instr.drops]
  plain := by simp [Access.Plain]

variable {seqNo : ℕ}

theorem procedure_processIo : Instr.Procedure seqNo processIo :=
  .settle (by simp [processIo, Instr.Settling, bodyOk_processIo, Access.Plain])
    (by simp [processIo, Covered, drops, Instr.drops])

theorem procedure_processTimeOut : Instr.Procedure seqNo processTimeOut := .settle
    (by simp [processTimeOut, Instr.Settling, bodyOk_processTimeOut, Access.Plain])
    (by simp [processTimeOut, Covered, drops, Instr.drops])

/-- What the response handler does, and what is done when a message has been
put together. -/
theorem procedure_respond (seqNo : ℕ) (spliced : Bool) :
    Instr.Procedure seqNo (if spliced then spliceComplete else runRequestCallback)
      ∧ drops (if spliced then spliceComplete else runRequestCallback) = [.callback, .store] := by
  cases spliced with
  | false =>
    exact ⟨.settle (by simp [runRequestCallback, Instr.Settling, Access.Plain])
      (by simp [runRequestCallback, Covered, drops, Instr.drops]), rfl⟩
  | true =>
    exact ⟨.settle (by simp [spliceComplete, Instr.Settling, Access.Plain])
      (by simp [spliceComplete, Covered, drops, Instr.drops]), rfl⟩

/-- **After the post.** -/
theorem View.Settled.post (h : v.Settled hold) (hleft : v.left p = .post :: rest) (ok : Bool) :
    (v.goOn p (if ok then rest else destroyTimerContext)).Settled hold := by
  cases hleft ▸ h.ledger.procedure p with
  | settle hset => exact (hset _ mem_cons_self).elim
  | post =>
    refine h.goOn ?_ ?_
    · cases ok
      exacts [.erase bodyOk_destroyTimerContext, .settle (by simp) trivial]
    · rw [hleft]
      cases ok <;> rfl

end Moves

/-! ## What the requester does to a timer in preparation -/

section Preparation

variable {v : View} {prog rest : List Instr} {num : Option ℕ} {l q : Bool}
  {left : Party → List Instr}

/-- The requester goes on; nobody else has anything to do on the timer. -/
theorem View.Preparing.left_goOn (h : v.Preparing prog num l q) (prog' : List Instr) (p : Party) :
    (v.goOn (.worker v.timer.requester) prog').left p
      = if p = .worker v.timer.requester then prog' else [] := by
  show update v.left _ prog' p = _
  rw [update_apply, h.left]
  split <;> rfl

theorem View.Preparing.party (h : v.Preparing prog num l q) {p : Party} {i : Instr}
    (hleft : v.left p = i :: rest) : p = .worker v.timer.requester ∧ prog = i :: rest := by
  rw [h.left] at hleft
  split_ifs at hleft with hp
  exact ⟨hp, hleft⟩

/-- A timer that is posted has all its references in their places. -/
theorem Ledger.of_posting {r : Party} (h : ∀ p, left p = if p = r then [.post] else []) :
    Ledger seqNo left fun _ => .placed where
  procedure p := by
    rw [h]
    split
    exacts [.post, .settle (by simp) trivial]
  nodup p := by
    rw [h]
    split <;> exact nodup_nil
  held p share := by
    rw [h]
    refine iff_of_false nofun ?_
    split <;> exact not_mem_nil

theorem Ledger.of_nobody (h : ∀ p, left p = []) : Ledger seqNo left fun _ => .spent where
  procedure p := by
    rw [h]
    exact .settle (by simp) trivial
  nodup p := by
    rw [h]
    exact nodup_nil
  held p share := by
    rw [h]
    exact iff_of_false nofun not_mem_nil

/-- **A reference is taken.** -/
theorem View.Preparing.access (h : v.Preparing (.access a :: rest) num l q) :
    (∃ prog num l q, { v.goOn (.worker v.timer.requester) rest with
        timer := v.timer.access a }.Preparing prog num l q)
      ∨ ∃ hold, { v.goOn (.worker v.timer.requester) rest with
        timer := v.timer.access a }.Settled hold := by
  obtain ⟨share, rfl, hstage | ⟨rfl, rfl, rfl, rfl, hn, hr⟩⟩ := h.stage.access
  · exact .inl ⟨_, _, _, _, {
      stage := hstage, left := h.left_goOn _, stored := h.stored
      listed := h.listed, queued := h.queued, used := h.used
      callback := h.callback }⟩
  · exact .inr ⟨fun _ => .placed, {
      ledger := .of_posting (h.left_goOn _)
      stored := fun x => (h.stored x).trans ⟨fun hx => ⟨rfl, (Option.some.inj hx).symm⟩,
          fun hx => congrArg some hx.2.symm⟩
      listed := fun c => (h.listed c).trans (and_congr_left' (by simp))
      queued := h.queued.trans (by simp)
      callback := Iff.rfl
      refCount := fun _ => by simp [HcomServiceTimer.access, hn, liveRefs]
      returned := by simp [HcomServiceTimer.access, hr, liveRefs]
      used := h.used
      usable := fun _ => h.callback }⟩

end Preparation

end Service
