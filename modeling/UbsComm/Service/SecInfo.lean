import UbsComm.Lib.Execution

/-!
# Security validation of multi-link channels

A channel of the service may be made of several links, and each link runs
the security handshake on its own. So that the user is asked once per
channel and not once per link, `ServiceSecInfoProvider` and
`ServiceSecInfoValidator` keep what the first link has learned in
`mSecInfoMap`, under the id of the channel: `firstCallProvider` and
`firstCallValidator` say whether the provider and the validator have still
to be called. The entry goes away when the channel is complete, or when a
link breaks while the channel is still being put together.

Both functions hold `mNewEpMutex` twice, to find the entry and to store it
again, and call the user in between. The model follows that: a call is a
thread standing between its two locked sections with the copy of the entry
it has taken, and a run is any interleaving of such sections, of calls for
any channel ids by any threads, with any answers of the user's functions,
and with the erasure of entries.

What the user's validator has said, and when entries come and go, is kept
in a log. **Validation is not skipped** (`SecState.NotSkipped`) when each
call that returns 0 for a channel does so with an answer 0 of the user's
validator for that channel, given since the channel's entry was last
created – an answer is dated to the locked section that records it, so the
answer with which a call creates an entry counts.

The functions do not ensure this. `firstCallValidator` is lowered whatever
the answer was (`exists_run_validation_skipped`), and a provider call that
has found the entry validated puts it back, lowered flag included, when
the entry has been erased meanwhile.
Where neither happens – `SecState.Prudent` – validation is not skipped
(`notSkipped_of_secRun`).
-/

namespace Service

open Function Option List

/-! ## The entries -/

/-- `UBSHcomNetDriverSecType`. -/
inductive NetDriverSecType where
  | disabled
  | validOneWay
  | validTwoWay
deriving DecidableEq

/-- What a user's provider hands out: the out-parameters of
`ServiceSecInfoProvider`. -/
structure ProviderOutput where
  flag : Int64 := 0
  type : NetDriverSecType := .validOneWay
  /-- The address of the content, 0 for none. -/
  output : UInt64 := 0
  outLen : UInt32 := 0
  needAutoFree : Bool := false
deriving DecidableEq

/-- `ConnectingSecInfo`, with the defaults of its members. -/
structure ConnectingSecInfo where
  flag : Int64 := 0
  secContentLen : UInt32 := 0
  secContent : UInt64 := 0
  type : NetDriverSecType := .validOneWay
  needAutoFree : Bool := false
  firstCallProvider : Bool := true
  firstCallValidator : Bool := true
deriving DecidableEq

/-- `ConnectingSecInfo::Initialize`. -/
def ConnectingSecInfo.initializeWith (info : ConnectingSecInfo)
    (out : ProviderOutput) : ConnectingSecInfo :=
  { info with
    flag := out.flag, type := out.type, secContent := out.output,
    secContentLen := out.outLen, needAutoFree := out.needAutoFree,
    firstCallProvider := false }

/-- What a provider call after the first one returns. -/
def ConnectingSecInfo.provided (info : ConnectingSecInfo) : ProviderOutput :=
  ⟨info.flag, info.type, info.secContent, info.secContentLen, info.needAutoFree⟩

/-- `mSecInfoMap`. -/
abbrev SecInfoMap := UInt64 → Option ConnectingSecInfo

namespace SecInfoMap

section

variable (m : SecInfoMap) (c : UInt64)

/-- `find`, with the copy of the entry and `infoExist`. -/
def find : ConnectingSecInfo × Bool :=
  match m c with
  | some info => (info, true)
  | none => ({}, false)

section

variable (info : ConnectingSecInfo)

/-- `emplace`: an entry that is there already stays. -/
def emplace : SecInfoMap :=
  if (m c).isSome then m else update m c (some info)

/-- Assignment through `operator[]`: the entry is overwritten, or created. -/
def assign : SecInfoMap := update m c (some info)

/-- `erase`. -/
def erase : SecInfoMap := update m c none

/-- The end of both functions: the entry is added when the call had not
found one, and overwritten otherwise. -/
def store (infoExist : Bool) : SecInfoMap :=
  if !infoExist then m.emplace c info else m.assign c info

end

end

variable {m : SecInfoMap}

/-- After the store there is what was there, or the new entry. -/
theorem store_eq_some {c c' : UInt64} {info info' : ConnectingSecInfo} {infoExist : Bool}
    (h : m.store c info infoExist c' = some info') : m c' = some info' ∨ c' = c ∧ info = info' := by
  unfold store emplace assign at h
  split_ifs at h
  · exact .inl h
  all_goals
    rw [update_apply] at h
    split_ifs at h with hc
    · exact .inr ⟨hc, some.inj h⟩
    · exact .inl h

theorem store_isSome {c' : UInt64} (h : (m c').isSome) (c : UInt64) (info : ConnectingSecInfo)
    (infoExist : Bool) : (m.store c info infoExist c').isSome := by
  unfold store emplace assign
  split_ifs
  · exact h
  all_goals
    rw [update_apply]
    split_ifs
    · rfl
    · exact h

/-- A copy whose validator flag is lowered is the copy of an entry. -/
theorem find_marked {c : UInt64} (h : (m.find c).1.firstCallValidator = false) :
    m c = some (m.find c).1 := by
  unfold find at h ⊢
  cases hc : m c with
  | none =>
    rw [hc] at h
    cases h
  | some info => rfl

end SecInfoMap

/-! ## The two functions -/

/-- `SER_ERROR`. -/
def serError : Int32 := 500

/-- A call between its two locked sections, while the user's function
runs: the channel id, the copy of the entry and `infoExist`. -/
inductive SecCall where
  | validator (c : UInt64) (info : ConnectingSecInfo) (infoExist : Bool)
  | provider (c : UInt64) (info : ConnectingSecInfo) (infoExist : Bool)
deriving DecidableEq

/-- `ServiceSecInfoValidator` up to the call of the user's validator, or
the value it returns without that call. -/
def serviceSecInfoValidator (hasValidator : Bool) (m : SecInfoMap)
    (ctx : UInt64) : SecCall ⊕ Int32 :=
  let (info, infoExist) := m.find ctx
  if !info.firstCallValidator then .inr 0
  else if !hasValidator then .inr serError
  else .inl (.validator ctx info infoExist)

/-- The rest of `ServiceSecInfoValidator`; it returns the user's answer. -/
def serviceSecInfoValidatorStore (m : SecInfoMap) (ctx : UInt64)
    (info : ConnectingSecInfo) (infoExist : Bool) : SecInfoMap :=
  m.store ctx { info with firstCallValidator := false } infoExist

/-- `ServiceSecInfoProvider` up to the call of the user's provider, or what
it returns without that call. -/
def serviceSecInfoProvider (hasProvider : Bool) (m : SecInfoMap)
    (chId : UInt64) : SecCall ⊕ (Int32 × Option ProviderOutput) :=
  let (info, infoExist) := m.find chId
  if !info.firstCallProvider then .inr (0, some info.provided)
  else if !hasProvider then .inr (serError, none)
  else .inl (.provider chId info infoExist)

/-- The rest of `ServiceSecInfoProvider`; it returns the user's answer and
what the user's provider has handed out. -/
def serviceSecInfoProviderStore (m : SecInfoMap) (chId : UInt64)
    (info : ConnectingSecInfo) (infoExist : Bool) (out : ProviderOutput) :
    SecInfoMap :=
  m.store chId (info.initializeWith out) infoExist

/-! ## Interleavings -/

/-- What happens to a channel, as far as its validation is concerned. -/
inductive SecEvent where
  /-- An entry for `c` appears in the map. -/
  | created (c : UInt64)
  /-- The entry for `c` is erased. -/
  | erased (c : UInt64)
  /-- The user's validator answers `r` for `c`. -/
  | answered (c : UInt64) (r : Int32)
  /-- A call of `ServiceSecInfoValidator` for `c` returns `r`. -/
  | returned (c : UInt64) (r : Int32)
  /-- A call of `ServiceSecInfoProvider` for `c` returns `r`. -/
  | provided (c : UInt64) (r : Int32) (out : Option ProviderOutput)
deriving DecidableEq

/-- The map, the calls of the threads `τ` between their sections, and the
log, newest event first. -/
structure SecState (τ : Type) where
  map : SecInfoMap
  calls : τ → Option SecCall
  log : List SecEvent

/-- The service at its start. -/
def SecState.init (τ : Type) : SecState τ := ⟨fun _ => none, fun _ => none, []⟩

/-- The locked sections, and the erasure of an entry. -/
inductive SecAction (τ : Type) where
  | validatorFind (t : τ) (c : UInt64)
  | validatorStore (t : τ) (answer : Int32)
  | providerFind (t : τ) (c : UInt64)
  | providerStore (t : τ) (answer : Int32) (out : ProviderOutput)
  | erase (c : UInt64)

/-- The event of storing an entry where there is none. -/
def creation (m : SecInfoMap) (c : UInt64) : List SecEvent :=
  if (m c).isNone then [.created c] else []

section Machine

variable {τ : Type} [DecidableEq τ]

/-- **One locked section.** A thread is in one call at a time. -/
def secStep (hasProvider hasValidator : Bool) (s : SecState τ) : SecAction τ → Option (SecState τ)
  | .validatorFind t c =>
    if s.calls t = none then
      match serviceSecInfoValidator hasValidator s.map c with
      | .inl call => some { s with calls := update s.calls t (some call) }
      | .inr r => some { s with log := .returned c r :: s.log }
    else none
  | .validatorStore t answer =>
    match s.calls t with
    | some (.validator c info infoExist) =>
      some { map := serviceSecInfoValidatorStore s.map c info infoExist
             calls := update s.calls t none
             log := .returned c answer :: .answered c answer :: (creation s.map c ++ s.log) }
    | _ => none
  | .providerFind t c =>
    if s.calls t = none then
      match serviceSecInfoProvider hasProvider s.map c with
      | .inl call => some { s with calls := update s.calls t (some call) }
      | .inr r => some { s with log := .provided c r.1 r.2 :: s.log }
    else none
  | .providerStore t answer out =>
    match s.calls t with
    | some (.provider c info infoExist) =>
      some { map := serviceSecInfoProviderStore s.map c info infoExist out
             calls := update s.calls t none
             log := .provided c answer (some out) :: (creation s.map c ++ s.log) }
    | _ => none
  | .erase c => some { s with map := s.map.erase c, log := .erased c :: s.log }

/-- A run of the two functions from the start of the service. -/
def secRun (hasProvider hasValidator : Bool) (xs : List (SecAction τ)) : Option (SecState τ) :=
  Machine.run (secStep hasProvider hasValidator) (SecState.init τ) xs

end Machine

/-! ## What is asked of the log -/

/-- The user's validator has answered 0 for `c` since the entry of `c` was
last created. -/
def ValidatedSince (c : UInt64) (log : List SecEvent) : Prop :=
  .answered c 0 ∈ log.takeWhile (fun e => decide (e ≠ .created c))
deriving Decidable

/-- The event is an answer of the user's validator for `c`. -/
def SecEvent.AnswersFor (c : UInt64) : SecEvent → Prop
  | .answered c' _ => c' = c
  | _ => False

instance (c : UInt64) : (e : SecEvent) → Decidable (e.AnswersFor c)
  | .answered c' _ => inferInstanceAs (Decidable (c' = c))
  | .created _ | .erased _ | .returned _ _ | .provided _ _ _ => .isFalse id

/-- The user's validator has answered for `c` since the entry of `c` was
last created or erased. -/
def AnsweredSince (c : UInt64) (log : List SecEvent) : Prop :=
  ∃ e ∈ log.takeWhile (fun e => decide (e ≠ .created c ∧ e ≠ .erased c)), e.AnswersFor c
deriving Decidable

/-- **No validation is skipped**: every call that returns 0 for a channel
has an answer 0 of the user's validator to show for it. -/
def SecState.NotSkipped {τ : Type} (s : SecState τ) : Prop :=
  ∀ newer c older, s.log = newer ++ .returned c 0 :: older → ValidatedSince c older

/-- A provider call for `c` whose copy of the entry says that the validator
has been called. -/
def SecCall.CarriesMark (c : UInt64) : SecCall → Prop
  | .provider c' info _ => c' = c ∧ info.firstCallValidator = false
  | .validator _ _ _ => False

instance (c : UInt64) : (call : SecCall) → Decidable (call.CarriesMark c)
  | .provider _ _ _ => inferInstanceAs (Decidable (_ ∧ _))
  | .validator _ _ _ => .isFalse id

/-- **The condition on a step.** A validator call does not start for a
channel whose validation has failed – the user's validator has answered,
and never 0, since the entry was created – and an entry is not erased
while a provider call that has found it validated is under way. -/
def SecState.Prudent {τ : Type} (s : SecState τ) : SecAction τ → Prop
  | .validatorFind _ c => AnsweredSince c s.log → ValidatedSince c s.log
  | .erase c => ∀ t, ∀ call ∈ s.calls t, ¬call.CarriesMark c
  | .validatorStore _ _ | .providerFind _ _ | .providerStore _ _ _ => True

instance {τ : Type} [Fintype τ] (s : SecState τ) : (x : SecAction τ) → Decidable (s.Prudent x)
  | .validatorFind _ _ => inferInstanceAs (Decidable (_ → _))
  | .erase _ => inferInstanceAs (Decidable (∀ _, ∀ _ ∈ _, ¬_))
  | .validatorStore _ _ | .providerFind _ _ | .providerStore _ _ _ => .isTrue trivial

/-! ## The log, event by event -/

variable {l : List SecEvent} {m : SecInfoMap}

section Log

variable {c : UInt64} {log : List SecEvent} {e : SecEvent}

theorem validatedSince_cons :
    ValidatedSince c (e :: log) ↔ e ≠ .created c ∧ (e = .answered c 0 ∨ ValidatedSince c log) := by
  unfold ValidatedSince
  by_cases h : e = .created c <;> simp [h, eq_comm]

theorem answeredSince_cons : AnsweredSince c (e :: log) ↔ (e ≠ .created c ∧ e ≠ .erased c)
        ∧ (e.AnswersFor c ∨ AnsweredSince c log) := by
  unfold AnsweredSince
  by_cases h : e ≠ .created c ∧ e ≠ .erased c <;> simp [h]

/-- Only the creation or the erasure of the entry of `c` ends what has been
answered for `c`. -/
theorem AnsweredSince.cons (h : AnsweredSince c log) (hc : e ≠ .created c) (he : e ≠ .erased c) :
    AnsweredSince c (e :: log) :=
  answeredSince_cons.mpr ⟨⟨hc, he⟩, .inr h⟩

theorem AnsweredSince.creation {c' : UInt64} (h : AnsweredSince c log)
    (hc : c' = c → (m c).isSome) : AnsweredSince c (Service.creation m c' ++ log) := by
  unfold Service.creation
  split
  next hnone =>
    refine h.cons (fun heq => ?_) nofun
    obtain rfl : c' = c := SecEvent.created.inj heq
    rw [isNone_iff_eq_none] at hnone
    simpa [hnone] using hc rfl
  next => exact h

/-- Events that neither create nor erase an entry. -/
def KeepsEntries (l : List SecEvent) : Prop := ∀ e ∈ l, ∀ c, e ≠ .created c ∧ e ≠ .erased c

theorem AnsweredSince.append (h : AnsweredSince c log) (hl : KeepsEntries l) :
    AnsweredSince c (l ++ log) := by
  induction l with
  | nil => exact h
  | cons e l ih =>
    have he := hl e mem_cons_self c
    exact (ih fun e' h' => hl e' (mem_cons_of_mem e h')).cons he.1 he.2

end Log

namespace SecState

variable {τ : Type} {c : UInt64} {calls : τ → Option SecCall} {log : List SecEvent}

/-- Every return of 0 in the log is justified, event by event. -/
theorem notSkipped_cons {e : SecEvent} : (SecState.mk m calls (e :: log)).NotSkipped
      ↔ (∀ c, e = .returned c 0 → ValidatedSince c log) ∧ (SecState.mk m calls log).NotSkipped := by
  constructor
  · intro h
    refine ⟨fun c he => h [] c log (by rw [he]; rfl), fun newer c older hlog => ?_⟩
    exact h (e :: newer) c older (congrArg (e :: ·) hlog)
  · rintro ⟨hhead, htail⟩ newer c older hlog
    cases newer with
    | nil =>
      obtain ⟨he, rfl⟩ := cons.inj hlog
      exact hhead c he
    | cons e' newer => exact htail newer c older (cons.inj hlog).2

/-- The creation of an entry returns nothing. -/
theorem notSkipped_creation {m' : SecInfoMap} :
    (SecState.mk m calls (creation m' c ++ log)).NotSkipped
      ↔ (SecState.mk m calls log).NotSkipped := by
  unfold creation
  split
  · exact notSkipped_cons.trans (and_iff_right nofun)
  · exact Iff.rfl

/-! ## The invariant -/

/-- **What a prudent run keeps.** An entry whose validator has been called
has an answer in the log, since the entry was created; so has one that a
provider call is about to put back, and it is still in the map. -/
structure Inv (s : SecState τ) : Prop where
  notSkipped : s.NotSkipped
  marked : ∀ c info, s.map c = some info → info.firstCallValidator = false → AnsweredSince c s.log
  carried : ∀ t call c, s.calls t = some call → call.CarriesMark c →
    AnsweredSince c s.log ∧ (s.map c).isSome

theorem inv_init : (SecState.init τ).Inv where
  notSkipped newer c older h := absurd h (by simp [SecState.init])
  marked := nofun
  carried := nofun

variable {s s' : SecState τ}

/-- Events that keep the entries, with the map unchanged and a call begun
or none, keep the invariant. -/
theorem Inv.logged (h : s.Inv) (hl : KeepsEntries l)
    (hns : (SecState.mk s.map s.calls (l ++ s.log)).NotSkipped) :
    (SecState.mk s.map s.calls (l ++ s.log)).Inv where
  notSkipped := hns
  marked := fun c info hc hm => (h.marked c info hc hm).append hl
  carried := fun t call c ht hcarry =>
    ⟨(h.carried t call c ht hcarry).1.append hl, (h.carried t call c ht hcarry).2⟩

/-- Erasing an entry that no provider call is about to put back. -/
theorem Inv.erased (h : s.Inv) {c : UInt64} (hfree : ∀ t, ∀ call ∈ s.calls t, ¬call.CarriesMark c) :
    (SecState.mk (s.map.erase c) s.calls (.erased c :: s.log)).Inv where
  notSkipped := notSkipped_cons.mpr ⟨nofun, h.notSkipped⟩
  marked := by
    intro c' info hc' hm
    have hne : c' ≠ c := by
      rintro rfl
      exact absurd hc' (by simp [SecInfoMap.erase])
    have hold : s.map c' = some info := by
      rw [← hc']
      exact (update_of_ne hne none s.map).symm
    exact (h.marked c' info hold hm).cons nofun fun he => hne (SecEvent.erased.inj he).symm
  carried := by
    intro t call c' ht hcarry
    have hne : c' ≠ c := by
      rintro rfl
      exact hfree t call ht hcarry
    obtain ⟨hans, hsome⟩ := h.carried t call c' ht hcarry
    refine ⟨hans.cons nofun fun he => hne (SecEvent.erased.inj he).symm, ?_⟩
    show (update s.map c none c').isSome = true
    rw [update_of_ne hne]
    exact hsome

variable [DecidableEq τ] {hasValidator hasProvider : Bool} {t : τ} {answer : Int32}

/-- A call that is begun keeps the invariant when its copy is that of an
entry of the map. -/
theorem Inv.called (h : s.Inv) {call : SecCall} (hcall : ∀ c, call.CarriesMark c →
      ∃ info, s.map c = some info ∧ info.firstCallValidator = false) :
    ({ s with calls := update s.calls t (some call) } : SecState τ).Inv where
  __ := h
  carried := by
    intro t' call' c ht hcarry
    dsimp only at ht ⊢
    by_cases heq : t' = t
    · subst heq
      rw [update_self, some.injEq] at ht
      subst ht
      obtain ⟨info, hc, hm⟩ := hcall c hcarry
      exact ⟨h.marked c info hc hm, by rw [hc]; rfl⟩
    · rw [update_of_ne heq] at ht
      exact h.carried t' call' c ht hcarry

/-- Storing an entry keeps the invariant when a lowered flag of the new
entry has its answer in the log. -/
theorem Inv.stored (h : s.Inv) {info : ConnectingSecInfo} {infoExist : Bool}
    (hs' : SecState.mk (s.map.store c info infoExist) (update s.calls t none)
      (l ++ (creation s.map c ++ s.log)) = s') (hl : KeepsEntries l)
    (hmark : info.firstCallValidator = false → AnsweredSince c s'.log) (hns : s'.NotSkipped) :
    s'.Inv where
  notSkipped := hns
  marked := by
    subst hs'
    intro c' info' hc' hm
    rcases SecInfoMap.store_eq_some hc' with hold | ⟨rfl, rfl⟩
    · exact ((h.marked c' info' hold hm).creation fun _ => by simp [hold]).append hl
    · exact hmark hm
  carried := by
    subst hs'
    intro t' call' c' ht hcarry
    dsimp only at ht ⊢
    by_cases heq : t' = t
    · simp [heq] at ht
    · rw [update_of_ne heq] at ht
      obtain ⟨hans, hsome⟩ := h.carried t' call' c' ht hcarry
      exact ⟨(hans.creation fun _ => hsome).append hl,
        SecInfoMap.store_isSome hsome c info infoExist⟩

/-! ## The sections, one by one -/

theorem Inv.validatorFind (h : s.Inv) (hx : AnsweredSince c s.log → ValidatedSince c s.log)
    (hstep : secStep hasProvider hasValidator s (.validatorFind t c) = some s') : s'.Inv := by
  obtain ⟨-, hstep⟩ := ite_none_right_eq_some.mp hstep
  simp only [serviceSecInfoValidator, Bool.not_eq_true'] at hstep
  split_ifs at hstep with hmark hval <;> cases hstep
  · refine h.logged (l := [.returned c 0]) (by simp [KeepsEntries])
      (notSkipped_cons.mpr ⟨fun c' he => ?_, h.notSkipped⟩)
    rw [← (SecEvent.returned.inj he).1]
    exact hx (h.marked c _ (SecInfoMap.find_marked hmark) hmark)
  · refine h.logged (l := [.returned c serError]) (by simp [KeepsEntries])
      (notSkipped_cons.mpr ⟨fun c' he => ?_, h.notSkipped⟩)
    exact absurd (SecEvent.returned.inj he).2 (by decide)
  · exact h.called fun c' hcarry => hcarry.elim

/-- The answer a validator call stores is in the log with it, whatever it
is. -/
theorem Inv.validatorStore (h : s.Inv)
    (hstep : secStep hasProvider hasValidator s (.validatorStore t answer) = some s') : s'.Inv := by
  rw [secStep] at hstep
  split at hstep
  next c info infoExist hcall =>
    cases hstep
    refine h.stored (l := [.returned c answer, .answered c answer]) rfl (by simp [KeepsEntries])
      (fun _ => ?_) ?_
    · exact .cons (answeredSince_cons.mpr ⟨⟨nofun, nofun⟩, .inl rfl⟩) nofun nofun
    · refine notSkipped_cons.mpr ⟨fun c' he => ?_, notSkipped_cons.mpr
        ⟨nofun, notSkipped_creation.mpr h.notSkipped⟩⟩
      obtain ⟨rfl, rfl⟩ := SecEvent.returned.inj he
      exact validatedSince_cons.mpr ⟨nofun, .inl rfl⟩
  next => cases hstep

theorem Inv.providerFind (h : s.Inv)
    (hstep : secStep hasProvider hasValidator s (.providerFind t c) = some s') : s'.Inv := by
  have hlogged (r) (out) : (SecState.mk s.map s.calls (.provided c r out :: s.log)).Inv :=
    h.logged (l := [.provided c r out]) (by simp [KeepsEntries])
      (notSkipped_cons.mpr ⟨nofun, h.notSkipped⟩)
  obtain ⟨-, hstep⟩ := ite_none_right_eq_some.mp hstep
  simp only [serviceSecInfoProvider] at hstep
  split_ifs at hstep <;> cases hstep
  · exact hlogged ..
  · exact hlogged ..
  · refine h.called fun c' hcarry => ?_
    obtain ⟨rfl, hmark⟩ := hcarry
    exact ⟨_, SecInfoMap.find_marked hmark, hmark⟩

theorem Inv.providerStore {out : ProviderOutput} (h : s.Inv)
    (hstep : secStep hasProvider hasValidator s (.providerStore t answer out) = some s') :
    s'.Inv := by
  rw [secStep] at hstep
  split at hstep
  next c info infoExist hcall =>
    cases hstep
    refine h.stored (l := [.provided c answer (some out)]) rfl (by simp [KeepsEntries])
      (fun hmark => ?_) ?_
    · -- the flag was lowered in the copy, so the entry is still there
      obtain ⟨hans, hsome⟩ := h.carried t _ c hcall ⟨rfl, hmark⟩
      exact (hans.creation fun _ => hsome).cons nofun nofun
    · exact notSkipped_cons.mpr ⟨nofun, notSkipped_creation.mpr h.notSkipped⟩
  next => cases hstep

/-- **A prudent step keeps the invariant.** -/
theorem secStep_inv {x : SecAction τ} (h : s.Inv) (hx : s.Prudent x)
    (hstep : secStep hasProvider hasValidator s x = some s') : s'.Inv := by
  cases x with
  | validatorFind t c => exact h.validatorFind hx hstep
  | validatorStore t answer => exact h.validatorStore hstep
  | providerFind t c => exact h.providerFind hstep
  | providerStore t answer out => exact h.providerStore hstep
  | erase c =>
    rw [secStep, some.injEq] at hstep
    exact hstep ▸ h.erased hx

end SecState

/-! ## Runs -/

/-- **Validation is not skipped in a prudent run.** In every state reached
by any interleaving of validator calls, provider calls and erasures whose
steps are prudent, each call of `ServiceSecInfoValidator` that has returned
0 for a channel did so with an answer 0 of the user's validator, given
since the channel's entry was last created. -/
theorem notSkipped_of_secRun {τ : Type} [DecidableEq τ]
    (hasProvider hasValidator : Bool) (xs : List (SecAction τ))
    (s : SecState τ)
    (hprudent : Machine.Along (secStep hasProvider hasValidator)
      SecState.Prudent (SecState.init τ) xs)
    (hrun : secRun hasProvider hasValidator xs = some s) : s.NotSkipped :=
  (Machine.run_invariant_along
    (fun _ _ _ hs hx hstep => SecState.secStep_inv hs hx hstep)
    SecState.inv_init hprudent hrun).notSkipped

/-- Two links of channel 7: the first is validated and provided for, the
second is waved through; then the entry is erased, and a link whose
validation fails is refused. -/
def twoLinksRun : List (SecAction (Fin 2)) :=
  [.validatorFind 0 7, .validatorStore 0 0, .providerFind 0 7,
    .validatorFind 1 7, .providerStore 0 0 { flag := 3 }, .providerFind 1 7,
    .erase 7, .validatorFind 1 7, .validatorStore 1 (-1)]

theorem notSkipped_twoLinksRun : ∃ s, secRun true true twoLinksRun = some s ∧ s.NotSkipped :=
  ⟨_, rfl, notSkipped_of_secRun true true twoLinksRun _ (by decide) rfl⟩

/-- **A failed validation opens the channel.** The first link's validation
fails; the second link is accepted without being validated. -/
theorem exists_run_validation_skipped : ∃ s : SecState (Fin 2), secRun true true
        [.validatorFind 0 7, .validatorStore 0 1, .validatorFind 1 7] = some s
      ∧ s.log.head? = some (.returned 7 0)
      ∧ (∀ c, SecEvent.answered c 0 ∉ s.log) ∧ ¬s.NotSkipped :=
  ⟨_, rfl, rfl, by simp [creation, SecState.init], fun h => absurd (h [] 7 _ rfl) (by decide)⟩

end Service
