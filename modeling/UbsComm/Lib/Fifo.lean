import UbsComm.Lib.Execution

/-!
# Bounded first-in first-out queues

What a bounded queue is for, as a machine over the items it holds: an item
is put at the end if there is room, and the item taken is the first one. A
history of such a queue is a run of the machine, and
**what has been taken, followed by what is held, is what has been put in**
(`pops_append_eq`) – every item once, none invented, in the order in which
they came.
-/

/-! ## Records that grow -/

namespace List

variable {α : Type*} {l m : List α} {a b : α} {k : ℕ}

theorem IsPrefix.getElem?_eq_some (h : l <+: m) (hk : l[k]? = some a) : m[k]? = some a := by
  obtain ⟨t, rfl⟩ := h
  obtain ⟨hlt, -⟩ := getElem?_eq_some_iff.mp hk
  rw [getElem?_append_left hlt, hk]

theorem IsPrefix.concat (h : l <+: m) (ha : m[l.length]? = some a) : l ++ [a] <+: m := by
  obtain ⟨t, rfl⟩ := h
  rw [getElem?_append_right (Nat.le_refl _), Nat.sub_self] at ha
  cases t with
  | nil => cases ha
  | cons b t =>
    cases ha
    exact ⟨t, by rw [append_assoc, singleton_append]⟩

theorem getElem?_concat_eq_some :
    (l ++ [a])[k]? = some b ↔ l[k]? = some b ∨ k = l.length ∧ a = b := by
  rw [getElem?_append]
  split
  case isTrue h => simp [Nat.ne_of_lt h]
  case isFalse h =>
    rw [getElem?_eq_none (Nat.le_of_not_lt h)]
    cases hk : k - l.length with
    | zero =>
      have : k = l.length := by omega
      simp [this]
    | succ n =>
      have : k ≠ l.length := by omega
      simp [this]

end List

/-! ## The bounded queue -/

namespace Fifo

open List Machine Option

variable {T : Type*}

/-- An item goes in or comes out. -/
inductive Event (T : Type*) where
  | push (x : T)
  | pop (x : T)
deriving DecidableEq

/-- The bounded queue. -/
def step [DecidableEq T] (capacity : ℕ) (held : List T) : Event T → Option (List T)
  | .push x => if held.length < capacity then some (held ++ [x]) else none
  | .pop x =>
    match held with
    | [] => none
    | y :: rest => if x = y then some rest else none

/-- The item an event puts in. -/
def Event.pushed? : Event T → Option T
  | .push x => some x
  | .pop _ => none

/-- The item an event takes out. -/
def Event.popped? : Event T → Option T
  | .push _ => none
  | .pop x => some x

section

variable (es : List (Event T))

/-- The items a history puts in, and those it takes out. -/
def pushes : List T := es.filterMap Event.pushed?

/-- What was taken out, in order. -/
def pops : List T := es.filterMap Event.popped?

end

variable [DecidableEq T] {es : List (Event T)} {capacity : ℕ} {held' held : List T}

theorem step_eq_some {e : Event T} : step capacity held e = some held'
      ↔ (∃ x, e = .push x ∧ held.length < capacity ∧ held' = held ++ [x])
        ∨ ∃ x, e = .pop x ∧ held = x :: held' := by
  rcases e with x | x
  · simp only [step, ite_none_right_eq_some, some.injEq,
      Event.push.injEq, reduceCtorEq, false_and, exists_false, or_false,
      exists_eq_left', @eq_comm _ held']
  · cases held with
    | nil => simp [step]
    | cons y rest =>
      simp only [step, ite_none_right_eq_some, some.injEq,
        reduceCtorEq, false_and, exists_false, false_or, Event.pop.injEq,
        exists_eq_left', cons.injEq, @eq_comm T y x]

/-- **First in, first out.** -/
theorem pops_append_eq (h : run (step capacity) held es = some held') :
    pops es ++ held' = held ++ pushes es := by
  induction es generalizing held with
  | nil =>
    rw [run_nil, some.injEq] at h
    rw [h, pops, pushes, filterMap_nil, filterMap_nil, nil_append, append_nil]
  | cons e es ih =>
    obtain ⟨mid, hmid, hrun⟩ := run_cons_eq_some.mp h
    have := ih hrun
    rcases step_eq_some.mp hmid with ⟨x, rfl, -, rfl⟩ | ⟨x, rfl, rfl⟩
    · simpa [pops, pushes, filterMap_cons, Event.pushed?, Event.popped?] using this
    · simpa [pops, pushes, filterMap_cons, Event.pushed?, Event.popped?] using this

/-- A history goes on with an item put in, if there is room, … -/
theorem legal_push (x : T) (h : ∃ held, run (step capacity) [] es = some held)
    (hroom : (pushes es).length < (pops es).length + capacity) :
    ∃ held, run (step capacity) [] (es ++ [.push x]) = some held := by
  obtain ⟨held, hheld⟩ := h
  have hcount := congrArg length (pops_append_eq hheld)
  rw [nil_append, length_append] at hcount
  exact ⟨held ++ [x], run_concat hheld (step_eq_some.mpr (.inl ⟨x, rfl, by omega, rfl⟩))⟩

/-- … and with the first of those not yet taken out. -/
theorem legal_pop {x : T} (h : ∃ held, run (step capacity) [] es = some held)
    (hx : (pushes es)[(pops es).length]? = some x) :
    ∃ held, run (step capacity) [] (es ++ [.pop x]) = some held := by
  obtain ⟨held, hheld⟩ := h
  rw [← nil_append (pushes es), ← pops_append_eq hheld,
    getElem?_append_right (Nat.le_refl _), Nat.sub_self] at hx
  cases held with
  | nil => cases hx
  | cons y rest =>
    obtain rfl : y = x := some.inj hx
    exact ⟨rest, run_concat hheld (step_eq_some.mpr (.inr ⟨y, rfl, rfl⟩))⟩

theorem length_le_of_run (hle : held.length ≤ capacity)
    (h : run (step capacity) held es = some held') : held'.length ≤ capacity := by
  refine run_invariant (P := fun held => held.length ≤ capacity)
    (fun s e t hs ht => ?_) hle h
  rcases step_eq_some.mp ht with ⟨x, rfl, hlt, rfl⟩ | ⟨x, rfl, rfl⟩
  · rw [length_append]
    exact hlt
  · exact Nat.le_of_succ_le hs

end Fifo
