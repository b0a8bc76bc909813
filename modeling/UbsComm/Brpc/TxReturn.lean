import UbsComm.Brpc.TxWalk

/-!
# What a post reports to the caller

The caller of `WriteV` and `Send` goes on from the position that it is told: where
a value is returned that is not negative, after so many bytes, and where `-1` is
returned, from the start. So every byte is sent once if the value is the number
of bytes in the requests that `umq_post` accepted, and `-1`, with `errno` set, if
there are none.

The two functions do not agree on what they do after a failure. `WriteV` returns
`-1` for each error other than `EAGAIN`, also where a part was accepted, and the
whole length where no bad buffer is named; with `EAGAIN` and nothing accepted
both return `0`.
-/

namespace Brpc

open List

/-- The values of `errno` after a post. -/
inductive Errno where
  | eagain
  | eio
  deriving DecidableEq

/-- The bytes of some requests. -/
def userBytes (reqs : List TxReq) : ℕ := (reqs.map TxReq.totalDataSize).sum

/-- The requests that `umq_post` accepts. -/
def acceptedReqs (reqs : List TxReq) : PostOutcome → List TxReq
  | .success => reqs
  | .bad accepted _ => reqs.take accepted
  | .noBadQbuf => []

/-- The total that is kept after a bad buffer: nothing if it is the first one of
the list, and otherwise what `HandleBadQBuf` returns, which goes over the
requests before it (`totalSize_scanBad`). -/
def totalBeforeBad (reqs : List TxReq) (accepted : ℕ) : ℕ :=
  if accepted = 0 then 0 else userBytes (reqs.take accepted) % 2 ^ 32

/-- What `WriteV` returns, and `errno` if it is set. `tx_total_len` has 32 bits. -/
def writeVReturn (reqs : List TxReq) : PostOutcome → ℤ × Option Errno
  | .bad accepted ret =>
    if ret = .eagain then (totalBeforeBad reqs accepted, some .eagain) else (-1, some .eio)
  | _ => ((userBytes reqs % 2 ^ 32 : ℕ), none)

/-- What `Send` returns. Its buffers are one request, so that `HandleBadQBuf`
has none before the bad one to go over. -/
def sendReturn (r : TxReq) : PostOutcome → ℤ × Option Errno
  | .success => (r.totalDataSize, none)
  | .bad accepted ret =>
    if ret = .eflowctl then (-1, some .eio)
    else (totalBeforeBad [r] accepted, some (if ret = .eagain then .eagain else .eio))
  | .noBadQbuf => (-1, some .eio)

/-- **The caller is told what was accepted.** -/
def Reported (accepted : List TxReq) (res : ℤ × Option Errno) : Prop :=
  if accepted = [] then res.1 = -1 ∧ res.2 ≠ none else res.1 = userBytes accepted

/-- The outcomes that `WriteV` reports as they are. -/
def WriteVTells (reqs : List TxReq) : PostOutcome → Prop
  | .success => userBytes reqs < 2 ^ 32
  | .bad accepted ret =>
    if accepted = 0 then ret ≠ .eagain
    else ret = .eagain ∧ userBytes (reqs.take accepted) < 2 ^ 32
  | .noBadQbuf => False

/-- The outcomes that `Send` reports as they are. -/
def SendTells : PostOutcome → Prop
  | .bad _ ret => ret = .eflowctl
  | _ => True

variable {e : Option Errno} {reqs : List TxReq}

/-- **The total is that of the loop in `HandleBadQBuf`**, if the accepted
requests are filled and linked up to the bad buffer. -/
theorem totalSize_scanBad {s : TxState} {rs : List TxReq} {accepted first bad fuel z : ℕ}
    {more : List ℕ} (lastHead : ℕ) (counters : TxCounters) (hrs : reqs.take accepted = rs)
    (hok : ∀ r ∈ rs, s.ReqOk r.bufs)
    (hfilled : ∀ r ∈ rs, (s.buf r.first.buf).totalDataSize = r.totalDataSize)
    (hseg : Links.Seg s.next first ((rs.map TxReq.bufs).flatten ++ bad :: more) z)
    (hbad : bad ∉ (rs.map TxReq.bufs).flatten) (hfuel : rs.length < fuel)
    (hlen : (rs.map TxReq.bufs).flatten.length ≤ s.fuel) :
    ∃ a, s.scanBad bad fuel ⟨first, 0, lastHead, counters, 0, 0⟩ = some a ∧
      a.totalSize.toNat = totalBeforeBad reqs accepted := by
  obtain ⟨a, hscan, -, -, -, -, htotal⟩ := TxState.scanBad_spec (Q := rs.map TxReq.bufs)
    ⟨first, 0, lastHead, counters, 0, 0⟩ (forall_mem_map.mpr hok) hseg hbad
    (by rwa [length_map]) hlen
  have hsum : ((rs.map TxReq.bufs).map fun q => (s.buf (q.headD 0)).totalDataSize).sum =
      userBytes rs := by
    rw [map_map, userBytes]
    exact congrArg sum (map_congr_left hfilled)
  refine ⟨a, hscan, ?_⟩
  rw [htotal, hsum, UInt32.zero_add, UInt32.toNat_ofNat', totalBeforeBad, hrs]
  split
  · next hzero =>
    rw [← hrs, hzero]
    rfl
  · rfl

theorem not_reported_nil {v : ℕ} : ¬ Reported [] (v, e) := by
  rw [Reported, if_pos rfl]
  rintro ⟨h, -⟩
  omega

theorem reported_error {e : Errno} : Reported [] (-1, some e) := by
  rw [Reported, if_pos rfl]
  exact ⟨rfl, Option.some_ne_none e⟩

theorem reported_wrap_iff (h : reqs ≠ []) :
    Reported reqs ((userBytes reqs % 2 ^ 32 : ℕ), e) ↔ userBytes reqs < 2 ^ 32 := by
  rw [Reported, if_neg h, Int.natCast_inj]
  exact Nat.mod_eq_iff_lt (by decide)

theorem not_reported_error (h : reqs ≠ []) :
    ¬ Reported reqs (-1, e) := by
  rw [Reported, if_neg h]
  show ¬ (-1 : ℤ) = userBytes reqs
  omega

theorem reported_writeV_iff (hne : reqs ≠ []) (outcome) :
    Reported (acceptedReqs reqs outcome) (writeVReturn reqs outcome) ↔
      WriteVTells reqs outcome := by
  cases outcome with
  | success => exact reported_wrap_iff hne
  | noBadQbuf => exact iff_of_false not_reported_nil id
  | bad accepted ret =>
    rw [acceptedReqs, writeVReturn, totalBeforeBad, WriteVTells]
    by_cases hacc : accepted = 0
    · rw [if_pos hacc, if_pos hacc, hacc, take_zero]
      by_cases hret : ret = .eagain
      · rw [if_pos hret]
        exact iff_of_false not_reported_nil (not_not_intro hret)
      · rw [if_neg hret]
        exact iff_of_true reported_error hret
    · have htake : reqs.take accepted ≠ [] := by simp [take_eq_nil_iff, hacc, hne]
      rw [if_neg hacc, if_neg hacc]
      by_cases hret : ret = .eagain
      · rw [if_pos hret, and_iff_right hret]
        exact reported_wrap_iff htake
      · rw [if_neg hret]
        exact iff_of_false (not_reported_error htake) (fun h => hret h.1)

theorem reported_send_iff {r : TxReq} {outcome : PostOutcome}
    (h : ∀ accepted ret, outcome = .bad accepted ret → accepted < 1) :
    Reported (acceptedReqs [r] outcome) (sendReturn r outcome) ↔ SendTells outcome := by
  cases outcome with
  | success =>
    refine iff_of_true ?_ trivial
    rw [acceptedReqs, Reported, if_neg (cons_ne_nil _ _), sendReturn, userBytes, map_singleton,
      sum_singleton]
  | noBadQbuf => exact iff_of_true reported_error trivial
  | bad accepted ret =>
    obtain rfl : accepted = 0 := Nat.lt_one_iff.mp (h accepted ret rfl)
    rw [acceptedReqs, sendReturn, totalBeforeBad, if_pos rfl, take_zero, SendTells]
    by_cases hret : ret = .eflowctl
    · rw [if_pos hret]
      exact iff_of_true reported_error hret
    · rw [if_neg hret]
      exact iff_of_false not_reported_nil hret

/-- **Which outcomes of `umq_post` the caller is told.** `WriteV` tells success,
an `EAGAIN` after a part was accepted, and another error with a bad buffer if
nothing was; `Send` tells success, a flow-control failure, and one without a bad
buffer. -/
theorem posts_reported_iff {reqs : List TxReq} (hne : reqs ≠ []) {outcome : PostOutcome}
    (hbad : ∀ accepted ret, outcome = .bad accepted ret → accepted < reqs.length) :
    (Reported (acceptedReqs reqs outcome) (writeVReturn reqs outcome) ↔ WriteVTells reqs outcome) ∧
    ∀ r, reqs = [r] →
      (Reported (acceptedReqs reqs outcome) (sendReturn r outcome) ↔ SendTells outcome) := by
  refine ⟨reported_writeV_iff hne outcome, ?_⟩
  rintro r rfl
  exact reported_send_iff hbad

/-- A request of three bytes, and one of four in two buffers. -/
def threeByteReq : TxReq := ⟨⟨1, 0, 3, by decide⟩, []⟩

/-- A request of two buffers. -/
def fourByteReq : TxReq := ⟨⟨2, 0, 1, Nat.one_pos⟩, [⟨3, 0, 3, by decide⟩]⟩

/-- `WriteV` has the first of two requests accepted, and `Send` none. -/
theorem posts_reported_part :
    Reported [threeByteReq] (writeVReturn [threeByteReq, fourByteReq] (.bad 1 .eagain)) ∧
      Reported [] (sendReturn fourByteReq (.bad 0 .eflowctl)) := by
  have hpart := @posts_reported_iff [threeByteReq, fourByteReq] (cons_ne_nil _ _) (.bad 1 .eagain)
    (by rintro _ _ ⟨⟩; decide)
  have hnone := @posts_reported_iff [fourByteReq] (cons_ne_nil _ _) (.bad 0 .eflowctl)
    (by rintro _ _ ⟨⟩; decide)
  exact ⟨hpart.1.mpr (by simp [WriteVTells, userBytes, threeByteReq, TxReq.totalDataSize,
    TxReq.segs]), (hnone.2 _ rfl).mpr rfl⟩

/-- Without a bad buffer nothing is accepted, and `WriteV` returns three; with
`EAGAIN` for the first request both return `0`. -/
theorem exists_post_misreported : writeVReturn [threeByteReq] .noBadQbuf = (3, none) ∧
      ¬ Reported (acceptedReqs [threeByteReq] .noBadQbuf)
        (writeVReturn [threeByteReq] .noBadQbuf) ∧
      ¬ Reported (acceptedReqs [threeByteReq] (.bad 0 .eagain))
        (sendReturn threeByteReq (.bad 0 .eagain)) :=
  ⟨rfl, not_reported_nil, not_reported_nil⟩

end Brpc
