import UbsComm.Brpc.TxBuild

/-!
# Going over the requests again

What the loops over posted buffers find. A request is read back from its size
(`requestAt_spec`); `HandleBadQBuf` reads the accepted requests and computes from
their flags where the list begins now (`scanBad_spec`, `headAfter_eq`); and
`ProcessTxCqe` reads the requests that a completion stands for
(`cqeRequests_spec`). Then the two ways to give buffers back: their references
(`decRefs_eq`) and the buffers themselves (`umqBufFree_spec`), and both of
them for requests that are retired (`retire_spec`).
-/

namespace Brpc

open Links Function List Nat

namespace TxState

variable {s t : TxState} {q : List ℕ} {Q A : List (List ℕ)} {more : List ℕ}
  {cur z fuel : ℕ} {l : List ℕ} {C : List (List ℕ)}

/-! ## Requests -/

/-- **A request is read back** from its first buffer and its size. -/
theorem requestAt_spec {left : ℕ} (hseg : Seg s.next cur (q ++ more) z)
    (hpos : ∀ b ∈ q, 0 < (s.buf b).dataSize)
    (hleft : left = (q.map fun b => (s.buf b).dataSize).sum) (hfuel : q.length ≤ fuel) :
    ∃ p, s.requestAt fuel cur left = (q, p) ∧ Seg s.next p more z := by
  induction q generalizing cur left fuel with
  | nil =>
    have hzero : left = 0 := hleft
    refine ⟨cur, ?_, hseg⟩
    cases fuel with
    | zero => rfl
    | succ fuel => exact if_neg fun hand => absurd hzero (Nat.ne_of_gt hand.2)
  | cons b q ih =>
    obtain ⟨rfl, hb, hrest⟩ := hseg
    obtain ⟨hposb, hpos⟩ := forall_mem_cons.mp hpos
    obtain ⟨fuel, rfl⟩ := exists_eq_succ_of_ne_zero (Nat.ne_zero_of_lt hfuel)
    rw [map_cons, sum_cons] at hleft
    have hsub : left - (s.buf cur).dataSize = (q.map fun b => (s.buf b).dataSize).sum := by
      rw [hleft, Nat.add_sub_cancel_left]
    obtain ⟨p, hreq, hp⟩ := ih hrest hpos hsub (le_of_succ_le_succ hfuel)
    have hgo : cur ≠ 0 ∧ 0 < left := ⟨hb, by rw [hleft]; exact Nat.add_pos_left hposb _⟩
    refine ⟨p, ?_, hp⟩
    rw [requestAt, if_pos hgo, hreq]

theorem ReqOk.requestAt (h : ReqOk s q) (hseg : Seg s.next cur (q ++ more) z)
    (hfuel : q.length ≤ fuel) :
    cur = q.headD 0 ∧ cur ≠ 0 ∧
      ∃ p, s.requestAt fuel cur (s.buf cur).totalDataSize = (q, p) ∧ Seg s.next p more z := by
  have hcur : cur = q.headD 0 ∧ cur ≠ 0 := by
    cases q with
    | nil => exact absurd rfl h.ne_nil
    | cons b q => exact ⟨hseg.1, hseg.1 ▸ hseg.2.1⟩
  refine ⟨hcur.1, hcur.2, requestAt_spec hseg h.pos ?_ hfuel⟩
  rw [hcur.1, h.total]

/-! ## The accepted requests -/

/-- Where `HandleBadQBuf` lets the list begin, from the flags of the accepted
requests. -/
def headAfter (signaled : List ℕ → Bool) (head : ℕ) : List (List ℕ) → ℕ
  | [] => head
  | r :: rs => headAfter signaled (if signaled r then rs.flatten.headD 0 else head) rs

/-- The counter of unsignaled requests, after some more. -/
def unsignaledAfter (signaled : List ℕ → Bool) (cnt : ℕ) : List (List ℕ) → ℕ
  | [] => cnt
  | r :: rs => unsignaledAfter signaled (if signaled r then 0 else cnt + 1) rs

theorem headD_flatten {rs : List (List ℕ)} (hne : ∀ r ∈ rs, r ≠ []) {p : ℕ}
    (hseg : Seg s.next p (rs.flatten ++ l) z) (hrs : rs ≠ []) :
    p = rs.flatten.headD 0 ∧ p ∈ rs.flatten := by
  cases rs with
  | nil => exact absurd rfl hrs
  | cons r rs =>
    cases r with
    | nil => exact absurd rfl (hne [] mem_cons_self)
    | cons b r => exact ⟨hseg.1, hseg.1 ▸ mem_cons_self⟩

/-- **The loop of `HandleBadQBuf`** goes over the accepted requests. -/
theorem scanBad_spec {bad : ℕ} (a : BadScan) (hok : ∀ q ∈ Q, ReqOk s q)
    (hseg : Seg s.next a.cur (Q.flatten ++ bad :: more) z) (hbad : bad ∉ Q.flatten)
    (hfuel : Q.length < fuel) (hlen : Q.flatten.length ≤ s.fuel) :
    ∃ a', s.scanBad bad fuel a = some a' ∧ a'.wrCnt = a.wrCnt + Q.length ∧
      a'.last = Q.flatten.getLastD a.last ∧ a'.head = headAfter s.signaled a.head Q ∧
      a'.counters.unsignaledWrNum = unsignaledAfter s.signaled a.counters.unsignaledWrNum Q ∧
      a'.totalSize = a.totalSize +
        UInt32.ofNat (Q.map fun q => (s.buf (q.headD 0)).totalDataSize).sum := by
  induction Q generalizing a fuel with
  | nil =>
    obtain ⟨fuel, rfl⟩ := exists_eq_succ_of_ne_zero (Nat.ne_zero_of_lt hfuel)
    exact ⟨a, if_pos hseg.1, rfl, rfl, rfl, rfl, (UInt32.add_zero _).symm⟩
  | cons q Q ih =>
    obtain ⟨fuel, rfl⟩ := exists_eq_succ_of_ne_zero (Nat.ne_zero_of_lt hfuel)
    obtain ⟨hq, hok⟩ := forall_mem_cons.mp hok
    rw [flatten_cons, length_append] at hlen
    rw [flatten_cons, append_assoc] at hseg
    rw [flatten_cons, mem_append] at hbad
    obtain ⟨hbadq, hbadQ⟩ := not_or.mp hbad
    obtain ⟨hcur, hcur0, p, hreq, hp⟩ := hq.requestAt hseg (Nat.le_trans (le_add_right _ _) hlen)
    have hnot : a.cur ≠ bad := fun heq => hbadq (heq ▸ hcur ▸ headD_mem hq.ne_nil)
    have hhead : (if p ≠ bad then p else 0) = Q.flatten.headD 0 := by
      cases hQ : Q with
      | nil =>
        rw [hQ] at hp
        exact if_neg fun hne => hne hp.1
      | cons r rs =>
        obtain ⟨hpd, hpm⟩ := headD_flatten (fun r hr => (hok r hr).ne_nil) hp
          (by rw [hQ]; exact cons_ne_nil _ _)
        have hpne : p ≠ bad := fun heq => hbadQ (heq ▸ hpm)
        rw [if_pos hpne, ← hQ]
        exact hpd
    have hflag : (s.buf a.cur).completeEnable = s.signaled q := by rw [hcur]; rfl
    let a₁ : BadScan :=
      { cur := p
        last := q.getLastD a.last
        head := if s.signaled q then Q.flatten.headD 0 else a.head
        counters := recount a.counters (s.buf a.cur)
        wrCnt := a.wrCnt + 1
        totalSize := a.totalSize + UInt32.ofNat (s.buf a.cur).totalDataSize }
    have hstep : s.scanBad bad (fuel + 1) a = s.scanBad bad fuel a₁ := by
      rw [scanBad, if_neg hnot, if_neg hcur0]
      simp only [hreq, hhead, hflag, a₁]
    obtain ⟨a', hscan, hcnt, hlast, hhead', hcounter, htotal⟩ := ih a₁ hok hp hbadQ
      (lt_of_succ_lt_succ hfuel) (Nat.le_trans (le_add_left _ _) hlen)
    refine ⟨a', hstep.trans hscan, ?_, ?_, hhead', ?_, ?_⟩
    · rw [hcnt, length_cons, Nat.add_assoc, Nat.add_comm 1]
    · rw [hlast, flatten_cons, getLastD_eq_getLast?, getLastD_eq_getLast?,
        getLast?_append, Option.getD_or]
      exact congrArg _ (getLastD_eq_getLast? ..)
    · rw [hcounter, unsignaledAfter]
      show unsignaledAfter _ (if (s.buf a.cur).completeEnable then 0 else _) Q = _
      rw [hflag]
    · rw [htotal, map_cons, sum_cons, UInt32.ofNat_add, ← UInt32.add_assoc, ← hcur]

section

variable (f : List ℕ → Bool)

/-- The counter after it is the number of requests after the last signaled
one. -/
theorem unsignaledAfter_length (pending Q : List (List ℕ)) :
    unsignaledAfter f pending.length Q = (pendingAfter f pending Q).length := by
  induction Q generalizing pending with
  | nil => rfl
  | cons q Q ih =>
    rw [unsignaledAfter, pendingAfter, ← ih]
    cases f q with
    | true => rfl
    | false =>
      show unsignaledAfter f (pending.length + 1) Q = unsignaledAfter f (pending ++ [q]).length Q
      rw [length_append, length_singleton]

theorem headAfter_of_head {head : ℕ} {pending : List (List ℕ)}
    (hhead : head = (pending ++ Q).flatten.headD 0) :
    headAfter f head Q = (pendingAfter f pending Q).flatten.headD 0 := by
  induction Q generalizing head pending with
  | nil => rw [headAfter, pendingAfter, hhead, append_nil]
  | cons q Q ih =>
    rw [headAfter, pendingAfter]
    cases f q with
    | true => exact ih rfl
    | false =>
      refine ih ?_
      show head = (pending ++ [q] ++ Q).flatten.headD 0
      rw [append_assoc]
      exact hhead

/-- **The list begins with the first request after the last signaled one**, if
one of the accepted requests is signaled. -/
theorem headAfter_of_signaled (head : ℕ) (pending : List (List ℕ)) (hsig : ∃ q ∈ Q, f q = true) :
    headAfter f head Q = (pendingAfter f pending Q).flatten.headD 0 := by
  induction Q generalizing head pending with
  | nil =>
    obtain ⟨q, hq, -⟩ := hsig
    exact nomatch hq
  | cons q Q ih =>
    rw [headAfter, pendingAfter]
    cases hf : f q with
    | true => exact headAfter_of_head f rfl
    | false =>
      obtain ⟨q', hq', hsig'⟩ := hsig
      obtain rfl | hmem := mem_cons.mp hq'
      · exact absurd (hf.symm.trans hsig') Bool.false_ne_true
      · exact ih _ _ ⟨q', hmem, hsig'⟩

theorem pendingAfter_of_unsignaled (pending : List (List ℕ))
    (hunsig : ∀ q ∈ Q, f q = false) : pendingAfter f pending Q = pending ++ Q := by
  induction Q generalizing pending with
  | nil => rw [pendingAfter, append_nil]
  | cons q Q ih =>
    obtain ⟨hq, hQ⟩ := forall_mem_cons.mp hunsig
    rw [pendingAfter, hq, ih _ hQ]
    show pending ++ [q] ++ Q = _
    rw [append_assoc]
    rfl

theorem pendingAfter_concat (pending Q : List (List ℕ)) (q : List ℕ) :
    pendingAfter f pending (Q ++ [q]) = if f q then [] else pendingAfter f pending Q ++ [q] := by
  induction Q generalizing pending with
  | nil => rfl
  | cons q' Q ih =>
    rw [cons_append, pendingAfter, ih]
    rfl

end

/-! ## The requests of a completion -/

theorem cqeRequests_spec {U : List (List ℕ)} (hok : ∀ r ∈ U ++ [q], ReqOk s r)
    (hseg : Seg s.next cur (U ++ [q]).flatten z) (hend : ∀ r ∈ U, r.headD 0 ≠ q.headD 0)
    (hfuel : U.length < fuel) (hlen : (U ++ [q]).flatten.length ≤ s.fuel) :
    s.cqeRequests (q.headD 0) fuel cur = some (U ++ [q]) := by
  induction U generalizing cur fuel with
  | nil =>
    obtain ⟨fuel, rfl⟩ := exists_eq_succ_of_ne_zero (Nat.ne_zero_of_lt hfuel)
    have hq := hok q mem_cons_self
    rw [nil_append, flatten_singleton] at hseg hlen
    have hseg' : Seg s.next cur (q ++ []) z := by
      rw [append_nil]
      exact hseg
    obtain ⟨hcur, hcur0, p, hreq, -⟩ := hq.requestAt hseg' hlen
    rw [cqeRequests, if_neg hcur0]
    rw [hreq]
    exact if_neg fun hand => hand.2 hcur
  | cons u U ih =>
    obtain ⟨fuel, rfl⟩ := exists_eq_succ_of_ne_zero (Nat.ne_zero_of_lt hfuel)
    rw [cons_append] at hok hseg hlen
    obtain ⟨hu, hok⟩ := forall_mem_cons.mp hok
    obtain ⟨hendu, hend⟩ := forall_mem_cons.mp hend
    rw [flatten_cons] at hseg hlen
    rw [length_append] at hlen
    obtain ⟨hcur, hcur0, p, hreq, hp⟩ := hu.requestAt hseg (Nat.le_trans (le_add_right _ _) hlen)
    have hne : U ++ [q] ≠ [] := append_ne_nil_of_right_ne_nil U (cons_ne_nil q [])
    have hp0 : p ≠ 0 := by
      obtain ⟨-, hmem⟩ := headD_flatten (l := []) (fun r hr => (hok r hr).ne_nil)
        (by rw [append_nil]; exact hp) hne
      exact hp.ne_zero hmem
    have hgo : p ≠ 0 ∧ cur ≠ q.headD 0 := ⟨hp0, fun heq => hendu (hcur.symm.trans heq)⟩
    rw [cqeRequests, if_neg hcur0]
    rw [hreq]
    rw [if_pos hgo, ih hok hp hend (lt_of_succ_lt_succ hfuel) (Nat.le_trans (le_add_left _ _) hlen)]
    rfl

/-! ## Giving back -/

theorem decRefs_eq (s : TxState) (bufs : List ℕ) :
    s.decRefs bufs = { s with refs := (s.decRefs bufs).refs } := by
  have hfold : ∀ (l : List ℕ) (t : TxState), l.foldl (fun t b => t.decRef (s.buf b).block) t =
        { t with refs := (l.foldl (fun t b => t.decRef (s.buf b).block) t).refs } := by
    intro l
    induction l with
    | nil => exact fun t => rfl
    | cons b l ih => exact fun t => ih (t.decRef (s.buf b).block)
  exact hfold bufs s

theorem decRefs_refs (s : TxState) (bufs : List ℕ) (block : ℕ) :
    (s.decRefs bufs).refs block = s.refs block - (refCount s bufs block : ℤ) := by
  have hfold : ∀ (l : List ℕ) (t : TxState),
      (l.foldl (fun t b => t.decRef (s.buf b).block) t).refs block =
        t.refs block - (refCount s l block : ℤ) := by
    intro l
    induction l with
    | nil => exact fun t => (Int.sub_zero _).symm
    | cons b l ih =>
      intro t
      rw [foldl_cons, ih, refCount, refCount, countP_cons]
      by_cases hblock : (s.buf b).block = block
      · have hdec : (t.decRef (s.buf b).block).refs block = t.refs block - 1 := by
          rw [← hblock]
          exact update_self _ _ _
        rw [decide_eq_true hblock, if_pos rfl]
        omega
      · have hdec : (t.decRef (s.buf b).block).refs block = t.refs block :=
          update_of_ne (Ne.symm hblock) _ _
        rw [hdec, decide_eq_false hblock]
        rfl
  exact hfold bufs s

theorem umqBufFree_spec {p : ℕ} (hseg : Seg s.next p l 0) (hnodup : l.Nodup)
    (hlive : ∀ b ∈ l, b ∈ s.live) :
    s.umqBufFree p = some { s with live := s.live.filter (fun b => b ∉ l) } := by
  have hlen : l.length ≤ s.fuel := le_succ_of_le (subperm_of_subset hnodup hlive).length_le
  rw [umqBufFree]
  rw [walk_of_seg hseg hlen]
  exact if_pos ⟨hnodup, hlive⟩

theorem not_mem_of_nodup {B : List (List ℕ)} (hnodup : (A ++ B).flatten.Nodup)
    (hne : ∀ r ∈ A ++ B, r ≠ []) (hA : q ∈ A) : q ∉ B := by
  intro hB
  rw [flatten_append] at hnodup
  have hmem := headD_mem (hne q (mem_append_left _ hA))
  exact (nodup_append.mp hnodup).2.2 _ (mem_flatten.mpr ⟨q, hA, hmem⟩) _
    (mem_flatten.mpr ⟨q, hB, hmem⟩) rfl

theorem filter_posted (hnodup : (A ++ (Q ++ C)).flatten.Nodup)
    (hne : ∀ r ∈ A ++ (Q ++ C), r ≠ []) : (A ++ (Q ++ C)).filter (fun r => r ∉ Q) = A ++ C := by
  have hQC : (Q ++ C).flatten.Nodup := by
    rw [flatten_append] at hnodup
    exact (nodup_append.mp hnodup).2.1
  have hA : A.filter (fun r => r ∉ Q) = A := filter_eq_self.mpr (fun r hr =>
    decide_eq_true fun hQ => not_mem_of_nodup hnodup hne hr (mem_append_left _ hQ))
  have hC : C.filter (fun r => r ∉ Q) = C := filter_eq_self.mpr (fun r hr =>
    decide_eq_true (fun hQ =>
      not_mem_of_nodup hQC (fun r hr => hne r (mem_append_right _ hr)) hQ hr))
  have hQnil : Q.filter (fun r => r ∉ Q) = [] := filter_eq_nil_iff.mpr (fun r hr hdec =>
    of_decide_eq_true hdec hr)
  rw [filter_append, filter_append, hA, hC, hQnil, nil_append]

/-- **Requests are retired**: those in `Q`, linked from `start` on. -/
theorem retire_spec {start x : ℕ} (hposted : s.posted = A ++ (Q ++ C))
    (hnodup : s.posted.flatten.Nodup) (hne : ∀ r ∈ s.posted, r ≠ [])
    (hlive : ∀ b ∈ s.posted.flatten, b ∈ s.live) (hQ : Q.flatten = l ++ [x])
    (hseg : Seg s.next start (l ++ [x]) z) :
    s.retire start Q = some { s with
        refs := (s.decRefs Q.flatten).refs
        next := update s.next x 0
        posted := A ++ C
        live := s.live.filter (fun b => b ∉ Q.flatten) } := by
  have hsub : ∀ b ∈ Q.flatten, b ∈ s.posted.flatten := fun b hb => by
    rw [hposted, flatten_append, flatten_append]
    exact mem_append_right _ (mem_append_left _ hb)
  have hnodupQ : Q.flatten.Nodup := by
    rw [hposted, flatten_append, flatten_append] at hnodup
    exact (nodup_append.mp (nodup_append.mp hnodup).2.1).1
  have hx : x ∉ l := by
    rw [hQ] at hnodupQ
    exact fun hmem => (nodup_append.mp hnodupQ).2.2 x hmem x mem_cons_self rfl
  have hfilter : s.posted.filter (fun r => r ∉ Q) = A ++ C := by
    rw [hposted] at hnodup hne ⊢
    exact filter_posted hnodup hne
  let t : TxState := { s with
      refs := (s.decRefs Q.flatten).refs
      next := update s.next x 0
      posted := A ++ C }
  have hlast : Q.flatten.getLast? = some x := by rw [hQ, getLast?_concat]
  have hfree : t.umqBufFree start = some
    { t with live := s.live.filter (fun b => b ∉ Q.flatten) } :=
    umqBufFree_spec (hQ ▸ hseg.update_last hx 0) hnodupQ fun b hb => hlive b (hsub b hb)
  rw [retire, decRefs_eq]
  rw [hlast, hfilter]
  exact hfree

end TxState

end Brpc
