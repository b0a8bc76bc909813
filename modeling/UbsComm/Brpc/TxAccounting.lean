import UbsComm.Brpc.TxWalk

/-!
# The accounting of what is posted

The invariant of `m_tx` between calls (`Inv`): the window and the accepted
requests that are not retired make up the capacity, the list from `m_head_buf` to
`m_tail_buf` has the buffers of the requests after the last signaled one, and
there is one reference to a block for each buffer that points into it. `WriteV`
keeps it where the post succeeds, where nothing was accepted, and where a part
was accepted and the repair is complete; `PollTx` keeps it for completions of
both kinds. So it holds in every state of a run in which the repairs are complete
(`accounted_of_txRun`).
-/

namespace Brpc

open Links Machine Function List TxGroup TxReq Nat Option Bool

/-- **The list from `head` to `tail` has the buffers `l`.** Where the link of the
last one leads does not matter. -/
def FromTo (next : ℕ → ℕ) (head tail : ℕ) (l : List ℕ) : Prop :=
  l = [] ∧ head = 0 ∨ ∃ l' z, l = l' ++ [tail] ∧ Seg next head l z

namespace TxState

variable {cfg : TxConfig} {s t : TxState} {r : TxReq} {rs : List TxReq}
  {residual : List (List ℕ)} {groups : List TxGroup} {g : TxGroup} {cnt head tail : ℕ}
  {next : ℕ → ℕ}
  {l : List ℕ}

/-- **The invariant**, with `cnt` places that are not given back to the window
yet. -/
structure Inv (cfg : TxConfig) (cnt : ℕ) (s : TxState) (residual : List (List ℕ))
    (groups : List TxGroup) : Prop extends Accepted s s.posted s.pending residual groups where
  refs : ∀ block, s.refs block = (refCount s s.posted.flatten block : ℤ)
  counter : s.counters.unsignaledWrNum = s.pending.length
  list : FromTo s.next s.head s.tail s.pending.flatten
  window : s.windowSize + cnt + s.posted.length = cfg.txWindowCapacity

theorem FromTo.head_eq_zero_iff (h : FromTo next head tail l) : head = 0 ↔ l = [] := by
  obtain ⟨hl, hhead⟩ | ⟨l', z, hl, hseg⟩ := h
  · exact ⟨fun _ => hl, fun _ => hhead⟩
  · have hne : l ≠ [] := by simp [hl]
    exact ⟨fun h0 => absurd h0 (hseg.ne_zero (hseg.start_mem hne)), fun hnil => absurd hnil hne⟩

theorem FromTo.congr {next' : ℕ → ℕ} (h : FromTo next head tail l)
    (hnext : ∀ b ∈ l, next' b = next b) : FromTo next' head tail l := by
  obtain hnil | ⟨l', z, hl, hseg⟩ := h
  · exact .inl hnil
  · exact .inr ⟨l', z, hl, hseg.congr hnext⟩

theorem fromTo_of_seg (hseg : Seg next head l 0)
    (hlast : l = [] ∨ ∃ l', l = l' ++ [tail]) : FromTo next head tail l := by
  obtain rfl | ⟨l', hl⟩ := hlast
  · exact .inl ⟨rfl, hseg⟩
  · exact .inr ⟨l', 0, hl, hseg⟩

/-! ## New buffers -/

theorem enlist_eq (s : TxState) (r : TxReq) (rs : List TxReq) : s.enlist r rs = { s with
        next := (s.enlist r rs).next
        head := (s.enlist r rs).head
        live := bufsOf (r :: rs) ++ s.live } := by
  rw [enlist]
  by_cases hhead : s.head = 0
  · rw [if_pos hhead]
    rfl
  · rw [if_neg hhead]
    rfl

/-- What `umq_buf_alloc` gives. -/
structure Fresh (s : TxState) (bufs : List ℕ) : Prop where
  nodup : bufs.Nodup
  ne_zero : ∀ b ∈ bufs, b ≠ 0
  not_live : ∀ b ∈ bufs, b ∉ s.live

/-- The links after it: those of the new buffers, those of the list, now with an
end that leads to the new ones, and all others. -/
structure Enlisted (s t : TxState) (l bufs : List ℕ) (first : ℕ) : Prop where
  chain : Seg t.next first bufs 0
  old : FromTo t.next s.head s.tail l
  list : Seg t.next t.head (l ++ bufs) 0
  other : ∀ b, b ∉ bufs → b ∉ l → t.next b = s.next b

variable {l : List ℕ} {b : ℕ}

theorem enlisted_enlist (hlist : FromTo s.next s.head s.tail l) (hnodup : l.Nodup)
    (hfresh : Fresh s (bufsOf (r :: rs))) (hlive : ∀ b ∈ l, b ∈ s.live) :
    Enlisted s (s.enlist r rs) l (bufsOf (r :: rs)) r.first.buf := by
  have hnew : ∀ b ∈ l, b ∉ bufsOf (r :: rs) := fun b hb hmem => hfresh.not_live b hmem (hlive b hb)
  have hlink : Seg (link (bufsOf (r :: rs)) s.next) r.first.buf (bufsOf (r :: rs)) 0 :=
    seg_link hfresh.nodup hfresh.ne_zero
  have hold : ∀ b, b ∉ bufsOf (r :: rs) → link (bufsOf (r :: rs)) s.next b = s.next b :=
    fun b hb => link_of_not_mem hb
  rw [enlist]
  obtain ⟨rfl, hhead⟩ | ⟨l', z, hl, hseg⟩ := hlist
  · rw [if_pos hhead]
    exact ⟨hlink, .inl ⟨rfl, hhead⟩, hlink, fun b hb _ => hold b hb⟩
  · have hhead : s.head ≠ 0 := fun h0 => by
      have hnil := (FromTo.head_eq_zero_iff (.inr ⟨l', z, hl, hseg⟩)).mp h0
      simp [hl] at hnil
    rw [if_neg hhead]
    subst hl
    have htail : s.tail ∉ l' := fun hmem =>
      (nodup_append.mp hnodup).2.2 s.tail hmem s.tail mem_cons_self rfl
    have hmem : s.tail ∈ l' ++ [s.tail] := mem_append_right l' mem_cons_self
    have hfront := (hseg.congr fun b hb => hold b (hnew b hb)).update_last htail r.first.buf
    have hchain := hlink.update_of_not_mem (hnew s.tail hmem) r.first.buf
    refine ⟨hchain, .inr ⟨l', r.first.buf, rfl, hfront⟩, seg_append.mpr ⟨_, hfront, hchain⟩,
      fun b hb hbl => ?_⟩
    have hbt : b ≠ s.tail := fun heq => hbl (heq ▸ hmem)
    exact (update_of_ne hbt _ _).trans (hold b hb)

theorem mem_flatten_mono {A B : List (List ℕ)} (hsub : ∀ q ∈ A, q ∈ B) (hb : b ∈ A.flatten) :
    b ∈ B.flatten := by
  obtain ⟨q, hq, hbq⟩ := mem_flatten.mp hb
  exact mem_flatten.mpr ⟨q, hsub q hq, hbq⟩

variable {pending posted Q : List (List ℕ)} {gs : List TxGroup} {D : List ℕ} {x : ℕ} {ret : PostRet}
  {q : TxReq} {next : ℕ → ℕ}

section

variable (h : Accepted s posted pending residual groups)
include h

theorem Accepted.nodup_parts :
    (residual.flatten ++ ((groups.flatMap reqs).flatten ++ pending.flatten)).Nodup := by
  have hnodup := h.nodup
  rwa [h.posted_eq, flatten_append, flatten_append] at hnodup

theorem Accepted.nodup_pending : pending.flatten.Nodup :=
  (nodup_append.mp (nodup_append.mp h.nodup_parts).2.1).2.1

theorem Accepted.not_pending (hg : g ∈ groups) (hb : b ∈ g.reqs.flatten) : b ∉ pending.flatten := by
  intro hmem
  have hgroup : b ∈ (groups.flatMap reqs).flatten :=
    mem_flatten_mono (fun q hq => mem_flatMap.mpr ⟨g, hg, hq⟩) hb
  exact (nodup_append.mp (nodup_append.mp h.nodup_parts).2.1).2.2 b hgroup b hmem rfl

end

/-- **The state in which the requests begin to be built.** -/
theorem Inv.building (h : Inv cfg cnt s residual groups) (hfresh : Fresh s (bufsOf (r :: rs))) :
    Enlisted s (s.enlist r rs) s.pending.flatten (bufsOf (r :: rs)) r.first.buf ∧
      Building (s.enlist r rs) s.posted s.pending residual groups (bufsOf (r :: rs)) ∧
      New (s.enlist r rs) s.posted (bufsOf (r :: rs)) := by
  have hlist := enlisted_enlist h.list h.nodup_pending hfresh
    fun b hb => h.live b (mem_flatten_mono (fun _ => h.mem_pending) hb)
  have hnot : ∀ b ∈ s.posted.flatten, b ∉ bufsOf (r :: rs) := fun b hb hmem =>
    hfresh.not_live b hmem (h.live b hb)
  have heq := enlist_eq s r rs
  have hlive : (s.enlist r rs).live = bufsOf (r :: rs) ++ s.live := by rw [heq]
  have hbuf : (s.enlist r rs).buf = s.buf := by rw [heq]
  refine ⟨hlist, ⟨h.toAccepted.congr (fun b hb => ?_) (fun b _ => congrFun hbuf b)
    (fun g hg b hb => ?_), fun block => ?_, ?_, hlist.list⟩, hfresh.nodup, hfresh.ne_zero,
    fun b hb hmem => hnot b hmem hb, fun b hb => ?_⟩
  · rw [hlive]
    exact mem_append_right _ (h.live b hb)
  · exact hlist.other b (hnot b (mem_flatten_mono (fun _ => h.mem_group hg) hb))
      (h.not_pending hg hb)
  · rw [refCount_congr (fun b _ => congrFun hbuf b), ← h.refs, heq]
  · rw [heq]
    exact h.counter
  · rw [hlive]
    exact mem_append_left _ hb

/-- The accounts are in order. -/
def Accounted (cfg : TxConfig) (st : Option TxState) : Prop :=
  ∃ s residual groups, st = some s ∧ Inv cfg 0 s residual groups

/-! ## The accepted requests -/

/-- **The first requests `rs₁` are accepted**, with the buffers of the others
after them. -/
structure Posting (s : TxState) (r : TxReq) (rs rs₁ rs₂ : List TxReq) (residual : List (List ℕ))
    (groups : List TxGroup) (v : TxState) : Prop extends
    Building v v.posted v.pending residual groups (bufsOf rs₂) where
  chain : Seg v.next r.first.buf (bufsOf (r :: rs)) 0
  old : FromTo v.next s.head s.tail s.pending.flatten
  live_new : ∀ b ∈ bufsOf (r :: rs), b ∈ v.live
  apart : ∀ b ∈ v.posted.flatten, b ∉ bufsOf rs₂
  windowSize : v.windowSize = s.windowSize
  accepted : v.posted = s.posted ++ rs₁.map bufs
  pending_eq : v.pending = pendingAfter v.signaled s.pending (rs₁.map bufs)
  tail : v.tail = (rs.getLastD r).lastBuf

section

variable (h : Inv cfg 0 s residual groups)
include h

/-- **What is there after the post.** The requests that are not accepted have
their references, and they have changed the head and the counters. -/
theorem Inv.posting (rs₁ rs₂ : List TxReq)
    (hreqs : r :: rs = rs₁ ++ rs₂) (hfresh : Fresh s (bufsOf (r :: rs))) :
    ∃ (v w : TxState) (groups' : List TxGroup), Posting s r rs rs₁ rs₂ residual groups' v ∧
      (s.beforePost cfg r rs).accept (rs₁.map bufs) =
        { v with refs := w.refs, head := w.head, counters := w.counters } ∧
      (∀ block, w.refs block = v.refs block + (refCount v (bufsOf rs₂) block : ℤ)) ∧
      (rs₂ = [] → { v with refs := w.refs, head := w.head, counters := w.counters } = v) ∧
      (rs₁ ≠ [] → v.pending = [] ∨ v.pending.length < cfg.reportThreshold) := by
  obtain ⟨hlist, hbuild, hnew⟩ := h.building hfresh
  have hlive := hnew.live
  rw [hreqs] at hbuild hnew
  obtain ⟨u, groups', heq, hbuilt, hbeside, hbound⟩ := hbuild.prepareAll cfg rs₁ rs₂ hnew
  have hnodup := hnew.nodup
  have hnot := hnew.not_posted
  rw [bufsOf_append] at hnodup hnot
  obtain ⟨-, hnodup₂, hapart⟩ := nodup_append.mp hnodup
  obtain ⟨hbeside', hrefs⟩ := prepareAll_beside cfg rs₂ hnodup₂ u
  rw [← hreqs] at heq
  have hnil : rs₂ = [] → prepareAll cfg rs₂ u = u := fun hnil => by rw [hnil, prepareAll]
  generalize prepareAll cfg rs₂ u = w at heq hbeside' hrefs hnil
  have hfar : ∀ b ∈ (s.posted ++ rs₁.map bufs).flatten, b ∉ bufsOf rs₂ := by
    rw [flatten_append, flatten_map_bufs]
    exact forall_mem_append.mpr ⟨fun b hb hmem => hnot b (mem_append_right _ hmem) hb,
      fun b hb hmem => hapart b hb b hmem rfl⟩
  -- the accepted requests have their buffers as they were when they were built
  have hkept : ∀ b ∈ (s.posted ++ rs₁.map bufs).flatten, w.buf b = u.buf b := fun b hb =>
    hbeside'.buf b (hfar b hb)
  have hpend : pendingAfter w.signaled s.pending (rs₁.map bufs) =
      pendingAfter u.signaled s.pending (rs₁.map bufs) :=
    pendingAfter_congr (fun q hq => signaled_congr
      (hbuilt.reqOk q (mem_append_right _ hq)).ne_nil (fun b hb =>
        hkept b (mem_flatten.mpr ⟨q, mem_append_right _ hq, hb⟩))) _
  have henlist := enlist_eq s r rs
  let v : TxState := { u with
      buf := w.buf
      tail := (rs.getLastD r).lastBuf
      posted := s.posted ++ rs₁.map bufs
      pending := pendingAfter u.signaled s.pending (rs₁.map bufs) }
  have hv : Posting s r rs rs₁ rs₂ residual groups' v :=
    { hbuilt with
      toAccepted := hbuilt.toAccepted.congr hbuilt.live hkept fun _ _ _ _ => rfl
      refs := fun block => by
        show _ = (refCount w _ block : ℤ)
        rw [refCount_congr hkept]
        exact hbuilt.refs block
      chain := hbeside.next ▸ hlist.chain
      old := hbeside.next ▸ hlist.old
      live_new := hbeside.live ▸ hlive
      apart := hfar
      windowSize := hbeside.windowSize.trans (congrArg TxState.windowSize henlist :)
      accepted := rfl
      pending_eq := hpend.symm
      tail := rfl }
  refine ⟨v, w, groups', hv, ?_, hrefs, fun hrs => ?_, hbound⟩
  · rw [beforePost, heq]
    have hposted : w.posted = s.posted :=
      (hbeside'.posted.trans hbeside.posted).trans (congrArg TxState.posted henlist :)
    have hpending : w.pending = s.pending :=
      (hbeside'.pending.trans hbeside.pending).trans (congrArg TxState.pending henlist :)
    show TxState.mk w.windowSize _ _ _ w.next _ w.live _ (w.posted ++ _)
      (pendingAfter w.signaled w.pending _) = _
    rw [hbeside'.windowSize, hbeside'.next, hbeside'.live, hposted, hpending, hpend]
  · rw [hnil hrs]

omit h in
/-- After requests have been accepted the list is empty, or ends with the last
one. -/
theorem pendingAfter_last (f : List ℕ → Bool) (pending : List (List ℕ)) {reqs init : List TxReq}
    (hreqs : reqs = init ++ [q]) :
    (pendingAfter f pending (reqs.map bufs)).flatten = [] ∨
      ∃ l, (pendingAfter f pending (reqs.map bufs)).flatten = l ++ [q.lastBuf] := by
  rw [hreqs, map_append, map_singleton, pendingAfter_concat]
  cases f q.bufs with
  | true => exact .inl rfl
  | false =>
    obtain ⟨l, hl⟩ := lastBuf_spec q
    refine .inr ⟨(pendingAfter f pending (init.map bufs)).flatten ++ l, ?_⟩
    show (_ ++ [q.bufs]).flatten = _
    rw [flatten_append, flatten_singleton, append_assoc, ← hl]

omit h in
theorem exists_last (r : TxReq) (rs : List TxReq) : ∃ init, r :: rs = init ++ [rs.getLastD r] := by
  obtain ⟨init, q, hq⟩ := (eq_nil_or_concat' (r :: rs)).resolve_left (cons_ne_nil r rs)
  have hlast : (r :: rs).getLast? = some q := by rw [hq, getLast?_concat]
  rw [getLast?_cons, ← getLastD_eq_getLast?] at hlast
  exact ⟨init, by rw [some.inj hlast, hq]⟩

theorem Inv.writeV_success
    (hfresh : Fresh s (bufsOf (r :: rs))) (hroom : (r :: rs).length ≤ s.windowSize) :
    Accounted cfg (s.writeV cfg (r :: rs) .success) := by
  obtain ⟨v, w, groups', hv, heq, -, hall, -⟩ := h.posting (r :: rs) [] (append_nil _).symm hfresh
  have hw : s.writeV cfg (r :: rs) .success =
      some { v with windowSize := v.windowSize - (r :: rs).length } := by
    rw [writeV]
    rw [heq, hall rfl]
  obtain ⟨init, hinit⟩ := exists_last r rs
  have hlist := hv.list
  refine ⟨_, residual, groups', hw, hv.toAccepted.congr hv.live (fun _ _ => rfl)
    (fun _ _ _ _ => rfl),
    hv.refs, hv.counter, fromTo_of_seg ?_ ?_, ?_⟩
  · rw [show bufsOf ([] : List TxReq) = [] from rfl, append_nil] at hlist
    exact hlist
  · rw [hv.pending_eq, hv.tail]
    exact pendingAfter_last v.signaled s.pending hinit
  · have hcap := h.window
    show v.windowSize - (r :: rs).length + 0 + v.posted.length = _
    rw [hv.windowSize, hv.accepted, length_append, length_map]
    omega

/-! ## A post that does not succeed -/

omit h in
theorem giveBack {base : ℕ → ℤ} {bad : ℕ} (hseg : Seg s.next bad l 0) (hnodup : l.Nodup)
    (hlive : ∀ b ∈ l, b ∈ s.live)
    (hrefs : ∀ block, s.refs block = base block + (refCount s l block : ℤ)) :
    s.decRefs (walk s.next s.fuel bad) = { s with refs := base } := by
  have hlen : l.length ≤ s.fuel := le_succ_of_le (subperm_of_subset hnodup hlive).length_le
  have hbase : (s.decRefs l).refs = base := by
    funext block
    rw [decRefs_refs, hrefs, Int.add_sub_cancel]
  rw [walk_of_seg hseg hlen, decRefs_eq, hbase]

theorem Inv.writeV_bad {rs₂ : List TxReq} (rs₁ : List TxReq) (hreqs : r :: rs = rs₁ ++ q :: rs₂)
    (hfresh : Fresh s (bufsOf (r :: rs))) (hret : ret ≠ .eflowctl) :
    ∃ (v w : TxState) (groups' : List TxGroup), Posting s r rs rs₁ (q :: rs₂) residual groups' v ∧
      (rs₁ ≠ [] → v.pending = [] ∨ v.pending.length < cfg.reportThreshold) ∧
      s.writeV cfg (r :: rs) (.bad rs₁.length ret) = if q.first.buf = r.first.buf then
          { v with counters := s.counters, head := s.head, tail := s.tail }.umqBufFree q.first.buf
        else
          { v with head := w.head, counters := w.counters }.handleBadQBuf r.first.buf q.first.buf
            s.head s.counters := by
  obtain ⟨v, w, groups', hv, heq, hrefs, -, hbound⟩ := h.posting rs₁ (q :: rs₂) hreqs hfresh
  refine ⟨v, w, groups', hv, hbound, ?_⟩
  have hnodup := hfresh.nodup
  have hlive := hv.live_new
  have hchain := hv.chain
  rw [hreqs, bufsOf_append] at hnodup hlive hchain
  obtain ⟨p, -, hbad⟩ := seg_append.mp hchain
  obtain rfl : p = q.first.buf := hbad.1
  have hgive := giveBack (s := { v with refs := w.refs, head := w.head, counters := w.counters })
    hbad (nodup_append.mp hnodup).2.1 (forall_mem_append.mp hlive).2 hrefs
  have htake : (r :: rs).take rs₁.length = rs₁ := by rw [hreqs, take_left]
  have hget : (r :: rs).getD rs₁.length r = q := by
    rw [hreqs, getD_eq_getElem?_getD, getElem?_append_right (Nat.le_refl _), Nat.sub_self]
    rfl
  rw [writeV]
  simp only [if_neg hret, htake, hget, heq, hgive]

/-- **Nothing was accepted**: all is as before, but for links that nobody
follows. -/
theorem Inv.writeV_none (hfresh : Fresh s (bufsOf (r :: rs))) (hret : ret ≠ .eflowctl) :
    Accounted cfg (s.writeV cfg (r :: rs) (.bad 0 ret)) := by
  obtain ⟨v, w, groups', hv, -, hwrite⟩ := h.writeV_bad [] rfl hfresh hret
  have hpending : v.pending = s.pending := hv.pending_eq
  rw [if_pos rfl] at hwrite
  refine ⟨_, residual, groups', hwrite.trans (umqBufFree_spec hv.chain hfresh.nodup hv.live_new),
    hv.toAccepted.congr (fun b hb => mem_filter.mpr ⟨hv.live b hb, decide_eq_true (hv.apart b hb)⟩)
      (fun _ _ => rfl) (fun _ _ _ _ => rfl), hv.refs,
      h.counter.trans (congrArg length hpending.symm), ?_, ?_⟩
  · show FromTo v.next s.head s.tail v.pending.flatten
    rw [hpending]
    exact hv.old
  · show v.windowSize + 0 + v.posted.length = _
    rw [hv.windowSize, hv.accepted, map_nil, append_nil]
    exact h.window

end

/-- The last buffer of the last accepted request is the last one of everything
before it, if it is there. -/
theorem concat_of_mem_middle {A B C : List ℕ} (hnodup : (A ++ (B ++ C)).Nodup)
    (heq : A ++ (B ++ C) = D ++ [x]) (hx : x ∈ B) : ∃ l, B = l ++ [x] := by
  obtain rfl | ⟨C, y, rfl⟩ := eq_nil_or_concat' C
  · obtain rfl | ⟨B, y, rfl⟩ := eq_nil_or_concat' B
    · exact nomatch hx
    · rw [append_nil, ← append_assoc] at heq
      exact ⟨B, by rw [(append_inj_right' heq rfl)]⟩
  · rw [← append_assoc, ← append_assoc] at heq
    obtain rfl : y = x := by
      have hlast := append_inj_right' heq rfl
      exact (cons.inj hlast).1
    have hBC := (nodup_append.mp hnodup).2.1
    exact absurd rfl ((nodup_append.mp hBC).2.2 y hx y (mem_append_right C mem_cons_self))

/-- The link of the last accepted buffer can be cut. -/
theorem Accepted.cut (h : Accepted s posted pending residual groups)
    (hx : posted.flatten = D ++ [x]) : Accepted (s.setNext x 0) posted pending residual groups := by
  refine ⟨h.posted_eq, h.nodup, h.live, fun r hr => (h.reqOk r hr).congr (fun _ _ => rfl),
    h.residual_unsignaled, fun g hg => ?_, h.pending_unsignaled⟩
  have hok := h.groupOk g hg
  by_cases hmem : x ∈ g.reqs.flatten
  · obtain ⟨G, G', rfl⟩ := append_of_mem hg
    have hnodup := h.nodup
    have hparts : posted.flatten = (residual.flatten ++ (G.flatMap reqs).flatten) ++
        (g.reqs.flatten ++ ((G'.flatMap reqs).flatten ++ pending.flatten)) := by
      rw [h.posted_eq, flatMap_append, flatMap_cons]
      simp only [flatten_append, append_assoc]
    rw [hparts] at hnodup hx
    obtain ⟨l, hl⟩ := concat_of_mem_middle hnodup hx hmem
    obtain ⟨z, hseg⟩ := hok.linked
    rw [hl] at hseg
    have hxl : x ∉ l := by
      have hg := (nodup_append.mp (nodup_append.mp hnodup).2.1).1
      rw [hl] at hg
      exact fun hmem => (nodup_append.mp hg).2.2 x hmem x mem_cons_self rfl
    refine ⟨hok.unsignaled, hok.signaled, 0, ?_⟩
    rw [hl]
    exact hseg.update_last hxl 0
  · refine hok.congr (fun r hr => (h.reqOk r (h.mem_group hg hr)).ne_nil) (fun _ _ _ _ => rfl)
      fun b hb => ?_
    have hbx : b ≠ x := fun heq => hmem (heq ▸ hb)
    exact update_of_ne hbx _ _

/-- The head of the list after the repair is that of the requests after the last
signaled one. -/
theorem headAfter_eq {f : List ℕ → Bool} {head tail threshold : ℕ}
    (hlist : FromTo next head tail pending.flatten) (hQ : Q ≠ [])
    (hor : head ≠ 0 ∨ threshold ≤ pending.length + Q.length)
    (hbound : pendingAfter f pending Q = [] ∨ (pendingAfter f pending Q).length < threshold) :
    headAfter f head Q = (pendingAfter f pending Q).flatten.headD 0 := by
  by_cases hsig : ∃ q ∈ Q, f q = true
  · exact headAfter_of_signaled f head pending hsig
  by_cases hhead : head = 0
  · -- no request is signaled, so the threshold is not reached
    have hunsig : ∀ q ∈ Q, f q = false := fun q hq => eq_false_iff.mpr fun ht => hsig ⟨q, hq, ht⟩
    have hle := hor.resolve_left fun hne => hne hhead
    rw [pendingAfter_of_unsignaled f pending hunsig, length_append] at hbound
    obtain hnil | hlt := hbound
    · exact absurd (append_eq_nil_iff.mp hnil).2 hQ
    · exact absurd hle (Nat.not_le.mpr hlt)
  · refine headAfter_of_head f ?_
    obtain ⟨-, h0⟩ | ⟨l, z, hl, hseg⟩ := hlist
    · exact absurd h0 hhead
    · rw [flatten_append, hl]
      rw [hl] at hseg
      cases l with
      | nil => exact hseg.1
      | cons b l => exact hseg.1

/-- The list after the repair ends with the last accepted buffer. -/
theorem fromTo_repaired {head : ℕ} {rest : List ℕ}
    (hseg : Seg next head (l ++ rest) 0) (hnodup : l.Nodup) (hlast : l = [] ∨ ∃ l', l = l' ++ [x]) :
    FromTo (update next x 0) (l.headD 0) (if l.headD 0 = 0 then 0 else x) l := by
  obtain rfl | ⟨l', rfl⟩ := hlast
  · exact .inl ⟨rfl, rfl⟩
  obtain ⟨z, hfront, -⟩ := seg_append.mp hseg
  have hne : l' ++ [x] ≠ [] := by simp
  have hhead : head = (l' ++ [x]).headD 0 := by
    cases l' with
    | nil | cons b l' => exact hfront.1
  have hx : x ∉ l' := fun hmem => (nodup_append.mp hnodup).2.2 x hmem x mem_cons_self rfl
  have hne0 : (l' ++ [x]).headD 0 ≠ 0 := hhead ▸ hfront.ne_zero (hfront.start_mem hne)
  rw [if_neg hne0, ← hhead]
  exact .inr ⟨l', 0, rfl, hfront.update_last hx 0⟩

theorem length_le_flatten (hne : ∀ q ∈ Q, q ≠ []) : Q.length ≤ Q.flatten.length := by
  induction Q with
  | nil => exact Nat.le_refl _
  | cons q Q ih =>
    obtain ⟨hq, hQ⟩ := forall_mem_cons.mp hne
    have hpos := length_pos_iff.mpr hq
    have hle := ih hQ
    rw [flatten_cons, length_append, length_cons]
    omega

/-- **`HandleBadQBuf`** for the accepted requests `Q` and the buffers from `bad`
on. -/
theorem handleBadQBuf_spec {more : List ℕ} {bad first : ℕ} (lastHead : ℕ) (counters : TxCounters)
    (hok : ∀ q ∈ Q, ReqOk s q) (hseg : Seg s.next first (Q.flatten ++ bad :: more) 0)
    (hnodup : (Q.flatten ++ bad :: more).Nodup)
    (hlive : ∀ b ∈ Q.flatten ++ bad :: more, b ∈ s.live) (hx : Q.flatten = D ++ [x]) :
    ∃ c : TxCounters, c.unsignaledWrNum = unsignaledAfter s.signaled counters.unsignaledWrNum Q ∧
      s.handleBadQBuf first bad lastHead counters = some { s.setNext x 0 with
          counters := c
          windowSize := s.windowSize - Q.length
          head := headAfter s.signaled lastHead Q
          tail := if headAfter s.signaled lastHead Q = 0 then 0 else x
          live := s.live.filter (fun b => b ∉ bad :: more) } := by
  obtain ⟨hnodupQ, hnodupBad, hapart⟩ := nodup_append.mp hnodup
  obtain ⟨hliveQ, hliveBad⟩ := forall_mem_append.mp hlive
  have hlen : Q.flatten.length ≤ s.live.length := (subperm_of_subset hnodupQ hliveQ).length_le
  have hQlen := length_le_flatten fun q hq => (hok q hq).ne_nil
  have hbad : bad ∉ Q.flatten := fun hmem => hapart bad hmem bad mem_cons_self rfl
  have hfuel : Q.length < s.fuel := lt_succ_of_le (Nat.le_trans hQlen hlen)
  obtain ⟨a, hscan, hcnt, hlast, hhead, hcounter, -⟩ :=
    scanBad_spec ⟨first, 0, lastHead, counters, 0, 0⟩ hok hseg hbad hfuel (le_succ_of_le hlen)
  have hxmem : x ∈ Q.flatten := hx ▸ mem_append_right D mem_cons_self
  have hx0 : x ≠ 0 := hseg.ne_zero (mem_append_left _ hxmem)
  have hax : a.last = x := by rw [hlast, hx, getLastD_concat]
  have hwr : a.wrCnt = Q.length := hcnt.trans (Nat.zero_add _)
  obtain ⟨p, -, hbadSeg⟩ := seg_append.mp hseg
  have hp : p = bad := hbadSeg.1
  have hcutSeg : Seg (update s.next x 0) bad (bad :: more) 0 := by
    rw [hp] at hbadSeg
    exact hbadSeg.update_of_not_mem (fun hmem => hapart x hxmem x hmem rfl) 0
  refine ⟨a.counters, hcounter, ?_⟩
  rw [handleBadQBuf, hscan, bind_some, hax, hwr, hhead]
  simp only [if_pos hx0]
  exact umqBufFree_spec hcutSeg hnodupBad hliveBad

/-- **A part was accepted**, and the repair is complete. -/
theorem Inv.writeV_part {rs₁ rs₂ : List TxReq} (h : Inv cfg 0 s residual groups)
    (hreqs : r :: rs = rs₁ ++ q :: rs₂) (hne : rs₁ ≠ []) (hfresh : Fresh s (bufsOf (r :: rs)))
    (hroom : (r :: rs).length ≤ s.windowSize) (hret : ret ≠ .eflowctl)
    (hor : s.head ≠ 0 ∨ cfg.reportThreshold ≤ s.counters.unsignaledWrNum + rs₁.length) :
    Accounted cfg (s.writeV cfg (r :: rs) (.bad rs₁.length ret)) := by
  obtain ⟨v, w, groups', hv, hbound, hwrite⟩ := h.writeV_bad rs₁ hreqs hfresh hret
  have hnodup := hfresh.nodup
  have hlive := hv.live_new
  have hchain := hv.chain
  rw [hreqs, bufsOf_append, ← flatten_map_bufs rs₁] at hnodup hlive hchain
  have hbad : q.first.buf ≠ r.first.buf := fun hbad => by
    obtain ⟨r', rs', rfl⟩ := exists_cons_of_ne_nil hne
    obtain ⟨rfl, -⟩ := cons.inj hreqs
    exact (nodup_append.mp hnodup).2.2 r.first.buf mem_cons_self q.first.buf mem_cons_self hbad.symm
  obtain ⟨init, last, hlast⟩ := (eq_nil_or_concat' rs₁).resolve_left hne
  obtain ⟨l, hl⟩ := lastBuf_spec last
  have hD : (rs₁.map bufs).flatten = (bufsOf init ++ l) ++ [last.lastBuf] := by
    rw [flatten_map_bufs, hlast, bufsOf_append, append_assoc, ← hl]
    exact congrArg _ (flatMap_singleton _ _)
  have hflat : v.posted.flatten = (s.posted.flatten ++ (bufsOf init ++ l)) ++ [last.lastBuf] := by
    rw [hv.accepted, flatten_append, hD]
    exact (append_assoc ..).symm
  obtain ⟨c, hc, hhandle⟩ :=
    handleBadQBuf_spec (s := { v with head := w.head, counters := w.counters }) s.head s.counters
      (fun p hp => (hv.reqOk p (hv.accepted ▸ mem_append_right _ hp)).congr fun _ _ => rfl)
      hchain hnodup hlive hD
  have hhead : headAfter v.signaled s.head (rs₁.map bufs) = v.pending.flatten.headD 0 := by
    have hbound := hbound hne
    rw [hv.pending_eq] at hbound ⊢
    refine headAfter_eq h.list (fun hnil => hne (map_eq_nil_iff.mp hnil)) ?_ hbound
    rw [← h.counter, length_map]
    exact hor
  have hcut := hv.toAccepted.cut hflat
  rw [if_neg hbad] at hwrite
  refine ⟨_, residual, groups', hwrite.trans hhandle, hcut.congr
    (fun b hb => mem_filter.mpr ⟨hv.live b hb, decide_eq_true (hv.apart b hb)⟩) (fun _ _ => rfl)
    (fun _ _ _ _ => rfl), hv.refs, ?_, ?_, ?_⟩
  · show c.unsignaledWrNum = v.pending.length
    rw [hc, h.counter, unsignaledAfter_length, hv.pending_eq]
    rfl
  · show FromTo (update v.next last.lastBuf 0) (headAfter v.signaled s.head (rs₁.map bufs))
      (if headAfter v.signaled s.head (rs₁.map bufs) = 0 then 0 else last.lastBuf) v.pending.flatten
    rw [hhead]
    refine fromTo_repaired hv.list hv.nodup_pending ?_
    rw [hv.pending_eq]
    exact pendingAfter_last v.signaled s.pending hlast
  · have hcap := h.window
    have hle : rs₁.length ≤ (r :: rs).length := by
      rw [hreqs, length_append]
      exact le_add_right _ _
    show v.windowSize - (rs₁.map bufs).length + 0 + v.posted.length = _
    rw [hv.windowSize, hv.accepted, length_append, length_map]
    omega

/-! ## Completions -/

/-- The next completion is for the first group. -/
theorem Accepted.nextSignaled (h : Accepted s s.posted s.pending residual groups) :
    s.nextSignaled = groups.head?.map last := by
  have hnone : ∀ {Q : List (List ℕ)}, (∀ q ∈ Q, s.signaled q = false) → Q.find? s.signaled = none :=
    fun hQ => find?_eq_none.mpr fun q hq => by simp [hQ q hq]
  rw [TxState.nextSignaled, h.posted_eq, find?_append, hnone h.residual_unsignaled]
  cases hgroups : groups with
  | nil => exact hnone h.pending_unsignaled
  | cons g gs =>
    have hg := h.groupOk g (by simp [hgroups])
    rw [flatMap_cons, append_assoc, reqs, append_assoc, find?_append, hnone hg.unsignaled]
    exact find?_cons_of_pos hg.signaled

theorem Inv.retired {A C : List (List ℕ)} {residual' : List (List ℕ)}
    (h : Inv cfg cnt s residual (g :: gs)) (hposted : s.posted = A ++ (Q ++ C))
    (hQ : Q.flatten = l ++ [x]) (hleft : A ++ C = residual' ++ (gs.flatMap reqs ++ s.pending))
    (hresidual : ∀ r ∈ residual', s.signaled r = false) :
    Inv cfg (cnt + Q.length) { s with
        refs := (s.decRefs Q.flatten).refs
        next := update s.next x 0
        posted := A ++ C
        live := s.live.filter (fun b => b ∉ Q.flatten) } residual' gs := by
  have hnodup := h.nodup
  rw [hposted, flatten_append, flatten_append] at hnodup
  obtain ⟨hA, hQC, hAQC⟩ := nodup_append.mp hnodup
  obtain ⟨-, hC, hQapartC⟩ := nodup_append.mp hQC
  have hapart : ∀ b ∈ (A ++ C).flatten, b ∉ Q.flatten := by
    rw [flatten_append]
    exact forall_mem_append.mpr ⟨fun b hb hmem => hAQC b hb b (mem_append_left _ hmem) rfl,
        fun b hb hmem => hQapartC b hmem b hb rfl⟩
  have hsub : ∀ r ∈ A ++ C, r ∈ s.posted := by
    rw [hposted]
    exact forall_mem_append.mpr ⟨fun r hr => mem_append_left _ hr,
      fun r hr => mem_append_right _ (mem_append_right _ hr)⟩
  have hxQ : x ∈ Q.flatten := hQ ▸ mem_append_right l mem_cons_self
  have hnext : ∀ b ∈ (A ++ C).flatten, update s.next x 0 b = s.next b := fun b hb => by
    have hbx : b ≠ x := fun heq => hapart b hb (heq ▸ hxQ)
    exact update_of_ne hbx _ _
  have hgroup : ∀ g' ∈ gs, ∀ r ∈ g'.reqs, r ∈ A ++ C := fun g' hg' r hr => by
    rw [hleft]
    exact mem_append_right _ (mem_append_left _ (mem_flatMap.mpr ⟨g', hg', hr⟩))
  have hpending : ∀ r ∈ s.pending, r ∈ A ++ C := fun r hr => by
    rw [hleft]
    exact mem_append_right _ (mem_append_right _ hr)
  constructor
  case toAccepted =>
    refine ⟨hleft, ?_, fun b hb =>
      mem_filter.mpr ⟨h.live b (mem_flatten_mono hsub hb), decide_eq_true (hapart b hb)⟩,
      fun r hr => (h.reqOk r (hsub r hr)).congr (fun _ _ => rfl), hresidual, fun g' hg' => ?_,
      h.pending_unsignaled⟩
    · rw [flatten_append]
      exact nodup_append.mpr ⟨hA, hC, fun a ha b hb => hAQC a ha b (mem_append_right _ hb)⟩
    · refine (h.groupOk g' (mem_cons_of_mem g hg')).congr
        (fun r hr => (h.reqOk r (hsub r (hgroup g' hg' r hr))).ne_nil) (fun _ _ _ _ => rfl)
        fun b hb => hnext b (mem_flatten_mono (hgroup g' hg') hb)
  case refs =>
    intro block
    show (s.decRefs Q.flatten).refs block = (refCount s (A ++ C).flatten block : ℤ)
    have hcount : refCount s s.posted.flatten block =
        refCount s (A ++ C).flatten block + refCount s Q.flatten block := by
      rw [hposted]
      simp only [refCount, flatten_append, countP_append]
      omega
    rw [decRefs_refs, h.refs, hcount, Int.natCast_add, Int.add_sub_cancel]
  case counter => exact h.counter
  case list => exact FromTo.congr h.list fun b hb => hnext b (mem_flatten_mono hpending hb)
  case window =>
    have hcap := h.window
    rw [hposted] at hcap
    show s.windowSize + (cnt + Q.length) + (A ++ C).length = _
    simp only [length_append] at hcap ⊢
    omega

theorem Accepted.group_length (h : Accepted s posted pending residual groups) (hg : g ∈ groups) :
    g.reqs.flatten.Nodup ∧ g.reqs.flatten.length ≤ s.fuel := by
  obtain ⟨G, G', rfl⟩ := append_of_mem hg
  have hnodup := h.nodup
  rw [h.posted_eq, flatMap_append, flatMap_cons] at hnodup
  simp only [flatten_append, append_assoc] at hnodup
  have hgroup := (nodup_append.mp (nodup_append.mp (nodup_append.mp hnodup).2.1).2.1).1
  refine ⟨hgroup, le_succ_of_le ?_⟩
  exact (subperm_of_subset hgroup fun b hb => h.live b
    (mem_flatten_mono (fun _ => h.mem_group hg) hb)).length_le

theorem reqs_flatten (g : TxGroup) : g.reqs.flatten = g.unsignaled.flatten ++ g.last := by
  rw [reqs, flatten_append, flatten_singleton]

/-- **A completion that reports success** retires its group. -/
theorem Inv.handleCqe_ok (h : Inv cfg cnt s residual (g :: gs)) :
    ∃ t, s.handleCqe (g.last.headD 0) true = some (t, g.reqs.length) ∧
      Inv cfg (cnt + g.reqs.length) t residual gs := by
  have hmem : g ∈ g :: gs := mem_cons_self
  have hok : ∀ r ∈ g.reqs, ReqOk s r := fun r hr => h.reqOk r (h.mem_group hmem hr)
  have hlast : g.last ∈ g.reqs := mem_append_right _ mem_cons_self
  obtain ⟨hnodup, hlen⟩ := h.toAccepted.group_length hmem
  obtain ⟨z, hseg⟩ := (h.groupOk g hmem).linked
  have hne : g.reqs.flatten ≠ [] := by simp [reqs_flatten, (hok _ hlast).ne_nil]
  have hctx : (s.buf (g.last.headD 0)).userCtx ≠ 0 := hseg.ne_zero (hseg.start_mem hne)
  obtain ⟨l, x, hlx⟩ := (eq_nil_or_concat' _).resolve_left hne
  have hend : ∀ r ∈ g.unsignaled, r.headD 0 ≠ g.last.headD 0 := fun r hr heq => by
    rw [reqs_flatten] at hnodup
    have hr' := headD_mem (hok r (mem_append_left _ hr)).ne_nil
    exact (nodup_append.mp hnodup).2.2 _ (mem_flatten.mpr ⟨r, hr, hr'⟩) _
      (headD_mem (hok _ hlast).ne_nil) heq
  have hcount : g.unsignaled.length < s.fuel := by
    have hle := Nat.le_trans (length_le_flatten fun r hr => (hok r hr).ne_nil) hlen
    rw [reqs, length_append] at hle
    exact hle
  have hwalk : s.cqeRequests (g.last.headD 0) s.fuel (s.buf (g.last.headD 0)).userCtx =
      some g.reqs := cqeRequests_spec hok hseg hend hcount hlen
  have hposted : s.posted = residual ++ (g.reqs ++ (gs.flatMap reqs ++ s.pending)) := by
    rw [h.posted_eq, flatMap_cons, append_assoc]
  have hretire := retire_spec hposted h.nodup (fun r hr => (h.reqOk r hr).ne_nil) h.live hlx
    (hlx ▸ hseg)
  refine ⟨_, ?_, h.retired hposted hlx rfl h.residual_unsignaled⟩
  rw [handleCqe, if_neg hctx, processTxCqe, hwalk, bind_some, hretire]
  rfl

/-- **A completion that reports an error** retires its request only. -/
theorem Inv.handleCqe_error (h : Inv cfg cnt s residual (g :: gs)) :
    ∃ t, s.handleCqe (g.last.headD 0) false = some (t, 1) ∧
      Inv cfg (cnt + 1) t (residual ++ g.unsignaled) gs := by
  have hmem : g ∈ g :: gs := mem_cons_self
  have hok : ReqOk s g.last := h.reqOk _ (h.mem_group hmem (mem_append_right _ mem_cons_self))
  obtain ⟨-, hlen⟩ := h.toAccepted.group_length hmem
  obtain ⟨z, hseg⟩ := (h.groupOk g hmem).linked
  rw [reqs_flatten] at hseg hlen
  rw [length_append] at hlen
  obtain ⟨p, -, hown⟩ := seg_append.mp hseg
  obtain ⟨hp, -, p', hreq, -⟩ := hok.requestAt ((append_nil g.last).symm ▸ hown)
    (Nat.le_trans (le_add_left _ _) hlen)
  obtain ⟨l, x, hlx⟩ := (eq_nil_or_concat' _).resolve_left hok.ne_nil
  have hlx' : [g.last].flatten = l ++ [x] := by rw [flatten_singleton, hlx]
  have hposted : s.posted =
      (residual ++ g.unsignaled) ++ ([g.last] ++ (gs.flatMap reqs ++ s.pending)) := by
    rw [h.posted_eq, flatMap_cons, reqs, append_assoc, append_assoc, append_assoc]
  have hretire := retire_spec hposted h.nodup (fun r hr => (h.reqOk r hr).ne_nil) h.live hlx'
    (hlx ▸ hown)
  refine ⟨_, ?_, h.retired hposted hlx' rfl (forall_mem_append.mpr
    ⟨h.residual_unsignaled, (h.groupOk g hmem).unsignaled⟩)⟩
  rw [handleCqe, processErrorTxCqe, ← hp, hreq, hretire]
  rfl

/-- **`PollTx`** keeps the accounts. -/
theorem Inv.pollTx {oks : List Bool} {st : Option TxState} (h : Inv cfg cnt s residual groups)
    (hpoll : TxState.pollTx oks cnt s = some st) : Accounted cfg st := by
  induction oks generalizing s cnt residual groups with
  | nil =>
    cases hpoll
    refine ⟨{ s with windowSize := s.windowSize + cnt }, residual, groups, rfl,
      h.toAccepted.congr h.live (fun _ _ => rfl) (fun _ _ _ _ => rfl), h.refs, h.counter, h.list,
      ?_⟩
    exact h.window
  | cons ok oks ih =>
    rw [TxState.pollTx, h.toAccepted.nextSignaled] at hpoll
    cases groups with
    | nil => exact nomatch hpoll
    | cons g gs =>
      cases ok with
      | true =>
        obtain ⟨t, hcqe, ht⟩ := h.handleCqe_ok
        rw [head?_cons, map_some, bind_some, hcqe] at hpoll
        exact ih ht hpoll
      | false =>
        obtain ⟨t, hcqe, ht⟩ := h.handleCqe_error
        rw [head?_cons, map_some, bind_some, hcqe] at hpoll
        exact ih ht hpoll

end TxState

/-! ## Runs -/

open TxState

theorem accounted_writeV {cfg : TxConfig} {s : TxState} {residual : List (List ℕ)}
    {groups : List TxGroup} {reqs : List TxReq} {outcome : PostOutcome}
    (h : TxState.Inv cfg 0 s residual groups) (hpost : s.Postable reqs outcome)
    (hrepaired : s.Repaired cfg (.writeV reqs outcome)) :
    Accounted cfg (s.writeV cfg reqs outcome) := by
  obtain ⟨hnodup, hnew, hroom, hbad⟩ := hpost
  have hroom : reqs.length ≤ s.windowSize := Nat.le_trans hroom (Nat.min_le_left _ _)
  have hfresh : Fresh s (bufsOf reqs) :=
    ⟨hnodup, fun b hb => (hnew b hb).1, fun b hb => (hnew b hb).2⟩
  cases reqs with
  | nil => exact ⟨s, residual, groups, rfl, h⟩
  | cons r rs =>
    cases outcome with
    | success => exact h.writeV_success hfresh hroom
    | noBadQbuf => exact nomatch hrepaired
    | bad accepted ret =>
      obtain ⟨hret, hor⟩ := hrepaired
      by_cases hzero : accepted = 0
      · subst hzero
        exact h.writeV_none hfresh hret
      · have hlt : accepted < (r :: rs).length := hbad
        have hlen : ((r :: rs).take accepted).length = accepted :=
          length_take_of_le (Nat.le_of_lt hlt)
        have hsplit : r :: rs = (r :: rs).take accepted ++
            (r :: rs).get ⟨accepted, hlt⟩ :: (r :: rs).drop (accepted + 1) := by
          rw [get_eq_getElem, getElem_cons_drop, take_append_drop]
        have hne : (r :: rs).take accepted ≠ [] := fun hnil => by
          rw [hnil] at hlen
          exact hzero hlen.symm
        have hpart := h.writeV_part hsplit hne hfresh hroom hret
          (by rw [hlen]; exact hor.resolve_left hzero)
        rwa [hlen] at hpart

theorem accounted_step {cfg : TxConfig} {st st' : Option TxState} {a : TxAction}
    (h : Accounted cfg st) (hrepaired : ∀ s ∈ st, s.Repaired cfg a)
    (hstep : txStep cfg st a = some st') : Accounted cfg st' := by
  obtain ⟨s, residual, groups, rfl, hinv⟩ := h
  cases a with
  | writeV reqs outcome =>
    obtain ⟨hpost, rfl⟩ := guard_eq_some.mp hstep
    exact accounted_writeV hinv hpost (hrepaired s rfl)
  | pollTx oks =>
    exact hinv.pollTx hstep

/-- `m_tx` in the beginning. -/
def txInit (cfg : TxConfig) : TxState := { windowSize := cfg.txWindowCapacity }

theorem accounted_init (cfg : TxConfig) : Accounted cfg (some (txInit cfg)) :=
  ⟨txInit cfg, [], [], rfl,
    ⟨⟨rfl, nodup_nil, nofun, nofun, nofun, nofun, nofun⟩, fun _ => rfl, rfl, .inl ⟨rfl, rfl⟩, rfl⟩⟩

/-- **The accounts over whole runs.** In every run in which the repairs are
complete no list is broken and no buffer is freed twice (the statistics that are
kept of errors are left out: they read the status of a buffer that has been
freed); and in the state reached the
window and the accepted requests that are not retired make up the capacity, the
list from the head to the tail has the buffers of the accepted requests after the
last signaled one, in this order, and every block has one reference for each
buffer of an accepted request that is not retired and points into it. -/
theorem accounted_of_txRun (cfg : TxConfig) (actions : List TxAction) (st : Option TxState)
    (hrepaired : Along (txStep cfg) (fun st a => ∀ s ∈ st, s.Repaired cfg a) (some (txInit cfg))
      actions)
    (hrun : run (txStep cfg) (some (txInit cfg)) actions = some st) :
    ∃ s, st = some s ∧ s.windowSize + s.posted.length = cfg.txWindowCapacity ∧
      FromTo s.next s.head s.tail s.pending.flatten ∧
      ∀ block, s.refs block = (refCount s s.posted.flatten block : ℤ) := by
  obtain ⟨s, residual, groups, rfl, h⟩ := run_invariant_along
    (fun _ _ _ h hG hstep => accounted_step h hG hstep) (accounted_init cfg) hrepaired hrun
  exact ⟨s, rfl, h.window, h.list, h.refs⟩

/-- A request of one buffer. -/
def sampleReq (buf block : ℕ) : TxReq := ⟨⟨buf, block, 10, by decide⟩, []⟩

/-- Every third request is signaled. Of the second two requests one is accepted;
it is the third one. -/
def sampleTxActions : List TxAction :=
  [.writeV [sampleReq 1 100, ⟨⟨2, 100, 10, by decide⟩, [⟨3, 200, 5, by decide⟩]⟩] .success,
    .writeV [sampleReq 4 200, sampleReq 5 300] (.bad 1 .eagain),
    .writeV [sampleReq 6 300] (.bad 0 .other), .writeV [sampleReq 7 300] .success,
    .pollTx [true]]

theorem accounted_of_txRun_sample :
    ∃ s, run (txStep ⟨8, 3⟩) (some (txInit ⟨8, 3⟩)) sampleTxActions = some (some s) ∧
      s.windowSize + s.posted.length = 8 ∧ FromTo s.next s.head s.tail s.pending.flatten ∧
      ∀ block, s.refs block = (refCount s s.posted.flatten block : ℤ) := by
  have hrepaired : Along (txStep ⟨8, 3⟩) (fun st a => ∀ s ∈ st, s.Repaired ⟨8, 3⟩ a)
      (some (txInit ⟨8, 3⟩)) sampleTxActions := by decide +kernel
  have hsome : (run (txStep ⟨8, 3⟩) (some (txInit ⟨8, 3⟩)) sampleTxActions).isSome = true := by
    decide +kernel
  obtain ⟨st, hrun⟩ := isSome_iff_exists.mp hsome
  obtain ⟨s, rfl, hs⟩ := accounted_of_txRun ⟨8, 3⟩ sampleTxActions st hrepaired hrun
  exact ⟨s, hrun, hs⟩

/-- What is not repaired: a failure of flow control after one request was
accepted, which has no place in the window; a failure without a bad buffer, which
leaves a reference behind; and one accepted request that is not signaled where
the list was empty, which is not in the list afterwards. -/
theorem exists_txRun_unrepaired : (∃ st ∈ run (txStep ⟨4, 1⟩) (some (txInit ⟨4, 1⟩))
        [.writeV [sampleReq 1 100, sampleReq 2 100] (.bad 1 .eflowctl)],
      ∃ s ∈ st, s.windowSize = 4 ∧ s.posted = [[1]] ∧ s.refs 100 = 2) ∧
    (∃ st ∈ run (txStep ⟨4, 1⟩) (some (txInit ⟨4, 1⟩)) [.writeV [sampleReq 1 100] .noBadQbuf],
      ∃ s ∈ st, s.posted = [] ∧ s.refs 100 = 1) ∧
    ∃ st ∈ run (txStep ⟨4, 3⟩) (some (txInit ⟨4, 3⟩))
        [.writeV [sampleReq 1 100, sampleReq 2 100] (.bad 1 .eagain)],
      ∃ s ∈ st, s.head = 0 ∧ s.pending = [[1]] := by
  decide +kernel

end Brpc
