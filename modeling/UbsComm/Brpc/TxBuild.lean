import UbsComm.Brpc.TxPending

/-!
# What building the requests does

The loop of `WriteV` over the requests, one request at a time. `Prepared` is
everything that one turn of it does: the buffers of the request point at their
segments and their blocks have a reference more, the first buffer has the size of
the request, and the request is signaled if it is its turn, in which case it
remembers the head of the list and the list begins behind it.

`Accepted` says what holds of the requests that were accepted: the size of a
request is that of its buffers, the requests that a completion stands for are
linked from its `user_ctx` on (`GroupOk`), and the references are one for each
buffer. While the requests are built this is kept with each request added to
the accepted ones, and the buffers of the requests that are still to be built
follow those of the list (`Building`).
-/

namespace Brpc

open Links Function List TxReq

namespace TxState

variable {cfg : TxConfig} {s t u : TxState} {r : TxReq} {b : ℕ} {bufs bufs' : List ℕ}

/-! ## One request -/

/-- A step that touches nothing but the given buffers, and the head, the
counters and the references. -/
structure Beside (bufs : List ℕ) (s t : TxState) : Prop where
  next : t.next = s.next
  live : t.live = s.live
  windowSize : t.windowSize = s.windowSize
  tail : t.tail = s.tail
  posted : t.posted = s.posted
  pending : t.pending = s.pending
  buf : ∀ b, b ∉ bufs → t.buf b = s.buf b

theorem Beside.refl (bufs : List ℕ) (s : TxState) : Beside bufs s s :=
  ⟨rfl, rfl, rfl, rfl, rfl, rfl, fun _ _ => rfl⟩

theorem Beside.trans (h : Beside bufs s t) (h' : Beside bufs' t u) :
    Beside (bufs ++ bufs') s u := by
  refine ⟨h'.next.trans h.next, h'.live.trans h.live, h'.windowSize.trans h.windowSize,
    h'.tail.trans h.tail, h'.posted.trans h.posted, h'.pending.trans h.pending, fun b hb => ?_⟩
  obtain ⟨hb, hb'⟩ := not_or.mp fun hor => hb (mem_append.mpr hor)
  rw [h'.buf b hb', h.buf b hb]

theorem Beside.mono (h : Beside bufs s t) (hsub : ∀ b ∈ bufs, b ∈ bufs') : Beside bufs' s t :=
  { h with buf := fun b hb => h.buf b (fun hmem => hb (hsub b hmem)) }

/-- How many of the segments point into a block. -/
def blockCount (segs : List TxSeg) (block : ℕ) : ℕ := segs.countP (fun seg => seg.block = block)

/-- The buffers of the segments are filled in. -/
structure Filled (segs : List TxSeg) (s t : TxState) : Prop extends
    Beside (segs.map TxSeg.buf) s t where
  head : t.head = s.head
  counters : t.counters = s.counters
  seg : ∀ seg ∈ segs, (t.buf seg.buf).block = seg.block ∧ (t.buf seg.buf).dataSize = seg.dataSize
  refs : ∀ block, t.refs block = s.refs block + (blockCount segs block : ℤ)

theorem filled_fillSeg (s : TxState) (seg : TxSeg) : Filled [seg] s (s.fillSeg seg) := by
  refine ⟨⟨rfl, rfl, rfl, rfl, rfl, rfl, fun b hb => ?_⟩, rfl, rfl, fun seg' hseg => ?_,
    fun block => ?_⟩
  · exact update_of_ne (fun heq => hb (mem_singleton.mpr heq)) ..
  · obtain rfl := mem_singleton.mp hseg
    simp [fillSeg, setBuf, incRef]
  · show update s.refs seg.block (s.refs seg.block + 1) block = _
    by_cases hblock : block = seg.block
    · rw [hblock, update_self, blockCount, countP_singleton, decide_eq_true rfl]
      rfl
    · rw [update_of_ne hblock, blockCount, countP_singleton,
        decide_eq_false (fun heq => hblock heq.symm)]
      exact (Int.add_zero _).symm

theorem Filled.trans {segs segs' : List TxSeg} (h : Filled segs s t) (h' : Filled segs' t u)
    (hapart : ∀ seg ∈ segs, seg.buf ∉ segs'.map TxSeg.buf) : Filled (segs ++ segs') s u := by
  refine ⟨?_, h'.head.trans h.head, h'.counters.trans h.counters,
    forall_mem_append.mpr ⟨fun seg hseg => ?_, h'.seg⟩, fun block => ?_⟩
  · rw [map_append]
    exact h.toBeside.trans h'.toBeside
  · rw [h'.buf seg.buf (hapart seg hseg)]
    exact h.seg seg hseg
  · rw [h'.refs, h.refs, blockCount, blockCount, blockCount, countP_append, Int.natCast_add,
      Int.add_assoc]

theorem filled_foldl (segs : List TxSeg) (hnodup : (segs.map TxSeg.buf).Nodup) (s : TxState) :
    Filled segs s (segs.foldl fillSeg s) := by
  induction segs generalizing s with
  | nil => exact ⟨Beside.refl _ s, rfl, rfl, nofun, fun _ => (Int.add_zero _).symm⟩
  | cons seg segs ih =>
    obtain ⟨hseg, hnodup⟩ := nodup_cons.mp hnodup
    exact (filled_fillSeg s seg).trans (ih hnodup (s.fillSeg seg)) (fun seg' hseg' =>
      mem_singleton.mp hseg' ▸ hseg)

/-- **One turn of the loop.** -/
structure Prepared (cfg : TxConfig) (r : TxReq) (s t : TxState) : Prop extends
    Beside r.bufs s t where
  seg : ∀ seg ∈ r.segs, (t.buf seg.buf).block = seg.block ∧ (t.buf seg.buf).dataSize = seg.dataSize
  total : (t.buf r.first.buf).totalDataSize = r.totalDataSize
  refs : ∀ block, t.refs block = s.refs block + (blockCount r.segs block : ℤ)
  signal : (t.signaled r.bufs = true ∧ (t.buf r.first.buf).userCtx = s.head ∧
        t.head = s.next r.lastBuf ∧ t.counters.unsignaledWrNum = 0) ∨
      (t.signaled r.bufs = false ∧ t.head = s.head ∧
        t.counters.unsignaledWrNum = s.counters.unsignaledWrNum + 1 ∧
        s.counters.unsignaledWrNum + 1 < cfg.reportThreshold)

/-- Only flags of one buffer are different. -/
structure Flagged (p : ℕ) (s t : TxState) : Prop extends Beside [p] s t where
  refs : t.refs = s.refs
  block : (t.buf p).block = (s.buf p).block
  dataSize : (t.buf p).dataSize = (s.buf p).dataSize

theorem flagged_setBuf (s : TxState) (p : ℕ) {content : TxBuf} {head : ℕ} {counters : TxCounters}
    (hblock : content.block = (s.buf p).block) (hsize : content.dataSize = (s.buf p).dataSize) :
    Flagged p s { s.setBuf p content with head, counters } := by
  refine ⟨⟨rfl, rfl, rfl, rfl, rfl, rfl, fun b hb => ?_⟩, rfl, ?_, ?_⟩
  · exact update_of_ne (fun heq => hb (mem_singleton.mpr heq)) ..
  · simpa [setBuf] using hblock
  · simpa [setBuf] using hsize

theorem flagged_counters (s : TxState) (p : ℕ) (counters : TxCounters) :
    Flagged p s { s with counters } :=
  ⟨⟨rfl, rfl, rfl, rfl, rfl, rfl, fun _ _ => rfl⟩, rfl, rfl, rfl⟩

theorem Flagged.trans {p : ℕ} (h : Flagged p s t) (h' : Flagged p t u) : Flagged p s u :=
  ⟨(h.toBeside.trans h'.toBeside).mono (fun _ hb => (mem_append.mp hb).elim id id),
    h'.refs.trans h.refs, h'.block.trans h.block, h'.dataSize.trans h.dataSize⟩

variable (cfg : TxConfig) (s : TxState) (r : TxReq)

/-- `solicit` changes flags only, and not those that tell whether a completion is
reported. -/
theorem solicit_spec (last : Bool) (ht : s.solicit cfg r last = t) : Flagged r.first.buf s t ∧
      (t.buf r.first.buf).totalDataSize = (s.buf r.first.buf).totalDataSize ∧
      (t.buf r.first.buf).completeEnable = (s.buf r.first.buf).completeEnable ∧
      t.head = s.head ∧ t.counters.unsignaledWrNum = s.counters.unsignaledWrNum := by
  subst ht
  rw [solicit]
  split_ifs
  · exact ⟨flagged_setBuf s _ rfl rfl, by simp [setBuf], by simp [setBuf], rfl, rfl⟩
  · exact ⟨flagged_counters .., rfl, rfl, rfl, rfl⟩

theorem signal_spec (hnot : (s.buf r.first.buf).completeEnable = false) (ht : s.signal cfg r = t) :
    Flagged r.first.buf s t ∧
      (t.buf r.first.buf).totalDataSize = (s.buf r.first.buf).totalDataSize ∧
      ((t.signaled r.bufs = true ∧ (t.buf r.first.buf).userCtx = s.head ∧
          t.head = s.next r.lastBuf ∧ t.counters.unsignaledWrNum = 0) ∨
        (t.signaled r.bufs = false ∧ t.head = s.head ∧
          t.counters.unsignaledWrNum = s.counters.unsignaledWrNum + 1 ∧
          s.counters.unsignaledWrNum + 1 < cfg.reportThreshold)) := by
  subst ht
  rw [signal]
  split_ifs with hturn
  · exact ⟨flagged_setBuf s _ rfl rfl, by simp [setBuf], .inl
      ⟨by simp [setBuf, signaled, bufs, TxReq.segs], by simp [setBuf], rfl, rfl⟩⟩
  · exact ⟨flagged_counters .., rfl, .inr ⟨hnot, rfl, rfl, Nat.not_le.mp hturn⟩⟩

variable {cfg} {s} {r}

theorem Flagged.seg {segs : List TxSeg} {p : ℕ} (h : Flagged p s t) (hseg : ∀ seg ∈ segs,
      (s.buf seg.buf).block = seg.block ∧ (s.buf seg.buf).dataSize = seg.dataSize) :
    ∀ seg ∈ segs, (t.buf seg.buf).block = seg.block ∧ (t.buf seg.buf).dataSize = seg.dataSize := by
  intro seg hmem
  by_cases heq : seg.buf = p
  · rw [heq, h.block, h.dataSize, ← heq]
    exact hseg seg hmem
  · rw [h.buf seg.buf (fun hb => heq (mem_singleton.mp hb))]
    exact hseg seg hmem

theorem prepared_prepare (s : TxState) (hnodup : r.bufs.Nodup) (last : Bool) :
    Prepared cfg r s (s.prepare cfg r last) := by
  have hfilled := filled_foldl r.segs hnodup s
  let t₁ := r.segs.foldl fillSeg s
  have hfill : Flagged r.first.buf t₁ (s.fillReq r) := flagged_setBuf t₁ _ rfl rfl
  have hself : (s.fillReq r).buf r.first.buf = { t₁.buf r.first.buf with
        totalDataSize := r.totalDataSize
        solicitedEnable := false
        completeEnable := false
        userCtx := 0 } := update_self ..
  obtain ⟨hsolicit, htotal₁, hcomplete, hhead, hcounter⟩ :=
    solicit_spec cfg (s.fillReq r) r last rfl
  have hnot : (((s.fillReq r).solicit cfg r last).buf r.first.buf).completeEnable = false := by
    rw [hcomplete, hself]
  obtain ⟨hsignal, htotal₂, hor⟩ := signal_spec cfg _ r hnot rfl
  have hflags := (hfill.trans hsolicit).trans hsignal
  have hbeside : Beside r.bufs s (s.prepare cfg r last) :=
    (hfilled.toBeside.trans hflags.toBeside).mono (fun b hb => by
      obtain hb | hb := mem_append.mp hb
      · exact hb
      · exact mem_singleton.mp hb ▸ mem_cons_self)
  have hnext : ((s.fillReq r).solicit cfg r last).next = s.next :=
    hsolicit.next.trans (hfill.next.trans hfilled.next)
  rw [hhead, hcounter, hnext] at hor
  have hhead' : (s.fillReq r).head = s.head := hfilled.head
  have hcounter' : (s.fillReq r).counters = s.counters := hfilled.counters
  rw [hhead', hcounter'] at hor
  refine ⟨hbeside, hflags.seg hfilled.seg, ?_, fun block => ?_, hor⟩
  · exact htotal₂.trans (htotal₁.trans (congrArg TxBuf.totalDataSize hself))
  · rw [← hfilled.refs block]
    exact congrFun hflags.refs block

/-! ## The accepted requests -/

variable {r : List ℕ}

/-- The size of a request is that of its buffers. -/
structure ReqOk (s : TxState) (r : List ℕ) : Prop where
  ne_nil : r ≠ []
  ne_zero : ∀ b ∈ r, b ≠ 0
  pos : ∀ b ∈ r, 0 < (s.buf b).dataSize
  total : (s.buf (r.headD 0)).totalDataSize = (r.map (fun b => (s.buf b).dataSize)).sum

theorem headD_mem (h : r ≠ []) : r.headD 0 ∈ r := by
  cases r with
  | nil => exact absurd rfl h
  | cons b r => exact mem_cons_self

theorem ReqOk.congr (h : ReqOk s r) (hbuf : ∀ b ∈ r, t.buf b = s.buf b) : ReqOk t r := by
  refine ⟨h.ne_nil, h.ne_zero, fun b hb => ?_, ?_⟩
  · rw [hbuf b hb]
    exact h.pos b hb
  · rw [hbuf _ (headD_mem h.ne_nil), h.total]
    exact congrArg sum (map_congr_left fun b hb => by rw [hbuf b hb])

theorem signaled_congr (hne : r ≠ []) (hbuf : ∀ b ∈ r, t.buf b = s.buf b) :
    t.signaled r = s.signaled r := by
  rw [signaled, signaled, hbuf _ (headD_mem hne)]

end TxState

/-- The requests that one completion stands for. -/
structure TxGroup where
  unsignaled : List (List ℕ)
  last : List ℕ

/-- The requests of a group. -/
def TxGroup.reqs (g : TxGroup) : List (List ℕ) := g.unsignaled ++ [g.last]

namespace TxState

variable {cfg : TxConfig} {s t : TxState} {r : TxReq} {b : ℕ}
  {posted pending residual : List (List ℕ)} {groups : List TxGroup} {g : TxGroup}

/-- **The last request is signaled, and all of them are linked from what it
remembers.** -/
structure GroupOk (s : TxState) (g : TxGroup) : Prop where
  unsignaled : ∀ r ∈ g.unsignaled, s.signaled r = false
  signaled : s.signaled g.last = true
  linked : ∃ z, Seg s.next (s.buf (g.last.headD 0)).userCtx g.reqs.flatten z

theorem GroupOk.congr (h : GroupOk s g) (hne : ∀ r ∈ g.reqs, r ≠ [])
    (hbuf : ∀ r ∈ g.reqs, ∀ b ∈ r, t.buf b = s.buf b)
    (hnext : ∀ b ∈ g.reqs.flatten, t.next b = s.next b) : GroupOk t g := by
  have hlast : g.last ∈ g.reqs := mem_append_right _ mem_cons_self
  obtain ⟨z, hseg⟩ := h.linked
  refine ⟨fun r hr => ?_, ?_, z, ?_⟩
  · have hmem : r ∈ g.reqs := mem_append_left _ hr
    rw [signaled_congr (hne r hmem) (hbuf r hmem)]
    exact h.unsignaled r hr
  · rw [signaled_congr (hne _ hlast) (hbuf _ hlast)]
    exact h.signaled
  · rw [hbuf _ hlast _ (headD_mem (hne _ hlast))]
    exact hseg.congr hnext

/-- How many of the buffers point into a block. -/
def refCount (s : TxState) (bufs : List ℕ) (block : ℕ) : ℕ :=
  bufs.countP (fun b => (s.buf b).block = block)

theorem refCount_congr {bufs : List ℕ} (hbuf : ∀ b ∈ bufs, t.buf b = s.buf b) (block : ℕ) :
    refCount t bufs block = refCount s bufs block :=
  countP_congr fun b hb => by rw [hbuf b hb]

/-- **What holds of the accepted requests.** The ones in `residual` are those
whose completion reported an error for a later request. -/
structure Accepted (s : TxState) (posted pending residual : List (List ℕ))
    (groups : List TxGroup) : Prop where
  posted_eq : posted = residual ++ (groups.flatMap TxGroup.reqs ++ pending)
  nodup : posted.flatten.Nodup
  live : ∀ b ∈ posted.flatten, b ∈ s.live
  reqOk : ∀ r ∈ posted, ReqOk s r
  residual_unsignaled : ∀ r ∈ residual, s.signaled r = false
  groupOk : ∀ g ∈ groups, GroupOk s g
  pending_unsignaled : ∀ r ∈ pending, s.signaled r = false

section

variable (h : Accepted s posted pending residual groups) {r : List ℕ}
include h

theorem Accepted.mem_group (hg : g ∈ groups) (hr : r ∈ g.reqs) : r ∈ posted := by
  rw [h.posted_eq]
  exact mem_append_right _ (mem_append_left _ (mem_flatMap.mpr ⟨g, hg, hr⟩))

theorem Accepted.mem_pending (hr : r ∈ pending) : r ∈ posted := by
  rw [h.posted_eq]
  exact mem_append_right _ (mem_append_right _ hr)

theorem Accepted.congr
    (hlive : ∀ b ∈ posted.flatten, b ∈ t.live) (hbuf : ∀ b ∈ posted.flatten, t.buf b = s.buf b)
    (hnext : ∀ g ∈ groups, ∀ b ∈ g.reqs.flatten, t.next b = s.next b) :
    Accepted t posted pending residual groups := by
  have hreq : ∀ r ∈ posted, ∀ b ∈ r, t.buf b = s.buf b := fun r hr b hb =>
    hbuf b (mem_flatten.mpr ⟨r, hr, hb⟩)
  have hsame : ∀ r ∈ posted, t.signaled r = s.signaled r := fun r hr =>
    signaled_congr (h.reqOk r hr).ne_nil (hreq r hr)
  refine ⟨h.posted_eq, h.nodup, hlive, fun r hr => (h.reqOk r hr).congr (hreq r hr),
    fun r hr => ?_, fun g hg => ?_, fun r hr => ?_⟩
  · rw [hsame r (h.posted_eq ▸ mem_append_left _ hr)]
    exact h.residual_unsignaled r hr
  · exact (h.groupOk g hg).congr (fun r hr => (h.reqOk r (h.mem_group hg hr)).ne_nil)
      (fun r hr => hreq r (h.mem_group hg hr)) (hnext g hg)
  · rw [hsame r (h.mem_pending hr)]
    exact h.pending_unsignaled r hr

end

/-! ## The loop -/

/-- While the requests are built: the buffers that are still to be built follow
those of the list. -/
structure Building (s : TxState) (posted pending residual : List (List ℕ))
    (groups : List TxGroup) (rest : List ℕ) : Prop extends
    Accepted s posted pending residual groups where
  refs : ∀ block, s.refs block = (refCount s posted.flatten block : ℤ)
  counter : s.counters.unsignaledWrNum = pending.length
  list : Seg s.next s.head (pending.flatten ++ rest) 0

theorem Prepared.reqOk (h : Prepared cfg r s t) (hne : ∀ b ∈ r.bufs, b ≠ 0) : ReqOk t r.bufs := by
  refine ⟨cons_ne_nil _ _, hne, fun b hb => ?_, h.total.trans ?_⟩
  · obtain ⟨seg, hseg, rfl⟩ := mem_map.mp hb
    rw [(h.seg seg hseg).2]
    exact seg.pos
  · rw [bufs, map_map]
    exact congrArg sum (map_congr_left fun seg hseg => (h.seg seg hseg).2.symm)

theorem Prepared.refCount (h : Prepared cfg r s t) (block : ℕ) :
    refCount t r.bufs block = blockCount r.segs block := by
  rw [TxState.refCount, bufs, countP_map]
  exact countP_congr (fun seg hseg => by
    show decide ((t.buf seg.buf).block = block) = true ↔ decide (seg.block = block) = true
    rw [(h.seg seg hseg).1])

theorem lastBuf_spec (r : TxReq) : ∃ l, r.bufs = l ++ [r.lastBuf] :=
  ⟨_, (dropLast_append_getLast (cons_ne_nil _ _)).symm⟩

/-- **A request is built**, and counts as accepted from here on. -/
theorem Building.prepare {rest : List ℕ}
    (h : Building s posted pending residual groups (r.bufs ++ rest)) (hp : Prepared cfg r s t)
    (hnodup : r.bufs.Nodup) (hne : ∀ b ∈ r.bufs, b ≠ 0)
    (hnew : ∀ b ∈ r.bufs, b ∉ posted.flatten) (hlive : ∀ b ∈ r.bufs, b ∈ s.live) :
    ∃ groups', Building t (posted ++ [r.bufs])
      (if t.signaled r.bufs then [] else pending ++ [r.bufs]) residual groups' rest := by
  have hflat : (posted ++ [r.bufs]).flatten = posted.flatten ++ r.bufs := by
    rw [flatten_append, flatten_singleton]
  have hbuf : ∀ b ∈ posted.flatten, t.buf b = s.buf b := fun b hb =>
    hp.buf b fun hmem => hnew b hmem hb
  have hold : Accepted t posted pending residual groups :=
    h.toAccepted.congr (fun b hb => hp.live ▸ h.live b hb) hbuf fun _ _ b _ => congrFun hp.next b
  have hallnodup : (posted ++ [r.bufs]).flatten.Nodup := by
    rw [hflat]
    exact nodup_append.mpr ⟨h.nodup, hnodup, fun a ha b hb heq => hnew b hb (heq ▸ ha)⟩
  have halllive : ∀ b ∈ (posted ++ [r.bufs]).flatten, b ∈ t.live := by
    rw [hflat, hp.live]
    exact forall_mem_append.mpr ⟨h.live, hlive⟩
  have hallreq : ∀ q ∈ posted ++ [r.bufs], ReqOk t q :=
    forall_mem_append.mpr ⟨hold.reqOk, forall_mem_singleton.mpr (hp.reqOk hne)⟩
  have hrefs : ∀ block, t.refs block =
      (refCount t (posted ++ [r.bufs]).flatten block : ℤ) := fun block => by
    rw [hflat, refCount, countP_append]
    show _ = (refCount t posted.flatten block : ℤ) + (refCount t r.bufs block : ℤ)
    rw [hp.refs, h.refs, hp.refCount, refCount_congr hbuf]
  obtain ⟨l, hl⟩ := lastBuf_spec r
  obtain ⟨p, hpend, hafter⟩ := seg_append.mp h.list
  obtain ⟨q, hreq, hrest⟩ := seg_append.mp hafter
  have hq : q = s.next r.lastBuf := by
    rw [hl] at hreq
    exact (seg_concat.mp hreq).2.2.symm
  obtain ⟨hsig, hctx, hhead, hcounter⟩ | ⟨hsig, hhead, hcounter, -⟩ := hp.signal
  · rw [if_pos hsig]
    refine ⟨groups ++ [⟨pending, r.bufs⟩], ⟨?_, hallnodup, halllive, hallreq,
      hold.residual_unsignaled, ?_, nofun⟩, hrefs, hcounter, ?_⟩
    · rw [h.posted_eq, append_assoc, append_assoc, flatMap_append, flatMap_singleton, append_nil]
      rfl
    · refine forall_mem_append.mpr ⟨hold.groupOk, forall_mem_singleton.mpr
        ⟨hold.pending_unsignaled, hsig, q, ?_⟩⟩
      show Seg t.next (t.buf r.first.buf).userCtx (pending ++ [r.bufs]).flatten q
      rw [hctx, hp.next, flatten_append, flatten_singleton]
      exact seg_append.mpr ⟨p, hpend, hreq⟩
    · rw [hp.next, hhead, ← hq]
      exact hrest
  · rw [if_neg (by rw [hsig]; exact Bool.false_ne_true)]
    refine ⟨groups, ⟨?_, hallnodup, halllive, hallreq, hold.residual_unsignaled, hold.groupOk,
      forall_mem_append.mpr ⟨hold.pending_unsignaled, forall_mem_singleton.mpr hsig⟩⟩,
      hrefs, ?_, ?_⟩
    · rw [h.posted_eq, append_assoc, append_assoc]
    · rw [hcounter, h.counter, length_append, length_singleton]
    · rw [hp.next, hhead, flatten_append, flatten_singleton, append_assoc]
      exact h.list

/-- The buffers of requests. -/
def bufsOf (reqs : List TxReq) : List ℕ := reqs.flatMap TxReq.bufs

theorem bufsOf_append (rs rs' : List TxReq) : bufsOf (rs ++ rs') = bufsOf rs ++ bufsOf rs' :=
  flatMap_append

theorem flatten_map_bufs (rs : List TxReq) : (rs.map bufs).flatten = bufsOf rs :=
  (flatMap_def ..).symm

/-- What is known of buffers that are new. -/
structure New (s : TxState) (posted : List (List ℕ)) (bufs : List ℕ) : Prop where
  nodup : bufs.Nodup
  ne_zero : ∀ b ∈ bufs, b ≠ 0
  not_posted : ∀ b ∈ bufs, b ∉ posted.flatten
  live : ∀ b ∈ bufs, b ∈ s.live

theorem pendingAfter_congr {f f' : List ℕ → Bool} {reqs : List (List ℕ)}
    (h : ∀ r ∈ reqs, f r = f' r) (pending : List (List ℕ)) :
    pendingAfter f pending reqs = pendingAfter f' pending reqs := by
  induction reqs generalizing pending with
  | nil => rfl
  | cons r reqs ih =>
    obtain ⟨hr, hreqs⟩ := forall_mem_cons.mp h
    rw [pendingAfter, pendingAfter, hr, ih hreqs]

/-- **The first requests are built**, with others after them. -/
theorem Building.prepareAll (cfg : TxConfig) (rs rs' : List TxReq)
    (h : Building s posted pending residual groups (bufsOf (rs ++ rs')))
    (hnew : New s posted (bufsOf (rs ++ rs'))) :
    ∃ t groups', prepareAll cfg (rs ++ rs') s = prepareAll cfg rs' t ∧
      Building t (posted ++ rs.map bufs)
        (pendingAfter t.signaled pending (rs.map bufs)) residual groups' (bufsOf rs') ∧
      Beside (bufsOf rs) s t ∧
      (rs ≠ [] → pendingAfter t.signaled pending (rs.map bufs) = [] ∨
        (pendingAfter t.signaled pending (rs.map bufs)).length < cfg.reportThreshold) := by
  induction rs generalizing s posted pending groups with
  | nil =>
    refine ⟨s, groups, rfl, ?_, Beside.refl _ s, fun hne => absurd rfl hne⟩
    rw [map_nil, append_nil]
    exact h
  | cons r rs ih =>
    have hsplit : bufsOf (r :: rs ++ rs') = r.bufs ++ bufsOf (rs ++ rs') := flatMap_cons
    rw [hsplit] at h hnew
    obtain ⟨hnodup, hnodup', hapart⟩ := nodup_append.mp hnew.nodup
    obtain ⟨hne, hne'⟩ := forall_mem_append.mp hnew.ne_zero
    obtain ⟨hfresh, hfresh'⟩ := forall_mem_append.mp hnew.not_posted
    obtain ⟨hlive, hlive'⟩ := forall_mem_append.mp hnew.live
    let t₁ := s.prepare cfg r (rs ++ rs').isEmpty
    have hp : Prepared cfg r s t₁ := prepared_prepare s hnodup _
    obtain ⟨groups₁, h₁⟩ := h.prepare hp hnodup hne hfresh hlive
    have hnew₁ : New t₁ (posted ++ [r.bufs]) (bufsOf (rs ++ rs')) := by
      refine ⟨hnodup', hne', fun b hb => ?_, fun b hb => hp.live ▸ hlive' b hb⟩
      rw [flatten_append, flatten_singleton]
      intro hmem
      obtain hmem | hmem := mem_append.mp hmem
      · exact hfresh' b hb hmem
      · exact hapart b hmem b hb rfl
    obtain ⟨t, groups', heq, hbuild, hbeside, hbound⟩ := ih h₁ hnew₁
    have hflag : t.signaled r.bufs = t₁.signaled r.bufs :=
      signaled_congr (cons_ne_nil _ _) (fun b hb => hbeside.buf b (fun hmem =>
        hapart b hb b (by rw [bufsOf_append]; exact mem_append_left _ hmem) rfl))
    have hpending : pendingAfter t.signaled pending ((r :: rs).map bufs) =
        pendingAfter t.signaled (if t₁.signaled r.bufs then [] else pending ++ [r.bufs])
          (rs.map bufs) := by
      rw [map_cons, pendingAfter, hflag]
    have hposted : posted ++ (r :: rs).map bufs = posted ++ [r.bufs] ++ rs.map bufs := by
      rw [append_assoc]
      rfl
    refine ⟨t, groups', heq, ?_, hp.toBeside.trans hbeside, fun _ => ?_⟩
    · rw [hpending, hposted]
      exact hbuild
    · rw [hpending]
      by_cases hnil : rs = []
      · subst hnil
        show (if t₁.signaled r.bufs then [] else pending ++ [r.bufs]) = [] ∨ _
        obtain ⟨hsig, -⟩ | ⟨hsig, -, -, hlt⟩ := hp.signal
        · rw [if_pos hsig]
          exact Or.inl rfl
        · rw [hsig]
          refine Or.inr ?_
          rw [h.counter] at hlt
          simpa [pendingAfter] using hlt
      · exact hbound hnil

/-- The requests that are built and not accepted have their references, and the
rest is as it was. -/
theorem prepareAll_beside (cfg : TxConfig) (rs : List TxReq) (hnodup : (bufsOf rs).Nodup)
    (s : TxState) :
    Beside (bufsOf rs) s (prepareAll cfg rs s) ∧ ∀ block, (prepareAll cfg rs s).refs block =
        s.refs block + (refCount (prepareAll cfg rs s) (bufsOf rs) block : ℤ) := by
  induction rs generalizing s with
  | nil => exact ⟨Beside.refl _ s, fun _ => (Int.add_zero _).symm⟩
  | cons r rs ih =>
    have hsplit : bufsOf (r :: rs) = r.bufs ++ bufsOf rs := flatMap_cons
    obtain ⟨hnodup, hnodup', hapart⟩ := nodup_append.mp hnodup
    have hp : Prepared cfg r s (s.prepare cfg r rs.isEmpty) := prepared_prepare s hnodup _
    obtain ⟨hbeside, hrefs⟩ := ih hnodup' (s.prepare cfg r rs.isEmpty)
    refine ⟨hp.toBeside.trans hbeside, fun block => ?_⟩
    have hkept : ∀ b ∈ r.bufs, (prepareAll cfg (r :: rs) s).buf b =
        (s.prepare cfg r rs.isEmpty).buf b := fun b hb =>
      hbeside.buf b fun hmem => hapart b hb b hmem rfl
    have hcount : refCount (prepareAll cfg (r :: rs) s) (bufsOf (r :: rs)) block =
        blockCount r.segs block + refCount (prepareAll cfg (r :: rs) s) (bufsOf rs) block := by
      rw [hsplit, refCount, countP_append]
      show refCount _ r.bufs block + _ = _
      rw [refCount_congr hkept, hp.refCount]
      rfl
    rw [hcount, Int.natCast_add, ← Int.add_assoc, ← hp.refs]
    exact hrefs block

end TxState

end Brpc
