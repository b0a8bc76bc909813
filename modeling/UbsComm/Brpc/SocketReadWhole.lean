import UbsComm.Brpc.SocketRead

/-!
# What is read is what was received

While the calls are orderly, the cache is in order between them (`Cache`): the
head leads through buffers that the socket holds, and the number of bytes is
that of their data. Every call accounts for the data (`Accounted`): what it
reports, followed by what is in the cache after it, is what was in the cache
before it, followed by what it has received. That is proved for the loop over
the cache, for the two ways in which polled entries fit into the buffer of the
caller, and for `Read`; over a run of calls it gives **`lossless_readRun`**.

Without the condition it fails: `exists_recv_short` is one call of `Recv` that
is told to try again, and has consumed what there was.
-/

namespace Brpc

open Links Function List RxBuf SocketRx UserBuf Nat Option Machine

namespace SocketRx

/-! ## The cache -/

/-- **The cache in order**: the buffers `c`, linked from the head on, on a
socket that uses UB. -/
structure Cache (s : SocketRx) (c : List ℕ) : Prop where
  seg : Seg s.next s.cacheHead c 0
  nodup : c.Nodup
  held : ∀ p ∈ c, p ∈ s.held
  remaining : s.remainingSize = (s.bytes c).length
  first : ∀ p ∈ c.head?, 0 < (s.buf p).data.length
  ub : s.rxUseTcp = false
  negotiated : s.protocolNegotiation = []

variable {cfg : RxConfig} {s t : SocketRx} {c l ids : List ℕ} {p q n len nbyte : ℕ} {u : UserBuf}
  {e : ReadEnv} {r : Polled} {bufs : List (ℕ × RxBuf)} {v : SocketRx} {idle : Bool}

theorem chain_of_seg (hseg : Seg s.next p l 0) (hnodup : l.Nodup) (hheld : ∀ q ∈ l, q ∈ s.held) :
    s.chain p = l := by
  have hlen : l.length ≤ s.held.length := (subperm_of_subset hnodup hheld).length_le
  exact walk_of_seg hseg (le_succ_of_le hlen)

theorem Cache.chain_eq (h : s.Cache c) : s.chain s.cacheHead = c :=
  chain_of_seg h.seg h.nodup h.held

theorem Cache.cached_eq (h : s.Cache c) : s.cached = s.bytes c := by rw [cached, h.chain_eq]

theorem bytes_congr (h : ∀ p ∈ l, (t.buf p).data = (s.buf p).data) : t.bytes l = s.bytes l :=
  flatMap_congr h

/-! ## Freeing one buffer -/

/-- A buffer is not held any more. -/
def release (s : SocketRx) (p : ℕ) : SocketRx := { s with held := s.held.filter (fun q => q ≠ p) }

theorem umqBufFree_last (hp : p ≠ 0) (hnext : s.next p = 0) (hheld : p ∈ s.held) :
    s.umqBufFree p = some (s.release p) := by
  have hall : ∀ q ∈ [p], q ∈ s.held := fun q hq => mem_singleton.mp hq ▸ hheld
  have hchain : s.chain p = [p] := chain_of_seg ⟨rfl, hp, hnext⟩ (nodup_singleton p) hall
  have hlen : [p].length ≤ s.held.length := length_pos_of_mem hheld
  have hfilter : (fun q => decide (q ∉ [p])) = (fun q => decide (q ≠ p)) :=
    funext fun q => decide_eq_decide.mpr (not_congr mem_singleton)
  rw [umqBufFree, hchain, if_pos ⟨hlen, hall⟩, hfilter, release]

/-- **The buffers `l` have been freed**, and nothing else has happened to what
is in the cache. -/
structure Dropped (s t : SocketRx) (l : List ℕ) : Prop where
  held : ∀ q, q ∈ t.held ↔ q ∈ s.held ∧ q ∉ l
  buf : ∀ q, q ∉ l → t.buf q = s.buf q
  head : t.cacheHead = s.cacheHead
  remaining : t.remainingSize = s.remainingSize
  tcp : t.rxUseTcp = s.rxUseTcp
  negotiation : t.protocolNegotiation = s.protocolNegotiation
  received : t.received = s.received
  delivered : t.delivered = s.delivered

theorem Dropped.refl (s : SocketRx) : Dropped s s [] where
  held := fun _ => ⟨fun h => ⟨h, not_mem_nil⟩, fun h => h.1⟩
  buf := fun _ _ => rfl
  head := rfl
  remaining := rfl
  tcp := rfl
  negotiation := rfl
  received := rfl
  delivered := rfl

theorem Dropped.cons (h : Dropped s t [p]) (h' : Dropped t v l) : Dropped s v (p :: l) where
  held := fun q => by
    rw [h'.held, h.held, mem_singleton, mem_cons, not_or, and_assoc]
  buf := fun q hq => by
    obtain ⟨hp, hl⟩ := not_or.mp fun hor => hq (mem_cons.mpr hor)
    rw [h'.buf q hl, h.buf q (fun hmem => hp (mem_singleton.mp hmem))]
  head := h'.head.trans h.head
  remaining := h'.remaining.trans h.remaining
  tcp := h'.tcp.trans h.tcp
  negotiation := h'.negotiation.trans h.negotiation
  received := h'.received.trans h.received
  delivered := h'.delivered.trans h.delivered

theorem noteStatus_eq (s : SocketRx) (p : ℕ) :
    ∃ f, s.noteStatus p = { s with flowControlFailed := f } := by
  rw [noteStatus]
  by_cases h : (s.buf p).status = umqFakeBufFcErr
  · exact ⟨true, by rw [if_pos h]⟩
  · exact ⟨s.flowControlFailed, by rw [if_neg h]⟩

theorem setNext_next_self (s : SocketRx) (p q : ℕ) : (s.setNext p q).next p = q :=
  (congrArg RxBuf.next (update_self p _ s.buf) :)

/-- Freeing one buffer, with any window and flow control state. -/
theorem freeOne_dropped (hp : p ≠ 0) (hheld : p ∈ s.held) (w : UInt16) (f : Bool) :
    ∃ t, { s with windowSize := w, flowControlFailed := f }.freeOne p = some t ∧
      Dropped s t [p] := by
  refine ⟨_, umqBufFree_last hp (setNext_next_self _ p 0) hheld, ?_⟩
  refine ⟨fun q => ?_, fun q hq => ?_, rfl, rfl, rfl, rfl, rfl, rfl⟩
  · rw [release, mem_filter, decide_eq_true_iff, mem_singleton]
    exact Iff.rfl
  · exact update_of_ne (fun heq => hq (mem_singleton.mpr heq)) _ _

theorem Cache.dropped (h : s.Cache c) (hd : Dropped s t l) (hdisj : ∀ p ∈ c, p ∉ l) :
    t.Cache c ∧ t.bytes c = s.bytes c := by
  have hbytes : t.bytes c = s.bytes c :=
    bytes_congr fun p hp => congrArg RxBuf.data (hd.buf p (hdisj p hp))
  refine ⟨⟨?_, h.nodup, fun p hp => ?_, ?_, fun p hp => ?_, ?_, ?_⟩, hbytes⟩
  · rw [hd.head]
    exact h.seg.congr fun p hp => congrArg RxBuf.next (hd.buf p (hdisj p hp))
  · exact (hd.held p).mpr ⟨h.held p hp, hdisj p hp⟩
  · rw [hd.remaining, hbytes, h.remaining]
  · rw [hd.buf p (hdisj p (mem_of_mem_head? hp))]
    exact h.first p hp
  · rw [hd.tcp, h.ub]
  · rw [hd.negotiation, h.negotiated]

/-! ## What has been polled -/

theorem place_of_not_mem (buf : ℕ → RxBuf)
    (hp : p ∉ bufs.map Prod.fst) : place bufs buf p = buf p := by
  induction bufs generalizing buf with
  | nil => rfl
  | cons e bufs ih =>
    obtain ⟨hne, hrest⟩ := not_or.mp fun h => hp (mem_cons.mpr h)
    rw [place, ih _ hrest, update_of_ne hne]

theorem map_place (buf : ℕ → RxBuf) (hnodup : (bufs.map Prod.fst).Nodup) :
    (bufs.map Prod.fst).map (place bufs buf) = bufs.map Prod.snd := by
  induction bufs generalizing buf with
  | nil => rfl
  | cons e bufs ih =>
    obtain ⟨hnot, hnodup⟩ := nodup_cons.mp hnodup
    rw [map_cons, map_cons, map_cons, place, ih _ hnodup, place_of_not_mem _ hnot, update_self]

/-- What the socket knows about the entries that it has polled. -/
structure Entries (s t : SocketRx) (r : Polled) (ids : List ℕ) : Prop where
  nodup : ids.Nodup
  ne_zero : ∀ p ∈ ids, p ≠ 0
  mem : ∀ p ∈ ids, p ∈ t.held
  next : ∀ p ∈ ids, t.next p = 0
  bufs : ids.map t.buf = r.bufs.map Prod.snd
  fresh : ∀ p ∈ s.held, p ∉ ids
  buf : ∀ p, p ∉ ids → t.buf p = s.buf p
  held : ∀ p ∈ s.held, p ∈ t.held

theorem entries_take {r : Polled} (h : s.Fresh r.bufs) :
    Entries s (s.take r) r (r.bufs.map Prod.fst) := by
  obtain ⟨-, hnodup, hall⟩ := h
  have hbufs := map_place s.buf hnodup
  refine ⟨hnodup, fun p hp => ?_, fun p hp => mem_append_right _ hp, fun p hp => ?_, hbufs,
    fun p hp hmem => ?_, fun p hp => place_of_not_mem _ hp, fun p hp => mem_append_left _ hp⟩
  · obtain ⟨e, he, rfl⟩ := mem_map.mp hp
    exact (hall e he).1
  · have hmem : place r.bufs s.buf p ∈ r.bufs.map Prod.snd := hbufs ▸ mem_map_of_mem hp
    obtain ⟨e, he, heq⟩ := mem_map.mp hmem
    show (place r.bufs s.buf p).next = 0
    rw [← heq]
    exact (hall e he).2.2
  · obtain ⟨e, he, rfl⟩ := mem_map.mp hmem
    exact (hall e he).2.1 hp

theorem Cache.take {r : Polled} (h : s.Cache c) (hfresh : s.Fresh r.bufs) :
    (s.take r).Cache c ∧ (s.take r).bytes c = s.bytes c := by
  have he := entries_take hfresh
  have hbuf : ∀ p ∈ c, (s.take r).buf p = s.buf p := fun p hp => he.buf p (he.fresh p (h.held p hp))
  have hbytes : (s.take r).bytes c = s.bytes c :=
    bytes_congr fun p hp => congrArg RxBuf.data (hbuf p hp)
  refine ⟨⟨?_, h.nodup, fun p hp => he.held p (h.held p hp), ?_, fun p hp => ?_, h.ub,
    h.negotiated⟩, hbytes⟩
  · exact h.seg.congr fun p hp => congrArg RxBuf.next (hbuf p hp)
  · rw [hbytes]
    exact h.remaining
  · rw [hbuf p (mem_of_mem_head? hp)]
    exact h.first p hp

/-! ## Copying a part of a buffer -/

theorem advance_self (s : SocketRx) (p n : ℕ) :
    (s.advance p n).buf p = { s.buf p with data := (s.buf p).data.drop n } :=
  update_self _ _ _

theorem advance_of_ne {x : ℕ} (hx : x ≠ p) : (s.advance p n).buf x = s.buf x := update_of_ne hx _ _

theorem advance_next (s : SocketRx) (p n : ℕ) : (s.advance p n).next = s.next := by
  funext x
  rw [next, next]
  by_cases hx : x = p
  · rw [hx, advance_self]
  · rw [advance_of_ne hx]

theorem advance_control (s : SocketRx) (p n x : ℕ) :
    ((s.advance p n).buf x).Control ↔ (s.buf x).Control := by
  by_cases hx : x = p
  · rw [hx, advance_self]
    exact Iff.rfl
  · rw [advance_of_ne hx]

theorem bytes_cons (s : SocketRx) (p : ℕ) (l : List ℕ) :
    s.bytes (p :: l) = (s.buf p).data ++ s.bytes l := flatMap_cons

theorem bytes_advance_of_not_mem (hp : p ∉ l) : (s.advance p n).bytes l = s.bytes l :=
  bytes_congr (fun x hx => by
    have hne : x ≠ p := fun heq => hp (heq ▸ hx)
    rw [advance_of_ne hne])

/-- **The first `n` bytes of the cache are in its first buffer, and go.** -/
theorem Cache.advance (h : s.Cache (p :: l)) (hn : n < (s.buf p).data.length) :
    ((s.advance p n).setRemaining (s.remainingSize - n)).Cache (p :: l) ∧
      (s.buf p).data.take n ++ (s.advance p n).bytes (p :: l) = s.bytes (p :: l) := by
  have hbytes : (s.buf p).data.take n ++ (s.advance p n).bytes (p :: l) = s.bytes (p :: l) := by
    rw [bytes_cons, bytes_cons, advance_self,
      bytes_advance_of_not_mem (nodup_cons.mp h.nodup).1, ← append_assoc,
      take_append_drop]
  refine ⟨⟨?_, h.nodup, h.held, ?_, fun x hx => ?_, h.ub, h.negotiated⟩, hbytes⟩
  · show Seg (s.advance p n).next s.cacheHead (p :: l) 0
    rw [advance_next]
    exact h.seg
  · have hlen := congrArg length hbytes
    rw [length_append, length_take_of_le (Nat.le_of_lt hn)] at hlen
    show s.remainingSize - n = ((s.advance p n).bytes (p :: l)).length
    rw [h.remaining, ← hlen, Nat.add_sub_cancel_left]
  · cases hx
    show 0 < ((s.advance p n).buf p).data.length
    rw [advance_self, length_drop]
    exact Nat.sub_pos_of_lt hn

/-! ## Linking the entries -/

/-- Links have been set among `ids`, to a list of them. -/
structure Linked (s t : SocketRx) (ids : List ℕ) : Prop where
  eq : t = { s with buf := t.buf }
  same : ∀ p, t.buf p = { s.buf p with next := t.next p }
  out : ∀ p, p ∉ ids → t.buf p = s.buf p
  seg : Seg t.next (ids.headD 0) ids 0

theorem linked_linkEntries (hnodup : ids.Nodup) (hne : ∀ p ∈ ids, p ≠ 0)
    (hnext : ∀ p ∈ ids, s.next p = 0) : Linked s (linkEntries ids s) ids := by
  induction ids generalizing s with
  | nil => exact ⟨rfl, fun _ => rfl, fun _ _ => rfl, rfl⟩
  | cons p ids ih =>
    cases ids with
    | nil =>
      have hp := mem_singleton_self p
      exact ⟨rfl, fun _ => rfl, fun _ _ => rfl, rfl, hne p hp, hnext p hp⟩
    | cons q ids =>
      obtain ⟨hnot, hnodup⟩ := nodup_cons.mp hnodup
      have hset : ∀ x, x ≠ p → (s.setNext p q).buf x = s.buf x := fun x hx => update_of_ne hx _ _
      have hkeep : ∀ x, ∃ w, (s.setNext p q).buf x = { s.buf x with next := w } := by
        intro x
        by_cases hx : x = p
        · subst hx
          exact ⟨q, update_self _ _ _⟩
        · exact ⟨(s.buf x).next, hset x hx⟩
      have h := ih (s := s.setNext p q) hnodup (fun x hx => hne x (mem_cons_of_mem p hx))
        (fun x hx => by
          have hx' : x ≠ p := fun heq => hnot (heq ▸ hx)
          exact (congrArg RxBuf.next (hset x hx')).trans (hnext x (mem_cons_of_mem p hx)))
      refine ⟨h.eq, fun x => ?_, fun x hx => ?_, rfl, hne p mem_cons_self, ?_⟩
      · obtain ⟨w, hw⟩ := hkeep x
        have hx := h.same x
        rw [hw] at hx
        exact hx
      · obtain ⟨hxp, hx⟩ := not_or.mp fun hor => hx (mem_cons.mpr hor)
        exact (h.out x hx).trans (hset x hxp)
      · have hp : (linkEntries (q :: ids) (s.setNext p q)).next p = q :=
          (congrArg RxBuf.next (h.out p hnot)).trans (setNext_next_self s p q)
        show Seg _ ((linkEntries (q :: ids) (s.setNext p q)).next p) (q :: ids) 0
        rw [hp]
        exact h.seg

/-- The cache was empty, and is now what has been polled. -/
def queue (s : SocketRx) (ids : List ℕ) : SocketRx :=
  ((linkEntries ids s).setHead (ids.headD 0)).setTail (ids.getLastD 0)

section

variable (h : Linked s (linkEntries ids s) ids)
include h

theorem Linked.queue_eq : s.queue ids = { s with
      buf := (linkEntries ids s).buf
      cacheHead := ids.headD 0
      cacheTail := ids.getLastD 0 } :=
  congrArg (fun t => (t.setHead (ids.headD 0)).setTail (ids.getLastD 0)) h.eq

theorem Linked.queue_record :
    (s.queue ids).received = s.received ∧ (s.queue ids).delivered = s.delivered := by
  rw [h.queue_eq]
  exact ⟨rfl, rfl⟩

omit h in
theorem appendEntries_of_empty (hlink : Linked s (linkEntries ids s) ids)
    (hhead : s.cacheHead = 0) : s.appendEntries ids = some (s.queue ids) := by
  have hkeep : (linkEntries ids s).cacheHead = 0 := (congrArg cacheHead hlink.eq).trans hhead
  rw [appendEntries, if_pos hkeep, queue]

theorem Linked.queue_control (p : ℕ) : ((s.queue ids).buf p).Control ↔ (s.buf p).Control := by
  show ((linkEntries ids s).buf p).Control ↔ _
  rw [h.same p]
  exact Iff.rfl

theorem Linked.queue_data (p : ℕ) : ((s.queue ids).buf p).data = (s.buf p).data := by
  show ((linkEntries ids s).buf p).data = _
  rw [h.same p]

end

/-! ## The loops of `Recv` -/

theorem recvEntries_control (hnodup : l.Nodup) (hne : ∀ p ∈ l, p ≠ 0)
    (hheld : ∀ p ∈ l, p ∈ s.held) (hctl : ∀ p ∈ l, (s.buf p).Control) (ps : List ℕ) :
    ∃ t, Dropped s t l ∧ recvEntries (l ++ ps) s u = recvEntries ps t u := by
  induction l generalizing s with
  | nil => exact ⟨s, Dropped.refl s, rfl⟩
  | cons p l ih =>
    obtain ⟨hnot, hnodup⟩ := nodup_cons.mp hnodup
    obtain ⟨hpne, hne⟩ := forall_mem_cons.mp hne
    obtain ⟨hpheld, hheld⟩ := forall_mem_cons.mp hheld
    obtain ⟨hpctl, hctl⟩ := forall_mem_cons.mp hctl
    obtain ⟨f, hf⟩ := noteStatus_eq s p
    obtain ⟨t, ht, hd⟩ := freeOne_dropped hpne hpheld s.windowSize f
    have hout : ∀ x ∈ l, x ∉ [p] := fun x hx hmem => hnot (mem_singleton.mp hmem ▸ hx)
    obtain ⟨v, hv, heq⟩ := ih hnodup hne (fun x hx => (hd.held x).mpr ⟨hheld x hx, hout x hx⟩)
      (fun x hx => by
        rw [hd.buf x (hout x hx)]
        exact hctl x hx)
    refine ⟨v, hd.cons hv, ?_⟩
    rw [cons_append, recvEntries, if_pos hpheld, if_pos hpctl, hf, ht]
    exact heq

theorem recvEntries_full (hdata : ∀ p ∈ l, ¬ (s.buf p).Control) (hheld : ∀ p ∈ l, p ∈ s.held)
    (hu : u.remaining = 0) :
    recvEntries l s u = some (s.setRemaining (s.remainingSize + (s.bytes l).length), u) := by
  induction l generalizing s with
  | nil => rfl
  | cons p l ih =>
    obtain ⟨hp, hdata⟩ := forall_mem_cons.mp hdata
    obtain ⟨hpheld, hheld⟩ := forall_mem_cons.mp hheld
    rw [recvEntries, if_pos hpheld, if_neg hp, if_pos hu]
    have hlater := ih (s := s.setRemaining (s.remainingSize + (s.buf p).data.length)) hdata hheld
    rw [hlater, bytes, bytes, flatMap_cons, length_append, ← Nat.add_assoc]
    rfl

theorem copy_take {data : List UInt8} (h : u.remaining < data.length) :
    u.copy (data.take u.remaining) = ⟨0, u.copied ++ data.take u.remaining⟩ := by
  rw [copy, length_take_of_le (Nat.le_of_lt h), Nat.sub_self]

/-- The first entry is longer than the room: it is copied in part, and all
stay. -/
theorem recvEntries_long (hp : p ∉ l) (hdata : ∀ x ∈ p :: l, ¬ (s.buf x).Control)
    (hheld : ∀ x ∈ p :: l, x ∈ s.held) (hroom : u.remaining ≠ 0)
    (hlong : u.remaining < (s.buf p).data.length) :
    recvEntries (p :: l) s u = some ((s.advance p u.remaining).setRemaining
          (s.remainingSize + ((s.bytes (p :: l)).length - u.remaining)),
        ⟨0, u.copied ++ (s.buf p).data.take u.remaining⟩) := by
  obtain ⟨hpdata, hdata⟩ := forall_mem_cons.mp hdata
  obtain ⟨hpheld, hheld⟩ := forall_mem_cons.mp hheld
  have hrest := recvEntries_full (u := ⟨0, u.copied ++ (s.buf p).data.take u.remaining⟩)
    (s := (s.advance p u.remaining).setRemaining
      (s.remainingSize + ((s.buf p).data.length - u.remaining)))
    (fun x hx => (advance_control s p _ x).not.mpr (hdata x hx)) hheld rfl
  have hbytes : ((s.advance p u.remaining).bytes l).length = (s.bytes l).length :=
    congrArg length (bytes_advance_of_not_mem hp)
  have hsize : s.remainingSize + ((s.buf p).data.length - u.remaining) +
      ((s.advance p u.remaining).bytes l).length =
      s.remainingSize + ((s.bytes (p :: l)).length - u.remaining) := by
    rw [bytes_cons, length_append]
    omega
  rw [recvEntries, if_pos hpheld, if_neg hpdata, if_neg hroom, if_neg (Nat.not_le_of_lt hlong),
    copy_take hlong, hrest, ← hsize]
  rfl

theorem take_notReady (s : SocketRx) (e : ReadEnv) (user : List UInt8) :
    user.take (s.notReady e).bytes = [] := by
  have hzero : (s.notReady e).bytes = 0 := by
    rw [notReady]
    repeat' split
    all_goals rfl
  rw [hzero, take_zero]

theorem closeTail_eq (s : SocketRx) (ids : List ℕ) : ∃ w, s.closeTail ids = s.setTail w := by
  by_cases h : s.remainingSize ≠ 0
  · exact ⟨_, if_pos h⟩
  · exact ⟨s.cacheTail, if_neg h⟩

/-- Nothing depends on the tail while the head is in order. -/
theorem Cache.setTail (h : s.Cache c) (w : ℕ) : (s.setTail w).Cache c := { h with }

theorem Entries.linked (h : Entries s t r ids) : Linked t (linkEntries ids t) ids :=
  linked_linkEntries h.nodup h.ne_zero h.next

theorem Entries.mem_queue (h : Entries s t r ids) : ∀ p ∈ ids, p ∈ (t.queue ids).held := by
  rw [h.linked.queue_eq]
  exact h.mem

/-- The entries are appended to an empty cache, and then gone through. -/
theorem Entries.recvPolled_eq (h : Entries s t r ids) (ht : t.Cache [])
    {w : UserBuf} (len : ℕ) (e : ReadEnv) (hloop : recvEntries ids (t.queue ids) u = some (v, w)) :
    ∃ tail, t.recvPolled len e ids u = .returned (v.setTail tail)
      (if w.remaining = 0 then .count len else v.notReady e) w.copied := by
  obtain ⟨tail, htail⟩ := closeTail_eq v ids
  refine ⟨tail, ?_⟩
  rw [recvPolled, appendEntries_of_empty h.linked ht.seg, bind_some, hloop]
  show v.recvEnd len e ids w = _
  rw [recvEnd, htail]

/-- **The last entry is the only one with data**, and is copied to its end. -/
theorem recvPolled_last (h : t.Cache []) (he : Entries s t r (l ++ [q]))
    (hctl : ∀ p ∈ l, (t.buf p).Control) (hq : ¬ (t.buf q).Control) (hroom : u.remaining ≠ 0)
    (hlen : u.copied.length + u.remaining = len)
    (hfit : (t.buf q).data.length = u.remaining ∨ u.copied = [] ∧ (t.buf q).data = []) :
    ∃ v ret user, t.recvPolled len e (l ++ [q]) u = .returned v ret user ∧ v.Cache [] ∧
      v.received = t.received ∧ v.delivered = t.delivered ∧
      user.take ret.bytes = u.copied ++ (t.buf q).data := by
  have hlink := he.linked
  obtain ⟨hnel, hneq⟩ := forall_mem_append.mp he.ne_zero
  obtain ⟨hheldl, hheldq⟩ := forall_mem_append.mp he.mem_queue
  obtain ⟨hnodup, -, hapart⟩ := nodup_append.mp he.nodup
  obtain ⟨v, hv, hloop⟩ := recvEntries_control (u := u) hnodup hnel hheldl
    (fun p hp => (hlink.queue_control p).mpr (hctl p hp)) [q]
  have hqnot : q ∉ l := fun hql => hapart q hql q mem_cons_self rfl
  have hvq : v.buf q = (t.queue (l ++ [q])).buf q := hv.buf q hqnot
  have hvheld : q ∈ v.held := (hv.held q).mpr ⟨hheldq q mem_cons_self, hqnot⟩
  have hvctl : ¬ (v.buf q).Control := by
    rw [hvq, hlink.queue_control]
    exact hq
  have hvdata : (v.buf q).data = (t.buf q).data := by rw [hvq, hlink.queue_data]
  have hvnext : v.next q = 0 := (congrArg RxBuf.next hvq).trans (seg_concat.mp hlink.seg).2.2
  have hle : (v.buf q).data.length ≤ u.remaining := by
    rw [hvdata]
    obtain hfit | ⟨-, hnil⟩ := hfit
    · exact Nat.le_of_eq hfit
    · rw [hnil]
      exact zero_le _
  rw [recvEntries, if_pos hvheld, if_neg hvctl, if_neg hroom, if_pos hle,
    umqBufFree_last (hneq q mem_cons_self) hvnext hvheld] at hloop
  obtain ⟨tail, hret⟩ := he.recvPolled_eq h len e hloop
  have hcache : ((v.release q).setHead (v.next q)).Cache [] :=
    ⟨hvnext, nodup_nil, nofun, hv.remaining.trans
      ((congrArg remainingSize hlink.queue_eq).trans h.remaining), nofun,
      hv.tcp.trans ((congrArg rxUseTcp hlink.queue_eq).trans h.ub),
      hv.negotiation.trans ((congrArg protocolNegotiation hlink.queue_eq).trans h.negotiated)⟩
  refine ⟨_, _, _, hret, hcache.setTail tail, hv.received.trans hlink.queue_record.1,
    hv.delivered.trans hlink.queue_record.2, ?_⟩
  rw [copy, hvdata]
  obtain hfull | ⟨hcopied, hnil⟩ := hfit
  · rw [hfull, Nat.sub_self]
    refine take_of_length_le (Nat.le_of_eq ?_)
    rw [length_append, hfull, hlen]
    rfl
  · rw [hnil, length_nil, Nat.sub_zero, if_neg hroom, take_notReady, hcopied, append_nil]

/-- **All entries have data, and the first one is longer than the room**: they
stay in the cache. -/
theorem recvPolled_first {ps : List ℕ} (h : t.Cache []) (he : Entries s t r (p :: ps))
    (hdata : ∀ x ∈ p :: ps, ¬ (t.buf x).Control) (hroom : u.remaining ≠ 0)
    (hlen : u.copied.length + u.remaining = len) (hlong : u.remaining < (t.buf p).data.length) :
    ∃ v user, t.recvPolled len e (p :: ps) u = .returned v (.count len) user ∧ v.Cache (p :: ps) ∧
      v.received = t.received ∧ v.delivered = t.delivered ∧
      user.take len ++ v.bytes (p :: ps) = u.copied ++ t.bytes (p :: ps) := by
  have hlink := he.linked
  have hqbytes : (t.queue (p :: ps)).bytes (p :: ps) = t.bytes (p :: ps) :=
    bytes_congr fun p _ => hlink.queue_data p
  rw [← hlink.queue_data p] at hlong
  -- the cache as it would be if nothing of the entries were copied
  have hcache : ((t.queue (p :: ps)).setRemaining (t.bytes (p :: ps)).length).Cache (p :: ps) := by
    refine ⟨hlink.seg, he.nodup, he.mem_queue, (congrArg length hqbytes).symm,
      fun x hx => ?_, (congrArg rxUseTcp hlink.queue_eq).trans h.ub,
      (congrArg protocolNegotiation hlink.queue_eq).trans h.negotiated⟩
    cases hx
    exact zero_lt_of_lt hlong
  obtain ⟨hadvance, hkept⟩ := Cache.advance (n := u.remaining) hcache hlong
  have hloop := recvEntries_long (nodup_cons.mp he.nodup).1
    (fun x hx => (hlink.queue_control x).not.mpr (hdata x hx)) he.mem_queue hroom hlong
  rw [show (t.queue (p :: ps)).remainingSize = 0 from
    (congrArg remainingSize hlink.queue_eq).trans h.remaining, Nat.zero_add, hqbytes] at hloop
  obtain ⟨tail, hret⟩ := he.recvPolled_eq h len e hloop
  refine ⟨_, _, hret, hadvance.setTail tail, hlink.queue_record.1, hlink.queue_record.2, ?_⟩
  have htake : (u.copied ++ ((t.queue (p :: ps)).buf p).data.take u.remaining).take len =
      u.copied ++ ((t.queue (p :: ps)).buf p).data.take u.remaining := by
    refine take_of_length_le (Nat.le_of_eq ?_)
    rw [length_append, length_take_of_le (Nat.le_of_lt hlong), hlen]
  rw [htake, append_assoc, ← hqbytes]
  exact congrArg (u.copied ++ ·) hkept

/-! ## What a call accounts for -/

/-- **The call accounts for the data**: what it reports, and what is in the
cache afterwards, is the data that was there before it and what it has
received. -/
def Accounted (s : SocketRx) (before : List UInt8) : ReadOutcome → Prop
  | .pending => True
  | .stray => False
  | .returned t ret user =>
    t.delivered = s.delivered ∧ ∃ c new, t.Cache c ∧ t.received = s.received ++ new ∧
      user.take ret.bytes ++ t.bytes c = before ++ new

theorem accounted_unchanged (h : s.Cache c) (errno : ReadErrno) (user : List UInt8) :
    s.Accounted (s.bytes c) (.returned s (.fail errno) user) :=
  ⟨rfl, c, [], h, (append_nil _).symm, (append_nil _).symm⟩

theorem Entries.flatMap_eq {α : Type} (h : Entries s t r ids) (f : RxBuf → List α) :
    r.bufs.flatMap (fun x => f x.2) = ids.flatMap (fun p => f (t.buf p)) := by
  have hmap := congrArg (flatMap f) h.bufs
  rw [flatMap_map, flatMap_map] at hmap
  exact hmap.symm

theorem flatMap_payload_control (h : ∀ p ∈ l, (s.buf p).Control) :
    l.flatMap (fun p => (s.buf p).payload) = [] :=
  flatMap_eq_nil_iff.mpr fun p hp => if_pos (h p hp)

theorem flatMap_payload_data (h : ∀ p ∈ l, ¬ (s.buf p).Control) :
    l.flatMap (fun p => (s.buf p).payload) = s.bytes l :=
  flatMap_congr fun p hp => if_neg (h p hp)

/-- The two ways in which entries fit, by their addresses. -/
theorem fitsEntries_map {f : ℕ → RxBuf} (h : FitsEntries idle n (ids.map f)) :
    (∃ l q, ids = l ++ [q] ∧ (∀ p ∈ l, (f p).Control) ∧ ¬ (f q).Control ∧
      ((f q).data.length = n ∨ idle = true ∧ (f q).data = [])) ∨
    (∃ p ps, ids = p :: ps ∧ (∀ x ∈ ids, ¬ (f x).Control) ∧ n < (f p).data.length) := by
  obtain ⟨hctl, d, hd, hdata, hfit⟩ | ⟨hdata, d, hd, hlong⟩ := h
  · obtain rfl | ⟨l, q, rfl⟩ := eq_nil_or_concat' ids
    · exact nomatch hd
    · rw [map_append, map_singleton, dropLast_concat] at hctl
      rw [map_append, map_singleton, getLast?_concat] at hd
      cases hd
      exact .inl ⟨l, q, rfl, fun p hp => hctl _ (mem_map_of_mem hp), hdata, hfit⟩
  · cases ids with
    | nil => exact nomatch hd
    | cons p ps =>
      cases hd
      exact .inr ⟨p, ps, rfl, fun x hx => hdata _ (mem_map_of_mem hx), hlong⟩

/-- **`Recv` with the entries it has polled.** -/
theorem accounted_recvPolled (ht : t.Cache []) (he : Entries s t r ids)
    (hidle : idle = true → u.copied = []) (hroom : u.remaining ≠ 0)
    (hlen : u.copied.length + u.remaining = len)
    (hfit : FitsEntries idle u.remaining (r.bufs.map Prod.snd))
    (hreceived : t.received = s.received ++ r.bufs.flatMap fun x => x.2.payload)
    (hdelivered : t.delivered = s.delivered) : s.Accounted u.copied (t.recvPolled len e ids u) := by
  rw [he.flatMap_eq payload] at hreceived
  rw [← he.bufs] at hfit
  obtain ⟨l, q, rfl, hctl, hq, hfit⟩ | ⟨p, ps, rfl, hdata, hlong⟩ := fitsEntries_map hfit
  · obtain ⟨v, ret, user, hret, hcache, hrec, hdel, htake⟩ :=
      recvPolled_last (e := e) ht he hctl hq hroom hlen
        (hfit.imp_right fun hnil => ⟨hidle hnil.1, hnil.2⟩)
    rw [hret]
    refine ⟨hdel.trans hdelivered, [], _, hcache, hrec.trans hreceived, ?_⟩
    rw [htake, flatMap_append, flatMap_payload_control hctl, flatMap_singleton, payload, if_neg hq]
    exact append_nil _
  · obtain ⟨v, user, hret, hcache, hrec, hdel, htake⟩ :=
      recvPolled_first (e := e) ht he hdata hroom hlen hlong
    rw [hret]
    refine ⟨hdel.trans hdelivered, _, _, hcache, hrec.trans hreceived, ?_⟩
    rw [flatMap_payload_data hdata]
    exact htake

/-- **`Recv` that has to poll**, with nothing in the cache and `u.copied`
copied from it. -/
theorem accounted_recvPoll (h : s.Cache []) (idle : Bool) (hidle : idle = true → u.copied = [])
    (hroom : u.remaining ≠ 0) (hlen : u.copied.length + u.remaining = len)
    (hpolls : s.PollsOrderly cfg idle u.remaining e) :
    s.Accounted u.copied (s.recvPoll cfg len e u) := by
  unfold recvPoll
  cases hpoll : pollLoop cfg true s.windowSize e.turns with
  | none => trivial
  | some r =>
    have hfit : r.FitsRecv idle u.remaining := hpolls r hpoll
    unfold Polled.FitsRecv at hfit
    dsimp only
    split_ifs at hfit ⊢ with hfresh hfailed
    · refine ⟨rfl, [], [], (h.take hfresh).1, congrArg (s.received ++ ·) hfit.2, ?_⟩
      rw [hidle hfit.1]
      rfl
    · exact accounted_recvPolled (h.take hfresh).1 (entries_take hfresh) hidle
        hroom hlen hfit rfl rfl
    all_goals trivial

/-- The loop over the cache begins with its first buffer. -/
theorem Cache.begins (h : s.Cache (p :: l)) (hlen : len ≠ 0) :
    ¬ (len = 0 ∨ s.remainingSize = 0 ∨ s.cacheHead = 0) := by
  rintro (hz | hz | hz)
  · exact hlen hz
  · have hfirst := h.first p rfl
    rw [h.remaining, bytes_cons, length_append] at hz
    omega
  · exact h.seg.2.1 (h.seg.1 ▸ hz)

theorem recvCached_part (h : s.Cache (p :: l)) (hlen : len ≠ 0)
    (hlong : len < (s.buf p).data.length) :
    recvCached (s.held.length + 1) s ⟨len, []⟩ =
      some ((s.advance p len).setRemaining (s.remainingSize - len),
        ⟨0, (s.buf p).data.take len⟩) := by
  have hhead : s.cacheHead = p := h.seg.1
  have hheld : s.cacheHead ∈ s.held := hhead ▸ h.held p mem_cons_self
  rw [recvCached, if_neg (h.begins hlen), if_pos hheld, hhead, if_neg (Nat.not_le_of_lt hlong),
    @copy_take ⟨len, []⟩ _ hlong, nil_append]

/-- The only buffer is read to its end, and freed. -/
theorem recvCached_only (h : s.Cache [p]) (hlen : len ≠ 0) (hle : (s.buf p).data.length ≤ len) :
    recvCached (s.held.length + 1) s ⟨len, []⟩ = some (((s.release p).setRemaining 0).setHead 0,
        ⟨len - (s.buf p).data.length, (s.buf p).data⟩) := by
  obtain ⟨hhead, hp, hnext⟩ := h.seg
  have hheld : p ∈ s.held := h.held p mem_cons_self
  have hheld' : s.cacheHead ∈ s.held := hhead ▸ hheld
  have hsize : s.remainingSize - (s.buf p).data.length = 0 := by
    rw [h.remaining]
    exact Nat.sub_eq_zero_of_le (Nat.le_of_eq (congrArg length (append_nil _)))
  obtain ⟨k, hk⟩ := exists_eq_succ_of_ne_zero (Nat.ne_of_gt (length_pos_of_mem hheld))
  have hnext' : (s.buf p).next = 0 := hnext
  rw [recvCached, if_neg (h.begins hlen), if_pos hheld', hhead, if_pos hle,
    umqBufFree_last hp hnext hheld, bind_some, hsize, hnext', hk, recvCached,
    if_pos (.inr (.inr rfl)), copy, nil_append]

/-- **`Recv` behind its checks.** -/
theorem accounted_recvBody (h : s.Cache c) (hlen : len ≠ 0) (horder : s.RecvOrderly cfg len e) :
    s.Accounted (s.bytes c) (s.recvBody cfg len e) := by
  rw [RecvOrderly, h.chain_eq] at horder
  have hpart : ∀ p l, c = p :: l → len < (s.buf p).data.length →
      s.Accounted (s.bytes c) (s.recvBody cfg len e) := by
    rintro p l rfl hlong
    have hadvance := h.advance hlong
    rw [recvBody, recvCached_part h hlen hlong]
    refine ⟨rfl, p :: l, [], hadvance.1, (append_nil _).symm, ?_⟩
    rw [append_nil, ← hadvance.2]
    exact congrArg (· ++ (s.advance p len).bytes (p :: l)) (take_of_length_le (length_take_le _ _))
  match c, horder with
  | [], horder =>
    have hpoll := accounted_recvPoll (u := ⟨len, []⟩) h true (fun _ => rfl) hlen
      (Nat.zero_add len) horder
    rw [recvBody, recvCached, if_pos (.inr (.inr h.seg))]
    show s.Accounted [] (if len = 0 then _ else _)
    rw [if_neg hlen]
    exact hpoll
  | [p], horder =>
    obtain hlong | hle := Nat.lt_or_ge len (s.buf p).data.length
    · exact hpart p [] rfl hlong
    · have hempty : (((s.release p).setRemaining 0).setHead 0).Cache [] :=
        ⟨rfl, nodup_nil, nofun, rfl, nofun, h.ub, h.negotiated⟩
      have hbytes : s.bytes [p] = (s.buf p).data := (bytes_cons s p []).trans (append_nil _)
      rw [recvBody, recvCached_only h hlen hle, hbytes]
      show s.Accounted _ (if len - (s.buf p).data.length = 0 then _ else _)
      by_cases hlt : (s.buf p).data.length < len
      · replace horder : if (s.buf p).data.length < len then _ else True := horder
        rw [if_pos hlt] at horder
        rw [if_neg (sub_ne_zero_of_lt hlt)]
        exact accounted_recvPoll (u := ⟨_, (s.buf p).data⟩) hempty false
          nofun (sub_ne_zero_of_lt hlt)
          (Nat.add_sub_cancel' hle) horder
      · rw [if_pos (Nat.sub_eq_zero_of_le (Nat.le_of_not_lt hlt))]
        refine ⟨rfl, [], [], hempty, (append_nil _).symm, ?_⟩
        rw [append_nil]
        exact (append_nil _).trans (take_of_length_le hle)
  | p :: q :: l, horder => exact hpart p (q :: l) rfl horder

/-! ## `Read` -/

theorem flatMap_plain_dropped (h : Dropped s t [p]) (hp : p ∉ l) :
    l.flatMap (fun x => (t.buf x).plain) = l.flatMap (fun x => (s.buf x).plain) :=
  flatMap_congr (fun x hx => by
    rw [h.buf x (fun hmem => hp (mem_singleton.mp hmem ▸ hx))])

/-- **The loop frees the entries and copies the data in order**, up to the
room. -/
theorem readEntries_spec (hnodup : l.Nodup) (hne : ∀ p ∈ l, p ≠ 0) (hheld : ∀ p ∈ l, p ∈ s.held) :
    ∃ t v, readEntries l s u = some (t, v) ∧ Dropped s t l ∧
      v.copied = u.copied ++ (l.flatMap fun p => (s.buf p).plain).take u.remaining := by
  induction l generalizing s u with
  | nil => exact ⟨s, u, rfl, Dropped.refl s, by rw [flatMap_nil, take_nil, append_nil]⟩
  | cons p l ih =>
    obtain ⟨hnot, hnodup⟩ := nodup_cons.mp hnodup
    obtain ⟨hpne, hne⟩ := forall_mem_cons.mp hne
    obtain ⟨hpheld, hheld⟩ := forall_mem_cons.mp hheld
    -- one entry is freed, with `copy` the data that it adds
    have hrest : ∀ (w : UInt16) (f : Bool) (v : UserBuf), ∃ t' v',
        ({ s with windowSize := w, flowControlFailed := f }.freeOne p).bind
          (fun t => readEntries l t v) = some (t', v') ∧ Dropped s t' (p :: l) ∧
        v'.copied = v.copied ++ (l.flatMap fun x => (s.buf x).plain).take v.remaining := by
      intro w f v
      obtain ⟨t, ht, hd⟩ := freeOne_dropped hpne hpheld w f
      obtain ⟨t', v', heq, hd', hcopied⟩ := ih (s := t) (u := v) hnodup hne (fun x hx =>
        (hd.held x).mpr ⟨hheld x hx, fun hmem => hnot (mem_singleton.mp hmem ▸ hx)⟩)
      rw [flatMap_plain_dropped hd hnot] at hcopied
      exact ⟨t', v', by rw [ht]; exact heq, hd.cons hd', hcopied⟩
    rw [readEntries, if_pos hpheld, flatMap_cons]
    by_cases hroom : u.remaining = 0
    · obtain ⟨t', v', heq, hd, hcopied⟩ := hrest s.windowSize s.flowControlFailed u
      refine ⟨t', v', by rw [if_pos hroom]; exact heq, hd, ?_⟩
      rw [hcopied, hroom, take_zero, take_zero]
    · rw [if_neg hroom]
      by_cases hstatus : (s.buf p).status ≠ 0
      · have hplain : (s.buf p).plain = [] := if_pos hstatus
        rw [if_pos hstatus, hplain]
        by_cases hupdate : (s.buf p).status ≠ umqFakeBufFcUpdate
        · obtain ⟨f, hf⟩ := noteStatus_eq s p
          obtain ⟨t', v', heq, hd, hcopied⟩ := hrest s.windowSize f u
          exact ⟨t', v', by rw [if_pos hupdate, hf]; exact heq, hd, hcopied⟩
        · obtain ⟨t', v', heq, hd, hcopied⟩ := hrest (s.windowSize + 1) s.flowControlFailed u
          exact ⟨t', v', by rw [if_neg hupdate]; exact heq, hd, hcopied⟩
      · have hplain : (s.buf p).plain = (s.buf p).data := if_neg hstatus
        obtain ⟨t', v', heq, hd, hcopied⟩ := hrest s.windowSize s.flowControlFailed
          (u.copy ((s.buf p).data.take u.remaining))
        refine ⟨t', v', by rw [if_neg hstatus]; exact heq, hd, ?_⟩
        have hleft : u.remaining - ((s.buf p).data.take u.remaining).length =
            u.remaining - (s.buf p).data.length := by
          rw [length_take]
          omega
        rw [hcopied, hplain, take_append, copy, hleft, append_assoc]

/-- **`Read` from the poll on.** -/
theorem accounted_readPoll (h : s.Cache c) (horder : s.ReadOrderly cfg nbyte e) :
    s.Accounted (s.bytes c) (s.readPoll cfg nbyte e) := by
  unfold readPoll
  cases hpoll : pollLoop cfg e.blocking s.windowSize e.turns with
  | none => trivial
  | some r =>
    have hfit : r.FitsRead s.cached nbyte := horder r hpoll
    unfold Polled.FitsRead at hfit
    dsimp only
    split_ifs at hfit ⊢ with hfresh hfailed hempty
    · obtain ⟨htake, hbytes⟩ := h.take hfresh
      exact ⟨rfl, c, [], htake, congrArg (s.received ++ ·) hfit, hbytes.trans (append_nil _).symm⟩
    · obtain ⟨htake, hbytes⟩ := h.take hfresh
      refine ⟨rfl, c, [], htake, ?_, hbytes.trans (append_nil _).symm⟩
      rw [take, isEmpty_iff.mp hempty]
      rfl
    · obtain ⟨htake, hbytes⟩ := h.take hfresh
      obtain ⟨hsame, hroom, horder⟩ := hfit
      have he := entries_take hfresh
      obtain ⟨v, w, heq, hd, hcopied⟩ := readEntries_spec (u := ⟨nbyte, []⟩) he.nodup
        he.ne_zero he.mem
      have hcache := htake.dropped hd fun p hp => he.fresh p (h.held p hp)
      rw [← he.flatMap_eq plain, take_of_length_le hroom, nil_append] at hcopied
      rw [heq]
      refine ⟨hd.delivered, c, _, hcache.1, hd.received, ?_⟩
      have huser : w.copied.take
          (if w.copied = [] then v.notReady e else .count w.copied.length).bytes = w.copied := by
        split_ifs with hnil
        · rw [take_notReady, hnil]
        · exact take_length
      rw [huser, hcache.2, hbytes, hsame, hcopied]
      obtain hnil | hnil := horder
      · rw [hnil, append_nil, nil_append]
      · rw [h.cached_eq] at hnil
        rw [hnil, append_nil, nil_append]
    all_goals trivial

/-! ## Every orderly call -/

theorem Cache.acked (h : s.Cache c) : { s with getAndAckEvent := false }.Cache c := { h with }

/-- **An orderly call accounts for the data.** -/
theorem accounted_call (h : s.Cache c) (a : ReadCall) (horder : s.Orderly cfg a) :
    s.Accounted (s.bytes c) (s.call cfg a) := by
  have htcp : ¬ s.rxUseTcp = true := by
    rw [h.ub]
    exact Bool.false_ne_true
  have hnego : ¬ s.protocolNegotiation ≠ [] := not_not.mpr h.negotiated
  cases a with
  | recv len e =>
    show s.Accounted (s.bytes c) (s.recv cfg len e)
    unfold recv
    split_ifs with harg hack
    · exact accounted_unchanged h _ _
    · exact accounted_unchanged h _ _
    · refine accounted_recvBody h.acked (not_or.mp harg).2 (horder.resolve_left ?_)
      rintro (hnull | hzero | hfail)
      exacts [harg (.inl hnull), harg (.inr hzero), hack hfail]
  | read nbyte e =>
    show s.Accounted (s.bytes c) (s.read cfg nbyte e)
    unfold read
    split_ifs with harg hclosed hack hbig
    · exact accounted_unchanged h _ _
    · exact accounted_unchanged h _ _
    · exact accounted_unchanged h _ _
    · exact accounted_unchanged h.acked _ _
    · refine accounted_readPoll h.acked ?_
      obtain (hnull | hzero | hfail) | hcl | hb | hbody := horder
      exacts [absurd (.inl hnull) harg, absurd (.inr hzero) harg, absurd hfail hack,
        absurd hcl hclosed, absurd hb hbig, hbody]

/-! ## Runs -/

/-- **Nothing is lost**: what has been reported as read, followed by what is in
the cache, is what has been received. -/
structure Lossless (s : SocketRx) : Prop where
  cache : ∃ c, s.Cache c
  whole : s.delivered ++ s.cached = s.received

theorem lossless_new (buf : ℕ → RxBuf) (w : UInt16) : (new buf w).Lossless :=
  ⟨⟨[], rfl, nodup_nil, nofun, rfl, nofun, rfl, rfl⟩, rfl⟩

/-- What an orderly call does that returns. -/
theorem Lossless.returned {a : ReadCall} {ret : ReadRet} {user : List UInt8} (h : s.Lossless)
    (horder : s.Orderly cfg a) (hcall : s.call cfg a = .returned t ret user) :
    t.delivered = s.delivered ∧ (∃ c, t.Cache c) ∧ ∃ new, t.received = s.received ++ new ∧
      user.take ret.bytes ++ t.cached = s.cached ++ new := by
  obtain ⟨c, hc⟩ := h.cache
  have hacc := accounted_call hc a horder
  rw [hcall] at hacc
  obtain ⟨hdel, c', new, hc', hrec, hbytes⟩ := hacc
  rw [← hc.cached_eq, ← hc'.cached_eq] at hbytes
  exact ⟨hdel, ⟨c', hc'⟩, new, hrec, hbytes⟩

end SocketRx

/-- What holds between the calls. -/
def Intact (st : Option SocketRx) : Prop := ∃ s, st = some s ∧ s.Lossless

theorem intact_readStep {cfg : RxConfig} {st st' : Option SocketRx} {a : ReadCall} (h : Intact st)
    (horder : ∀ s ∈ st, s.Orderly cfg a) (hstep : readStep cfg st a = some st') : Intact st' := by
  obtain ⟨s, rfl, hs⟩ := h
  have horder : s.Orderly cfg a := horder s rfl
  rw [readStep] at hstep
  cases hcall : s.call cfg a with
  | pending =>
    rw [hcall] at hstep
    exact nomatch hstep
  | stray =>
    obtain ⟨c, hc⟩ := hs.cache
    have hacc := accounted_call hc a horder
    rw [hcall] at hacc
    exact hacc.elim
  | returned t ret user =>
    rw [hcall] at hstep
    cases hstep
    obtain ⟨hdel, ⟨c, hc⟩, new, hrec, hbytes⟩ := hs.returned horder hcall
    refine ⟨_, rfl, ⟨c, { hc with }⟩, ?_⟩
    show (t.delivered ++ user.take ret.bytes) ++ t.cached = t.received
    rw [append_assoc, hbytes, hdel, hrec, ← hs.whole, append_assoc]

/-- **Reading loses no data.** In every run of orderly calls no call touches a
buffer that has been freed, and after each of them what has been reported as
read, followed by what is in the cache, is what has been received, in order. A
call that returns -1 reports nothing, and leaves in the cache what was there,
followed by what it has received. -/
theorem lossless_readRun {cfg : RxConfig} {buf : ℕ → RxBuf} {w : UInt16} {calls : List ReadCall}
    {st : Option SocketRx}
    (horder : Machine.Along (readStep cfg) (fun st a => ∀ s ∈ st, s.Orderly cfg a)
      (some (SocketRx.new buf w)) calls)
    (hrun : Machine.run (readStep cfg) (some (SocketRx.new buf w)) calls = some st) :
    ∃ s, st = some s ∧ s.delivered ++ s.cached = s.received ∧
      ∀ a t errno user, s.Orderly cfg a → s.call cfg a = .returned t (.fail errno) user →
        t.delivered = s.delivered ∧
          ∃ new, t.received = s.received ++ new ∧ t.cached = s.cached ++ new := by
  have hinit : Intact (some (new buf w)) := ⟨_, rfl, lossless_new buf w⟩
  obtain ⟨s, rfl, hs⟩ := run_invariant_along
    (fun _ _ _ hP hG hstep => intact_readStep hP hG hstep) hinit horder hrun
  refine ⟨s, rfl, hs.whole, fun a t errno user horder hcall => ?_⟩
  obtain ⟨hdel, -, new, hrec, hbytes⟩ := hs.returned horder hcall
  exact ⟨hdel, new, hrec, hbytes⟩

/-- A received buffer, or an entry without data. -/
def sampleEntry (p status : ℕ) (data : List UInt8) : ℕ × RxBuf :=
  (p, { status := status, data := data, totalDataSize := data.length })

/-- A call that polls the given entries and finds nothing unusual. -/
def sampleEnv (bufs : List (ℕ × RxBuf)) : ReadEnv where
  turns := [⟨some [], .noBuf⟩, ⟨some bufs, .noBuf⟩]

/-- A window of 64 buffers. -/
def sampleConfig : RxConfig := ⟨64, 32, true⟩

/-- A new socket. -/
def sampleSocket : SocketRx := SocketRx.new (fun _ => ⟨0, [], 0, 0⟩) 64

/-- A part of a buffer, the rest of it, two buffers with an entry without data,
and such an entry again in front of a buffer. -/
def sampleCalls : List ReadCall := [.recv 3 (sampleEnv [sampleEntry 1 0 [10, 11, 12, 13, 14]]),
    .recv 2 (sampleEnv []),
    .read 8 (sampleEnv [sampleEntry 2 192 [], sampleEntry 3 0 [15, 16], sampleEntry 4 0 [17]]),
    .recv 2 (sampleEnv [sampleEntry 5 193 [], sampleEntry 6 0 [18, 19]])]

theorem lossless_readRun_sample :
    ∃ s, Machine.run (readStep sampleConfig) (some sampleSocket) sampleCalls = some (some s) ∧
      s.delivered ++ s.cached = s.received := by
  have horder : Machine.Along (readStep sampleConfig) (fun st a => ∀ s ∈ st,
      s.Orderly sampleConfig a) (some sampleSocket) sampleCalls := by decide
  have hsome : (run (readStep sampleConfig) (some sampleSocket) sampleCalls).isSome = true := by
    decide
  obtain ⟨st, hrun⟩ := isSome_iff_exists.mp hsome
  obtain ⟨s, rfl, hwhole, -⟩ := lossless_readRun horder hrun
  exact ⟨s, hrun, hwhole⟩

/-- **`Recv` that cannot fill the buffer of the caller**: four bytes have been
received, the caller has asked for ten, and is told to try again; the four bytes
are gone. -/
theorem exists_recv_short : ∃ s t user, Machine.run (readStep sampleConfig) (some sampleSocket)
        [.recv 10 (sampleEnv [sampleEntry 1 0 [10, 11, 12, 13]])] = some (some s) ∧
      s.received = [10, 11, 12, 13] ∧ s.delivered ++ s.cached = [] ∧
      sampleSocket.call sampleConfig (.recv 10 (sampleEnv [sampleEntry 1 0 [10, 11, 12, 13]])) =
        .returned t (.fail .eagain) user :=
  ⟨_, _, _, rfl, rfl, rfl, rfl⟩

end Brpc
