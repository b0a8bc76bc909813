import UbsComm.Umq.PostTxContract

/-!
# The scatter entries of one-sided requests

A work request refers to its scatter entries by pointers. The entries for local
memory are in an array with a row for each request. For remote memory a call of
`umq_ub_post_tx` has two variables, `src_sge` for what is read and `dst_sge` for
what is written, and all its requests point there. By the time the requests are
posted an entry is what the last request for it has left (`remote_fillWrs`): they
say what was asked for just when no two of them differ
(`describes_posted_iff`).
-/

namespace Umq.PostTx

open Function List

/-! ## The model -/

/-- `urma_sge_t`; of a segment the memory pool. -/
structure UrmaSge where
  addr : ℕ
  len : ℕ
  mempoolId : Option ℕ
  deriving DecidableEq

/-- What more is read of a buffer, by its address: `buf_data` and the address in
its `remote_sge`. -/
structure BufAddrs where
  bufData : ℕ → ℕ
  remoteAddr : ℕ → ℕ

/-- The two variables for remote memory. -/
inductive RemoteSge where
  | srcSge
  | dstSge
  deriving DecidableEq

/-- Where a pointer to scatter entries goes. -/
inductive SgePtr where
  | sges (wrIndex : ℕ)
  | remote (cell : RemoteSge)

/-- The scatter entries of a call. -/
structure Sges where
  sges : ℕ → List UrmaSge
  remote : RemoteSge → UrmaSge

/-- The entries that a pointer leads to. -/
def Sges.deref (st : Sges) : SgePtr → List UrmaSge
  | .sges wrIndex => st.sges wrIndex
  | .remote cell => [st.remote cell]

/-- The variable for the remote memory. -/
def UmqOpcode.remoteSge : UmqOpcode → Option RemoteSge
  | .read => some .srcSge
  | .write | .writeImm => some .dstSge
  | .send | .sendImm | .nop => none

/-- The pointers that `umq_ub_fill_wr` puts into a request, `src.sge` and
`dst.sge`. -/
def UmqOpcode.sgePtrs (wrIndex : ℕ) : UmqOpcode → Option SgePtr × Option SgePtr
  | .read => (some (.remote .srcSge), some (.sges wrIndex))
  | .write | .writeImm => (some (.sges wrIndex), some (.remote .dstSge))
  | .send | .sendImm => (some (.sges wrIndex), none)
  | .nop => (none, none)

/-- The buffer at an address. -/
def TxChain.buffer (chain : TxChain) (addr : ℕ) : TxBuffer :=
  (chain.bufs.find? (·.addr = addr)).getD chain.first

section

variable (addrs : BufAddrs) (chain : TxChain)

/-- The scatter entry for a buffer. -/
def localSge (addr : ℕ) : UrmaSge :=
  let b := chain.buffer addr
  ⟨addrs.bufData addr, b.dataSize, if b.mempoolWithoutData then b.dataHead else some b.mempoolId⟩

/-- `remote_sge` of the first buffer of a request. -/
def remoteSge (wr : TxWr) : UrmaSge :=
  let b := chain.buffer wr.userCtx
  ⟨addrs.remoteAddr wr.userCtx, b.remoteLength, some b.remoteMempoolId⟩

/-- What is stored for a request: the entries of its buffers, and then what
`umq_ub_fill_wr` stores. -/
def fillWr (st : Sges) (wr : TxWr × ℕ) : Sges where
  sges := update st.sges wr.2 (wr.1.bufs.map (localSge addrs chain))
  remote :=
    match wr.1.opcode.remoteSge with
    | some cell => update st.remote cell (remoteSge addrs chain wr.1)
    | none => st.remote

/-- The entries after the loop, for the requests it has made. -/
def fillWrs (st : Sges) (wrs : List TxWr) : Sges := wrs.zipIdx.foldl (fillWr addrs chain) st

/-- The requests that the loop makes. -/
def builtWrs (queue : TxQueue) : List TxWr :=
  match buildWrs queue umqBatchSize chain.bufs with
  | .error _ => []
  | .ok wrs => wrs

/-! ## What is asked for -/

/-- The fragments of a request: buffers of the chain in a row, of the size that
the first of them says. -/
structure Fragments (wr : TxWr) : Prop where
  first : wr.bufs.head? = some wr.userCtx
  block : wr.bufs <:+: chain.bufs.map TxBuffer.addr
  size : (wr.bufs.map fun a => (chain.buffer a).dataSize).sum =
    (chain.buffer wr.userCtx).totalDataSize

/-- **A request that says what was asked for**: the entries its pointers go to are
its own remote memory and its own buffers. -/
def Describes (st : Sges) (wr : TxWr) (ptrs : Option SgePtr × Option SgePtr) : Prop :=
  (ptrs.1.map st.deref, ptrs.2.map st.deref) = match wr.opcode with
    | .read => (some [remoteSge addrs chain wr], some (wr.bufs.map (localSge addrs chain)))
    | .write | .writeImm =>
      (some (wr.bufs.map (localSge addrs chain)), some [remoteSge addrs chain wr])
    | .send | .sendImm => (some (wr.bufs.map (localSge addrs chain)), none)
    | .nop => (none, none)

/-- The last of the requests for a variable. -/
def lastFor (cell : RemoteSge) (wrs : List TxWr) : Option TxWr :=
  (wrs.filter (·.opcode.remoteSge = some cell)).getLast?

end

/-! ## What is there after the loop -/

section

variable {addrs : BufAddrs} {chain : TxChain} {queue : TxQueue} {wrs : List TxWr} {wr : TxWr}
  {left i : ℕ} {bs : List TxBuffer}

theorem sges_fillWrs (st : Sges) (h : wrs[i]? = some wr) :
    (fillWrs addrs chain st wrs).sges i = wr.bufs.map (localSge addrs chain) := by
  induction wrs using reverseRecOn with
  | nil => cases h
  | append_singleton wrs x ih =>
    unfold fillWrs at ih ⊢
    rw [zipIdx_append, foldl_append]
    show update _ (0 + wrs.length) _ i = _
    rw [zero_add]
    obtain hlt | rfl | hgt := lt_trichotomy i wrs.length
    · rw [update_of_ne (hlt.ne)]
      exact ih ((getElem?_append_left hlt).symm.trans h)
    · rw [getElem?_concat_length] at h
      cases h
      exact update_self ..
    · rw [getElem?_eq_none (by rw [length_append]; exact hgt)] at h
      cases h

/-- **The last request decides** what is in a variable for remote memory. -/
theorem remote_fillWrs (st : Sges) (cell : RemoteSge) : (fillWrs addrs chain st wrs).remote cell =
      ((lastFor cell wrs).map (remoteSge addrs chain)).getD (st.remote cell) := by
  induction wrs using reverseRecOn with
  | nil => rfl
  | append_singleton wrs x ih =>
    unfold fillWrs lastFor at ih ⊢
    rw [zipIdx_append, foldl_append, filter_append]
    show (match x.opcode.remoteSge with
      | some c => update _ c _
      | none => _ : RemoteSge → UrmaSge) cell = _
    by_cases hx : x.opcode.remoteSge = some cell
    · simp [hx]
    · rw [filter_singleton, decide_eq_false hx, cond_false, append_nil, ← ih]
      cases hc : x.opcode.remoteSge with
      | none => rfl
      | some c =>
        have hne : cell ≠ c := fun heq => hx (hc.trans (congrArg some heq.symm))
        exact update_of_ne hne ..

/-- A request says what was asked for just when the last request for its variable
has the same remote memory. -/
theorem describes_iff (st : Sges) (h : wrs[i]? = some wr) :
    Describes addrs chain (fillWrs addrs chain st wrs) wr (wr.opcode.sgePtrs i) ↔
      ∀ cell ∈ wr.opcode.remoteSge, ∀ last ∈ lastFor cell wrs,
        remoteSge addrs chain last = remoteSge addrs chain wr := by
  have hrow : (fillWrs addrs chain st wrs).sges i = wr.bufs.map (localSge addrs chain) :=
    sges_fillWrs st h
  have hcell : ∀ cell, wr.opcode.remoteSge = some cell →
      ((fillWrs addrs chain st wrs).remote cell = remoteSge addrs chain wr ↔
        ∀ last ∈ lastFor cell wrs, remoteSge addrs chain last = remoteSge addrs chain wr) := by
    intro cell hc
    have hmem : wr ∈ wrs.filter (·.opcode.remoteSge = some cell) :=
      mem_filter.mpr ⟨mem_of_getElem? h, decide_eq_true hc⟩
    rw [remote_fillWrs, lastFor, getLast?_eq_getLast_of_ne_nil (ne_nil_of_mem hmem)]
    simp only [Option.map_some, Option.getD_some, Option.mem_some_iff, forall_eq']
  unfold Describes
  cases hop : wr.opcode with
  | read =>
    simpa [UmqOpcode.sgePtrs, UmqOpcode.remoteSge, Sges.deref, hrow] using
      hcell .srcSge (by rw [hop]; rfl)
  | write | writeImm =>
    simpa [UmqOpcode.sgePtrs, UmqOpcode.remoteSge, Sges.deref, hrow] using
      hcell .dstSge (by rw [hop]; rfl)
  | send | sendImm | nop => simp [UmqOpcode.sgePtrs, UmqOpcode.remoteSge, Sges.deref, hrow]

/-! ## The fragments -/

theorem TxChain.buffer_addr {b : TxBuffer} (h : b ∈ chain.bufs) : chain.buffer b.addr = b := by
  unfold TxChain.buffer
  have hsome : (chain.bufs.find? (·.addr = b.addr)).isSome :=
    find?_isSome.mpr ⟨b, h, decide_eq_true rfl⟩
  obtain ⟨c, hc⟩ := Option.isSome_iff_exists.mp hsome
  have haddr : c.addr = b.addr := by simpa using find?_some hc
  rw [hc]
  exact inj_on_of_nodup_map chain.nodup (mem_of_find?_eq_some hc) h haddr

/-- Every request is made of buffers in a row that add up to its size. -/
theorem buildWrs_fragments (h : buildWrs queue left bs = .ok wrs) (hwr : wr ∈ wrs) :
    ∃ b l, b :: l <:+: bs ∧ wr.userCtx = b.addr ∧ wr.bufs = (b :: l).map TxBuffer.addr ∧
      ((b :: l).map TxBuffer.dataSize).sum = b.totalDataSize := by
  induction left generalizing bs wrs with
  | zero =>
    cases bs with
    | nil =>
      cases h
      cases hwr
    | cons b bs => cases h
  | succ left ih =>
    cases bs with
    | nil =>
      cases h
      cases hwr
    | cons b bs =>
      obtain ⟨l, bs', wrs', rfl, hwrs, hsum, rfl⟩ := buildWrs_succ h
      obtain rfl | hwr := mem_cons.mp hwr
      · exact ⟨b, l, (prefix_append (b :: l) bs').isInfix, rfl, rfl, hsum⟩
      · obtain ⟨b', l', hblock, hrest⟩ := ih hwrs hwr
        exact ⟨b', l', hblock.trans (suffix_append (b :: l) bs').isInfix, hrest⟩

theorem fragments_of_mem (h : wr ∈ builtWrs chain queue) : Fragments chain wr := by
  unfold builtWrs at h
  split at h
  case h_1 => cases h
  case h_2 wrs hwrs =>
    obtain ⟨b, l, hblock, hctx, hbufs, hsum⟩ := buildWrs_fragments hwrs h
    have hback : ∀ c ∈ b :: l, chain.buffer c.addr = c := fun c hc =>
      TxChain.buffer_addr (hblock.subset hc)
    refine ⟨by rw [hbufs, hctx]; rfl, hbufs ▸ hblock.map _, ?_⟩
    rw [hctx, hback b mem_cons_self, hbufs, map_map, ← hsum]
    exact congrArg sum (map_congr_left fun c hc => congrArg TxBuffer.dataSize (hback c hc))

end

/-! ## A post -/

section

variable {κ : Type} [DecidableEq κ] (T : FcTables) (queue : TxQueue) (s : SharedRq κ) (q : κ)
  (att att' : SendAttempt) (outcome : TxOutcome) (chain : TxChain)

/-- The first requests are posted, as many as there is room for. -/
theorem posted_postWrs (qbuf : ℕ) (wrs : List TxWr) :
    ∃ n, (postWrs T queue s q att outcome qbuf wrs).posted = wrs.take n := by
  unfold postWrs
  extract_lets opcodeConsumeRqe wrIndex dec maxTx taken
  split
  · exact ⟨0, rfl⟩
  refine ⟨maxTx, ?_⟩
  split
  · rfl
  · split <;> rfl

theorem posted_umqUbPostTx : ∃ n, (umqUbPostTx T queue s q att att' outcome chain).posted =
      (builtWrs chain queue).take n := by
  unfold umqUbPostTx builtWrs
  extract_lets qbuf check restored
  split
  · exact ⟨0, rfl⟩
  split
  · exact ⟨0, rfl⟩
  cases buildWrs queue umqBatchSize chain.bufs with
  | error fault => exact ⟨0, rfl⟩
  | ok wrs => exact posted_postWrs T queue check.1 q att' outcome qbuf wrs

/-- **The requests that are posted say what was asked for** just when each has the
remote memory of the last one, posted or not, that is a read like it, or a write
like it. -/
theorem describes_posted_iff (addrs : BufAddrs) (st : Sges) :
    let posted := (umqUbPostTx T queue s q att att' outcome chain).posted
    let wrs := builtWrs chain queue
    (∀ (i : ℕ) wr, posted[i]? = some wr → Fragments chain wr ∧
      Describes addrs chain (fillWrs addrs chain st wrs) wr (wr.opcode.sgePtrs i)) ↔
    ∀ wr ∈ posted, ∀ cell ∈ wr.opcode.remoteSge, ∀ last ∈ lastFor cell wrs,
      remoteSge addrs chain last = remoteSge addrs chain wr := by
  intro posted wrs
  obtain ⟨n, hn⟩ := posted_umqUbPostTx T queue s q att att' outcome chain
  have hget : ∀ (i : ℕ) wr, posted[i]? = some wr → wrs[i]? = some wr := by
    intro i wr h
    rw [show posted = wrs.take n from hn, getElem?_take] at h
    split at h
    · exact h
    · cases h
  constructor
  · intro h wr hwr
    obtain ⟨i, hi⟩ := mem_iff_getElem?.mp hwr
    exact (describes_iff st (hget i wr hi)).mp (h i wr hi).2
  · intro h i wr hi
    exact ⟨fragments_of_mem (mem_of_getElem? (hget i wr hi)),
      (describes_iff st (hget i wr hi)).mpr (h wr (mem_of_getElem? hi))⟩

end

/-- Two reads, from different places. -/
def twoReads : TxChain where
  first := { addr := 1, opcode := .read, totalDataSize := 8, dataSize := 8, remoteLength := 8 }
  rest := [{ addr := 2, opcode := .read, totalDataSize := 8, dataSize := 8, remoteLength := 8 }]
  nodup := by decide
  ne_zero := by decide

/-- **A read from the wrong place**: both requests are for the place of the second. -/
theorem exists_read_misplaced : let addrs : BufAddrs := ⟨fun a => 4096 * a, fun a => 8192 * a⟩
    let st : Sges := ⟨fun _ => [], fun _ => ⟨0, 0, none⟩⟩
    let posted := (umqUbPostTx (fcTables false fun _ => 0) oneSegment fiveCredits () {} {} {}
      twoReads).posted
    ∃ wr, posted[0]? = some wr ∧ ¬Describes addrs twoReads
      (fillWrs addrs twoReads st (builtWrs twoReads oneSegment)) wr (wr.opcode.sgePtrs 0) := by
  unfold Describes
  decide +kernel

end Umq.PostTx
