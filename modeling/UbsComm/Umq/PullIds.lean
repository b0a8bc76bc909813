import UbsComm.Lib.Execution
import UbsComm.Umq.BigSend

/-!
# The numbers of the messages to be pulled

A message that waits to be pulled has a number, so that the peer can say which
one it is done with. The numbers come from one allocator for the process; a
queue keeps the first buffer of each of its messages in a table, its
`addr_list`, under the number. When the peer gives a number back
(`REVERSE_PULL_MEM_FREE`), the entry is removed, the buffers are freed and the
number is released.

For the record, the state has the messages sent, those of them that wait and
those that have been freed, with all buffers freed, and every pointer freed
that was not the first buffer of a waiting message.

**The bookkeeping** (`sound_pullRun`): the waiting messages have distinct
numbers from 1 to 31, the tables hold their first buffers, every message is
freed once, by the first notification for it, and the numbers taken are those
of the waiting messages. This needs of every call that it finds a number and
does not fail once it has taken one – `umq_ub_send_big_data` gives back
neither the number nor the entry then, and does not notice that the allocator
is exhausted – and of every notification that it is for a message that waits
on its queue: `process_send_imm` releases the number it is told, whatever the
table says. A repeated notification is enough for two messages with one number
(`exists_pullRun_shared`).
-/

namespace Umq

open Function List Nat Option Machine

/-! ## The allocator -/

/-- `util_id_allocator_t`; the stack of released numbers is a list, the top
first. -/
structure IdAllocator where
  availableIds : List ℕ := []
  nextId : ℕ
  maxNum : ℕ

/-- `util_id_allocator_init` -/
def utilIdAllocatorInit (maxNum startId : ℕ) : IdAllocator :=
  { nextId := startId, maxNum := maxNum }

/-- `util_id_allocator_get`: once `next_id` has reached the maximum it stays
there, and is handed out all the same. -/
def utilIdAllocatorGet (a : IdAllocator) : ℕ × IdAllocator :=
  match a.availableIds with
  | id :: ids => (id, { a with availableIds := ids })
  | [] => (a.nextId, if a.maxNum ≤ a.nextId then a else { a with nextId := a.nextId + 1 })

/-- `util_id_allocator_release` -/
def utilIdAllocatorRelease (a : IdAllocator) (id : ℕ) : IdAllocator :=
  if a.availableIds.length < a.maxNum then { a with availableIds := id :: a.availableIds } else a

/-- There is a number to hand out. -/
def IdAllocator.HasFree (a : IdAllocator) : Prop := a.availableIds ≠ [] ∨ a.nextId < a.maxNum
deriving Decidable

/-- The numbers handed out and not released, as a list `taken`, and those on
the stack are the numbers below `next_id`. -/
structure IdAllocator.Accounts (a : IdAllocator) (start : ℕ) (taken : List ℕ) : Prop where
  perm : (a.availableIds ++ taken).Perm (List.range' start (a.nextId - start))
  start_le : start ≤ a.nextId
  next_le : a.nextId ≤ a.maxNum

namespace IdAllocator.Accounts

variable {a : IdAllocator} {start : ℕ} {taken : List ℕ}

section

variable (h : a.Accounts start taken)
include h

theorem nodup : taken.Nodup := (nodup_append.mp (h.perm.nodup_iff.mpr nodup_range')).2.1

theorem bounds {id : ℕ} (hid : id ∈ taken) : start ≤ id ∧ id < a.maxNum := by
  have hmem := h.perm.mem_iff.mp (mem_append_right a.availableIds hid)
  rw [mem_range'_1] at hmem
  have := h.next_le
  omega

theorem get (hfree : a.HasFree) :
    (utilIdAllocatorGet a).2.Accounts start ((utilIdAllocatorGet a).1 :: taken)
      ∧ (utilIdAllocatorGet a).2.maxNum = a.maxNum := by
  have hstart := h.start_le
  have hnext := h.next_le
  have hperm := h.perm
  rw [utilIdAllocatorGet]
  split
  · rename_i id ids hids
    rw [hids] at hperm
    exact ⟨⟨perm_middle.trans hperm, hstart, hnext⟩, rfl⟩
  · rename_i hids
    have hlt : a.nextId < a.maxNum := hfree.resolve_left (not_not_intro hids)
    rw [if_neg (not_le.mpr hlt)]
    rw [hids] at hperm
    refine ⟨⟨?_, ?_, hlt⟩, rfl⟩
    · show (a.availableIds ++ a.nextId :: taken).Perm (range' start (a.nextId + 1 - start))
      have hsucc : a.nextId + 1 - start = a.nextId - start + 1 := by omega
      have hend : start + (a.nextId - start) = a.nextId := by omega
      rw [hids, hsucc, range'_1_concat, hend]
      exact (hperm.cons _).trans (perm_append_singleton _ _).symm
    · exact le_succ_of_le hstart

theorem release (hstart : 0 < start) {id : ℕ} {rest : List ℕ} (htaken : taken.Perm (id :: rest)) :
    (utilIdAllocatorRelease a id).Accounts start rest
      ∧ (utilIdAllocatorRelease a id).maxNum = a.maxNum := by
  have hlen := h.perm.length_eq
  rw [length_append, htaken.length_eq, length_cons, length_range'] at hlen
  have hnext := h.next_le
  have hroom : a.availableIds.length < a.maxNum := by omega
  rw [utilIdAllocatorRelease, if_pos hroom]
  refine ⟨⟨?_, h.start_le, h.next_le⟩, rfl⟩
  exact (perm_middle.symm.trans (htaken.symm.append_left a.availableIds)).trans h.perm

end

end IdAllocator.Accounts

/-! ## The state -/

/-- A message sent: its number, its chain, and the immediate value that went
with its description. -/
structure BigMsg (Q : Type) where
  serial : ℕ
  queue : Q
  msgId : ℕ
  first : QBuf
  chain : List QBuf
  imm : PullImm

/-- The allocator, and the table of each queue – `dst` of its `addr_list`, by
index – once it has one. -/
structure Pulls (Q : Type) where
  allocator : IdAllocator
  addrList : Q → Option (ℕ → ℕ)
  /-- For the record, every message whose sending succeeded. -/
  sent : List (BigMsg Q) := []
  /-- Those that wait to be pulled. -/
  waiting : List (BigMsg Q) := []
  /-- Those that have been freed, and all buffers freed with them. -/
  freed : List (BigMsg Q) := []
  freedBufs : List ℕ := []
  /-- Pointers freed that were not the first buffer of a waiting message. -/
  stray : List ℕ := []

/-- `UMQ_MAX_MSG_ID_NUM`. -/
def umqMaxMsgIdNum : ℕ := 2 ^ 5

/-- No message has been sent. -/
def Pulls.init (Q : Type) : Pulls Q :=
  { allocator := utilIdAllocatorInit umqMaxMsgIdNum 1, addrList := fun _ => none }

/-! ## The operations -/

section Operations

variable {Q : Type} [DecidableEq Q]

/-- The table of a queue is set. -/
def Pulls.setList (s : Pulls Q) (q : Q) (dst : ℕ → ℕ) : Pulls Q :=
  { s with addrList := update s.addrList q (some dst) }

/-- `umq_ub_queue_addr_list_alloc`. `mem` is what the pool answers: nothing,
or a block as its last user left it. -/
def umqUbQueueAddrListAlloc (s : Pulls Q) (q : Q) (mem : Option (ℕ → ℕ)) :
    Option (Pulls Q × (ℕ → ℕ)) :=
  match s.addrList q with
  | some dst => some (s, dst)
  | none => mem.map (fun dst => (s.setList q dst, dst))

/-- What the surroundings of `umq_ub_send_big_data` answer. -/
structure SendEnv where
  /-- The memory for the table of the queue. -/
  addrListMem : Option (ℕ → ℕ)
  /-- The buffer for the description: none, or whether it is a pooled one. -/
  sendBuf : Option Bool
  /-- The bitmap `tseg_imported`. -/
  imported : ℕ → Bool
  /-- Whether `umq_ub_send_imm` succeeds. -/
  posted : Bool

/-- The number is taken and the first buffer recorded under it. -/
def Pulls.takeId (s : Pulls Q) (q : Q) (dst : ℕ → ℕ) (b : QBuf) : Pulls Q :=
  { s with allocator := (utilIdAllocatorGet s.allocator).2 }.setList q
    (update dst (utilIdAllocatorGet s.allocator).1 b.ptr)

/-- For the record, the message is sent. -/
def Pulls.noteSent (s : Pulls Q) (m : BigMsg Q) : Pulls Q :=
  { s with sent := m :: s.sent, waiting := m :: s.waiting }

section

variable (blk : BlockSize)

section

variable (s : Pulls Q)

/-- `umq_ub_send_big_data` from where it takes a number. -/
def sendWithId (q : Q) (dst : ℕ → ℕ) (b : QBuf)
    (chain : List QBuf) (env : SendEnv) : Pulls Q × Bool :=
  let msgId := (utilIdAllocatorGet s.allocator).1
  let s' := s.takeId q dst b
  match buildDescriptor blk env.imported b chain with
  | none => (s', false)
  | some (d, _) =>
    if env.posted = true then
      let imm : PullImm := ⟨BitVec.ofNat 5 msgId, BitVec.ofNat 5 d.refSges.length⟩
      (s'.noteSent ⟨s.sent.length, q, msgId, b, chain, imm⟩, true)
    else (s', false)

/-- `umq_ub_send_big_data` of the chain that starts with `b`; with whether it
succeeded. -/
def umqUbSendBigData (q : Q) (b : QBuf) (chain : List QBuf) (env : SendEnv) : Pulls Q × Bool :=
  match umqUbQueueAddrListAlloc s q env.addrListMem with
  | none => (s, false)
  | some (s', dst) =>
    if env.sendBuf = some true then sendWithId blk s' q dst b chain env else (s', false)

/-- `umq_buf_break_and_free` of the pointer found in a table; a null pointer
is only logged. -/
def Pulls.breakAndFree (p : ℕ) : Pulls Q :=
  if p = 0 then s
  else
    match s.waiting.find? (fun m => m.first.ptr = p) with
    | some m =>
      { s with
        waiting := s.waiting.eraseP (fun m => m.first.ptr = p)
        freed := s.freed ++ [m]
        freedBufs := s.freedBufs ++ (umqBufBreakAndFree (m.first :: m.chain)).map QBuf.ptr }
    | none => { s with stray := p :: s.stray }

/-- The branch of `process_send_imm` for `IMM_TYPE_REVERSE_PULL_MEM_FREE`. -/
def processPullMemFree (q : Q) (msgId : BitVec 5) : Pulls Q :=
  match s.addrList q with
  | none => s
  | some dst =>
    if msgId = 0 then s
    else
      let s' := (s.setList q (update dst msgId.toNat 0)).breakAndFree (dst msgId.toNat)
      { s' with allocator := utilIdAllocatorRelease s'.allocator msgId.toNat }

/-- A message is sent, or a number comes back. -/
inductive PullAction (Q : Type) where
  | send (q : Q) (b : QBuf) (chain : List QBuf) (env : SendEnv)
  | free (q : Q) (msgId : BitVec 5)

/-- The caller sends buffers that are not with a message that still waits. -/
def pullStep : PullAction Q → Option (Pulls Q)
  | .send q b chain env =>
    if b.ptr ≠ 0 ∧ ∀ m ∈ s.waiting, m.first.ptr ≠ b.ptr then
      some (umqUbSendBigData blk s q b chain env).1
    else none
  | .free q msgId => some (processPullMemFree s q msgId)

/-- Many steps. -/
def pullRun : Pulls Q → List (PullAction Q) → Option (Pulls Q) := Machine.run (pullStep blk)

/-- The call gives up before it takes a number. -/
def GivesUpEarly (q : Q) (env : SendEnv) : Prop :=
  umqUbQueueAddrListAlloc s q env.addrListMem = none ∨ env.sendBuf ≠ some true

/-- **The condition on a step.** A call fails before it takes a number, or
there is a free one, the message can be described and the description is
posted. A notification is for a message that waits on
its queue, if the queue has a table and the number is not 0. -/
def Accountable : PullAction Q → Prop
  | .send q b chain env =>
    GivesUpEarly s q env ∨ s.allocator.HasFree
      ∧ (buildDescriptor blk env.imported b chain).isSome = true ∧ env.posted = true
  | .free q msgId =>
    msgId = 0 ∨ s.addrList q = none ∨ ∃ m ∈ s.waiting, m.queue = q ∧ m.msgId = msgId.toNat

end

end

instance (s : Pulls Q) (q : Q) (env : SendEnv) : Decidable (GivesUpEarly s q env) :=
  haveI := decidable_of_iff _
    (Option.isNone_iff_eq_none (o := umqUbQueueAddrListAlloc s q env.addrListMem))
  inferInstanceAs (Decidable (_ ∨ _))

instance (blk : BlockSize) (s : Pulls Q) (a : PullAction Q) : Decidable (Accountable blk s a) :=
  match a with
  | .send q _ _ env => inferInstanceAs (Decidable (GivesUpEarly s q env ∨ _))
  | .free q msgId =>
    haveI := decidable_of_iff _ (Option.isNone_iff_eq_none (o := s.addrList q))
    inferInstanceAs (Decidable (msgId = 0 ∨ s.addrList q = none
      ∨ ∃ m ∈ s.waiting, m.queue = q ∧ m.msgId = msgId.toNat))

end Operations

/-! ## The bookkeeping -/

section Bookkeeping

variable {Q : Type}

/-- The buffers of a message. -/
def BigMsg.bufs (m : BigMsg Q) : List ℕ := (fragments m.first m.chain).map QBuf.ptr

/-- **The books are right**: the numbers of the waiting messages are distinct,
not 0 and what the peer is told; the entry of each holds its first buffer;
every message sent either waits or has been freed, once, with all its buffers
and nothing else; and the numbers taken from the allocator are those of the
waiting messages. -/
structure Pulls.Sound (s : Pulls Q) : Prop where
  ids_nodup : (s.waiting.map BigMsg.msgId).Nodup
  ids_fit : ∀ m ∈ s.waiting, m.msgId ≠ 0 ∧ m.imm.msgId.toNat = m.msgId
  slots : ∀ m ∈ s.waiting, ∃ dst, s.addrList m.queue = some dst ∧ dst m.msgId = m.first.ptr
  sent_nodup : (s.sent.map BigMsg.serial).Nodup
  freed_once : s.sent.Perm (s.waiting ++ s.freed)
  freed_bufs : s.freedBufs = s.freed.flatMap BigMsg.bufs
  stray_nil : s.stray = []
  taken : s.allocator.Accounts 1 (s.waiting.map BigMsg.msgId)
  max_num : s.allocator.maxNum = umqMaxMsgIdNum

/-- What the books rest on besides: the first buffers of the waiting messages
are distinct, and are freed as they were sent. -/
structure Pulls.Inv (s : Pulls Q) : Prop extends s.Sound where
  first_ne : ∀ m ∈ s.waiting, m.first.ptr ≠ 0
  first_nodup : (s.waiting.map (fun m => m.first.ptr)).Nodup
  frees : ∀ m ∈ s.waiting, umqBufBreakAndFree (m.first :: m.chain) = fragments m.first m.chain
  serials : ∀ m ∈ s.sent, m.serial < s.sent.length

theorem Pulls.inv_init : (Pulls.init Q).Inv where
  ids_nodup := nodup_nil
  ids_fit := nofun
  slots := nofun
  sent_nodup := nodup_nil
  freed_once := List.Perm.nil
  freed_bufs := rfl
  stray_nil := rfl
  taken := ⟨List.Perm.nil, le_refl 1, show 1 ≤ umqMaxMsgIdNum from by decide⟩
  max_num := rfl
  first_ne := nofun
  first_nodup := nodup_nil
  frees := nofun
  serials := nofun

variable [DecidableEq Q] {blk : BlockSize} {s s' : Pulls Q} {q : Q} {dst : ℕ → ℕ} {env : SendEnv}
  {m : BigMsg Q}

/-- **A table is allocated** and nothing is lost: a queue without one has no
waiting message. -/
theorem Pulls.Inv.addrListAlloc (h : s.Inv) {mem : Option (ℕ → ℕ)}
    (halloc : umqUbQueueAddrListAlloc s q mem = some (s', dst)) :
    s'.Inv ∧ s'.addrList q = some dst ∧ s'.allocator = s.allocator ∧ s'.sent = s.sent
      ∧ s'.waiting = s.waiting ∧ ∀ q dst, s.addrList q = some dst → s'.addrList q = some dst := by
  rw [umqUbQueueAddrListAlloc] at halloc
  cases hq : s.addrList q with
  | some old =>
    rw [hq] at halloc
    cases halloc
    exact ⟨h, hq, rfl, rfl, rfl, fun _ _ hd => hd⟩
  | none =>
    rw [hq] at halloc
    rw [map_eq_some_iff] at halloc
    obtain ⟨dst, -, rfl, rfl⟩ := halloc
    have hkeep : ∀ q' d, s.addrList q' = some d → (s.setList q dst).addrList q' = some d := by
      intro q' d hd
      have hne : q' ≠ q := by
        rintro rfl
        rw [hq] at hd
        exact nomatch hd
      exact (update_of_ne hne _ _).trans hd
    refine ⟨{ h with slots := fun m hm => ?_ }, update_self _ _ _, rfl, rfl, rfl, hkeep⟩
    obtain ⟨d, hd, hslot⟩ := h.slots m hm
    exact ⟨d, hkeep m.queue d hd, hslot⟩

/-- An entry under another number leaves that of a waiting message. -/
theorem Pulls.Inv.slot_of_ne (h : s.Inv) (hlist : s.addrList q = some dst) (hm : m ∈ s.waiting)
    {id p : ℕ} (hne : m.msgId ≠ id) :
    ∃ d, (s.setList q (update dst id p)).addrList m.queue = some d ∧ d m.msgId = m.first.ptr := by
  obtain ⟨d, hd, hslot⟩ := h.slots m hm
  by_cases hq : m.queue = q
  · rw [hq, hlist, some.injEq] at hd
    subst hd
    rw [hq]
    exact ⟨_, update_self _ _ _, (update_of_ne hne _ _).trans hslot⟩
  · exact ⟨d, (update_of_ne hq _ _).trans hd, hslot⟩

/-- **A message is sent** under a free number, and the call succeeds. -/
theorem Pulls.Inv.sends (h : s.Inv) {b : QBuf} {chain : List QBuf} (hlist : s.addrList q = some dst)
    (hptr : b.ptr ≠ 0) (hown : ∀ m ∈ s.waiting, m.first.ptr ≠ b.ptr) (hfree : s.allocator.HasFree)
    (hsome : (buildDescriptor blk env.imported b chain).isSome = true) (hpost : env.posted = true) :
    (sendWithId blk s q dst b chain env).1.Inv := by
  obtain ⟨r, hd⟩ := isSome_iff_exists.mp hsome
  obtain ⟨htaken, hmax⟩ := h.taken.get hfree
  have hfit := htaken.bounds mem_cons_self
  rw [hmax, h.max_num] at hfit
  have hnodup := htaken.nodup
  rw [sendWithId, hd]
  dsimp only
  rw [if_pos hpost]
  refine { h with
    ids_nodup := hnodup
    ids_fit := ?_
    slots := ?_
    sent_nodup := ?_
    freed_once := h.freed_once.cons _
    taken := htaken
    max_num := hmax.trans h.max_num
    first_ne := forall_mem_cons.mpr ⟨hptr, h.first_ne⟩
    first_nodup := ?_
    frees := forall_mem_cons.mpr ⟨umqBufBreakAndFree_eq hd, h.frees⟩
    serials := ?_ }
  · refine forall_mem_cons.mpr ⟨⟨ne_of_gt hfit.1, ?_⟩, h.ids_fit⟩
    exact (BitVec.toNat_ofNat _ _).trans (mod_eq_of_lt hfit.2)
  · refine forall_mem_cons.mpr ⟨⟨_, update_self _ _ _, ?_⟩, ?_⟩
    · exact update_self _ _ _
    · exact fun m hm => h.slot_of_ne hlist hm fun heq =>
        (nodup_cons.mp hnodup).1 (heq ▸ mem_map_of_mem hm)
  · refine nodup_cons.mpr ⟨fun hmem => ?_, h.sent_nodup⟩
    obtain ⟨m, hm, hserial⟩ := mem_map.mp hmem
    exact absurd hserial ((h.serials m hm).ne)
  · refine nodup_cons.mpr ⟨fun hmem => ?_, h.first_nodup⟩
    obtain ⟨m, hm, heq⟩ := mem_map.mp hmem
    exact hown m hm heq
  · exact forall_mem_cons.mpr ⟨lt_succ_self _, fun m hm => lt_succ_of_lt (h.serials m hm)⟩

/-- **A call succeeds** that does not give up early, can describe its message
and can post the description. -/
theorem umqUbSendBigData_of_posted {b : QBuf} {chain : List QBuf} (hearly : ¬GivesUpEarly s q env)
    (hsome : (buildDescriptor blk env.imported b chain).isSome = true) (hpost : env.posted = true) :
    (umqUbSendBigData blk s q b chain env).2 = true
      ∧ ∃ s' dst, umqUbQueueAddrListAlloc s q env.addrListMem = some (s', dst)
        ∧ (umqUbSendBigData blk s q b chain env).1 = (sendWithId blk s' q dst b chain env).1 := by
  obtain ⟨hmem, hbuf⟩ := not_or.mp hearly
  obtain ⟨⟨s', dst⟩, halloc⟩ := ne_none_iff_exists'.mp hmem
  obtain ⟨r, hd⟩ := isSome_iff_exists.mp hsome
  rw [umqUbSendBigData, halloc]
  dsimp only
  rw [if_pos (not_not.mp hbuf)]
  refine ⟨?_, s', dst, rfl, rfl⟩
  rw [sendWithId, hd]
  dsimp only
  rw [if_pos hpost]

omit [DecidableEq Q] in
/-- **The pointer of a waiting message is freed**: that message, once. -/
theorem Pulls.breakAndFree_eq (hm : m ∈ s.waiting) (hptr : m.first.ptr ≠ 0)
    (hnodup : (s.waiting.map fun m => m.first.ptr).Nodup)
    (hfrees : umqBufBreakAndFree (m.first :: m.chain) = fragments m.first m.chain) :
    ∃ before after, s.waiting = before ++ m :: after ∧ s.breakAndFree m.first.ptr = { s with
            waiting := before ++ after
            freed := s.freed ++ [m]
            freedBufs := s.freedBufs ++ m.bufs } := by
  obtain ⟨before, after, heq⟩ := append_of_mem hm
  rw [heq, map_append, map_cons, nodup_middle, nodup_cons] at hnodup
  have hne : ∀ x ∈ before, ¬ decide (x.first.ptr = m.first.ptr) = true := by
    intro x hx hdec
    refine hnodup.1 (mem_append_left _ ?_)
    rw [← of_decide_eq_true hdec]
    exact mem_map_of_mem hx
  have hself : (fun x : BigMsg Q => decide (x.first.ptr = m.first.ptr)) m = true :=
    decide_eq_true rfl
  have hfind : s.waiting.find? (fun x => decide (x.first.ptr = m.first.ptr)) = some m := by
    rw [heq, find?_append, find?_eq_none.mpr hne, none_or]
    exact find?_cons_of_pos hself
  have herase : s.waiting.eraseP (fun x => decide (x.first.ptr = m.first.ptr))
      = before ++ after := by
    rw [heq, eraseP_append_right _ hne]
    exact congrArg (before ++ ·) (eraseP_cons_of_pos hself)
  refine ⟨before, after, heq, ?_⟩
  rw [Pulls.breakAndFree, if_neg hptr, hfind]
  dsimp only
  rw [herase, hfrees]
  rfl

/-- **A notification for a waiting message** frees it and gives its number
back. -/
theorem Pulls.Inv.pullMemFree (h : s.Inv) {msgId : BitVec 5} (hm : m ∈ s.waiting)
    (hq : m.queue = q) (hid : m.msgId = msgId.toNat) :
    let t := processPullMemFree s q msgId
    t.Inv ∧ t.freed = s.freed ++ [m] ∧ s.waiting.Perm (m :: t.waiting) := by
  subst hq
  obtain ⟨dst, hdst, hslot⟩ := h.slots m hm
  have hne : msgId ≠ 0 := by
    rintro rfl
    exact (h.ids_fit m hm).1 hid
  obtain ⟨before, after, heq, hbreak⟩ :=
    Pulls.breakAndFree_eq (s := s.setList m.queue (update dst m.msgId 0)) hm
      (h.first_ne m hm) h.first_nodup (h.frees m hm)
  unfold processPullMemFree
  simp only [hdst]
  rw [if_neg hne, ← hid, hslot, hbreak]
  have hperm : s.waiting.Perm (m :: (before ++ after)) := by
    rw [show s.waiting = _ from heq]
    exact perm_middle
  have hrest : ∀ x ∈ before ++ after, x ∈ s.waiting := fun x hx =>
    hperm.mem_iff.mpr (mem_cons_of_mem m hx)
  have hids : (m.msgId :: (before ++ after).map BigMsg.msgId).Nodup :=
    (hperm.map BigMsg.msgId).nodup_iff.mp h.ids_nodup
  obtain ⟨htaken, hmax⟩ := h.taken.release Nat.one_pos (hperm.map BigMsg.msgId)
  refine ⟨?_, rfl, hperm⟩
  exact { h with
    ids_nodup := (nodup_cons.mp hids).2
    ids_fit := fun x hx => h.ids_fit x (hrest x hx)
    slots := fun x hx => h.slot_of_ne hdst (hrest x hx) fun heq =>
      (nodup_cons.mp hids).1 (heq ▸ mem_map_of_mem hx)
    freed_once := by
      refine h.freed_once.trans ((hperm.append_right s.freed).trans ?_)
      show (m :: (before ++ after ++ s.freed)).Perm (before ++ after ++ (s.freed ++ [m]))
      rw [← append_assoc]
      exact (perm_append_singleton m _).symm
    freed_bufs := by
      show s.freedBufs ++ m.bufs = (s.freed ++ [m]).flatMap BigMsg.bufs
      rw [flatMap_append, h.freed_bufs, flatMap_singleton]
    taken := htaken
    max_num := hmax.trans h.max_num
    first_ne := fun x hx => h.first_ne x (hrest x hx)
    first_nodup := (nodup_cons.mp ((hperm.map fun m => m.first.ptr).nodup_iff.mp h.first_nodup)).2
    frees := fun x hx => h.frees x (hrest x hx) }

/-- What a step does to the books. A call that fails takes no number and
writes no entry, one that succeeds had a free number; a notification frees the
message that waits under its number, or does nothing. -/
def BooksStep (blk : BlockSize) (s : Pulls Q) : PullAction Q → Prop
  | .send q b chain env =>
    ((umqUbSendBigData blk s q b chain env).2 = false →
      (umqUbSendBigData blk s q b chain env).1.allocator = s.allocator
        ∧ (∀ q' dst, s.addrList q' = some dst →
            (umqUbSendBigData blk s q b chain env).1.addrList q' = some dst)
        ∧ (umqUbSendBigData blk s q b chain env).1.waiting = s.waiting)
      ∧ (¬ s.allocator.HasFree → (umqUbSendBigData blk s q b chain env).2 = false)
  | .free q msgId =>
    (processPullMemFree s q msgId).freed = s.freed
        ∧ (processPullMemFree s q msgId).waiting = s.waiting
      ∨ ∃ m ∈ s.waiting, m.queue = q ∧ m.msgId = msgId.toNat
          ∧ (processPullMemFree s q msgId).freed = s.freed ++ [m]
          ∧ s.waiting.Perm (m :: (processPullMemFree s q msgId).waiting)

/-- A call that gives up early has at most allocated the table of its queue. -/
theorem Pulls.Inv.givesUpEarly (blk : BlockSize) (h : s.Inv) (b : QBuf) (chain : List QBuf)
    (hearly : GivesUpEarly s q env) :
    (umqUbSendBigData blk s q b chain env).1.Inv ∧ BooksStep blk s (.send q b chain env) := by
  have hwhole : ∃ t, umqUbSendBigData blk s q b chain env = (t, false) ∧ t.Inv
      ∧ t.allocator = s.allocator ∧ (∀ q dst, s.addrList q = some dst → t.addrList q = some dst)
      ∧ t.waiting = s.waiting := by
    rw [umqUbSendBigData]
    cases halloc : umqUbQueueAddrListAlloc s q env.addrListMem with
    | none => exact ⟨s, rfl, h, rfl, fun _ _ hd => hd, rfl⟩
    | some r =>
      obtain ⟨t, dst⟩ := r
      obtain ⟨hinv, -, hsame, -, hwait, hkeep⟩ := h.addrListAlloc halloc
      have hbuf : env.sendBuf ≠ some true := hearly.resolve_left (by simp [halloc])
      exact ⟨t, if_neg hbuf, hinv, hsame, hkeep, hwait⟩
  obtain ⟨t, heq, hinv, hsame, hkeep, hwait⟩ := hwhole
  rw [BooksStep, heq]
  exact ⟨hinv, fun _ => ⟨hsame, hkeep, hwait⟩, fun _ => rfl⟩

/-- **One step keeps the books**, and does to them what it should. -/
theorem Pulls.Inv.step (h : s.Inv) {a : PullAction Q} (hok : Accountable blk s a) :
    BooksStep blk s a ∧ ∀ t, pullStep blk s a = some t → t.Inv := by
  cases a with
  | send q b chain env =>
    by_cases hearly : GivesUpEarly s q env
    · obtain ⟨hinv, hstep⟩ := h.givesUpEarly blk b chain hearly
      refine ⟨hstep, fun t ht => ?_⟩
      obtain ⟨-, rfl⟩ := guard_eq_some.mp ht
      exact hinv
    · obtain ⟨hfree, hsome, hpost⟩ := hok.resolve_left hearly
      obtain ⟨hsent, s', dst, halloc, heq⟩ := umqUbSendBigData_of_posted hearly hsome hpost
      refine ⟨⟨fun hfail => (nomatch hsent.symm.trans hfail), fun hno => absurd hfree hno⟩,
        fun t ht => ?_⟩
      obtain ⟨⟨hptr, hown⟩, rfl⟩ := guard_eq_some.mp ht
      obtain ⟨hinv, hlist, hsame, -, hwait, -⟩ := h.addrListAlloc halloc
      rw [heq]
      exact hinv.sends hlist hptr (hwait ▸ hown) (hsame ▸ hfree) hsome hpost
  | free q msgId =>
    have hskip : processPullMemFree s q msgId = s → BooksStep blk s (.free q msgId)
          ∧ ∀ t, pullStep blk s (.free q msgId) = some t → t.Inv := by
      intro heq
      rw [BooksStep, pullStep, heq]
      exact ⟨.inl ⟨rfl, rfl⟩, fun t ht => some.inj ht ▸ h⟩
    obtain hz | hnone | ⟨m, hm, hq, hid⟩ := hok
    · refine hskip ?_
      rw [processPullMemFree]
      split
      · rfl
      · exact if_pos hz
    · refine hskip ?_
      rw [processPullMemFree, hnone]
    · obtain ⟨hinv, hfreed, hwait⟩ := h.pullMemFree hm hq hid
      exact ⟨.inr ⟨m, hm, hq, hid, hfreed, hwait⟩, fun t ht => some.inj ht ▸ hinv⟩

/-- **The bookkeeping of the messages to be pulled.** In every run whose steps
all meet the condition, the books are right in the state reached, and every
further step that meets it does to them what it should. -/
theorem sound_pullRun (blk : BlockSize) (acts : List (PullAction Q))
    (hrun : pullRun blk (Pulls.init Q) acts = some s)
    (hok : Machine.Along (pullStep blk) (Accountable blk) (Pulls.init Q) acts) :
    s.Sound ∧ ∀ a, Accountable blk s a → BooksStep blk s a := by
  have hinv : s.Inv := run_invariant_along
    (fun t a u ht hfit hstep => (ht.step hfit).2 u hstep) Pulls.inv_init hok hrun
  exact ⟨hinv.toSound, fun a ha => (hinv.step ha).1⟩

/-- A buffer of 100 bytes. -/
def tourBuf (n : ℕ) : QBuf := ⟨n, 4096 * n, 100, 100, 0⟩

/-- Everything succeeds. -/
def tourEnv : SendEnv := ⟨some (fun _ => 7), some true, fun _ => false, true⟩

/-- Two queues; a call gives up early, and a number is used again after it has
been given back. -/
def pullTour : List (PullAction Bool) :=
  [.send true (tourBuf 1) [] tourEnv, .send false (tourBuf 2) [tourBuf 3] tourEnv,
    .send true (tourBuf 6) [] { tourEnv with sendBuf := none }, .free true 1,
    .send true (tourBuf 4) [] tourEnv, .free false 2, .send false (tourBuf 5) [] tourEnv]

theorem sound_pullRun_tour : ∃ s, pullRun .k8 (Pulls.init Bool) pullTour = some s
    ∧ s.waiting.map BigMsg.msgId = [2, 1] ∧ s.freedBufs = [1, 2] ∧ s.Sound :=
  ⟨_, rfl, by decide, by decide, (sound_pullRun .k8 pullTour rfl (by decide)).1⟩

/-- **A number given back twice** is handed out twice: two messages wait under
one number, and the table has lost the first of them. -/
theorem exists_pullRun_shared : ∃ s, pullRun .k8 (Pulls.init Unit)
      [.send () (tourBuf 1) [] tourEnv, .free () 1, .free () 1,
        .send () (tourBuf 2) [] tourEnv, .send () (tourBuf 3) [] tourEnv] = some s
    ∧ s.waiting.map BigMsg.msgId = [1, 1] ∧ ¬ s.Sound := by
  exact ⟨_, rfl, by decide, fun h => absurd h.ids_nodup (by decide)⟩

end Bookkeeping

end Umq
