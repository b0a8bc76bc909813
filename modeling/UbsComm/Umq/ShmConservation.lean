import UbsComm.Umq.ShmPlaces

/-!
# Conservation of the buffers

The operations that pass chains between the two processes – `enqueue`, `dequeue`,
the return by the peer and the poll of the return ring – as moves of a chain, and
the allocation as a sequence of moves. From the state after the initialisation,
in which all buffers are in the two global lists, every run of `Calm` steps
keeps every buffer in exactly one place, of its own kind in the free lists, and
the counters equal to the lengths of the lists (`holds_of_shmRun`).
-/

namespace Umq

open Links Places Machine Function List Nat Option

namespace ShmPool

variable {pool : ShmPool} {s s' : ShmState} {L : ShmPlace → List ℕ} {X Y Z : ShmPlace}
  {l l' m items : List ℕ} {t n p x w : ℕ} {k : Bool} {enc next : ℕ → ℕ} {here sorted : Prop}

/-! ## Chains between the processes -/

theorem offsetOf_inj {b b' : ℕ} (hb : b ∈ pool.blocks) (hb' : b' ∈ pool.blocks)
    (heq : pool.offsetOf b = pool.offsetOf b') : b = b' := by
  obtain ⟨offset, rfl, -⟩ := at_of_mem hb
  obtain ⟨offset', rfl, -⟩ := at_of_mem hb'
  rw [offsetOf_add, offsetOf_add] at heq
  rw [heq]

theorem Chained.exists_cons (h : pool.Chained enc next w here l) (hhere : here) :
    ∃ x l', l = x :: l' ∧ w = enc x ∧ Coded enc next w (x :: l') := by
  have hcoded := h.coded hhere
  cases l with
  | nil => exact absurd rfl (h.ne_nil hhere)
  | cons x l => exact ⟨x, l, rfl, hcoded.1, hcoded⟩

section

variable (h : pool.Inv sorted items s L) {foreign : List (List ℕ)}
include h

theorem Inv.chain (hX : pool.Chained enc s.next w here (L X)) (hhere : here) :
    ∃ x l, L X = x :: l ∧ w = enc x ∧ Coded enc s.next w (x :: l) ∧ x ∈ L X ∧ (x :: l).Nodup ∧
      ∀ b ∈ x :: l, b ∈ pool.blocks := by
  obtain ⟨x, l, hL, hw, hcoded⟩ := hX.exists_cons hhere
  exact ⟨x, l, hL, hw, hcoded, hL ▸ mem_cons_self, h.nodup_of_eq hL, fun b => h.mem_blocks hL⟩

/-- A chain is in a place that has none yet: its first buffer is elsewhere. -/
theorem Inv.not_here (hY : pool.Chained enc next w here (L Y))
    (hinj : ∀ b b', b ∈ pool.blocks → b' ∈ pool.blocks → enc b = enc b' → b = b')
    (hx : x ∈ L X) (hne : X ≠ Y) (hw : w = enc x) : ¬ here := by
  intro hhere
  obtain ⟨y, l, hL, hwy, -⟩ := hY.exists_cons hhere
  have hy : y ∈ L Y := hL ▸ mem_cons_self
  obtain rfl := hinj x y (h.mem hx) (h.mem hy) (hw.symm.trans hwy)
  exact h.partition.not_mem hx hne hy

/-- **A chain goes from one place to another one**, with its links recoded. -/
theorem Inv.pass {enc' : ℕ → ℕ} {w' : ℕ} {here' : Prop} (hne : X ≠ Y)
    (hX : pool.Chained enc s.next w here (L X)) (hhere : here) (hY : L Y = [])
    (hnil : pool.HoldsIf sorted s' X []) (hcoded : Coded enc' s'.next w' (L X)) (hhere' : here')
    (hholds : pool.HoldsIf sorted s' Y = pool.Chained enc' s'.next w' here')
    (hsame : ∀ Z, Z ≠ X → Z ≠ Y → Same s s' Z) (hnext : ∀ b, b ∉ L X → s'.next b = s.next b)
    (htx : s'.tx.Nodup) (hrx : s'.rx.Nodup) : pool.Inv sorted items s' (moved L X Y [] (L X)) := by
  obtain ⟨k, hkind⟩ := hX.kind
  refine h.move hne hnil ?_ ?_ hsame (fun b hb _ => hnext b hb) htx hrx
  · rw [hholds]
    exact Chained.of_coded hcoded (hX.ne_nil hhere) hkind hhere'
  · rw [hY, append_nil]
    rfl

/-- A step that changes what is in one place only in its links. -/
theorem Inv.relink (hX : pool.HoldsIf sorted s' X (L X))
    (hsame : ∀ Z, Z ≠ X → Same s s' Z) (hnext : ∀ b, b ∉ L X → s'.next b = s.next b)
    (htx : s'.tx.Nodup) (hrx : s'.rx.Nodup) : pool.Inv sorted items s' L := by
  refine ⟨h.partition, h.subset, fun Z => ?_, htx, hrx, h.mode⟩
  by_cases hZ : Z = X
  · exact hZ ▸ hX
  · exact (h.holds Z).congr (hsame Z hZ) fun b hb => hnext b (h.partition.not_mem hb hZ)

omit h in
/-- The flag of a rendezvous does not change the offset. -/
theorem offset_and_dataBits {offset : ℕ} (h : offset < 2 ^ 63) (rendezvous : Bool) :
    (if rendezvous then offset ||| umqRendezvousFlag else offset) &&& umqOffsetDataBits =
      offset := by
  rw [umqOffsetDataBits, and_two_pow_sub_one_eq_mod]
  cases rendezvous with
  | false => exact mod_eq_of_lt h
  | true =>
    have hadd : offset ||| umqRendezvousFlag = 2 ^ 63 + offset := by
      rw [Nat.or_comm]
      exact (two_pow_add_eq_or_of_lt h 1).symm
    rw [if_pos rfl, hadd, add_mod_left, mod_eq_of_lt h]

omit h in
theorem mem_concat_of_ne {q : ℕ} (hq : q ≠ p) : q ∈ m ++ [p] ↔ q ∈ m := by simp [hq]

namespace Inv

/-- **`umq_shm_qbuf_enqueue`.** -/
theorem umqShmQbufEnqueue (hp : p ∈ s.owner) (rendezvous accepted : Bool) :
    ∃ L', pool.Inv sorted items (pool.umqShmQbufEnqueue s p rendezvous accepted) L' := by
  have hchain := h.owner p
  obtain ⟨x, l, hL, hpx, hcoded, hx, hnodup, hown⟩ := h.chain hchain hp
  obtain ⟨hout, hoffset, hrest⟩ := pointerToOffset_chain .owner hcoded hnodup hown
  have hlt : pool.offsetOf x < 2 ^ 63 := offsetOf_lt (hown x mem_cons_self)
  have hvalid : pool.offsetOf x ≠ qbufInvalidOffset := Nat.ne_of_lt (Nat.lt_trans hlt (by decide))
  have hbits := offset_and_dataBits hlt rendezvous
  generalize hw : (if rendezvous then pool.offsetOf x ||| umqRendezvousFlag
    else pool.offsetOf x) = w at hbits
  rw [ShmPool.umqShmQbufEnqueue]
  simp only [hoffset, if_neg hvalid, hw]
  cases accepted with
  | true =>
    have hne : ShmPlace.owner p ≠ .tx w := nofun
    have hY := h.tx w
    have hfresh : w ∉ s.tx := h.not_here hY (fun _ _ => offsetOf_inj) hx hne hbits
    refine ⟨_, h.pass hne hchain hp (hY.nil hfresh) (chained_nil not_mem_filter_ne)
      (by rw [hL]; exact hbits ▸ hout) (mem_append_right _ mem_cons_self) rfl
      (fun Z hX hY => ?_) (fun b hb => hrest b (hL ▸ hb))
      (nodup_append_comm.mpr (nodup_cons.mpr ⟨hfresh, h.tx_nodup⟩)) h.rx_nodup⟩
    exact (same_next s _ Z).trans (same_chains _
      (fun q hq => mem_filter_ne fun heq => hX (heq ▸ hq)) (fun _ _ => Iff.rfl)
      (fun v hv => mem_concat_of_ne fun heq => hY (heq ▸ hv)) fun _ _ => Iff.rfl)
  | false =>
    obtain ⟨hback, -, hrest'⟩ := offsetToPointer_chain .owner hout hnodup hown
    refine ⟨L, h.relink (X := .owner p) ?_ (fun Z _ => same_next s _ Z) (fun b hb => ?_)
      h.tx_nodup h.rx_nodup⟩
    · obtain ⟨k, hkind⟩ := hchain.kind
      refine Chained.of_coded ?_ (hchain.ne_nil hp) hkind hp
      rw [hL, hbits]
      exact hpx ▸ hback
    · show (pool.umqShmOffsetToQbufPointer .owner _ (w &&& umqOffsetDataBits)).1 b = _
      rw [hbits, hrest' b (hL ▸ hb), hrest b (hL ▸ hb)]

/-- **`umq_shm_qbuf_dequeue`.** -/
theorem umqShmQbufDequeue : ∃ L', pool.Inv sorted items (pool.umqShmQbufDequeue s) L' := by
  cases htx : s.tx with
  | nil =>
    rw [ShmPool.umqShmQbufDequeue, htx]
    exact ⟨L, h⟩
  | cons w tx =>
    have hw : w ∈ s.tx := htx ▸ mem_cons_self
    have hchain := h.tx w
    obtain ⟨x, l, hL, -, hcoded, hx, hchainNodup, hown⟩ := h.chain hchain hw
    obtain ⟨hin, haddr, hrest⟩ := offsetToPointer_chain .remote hcoded hchainNodup hown
    have hne : ShmPlace.tx w ≠ .peer (pool.addr .remote x) := nofun
    have hY := h.peer (pool.addr .remote x)
    have hfresh : pool.addr .remote x ∉ s.peer :=
      h.not_here hY
        (fun _ _ hb hb' heq => by rw [← cell_addr hb .remote, heq, cell_addr hb']) hx hne rfl
    obtain ⟨hgone, hnodup⟩ := nodup_cons.mp (htx ▸ h.tx_nodup)
    rw [ShmPool.umqShmQbufDequeue, htx]
    simp only [haddr, if_neg (addr_ne_zero (hown x mem_cons_self) .remote)]
    refine ⟨_, h.pass hne hchain hw (hY.nil hfresh) (chained_nil hgone) (by rw [hL]; exact hin)
      mem_cons_self rfl (fun Z hX hY => ?_) (fun b hb => hrest b (hL ▸ hb)) hnodup h.rx_nodup⟩
    refine (same_next s _ Z).trans (same_chains _ (fun _ _ => Iff.rfl) (fun q hq => ?_)
      (fun v hv => ?_) fun _ _ => Iff.rfl)
    · exact mem_cons_of_ne fun heq => hY (heq ▸ hq)
    · exact htx ▸ (mem_cons_of_ne fun heq : v = w => hX (heq ▸ hv)).symm

/-- **`umq_shm_qbuf_free` by the peer**, if the ring has room. -/
theorem postReleaseBuf (hp : p ∈ s.peer) (hroom : pool.RxRoom s) :
    ∃ L', pool.Inv sorted items (pool.postReleaseBuf s p) L' := by
  have hchain := h.peer p
  obtain ⟨x, l, hL, -, hcoded, hx, hnodup, hown⟩ := h.chain hchain hp
  obtain ⟨hout, hoffset, hrest⟩ := pointerToOffset_chain .remote hcoded hnodup hown
  have hne : ShmPlace.peer p ≠ .rx (pool.offsetOf x) := nofun
  have hY := h.rx (pool.offsetOf x)
  have hfresh : pool.offsetOf x ∉ s.rx := h.not_here hY (fun _ _ => offsetOf_inj) hx hne rfl
  rw [ShmPool.postReleaseBuf]
  rw [hoffset, if_pos hroom]
  refine ⟨_, h.pass hne hchain hp (hY.nil hfresh) (chained_nil not_mem_filter_ne)
    (by rw [hL]; exact hout) (mem_append_right _ mem_cons_self) rfl
    (fun Z hX hY => ?_) (fun b hb => hrest b (hL ▸ hb)) h.tx_nodup
    (nodup_append_comm.mpr (nodup_cons.mpr ⟨hfresh, h.rx_nodup⟩))⟩
  exact (same_next s _ Z).trans (same_chains _ (fun _ _ => Iff.rfl)
    (fun q hq => mem_filter_ne fun heq => hX (heq ▸ hq)) (fun _ _ => Iff.rfl)
    fun v hv => mem_concat_of_ne fun heq => hY (heq ▸ hv))

/-- **`umq_shm_qbuf_free` by the peer**, if the ring is full: the chain is lost. -/
theorem postReleaseBuf_lost (hp : p ∈ s.peer) (hroom : ¬pool.RxRoom s) :
    ∃ items' L', pool.Inv sorted items' (pool.postReleaseBuf s p) L' := by
  obtain ⟨x, l, hL, -, hcoded, -, hnodup, hown⟩ := h.chain (h.peer p) hp
  obtain ⟨-, -, hrest⟩ := pointerToOffset_chain .remote hcoded hnodup hown
  rw [ShmPool.postReleaseBuf, if_neg hroom]
  refine ⟨_, _, h.partition.drop (.peer p), fun b hb => h.subset (mem_filter.mp hb).1,
    fun Z => ?_, h.tx_nodup, h.rx_nodup, h.mode⟩
  by_cases hZ : Z = .peer p
  · rw [hZ, update_self]
    exact chained_nil not_mem_filter_ne
  · rw [update_of_ne hZ]
    refine (h.holds Z).congr ?_ fun b hb => hrest b (hL ▸ h.partition.not_mem hb hZ)
    exact (same_next s _ Z).trans (same_chains _ (fun _ _ => Iff.rfl)
      (fun q hq => mem_filter_ne fun heq => hZ (heq ▸ hq)) (fun _ _ => Iff.rfl)
      fun _ _ => Iff.rfl)

/-! ## The poll of the return ring -/

omit h in
/-- **A chain from the return ring goes to a global list**, to that of its kind in
the `split` mode. -/
theorem fillGlobal {rx : List ℕ} (h : pool.Inv sorted items { s with rx := w :: rx } L)
    (hmode : pool.split = true ∨ ¬sorted) :
    ∃ s' L', pool.fillGlobal s w = some s' ∧ pool.Inv sorted items { s' with rx := rx } L' ∧
      s'.cache = s.cache ∧ s'.rx = s.rx := by
  have hchain := h.rx w
  obtain ⟨x, l, hL, -, hcoded, hx, hchainNodup, hown⟩ := h.chain hchain mem_cons_self
  have hxb : x ∈ pool.blocks := hown x mem_cons_self
  obtain ⟨hin, haddr, hrest⟩ := offsetToPointer_chain .owner hcoded hchainNodup hown
  generalize hr : (pool.umqShmOffsetToQbufPointer .owner s.next w).1 = links at hin hrest
  have hseg : Seg links x (x :: l) 0 := coded_owner.mp hin
  let k := pool.isWithData x
  have hne : ShmPlace.rx w ≠ .global k := nofun
  have hkind : sorted → ∀ b ∈ L (.rx w), pool.kind b = k := fun hsorted b hb => by
    obtain ⟨k', hk'⟩ := hchain.kind
    have hsplit := hmode.resolve_right (not_not_intro hsorted)
    exact (hk' b hb).trans ((hk' x hx).symm.trans (isWithData_of_mem hsplit hxb).symm)
  have hglobal : pool.FreeList sorted links s.global k (L (.global k)) :=
    (h.global _).congr ⟨rfl, rfl⟩ fun b hb => hrest b (hL ▸ h.partition.not_mem hb hne.symm)
  obtain ⟨m, y, hm⟩ := (eq_nil_or_concat' (x :: l)).resolve_left (cons_ne_nil x l)
  have hy : y ∈ L (.rx w) := by simp [hL, hm]
  rw [hm] at hseg
  have hpush := hglobal.push hseg (fun hsorted b hb => hkind hsorted b (hL ▸ hm ▸ hb))
    (by rw [← hm, ← hL]; exact h.partition.nodup_append hne)
  have hwalk : walk links pool.fuel x = m ++ [y] := walk_of_seg hseg (hm ▸ h.length_le_fuel hL)
  let s₀ := { s with next := links }
  have hx0 : pool.addr .owner x ≠ 0 := addr_ne_zero hxb .owner
  obtain ⟨hgone, hnodup⟩ := nodup_cons.mp h.rx_nodup
  rw [ShmPool.fillGlobal]
  rw [haddr, if_neg hx0, hr]
  show ∃ s' L', pool.returnQbufToGlobal s₀ x k = some s' ∧ _
  rw [returnQbufToGlobal]
  simp only [s₀, hwalk, getLast?_concat, map_some, length_append]
  refine ⟨_, _, rfl, h.move hne (chained_nil hgone) hpush ?_ (fun Z hX hY => ?_)
    (fun b hb _ => ?_) h.tx_nodup hnodup, rfl, rfl⟩
  · rw [hL, hm]
    rfl
  · refine ((same_next _ _ Z).trans (same_setGlobal _ _ _ hY)).trans (same_chains _
      (fun _ _ => Iff.rfl) (fun _ _ => Iff.rfl) (fun _ _ => Iff.rfl) fun v hv => ?_)
    exact (mem_cons_of_ne fun heq : v = w => hX (heq ▸ hv)).symm
  · exact (update_of_mem hy hb).trans (hrest b (hL ▸ hb))

omit h in
theorem fillGlobalAll {offsets rx : List ℕ}
    (h : pool.Inv sorted items { s with rx := offsets ++ rx } L)
    (hmode : pool.split = true ∨ ¬sorted) :
    ∃ s' L', pool.fillGlobalAll offsets s = some s' ∧
      pool.Inv sorted items { s' with rx := rx } L' ∧
      s'.cache = s.cache ∧ s'.rx = s.rx := by
  induction offsets generalizing s L with
  | nil => exact ⟨s, L, rfl, h, rfl, rfl⟩
  | cons w offsets ih =>
    obtain ⟨s₁, L₁, hfill, h₁, hcache, hrx⟩ := Inv.fillGlobal h hmode
    obtain ⟨s₂, L₂, hall, h₂, hcache₂, hrx₂⟩ := ih h₁
    refine ⟨s₂, L₂, ?_, h₂, hcache₂.trans hcache, hrx₂.trans hrx⟩
    rw [ShmPool.fillGlobalAll, hfill]
    exact hall

/-- **`umq_shm_poll_and_fill_global`**, where chains can come back. -/
theorem pollAndFill (hmode : (pool.split = true ∨ ¬sorted) ∨ s.rx = []) :
    ∃ s' L', pool.umqShmPollAndFillGlobal s = some s' ∧ pool.Inv sorted items s' L' ∧
      s'.cache = s.cache ∧ ((pool.split = true ∨ ¬sorted) ∨ s'.rx = []) := by
  obtain hsplit | hrx := hmode
  · let front := s.rx.take shmQbufPoolBatchCnt
    let back := s.rx.drop shmQbufPoolBatchCnt
    have hparts : pool.Inv sorted items { s with rx := front ++ back } L := by
      rw [take_append_drop]
      exact h
    let s₀ := { s with rx := back }
    obtain ⟨s₁, L₁, hall, h₁, hcache, hrx⟩ := Inv.fillGlobalAll (s := s₀) hparts hsplit
    have hsame : { s₁ with rx := s.rx.drop shmQbufPoolBatchCnt } = s₁ := by
      rw [← show s₁.rx = s.rx.drop shmQbufPoolBatchCnt from hrx]
    exact ⟨s₁, L₁, hall, hsame ▸ h₁, hcache, .inl hsplit⟩
  · refine ⟨{ s with rx := s.rx.drop shmQbufPoolBatchCnt }, L, ?_, ?_, rfl, .inr ?_⟩
    · rw [umqShmPollAndFillGlobal, hrx]
      rfl
    · rw [hrx]
      show pool.Inv sorted items { s with rx := [] } L
      rw [← hrx]
      exact h
    · rw [hrx]
      rfl

/-! ## Allocation -/

/-- **`fetch_from_global`** when the pools of the process give nothing: all or
nothing of a batch. -/
theorem fetchFromGlobal (hn : n ≠ 0) {foreign : List ℕ}
    (hforeign : pool.disableScaleCap = true ∨ foreign = []) :
    ∃ s' ok L', pool.fetchFromGlobal s t k n foreign = some (s', ok) ∧ pool.Inv sorted items s' L' ∧
      s'.rx = s.rx ∧ (ok = true → (s'.cache t).cnt k = (s.cache t).cnt k + n) := by
  have hglobal := h.global k
  rw [ShmPool.fetchFromGlobal]
  split
  case isTrue hle =>
    rw [hglobal.cnt] at hle
    obtain ⟨l, x, o, hL, rfl⟩ := exists_split hn hle
    obtain ⟨s₁, halloc, h₁, hrx, -⟩ := h.allocateBatch t hL
    refine ⟨s₁, true, _, by rw [halloc]; rfl, h₁, hrx, fun _ => ?_⟩
    rw [(h₁.cache t k).cnt, moved_target, (h.cache t k).cnt, length_append, length_cons]
    omega
  split
  · exact ⟨s, false, L, rfl, h, rfl, nofun⟩
  rename_i hle hscale
  obtain rfl := hforeign.resolve_left hscale
  have hshort : ¬ s.global.cnt k + ([] : List ℕ).length = n := fun heq =>
    hle (Nat.le_of_eq heq.symm)
  by_cases hpos : 0 < s.global.cnt k
  · have hlen : s.global.cnt k ≤ (L (.global k)).length := Nat.le_of_eq hglobal.cnt
    obtain ⟨l, x, o, hL, hcnt⟩ := exists_split (Nat.ne_of_gt hpos) hlen
    obtain ⟨s₁, halloc, h₁, hrx, hbefore⟩ := h.allocateBatch t hL
    obtain ⟨s₂, hroll, h₂, hrx₂⟩ := h₁.rollback (t := t) (k := k) moved_target hbefore
    refine ⟨s₂, false, _, ?_, h₂, hrx₂.trans hrx, nofun⟩
    simp only [ take_nil, if_neg hshort]
    rw [← hcnt, halloc]
    show (pool.rollback s₁ t k _ (l.length + 1)).map _ = _
    rw [hroll]
    rfl
  · refine ⟨s, false, L, ?_, h, rfl, nofun⟩
    have hzero : s.global.cnt k = 0 := Nat.eq_zero_of_not_pos hpos
    simp only [ take_nil, if_neg hshort]
    rw [hzero]
    rfl

/-- The loop of the allocation ends with enough buffers, or with too few in the
pool. -/
theorem fetchLoop {need fuel : ℕ} (hmode : (pool.split = true ∨ ¬sorted) ∨ s.rx = [])
    (hforeign : pool.disableScaleCap = true ∨ ∀ ps ∈ foreign, ps = []) (hpos : fuel ≠ 0)
    (hfuel : need < fuel + (s.cache t).cnt k) :
    ∃ s' ok L', pool.fetchLoop t k need fuel foreign s = some (s', ok) ∧
      pool.Inv sorted items s' L' ∧
      (ok = true → need ≤ (s'.cache t).cnt k) := by
  -- every turn of the loop that goes on adds a batch to the list of the thread
  induction fuel generalizing s L foreign with
  | zero => exact absurd rfl hpos
  | succ fuel ih =>
    rw [ShmPool.fetchLoop]
    split_ifs with hneed
    · exact ⟨s, true, L, rfl, h, fun _ => hneed⟩
    obtain ⟨s₁, L₁, hpoll, h₁, hcache, hmode₁⟩ := h.pollAndFill hmode
    have hhead : pool.disableScaleCap = true ∨ foreign.headD [] = [] :=
      hforeign.imp_right (fun hall => by
        cases foreign with
        | nil => rfl
        | cons ps foreign => exact hall ps mem_cons_self)
    obtain ⟨s₂, ok, L₂, hfetch, h₂, hrx, hcnt⟩ :=
      h₁.fetchFromGlobal (t := t) (k := k) (n := shmQbufPoolBatchCnt) (by decide) hhead
    rw [hpoll, bind_some, hfetch]
    cases ok with
    | false => exact ⟨s₂, false, L₂, rfl, h₂, nofun⟩
    | true =>
      have hadd : (s₂.cache t).cnt k = (s.cache t).cnt k + 4 := by
        rw [hcnt rfl, hcache]
        rfl
      have hmode₂ : (pool.split = true ∨ ¬sorted) ∨ s₂.rx = [] := hmode₁.imp_right hrx.trans
      have htail : pool.disableScaleCap = true ∨ ∀ ps ∈ foreign.tail, ps = [] :=
        hforeign.imp_right fun hall ps hps => hall ps (mem_of_mem_tail hps)
      exact ih h₂ hmode₂ htail (by omega) (by omega)

/-- **`umq_shm_qbuf_alloc`** of at least one buffer. -/
theorem umqShmQbufAlloc {requestSize num : UInt32} {headroom : Option UInt16} {need : ℕ}
    (hrequest : pool.request requestSize num headroom = .ok (k, need)) (hneed : need ≠ 0)
    (hfetch : need ≤ (s.cache t).cnt k ∨ ((pool.split = true ∨ ¬sorted) ∨ s.rx = []) ∧
      (pool.disableScaleCap = true ∨ ∀ ps ∈ foreign, ps = [])) :
    ∃ s' ret L', pool.umqShmQbufAlloc s t requestSize num headroom foreign = some (s', ret) ∧
      pool.Inv sorted items s' L' := by
  have hloop : ∃ s₁ ok L₁, pool.fetchLoop t k need (need + 1) foreign s = some (s₁, ok) ∧
      pool.Inv sorted items s₁ L₁ ∧ (ok = true → need ≤ (s₁.cache t).cnt k) := by
    obtain hle | ⟨hmode, hforeign⟩ := hfetch
    · refine ⟨s, true, L, ?_, h, fun _ => hle⟩
      rw [ShmPool.fetchLoop, if_pos hle]
    · exact h.fetchLoop hmode hforeign (succ_ne_zero need) (by omega)
  obtain ⟨s₁, ok, L₁, hres, h₁, hok⟩ := hloop
  rw [ShmPool.umqShmQbufAlloc, hrequest]
  dsimp only
  rw [hres, bind_some]
  cases ok with
  | false => exact ⟨s₁, .enomem, L₁, rfl, h₁⟩
  | true =>
    obtain ⟨s₂, L₂, halloc, h₂⟩ := h₁.qbufAlloc hneed (hok rfl)
    refine ⟨s₂, .success, L₂, ?_, h₂⟩
    rw [if_pos rfl, halloc]
    rfl

end Inv

end

/-! ## The initial state -/

/-- Where the buffers are in the beginning. -/
def initPlaces (pool : ShmPool) : ShmPlace → List ℕ
  | .global true => pool.withData.reverse
  | .global false => pool.withoutData.reverse
  | _ => []

theorem insertAll_frame (k : Bool) (ps : List ℕ) (s : ShmState) :
    (∀ b, b ∉ ps → (insertAll k ps s).next b = s.next b) ∧
      ∀ Z, Z ≠ .global k → Same s (insertAll k ps s) Z := by
  induction ps generalizing s with
  | nil => exact ⟨fun _ _ => rfl, fun Z _ => Same.refl s Z⟩
  | cons p ps ih =>
    obtain ⟨hnext, hsame⟩ := ih ((s.setNext p (s.global.head k)).setGlobal k p (s.global.cnt k + 1))
    refine ⟨fun b hb => ?_, fun Z hZ => ?_⟩
    · obtain ⟨hbp, hbps⟩ := not_or.mp fun hor => hb (mem_cons.mpr hor)
      exact (hnext b hbps).trans (update_of_ne hbp _ _)
    · exact ((same_next s _ Z).trans (same_setGlobal _ _ _ hZ)).trans (hsame Z hZ)

theorem FreeList.insertAll (ps : List ℕ) (h : pool.FreeList sorted s.next s.global k l)
    (hnodup : (ps ++ l).Nodup) (hkind : ∀ b ∈ ps, pool.kind b = k) (hne : ∀ b ∈ ps, b ≠ 0) :
    pool.FreeList sorted (insertAll k ps s).next (insertAll k ps s).global k (ps.reverse ++ l) := by
  induction ps generalizing s l with
  | nil => exact h
  | cons p ps ih =>
    obtain ⟨hp, hkind⟩ := forall_mem_cons.mp hkind
    obtain ⟨hp0, hne⟩ := forall_mem_cons.mp hne
    obtain ⟨hpnot, hrest⟩ := nodup_cons.mp hnodup
    obtain ⟨hpps, hpl⟩ := not_or.mp fun hor => hpnot (mem_append.mpr hor)
    have hnext : ∀ b ∈ l, update s.next p (s.global.head k) b = s.next b := fun b hb =>
      update_of_ne (fun heq : b = p => hpl (heq ▸ hb)) _ _
    let s₁ := (s.setNext p (s.global.head k)).setGlobal k p (s.global.cnt k + 1)
    have h₁ : pool.FreeList sorted s₁.next s₁.global k (p :: l) := by
      refine ⟨?_, ?_, fun hsorted => forall_mem_cons.mpr ⟨hp, h.kind hsorted⟩⟩
      · show Seg s₁.next ((s.global.set k p (s.global.cnt k + 1)).head k) (p :: l) 0
        rw [set_head]
        refine ⟨rfl, hp0, ?_⟩
        show Seg _ (update s.next p (s.global.head k) p) l 0
        rw [update_self]
        exact h.seg.congr hnext
      · show (s.global.set k p (s.global.cnt k + 1)).cnt k = _
        rw [set_cnt, h.cnt, length_cons]
    have hnodup₁ : (ps ++ p :: l).Nodup := nodup_middle.mpr hnodup
    rw [reverse_cons, append_assoc]
    exact ih (s := s₁) h₁ hnodup₁ hkind hne

theorem partition_initPlaces (pool : ShmPool) : Partition pool.blocks pool.initPlaces := by
  have hmem : ∀ X b, b ∈ pool.initPlaces X → b ∈ pool.blocks ∧ X = .global (pool.kind b) := by
    intro X b hb
    cases X with
    | global k =>
      cases k with
      | true =>
        have hdata := mem_reverse.mp hb
        exact ⟨mem_append_left _ hdata, by rw [kind, decide_eq_true hdata]⟩
      | false =>
        have hnone := mem_reverse.mp hb
        exact ⟨mem_append_right _ hnone, by rw [kind, decide_eq_false (not_mem_withData hnone)]⟩
    | _ => exact absurd hb not_mem_nil
  refine ⟨fun X => ?_, fun X Y b hX hY => (hmem X b hX).2.trans (hmem Y b hY).2.symm,
    fun b => ⟨fun hb => ?_, ?_⟩⟩
  · cases X with
    | global k =>
      cases k with
      | true => exact nodup_reverse.mpr (nodup_withData pool)
      | false => exact nodup_reverse.mpr (nodup_withoutData pool)
    | _ => exact nodup_nil
  · obtain hb | hb := mem_append.mp hb
    · exact ⟨.global true, mem_reverse.mpr hb⟩
    · exact ⟨.global false, mem_reverse.mpr hb⟩
  · rintro ⟨X, hX⟩
    exact (hmem X b hX).1

/-- **In the beginning all buffers are in the global lists.** -/
theorem inv_init (pool : ShmPool) (next : ℕ → ℕ) (hmode : sorted ∨ pool.split = false) :
    pool.Inv sorted pool.blocks (pool.init next) pool.initPlaces := by
  let empty : FreeLists := ⟨fun _ => 0, fun _ => 0⟩
  let s₀ : ShmState := ⟨next, empty, fun _ => empty, [], [], [], []⟩
  let s₁ := insertAll true pool.withData s₀
  have hempty : ∀ k links, pool.FreeList sorted links empty k [] :=
    fun _ _ => ⟨rfl, rfl, fun _ => nofun⟩
  obtain ⟨-, hsame₁⟩ := insertAll_frame true pool.withData s₀
  obtain ⟨hnext₂, hsame₂⟩ := insertAll_frame false pool.withoutData s₁
  have hdata : pool.FreeList sorted s₁.next s₁.global true pool.withData.reverse := by
    have hall := FreeList.insertAll pool.withData (hempty true s₀.next)
      (by rw [append_nil]; exact nodup_withData pool) (fun b hb => decide_eq_true hb)
      fun b hb => ne_zero_of_mem (mem_append_left _ hb)
    rw [append_nil] at hall
    exact hall
  have hheaders : pool.FreeList sorted (pool.init next).next (pool.init next).global false
      pool.withoutData.reverse := by
    have hfirst : pool.FreeList sorted s₁.next s₁.global false [] :=
      (hempty false s₁.next).congr (hsame₁ (.global false) nofun) nofun
    have hall := FreeList.insertAll pool.withoutData hfirst
      (by rw [append_nil]; exact nodup_withoutData pool)
      (fun b hb => decide_eq_false (not_mem_withData hb))
      fun b hb => ne_zero_of_mem (mem_append_right _ hb)
    rw [append_nil] at hall
    exact hall
  have hsame : ∀ Z, Z ≠ .global true → Z ≠ .global false → Same s₀ (pool.init next) Z :=
    fun Z hZ hZ' => (hsame₁ Z hZ).trans (hsame₂ Z hZ')
  have hother : ∀ Z, Z ≠ .global true → Z ≠ .global false → pool.HoldsIf sorted s₀ Z [] →
      pool.HoldsIf sorted (pool.init next) Z [] := fun Z hZ hZ' h =>
    h.congr (hsame Z hZ hZ') nofun
  have htx : (pool.init next).tx = [] := eq_nil_iff_forall_not_mem.mpr (fun w hw =>
    (nomatch (hsame (.tx w) nofun nofun).mp hw))
  have hrx : (pool.init next).rx = [] := eq_nil_iff_forall_not_mem.mpr (fun w hw =>
    (nomatch (hsame (.rx w) nofun nofun).mp hw))
  refine ⟨partition_initPlaces pool, Subset.refl _, fun X => ?_, htx ▸ nodup_nil, hrx ▸ nodup_nil,
    hmode⟩
  match X with
  | .global true =>
    exact hdata.congr (hsame₂ (.global true) nofun) (fun b hb =>
      hnext₂ b fun hb' => not_mem_withData hb' (mem_reverse.mp hb))
  | .global false => exact hheaders
  | .cache t k => exact hother _ nofun nofun (hempty k _)
  | .owner _ | .peer _ | .tx _ | .rx _ => exact hother _ nofun nofun (chained_nil nofun)

end ShmPool

/-! ## Runs -/

open ShmPool

/-- What a step of the run keeps: nothing was followed that is null, and every
buffer is in exactly one place. -/
def Conserved (pool : ShmPool) (st : Option ShmState) : Prop :=
  ∃ s, st = some s ∧ ∃ L, pool.Inv True pool.blocks s L

theorem conserved_step {pool : ShmPool} {st st' : Option ShmState} {a : ShmAction}
    (h : Conserved pool st) (hcalm : ∀ s ∈ st, pool.Calm s a)
    (hstep : shmStep pool st a = some st') :
    Conserved pool st' := by
  obtain ⟨s, rfl, L, hinv⟩ := h
  have hcalm := hcalm s rfl
  cases a with
  | alloc t requestSize num headroom foreign =>
    rw [Calm] at hcalm
    cases hrequest : pool.request requestSize num headroom with
    | error ret =>
      rw [shmStep, ShmPool.umqShmQbufAlloc, hrequest] at hstep
      exact ⟨s, (some.inj hstep).symm, L, hinv⟩
    | ok r =>
      rw [hrequest] at hcalm
      obtain ⟨s₁, ret, L₁, halloc, h₁⟩ := hinv.umqShmQbufAlloc (t := t) hrequest hcalm.1
        (hcalm.2.imp_right fun h => ⟨h.1.imp_left .inl, h.2⟩)
      rw [shmStep, halloc] at hstep
      exact ⟨s₁, (some.inj hstep).symm, L₁, h₁⟩
  | free t p =>
    obtain ⟨hp, hstep⟩ := guard_eq_some.mp hstep
    obtain ⟨s₁, L₁, hfree, h₁⟩ := hinv.umqShmQbufFree hp t
    exact ⟨s₁, hstep.symm.trans hfree, L₁, h₁⟩
  | enqueue p rendezvous accepted =>
    obtain ⟨hp, hstep⟩ := guard_eq_some.mp hstep
    obtain ⟨L₁, h₁⟩ := hinv.umqShmQbufEnqueue hp rendezvous accepted
    exact ⟨_, hstep.symm, L₁, h₁⟩
  | dequeue =>
    obtain ⟨L₁, h₁⟩ := hinv.umqShmQbufDequeue
    exact ⟨_, (some.inj hstep).symm, L₁, h₁⟩
  | peerFree p =>
    obtain ⟨hp, hstep⟩ := guard_eq_some.mp hstep
    obtain ⟨L₁, h₁⟩ := hinv.postReleaseBuf hp hcalm
    exact ⟨_, hstep.symm, L₁, h₁⟩
  | pollAndFill =>
    obtain ⟨s₁, L₁, hpoll, h₁, -⟩ := hinv.pollAndFill (Or.imp_left .inl hcalm)
    exact ⟨s₁, (some.inj hstep).symm.trans hpoll, L₁, h₁⟩

/-- **Conservation over whole runs.** In every run of calm steps no null pointer
is followed, and in the state reached every buffer of the pool is in exactly one
place, in the free lists by its kind, and the counters are the lengths of the
lists. -/
theorem holds_of_shmRun (pool : ShmPool) (next : ℕ → ℕ) (actions : List ShmAction)
    (st : Option ShmState)
    (hcalm : Along (shmStep pool) (fun st a => ∀ s ∈ st, pool.Calm s a) (some (pool.init next))
      actions)
    (hrun : run (shmStep pool) (some (pool.init next)) actions = some st) :
    ∃ s, st = some s ∧ ∃ L : ShmPlace → List ℕ, (∀ X, (L X).Nodup) ∧
      (∀ b, b ∈ pool.blocks ↔ ∃ X, b ∈ L X) ∧ (∀ b ∈ pool.blocks, ∃! X, b ∈ L X) ∧
      ∀ X, pool.Holds s X (L X) := by
  have hinit : Conserved pool (some (pool.init next)) :=
    ⟨_, rfl, _, inv_init pool next (.inl trivial)⟩
  obtain ⟨s, rfl, L, h⟩ := run_invariant_along (fun _ _ _ h hG hstep => conserved_step h hG hstep)
    hinit hcalm hrun
  refine ⟨s, rfl, L, h.partition.nodup, h.partition.cover, fun b hb => ?_, h.holds⟩
  obtain ⟨X, hX⟩ := (h.partition.cover b).mp hb
  exact ⟨X, hX, fun Y hY => h.partition.apart Y X b hY hX⟩

/-- A pool of four buffers with data and 64 headers, or of five buffers in the
`combine` mode. -/
def samplePool (split : Bool) : ShmPool where
  split := split
  sizePowSmall := 13
  totalSize := 4 * (17 * 128 + 8192)
  dataBuffer := 4096
  remoteBuffer := 65536
  headroomSize := 0
  rxDepth := 2
  disableScaleCap := true
  foreignId := fun _ => 1
  pow_bounds := show 12 < 13 ∧ 13 ≤ 16 by decide
  one_block := by cases split <;> decide
  total_lt := by decide
  data_pos := by decide
  remote_pos := Nat.two_pow_pos 16

/-- Headers are allocated, sent, freed by the peer, and come back. -/
def sampleActions : List ShmAction :=
  [.alloc 0 0 2 none [], .enqueue 45440 true false, .enqueue 45440 true true, .dequeue,
    .peerFree 106880, .pollAndFill, .alloc 0 0 1 none []]

theorem calm_sample : Along (shmStep (samplePool true))
    (fun st a => ∀ s ∈ st, (samplePool true).Calm s a) (some ((samplePool true).init id))
    sampleActions := by
  decide +kernel

theorem exists_run_sample : ∃ st,
    run (shmStep (samplePool true)) (some ((samplePool true).init id)) sampleActions = some st :=
  isSome_iff_exists.mp (by decide +kernel)

theorem holds_of_shmRun_sample :
    ∃ s, run (shmStep (samplePool true)) (some ((samplePool true).init id)) sampleActions =
        some (some s) ∧
      ∃ L : ShmPlace → List ℕ, (∀ X, (L X).Nodup) ∧
        (∀ b, b ∈ (samplePool true).blocks ↔ ∃ X, b ∈ L X) ∧
        (∀ b ∈ (samplePool true).blocks, ∃! X, b ∈ L X) ∧
        ∀ X, (samplePool true).Holds s X (L X) := by
  obtain ⟨st, hrun⟩ := exists_run_sample
  obtain ⟨s, rfl, hL⟩ := holds_of_shmRun (samplePool true) id sampleActions st calm_sample hrun
  exact ⟨s, hrun, hL⟩

/-- A buffer with data that comes back in the `combine` mode is a header now;
and where the ring is full, a chain that the peer frees is nowhere. -/
theorem exists_shmRun_misplaced :
    (∃ st ∈ run (shmStep (samplePool false)) (some ((samplePool false).init id))
        [.alloc 0 1 1 none [], .enqueue 36864 false true, .dequeue, .peerFree 98304, .pollAndFill],
      ∃ s ∈ st, s.global.head false = 36864 ∧ s.global.cnt false = 1 ∧
        (samplePool false).kind 36864 = true) ∧
    ∃ st ∈ run (shmStep (samplePool true)) (some ((samplePool true).init id))
        [.alloc 0 0 1 none [], .alloc 0 0 1 none [], .enqueue 45440 false true,
          .enqueue 45312 false true, .dequeue, .dequeue, .peerFree 106880, .peerFree 106752],
      ∃ s ∈ st, s.owner = [] ∧ s.peer = [] ∧ s.tx = [] ∧ s.rx = [41344] ∧
        s.next 45440 = qbufInvalidOffset ∧ s.global.cnt false + (s.cache 0).cnt false = 62 ∧
        (samplePool true).withoutData.length = 64 := by
  decide +kernel

end Umq
