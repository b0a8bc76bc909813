import UbsComm.Lib.Window
import UbsComm.Umq.MsgRing

/-!
# One ring

The positions of the messages of a ring are counted without end, and a message is in
the slot with its position modulo the depth. `RingInv` has what the producer and the
consumer of a ring rely on: the producer writes only the slots of positions that were
not posted yet, which are not those of the messages that the consumer may read
(`RingInv.store_next`).

All of this is about a layout in which the rings and their headers do not overlap
(`MsgRingOption.Fits`), and about the bytes of one ring and its header (`Owned`).
-/

namespace Umq.MsgRing

open Memory Packing List MsgRingOption Nat UInt32

/-! ## The layout -/

/-- **The rings fit in what 32 bits can address**, and a slot has room for the length
of a message. -/
structure MsgRingOption.Fits (opt : MsgRingOption) : Prop where
  depth_pos : ∀ d, 0 < (opt.depth d).toNat
  header_le : ∀ d, 4 ≤ (opt.maxBufSize d).toNat
  size_lt : opt.txDepth.toNat * opt.txMaxBufSize.toNat +
    opt.rxDepth.toNat * opt.rxMaxBufSize.toNat + 32 < 2 ^ 32

section Layout

variable (opt : MsgRingOption) (d : Dir)

/-- The depth, and the size of a slot. -/
def MsgRingOption.n : ℕ := (opt.depth d).toNat

/-- The size of a slot. -/
def MsgRingOption.w : ℕ := (opt.maxBufSize d).toNat

/-- The bytes of a ring and its header. -/
def Owned (x : ℕ) : Prop :=
  (opt.ring d ≤ x ∧ x < opt.ring d + opt.n d * opt.w d) ∨ (opt.hdr d ≤ x ∧ x < opt.hdr d + 8)

variable {opt d} {x k k' : ℕ} {i : UInt32}

/-- The end of the layout. -/
def MsgRingOption.layoutEnd (opt : MsgRingOption) : ℕ :=
  opt.txDepth.toNat * opt.txMaxBufSize.toNat + opt.rxDepth.toNat * opt.rxMaxBufSize.toNat +
    2 * sizeofRingHdr.toNat

theorem area_lt_of_lt (h : opt.layoutEnd < 2 ^ 32) : opt.n d * opt.w d < 2 ^ 32 := by
  refine lt_of_le_of_lt ?_ h
  cases d with
  | tx => exact (le_add_right ..).trans (Nat.le_add_right ..)
  | rx => exact (le_add_left ..).trans (Nat.le_add_right ..)

theorem MsgRingOption.Fits.n_lt (h : opt.Fits) : 4 * opt.n d < 2 ^ 32 := by
  have hle : opt.n d * 4 ≤ opt.n d * opt.w d := mul_le_mul_left _ (h.header_le d)
  have hlt := area_lt_of_lt (d := d) h.size_lt
  omega

/-- Where the rings and the headers are. -/
theorem layout_of_lt (h : opt.layoutEnd < 2 ^ 32) :
    opt.ring .tx = 0 ∧ opt.ring .rx = opt.n .tx * opt.w .tx ∧
      opt.hdr .tx = opt.n .tx * opt.w .tx + opt.n .rx * opt.w .rx ∧
      opt.hdr .rx = opt.n .tx * opt.w .tx + opt.n .rx * opt.w .rx + 16 := by
  have htx : (opt.txDepth * opt.txMaxBufSize).toNat = opt.n .tx * opt.w .tx := by
    exact mod_eq_of_lt (area_lt_of_lt (d := .tx) h)
  have hrx : (opt.rxDepth * opt.rxMaxBufSize).toNat = opt.n .rx * opt.w .rx := by
    exact mod_eq_of_lt (area_lt_of_lt (d := .rx) h)
  refine ⟨rfl, htx, ?_, ?_⟩
  · rw [hdr, ring, htx, hrx]
  · rw [hdr, ring, htx, hrx]
    rfl

theorem Owned.not_other (h : opt.Fits) {d' : Dir} (hne : d' ≠ d) (hx : Owned opt d x) :
    ¬ Owned opt d' x := by
  obtain ⟨htx, hrx, htxHdr, hrxHdr⟩ := layout_of_lt h.size_lt
  intro hx'
  rw [Owned] at hx hx'
  cases d <;> cases d'
  case tx.tx | rx.rx => exact hne rfl
  all_goals omega

theorem MsgRingOption.Fits.ring_le_hdr (h : opt.Fits) :
    opt.ring d + opt.n d * opt.w d ≤ opt.hdr d := by
  obtain ⟨htx, hrx, htxHdr, hrxHdr⟩ := layout_of_lt h.size_lt
  cases d <;> omega

theorem slot_inside (hk : k < opt.n d) : k * opt.w d + opt.w d ≤ opt.n d * opt.w d := by
  rw [← succ_mul]
  exact mul_le_mul_right _ hk

theorem slot_mod_inside (h : opt.Fits) (d : Dir) (j : ℕ) :
    j % opt.n d * opt.w d + opt.w d ≤ opt.n d * opt.w d :=
  slot_inside (mod_lt j (h.depth_pos d))

theorem slot_apart (opt : MsgRingOption) (d : Dir) (hne : k ≠ k') :
    k * opt.w d + opt.w d ≤ k' * opt.w d ∨ k' * opt.w d + opt.w d ≤ k * opt.w d := by
  rw [← succ_mul, ← succ_mul]
  obtain hlt | hlt := lt_or_gt_of_ne hne
  · exact .inl (mul_le_mul_right _ hlt)
  · exact .inr (mul_le_mul_right _ hlt)

theorem slot_eq_of_lt (h : opt.layoutEnd < 2 ^ 32) (hi : i.toNat = k) (hk : k < opt.n d) :
    opt.slot d i = opt.ring d + k * opt.w d := by
  have hin := slot_inside hk
  have hlt := area_lt_of_lt (d := d) h
  rw [slot, UInt32.toNat_mul, hi]
  exact congrArg _ (mod_eq_of_lt (show k * opt.w d < 2 ^ 32 by omega))

end Layout

/-! ## The mapping -/

/-- **The mapping has room for the layout**: all slots and both headers. -/
structure MsgRingOption.Mapped (opt : MsgRingOption) : Prop where
  layoutEnd_le : opt.layoutEnd ≤ opt.shmSize.toNat
  slot_le : ∀ d i, i < opt.depth d → opt.slot d i + opt.w d ≤ opt.shmSize.toNat
  hdr_le : ∀ d, opt.hdr d + sizeofRingHdr.toNat ≤ opt.shmSize.toNat

/-- **The check of `msg_ring_create` refuses nothing, and the mapping has room for
the layout just when 32 bits have**: the sum has wrapped before it is looked at. -/
theorem mapped_of_msgRingCreate_iff (opt : MsgRingOption) (mem : ℕ → UInt8) :
    (msgRingCreate opt false mem).isSome ∧ (opt.Mapped ↔ opt.layoutEnd < 2 ^ 32) := by
  have hsize : opt.shmSize.toNat = opt.layoutEnd % 2 ^ 32 := by
    have h32 : sizeofRingHdr.toNat = 16 := rfl
    rw [shmSize, toNat_toUInt64, UInt32.toNat_add, UInt32.toNat_add, UInt32.toNat_mul,
      UInt32.toNat_mul, layoutEnd, h32]
    show (_ + 32) % _ = _
    omega
  have hlt : opt.shmSize.toNat < 2 ^ 32 := hsize ▸ mod_lt _ (by decide)
  refine ⟨?_, fun h => h.layoutEnd_le.trans_lt hlt, fun h => ?_⟩
  · rw [msgRingCreate, if_neg fun hover => ?_]
    · rfl
    · exact absurd (UInt64.lt_iff_toNat_lt.mp hover.2) (not_lt.mpr (le_of_lt_succ hlt))
  · rw [mod_eq_of_lt h] at hsize
    obtain ⟨htx, hrx, htxHdr, hrxHdr⟩ := layout_of_lt h
    have hend : opt.layoutEnd = opt.n .tx * opt.w .tx + opt.n .rx * opt.w .rx + 32 := rfl
    refine ⟨hsize.ge, fun d i hi => ?_, fun d => ?_⟩
    · have hin := slot_inside (lt_iff_toNat_lt.mp hi)
      rw [slot_eq_of_lt h rfl (lt_iff_toNat_lt.mp hi), hsize, hend]
      cases d <;> omega
    · have h16 : sizeofRingHdr.toNat = 16 := rfl
      cases d <;> omega

/-- **A ring of 2³² bytes in a mapping of 32**: the product is 0 in 32 bits. -/
theorem exists_not_mapped : let opt : MsgRingOption := ⟨65536, 65536, 0, 0⟩
    (msgRingCreate opt false fun _ => 0).isSome ∧ opt.shmSize = 32 ∧ ¬opt.Mapped := by
  refine ⟨rfl, rfl, fun h => absurd h.layoutEnd_le (by decide)⟩

/-! ## Messages in slots -/

/-- A slot has a message. -/
structure SlotHolds (opt : MsgRingOption) (d : Dir) (mem : ℕ → UInt8) (k : ℕ) (m : List UInt8) :
    Prop where
  len : (wordAt mem (opt.ring d + k * opt.w d)).toNat = m.length
  bytes : bytes mem (opt.ring d + k * opt.w d + 4) m.length = m
  fits : m.length + 4 ≤ opt.w d

variable {mem mem' : ℕ → UInt8} {opt : MsgRingOption} {n : ℕ}

theorem SlotHolds.congr {d : Dir} {k : ℕ} {m : List UInt8} (h : SlotHolds opt d mem k m)
    (hmem : ∀ i < opt.w d, mem' (opt.ring d + k * opt.w d + i) =
      mem (opt.ring d + k * opt.w d + i)) : SlotHolds opt d mem' k m := by
  have hfits := h.fits
  have hword : wordAt mem' (opt.ring d + k * opt.w d) = wordAt mem (opt.ring d + k * opt.w d) :=
    wordAt_congr fun i hi => hmem i (by omega)
  refine ⟨hword ▸ h.len, Eq.trans (bytes_congr fun i hi => ?_) h.bytes, hfits⟩
  rw [add_assoc]
  exact hmem (4 + i) (by omega)

/-! ## What the parties rely on -/

/-- The messages of the call of a producer that are in their slots, and all of them. -/
def Producer.done : Producer → List Message
  | .idle => []
  | .writing _ done _ => done
  | .sizing _ done _ _ => done

/-- The messages of the call. -/
def Producer.msgs : Producer → List Message
  | .idle => []
  | .writing _ done left => done ++ left
  | .sizing _ done m left => done ++ m :: left

/-- What holds of the message that a producer is at, when so many were posted. -/
def Producer.Ok (opt : MsgRingOption) (d : Dir) (mem : ℕ → UInt8) (posted : ℕ) : Producer → Prop
  | .idle => True
  | .writing batch done left =>
    batch = false → done.length + left.length = 1 ∧ ∀ m ∈ left, m.bytes.length + 4 ≤ opt.w d
  | .sizing batch done m left =>
    (batch = false → done = [] ∧ left = []) ∧ m.bytes.length + 4 ≤ opt.w d ∧
      bytes mem (opt.ring d + (posted + done.length) % opt.n d * opt.w d + 4) m.bytes.length =
        m.bytes

/-- What holds of the messages that a consumer has copied, when so many were
delivered. -/
def Consumer.Ok (posted : List (List UInt8)) (delivered : ℕ) : Consumer → Prop
  | .idle => True
  | .counting _ _ => True
  | .checking single _ cnt got =>
    got = (posted.drop delivered).take got.length ∧ delivered + got.length + cnt ≤ posted.length ∧
      (single = true → got.length + cnt = 1)
  | .copying single _ cnt got tempBufSize =>
    got = (posted.drop delivered).take got.length ∧
      delivered + got.length + cnt < posted.length ∧ (single = true → got.length + cnt = 0) ∧
      ∀ m, posted[delivered + got.length]? = some m → tempBufSize.toNat = m.length

/-- **A ring**: the indices, the messages in their slots, and where the parties are. -/
structure RingInv (opt : MsgRingOption) (d : Dir) (mem : ℕ → UInt8) (p : Producer) (c : Consumer)
    (posted delivered : List (List UInt8)) : Prop where
  pi : (wordAt mem (opt.hdr d)).toNat = posted.length % opt.n d
  ci : (wordAt mem (opt.hdr d + 4)).toNat = delivered.length % opt.n d
  took : delivered <+: posted
  room : posted.length + p.msgs.length < delivered.length + opt.n d
  slots : ∀ j m, delivered.length ≤ j → (posted ++ p.done.map Message.bytes)[j]? = some m →
    SlotHolds opt d mem (j % opt.n d) m
  producer : p.Ok opt d mem posted.length
  consumer : c.Ok posted delivered.length

/-- Only the bytes of the slots matter to a producer. -/
theorem Producer.Ok.congr {d : Dir}
    {p : Producer} (h : p.Ok opt d mem n) (hslot : ∀ j i, i < opt.w d →
      mem' (opt.ring d + j % opt.n d * opt.w d + i) =
        mem (opt.ring d + j % opt.n d * opt.w d + i)) : p.Ok opt d mem' n := by
  cases p with
  | idle => trivial
  | writing batch done left => exact h
  | sizing batch done m left =>
    obtain ⟨hbatch, hlen, hbytes⟩ := h
    refine ⟨hbatch, hlen, Eq.trans (bytes_congr fun i hi => ?_) hbytes⟩
    rw [add_assoc]
    exact hslot _ (4 + i) (by omega)

theorem length_lt_append_cons (done : List Message) (m : Message) (left : List Message) :
    done.length < (done ++ m :: left).length := by
  rw [length_append, length_cons]
  omega

section Indices

variable {opt : MsgRingOption} {d : Dir} {x y : UInt32} {j k : ℕ}

theorem index_add (h : opt.Fits) (hx : x.toNat = j % opt.n d) (hk : k ≤ opt.n d) :
    ((x + ofNat k) % opt.depth d).toNat = (j + k) % opt.n d := by
  have hn := h.n_lt (d := d)
  have hpos : 0 < opt.n d := h.depth_pos d
  have hj := mod_lt j hpos
  rw [UInt32.toNat_mod, UInt32.toNat_add, toNat_ofNat', hx, mod_eq_of_lt (b := 2 ^ 32)
    (by omega), mod_eq_of_lt (b := 2 ^ 32) (by omega)]
  exact mod_add_mod j (opt.n d) k

/-- A position less than a ring ahead: its index is ahead too, or has come round. -/
theorem mod_add_cases (hk : k < n) : (j + k) % n = j % n + k ∨ (j + k) % n + n = j % n + k := by
  have hj := mod_lt j (zero_lt_of_lt hk)
  rw [add_mod, mod_eq_of_lt hk]
  by_cases hwrap : j % n + k < n
  · exact .inl (mod_eq_of_lt hwrap)
  · rw [mod_eq_sub_mod (not_lt.mp hwrap), mod_eq_of_lt (a := j % n + k - n) (by omega)]
    exact Or.inr (Nat.sub_add_cancel (not_lt.mp hwrap))

/-- The distance of two indices, before it is taken modulo the depth. -/
theorem toNat_distance (h : opt.Fits) (hx : x.toNat < opt.n d) (hy : y.toNat < opt.n d) :
    (x + opt.depth d - y).toNat = x.toNat + opt.n d - y.toNat := by
  have hn := h.n_lt (d := d)
  have hsum : (x + opt.depth d).toNat = x.toNat + opt.n d := by
    rw [UInt32.toNat_add]
    exact mod_eq_of_lt (show x.toNat + opt.n d < 2 ^ 32 by omega)
  have hle : y ≤ x + opt.depth d := by
    rw [le_iff_toNat_le]
    omega
  rw [UInt32.toNat_sub_of_le _ _ hle, hsum]

section LeftCnt

variable (h : opt.Fits) (hx : x.toNat = (j + k) % opt.n d) (hy : y.toNat = j % opt.n d)
  (hk : k < opt.n d)
include h hx hy hk

/-- `left_cnt` of a poll: the messages that were posted and not delivered. -/
theorem leftCnt_poll : ((x + opt.depth d - y) % opt.depth d).toNat = k := by
  have hj := mod_lt j (h.depth_pos d)
  have hjk := mod_lt (j + k) (h.depth_pos d)
  rw [UInt32.toNat_mod, toNat_distance h (hx ▸ hjk) (hy ▸ hj), hx, hy]
  show ((j + k) % opt.n d + opt.n d - j % opt.n d) % opt.n d = k
  obtain hcase | hcase := mod_add_cases (j := j) hk
  · rw [hcase, show j % opt.n d + k + opt.n d - j % opt.n d = k + opt.n d by omega,
      add_mod_right, mod_eq_of_lt hk]
  · rw [hcase, Nat.add_sub_cancel_left, mod_eq_of_lt hk]

/-- `left_cnt` of a batch: the slots that are free, but one. -/
theorem leftCnt_post : ((y + opt.depth d - x - 1) % opt.depth d).toNat + k + 1 = opt.n d := by
  have hj : j % opt.n d < opt.n d := mod_lt j (h.depth_pos d)
  have hjk : (j + k) % opt.n d < opt.n d := mod_lt (j + k) (h.depth_pos d)
  have hsub := toNat_distance h (hy ▸ hj) (hx ▸ hjk)
  have hle : 1 ≤ y + opt.depth d - x := by
    rw [le_iff_toNat_le]
    show 1 ≤ _
    omega
  rw [UInt32.toNat_mod, UInt32.toNat_sub_of_le _ _ hle, hsub, hx, hy]
  show (j % opt.n d + opt.n d - (j + k) % opt.n d - 1) % opt.n d + k + 1 = opt.n d
  obtain hcase | hcase := mod_add_cases (j := j) hk
  · rw [hcase, mod_eq_of_lt (by omega)]
    omega
  · rw [show j % opt.n d + opt.n d - (j + k) % opt.n d - 1 = opt.n d - k - 1 + opt.n d by omega,
      add_mod_right, mod_eq_of_lt (by omega)]
    omega

end LeftCnt

end Indices

/-- What a consumer has copied is not affected by more messages. -/
theorem Consumer.Ok.append {c : Consumer} {posted more : List (List UInt8)}
    (h : c.Ok posted n) : c.Ok (posted ++ more) n := by
  have hgot : ∀ {got : List (List UInt8)}, got = (posted.drop n).take got.length →
      n + got.length ≤ posted.length → got = ((posted ++ more).drop n).take got.length := by
    intro got hgot hle
    rw [drop_append_of_le_length (by omega), take_append_of_le_length]
    · exact hgot
    · rw [length_drop]
      omega
  cases c with
  | idle => trivial
  | counting maxBufSize maxCnt => trivial
  | checking single maxBufSize cnt got =>
    obtain ⟨h₁, h₂, h₃⟩ := h
    refine ⟨hgot h₁ (by omega), ?_, h₃⟩
    rw [length_append]
    omega
  | copying single maxBufSize cnt got tempBufSize =>
    obtain ⟨h₁, h₂, h₃, h₄⟩ := h
    refine ⟨hgot h₁ (by omega), ?_, h₃, fun m hm => h₄ m ?_⟩
    · rw [length_append]
      omega
    · rwa [getElem?_append_left (by omega)] at hm

/-! ## The producer -/

namespace RingInv

variable {opt : MsgRingOption} {d : Dir} {mem mem' : ℕ → UInt8} {p : Producer} {c : Consumer}
  {posted delivered : List (List UInt8)} {batch single : Bool} {done left : List Message}
  {m : Message} {a : ℕ} {x : UInt32}

theorem writing (h : RingInv opt d mem .idle c posted delivered)
    (hroom : posted.length + left.length < delivered.length + opt.n d)
    (hsingle : batch = false → left.length = 1 ∧ ∀ m ∈ left, m.bytes.length + 4 ≤ opt.w d) :
    RingInv opt d mem (.writing batch [] left) c posted delivered :=
  { h with
    room := hroom
    slots := h.slots
    producer := fun hb => ⟨(zero_add _).trans (hsingle hb).1, (hsingle hb).2⟩ }

section

variable (h : RingInv opt d mem p c posted delivered)
include h

theorem le : delivered.length ≤ posted.length := h.took.length_le

/-- Only the bytes of the ring and of its header matter. -/
theorem congr (hfits : opt.Fits)
    (hmem : ∀ x, Owned opt d x → mem' x = mem x) : RingInv opt d mem' p c posted delivered := by
  have hslot : ∀ j i, i < opt.w d → mem' (opt.ring d + j % opt.n d * opt.w d + i) =
      mem (opt.ring d + j % opt.n d * opt.w d + i) := by
    intro j i hi
    have hin := slot_mod_inside hfits d j
    exact hmem _ (.inl (by omega))
  have hpi : wordAt mem' (opt.hdr d) = wordAt mem (opt.hdr d) :=
    wordAt_congr fun i hi => hmem _ (.inr (by omega))
  have hci : wordAt mem' (opt.hdr d + 4) = wordAt mem (opt.hdr d + 4) :=
    wordAt_congr fun i hi => hmem _ (.inr (by omega))
  exact { h with
    pi := hpi ▸ h.pi
    ci := hci ▸ h.ci
    slots := fun j m hj hm => (h.slots j m hj hm).congr (hslot j)
    producer := h.producer.congr hslot }

theorem producerIdle : RingInv opt d mem .idle c posted delivered := by
  refine { h with
    room := (Nat.add_le_add_left (zero_le _) _).trans_lt h.room
    slots := fun j m hj hm => h.slots j m hj ?_
    producer := trivial }
  have hm : (posted ++ [])[j]? = some m := hm
  rw [append_nil] at hm
  exact getElem?_append_left (List.getElem?_eq_some_iff.mp hm).1 ▸ hm

/-- **A write in the slot of the next message** is not seen by the consumer. -/
theorem store_next (hfits : opt.Fits) {l : List UInt8} {o : ℕ} (hm : p.done.length < p.msgs.length)
    (hoff : o + l.length ≤ opt.w d)
    (ha : a = opt.ring d + (posted.length + p.done.length) % opt.n d * opt.w d + o) :
    (∀ j m, delivered.length ≤ j → (posted ++ p.done.map Message.bytes)[j]? = some m →
      SlotHolds opt d (store mem a l) (j % opt.n d) m) ∧
    (wordAt (store mem a l) (opt.hdr d)).toNat = posted.length % opt.n d ∧
    (wordAt (store mem a l) (opt.hdr d + 4)).toNat = delivered.length % opt.n d := by
  have hin := slot_mod_inside hfits d (posted.length + p.done.length)
  have hhdr := hfits.ring_le_hdr (d := d)
  refine ⟨fun j m hj hjm => ?_, ?_, ?_⟩
  · have hlt := (List.getElem?_eq_some_iff.mp hjm).1
    rw [length_append, length_map] at hlt
    have hroom := h.room
    have hne : j % opt.n d ≠ (posted.length + p.done.length) % opt.n d :=
      Cyclic.mod_ne_mod hj (by omega) (by omega) (by omega) hlt.ne
    have hapart := slot_apart opt d hne
    exact (h.slots j m hj hjm).congr fun i hi => store_of_outside (by omega)
  · rw [wordAt_store_of_apart (.inr (by omega))]
    exact h.pi
  · rw [wordAt_store_of_apart (.inr (by omega))]
    exact h.ci

end

theorem copy (h : RingInv opt d mem (.writing batch done (m :: left)) c posted delivered)
    (hfits : opt.Fits) (hlen : m.bytes.length + 4 ≤ opt.w d)
    (ha : a = opt.ring d + (posted.length + done.length) % opt.n d * opt.w d + 4) :
    RingInv opt d (store mem a m.bytes) (.sizing batch done m left) c posted delivered := by
  obtain ⟨hslots, hpi, hci⟩ := h.store_next (l := m.bytes) hfits
    (length_lt_append_cons done m left) (by omega) ha
  refine { h with
    pi := hpi
    ci := hci
    slots := hslots
    producer := ⟨fun hb => ?_, hlen, ?_⟩ }
  · have hone := (h.producer hb).1
    rw [length_cons] at hone
    exact ⟨length_eq_zero_iff.mp (by omega), length_eq_zero_iff.mp (by omega)⟩
  · rw [← ha]
    exact bytes_store

theorem size (h : RingInv opt d mem (.sizing batch done m left) c posted delivered)
    (hfits : opt.Fits) (ha : a = opt.ring d + (posted.length + done.length) % opt.n d * opt.w d) :
    RingInv opt d (store mem a (u32 m.size)) (.writing batch (done ++ [m]) left) c posted
      delivered := by
  obtain ⟨hbatch, hlen, hbytes⟩ := h.producer
  have hword := length_u32 m.size
  obtain ⟨hslots, hpi, hci⟩ := h.store_next (l := u32 m.size) (o := 0) hfits
    (length_lt_append_cons done m left) (by omega) ha
  refine { h with
    pi := hpi
    ci := hci
    room := ?_
    slots := fun j m' hj hm' => ?_
    producer := fun hb => ?_ }
  · have hroom := h.room
    rw [Producer.msgs, append_assoc]
    exact hroom
  · rw [Producer.done, map_append, ← append_assoc, getElem?_append] at hm'
    split_ifs at hm' with hj'
    · exact hslots j m' hj hm'
    · rw [map_singleton, getElem?_singleton, Option.ite_none_right_eq_some] at hm'
      obtain ⟨hzero, ⟨⟩⟩ := hm'
      rw [length_append, length_map] at hj' hzero
      obtain rfl : j = posted.length + done.length := by omega
      rw [ha]
      refine ⟨?_, ?_, hlen⟩
      · rw [wordAt_store, Message.size]
        exact mod_eq_of_lt m.length_lt
      · rw [bytes_store_of_apart (.inr (by omega))]
        exact hbytes
  · obtain ⟨rfl, rfl⟩ := hbatch hb
    exact ⟨rfl, nofun⟩

theorem store_hdr (mem : ℕ → UInt8) (hfits : opt.Fits) (ha : a = opt.hdr d ∨ a = opt.hdr d + 4)
    (j i : ℕ) (hi : i < opt.w d) : store mem a (u32 x) (opt.ring d + j % opt.n d * opt.w d + i) =
      mem (opt.ring d + j % opt.n d * opt.w d + i) := by
  have hin := slot_mod_inside hfits d j
  have hhdr := hfits.ring_le_hdr (d := d)
  exact store_of_outside (by omega)

/-- **The messages are published.** -/
theorem publish (h : RingInv opt d mem (.writing batch done []) c posted delivered)
    (hfits : opt.Fits) (hx : x.toNat = (posted.length + done.length) % opt.n d) :
    RingInv opt d (store mem (opt.hdr d) (u32 x)) .idle c (posted ++ done.map Message.bytes)
      delivered := by
  refine {
    pi := ?_
    ci := ?_
    took := h.took.trans (prefix_append _ _)
    room := ?_
    slots := fun j m hj hm => (h.slots j m hj ?_).congr (store_hdr mem hfits (.inl rfl) j)
    producer := trivial
    consumer := h.consumer.append }
  · rw [wordAt_store, hx, length_append, length_map]
  · rw [wordAt_store_of_apart (.inr (by rw [length_u32]))]
    exact h.ci
  · have hroom := h.room
    rw [Producer.msgs, append_nil] at hroom
    rw [length_append, length_map]
    exact hroom
  · have hm : (posted ++ done.map Message.bytes ++ [])[j]? = some m := hm
    rwa [append_nil] at hm

/-! ## The consumer -/

variable {maxBufSize : UInt32} {got : List (List UInt8)}

theorem setConsumer {c' : Consumer} (h : RingInv opt d mem p c posted delivered)
    (hc : c'.Ok posted delivered.length) : RingInv opt d mem p c' posted delivered :=
  { h with consumer := hc }

/-- **The messages are taken.** -/
theorem take (h : RingInv opt d mem p (.checking single maxBufSize 0 got) posted delivered)
    (hfits : opt.Fits) (hx : x.toNat = (delivered.length + got.length) % opt.n d) :
    RingInv opt d (store mem (opt.hdr d + 4) (u32 x)) p .idle posted (delivered ++ got) := by
  obtain ⟨hgot, hle, -⟩ := h.consumer
  have hroom := h.room
  have hslot := store_hdr mem (x := x) hfits (.inr (Eq.refl (opt.hdr d + 4)))
  refine {
    pi := ?_
    ci := ?_
    took := ?_
    room := ?_
    slots := fun j m hj hm => (h.slots j m ?_ hm).congr (hslot j)
    producer := h.producer.congr hslot
    consumer := trivial }
  · rw [wordAt_store_of_apart (.inl le_rfl)]
    exact h.pi
  · rw [wordAt_store, hx, length_append]
  · obtain ⟨rest, rfl⟩ := h.took
    rw [drop_left] at hgot
    exact (prefix_append_right_inj _).mpr (hgot ▸ take_prefix _ _)
  · rw [length_append]
    omega
  · rw [length_append] at hj
    omega

end RingInv

end Umq.MsgRing
