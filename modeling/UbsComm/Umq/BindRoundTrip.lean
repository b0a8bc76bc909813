import UbsComm.Umq.BindSerialize

/-!
# The bind info, there and back

What `umqUbBindInfoSerialize` writes, `bindInfoDeserialize` reads
(`bindInfo_roundTrip`): the reader finds the four structures, whose members have
the values that were written, and the namespace, which is as long as it was.

An element is written by one function that sees only what is left of the buffer.
`Emitted` has what this function does: it writes nothing before the element, so
that the elements written already stay as they are, and returns the length that
stands in the head.
-/

namespace Umq

open Memory Packing StructLayout Nat List Prod UInt32

/-! ## Heads -/

/-- The head of an element. -/
structure HeadAt (mem : ℕ → UInt8) (head : ℕ) (type : UInt32) (len : ℕ) : Prop where
  type : wordAt mem head = type
  len : (wordAt mem (head + 4)).toNat = len

section Heads

variable {mem mem' : ℕ → UInt8} {buf x len : ℕ} {type len' : UInt32}

theorem HeadAt.congr (h : HeadAt mem buf type len)
    (hmem : ∀ i < 8, mem' (buf + i) = mem (buf + i)) : HeadAt mem' buf type len := by
  have htype : wordAt mem' buf = wordAt mem buf := wordAt_congr fun i hi => hmem i (by omega)
  have hlen : wordAt mem' (buf + 4) = wordAt mem (buf + 4) := by
    refine wordAt_congr fun i hi => ?_
    rw [add_assoc]
    exact hmem (4 + i) (by omega)
  exact ⟨htype.trans h.type, hlen ▸ h.len⟩

theorem storeHead_of_outside (h : x < buf ∨ buf + 8 ≤ x) :
    storeHead mem buf type len' x = mem x := by
  have hlen := length_u32 type
  have hlen' := length_u32 len'
  rw [storeHead, store_of_outside (by omega), store_of_outside (by omega)]

theorem headAt_storeHead : HeadAt (storeHead mem buf type len') buf type len'.toNat := by
  refine ⟨?_, congrArg toNat wordAt_store⟩
  rw [storeHead, wordAt_store_of_apart (.inl le_rfl), wordAt_store]

end Heads

/-! ## Writing an element -/

/-- **An element was written**: its head has its type and the length of its value,
it lies in what was left of the buffer, and nothing outside has changed. -/
structure Emitted (mem : ℕ → UInt8) (buf left : ℕ) (type : UInt32) (len : ℕ)
    (r : (ℕ → UInt8) × UInt32) : Prop where
  total : r.2.toNat = 8 + len
  fits : 8 + len ≤ left
  head : HeadAt r.1 buf type len
  frame : ∀ x, x < buf ∨ buf + left ≤ x → r.1 x = mem x

variable {link : Readlink} {n : UInt32}

section Write

variable {structs : BindStructs} {mem : ℕ → UInt8} {buf : ℕ} {left type : UInt32}

theorem toNat_tlvTotalLen_ofNat {n : ℕ} (h : n + 8 < 2 ^ 32) :
    (tlvTotalLen (ofNat n)).toNat = 8 + n := by
  have hn : (ofNat n).toNat = n := by exact mod_eq_of_lt (by omega)
  rw [toNat_tlvTotalLen, hn]
  rw [le_iff_toNat_le, hn]
  show n ≤ 4294967287
  omega

theorem serializeStruct_spec {F : Type} {size : F → ℕ} {L : StructLayout size}
    {vals : List (F × List UInt8)} (hvals : StructLayout.Valued size vals)
    (hsmall : L.sizeof + 8 < 2 ^ 32) :
    let r := serializeStruct L type vals mem buf left
    r.2 ≠ 0 → Emitted mem buf left.toNat type L.sizeof r ∧ L.Holds r.1 (buf + 8) vals := by
  rw [serializeStruct]
  intro r hne
  dsimp only [r] at hne ⊢
  split at hne
  case isTrue => exact absurd rfl hne
  case isFalse hroom =>
    rw [if_neg hroom]
    have hhead : sizeofTlvHead.toNat = 8 := rfl
    have hn : (ofNat L.sizeof).toNat = L.sizeof := by
      rw [toNat_ofNat']
      exact mod_eq_of_lt (by omega)
    have hstored := @headAt_storeHead (L.storeMembers (buf + 8) mem vals) buf type (ofNat L.sizeof)
    rw [hn] at hstored
    refine ⟨⟨toNat_tlvTotalLen_ofNat hsmall, by omega, hstored, fun x hx => ?_⟩, ?_⟩
    · refine (storeHead_of_outside (by omega)).trans (storeMembers_of_outside hvals ?_)
      omega
    · have hholds : L.Holds (L.storeMembers (buf + 8) mem vals) (buf + 8) vals :=
        holds_storeMembers hvals
      exact hholds.congr fun v _ i hi => storeHead_of_outside (by omega)

/-- **The namespace was written**, with the null byte at its end. -/
structure NamespaceAt (structs : BindStructs) (mem : ℕ → UInt8) (value : ℕ)
    (path : NamespaceString) : Prop where
  chars : bytes mem (value + structs.bindNamespaceAt) (path.chars.length + 1) = path.chars ++ [0]

theorem NamespaceAt.congr {mem' : ℕ → UInt8} {value : ℕ} {path : NamespaceString}
    (h : NamespaceAt structs mem value path)
    (hmem : ∀ i < path.chars.length + 1, mem' (value + structs.bindNamespaceAt + i) =
      mem (value + structs.bindNamespaceAt + i)) : NamespaceAt structs mem' value path :=
  ⟨(bytes_congr hmem).trans h.chars⟩

theorem umqUbGetNamespace_spec {at' size ret : ℕ} {r}
    (hr : umqUbGetNamespace link mem at' size = r) (h : r.2 = some ret) :
    ∃ path, link.chars = some path ∧ ret = path.chars.length + 1 ∧
      bytes r.1 at' (path.chars.length + 1) = path.chars ++ [0] ∧
      ∀ x, x < at' ∨ at' + size ≤ x → r.1 x = mem x := by
  subst hr
  rw [umqUbGetNamespace] at h ⊢
  cases hlink : link.chars with
  | none =>
    rw [hlink] at h
    cases h
  | some path =>
    rw [hlink] at h
    dsimp only at h ⊢
    split at h
    case isTrue => cases h
    case isFalse hroom =>
      have hlen : (path.chars ++ [(0 : UInt8)]).length = path.chars.length + 1 := length_append
      rw [if_neg hroom]
      refine ⟨path, rfl, (Option.some.inj h).symm.trans hlen, ?_, fun x hx => ?_⟩
      · rw [bytes_store_of_apart (.inl (by omega)), ← hlen, bytes_store]
      · have hclean := length_replicate (n := size - (path.chars ++ [(0 : UInt8)]).length)
          (a := (0 : UInt8))
        exact (store_of_outside (by omega)).trans (store_of_outside (by omega))

theorem alignLen_spec {n : ℕ} (h : n ≤ 256) :
    n ≤ (alignLen n).toNat ∧ (alignLen n).toNat ≤ 256 ∧ (alignLen n).toNat % 4 = 0 := by
  have hall : ∀ n : Fin 257, n.val ≤ (alignLen n.val).toNat ∧ (alignLen n.val).toNat ≤ 256 ∧
      (alignLen n.val).toNat % 4 = 0 := by decide +kernel
  exact hall ⟨n, lt_succ_of_le h⟩

theorem versionValued : StructLayout.Valued VersionMember.size versionMembers :=
  ⟨by simp [versionMembers, VersionMember.size, length_u32], by simp [versionMembers]⟩

theorem UbDev.valued (dev : UbDev structs) :
    StructLayout.Valued (DevMember.size structs.sizeofTargetSeg) dev.members :=
  ⟨by simp [UbDev.members, DevMember.size, length_u32], by simp [UbDev.members]⟩

theorem UbQueue.valued (queue : UbQueue structs) :
    StructLayout.Valued (QueueMember.size structs.sizeofJettyId) queue.members :=
  ⟨by simp [UbQueue.members, QueueMember.size, length_u32, length_u64], by simp [UbQueue.members]⟩

theorem UbQueue.fcValued (queue : UbQueue structs) :
    StructLayout.Valued (FcMember.size structs.sizeofJettyId) queue.fcMembers := by
  rw [UbQueue.fcMembers]
  cases queue.fcEnabled with
  | true | false => exact ⟨by simp [FcMember.size, length_u32, length_u64], by simp⟩

/-- The members of the device info with the length of the namespace. -/
def UbDev.allMembers (dev : UbDev structs) (path : NamespaceString) :
    List (DevMember × List UInt8) :=
  dev.members ++ [(.namespaceLen, u32 (alignLen (path.chars.length + 1)))]

theorem umqUbDevInfoSerialize_spec {dev : UbDev structs} {r : (ℕ → UInt8) × UInt32}
    (hr : r = umqUbDevInfoSerialize structs dev link mem buf left) (hne : r.2 ≠ 0) :
    ∃ path, link.chars = some path ∧ Emitted mem buf left.toNat 0x10001
        (structs.devInfo.sizeof + (alignLen (path.chars.length + 1)).toNat) r ∧
      structs.devInfo.Holds r.1 (buf + 8) (dev.allMembers path) ∧
      NamespaceAt structs r.1 (buf + 8) path := by
  have hsmall := structs.small
  have hnsize : umqUbNamespaceSize = 256 := rfl
  have hhead : sizeofTlvHead.toNat = 8 := rfl
  rw [umqUbDevInfoSerialize] at hr
  split at hr
  case isTrue => exact absurd (congrArg snd hr) hne
  case isFalse hroom =>
    dsimp only at hr
    rw [hhead, hnsize] at hr
    split at hr
    case h_1 => exact absurd (congrArg snd hr) hne
    case h_2 ret hret =>
      subst hr
      obtain ⟨path, hpath, rfl, hchars, hframe⟩ := umqUbGetNamespace_spec rfl hret
      generalize hmem₂ : (umqUbGetNamespace link (structs.devInfo.storeMembers (buf + 8) mem
        dev.members) (buf + 8 + structs.bindNamespaceAt) 256).1 = mem₂ at hchars hframe ⊢
      obtain ⟨hle, hmax, -⟩ := alignLen_spec (n := path.chars.length + 1)
        (succ_le_succ path.length_le)
      have hns : StructLayout.Valued (DevMember.size structs.sizeofTargetSeg)
          [(.namespaceLen, u32 (alignLen (path.chars.length + 1)))] :=
        ⟨by simp [DevMember.size, length_u32], pairwise_singleton _ _⟩
      generalize hlen : ofNat structs.devInfo.sizeof + alignLen (path.chars.length + 1) = len
      have hlenNat : len.toNat =
          structs.devInfo.sizeof + (alignLen (path.chars.length + 1)).toNat := by
        rw [← hlen, UInt32.toNat_add, toNat_ofNat']
        omega
      have hlast := structs.bindNamespace_last
      have hin := structs.bindNamespace_le
      refine ⟨path, hpath, ⟨?_, by omega, hlenNat ▸ headAt_storeHead, fun x hx => ?_⟩, ?_, ?_⟩
      · rw [← hlenNat]
        refine toNat_tlvTotalLen ?_
        rw [le_iff_toNat_le]
        show _ ≤ 4294967287
        omega
      · refine (storeHead_of_outside (by omega)).trans ?_
        rw [storeMembers_of_outside hns (by omega), hframe x (by omega),
          storeMembers_of_outside dev.valued (by omega)]
      · have hmembers : structs.devInfo.Holds mem₂ (buf + 8) dev.members := by
          have hholds : structs.devInfo.Holds (structs.devInfo.storeMembers (buf + 8) mem
            dev.members) (buf + 8) dev.members := holds_storeMembers dev.valued
          refine hholds.congr fun v _ i hi => hframe _ ?_
          have hv := hlast v.1
          omega
        have hall := hmembers.storeMembers hns (by simp [UbDev.members])
        exact hall.congr fun v _ i hi => storeHead_of_outside (by omega)
      · have hwritten : NamespaceAt structs mem₂ (buf + 8) path := ⟨hchars⟩
        refine hwritten.congr fun i hi => (storeHead_of_outside (by omega)).trans ?_
        refine store_of_outside (.inr ?_)
        have hv := hlast .namespaceLen
        show buf + 8 + structs.devInfo.offset .namespaceLen + 4 ≤ _
        change structs.devInfo.offset .namespaceLen + 4 ≤ _ at hv
        omega

end Write

/-! ## Reading the elements -/

section Read

variable {layout : BindLayout} {mem : ℕ → UInt8} {head left len : ℕ} {leftInfoSize : UInt32}
  {α β : Type}
  {info info' info'' : BindInfo} {w : UInt32}

/-- The value of a program, and the structure that it leaves. -/
def Yields (m : BindReader α) (info : BindInfo) (a : α) (info' : BindInfo) : Prop :=
  (m info).1 = a ∧ (m info).2.1 = info'

theorem Yields.bind {m : BindReader α} {f : α → BindReader β} {a : α} {b : β}
    (hm : Yields m info a info') (hf : Yields (f a) info' b info'') :
    Yields (m >>= f) info b info'' := by
  obtain ⟨rfl, rfl⟩ := hm
  exact hf

theorem Yields.pure {a : α} : Yields (Pure.pure a) info a info := ⟨rfl, rfl⟩

theorem Yields.readWord {a : ℕ} : Yields (readWord mem a) info (wordAt mem a) info := ⟨rfl, rfl⟩

theorem Yields.bindMember {size : ℕ} {set : BindInfo → BindInfo} (h : size ≤ w.toNat) :
    Yields (bindMember size w set) info true (set info) := by
  rw [Umq.bindMember, if_neg (not_lt.mpr h)]
  exact ⟨rfl, rfl⟩

/-- The elements from a head on, which fill so many bytes, and what they do to the
structure. -/
inductive Reads (layout : BindLayout) (mem : ℕ → UInt8) : ℕ → ℕ → BindInfo → BindInfo → Prop
  | last {head len : ℕ} {info info' : BindInfo} (hlen : (wordAt mem (head + 4)).toNat = len)
      (helem : Yields (bindElement layout mem head (wordAt mem (head + 4))) info true info') :
      Reads layout mem head (8 + len) info info'
  | next {head len left : ℕ} {info info' info'' : BindInfo}
      (hlen : (wordAt mem (head + 4)).toNat = len)
      (helem : Yields (bindElement layout mem head (wordAt mem (head + 4))) info true info')
      (hleft : 8 ≤ left) (hrest : Reads layout mem (head + (8 + len)) left info' info'') :
      Reads layout mem head (8 + len + left) info info''

theorem Reads.first (h : Reads layout mem head left info info') :
    8 + (wordAt mem (head + 4)).toNat ≤ left := by
  cases h with
  | last hlen => rw [hlen]
  | next hlen =>
    rw [hlen]
    exact le_add_right _ _

theorem le_tlvLenMax (h : 8 + w.toNat ≤ leftInfoSize.toNat) :
    w ≤ tlvLenMax := by
  have hlt := leftInfoSize.toNat_lt
  rw [le_iff_toNat_le]
  show _ ≤ 4294967287
  omega

theorem toNat_left (h : 8 + w.toNat ≤ leftInfoSize.toNat) :
    tlvTotalLen w ≤ leftInfoSize ∧ (leftInfoSize - tlvTotalLen w).toNat =
      leftInfoSize.toNat - (8 + w.toNat) := by
  have htotal : (tlvTotalLen w).toNat = 8 + w.toNat := toNat_tlvTotalLen (le_tlvLenMax h)
  have hle : tlvTotalLen w ≤ leftInfoSize := by
    rw [le_iff_toNat_le, htotal]
    exact h
  exact ⟨hle, by rw [UInt32.toNat_sub_of_le _ _ hle, htotal]⟩

theorem bindLoop_of_reads (h : Reads layout mem head left info info') {rounds : ℕ}
    (hleft : leftInfoSize.toNat = left) (hrounds : left < rounds) :
    Yields (bindLoop layout mem rounds head (wordAt mem (head + 4)) leftInfoSize) info
      (some true) info' := by
  induction h generalizing rounds leftInfoSize with
  | @last head len info info' hlen helem =>
    obtain ⟨rounds, rfl⟩ := exists_eq_add_one_of_ne_zero (ne_zero_of_lt hrounds)
    generalize wordAt mem (head + 4) = w at hlen helem ⊢
    have hroom : 8 + w.toNat ≤ leftInfoSize.toNat := by omega
    obtain ⟨hle, hsub⟩ := toNat_left hroom
    have hend : leftInfoSize - tlvTotalLen w < sizeofTlvHead := by
      rw [lt_iff_toNat_lt]
      show _ < 8
      omega
    rw [bindLoop, if_pos hle]
    refine helem.bind ?_
    rw [if_pos hend]
    exact .pure
  | @next head len left info info' info'' hlen helem hmore hrest ih =>
    obtain ⟨rounds, rfl⟩ := exists_eq_add_one_of_ne_zero (ne_zero_of_lt hrounds)
    generalize wordAt mem (head + 4) = w at hlen helem ⊢
    have hroom : 8 + w.toNat ≤ leftInfoSize.toNat := by omega
    obtain ⟨hle, hsub⟩ := toNat_left hroom
    have hrest' : (leftInfoSize - tlvTotalLen w).toNat = left := by omega
    have hgo : ¬ leftInfoSize - tlvTotalLen w < sizeofTlvHead := by
      rw [lt_iff_toNat_lt]
      show ¬ _ < 8
      omega
    have hhead : head + sizeofTlvHead.toNat + w.toNat = head + (8 + len) := by
      rw [hlen, add_assoc]
      rfl
    have hloop := @ih _ rounds hrest' (by omega)
    rw [bindLoop, if_pos hle]
    refine helem.bind ?_
    rw [if_neg hgo, hhead]
    refine Yields.readWord.bind ?_
    rw [if_neg (UInt32.not_lt.mpr (le_tlvLenMax (hrest' ▸ hrest.first)))]
    exact hloop

theorem bindInfoDeserialize_of_reads (h : Reads layout mem 0 n.toNat info info') :
    Yields (bindInfoDeserialize layout mem n) info (some true) info' := by
  have hfirst := h.first
  have hsize : ¬ n < sizeofTlvHead := by
    rw [lt_iff_toNat_lt]
    show ¬ _ < 8
    omega
  rw [bindInfoDeserialize, if_neg hsize]
  refine Yields.readWord.bind ?_
  rw [if_neg (UInt32.not_lt.mpr (le_tlvLenMax hfirst))]
  exact bindLoop_of_reads h rfl (lt_succ_self _)

/-! ## Reading one element -/

theorem HeadAt.read {type : UInt32} {reader : UInt32 → BindReader Bool}
    (h : HeadAt mem head type len)
    (hr : Yields (reader type) info true info') :
    Yields (readWord mem head >>= reader) info true info' :=
  Yields.readWord.bind (h.type.symm ▸ hr)

theorem HeadAt.readDev (h : HeadAt mem head 0x10001 (layout.sizeofDevInfo + n.toNat))
    (hn : wordAt mem (head + 8 + layout.namespaceLenAt) = n)
    (hstr : strnlenAt mem (head + 8 + layout.bindNamespaceAt) n.toNat < n.toNat) :
    Yields (bindElement layout mem head (wordAt mem (head + 4))) info true
      { info with devInfo := some (head + 8) } := by
  refine h.read ?_
  refine (Yields.bindMember (h.len.ge.trans' (le_add_right _ _))).bind ?_
  refine Yields.readWord.bind ?_
  have hhead : head + sizeofTlvHead.toNat = head + 8 := rfl
  rw [hhead, hn, if_neg (Decidable.not_not.mpr h.len)]
  refine ⟨?_, rfl⟩
  exact decide_eq_true hstr.ne

theorem strnlenAt_of_bytes {chars : List UInt8} {a n : ℕ} (hnull : 0 ∉ chars)
    (hbytes : bytes mem a (chars.length + 1) = chars ++ [0]) (hn : chars.length < n) :
    strnlenAt mem a n = chars.length := by
  obtain ⟨n, rfl⟩ := exists_eq_add_one_of_ne_zero (ne_zero_of_lt hn)
  induction chars generalizing a n with
  | nil =>
    have hzero : mem a = 0 := head_eq_of_cons_eq hbytes
    rw [strnlenAt, if_pos hzero]
    rfl
  | cons c chars ih =>
    obtain ⟨hc, hnull⟩ := not_or.mp (mt mem_cons.mpr hnull)
    rw [add_comm, bytes_add] at hbytes
    obtain ⟨hfirst, hrest⟩ := cons_eq_cons.mp hbytes
    obtain ⟨n, rfl⟩ := exists_eq_add_one_of_ne_zero (ne_zero_of_lt (lt_of_succ_lt_succ hn))
    have hne : mem a ≠ 0 := fun hzero => hc (hzero.symm.trans hfirst)
    rw [strnlenAt, if_neg hne, ih hnull hrest n (lt_of_succ_lt_succ hn), length_cons]

end Read

/-! ## There and back -/

section Expected

variable {structs : BindStructs}

/-- What is to be found in the members of the version info, … -/
def expectedVersion : VersionMember → List UInt8
  | .version => u32 0

/-- … of the device info, … -/
def UbDev.expected (dev : UbDev structs) (path : NamespaceString) : DevMember → List UInt8
  | .umqTransMode => u32 dev.transMode
  | .tseg => dev.tseg.toList
  | .bufPoolMode => u32 dev.bufPoolMode
  | .feature => u32 dev.feature
  | .pid => u32 dev.pid
  | .namespaceLen => u32 (alignLen (path.chars.length + 1))

/-- … of the queue info, except `policy`, which is not written, … -/
def UbQueue.expected (queue : UbQueue structs) : QueueMember → List UInt8
  | .isBinded => [if queue.bound then 1 else 0]
  | .policy => []
  | .jettyId => queue.io.jettyId.toList
  | .orderType => u32 queue.orderType
  | .type => u32 structs.urmaJetty
  | .tpMode => u32 queue.tpMode
  | .tpType => u32 queue.tpType
  | .token => u32 queue.io.token
  | .notifyBuf => u64 queue.notifyData
  | .rxDepth => u32 queue.rxDepth
  | .txDepth => u32 queue.txDepth
  | .rxBufSize => u32 queue.rxBufSize
  | .state => u32 queue.state

/-- … and of the flow control info, which is zero without flow control. -/
def UbQueue.expectedFc (queue : UbQueue structs) : FcMember → List UInt8
  | .jettyId =>
    if queue.fcEnabled then queue.fc.jettyId.toList else List.replicate structs.sizeofJettyId 0
  | .token => u32 (if queue.fcEnabled then queue.fc.token else 0)
  | .winBufAddr => u64 (if queue.fcEnabled then queue.notifyData + 64 else 0)
  | .winBufLen => u32 (if queue.fcEnabled then 64 else 0)

/-- The members of the structure at an address are as expected. -/
def MembersAt {F : Type} {size : F → ℕ} (L : StructLayout size) (mem : ℕ → UInt8) (p : ℕ)
    (expected : F → List UInt8) (written : F → Prop := fun _ => True) : Prop :=
  ∀ m, written m → bytes mem (p + L.offset m) (size m) = expected m

end Expected

/-- **What the reader finds**: the structures with the values that were written, and
the namespace, whose length is a multiple of four. -/
structure RoundTrip (structs : BindStructs) (queue : UbQueue structs) (path : NamespaceString)
    (mem : ℕ → UInt8) (info : BindInfo) : Prop where
  versionInfo : ∃ p ∈ info.versionInfo, MembersAt structs.versionInfo mem p expectedVersion
  devInfo : ∃ p ∈ info.devInfo, MembersAt structs.devInfo mem p (queue.dev.expected path)
  namespaceStr : ∃ p ∈ info.devInfo, NamespaceAt structs mem p path ∧
    ∃ namespaceLen, wordAt mem (p + structs.devInfo.offset .namespaceLen) = namespaceLen ∧
      namespaceLen.toNat % 4 = 0 ∧ namespaceLen.toNat ≤ 256 ∧
      strnlenAt mem (p + structs.bindNamespaceAt) namespaceLen.toNat = path.chars.length
  queueInfo : ∃ p ∈ info.queueInfo,
    MembersAt structs.queueInfo mem p queue.expected (· ≠ .policy)
  fcInfo : ∃ p ∈ info.fcInfo, MembersAt structs.fcInfo mem p queue.expectedFc

section RoundTrip

variable (structs : BindStructs) (path : NamespaceString)

/-- The length of the namespace as it is written. -/
def namespaceLenOf : UInt32 := alignLen (path.chars.length + 1)

/-- The heads of the elements after the first, and the end of the last. -/
def devHead : ℕ := 8 + structs.versionInfo.sizeof

/-- Where the element of the queue begins. -/
def queueHead : ℕ := devHead structs + (8 + (structs.devInfo.sizeof + (namespaceLenOf path).toNat))

/-- Where that of the flow control begins. -/
def fcHead : ℕ := queueHead structs path + (8 + structs.queueInfo.sizeof)

/-- Where the elements end. -/
def bindEnd : ℕ := fcHead structs path + (8 + structs.fcInfo.sizeof)

/-- The elements in the memory. -/
structure Written (queue : UbQueue structs) (mem : ℕ → UInt8) : Prop where
  headVersion : HeadAt mem 0 0x10000 structs.versionInfo.sizeof
  versionInfo : structs.versionInfo.Holds mem 8 versionMembers
  headDev : HeadAt mem (devHead structs) 0x10001
    (structs.devInfo.sizeof + (namespaceLenOf path).toNat)
  devInfo : structs.devInfo.Holds mem (devHead structs + 8) (queue.dev.allMembers path)
  namespaceAt : NamespaceAt structs mem (devHead structs + 8) path
  headQueue : HeadAt mem (queueHead structs path) 0x10002 structs.queueInfo.sizeof
  queueInfo : structs.queueInfo.Holds mem (queueHead structs path + 8) queue.members
  headFc : HeadAt mem (fcHead structs path) 0x10003 structs.fcInfo.sizeof
  fcInfo : structs.fcInfo.Holds mem (fcHead structs path + 8) queue.fcMembers

/-- The members of the bind info that the reader sets. -/
def bindInfoOf : BindInfo where
  versionInfo := some 8
  devInfo := some (devHead structs + 8)
  queueInfo := some (queueHead structs path + 8)
  fcInfo := some (fcHead structs path + 8)

variable {structs path} {queue : UbQueue structs} {mem mem' : ℕ → UInt8} {r : (ℕ → UInt8) × UInt32}
  {bindInfoSize : UInt32}

section

variable (h : Written structs path queue mem)
include h

theorem Written.namespaceLen :
    wordAt mem (devHead structs + 8 + structs.devInfo.offset .namespaceLen) = namespaceLenOf path :=
  wordAt_of_bytes (h.devInfo (.namespaceLen, u32 (namespaceLenOf path))
    (mem_append_right _ (mem_singleton_self _)))

theorem Written.strnlen :
    strnlenAt mem (devHead structs + 8 + structs.bindNamespaceAt) (namespaceLenOf path).toNat =
      path.chars.length :=
  strnlenAt_of_bytes path.noNull h.namespaceAt.chars (alignLen_spec (succ_le_succ path.length_le)).1

theorem Written.reads :
    Reads structs.layout mem 0 (bindEnd structs path) {} (bindInfoOf structs path) := by
  have hstr : strnlenAt mem (devHead structs + 8 + structs.layout.bindNamespaceAt)
      (namespaceLenOf path).toNat < (namespaceLenOf path).toNat :=
    h.strnlen ▸ (alignLen_spec (succ_le_succ path.length_le)).1
  have hend : bindEnd structs path = 8 + structs.versionInfo.sizeof +
      (8 + (structs.devInfo.sizeof + (namespaceLenOf path).toNat) +
        (8 + structs.queueInfo.sizeof + (8 + structs.fcInfo.sizeof))) := by
    rw [bindEnd, fcHead, queueHead, devHead]
    omega
  rw [hend]
  refine .next h.headVersion.len (h.headVersion.read (.bindMember h.headVersion.len.ge))
    (by omega) ?_
  rw [zero_add]
  refine .next h.headDev.len (h.headDev.readDev h.namespaceLen hstr) (by omega) ?_
  refine .next h.headQueue.len (h.headQueue.read (.bindMember h.headQueue.len.ge))
    (le_add_right 8 _) ?_
  exact .last h.headFc.len (h.headFc.read (.bindMember h.headFc.len.ge))

theorem Written.roundTrip : RoundTrip structs queue path mem (bindInfoOf structs path) where
  versionInfo := ⟨_, rfl, fun m _ => h.versionInfo (m, expectedVersion m) mem_cons_self⟩
  devInfo := ⟨_, rfl, fun m _ => h.devInfo (m, queue.dev.expected path m) (by
    cases m <;> simp [UbDev.allMembers, UbDev.members, UbDev.expected])⟩
  namespaceStr := by
    obtain ⟨-, hle, hmod⟩ := alignLen_spec (succ_le_succ path.length_le)
    exact ⟨_, rfl, h.namespaceAt, _, h.namespaceLen, hmod, hle, h.strnlen⟩
  queueInfo := ⟨_, rfl, fun m hm => h.queueInfo (m, queue.expected m) (by
    cases m <;> simp [UbQueue.members, UbQueue.expected, UbQueue.notifyBufAddr] at hm ⊢)⟩
  fcInfo := ⟨_, rfl, fun m _ => h.fcInfo (m, queue.expectedFc m) (by
    cases hfc : queue.fcEnabled <;> cases m <;>
      simp [UbQueue.fcMembers, UbQueue.expectedFc, UbQueue.notifyBufAddr, umqUbRwSegmentLen, hfc])⟩

end

/-- One more element: the place of the next one, and what is left for it. -/
theorem toNat_advance {size done : UInt32} (hdone : done.toNat ≤ size.toNat)
    (hn : n.toNat ≤ (size - done).toNat) :
    (done + n).toNat = done.toNat + n.toNat ∧ (done + n).toNat ≤ size.toNat := by
  have hsub := UInt32.toNat_sub_of_le _ _ (le_iff_toNat_le.mpr hdone)
  have hlt := size.toNat_lt
  have hadd : (done + n).toNat = done.toNat + n.toNat := by
    rw [UInt32.toNat_add]
    exact mod_eq_of_lt (by omega)
  exact ⟨hadd, by omega⟩

/-- The structure of an element does not change when nothing up to its end does. -/
theorem holds_of_before {F : Type} {size : F → ℕ} {L : StructLayout size}
    {vals : List (F × List UInt8)} {value bound : ℕ} (h : L.Holds mem value vals)
    (hmem : ∀ x < bound, mem' x = mem x) (hbound : value + L.sizeof ≤ bound) :
    L.Holds mem' value vals := by
  refine h.congr fun v _ i hi => hmem _ ?_
  have hin := L.inside v.1
  omega

section

variable (hr : r = umqUbBindInfoSerialize structs queue link mem bindInfoSize) (h : r.2 ≠ 0)
include hr h

/-- The four elements, one after the other. -/
theorem emitted_umqUbBindInfoSerialize :
    ∃ path v d q f, link.chars = some path ∧ r = (f.1, v.2 + d.2 + q.2 + f.2) ∧
      (Emitted mem 0 bindInfoSize.toNat 0x10000 structs.versionInfo.sizeof v ∧
        structs.versionInfo.Holds v.1 (0 + 8) versionMembers) ∧
      (Emitted v.1 v.2.toNat (bindInfoSize - v.2).toNat 0x10001
          (structs.devInfo.sizeof + (namespaceLenOf path).toNat) d ∧
        structs.devInfo.Holds d.1 (v.2.toNat + 8) (queue.dev.allMembers path) ∧
        NamespaceAt structs d.1 (v.2.toNat + 8) path) ∧
      (Emitted d.1 (v.2 + d.2).toNat (bindInfoSize - (v.2 + d.2)).toNat 0x10002
          structs.queueInfo.sizeof q ∧
        structs.queueInfo.Holds q.1 ((v.2 + d.2).toNat + 8) queue.members) ∧
      Emitted q.1 (v.2 + d.2 + q.2).toNat (bindInfoSize - (v.2 + d.2 + q.2)).toNat 0x10003
          structs.fcInfo.sizeof f ∧
        structs.fcInfo.Holds f.1 ((v.2 + d.2 + q.2).toNat + 8) queue.fcMembers := by
  have hsmall := structs.small
  rw [umqUbBindInfoSerialize] at hr
  dsimp only at hr
  split_ifs at hr with hv hd hq hf
  iterate 4 exact absurd (congrArg snd hr) h
  obtain ⟨path, hpath, hdev⟩ := umqUbDevInfoSerialize_spec rfl hd
  exact ⟨path, _, _, _, _, hpath, hr, serializeStruct_spec versionValued (by omega) hv,
    hdev, serializeStruct_spec queue.valued (by omega) hq,
    serializeStruct_spec queue.fcValued (by omega) hf⟩

theorem written_umqUbBindInfoSerialize :
    ∃ path, link.chars = some path ∧ Written structs path queue r.1 ∧
      r.2.toNat = bindEnd structs path ∧ r.2.toNat ≤ bindInfoSize.toNat := by
  obtain ⟨path, v, d, q, f, hpath, rfl, ⟨hvE, hvH⟩, ⟨hdE, hdH, hdN⟩, ⟨hqE, hqH⟩, hfE, hfH⟩ :=
    emitted_umqUbBindInfoSerialize hr h
  -- where the elements are
  have hvle : v.2.toNat ≤ bindInfoSize.toNat := hvE.total.le.trans hvE.fits
  obtain ⟨hdadd, hdle⟩ := toNat_advance hvle (hdE.total.le.trans hdE.fits)
  obtain ⟨hqadd, hqle⟩ := toNat_advance hdle (hqE.total.le.trans hqE.fits)
  obtain ⟨hfadd, hfle⟩ := toNat_advance hqle (hfE.total.le.trans hfE.fits)
  have hdHead : v.2.toNat = devHead structs := hvE.total
  have hqHead : (v.2 + d.2).toNat = queueHead structs path := by
    rw [hdadd, hdHead, hdE.total, queueHead]
  have hfHead : (v.2 + d.2 + q.2).toNat = fcHead structs path := by
    rw [hqadd, hqHead, hqE.total, fcHead]
  have hend : (v.2 + d.2 + q.2 + f.2).toNat = bindEnd structs path := by
    rw [hfadd, hfHead, hfE.total, bindEnd]
  rw [hfHead] at hfE hfH
  rw [hqHead] at hqE hqH
  rw [hdHead] at hdE hdH hdN
  -- an element is not changed by those after it
  have hq' : ∀ x < fcHead structs path, f.1 x = q.1 x := fun x hx => hfE.frame x (.inl hx)
  have hd' : ∀ x < queueHead structs path, f.1 x = d.1 x := fun x hx =>
    (hq' x (hx.trans_le (le_add_right _ _))).trans (hqE.frame x (.inl hx))
  have hv' : ∀ x < devHead structs, f.1 x = v.1 x := fun x hx =>
    (hd' x (hx.trans_le (le_add_right _ _))).trans (hdE.frame x (.inl hx))
  have hdh : devHead structs = 8 + structs.versionInfo.sizeof := rfl
  have hqh : queueHead structs path =
    devHead structs + (8 + (structs.devInfo.sizeof + (namespaceLenOf path).toNat)) := rfl
  have hfh : fcHead structs path = queueHead structs path + (8 + structs.queueInfo.sizeof) := rfl
  have hns : path.chars.length + 1 ≤ (namespaceLenOf path).toNat :=
    (alignLen_spec (succ_le_succ path.length_le)).1
  have hnsAt := structs.bindNamespace_le
  refine ⟨path, hpath, ?_, hend, hfle⟩
  exact {
    headVersion := hvE.head.congr fun i hi => hv' _ (by omega)
    versionInfo := holds_of_before hvH hv' (by omega)
    headDev := hdE.head.congr fun i hi => hd' _ (by omega)
    devInfo := holds_of_before hdH hd' (by omega)
    namespaceAt := hdN.congr fun i hi => hd' _ (by omega)
    headQueue := hqE.head.congr fun i hi => hq' _ (by omega)
    queueInfo := holds_of_before hqH hq' (by omega)
    headFc := hfE.head
    fcInfo := hfH }

end

end RoundTrip

/-- **What was written is read**: whenever the bind info could be written, it fits in
the buffer, and reading it succeeds and finds what was written. -/
theorem bindInfo_roundTrip (structs : BindStructs) (queue : UbQueue structs) (link : Readlink)
    (mem : ℕ → UInt8) (bindInfoSize : UInt32)
    (h : (umqUbBindInfoSerialize structs queue link mem bindInfoSize).2 ≠ 0) :
    let r := umqUbBindInfoSerialize structs queue link mem bindInfoSize
    r.2.toNat ≤ bindInfoSize.toNat ∧ (bindInfoDeserialize structs.layout r.1 r.2 {}).1 = some true ∧
      ∃ path, link.chars = some path ∧
        RoundTrip structs queue path r.1 (bindInfoDeserialize structs.layout r.1 r.2 {}).2.1 := by
  intro r
  obtain ⟨path, hpath, hwritten, hend, hle⟩ := written_umqUbBindInfoSerialize rfl h
  obtain ⟨hok, hinfo⟩ := bindInfoDeserialize_of_reads (hend ▸ hwritten.reads)
  refine ⟨hle, hok, path, hpath, ?_⟩
  rw [hinfo]
  exact hwritten.roundTrip

/-- The structures as a compiler may lay them out. -/
def sampleStructs : BindStructs where
  sizeofTargetSeg := 8
  sizeofJettyId := 24
  versionInfo := ⟨4, fun _ => 0, by
    intro f
    cases f
    decide, by
    intro f g hne
    cases f
    cases g
    exact absurd rfl hne⟩
  devInfo := ⟨32, fun
    | .umqTransMode => 0
    | .tseg => 8
    | .bufPoolMode => 16
    | .feature => 20
    | .pid => 24
    | .namespaceLen => 28, by
    intro f
    cases f <;> decide, by
    intro f g
    cases f <;> cases g <;> decide⟩
  queueInfo := ⟨80, fun
    | .isBinded => 0
    | .policy => 4
    | .jettyId => 8
    | .orderType => 32
    | .type => 36
    | .tpMode => 40
    | .tpType => 44
    | .token => 48
    | .notifyBuf => 56
    | .rxDepth => 64
    | .txDepth => 68
    | .rxBufSize => 72
    | .state => 76, by
    intro f
    cases f <;> decide, by
    intro f g
    cases f <;> cases g <;> decide⟩
  fcInfo := ⟨48, fun
    | .jettyId => 0
    | .token => 24
    | .winBufAddr => 32
    | .winBufLen => 40, by
    intro f
    cases f <;> decide, by
    intro f g
    cases f <;> cases g <;> decide⟩
  bindNamespaceAt := 32
  urmaJetty := 1
  bindNamespace_le := by decide
  bindNamespace_last := by
    intro f
    cases f <;> decide
  small := by decide

/-- A queue with flow control. -/
def sampleQueue : UbQueue sampleStructs where
  dev := ⟨1, Vector.replicate 8 7, 0, 3, 4242⟩
  bound := false
  io := ⟨Vector.replicate 24 5, 99⟩
  notifyData := 0x7000
  orderType := 0
  tpMode := 1
  tpType := 2
  rxDepth := 64
  txDepth := 64
  rxBufSize := 8192
  state := 1
  fcEnabled := true
  fc := ⟨Vector.replicate 24 6, 98⟩

/-- The namespace `net`. -/
def sampleLink : Readlink := .target ⟨[110, 101, 116], by decide, by decide⟩

/-- In a buffer of 512 bytes the string and its null byte are the length of the
namespace. -/
theorem bindInfo_roundTrip_sample :
    let r := umqUbBindInfoSerialize sampleStructs sampleQueue sampleLink (fun _ => 0) 512
    r.2 = 200 ∧ (bindInfoDeserialize sampleStructs.layout r.1 r.2 {}).1 = some true ∧
      ∃ path, RoundTrip sampleStructs sampleQueue path r.1
        (bindInfoDeserialize sampleStructs.layout r.1 r.2 {}).2.1 := by
  have hlen : (umqUbBindInfoSerialize sampleStructs sampleQueue sampleLink (fun _ => 0) 512).2
      = 200 := by decide +kernel
  obtain ⟨-, hok, path, -, htrip⟩ := bindInfo_roundTrip sampleStructs sampleQueue sampleLink
    (fun _ => 0) 512 (by rw [hlen]; decide)
  exact ⟨hlen, hok, path, htrip⟩

end Umq
