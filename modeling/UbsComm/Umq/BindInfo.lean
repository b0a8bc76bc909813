import UbsComm.Lib.Record

/-!
# The bind info of a peer

Two queues are bound with what each has said of itself: a buffer of elements,
each with a type, a length and a value. `umq_ub_bind_info_deserialize` goes
over the elements that a peer has sent and lets the members of
`umq_ub_bind_info_t` point at their values, in the buffer.

Everything in the buffer is the peer's choice. The memory from the buffer on
is a function from offsets to bytes, and the model notes each part of it that
is read. A pointer is an offset. The sizes of the structures, which are made
of types of the device library, are parameters.

**Safety** (`bindInfoDeserialize_safe`): whatever the bytes and the size, the
loop ends, no byte outside the buffer is read, and after success each member
that is set points at a structure in the buffer; the namespace of the device
info ends with a null byte, in its element.
-/

namespace Umq

open Nat List UInt32

/-! ## The layout -/

/-- The sizes of the structures, and where two members of
`umq_ub_bind_dev_info_t` are. -/
structure BindLayout where
  sizeofVersionInfo : ℕ
  sizeofDevInfo : ℕ
  namespaceLenAt : ℕ
  bindNamespaceAt : ℕ
  sizeofQueueInfo : ℕ
  sizeofFcInfo : ℕ
  namespaceLen_le : namespaceLenAt + 4 ≤ sizeofDevInfo
  bindNamespace_le : bindNamespaceAt ≤ sizeofDevInfo

/-- The members of `umq_ub_bind_info_t`, null or an offset in the buffer. -/
structure BindInfo where
  versionInfo : Option ℕ := none
  devInfo : Option ℕ := none
  queueInfo : Option ℕ := none
  fcInfo : Option ℕ := none
deriving DecidableEq

/-- `sizeof(urpc_tlv_head_t)`: the type and the length. -/
def sizeofTlvHead : UInt32 := 8

/-- `UINT32_MAX - sizeof(urpc_tlv_head_t)`. -/
def tlvLenMax : UInt32 := 0xFFFFFFFF - sizeofTlvHead

/-- `urpc_tlv_get_total_len`, of an element with a value of this length. -/
def tlvTotalLen (len : UInt32) : UInt32 := sizeofTlvHead + len

/-- `umq_ub_bind_info_type_t`. -/
inductive BindInfoType where
  | version
  | dev
  | queue
  | fc
  | unknown
deriving DecidableEq

/-- The type that a word says. -/
def BindInfoType.ofValue (type : UInt32) : BindInfoType :=
  if type = 0x10000 then .version
  else if type = 0x10001 then .dev
  else if type = 0x10002 then .queue
  else if type = 0x10003 then .fc
  else .unknown

/-! ## Reading -/

section Read

variable (mem : ℕ → UInt8)

/-- The word at an offset. -/
def wordAt (a : ℕ) : UInt32 :=
  .ofNat ((mem a).toNat + 2 ^ 8 * (mem (a + 1)).toNat + 2 ^ 16 * (mem (a + 2)).toNat
    + 2 ^ 24 * (mem (a + 3)).toNat)

/-- A program that fills in a `BindInfo` and notes what it reads: from where,
and how many bytes. -/
abbrev BindReader := Recorded BindInfo (ℕ × ℕ)

/-- A word is read. -/
def readWord (a : ℕ) : BindReader UInt32 := do
  Recorded.note (a, 4)
  return wordAt mem a

/-- `strnlen`, as a number. -/
def strnlenAt (a : ℕ) : ℕ → ℕ
  | 0 => 0
  | n + 1 => if mem a = 0 then 0 else strnlenAt (a + 1) n + 1

/-- `strnlen`: it reads up to the null byte. -/
def strnlen (a maxlen : ℕ) : BindReader ℕ := do
  let len := strnlenAt mem a maxlen
  Recorded.note (a, min (len + 1) maxlen)
  return len

end Read

/-! ## The loop over the elements -/

section Deserialize

variable (layout : BindLayout) (mem : ℕ → UInt8)

/-- The check of a length and the member that is set; whether the element is
accepted. -/
def bindMember (size : ℕ) (len : UInt32) (set : BindInfo → BindInfo) : BindReader Bool :=
  if len.toNat < size then return false
  else do
    Recorded.modify set
    return true

/-- The device info is followed by its namespace. -/
def bindDevInfo (value : ℕ) (len : UInt32) : BindReader Bool := do
  if ¬(← bindMember layout.sizeofDevInfo len fun info => { info with devInfo := some value }) then
    return false
  else
    let namespaceLen ← readWord mem (value + layout.namespaceLenAt)
    if len.toNat ≠ layout.sizeofDevInfo + namespaceLen.toNat then return false
    else
      let n ← strnlen mem (value + layout.bindNamespaceAt) namespaceLen.toNat
      return n ≠ namespaceLen.toNat

/-- The `switch` on the type of an element. -/
def bindElement (head : ℕ) (len : UInt32) : BindReader Bool := do
  let type ← readWord mem head
  let value := head + sizeofTlvHead.toNat
  match BindInfoType.ofValue type with
  | .version =>
    bindMember layout.sizeofVersionInfo len fun info => { info with versionInfo := some value }
  | .dev => bindDevInfo layout mem value len
  | .queue =>
    bindMember layout.sizeofQueueInfo len fun info => { info with queueInfo := some value }
  | .fc => bindMember layout.sizeofFcInfo len fun info => { info with fcInfo := some value }
  | .unknown => return true

/-- The loop, for so many rounds; whether the result is `UMQ_SUCCESS`. -/
def bindLoop : ℕ → ℕ → UInt32 → UInt32 → BindReader (Option Bool)
  | 0, _, _, _ => return none
  | rounds + 1, head, len, leftInfoSize => do
    if leftInfoSize ≥ tlvTotalLen len then
      if ¬(← bindElement layout mem head len) then return some false
      else
        let leftInfoSize := leftInfoSize - tlvTotalLen len
        if leftInfoSize < sizeofTlvHead then return some true
        else
          -- `urpc_tlv_get_next_element`
          let head := head + sizeofTlvHead.toNat + len.toNat
          let len ← readWord mem (head + 4)
          if len > tlvLenMax then return some false
          else bindLoop rounds head len leftInfoSize
    else return some true

/-- `umq_ub_bind_info_deserialize`. -/
def bindInfoDeserialize (bindInfoSize : UInt32) : BindReader (Option Bool) := do
  if bindInfoSize < sizeofTlvHead then return some false
  else
    let len ← readWord mem 4
    if len > tlvLenMax then return some false
    else bindLoop layout mem (bindInfoSize.toNat + 1) 0 len bindInfoSize

end Deserialize

/-! ## What is safe -/

section Safe

variable (layout : BindLayout) (mem : ℕ → UInt8) (size : ℕ)

/-- A structure of this size at a pointer lies in the buffer. -/
def Points (count : ℕ) (p : Option ℕ) : Prop := ∀ a ∈ p, a + count ≤ size

/-- The namespace of a device info ends with a null byte, in the element that
it is in, and the element lies in the buffer. -/
def NamespaceEnds (value : ℕ) : Prop :=
  8 ≤ value ∧ value + (wordAt mem (value - 4)).toNat ≤ size
    ∧ layout.bindNamespaceAt + (wordAt mem (value + layout.namespaceLenAt)).toNat
      ≤ (wordAt mem (value - 4)).toNat
    ∧ ∃ i < (wordAt mem (value + layout.namespaceLenAt)).toNat,
      mem (value + layout.bindNamespaceAt + i) = 0

/-- **The members point into the buffer.** -/
structure BindInfo.Inside (info : BindInfo) : Prop where
  versionInfo : Points size layout.sizeofVersionInfo info.versionInfo
  devInfo : Points size layout.sizeofDevInfo info.devInfo
  queueInfo : Points size layout.sizeofQueueInfo info.queueInfo
  fcInfo : Points size layout.sizeofFcInfo info.fcInfo
  namespaceEnds : ∀ value ∈ info.devInfo, NamespaceEnds layout mem size value

/-- What has been read lies in the buffer. -/
def ReadsInside (reads : List (ℕ × ℕ)) : Prop := ∀ r ∈ reads, r.1 + r.2 ≤ size

end Safe

/-! ## One element -/

section Proofs

variable {layout : BindLayout} {mem : ℕ → UInt8} {size : ℕ} {α β : Type}

/-- From a state that meets `P`, the program reads in the buffer only, and
leaves a result and a state that meet `Q`. -/
def ReadsSafely (size : ℕ) (P : BindInfo → Prop) (m : BindReader α)
    (Q : α → BindInfo → Prop) : Prop :=
  Recorded.Triple (fun _ => False) (fun s l => P s ∧ ReadsInside size l) m
    (fun a s l => Q a s ∧ ReadsInside size l)

namespace ReadsSafely

variable {P : BindInfo → Prop} {m : BindReader α} {f : α → BindReader β}
  {Q Q' : α → BindInfo → Prop} {R : β → BindInfo → Prop}

theorem pure {a : α} (h : ∀ s, P s → Q a s) : ReadsSafely size P (Pure.pure a) Q :=
  Recorded.Triple.pure fun s _ hP => ⟨h s hP.1, hP.2⟩

theorem bind (hm : ReadsSafely size P m Q) (hf : ∀ a, ReadsSafely size (Q a) (f a) R) :
    ReadsSafely size P (m >>= f) R :=
  Recorded.Triple.bind hm hf

theorem ite {c : Prop} [Decidable c] {m m' : BindReader α} (hpos : c → ReadsSafely size P m Q)
    (hneg : ¬c → ReadsSafely size P m' Q) : ReadsSafely size P (if c then m else m') Q :=
  Recorded.Triple.ite hpos hneg

theorem pre {O : BindInfo → Prop} (hm : ReadsSafely size O m Q) (h : ∀ s, P s → O s) :
    ReadsSafely size P m Q :=
  Recorded.Triple.pre hm fun s _ hP => ⟨h s hP.1, hP.2⟩

theorem post (hm : ReadsSafely size P m Q') (h : ∀ a s, Q' a s → Q a s) : ReadsSafely size P m Q :=
  Recorded.Triple.post hm fun a s _ hQ => ⟨h a s hQ.1, hQ.2⟩

/-- What is known of the state does not depend on the state. -/
theorem of_forall {c : Prop} (h : c → ReadsSafely size P m Q) :
    ReadsSafely size (fun s => c ∧ P s) m Q :=
  fun s l hP hbad => h hP.1.1 s l ⟨hP.1.2, hP.2⟩ hbad

end ReadsSafely

variable {P : BindInfo → Prop} {len : UInt32} {head a count : ℕ}

theorem read_safe {v : α} {n : ℕ} (h : a + n ≤ size) :
    ReadsSafely size P (Recorded.note (a, n) >>= fun _ => pure v) (fun w s => w = v ∧ P s) := by
  refine Recorded.Triple.bind (Q := fun _ s l => P s ∧ ReadsInside size l)
    (Recorded.Triple.note fun s l hP _ => ⟨hP.1, ?_⟩)
    fun _ => ReadsSafely.pure fun s hP => ⟨rfl, hP⟩
  exact forall_mem_append.mpr ⟨hP.2, forall_mem_singleton.mpr h⟩

/-- If `strnlen` stops before the end, it has found a null byte. -/
theorem exists_null_of_strnlenAt_ne {n : ℕ} (h : strnlenAt mem a n ≠ n) :
    ∃ i < n, mem (a + i) = 0 := by
  induction n generalizing a with
  | zero => exact absurd rfl h
  | succ n ih =>
    rw [strnlenAt] at h
    by_cases hnull : mem a = 0
    · exact ⟨0, succ_pos n, hnull⟩
    · rw [if_neg hnull] at h
      obtain ⟨i, hi, hnull'⟩ := ih fun heq => h (congrArg (· + 1) heq)
      refine ⟨i + 1, succ_lt_succ hi, ?_⟩
      rwa [Nat.add_comm i 1, ← Nat.add_assoc]

theorem bindMember_safe {set : BindInfo → BindInfo} : ReadsSafely size P (bindMember count len set)
      (fun ok s => ok = true → count ≤ len.toNat ∧ ∃ s₀, P s₀ ∧ s = set s₀) := by
  refine .ite (fun _ => .pure nofun) fun hlen => ?_
  refine Recorded.Triple.bind (Q := fun _ s l => (∃ s₀, P s₀ ∧ s = set s₀) ∧ ReadsInside size l)
    (Recorded.Triple.modify fun s l hP => ⟨⟨s, hP.1, rfl⟩, hP.2⟩) fun _ => ?_
  exact ReadsSafely.pure fun s hs _ => ⟨Nat.not_lt.mp hlen, hs⟩

/-- An element whose value lies in the buffer. -/
structure ElementInside (mem : ℕ → UInt8) (size head : ℕ) (len : UInt32) : Prop where
  inside : head + 8 + len.toNat ≤ size
  len : len = wordAt mem (head + 4)

section

variable (h : ElementInside mem size head len)
include h

theorem ElementInside.points
    (hcount : count ≤ len.toNat) : Points size count (some (head + 8)) := by
  rintro a ⟨⟩
  exact Nat.le_trans (Nat.add_le_add_left hcount _) h.inside

theorem bindDevInfo_safe :
    ReadsSafely size (BindInfo.Inside layout mem size) (bindDevInfo layout mem (head + 8) len)
      (fun ok s => ok = true → s.Inside layout mem size) := by
  have hlayout := layout.namespaceLen_le
  have hlayout' := layout.bindNamespace_le
  have hinside := h.inside
  refine .bind bindMember_safe fun ok => .ite (fun _ => .pure nofun) fun hok => ?_
  have hok : ok = true := by simpa using hok
  refine ReadsSafely.pre (O := fun s => layout.sizeofDevInfo ≤ len.toNat
    ∧ ∃ s₀ : BindInfo, s₀.Inside layout mem size ∧ s = { s₀ with devInfo := some (head + 8) })
    (.of_forall fun hlen => ?_) fun s hs => hs hok
  refine .bind (read_safe (by omega)) fun namespaceLen => .of_forall fun hnamespace => ?_
  subst hnamespace
  refine .ite (fun _ => .pure nofun) fun heq => ?_
  refine .bind (read_safe (by omega)) fun n => .of_forall fun hn => ?_
  refine .pure ?_
  rintro s ⟨s₀, hs₀, rfl⟩ hne
  have hne : n ≠ (wordAt mem (head + 8 + layout.namespaceLenAt)).toNat := of_decide_eq_true hne
  refine { hs₀ with devInfo := h.points hlen, namespaceEnds := ?_ }
  rintro value ⟨⟩
  have hword : wordAt mem (head + 8 - 4) = len := by
    rw [h.len, show head + 8 - 4 = head + 4 by omega]
  refine ⟨by omega, by rw [hword]; exact hinside, by rw [hword]; omega, ?_⟩
  exact exists_null_of_strnlenAt_ne (hn ▸ hne)

theorem bindElement_safe :
    ReadsSafely size (BindInfo.Inside layout mem size) (bindElement layout mem head len)
      (fun ok s => ok = true → s.Inside layout mem size) := by
  have hinside := h.inside
  refine .bind (read_safe (by omega)) fun type => .of_forall fun _ => ?_
  cases BindInfoType.ofValue type with
  | version =>
    refine bindMember_safe.post fun ok s hs hok => ?_
    obtain ⟨hlen, s₀, hs₀, rfl⟩ := hs hok
    exact { hs₀ with versionInfo := h.points hlen }
  | dev => exact bindDevInfo_safe h
  | queue =>
    refine bindMember_safe.post fun ok s hs hok => ?_
    obtain ⟨hlen, s₀, hs₀, rfl⟩ := hs hok
    exact { hs₀ with queueInfo := h.points hlen }
  | fc =>
    refine bindMember_safe.post fun ok s hs hok => ?_
    obtain ⟨hlen, s₀, hs₀, rfl⟩ := hs hok
    exact { hs₀ with fcInfo := h.points hlen }
  | unknown => exact .pure fun s hs _ => hs

end

/-! ## The loop -/

/-- The result of the whole: the loop has ended, and on success the members
point into the buffer. -/
def Ended (layout : BindLayout) (mem : ℕ → UInt8) (size : ℕ) (ok : Option Bool)
    (info : BindInfo) : Prop :=
  ok.isSome ∧ (ok = some true → info.Inside layout mem size)

theorem toNat_tlvTotalLen (h : len ≤ tlvLenMax) : (tlvTotalLen len).toNat = 8 + len.toNat := by
  have hle : len.toNat ≤ 4294967287 := le_iff_toNat_le.mp h
  show (8 + len).toNat = _
  exact mod_eq_of_lt (show 8 + len.toNat < 4294967296 by omega)

theorem bindLoop_safe {rounds : ℕ} {leftInfoSize : UInt32} (hlen : len ≤ tlvLenMax)
    (hword : len = wordAt mem (head + 4)) (hleft : head + leftInfoSize.toNat ≤ size)
    (hrounds : leftInfoSize.toNat < rounds) :
    ReadsSafely size (BindInfo.Inside layout mem size)
      (bindLoop layout mem rounds head len leftInfoSize) (Ended layout mem size) := by
  induction rounds generalizing head len leftInfoSize with
  | zero => cases hrounds
  | succ rounds ih =>
    have htotal := toNat_tlvTotalLen hlen
    refine .ite (fun hmore => ?_) fun _ => .pure fun s hs => ⟨rfl, fun _ => hs⟩
    have hmoreNat := le_iff_toNat_le.mp hmore
    have hsub : (leftInfoSize - tlvTotalLen len).toNat = leftInfoSize.toNat - (8 + len.toNat) := by
      rw [UInt32.toNat_sub_of_le _ _ hmore, htotal]
    refine .bind (bindElement_safe ⟨by omega, hword⟩) fun ok => ?_
    refine .ite (fun _ => .pure fun _ _ => ⟨rfl, nofun⟩) fun hok => ?_
    have hok : ok = true := by simpa using hok
    refine ReadsSafely.pre (O := BindInfo.Inside layout mem size) ?_ fun s hs => hs hok
    refine .ite (fun _ => .pure fun s hs => ⟨rfl, fun _ => hs⟩) fun hleft' => ?_
    -- there is room for one more head
    have hhead : 8 ≤ (leftInfoSize - tlvTotalLen len).toNat :=
      le_iff_toNat_le.mp (UInt32.not_lt.mp hleft')
    have hnext : sizeofTlvHead.toNat = 8 := rfl
    refine .bind (read_safe (by omega)) fun len' => .of_forall fun hword' => ?_
    refine .ite (fun _ => .pure fun _ _ => ⟨rfl, nofun⟩) fun hlen' => ?_
    exact ih (UInt32.not_lt.mp hlen') hword' (by omega) (by omega)

theorem bindInfoDeserialize_readsSafely (layout : BindLayout) (mem : ℕ → UInt8)
    (bindInfoSize : UInt32) :
    ReadsSafely bindInfoSize.toNat (BindInfo.Inside layout mem bindInfoSize.toNat)
      (bindInfoDeserialize layout mem bindInfoSize)
      (Ended layout mem bindInfoSize.toNat) := by
  refine .ite (fun _ => .pure fun _ _ => ⟨rfl, nofun⟩) fun hsize => ?_
  have hsize : 8 ≤ bindInfoSize.toNat := le_iff_toNat_le.mp (UInt32.not_lt.mp hsize)
  refine .bind (read_safe (by omega)) fun len => .of_forall fun hword => ?_
  refine .ite (fun _ => .pure fun _ _ => ⟨rfl, nofun⟩) fun hlen => ?_
  exact bindLoop_safe (UInt32.not_lt.mp hlen) hword (by omega) (lt_succ_self _)

end Proofs

/-- **Whatever the peer has sent, the deserialization ends, reads no byte
outside the buffer, and after success all members that are set point into
it.** -/
theorem bindInfoDeserialize_safe (layout : BindLayout) (mem : ℕ → UInt8) (bindInfoSize : UInt32) :
    (bindInfoDeserialize layout mem bindInfoSize {}).1.isSome
      ∧ ReadsInside bindInfoSize.toNat (bindInfoDeserialize layout mem bindInfoSize {}).2.2
      ∧ ((bindInfoDeserialize layout mem bindInfoSize {}).1 = some true →
        (bindInfoDeserialize layout mem bindInfoSize {}).2.1.Inside layout mem
          bindInfoSize.toNat) := by
  obtain ⟨⟨hsome, hinside⟩, hreads⟩ := bindInfoDeserialize_readsSafely layout mem bindInfoSize {} []
    ⟨⟨nofun, nofun, nofun, nofun, nofun⟩, nofun⟩ fun _ _ => id
  exact ⟨hsome, hreads, hinside⟩

end Umq
