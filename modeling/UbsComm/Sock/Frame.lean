import UbsComm.Lib.Bytes

/-!
# Frames of the socket transport

What two sockets exchange is a sequence of frames: a header of 28 bytes,
`SockTransHeader`, sent as it lies in memory, and then `dataLength` bytes
of body – except for the acknowledgement of a write, which is its header
alone. The low byte of `flags` says what the frame is.

The body of a one-sided request begins with scatter elements
(`UBSHcomNetTransSgeIov`, packed to 52 bytes), alone or preceded by their
number.
-/

namespace Sock

/-! ## Result codes -/

/-- `SResult`. -/
abbrev SResult := Int32

/-- `SS_OK` -/
def ssOk : SResult := 0
/-- `SS_ERROR` -/
def ssError : SResult := 400
/-- `SS_PARAM_INVALID` -/
def ssParamInvalid : SResult := 401
/-- `SS_SOCK_SEND_EAGAIN` -/
def ssSockSendEagain : SResult := 414
/-- `SS_CTX_FULL` -/
def ssCtxFull : SResult := 416
/-- `NN_INVALID_PARAM` -/
def nnInvalidParam : SResult := 103
/-- `NN_INVALID_LKEY` -/
def nnInvalidLkey : SResult := 120

/-- The values of `errno` the transport tells apart. -/
inductive Errno where
  | success
  | eagain
  | econnreset
  | other
deriving DecidableEq

/-! ## Headers -/

/-- `UBSHcomNetTransHeader`. The signed members are kept as bit patterns,
and the type of the service header is a number on the wire, whatever it may
be. -/
structure SockTransHeader where
  headerCrc : UInt32 := 0
  opCode : UInt16 := 0
  flags : UInt16 := 0
  seqNo : UInt32 := 0
  timeout : UInt16 := 0
  errorCode : UInt16 := 0
  dataLength : UInt32 := 0
  immData : UInt32 := 0
  extHeaderType : UInt32 := 0
deriving DecidableEq

/-- `sizeof(SockTransHeader)`. -/
def sizeofHeader : ℕ := 28

namespace SockTransHeader

/-- The header as it lies in memory. -/
def encode (h : SockTransHeader) : List UInt8 :=
  leBytes 4 h.headerCrc.toNat ++ (leBytes 2 h.opCode.toNat
    ++ (leBytes 2 h.flags.toNat ++ (leBytes 4 h.seqNo.toNat
    ++ (leBytes 2 h.timeout.toNat ++ (leBytes 2 h.errorCode.toNat
    ++ (leBytes 4 h.dataLength.toNat ++ (leBytes 4 h.immData.toNat
    ++ (leBytes 4 h.extHeaderType.toNat ++ []))))))))

/-- The header that lies in 28 bytes of memory. -/
def decode (bytes : List UInt8) : SockTransHeader where
  headerCrc := .ofNat (leField bytes 0 4)
  opCode := .ofNat (leField bytes 4 2)
  flags := .ofNat (leField bytes 6 2)
  seqNo := .ofNat (leField bytes 8 4)
  timeout := .ofNat (leField bytes 12 2)
  errorCode := .ofNat (leField bytes 14 2)
  dataLength := .ofNat (leField bytes 16 4)
  immData := .ofNat (leField bytes 20 4)
  extHeaderType := .ofNat (leField bytes 24 4)

@[simp] theorem length_encode (h : SockTransHeader) :
    h.encode.length = sizeofHeader := by
  simp [encode, sizeofHeader]

/-- **A header is read as it was written.** -/
@[simp] theorem decode_encode (h : SockTransHeader) :
    SockTransHeader.decode h.encode = h := by
  -- the offset of a field is the sum of the widths before it
  have hskip : ∀ (v n : ℕ) (rest : List UInt8) (k w : ℕ), v ≤ k →
      leField (leBytes v n ++ rest) k w = leField rest (k - v) w := by
    intro v n rest k w hvk
    obtain ⟨off, rfl⟩ := Nat.exists_eq_add_of_le hvk
    rw [leField_append_right, Nat.add_sub_cancel_left]
  have h32 : ∀ x : UInt32, UInt32.ofNat (x.toNat % 256 ^ 4) = x := fun x => by
    rw [Nat.mod_eq_of_lt (show x.toNat < 256 ^ 4 from x.toNat_lt), UInt32.ofNat_toNat]
  have h16 : ∀ x : UInt16, UInt16.ofNat (x.toNat % 256 ^ 2) = x := fun x => by
    rw [Nat.mod_eq_of_lt (show x.toNat < 256 ^ 2 from x.toNat_lt), UInt16.ofNat_toNat]
  simp only [decode, encode, hskip, leField_append_left, h32, h16, Nat.reduceLeDiff, Nat.reduceSub]

end SockTransHeader

/-! ## What a frame is -/

/-- The values of the low byte of `flags` (`NTH_TWO_SIDE` and so on). -/
inductive FrameKind where
  | twoSide
  | twoSideSgl
  | replyRequired
  | read
  | readAck
  | write
  | writeAck
  | readSgl
  | readSglAck
  | writeSgl
  | writeSglAck
deriving DecidableEq

/-- The kind a number stands for. -/
def FrameKind.ofNat? : ℕ → Option FrameKind
  | 0 => some .twoSide
  | 1 => some .twoSideSgl
  | 2 => some .replyRequired
  | 3 => some .read
  | 4 => some .readAck
  | 5 => some .write
  | 6 => some .writeAck
  | 7 => some .readSgl
  | 8 => some .readSglAck
  | 9 => some .writeSgl
  | 10 => some .writeSglAck
  | _ => none

/-- The kind in the low byte of the flags; the upper byte is the user's. -/
def SockTransHeader.kind (h : SockTransHeader) : Option FrameKind :=
  FrameKind.ofNat? (h.flags &&& 0xff).toNat

/-- `UBSHcomNetTransSgeIov`. -/
structure TransSgeIov where
  lAddress : UInt64 := 0
  rAddress : UInt64 := 0
  lKey : UInt64 := 0
  rKey : UInt64 := 0
  size : UInt32 := 0
  srcSeg : UInt64 := 0
  dstSeg : UInt64 := 0
deriving DecidableEq

/-- `sizeof(UBSHcomNetTransSgeIov)`; the structure is packed. -/
def sizeofIov : ℕ := 52

/-- `sizeof(UBSHcomNetTransSglRequest::iovCount)`. -/
def sizeofIovCount : ℕ := 2

/-- `NET_SGE_MAX_IOV`. -/
def netSgeMaxIov : ℕ := 4

/-- The scatter element as it lies in memory. -/
def TransSgeIov.encode (v : TransSgeIov) : List UInt8 :=
  leBytes 8 v.lAddress.toNat ++ leBytes 8 v.rAddress.toNat
    ++ leBytes 8 v.lKey.toNat ++ leBytes 8 v.rKey.toNat
    ++ leBytes 4 v.size.toNat ++ leBytes 8 v.srcSeg.toNat
    ++ leBytes 8 v.dstSeg.toNat

/-- The scatter element that lies in memory at an offset. -/
def TransSgeIov.decode (bytes : List UInt8) (off : ℕ) : TransSgeIov where
  lAddress := .ofNat (leField bytes off 8)
  rAddress := .ofNat (leField bytes (off + 8) 8)
  lKey := .ofNat (leField bytes (off + 16) 8)
  rKey := .ofNat (leField bytes (off + 24) 8)
  size := .ofNat (leField bytes (off + 32) 4)
  srcSeg := .ofNat (leField bytes (off + 36) 8)
  dstSeg := .ofNat (leField bytes (off + 44) 8)

@[simp] theorem TransSgeIov.length_encode (v : TransSgeIov) : v.encode.length = sizeofIov := by
  simp [encode, sizeofIov]

/-- `SockOpContextInfo::SockOpType`. -/
inductive SockOpType where
  | send
  | sendRaw
  | sendRawSgl
  | receive
  | write
  | read
  | sglWrite
  | sglRead
  | writeAck
  | readAck
  | sglWriteAck
  | sglReadAck
deriving DecidableEq

end Sock
