import UbsComm.Umq.Words

/-!
# The bind info of a queue

`umq_ub_bind_info_serialize` writes what a queue says of itself into a buffer,
for a peer to read (`bindInfoDeserialize`): one element each for the version, the
device, the queue and the flow control. Each function first sees whether its
element fits in what is left of the buffer.

The device info ends with the network namespace, a string whose length is rounded
up to a multiple of four. It is first written into all of the 256 bytes that a
namespace may have; the element of the queue then begins where the rounded string
ends.

The members of the structures are at offsets that are parameters, as the sizes of
the two types of the device library are (`BindStructs`). One member of the queue
info, its policy, is never written.
-/

namespace Umq

open Memory

/-! ## The structures -/

/-- The members of `umq_ub_bind_version_info_t`. -/
inductive VersionMember where
  | version
  deriving DecidableEq

/-- The members of `umq_ub_bind_dev_info_t`, except the namespace at its end. -/
inductive DevMember where
  | umqTransMode
  | tseg
  | bufPoolMode
  | feature
  | pid
  | namespaceLen
  deriving DecidableEq

/-- The members of `umq_ub_bind_queue_info_t`. -/
inductive QueueMember where
  | isBinded
  | policy
  | jettyId
  | orderType
  | type
  | tpMode
  | tpType
  | token
  | notifyBuf
  | rxDepth
  | txDepth
  | rxBufSize
  | state
  deriving DecidableEq

/-- The members of `umq_ub_bind_fc_info_t`. -/
inductive FcMember where
  | jettyId
  | token
  | winBufAddr
  | winBufLen
  deriving DecidableEq

/-- The sizes of the members. -/
def VersionMember.size : VersionMember → ℕ
  | .version => 4

/-- The sizes of the members. -/
def DevMember.size (sizeofTargetSeg : ℕ) : DevMember → ℕ
  | .tseg => sizeofTargetSeg
  | .umqTransMode | .bufPoolMode | .feature | .pid | .namespaceLen => 4

/-- The sizes of the members. -/
def QueueMember.size (sizeofJettyId : ℕ) : QueueMember → ℕ
  | .isBinded => 1
  | .jettyId => sizeofJettyId
  | .notifyBuf => 8
  | .policy | .orderType | .type | .tpMode | .tpType | .token | .rxDepth | .txDepth
  | .rxBufSize | .state => 4

/-- The sizes of the members. -/
def FcMember.size (sizeofJettyId : ℕ) : FcMember → ℕ
  | .jettyId => sizeofJettyId
  | .winBufAddr => 8
  | .token | .winBufLen => 4

/-- `UMQ_UB_NAMESPACE_SIZE` -/
def umqUbNamespaceSize : ℕ := 256

/-- The layout of the structures, which as a whole are far from 4 GiB. -/
structure BindStructs where
  sizeofTargetSeg : ℕ
  sizeofJettyId : ℕ
  versionInfo : StructLayout VersionMember.size
  devInfo : StructLayout (DevMember.size sizeofTargetSeg)
  queueInfo : StructLayout (QueueMember.size sizeofJettyId)
  fcInfo : StructLayout (FcMember.size sizeofJettyId)
  bindNamespaceAt : ℕ
  /-- `URMA_JETTY`, of the device library -/
  urmaJetty : UInt32
  bindNamespace_le : bindNamespaceAt ≤ devInfo.sizeof
  bindNamespace_last : ∀ m, devInfo.offset m + DevMember.size sizeofTargetSeg m ≤ bindNamespaceAt
  small : versionInfo.sizeof + devInfo.sizeof + queueInfo.sizeof + fcInfo.sizeof
    + umqUbNamespaceSize + 32 < 2 ^ 32

/-- What the reader knows of the layout. -/
def BindStructs.layout (structs : BindStructs) : BindLayout where
  sizeofVersionInfo := structs.versionInfo.sizeof
  sizeofDevInfo := structs.devInfo.sizeof
  namespaceLenAt := structs.devInfo.offset .namespaceLen
  bindNamespaceAt := structs.bindNamespaceAt
  sizeofQueueInfo := structs.queueInfo.sizeof
  sizeofFcInfo := structs.fcInfo.sizeof
  namespaceLen_le := structs.devInfo.inside .namespaceLen
  bindNamespace_le := structs.bindNamespace_le

/-! ## The values -/

/-- What is read of the device of a queue, and of the process. -/
structure UbDev (structs : BindStructs) where
  transMode : UInt32
  tseg : Vector UInt8 structs.sizeofTargetSeg
  bufPoolMode : UInt32
  feature : UInt32
  pid : UInt32

/-- What is read of a jetty. -/
structure UbJetty (structs : BindStructs) where
  jettyId : Vector UInt8 structs.sizeofJettyId
  token : UInt32

/-- What is read of a queue. -/
structure UbQueue (structs : BindStructs) where
  dev : UbDev structs
  bound : Bool
  io : UbJetty structs
  /-- `notify_buf->buf_data` -/
  notifyData : UInt64
  orderType : UInt32
  tpMode : UInt32
  tpType : UInt32
  rxDepth : UInt32
  txDepth : UInt32
  rxBufSize : UInt32
  state : UInt32
  fcEnabled : Bool
  fc : UbJetty structs

/-- A string of at most 255 bytes. -/
structure NamespaceString where
  chars : List UInt8
  length_le : chars.length ≤ 255
  noNull : 0 ∉ chars

/-- What `readlink` answers, which is given room for 255 bytes. -/
inductive Readlink where
  | target (path : NamespaceString)
  | enoent
  | failed

/-- The namespace; it is empty if there is no such link. -/
def Readlink.chars : Readlink → Option NamespaceString
  | .target path => some path
  | .enoent => some ⟨[], Nat.zero_le _, List.not_mem_nil⟩
  | .failed => none

section Values

variable {structs : BindStructs}

/-- `UMQ_UB_RW_SEGMENT_LEN` -/
def umqUbRwSegmentLen : UInt32 := 64

section

variable (queue : UbQueue structs)

/-- `umq_ub_notify_buf_addr_get`: the part for imported memory (0), and the one for
flow control (1). -/
def UbQueue.notifyBufAddr (offset : UInt64) : UInt64 :=
  queue.notifyData + offset * umqUbRwSegmentLen.toUInt64

/-- `UMQ_UB_BIND_VERSION` -/
def versionMembers : List (VersionMember × List UInt8) := [(.version, u32 0)]

/-- What is written of a device. -/
def UbDev.members (dev : UbDev structs) : List (DevMember × List UInt8) :=
  [(.umqTransMode, u32 dev.transMode), (.tseg, dev.tseg.toList),
    (.bufPoolMode, u32 dev.bufPoolMode), (.feature, u32 dev.feature), (.pid, u32 dev.pid)]

/-- What is written of a queue. -/
def UbQueue.members : List (QueueMember × List UInt8) :=
  [(.isBinded, [if queue.bound then 1 else 0]), (.jettyId, queue.io.jettyId.toList),
    (.type, u32 structs.urmaJetty), (.token, u32 queue.io.token),
    (.notifyBuf, u64 (queue.notifyBufAddr 0)), (.orderType, u32 queue.orderType),
    (.tpMode, u32 queue.tpMode), (.tpType, u32 queue.tpType), (.rxDepth, u32 queue.rxDepth),
    (.txDepth, u32 queue.txDepth), (.rxBufSize, u32 queue.rxBufSize), (.state, u32 queue.state)]

/-- What is written of its flow control. -/
def UbQueue.fcMembers : List (FcMember × List UInt8) :=
  if queue.fcEnabled then
    [(.jettyId, queue.fc.jettyId.toList), (.token, u32 queue.fc.token),
      (.winBufAddr, u64 (queue.notifyBufAddr 1)), (.winBufLen, u32 umqUbRwSegmentLen)]
  else
    [(.jettyId, List.replicate structs.sizeofJettyId 0), (.token, u32 0), (.winBufAddr, u64 0),
      (.winBufLen, u32 0)]

end

end Values

/-! ## Writing -/

section Serialize

variable (structs : BindStructs)

/-- The type and the length of an element. -/
def storeHead (mem : ℕ → UInt8) (buf : ℕ) (type len : UInt32) : ℕ → UInt8 :=
  store (store mem buf (u32 type)) (buf + 4) (u32 len)

/-- An element that is one structure: the memory, and the length of the element. -/
def serializeStruct {F : Type} {size : F → ℕ} (L : StructLayout size) (type : UInt32)
    (vals : List (F × List UInt8)) (mem : ℕ → UInt8) (buf : ℕ) (leftBufSize : UInt32) :
    (ℕ → UInt8) × UInt32 :=
  if leftBufSize.toNat < L.sizeof + sizeofTlvHead.toNat then (mem, 0)
  else
    let mem := L.storeMembers (buf + sizeofTlvHead.toNat) mem vals
    let len := UInt32.ofNat L.sizeof
    (storeHead mem buf type len, tlvTotalLen len)

/-- `umq_ub_version_info_serialize` -/
def umqUbVersionInfoSerialize : (ℕ → UInt8) → ℕ → UInt32 → (ℕ → UInt8) × UInt32 :=
  serializeStruct structs.versionInfo 0x10000 versionMembers

/-- `umq_ub_get_namespace`: the memory, and the length with the null byte. -/
def umqUbGetNamespace (link : Readlink) (mem : ℕ → UInt8) (remoteNamespace namespaceBufSize : ℕ) :
    (ℕ → UInt8) × Option ℕ :=
  match link.chars with
  | none => (mem, none)
  | some path =>
    let buf := path.chars ++ [0]
    if namespaceBufSize < buf.length then (mem, none)
    else
      -- what is not needed is cleaned
      let mem := store mem remoteNamespace buf
      (store mem (remoteNamespace + buf.length)
        (List.replicate (namespaceBufSize - buf.length) 0), some buf.length)

/-- A length, rounded up to a multiple of four. -/
def alignLen (len : ℕ) : UInt32 := (UInt32.ofNat len + 4 - 1) &&& ~~~(4 - 1)

/-- `umq_ub_dev_info_serialize` -/
def umqUbDevInfoSerialize (dev : UbDev structs) (link : Readlink) (mem : ℕ → UInt8) (buf : ℕ)
    (leftBufSize : UInt32) : (ℕ → UInt8) × UInt32 :=
  if leftBufSize.toNat < structs.devInfo.sizeof + sizeofTlvHead.toNat + umqUbNamespaceSize then
    (mem, 0)
  else
    let value := buf + sizeofTlvHead.toNat
    let mem := structs.devInfo.storeMembers value mem dev.members
    let r := umqUbGetNamespace link mem (value + structs.bindNamespaceAt) umqUbNamespaceSize
    match r.2 with
    | none => (r.1, 0)
    | some ret =>
      let namespaceLen := alignLen ret
      let mem := structs.devInfo.storeMembers value r.1 [(.namespaceLen, u32 namespaceLen)]
      let len := UInt32.ofNat structs.devInfo.sizeof + namespaceLen
      (storeHead mem buf 0x10001 len, tlvTotalLen len)

section

variable (queue : UbQueue structs)

/-- `umq_ub_queue_info_serialize` -/
def umqUbQueueInfoSerialize : (ℕ → UInt8) → ℕ → UInt32 → (ℕ → UInt8) × UInt32 :=
  serializeStruct structs.queueInfo 0x10002 queue.members

/-- `umq_ub_fc_info_serialize` -/
def umqUbFcInfoSerialize : (ℕ → UInt8) → ℕ → UInt32 → (ℕ → UInt8) × UInt32 :=
  serializeStruct structs.fcInfo 0x10003 queue.fcMembers

/-- `umq_ub_bind_info_serialize`: the memory from the buffer on, and the length of
what was written. -/
def umqUbBindInfoSerialize (link : Readlink) (mem : ℕ → UInt8)
    (bindInfoSize : UInt32) : (ℕ → UInt8) × UInt32 :=
  let version := umqUbVersionInfoSerialize structs mem 0 bindInfoSize
  if version.2 = 0 then (version.1, 0)
  else
    let infoDataSize := version.2
    let dev := umqUbDevInfoSerialize structs queue.dev link version.1 infoDataSize.toNat
      (bindInfoSize - infoDataSize)
    if dev.2 = 0 then (dev.1, 0)
    else
      let infoDataSize := infoDataSize + dev.2
      let q := umqUbQueueInfoSerialize structs queue dev.1 infoDataSize.toNat
        (bindInfoSize - infoDataSize)
      if q.2 = 0 then (q.1, 0)
      else
        let infoDataSize := infoDataSize + q.2
        let fc := umqUbFcInfoSerialize structs queue q.1 infoDataSize.toNat
          (bindInfoSize - infoDataSize)
        if fc.2 = 0 then (fc.1, 0)
        else (fc.1, infoDataSize + fc.2)

end

end Serialize

end Umq
