import UbsComm.Lib.Execution
import UbsComm.Service.Channel

/-!
# The links of a new channel

A client that wants a channel makes several links, one after the other, and
each brings its own copy of the options of the channel: how many links there
are, and which of them it is. The server keeps the links of a channel that is
not complete together in a `HcomConnectingEpInfo`, which it finds by the
address of the client and the number of the channel, and the handler of the
link that completes it makes the channel.

The handlers of new endpoints are run by several threads, and endpoints break
at any time. A handler is a sequence of steps, each of which takes a lock or
accesses one shared word: to join the other links, to set the context of the
endpoint, to see whether it is the last one, to make the channel and call the
handler of the user, to go on when the user has answered, and to forget the
links. A handler of a broken endpoint has two: to mark it, and, if it is the
last one, to forget the links.

For the record, an endpoint that has joined comes with what it announced, and
the server knows which links have broken and what it has handed to the user.
-/

namespace Service

open Function

/-! ## What a link announces -/

/-- `UBSHcomChannelBrokenPolicy` -/
inductive UBSHcomChannelBrokenPolicy where
  | brokenAll
  | reconnect
  | keepAlive
  | other (raw : UInt8)
deriving DecidableEq

/-- `UBSHcomChannelCallBackType` -/
inductive UBSHcomChannelCallBackType where
  | channelFuncCb
  | channelGlobalCb
  | other (raw : UInt8)
deriving DecidableEq

/-- `InnerConnectOptions` -/
structure InnerConnectOptions where
  clientGroupId : UInt16 := 0
  serverGroupId : UInt16 := 0
  linkCount : UInt8 := 1
  cbType : UBSHcomChannelCallBackType := .channelFuncCb
deriving DecidableEq

/-- `SerConnInfo`: what a link announces. -/
structure SerConnInfo where
  /-- The version of the client. -/
  version : UInt32 := 0
  /-- The number that the client has given to the channel. -/
  channelId : UInt64
  /-- Which of the links it is. -/
  index : UInt16
  /-- How many links there are. -/
  totalLinkCount : UInt16
  /-- What a broken link does to the channel. -/
  policy : UBSHcomChannelBrokenPolicy := .brokenAll
  /-- The options of the client. -/
  options : InnerConnectOptions := {}
deriving DecidableEq

/-- `SerConnInfoCheck` -/
def serConnInfoCheck (connInfo : SerConnInfo) : Bool :=
  ¬(connInfo.totalLinkCount = 0 ∨ connInfo.totalLinkCount > 64)
    ∧ ¬(connInfo.options.linkCount = 0 ∨ connInfo.options.linkCount > 16)
    ∧ ¬connInfo.index ≥ connInfo.totalLinkCount

/-- What the links of a channel are found by. -/
structure SerUuid where
  ip : UInt32
  channelId : UInt64
deriving DecidableEq

/-! ## Links that are together -/

/-- `ConnectingEpState` -/
inductive ConnectingEpState where
  | newEp
  | newChannel
  | epBroken
deriving DecidableEq

/-- `UBSHcomNetEndPointState` -/
inductive UBSHcomNetEndPointState where
  | new
  | established
  | broken
deriving DecidableEq

/-- `CHANNEL_EP_MAX_NUM`. -/
def channelEpMaxNum : ℕ := 64

/-- An endpoint with what it announced. -/
structure Link where
  ep : ℕ
  connInfo : SerConnInfo
deriving DecidableEq

/-- `HcomConnectingEpInfo`: the links of a channel that have come. -/
structure HcomConnectingEpInfo where
  connInfo : SerConnInfo
  uuid : SerUuid
  connState : ConnectingEpState := .newEp
  epState : ℕ → UBSHcomNetEndPointState := fun _ => .new
  epVector : List Link

namespace HcomConnectingEpInfo

variable (info : HcomConnectingEpInfo)

/-- The constructor. -/
def new (uuid : SerUuid) (ep : ℕ) (connInfo : SerConnInfo) : HcomConnectingEpInfo where
  connInfo := connInfo
  uuid := uuid
  epState := update (fun _ => .new) 0 .established
  epVector := [⟨ep, connInfo⟩]

/-- `Compare` -/
def compare (connInfo : SerConnInfo) : Bool :=
  info.connInfo.version = connInfo.version ∧ info.connInfo.channelId = connInfo.channelId
    ∧ info.connInfo.policy = connInfo.policy
    ∧ connInfo.index.toNat = info.epVector.length
    ∧ info.connInfo.options.linkCount = connInfo.options.linkCount
    ∧ info.connInfo.options.cbType = connInfo.options.cbType
    ∧ info.connInfo.options.clientGroupId = connInfo.options.clientGroupId
    ∧ info.connInfo.options.serverGroupId = connInfo.options.serverGroupId

/-- `AddEp` -/
def addEp (ep : ℕ) (connInfo : SerConnInfo) : Bool × HcomConnectingEpInfo :=
  if info.epVector.length ≥ channelEpMaxNum then (false, info)
  else
    (info.connState = .newEp, { info with
      epState := update info.epState info.epVector.length .established
      epVector := info.epVector ++ [⟨ep, connInfo⟩] })

/-- `mConnState.CAS`. -/
def cas (old new : ConnectingEpState) : Bool × HcomConnectingEpInfo :=
  if info.connState = old then (true, { info with connState := new })
  else (false, info)

/-- `AllEPBroken` -/
def allEPBroken (index : ℕ) : Bool × HcomConnectingEpInfo :=
  if index ≥ info.epVector.length ∨ index ≥ channelEpMaxNum then (false, info)
  else
    let info := { info with epState := update info.epState index .broken }
    if ∃ i < info.epVector.length, info.epState i ≠ .broken then (false, info)
    else info.cas .newEp .epBroken

end HcomConnectingEpInfo

/-- `Ep2ChanUpCtx`, with room for 32 endpoints. -/
inductive Ep2ChanUpCtx where
  | zero
  | connecting (info : ℕ) (epIdx : ℕ)
  | connected
deriving DecidableEq

/-- The context of an endpoint that waits, with five bits of its index. -/
def Ep2ChanUpCtx.ofIndex (info : ℕ) (index : UInt16) : Ep2ChanUpCtx :=
  .connecting info (index % 32).toNat

/-! ## The server -/

/-- What `ServiceHandleNewEndPoint` has in its variables. -/
structure NewEpCall where
  uuid : SerUuid
  /-- Which `HcomConnectingEpInfo` it is. -/
  info : ℕ
  connInfo : SerConnInfo
deriving DecidableEq

/-- How far it has come. -/
inductive NewEpStage where
  | emplaced
  | marked
  /-- It is the last one, and makes the channel. -/
  | last
  /-- The user has been called. -/
  | handling
  | created (result : SerCode)
deriving DecidableEq

/-- Where the handler of a new endpoint is. -/
inductive NewEpHandler where
  | idle
  | running (call : NewEpCall) (stage : NewEpStage)
  | returned (result : SerCode)
deriving DecidableEq

/-- Where the handler of a broken endpoint is. -/
inductive BrokenHandler where
  | idle
  | erasing (info : ℕ)
  | returned
deriving DecidableEq

/-- `SER_CHANNEL_ID_DUP`. -/
def serChannelIdDup : SerCode := .other 513

/-- `SER_EP_BROKEN_DURING_CONNECTING`. -/
def serEpBrokenDuringConnecting : SerCode := .other 517

/-- A channel as it was handed to the user. -/
structure HandedChannel where
  uuid : SerUuid
  eps : List Link
  /-- The endpoint whose handler has made it. -/
  creator : ℕ
  /-- Which links had broken by then. -/
  broke : ℕ → Bool

/-- What the server has of new channels. -/
structure NewChannels where
  newEpMap : SerUuid → Option ℕ := fun _ => none
  epInfos : ℕ → Option HcomConnectingEpInfo := fun _ => none
  /-- The number of them made so far. -/
  made : ℕ := 0
  channelMap : SerUuid → Bool := fun _ => false
  upCtx : ℕ → Ep2ChanUpCtx := fun _ => .zero
  epStates : ℕ → UBSHcomNetEndPointState := fun _ => .new
  handlers : ℕ → NewEpHandler := fun _ => .idle
  brokenHandlers : ℕ → BrokenHandler := fun _ => .idle
  /-- The endpoints whose links have broken. -/
  broke : ℕ → Bool := fun _ => false
  /-- The complete ones for which a channel has been made, or could not be. -/
  attempted : ℕ → Bool := fun _ => false
  handed : List HandedChannel := []
  /-- The handlers whose channel the user did not take. -/
  refused : ℕ → Bool := fun _ => false

namespace NewChannels

section Steps

variable (st : NewChannels)

/-- A handler goes on. -/
def setHandler (ep : ℕ) (handler : NewEpHandler) : NewChannels :=
  { st with handlers := update st.handlers ep handler }

/-- A handler of a broken endpoint goes on. -/
def setBrokenHandler (ep : ℕ) (handler : BrokenHandler) : NewChannels :=
  { st with brokenHandlers := update st.brokenHandlers ep handler }

/-- The links of a channel are changed. -/
def setInfo (n : ℕ) (info : HcomConnectingEpInfo) : NewChannels :=
  { st with epInfos := update st.epInfos n (some info) }

/-- The first link of a channel. -/
def emplaceInfo (uuid : SerUuid) (ep : ℕ) (connInfo : SerConnInfo) : NewChannels := { st with
    newEpMap := update st.newEpMap uuid (some st.made)
    epInfos := update st.epInfos st.made (some (.new uuid ep connInfo))
    made := st.made + 1 }

/-- `mNewEpMap.erase`. -/
def eraseInfo (uuid : SerUuid) : NewChannels := { st with newEpMap := update st.newEpMap uuid none }

/-- `SetEpUpCtx` and `UnSetEpUpCtx`. -/
def setEpUpCtx (eps : List Link) (ctx : Ep2ChanUpCtx) : NewChannels :=
  { st with upCtx := fun ep => if eps.any (·.ep = ep) then ctx else st.upCtx ep }

/-- A channel is about to be made. -/
def attempt (n : ℕ) : NewChannels := { st with attempted := update st.attempted n true }

/-- The channel is put into the map, and the user's handler called. -/
def handOver (ep : ℕ) (call : NewEpCall) (eps : List Link) : NewChannels := { st with
    channelMap := update st.channelMap call.uuid true
    handed := st.handed ++ [⟨call.uuid, eps, ep, st.broke⟩] }

/-- `EraseChannel` of a channel that the user has not taken. -/
def eraseChannel (ep : ℕ) (uuid : SerUuid) : NewChannels := { st with
    channelMap := update st.channelMap uuid false
    refused := update st.refused ep true }

/-- `EmplaceNewEndpoint`, and what the handler then is. -/
def emplaceNewEndpoint (ep : ℕ) (uuid : SerUuid) (connInfo : SerConnInfo)
    (allocated : Bool) : NewChannels :=
  match st.newEpMap uuid with
  | none =>
    if ¬serConnInfoCheck connInfo then st.setHandler ep (.returned .invalidParam)
    else if ¬allocated then st.setHandler ep (.returned .invalidParam)
    else
      (st.emplaceInfo uuid ep connInfo).setHandler ep (.running ⟨uuid, st.made, connInfo⟩ .emplaced)
  | some n =>
    match st.epInfos n with
    | none => st.setHandler ep (.returned .invalidParam)
    | some info =>
      if ¬info.compare connInfo then st.setHandler ep (.returned .invalidParam)
      else
        let added := info.addEp ep connInfo
        (st.setInfo n added.2).setHandler ep
          (if added.1 then .running ⟨uuid, n, connInfo⟩ .emplaced
            else .returned .invalidParam)

/-- The beginning of `ServiceHandleNewEndPoint`, with the address of the peer
and what it announces, if they can be read. -/
def serviceHandleNewEndPoint (ep : ℕ) (ip : Option UInt32)
    (payload : Option SerConnInfo) (allocated : Bool) : NewChannels :=
  match payload, ip with
  | some connInfo, some ip => st.emplaceNewEndpoint ep ⟨ip, connInfo.channelId⟩ connInfo allocated
  | _, _ => st.setHandler ep (.returned .invalidParam)

section

variable (ep : ℕ) (call : NewEpCall)

/-- `newEp->UpCtx`. -/
def setUpCtx : NewChannels :=
  let ctx := Ep2ChanUpCtx.ofIndex call.info call.connInfo.index
  { st with upCtx := update st.upCtx ep ctx }.setHandler ep (.running call .marked)

/-- Whether this is the last one, by what it announced itself. -/
def checkLast : NewChannels :=
  match st.epInfos call.info with
  | none => st
  | some info =>
    if info.epVector.length < call.connInfo.totalLinkCount.toNat then
      st.setHandler ep (.returned .ok)
    else
      let swapped := info.cas .newEp .newChannel
      (st.setInfo call.info swapped.2).setHandler ep
        (if swapped.1 then .running call .last
          else .returned serEpBrokenDuringConnecting)

/-- `ServiceNewChannel` with a channel that has been initialized, up to the
call of the user's handler; `chNewHandler` says whether there is one. -/
def openChannel (eps : List Link) (chNewHandler : Bool) : NewChannels :=
  if st.channelMap call.uuid then st.setHandler ep (.running call (.created serChannelIdDup))
  else if ¬chNewHandler then st.setHandler ep (.running call (.created .invalidParam))
  else (st.handOver ep call eps).setHandler ep (.running call .handling)

/-- `ServiceNewChannel`; `initialized` says whether the channel got what it
has to allocate. -/
def serviceNewChannel (initialized chNewHandler : Bool) : NewChannels :=
  match st.epInfos call.info with
  | none => st
  | some info =>
    if ¬initialized then
      (st.attempt call.info).setHandler ep (.running call (.created .newObjectFailed))
    else if info.epVector.any (fun link => st.epStates link.ep = .broken) then
      ((st.attempt call.info).setEpUpCtx info.epVector .zero).setHandler ep
        (.running call (.created .newObjectFailed))
    else
      ((st.attempt call.info).setEpUpCtx info.epVector .connected).openChannel
        ep call info.epVector chNewHandler

/-- The user's handler returns. -/
def chNewHandlerReturned (result : SerCode) : NewChannels :=
  if result = .ok then st.setHandler ep (.running call (.created .ok))
  else (st.eraseChannel ep call.uuid).setHandler ep (.running call (.created result))

/-- The end of `ServiceHandleNewEndPoint`. -/
def finish (result : SerCode) : NewChannels :=
  (st.eraseInfo call.uuid).setHandler ep (.returned result)

end

/-- What the driver does with the endpoint of a link that breaks: those of
sockets always say so in its state, the others if it was established. -/
def linkBroken (ep : ℕ) (always : Bool) : NewChannels := { st with
    broke := update st.broke ep true
    epStates :=
      if always ∨ st.epStates ep = .established then update st.epStates ep .broken
      else st.epStates }

/-- `ServiceEndPointBroken` of an endpoint whose channel is not complete. -/
def serviceEndPointBroken (ep : ℕ) : NewChannels :=
  match st.upCtx ep with
  | .connecting n epIdx =>
    match st.epInfos n with
    | none => st
    | some info =>
      let marked := info.allEPBroken epIdx
      (st.setInfo n marked.2).setBrokenHandler ep (if marked.1 then .erasing n else .returned)
  | _ => st.setBrokenHandler ep .returned

/-- The end of `ServiceEndPointBroken`. -/
def eraseBroken (ep n : ℕ) : NewChannels :=
  match st.epInfos n with
  | none => st
  | some info => (st.eraseInfo info.uuid).setBrokenHandler ep .returned

end Steps

end NewChannels

/-- What happens to the server. -/
inductive ConnectAction where
  | arrive (ep : ℕ) (ip : Option UInt32) (payload : Option SerConnInfo) (allocated : Bool)
  /-- The handler of a new endpoint goes on; the answers are of the
  allocations, of whether the user has a handler, and of that handler. -/
  | goOn (ep : ℕ) (initialized chNewHandler : Bool) (result : SerCode)
  /-- The driver sets the state of the endpoint. -/
  | establish (ep : ℕ)
  | linkBroken (ep : ℕ) (always : Bool)
  /-- The handler of a broken endpoint begins, or goes on. -/
  | brokenGoOn (ep : ℕ)
deriving DecidableEq

/-- One step of a handler or of the driver. -/
def connectStep (st : NewChannels) : ConnectAction → Option NewChannels
  | .arrive ep ip payload allocated =>
    if st.handlers ep = .idle then some (st.serviceHandleNewEndPoint ep ip payload allocated)
    else none
  | .goOn ep initialized chNewHandler result =>
    match st.handlers ep with
    | .running call .emplaced => some (st.setUpCtx ep call)
    | .running call .marked => some (st.checkLast ep call)
    | .running call .last => some (st.serviceNewChannel ep call initialized chNewHandler)
    | .running call .handling => some (st.chNewHandlerReturned ep call result)
    | .running call (.created result) => some (st.finish ep call result)
    | _ => none
  | .establish ep => some { st with epStates := update st.epStates ep .established }
  | .linkBroken ep always => if st.broke ep then none else some (st.linkBroken ep always)
  | .brokenGoOn ep =>
    if ¬st.broke ep then none
    else
      match st.brokenHandlers ep with
      | .idle => some (st.serviceEndPointBroken ep)
      | .erasing n => some (st.eraseBroken ep n)
      | .returned => none

/-- A run of the server, from its start. -/
def connectRun (xs : List ConnectAction) : Option NewChannels := Machine.run connectStep {} xs

end Service
