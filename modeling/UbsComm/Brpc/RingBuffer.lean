import UbsComm.Lib.Execution

/-!
# The ring in shared memory

The peers of a connection over shared memory send bytes through a ring of
elements of 64 bytes, 60 of which are data. A thread that sends reserves as many
elements as it needs by a compare-and-swap on `mProdHead`, writes them one after
the other, and waits for the threads before it to let `mProdTail` pass. The one
thread that receives looks at neither: it trusts the flag of each element, clears
the elements that it has read to the end, and tells the senders only now and then
how far it is, by a word in shared memory.

The threads take turns in any order. A step is one access to what the threads
share – the copy of an element is one – with the thread's own computations up to
it. `sent` and `reserved` are the messages and the elements in the order of the
reservations, and `out` is what was read.

The number of elements for a message is computed in 32 bits. For `Send` the sum
that rounds up can wrap, and a message of almost 4 GiB then needs no elements; for
`WriteV` the length itself is cut to 32 bits. `Fits` is the condition that
neither happens.
-/

namespace Brpc

/-! ## Elements -/

/-- The flag of an element. -/
inductive ElementState where
  | empty
  | data
  | eof
  deriving DecidableEq

/-- `Element`; `dataLen` is the length of the data. -/
structure Element where
  hasData : ElementState := .empty
  data : List UInt8 := []
  readOffset : ℕ := 0
  deriving DecidableEq

/-- `RING_DATA_SIZE` -/
def ringDataSize : ℕ := 60

/-- The counters and lengths are words of 32 bits. -/
def word : ℕ := 2 ^ 32

/-- `RingFreeElements` -/
def ringFreeElements (head tail size : ℕ) : ℕ := (tail + size + 2 * word - head - 1) % word % size

/-- `BytesToElements` -/
def bytesToElements (bytes : ℕ) : ℕ := (bytes % word + ringDataSize - 1) % word / ringDataSize

/-- What a call has to send: how many elements it reserves, the elements that it
writes, and the message. -/
structure RingMessage where
  elementsNeeded : ℕ
  elements : List Element
  bytes : List UInt8

/-! ## Send -/

/-- The loop of `Send` over the elements. -/
def sendElements : ℕ → List UInt8 → List Element
  | 0, _ => []
  | n + 1, buf =>
    if buf.length < ringDataSize then ⟨.eof, buf, 0⟩ :: sendElements n []
    else ⟨.data, buf.take ringDataSize, 0⟩ :: sendElements n (buf.drop ringDataSize)

/-- `Send` up to the reservation, or what it returns. -/
def sendMessage (buf : List UInt8) : Except Int RingMessage :=
  if buf.length = 0 then .error (-1)
  else
    let elementsNeeded := bytesToElements buf.length
    .ok ⟨elementsNeeded, sendElements elementsNeeded buf, buf⟩

/-! ## WriteV -/

/-- The element that is filled, and how many bytes `remaining` are left, as a
word. -/
structure Gather where
  elem : List UInt8 := []
  remaining : ℕ

/-- The loop of `WriteV` over the bytes of a vector: the elements that are
written, and what is filled then. A turn copies at least a byte. -/
def gatherIov : ℕ → List UInt8 → Gather → List Element × Gather
  | 0, _, g => ([], g)
  | fuel + 1, src, g =>
    if src.length = 0 then ([], g)
    else
      let toCopy := min src.length (ringDataSize - g.elem.length)
      let elem := g.elem ++ src.take toCopy
      let remaining := (g.remaining + word - toCopy) % word
      if elem.length < ringDataSize ∧ remaining ≠ 0 then
        gatherIov fuel (src.drop toCopy) ⟨elem, remaining⟩
      else
        let r := gatherIov fuel (src.drop toCopy) ⟨[], remaining⟩
        (⟨if remaining = 0 then .eof else .data, elem, 0⟩ :: r.1, r.2)

/-- The loop over the vectors; the length of a vector is cut to a word. -/
def gatherAll : List (List UInt8) → Gather → List Element
  | [], _ => []
  | v :: vs, g =>
    let src := v.take (v.length % word)
    let r := gatherIov src.length src g
    r.1 ++ gatherAll vs r.2

/-- `WriteV` up to the reservation, or what it returns. A vector without bytes is
passed over. -/
def writeVMessage (elemCount : ℕ) (iov : List (List UInt8)) : Except Int RingMessage :=
  let totalLen := iov.flatten.length
  if iov = [] ∨ 2 ^ 64 ≤ totalLen then .error (-1)
  else if totalLen = 0 then .error 0
  else
    let elementsNeeded := bytesToElements totalLen
    if elementsNeeded = 0 ∨ elemCount < elementsNeeded then .error (-1)
    else .ok ⟨elementsNeeded, gatherAll iov ⟨[], totalLen % word⟩, iov.flatten⟩

/-! ## The ring -/

/-- The size of the ring, and after how many elements the senders are told. -/
structure RingConfig where
  elemCount : ℕ
  updateLim : ℕ
  two_le : 2 ≤ elemCount
  lt_word : elemCount < word

/-- Where a thread that sends is. In `writing`, it has written `written` elements
from `prodHead` on, and `elements` is left; `len` is the length of the message. -/
inductive ProducerPc where
  | idle (returned : Int)
  | loadHead (m : RingMessage)
  | loadTail (m : RingMessage) (prodHead : ℕ)
  | cas (m : RingMessage) (prodHead : ℕ)
  | writing (prodHead prodNext len written : ℕ) (elements : List Element)

/-- Where the thread that receives is, with the room that is left in its vectors
and what it has read. In `copied` it has read an element of `dataLen` bytes up to
`readOffset`. -/
inductive ConsumerPc where
  | idle (returned : Int)
  | look (room : List ℕ) (totalRead : ℕ)
  | copy (room : List ℕ) (totalRead : ℕ)
  | copied (readOffset dataLen : ℕ) (room : List ℕ) (totalRead : ℕ)
  | clear (room : List ℕ) (totalRead : ℕ)
  | advance (room : List ℕ) (totalRead : ℕ)

/-- The ring as `InitSharedMemory` and the constructor leave it. -/
structure RingState where
  elems : ℕ → Element := fun _ => {}
  txTail : ℕ := 0
  prodHead : ℕ := 0
  prodTail : ℕ := 0
  producers : ℕ → ProducerPc := fun _ => .idle 0
  cons : ℕ := 0
  consCnt : ℕ := 0
  consumer : ConsumerPc := .idle 0
  sent : List (List UInt8) := []
  reserved : List Element := []
  out : List UInt8 := []

/-- A thread starts a call or takes its next step; the compare-and-swap may fail
without cause. -/
inductive RingAction where
  | send (t : ℕ) (buf : List UInt8)
  | writeV (t : ℕ) (iov : List (List UInt8))
  | producer (t : ℕ) (fails : Bool)
  | recv (bufLen : ℕ)
  | readV (lens : List ℕ)
  | consumer

namespace RingState

variable (cfg : RingConfig) (s : RingState)

/-- `GetTxElement`, `GetRxElement` -/
def elemAt (index : ℕ) : Element := s.elems (index % cfg.elemCount)

/-- An element is stored. -/
def setElem (index : ℕ) (e : Element) : RingState :=
  { s with elems := Function.update s.elems (index % cfg.elemCount) e }

/-- A sender goes on. -/
def setProducer (t : ℕ) (pc : ProducerPc) : RingState :=
  { s with producers := Function.update s.producers t pc }

/-- The receiver goes on. -/
def setConsumer (pc : ConsumerPc) : RingState := { s with consumer := pc }

/-- The reservation of the elements of a message. -/
def reserve (m : RingMessage) (prodNext : ℕ) : RingState := { s with
    prodHead := prodNext
    sent := s.sent ++ [m.bytes]
    reserved := s.reserved ++ m.elements }

/-- `mProdTail` is stored. -/
def commit (prodNext : ℕ) : RingState := { s with prodTail := prodNext }

/-- Bytes are read. -/
def read (bytes : List UInt8) : RingState := { s with out := s.out ++ bytes }

/-- An element was read to its end; every `updateLim` elements the senders are
told. -/
def advanceCons : RingState :=
  let cons := (s.cons + 1) % word
  let consCnt := (s.consCnt + 1) % word
  if cfg.updateLim ≤ consCnt then { s with cons := cons, consCnt := 0, txTail := cons }
  else { s with cons := cons, consCnt := consCnt }

/-- A thread that is idle starts to send, or returns at once. -/
def call (t : ℕ) (m : Except Int RingMessage) : Option RingState :=
  match s.producers t with
  | .idle _ =>
    match m with
    | .error r => some (s.setProducer t (.idle r))
    | .ok m => some (s.setProducer t (.loadHead m))
  | _ => none

/-- The next step of a thread that sends. It waits while `mProdTail` is not where
its reservation begins. -/
def producerStep (t : ℕ) (fails : Bool) : Option RingState :=
  match s.producers t with
  | .idle _ => none
  | .loadHead m => some (s.setProducer t (.loadTail m s.prodHead))
  | .loadTail m prodHead =>
    if ringFreeElements prodHead s.txTail cfg.elemCount < m.elementsNeeded then
      some (s.setProducer t (.idle (-1)))
    else some (s.setProducer t (.cas m prodHead))
  | .cas m prodHead =>
    if s.prodHead = prodHead ∧ fails = false then
      let prodNext := (prodHead + m.elementsNeeded) % word
      some ((s.reserve m prodNext).setProducer t
        (.writing prodHead prodNext m.bytes.length 0 m.elements))
    else some (s.setProducer t (.loadHead m))
  | .writing prodHead prodNext len written (e :: es) =>
    some ((s.setElem cfg ((prodHead + written) % word) e).setProducer t
      (.writing prodHead prodNext len (written + 1) es))
  | .writing prodHead prodNext len _ [] =>
    if s.prodTail = prodHead then some ((s.commit prodNext).setProducer t (.idle len)) else none

/-- `room` without the vectors at its beginning that are full. -/
def nextRoom : List ℕ → List ℕ
  | [] => []
  | 0 :: room => nextRoom room
  | (n + 1) :: room => (n + 1) :: room

/-- The thread that receives starts; the lengths of the vectors are cut to words. -/
def receive (lens : List ℕ) : Option RingState :=
  match s.consumer with
  | .idle _ =>
    if lens = [] then some (s.setConsumer (.idle (-1)))
    else some (s.setConsumer (.look (lens.map (· % word)) 0))
  | _ => none

/-- The next step of the thread that receives. -/
def consumerStep : Option RingState :=
  let elem := s.elemAt cfg s.cons
  match s.consumer with
  | .idle _ => none
  | .look room totalRead =>
    if nextRoom room = [] ∨ elem.hasData = .empty then some (s.setConsumer (.idle totalRead))
    else some (s.setConsumer (.copy (nextRoom room) totalRead))
  | .copy room totalRead =>
    let toRead := min (elem.data.length - elem.readOffset) (room.headD 0)
    some ((s.read ((elem.data.drop elem.readOffset).take toRead)).setConsumer
      (.copied (elem.readOffset + toRead) elem.data.length
        ((room.headD 0 - toRead) :: room.tail) (totalRead + toRead)))
  | .copied readOffset dataLen room totalRead =>
    if readOffset < dataLen then
      -- the vector is full, and the next one goes on with this element
      some ((s.setElem cfg s.cons { elem with readOffset := readOffset }).setConsumer
        (.look room.tail totalRead))
    else
      some ((s.setElem cfg s.cons { elem with readOffset := 0 }).setConsumer
        (.clear room totalRead))
  | .clear room totalRead =>
    some ((s.setElem cfg s.cons { elem with hasData := .empty }).setConsumer
      (.advance room totalRead))
  | .advance room totalRead => some ((s.advanceCons cfg).setConsumer (.look room totalRead))

end RingState

/-- `Recv` is `ReadV` with one vector, which is not empty. -/
def ringStep (cfg : RingConfig) (s : RingState) : RingAction → Option RingState
  | .send t buf => if buf.length < word then s.call t (sendMessage buf) else none
  | .writeV t iov => s.call t (writeVMessage cfg.elemCount iov)
  | .producer t fails => s.producerStep cfg t fails
  | .recv bufLen => if bufLen < word then s.receive (if bufLen = 0 then [] else [bufLen]) else none
  | .readV lens => s.receive lens
  | .consumer => s.consumerStep cfg

/-- **A message fits**: its number of elements is computed without wrapping. -/
def RingAction.Fits : RingAction → Prop
  | .send _ buf => buf.length + ringDataSize ≤ word
  | .writeV _ iov => iov.flatten.length < word
  | .producer _ _ | .recv _ | .readV _ | .consumer => True

instance : DecidablePred RingAction.Fits := fun
  | .send _ buf => inferInstanceAs (Decidable (buf.length + ringDataSize ≤ word))
  | .writeV _ iov => inferInstanceAs (Decidable (iov.flatten.length < word))
  | .producer _ _ | .recv _ | .readV _ | .consumer => .isTrue trivial

end Brpc
