import ChromiumBase.Mojo.Ports.Event

/-!
# Ports of a node

The ports of a node (`mojo/core/ports/node.cc`), how a user message is prepared for
being forwarded, and how read messages are acknowledged. A function takes the
fields it may change and returns them, with the events it hands to the delegate.
The locks of the source make each function, and each round of the loop in
`PrepareToForwardUserMessage`, one step. A `DCHECK` that fails gives `none`.

Left out are the payloads of messages, `PortStatusChanged`, and in `GetMessage` the
ports attached to the message that is read.
-/

namespace ChromiumBase.Ports

inductive Status where
  | ok
  | errorPortStateUnexpected
  | errorPortPeerClosed
  | errorPortCannotSendPeer
  deriving DecidableEq, Repr

inductive PortState where
  | uninitialized
  | receiving
  | buffering
  | proxying
  | closed
  deriving DecidableEq, Repr

structure MessageQueue where
  nextSequenceNum : UInt64
  heap : List UInt64
  deriving DecidableEq, Repr

@[ext] structure Port where
  state : PortState
  peerNodeName : NodeName
  peerPortName : PortName
  nextSequenceNumToSend : UInt64
  lastSequenceNumAcknowledged : UInt64
  sequenceNumAcknowledgeInterval : UInt64
  lastSequenceNumToReceive : UInt64
  sequenceNumToAcknowledge : UInt64
  messageQueue : MessageQueue
  removeProxyOnLastMessage : Bool
  peerClosed : Bool
  peerLostUnexpectedly : Bool
  deriving DecidableEq, Repr

def Port.accept (d : PortDescriptor) : Port where
  state := .receiving
  peerNodeName := d.peerNodeName
  peerPortName := d.peerPortName
  nextSequenceNumToSend := d.nextSequenceNumToSend
  lastSequenceNumAcknowledged := d.nextSequenceNumToSend - 1
  sequenceNumAcknowledgeInterval := 0
  lastSequenceNumToReceive := d.lastSequenceNumToReceive
  sequenceNumToAcknowledge := 0
  messageQueue := ⟨d.nextSequenceNumToReceive, []⟩
  removeProxyOnLastMessage := false
  peerClosed := d.peerClosed
  peerLostUnexpectedly := false

/-- `Node`; `peerPortMaps` lists the local ports with a given peer. -/
structure Node where
  name : NodeName
  ports : PortName → Option Port
  peerPortMaps : NodeName → PortName → List PortName

def kInvalidPortName : PortName := ⟨0, 0⟩

namespace Node

def setPort (node : Node) (name : PortName) (port : Port) : Node :=
  { node with ports := Function.update node.ports name (some port) }

def setPeers (node : Node) (peerNode : NodeName) (peerPort : PortName)
    (locals : List PortName) : Node :=
  { node with
    peerPortMaps := Function.update node.peerPortMaps peerNode
      (Function.update (node.peerPortMaps peerNode) peerPort locals) }

def removeFromPeerPortMap (node : Node) (localName : PortName) (port : Port) : Node :=
  if port.peerPortName = kInvalidPortName then node
  else node.setPeers port.peerNodeName port.peerPortName
    ((node.peerPortMaps port.peerNodeName port.peerPortName).erase localName)

def updatePortPeerAddress (node : Node) (localName : PortName) (port : Port)
    (newPeerNode : NodeName) (newPeerPort : PortName) : Node :=
  let node := node.removeFromPeerPortMap localName port
  let node := node.setPort localName
    { port with peerNodeName := newPeerNode, peerPortName := newPeerPort }
  if newPeerPort = kInvalidPortName then node
  else node.setPeers newPeerNode newPeerPort
    ((node.peerPortMaps newPeerNode newPeerPort).insert localName)

def zeroPadding : {bs : List UInt8 // bs.length = 7} := ⟨List.replicate 7 0, rfl⟩

/-- `ConvertToProxy` of the port `localName`, which gets the peer `newName`. -/
def convertToProxy (node : Node) (toNode : NodeName) (localName newName : PortName) :
    Option (Node × PortDescriptor) := do
  let port ← node.ports localName
  guard (port.state = .receiving)
  let descriptor : PortDescriptor :=
    { peerNodeName := port.peerNodeName
      peerPortName := port.peerPortName
      referringNodeName := node.name
      referringPortName := localName
      nextSequenceNumToSend := port.nextSequenceNumToSend
      nextSequenceNumToReceive := port.messageQueue.nextSequenceNum
      lastSequenceNumToReceive := port.lastSequenceNumToReceive
      peerClosed := port.peerClosed
      padding := zeroPadding }
  let port := { port with
    state := .buffering
    removeProxyOnLastMessage := port.peerClosed || port.removeProxyOnLastMessage }
  some (node.updatePortPeerAddress localName port toNode newName, descriptor)

def convertToProxies (toNode : NodeName) :
    List (PortName × PortName) → Node → Option (Node × List PortDescriptor)
  | [], node => some (node, [])
  | (localName, newName) :: names, node => do
      let (node, descriptor) ← node.convertToProxy toNode localName newName
      let (node, descriptors) ← convertToProxies toNode names node
      some (node, descriptor :: descriptors)

def attachmentError (node : Node) (peerPortName : PortName) : List PortName → Option Status
  | [] => some .ok
  | name :: names => do
      let port ← node.ports name
      if port.state ≠ .receiving then some .errorPortStateUnexpected
      else if name = peerPortName then some .errorPortCannotSendPeer
      else attachmentError node peerPortName names

end Node

structure UserMessage where
  portName : PortName
  sequenceNum : UInt64
  ports : List PortName
  portDescriptors : List PortDescriptor

inductive Exit where
  | notRouted
  | wrongState
  | peerClosed
  | attachment (error : Status)
  | forwarded (toNode : NodeName)
  deriving DecidableEq

def Exit.status : Exit → Status
  | notRouted => .errorPortStateUnexpected
  | wrongState => .errorPortStateUnexpected
  | peerClosed => .errorPortPeerClosed
  | attachment error => error
  | forwarded _ => .ok

/-- The parameters of `PrepareToForwardUserMessage` besides the message, and the names
that `GenerateRandomPortName` gives. -/
structure ForwardCall where
  forwardingPort : PortName
  expectedPortState : PortState
  ignoreClosedPeer : Bool
  fresh : ℕ → PortName

/-- One round of the loop: the node when the target is read, the message's answer
when it is to be routed externally, and the node when the locks are taken. -/
structure Round where
  seen : Node
  willBeRoutedExternally : Bool
  found : Node

/-- How a call ends: what it found when it took the locks, and what it leaves. -/
structure Forwarded where
  exit : Exit
  found : Node
  left : Node
  message : UserMessage

/-- A message that is not forwarded by a proxy takes the next number of the port. -/
def UserMessage.takeNumber (message : UserMessage) (port : Port) : UserMessage × Port :=
  if message.sequenceNum = 0 then
    ({ message with sequenceNum := port.nextSequenceNumToSend },
      { port with nextSequenceNumToSend := port.nextSequenceNumToSend + 1 })
  else (message, port)

/-- The end of a round: `port` is the forwarding port and `left` the node, with the
number taken. -/
def ForwardCall.sendAttached (call : ForwardCall) (found left : Node) (message : UserMessage)
    (port : Port) : Option Forwarded := do
  let error ← left.attachmentError port.peerPortName message.ports
  if error ≠ .ok then
    return ⟨.attachment error, found, left.setPort call.forwardingPort
        { port with nextSequenceNumToSend := port.nextSequenceNumToSend - 1 }, message⟩
  let message := { message with portName := port.peerPortName }
  if port.peerNodeName = left.name then
    return ⟨.forwarded port.peerNodeName, found, left, message⟩
  let names := message.ports.mapIdx fun i name => (name, call.fresh i)
  let (left, descriptors) ← left.convertToProxies port.peerNodeName names
  return ⟨.forwarded port.peerNodeName, found, left,
    { message with ports := names.map Prod.snd, portDescriptors := descriptors }⟩

/-- The part of a round that holds the locks; `none` as a result starts the next
round. -/
def ForwardCall.locked (call : ForwardCall) (message : UserMessage) (target : NodeName)
    (node : Node) : Option (Option Forwarded) := do
  let port ← node.ports call.forwardingPort
  if port.peerNodeName ≠ target ∧ target = node.name then
    return none
  if port.state ≠ call.expectedPortState then
    return some ⟨.wrongState, node, node, message⟩
  if port.peerClosed ∧ ¬ call.ignoreClosedPeer then
    return some ⟨.peerClosed, node, node, message⟩
  let (message, port) := message.takeNumber port
  return some (← call.sendAttached node (node.setPort call.forwardingPort port) message port)

def ForwardCall.prepareToForwardUserMessage (call : ForwardCall) (message : UserMessage) :
    List Round → Option Forwarded
  | [] => none
  | round :: rounds => do
      let port ← round.seen.ports call.forwardingPort
      if port.peerNodeName ≠ round.seen.name ∧ ¬ round.willBeRoutedExternally then
        return ⟨.notRouted, round.found, round.found, message⟩
      match ← call.locked message port.peerNodeName round.found with
      | some result => return result
      | none => call.prepareToForwardUserMessage message rounds

namespace MessageQueue

def hasNextMessage (queue : MessageQueue) : Bool :=
  queue.heap.contains queue.nextSequenceNum && queue.heap.all (queue.nextSequenceNum ≤ ·)

/-- `GetNextMessage`, with what the filter says of the first message. -/
def getNextMessage (queue : MessageQueue) (matched : Bool) : Option UInt64 × MessageQueue :=
  if queue.hasNextMessage ∧ matched then
    (some queue.nextSequenceNum,
      ⟨queue.nextSequenceNum + 1, queue.heap.erase queue.nextSequenceNum⟩)
  else (none, queue)

end MessageQueue

namespace Port

def canAcceptMoreMessages (port : Port) : Bool :=
  if port.state = .closed then false
  else if port.peerClosed ∨ port.removeProxyOnLastMessage then
    if port.peerLostUnexpectedly then port.messageQueue.hasNextMessage
    else port.lastSequenceNumToReceive ≠ port.messageQueue.nextSequenceNum - 1
  else true

def unacknowledgedMessageCount (port : Port) : UInt64 :=
  port.nextSequenceNumToSend - port.lastSequenceNumAcknowledged - 1

/-- The number of the message and the acknowledgement that is sent. -/
def getMessage (port : Port) (matched : Bool) :
    Except Status (Option UInt64 × Option UInt64 × Port) :=
  if port.state ≠ .receiving then .error .errorPortStateUnexpected
  else if ¬ port.canAcceptMoreMessages then .error .errorPortPeerClosed
  else
    let (message, queue) := port.messageQueue.getNextMessage matched
    let ack := if message = some port.sequenceNumToAcknowledge then message else none
    .ok (message, ack, { port with messageQueue := queue })

def onUserMessageReadAckRequest (port : Port) (sequenceNum : UInt64) :
    Option EventData × Port :=
  if port.state = .proxying then (some (.userMessageReadAckRequest sequenceNum), port)
  else
    let current := port.messageQueue.nextSequenceNum - 1
    if current ≥ sequenceNum then
      (some (.userMessageReadAck current), if current > port.sequenceNumToAcknowledge then
          { port with sequenceNumToAcknowledge := current }
        else port)
    else
      let hasQueuedAckRequest := port.sequenceNumToAcknowledge > current
      if ¬ hasQueuedAckRequest ∨ port.sequenceNumToAcknowledge > sequenceNum then
        (none, { port with sequenceNumToAcknowledge := sequenceNum })
      else (none, port)

def onUserMessageReadAck (port : Port) (sequenceNum : UInt64) : Option EventData × Port :=
  if sequenceNum ≥ port.nextSequenceNumToSend then (none, port)
  else if sequenceNum ≤ port.lastSequenceNumAcknowledged then (none, port)
  else
    let port := { port with lastSequenceNumAcknowledged := sequenceNum }
    (if port.sequenceNumAcknowledgeInterval ≠ 0 ∧ ¬ port.peerClosed then
      some (.userMessageReadAckRequest
        (port.lastSequenceNumAcknowledged + port.sequenceNumAcknowledgeInterval))
    else none, port)

end Port

end ChromiumBase.Ports
