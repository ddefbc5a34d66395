import ChromiumBase.Mojo.Ports.Node

/-!
# A message that cannot be forwarded

`PrepareToForwardUserMessage` numbers a message only if it has no number yet, and
takes the number back whenever an attached port is refused. So a proxy, whose
messages are numbered, loses a number when one of its messages is refused; in all
other cases a call that fails leaves the node as it found it.
-/

open Option

namespace ChromiumBase.Ports

variable {node node' : Node} {call : ForwardCall} {message : UserMessage} {r : Forwarded}
  {name : PortName} {toNode : NodeName}

def Node.nextSequenceNumToSend (node : Node) (name : PortName) : Option UInt64 :=
  (node.ports name).map (·.nextSequenceNumToSend)

/-- A call that fails changes nothing, and one that succeeds takes a number exactly for a
message without one. -/
def Forwarded.Restores (call : ForwardCall) (message : UserMessage) (r : Forwarded) : Prop :=
  (r.exit.status ≠ .ok → r.left = r.found) ∧
  (r.exit.status = .ok → r.left.nextSequenceNumToSend call.forwardingPort =
    (r.found.nextSequenceNumToSend call.forwardingPort).map fun next =>
      if message.sequenceNum = 0 then next + 1 else next)

/-- An attached port that is not receiving, or that is the peer of the forwarding port. -/
def Node.RefusesAttached (node : Node) (peerPortName : PortName) (names : List PortName) : Prop :=
  ∃ name ∈ names, ∃ attached, node.ports name = some attached ∧
    (attached.state ≠ .receiving ∨ name = peerPortName)

/-- The round is the last one: the message cannot be routed, or the peer has not moved away from
this node before the locks were taken. -/
def Round.decides (call : ForwardCall) (round : Round) : Bool :=
  match round.seen.ports call.forwardingPort, round.found.ports call.forwardingPort with
  | some before, some port =>
    before.peerNodeName ≠ round.seen.name && !round.willBeRoutedExternally ||
      !(port.peerNodeName ≠ before.peerNodeName && before.peerNodeName = round.found.name)
  | _, _ => true

/-- The message can be routed, the forwarding port is as expected with a peer that is open or
need not be, and an attached port is refused. -/
def Round.Refuses (call : ForwardCall) (message : UserMessage) (round : Round) : Prop :=
  ∃ before port, round.seen.ports call.forwardingPort = some before ∧
    round.found.ports call.forwardingPort = some port ∧
    (before.peerNodeName = round.seen.name ∨ round.willBeRoutedExternally) ∧
    port.state = call.expectedPortState ∧ (port.peerClosed → call.ignoreClosedPeer) ∧
    round.found.RefusesAttached port.peerPortName message.ports

@[simp] theorem Node.setPort_setPort (node : Node) (name : PortName) (port port' : Port) :
    (node.setPort name port).setPort name port' = node.setPort name port' := by
  simp [setPort]

variable {port port' : Port}

theorem Node.setPort_eq_self_iff (h : node.ports name = some port) (port' : Port) :
    node.setPort name port' = node ↔ port' = port := by
  constructor
  · intro heq
    have hp := congrFun (congrArg Node.ports heq) name
    simpa [setPort, h] using hp
  · rintro rfl
    rw [setPort, ← h, Function.update_eq_self]

theorem Node.nextSequenceNumToSend_setPort (h : node.ports name = some port) (port' : Port)
    (hn : port'.nextSequenceNumToSend = port.nextSequenceNumToSend) :
    (node.setPort name port').nextSequenceNumToSend = node.nextSequenceNumToSend := by
  funext other
  by_cases ho : other = name
  · subst ho
    simp [nextSequenceNumToSend, setPort, h, hn]
  · simp [nextSequenceNumToSend, setPort, Function.update_of_ne ho]

theorem Node.ports_removeFromPeerPortMap (node : Node) (name : PortName) (port : Port) :
    (node.removeFromPeerPortMap name port).ports = node.ports := by
  unfold removeFromPeerPortMap
  split <;> rfl

theorem Node.updatePortPeerAddress_next (h : node.ports name = some port)
    (hn : port'.nextSequenceNumToSend = port.nextSequenceNumToSend) (peerNode : NodeName)
    (peerPort : PortName) :
    (node.updatePortPeerAddress name port' peerNode peerPort).nextSequenceNumToSend =
      node.nextSequenceNumToSend := by
  rw [← nextSequenceNumToSend_setPort h
    { port' with peerNodeName := peerNode, peerPortName := peerPort } hn]
  unfold updatePortPeerAddress nextSequenceNumToSend
  split <;> simp only [setPort, setPeers, ports_removeFromPeerPortMap]

theorem Node.convertToProxy_next {newName : PortName} {d : PortDescriptor}
    (h : node.convertToProxy toNode name newName = some (node', d)) :
    node'.nextSequenceNumToSend = node.nextSequenceNumToSend := by
  simp only [convertToProxy, bind_eq_bind, bind_eq_some_iff] at h
  obtain ⟨port, hp, -, -, rfl, -⟩ := h
  exact updatePortPeerAddress_next hp (by rfl) toNode newName

theorem Node.convertToProxies_next {names : List (PortName × PortName)} {ds : List PortDescriptor}
    (h : node.convertToProxies toNode names = some (node', ds)) :
    node'.nextSequenceNumToSend = node.nextSequenceNumToSend := by
  induction names generalizing node ds with
  | nil => cases h; rfl
  | cons name names ih =>
    simp only [convertToProxies, bind_eq_bind, bind_eq_some_iff] at h
    obtain ⟨⟨node₁, d⟩, hf, ⟨node₂, ds'⟩, hr, heq⟩ := h
    cases heq
    rw [ih hr, convertToProxy_next hf]

theorem UserMessage.takeNumber_eq : (message.takeNumber port).2 = { port with
      nextSequenceNumToSend := if message.sequenceNum = 0 then port.nextSequenceNumToSend + 1
        else port.nextSequenceNumToSend } := by
  unfold takeNumber
  split <;> simp_all

theorem UserMessage.giveBack_eq_iff : { (message.takeNumber port).2 with
      nextSequenceNumToSend := (message.takeNumber port).2.nextSequenceNumToSend - 1 } = port ↔
        message.sequenceNum = 0 := by
  have hone : port.nextSequenceNumToSend - 1 ≠ port.nextSequenceNumToSend :=
    mt UInt64.sub_eq_iff_eq_add.1 (by simp)
  rw [takeNumber_eq, Port.ext_iff]
  by_cases hz : message.sequenceNum = 0
  · simp [hz]
  · simp [hz, hone]

theorem UserMessage.takeNumber_ports : (message.takeNumber port).1.ports = message.ports := by
  unfold takeNumber
  split <;> rfl

/-- The sanity check fails exactly if it refuses a port. -/
theorem Node.attachmentError_ne_ok_iff {peer : PortName} {names : List PortName} {error : Status}
    (h : node.attachmentError peer names = some error) :
    error ≠ .ok ↔ node.RefusesAttached peer names := by
  induction names with
  | nil => cases h; simp [RefusesAttached]
  | cons name names ih =>
    simp only [attachmentError, bind_eq_bind, bind_eq_some_iff] at h
    obtain ⟨attached, hp, h⟩ := h
    rw [RefusesAttached, List.exists_mem_cons_iff, hp]
    split_ifs at h with hst hpeer
    · cases h
      exact iff_of_true (by decide) (.inl ⟨attached, rfl, .inl hst⟩)
    · cases h
      exact iff_of_true (by decide) (.inl ⟨attached, rfl, .inr hpeer⟩)
    · rw [ih h, or_iff_right]
      · rfl
      · rintro ⟨_, ⟨rfl⟩, hbad⟩
        exact hbad.elim hst hpeer

/-- Taking a number refuses no port. -/
theorem Node.refusesAttached_setPort {peer : PortName} {names : List PortName}
    (hp : node.ports name = some port) (hst : port'.state = port.state) :
    (node.setPort name port').RefusesAttached peer names ↔ node.RefusesAttached peer names := by
  refine exists_congr fun other => and_congr_right fun _ => ?_
  by_cases ho : other = name
  · subst ho
    simp [setPort, hp, hst]
  · simp [setPort, Function.update_of_ne ho]

/-- The number is given back even if none was taken. -/
theorem ForwardCall.restores_sendAttached_iff (hpo : node.ports call.forwardingPort = some port)
    (h : call.sendAttached node (node.setPort call.forwardingPort (message.takeNumber port).2)
      (message.takeNumber port).1 (message.takeNumber port).2 = some r) :
    r.Restores call message ↔
      message.sequenceNum = 0 ∨ ¬ node.RefusesAttached port.peerPortName message.ports := by
  have hset : (node.setPort call.forwardingPort (message.takeNumber port).2).nextSequenceNumToSend
      call.forwardingPort = (node.nextSequenceNumToSend call.forwardingPort).map fun next =>
        if message.sequenceNum = 0 then next + 1 else next := by
    simp [Node.nextSequenceNumToSend, Node.setPort, hpo, UserMessage.takeNumber_eq]
  simp only [sendAttached, bind_eq_bind, bind_eq_some_iff] at h
  obtain ⟨error, herror, h⟩ := h
  have href : error ≠ .ok ↔ node.RefusesAttached port.peerPortName message.ports := by
    rw [Node.attachmentError_ne_ok_iff herror, UserMessage.takeNumber_ports,
      Node.refusesAttached_setPort hpo (by rw [UserMessage.takeNumber_eq]),
      UserMessage.takeNumber_eq]
  rw [← href]
  split at h
  next he =>
    cases h
    have hl := Node.setPort_eq_self_iff hpo
    simp [Forwarded.Restores, Exit.status, he, hl, UserMessage.giveBack_eq_iff]
  next he =>
    refine iff_of_true ?_ (.inr he)
    split at h
    · cases h
      exact ⟨fun hne => absurd rfl hne, fun _ => hset⟩
    · obtain ⟨⟨left, ds⟩, hp, h⟩ := bind_eq_some_iff.1 h
      cases h
      refine ⟨fun hne => absurd rfl hne, fun _ => ?_⟩
      rw [← hset, Node.convertToProxies_next hp]

/-- A round starts again exactly if the peer has moved away from this node. -/
theorem ForwardCall.locked_eq_none_iff {target : NodeName} {result : Option Forwarded}
    (hp : node.ports call.forwardingPort = some port)
    (h : call.locked message target node = some result) :
    result = none ↔ port.peerNodeName ≠ target ∧ target = node.name := by
  simp only [locked, hp, bind_eq_bind, bind_some] at h
  split at h
  next hm =>
    cases h
    exact iff_of_true rfl hm
  next hm =>
    refine iff_of_false ?_ hm
    rintro rfl
    split_ifs at h
    · cases h
    · cases h
    · obtain ⟨_, -, heq⟩ := bind_eq_some_iff.1 h
      cases heq

/-- The part of a round that holds the locks. -/
theorem ForwardCall.restores_locked_iff {target : NodeName}
    (hp : node.ports call.forwardingPort = some port)
    (h : call.locked message target node = some (some r)) :
    r.Restores call message ↔ message.sequenceNum = 0 ∨ ¬ (port.state = call.expectedPortState ∧
      (port.peerClosed → call.ignoreClosedPeer) ∧
      node.RefusesAttached port.peerPortName message.ports) := by
  simp only [locked, hp, bind_eq_bind, bind_some] at h
  split at h
  · exact nomatch h
  split at h
  next hst =>
    cases h
    exact iff_of_true ⟨fun _ => rfl, nofun⟩ (.inr fun hr => hst hr.1)
  next hst =>
    split at h
    next hclosed =>
      cases h
      exact iff_of_true ⟨fun _ => rfl, nofun⟩ (.inr fun hr => hclosed.2 (hr.2.1 hclosed.1))
    next hclosed =>
      obtain ⟨r', hr', heq⟩ := bind_eq_some_iff.1 h
      cases heq
      rw [restores_sendAttached_iff hp hr', and_iff_right (not_not.1 hst),
        and_iff_right (by simpa using hclosed)]

/-- A call that fails leaves the node alone, and one that succeeds counts right, exactly if
the message came without a number or the round that decides refuses no attached port. -/
theorem prepareToForwardUserMessage_restores_iff (call : ForwardCall) (message : UserMessage)
    (rounds : List Round) (r : Forwarded)
    (h : call.prepareToForwardUserMessage message rounds = some r) :
    r.Restores call message ↔ message.sequenceNum = 0 ∨
      ∀ round, rounds.find? (·.decides call) = some round → ¬ round.Refuses call message := by
  induction rounds with
  | nil => exact nomatch h
  | cons round rounds ih =>
    have hfirst (hd : round.decides call) : (∀ round', (round :: rounds).find? (·.decides call) =
        some round' → ¬ round'.Refuses call message) ↔ ¬ round.Refuses call message := by
      simp [List.find?_cons_of_pos, hd]
    simp only [ForwardCall.prepareToForwardUserMessage, bind_eq_bind, bind_eq_some_iff] at h
    obtain ⟨before, hb, h⟩ := h
    split at h
    next hroute =>
      cases h
      rw [hfirst (by cases hf : round.found.ports call.forwardingPort <;>
        simp [Round.decides, hb, hf, hroute])]
      refine iff_of_true ⟨fun _ => rfl, nofun⟩ (.inr ?_)
      rintro ⟨before', -, hb', -, hr, -⟩
      obtain rfl := some.inj (hb.symm.trans hb')
      exact hr.elim hroute.1 hroute.2
    next hroute =>
      have hroute' : before.peerNodeName = round.seen.name ∨ round.willBeRoutedExternally := by
        simpa [or_iff_not_imp_left] using hroute
      obtain ⟨result, hl, h⟩ := bind_eq_some_iff.1 h
      obtain ⟨port, hp, -⟩ := bind_eq_some_iff.1 hl
      have hmoved := ForwardCall.locked_eq_none_iff hp hl
      cases result with
      | none =>
        obtain ⟨hne, heq⟩ := hmoved.1 rfl
        rw [List.find?_cons_of_neg (by
          simpa [Round.decides, hb, hp, heq, heq ▸ hne] using hroute)]
        exact ih h
      | some result =>
        cases h
        rw [hfirst (by simpa [Round.decides, hb, hp] using .inr (by
          simpa [or_iff_not_imp_left] using hmoved)),
          ForwardCall.restores_locked_iff hp hl]
        simp [Round.Refuses, hb, hp, hroute']

def proxyAndClosed : Node where
  name := ⟨0, 1⟩
  ports name :=
    let port := Port.accept
      ⟨⟨0, 1⟩, ⟨0, 3⟩, ⟨0, 1⟩, ⟨0, 3⟩, 5, 1, 0, false, Node.zeroPadding⟩
    if name = ⟨0, 2⟩ then some { port with state := .proxying }
    else if name = ⟨0, 4⟩ then some { port with state := .closed }
    else none
  peerPortMaps _ _ := []

def forwardClosed (sequenceNum : UInt64) : Option Forwarded :=
  ForwardCall.prepareToForwardUserMessage ⟨⟨0, 2⟩, .proxying, true, fun _ => kInvalidPortName⟩
    ⟨⟨0, 2⟩, sequenceNum, [⟨0, 4⟩], []⟩ [⟨proxyAndClosed, true, proxyAndClosed⟩]

/-- Without a number the message takes one and gives it back. -/
theorem prepareToForwardUserMessage_unnumbered : ∃ r, forwardClosed 0 = some r ∧
    r.exit.status = .errorPortStateUnexpected ∧
    r.Restores ⟨⟨0, 2⟩, .proxying, true, fun _ => kInvalidPortName⟩
      ⟨⟨0, 2⟩, 0, [⟨0, 4⟩], []⟩ :=
  ⟨_, rfl, rfl, (prepareToForwardUserMessage_restores_iff _ _
    [⟨proxyAndClosed, true, proxyAndClosed⟩] _ rfl).mpr (.inl rfl)⟩

/-- With a number it gives back one that it did not take. -/
theorem prepareToForwardUserMessage_numbered : ∃ r, forwardClosed 7 = some r ∧
    r.exit.status = .errorPortStateUnexpected ∧ r.found.nextSequenceNumToSend ⟨0, 2⟩ = some 5 ∧
    r.left.nextSequenceNumToSend ⟨0, 2⟩ = some 4 :=
  ⟨_, rfl, rfl, rfl, rfl⟩

end ChromiumBase.Ports
