import ChromiumBase.Lib.Codec

/-!
# Port events and their wire format

The events that nodes exchange (`mojo/core/ports/event.cc`), their layout in
memory and `Event::Deserialize`. The layouts are those of the packed structures
of the source, field by field; the buffer an event is read from starts at
address 0.
-/

open Memory Traced Codec

namespace ChromiumBase.Ports

structure Name where
  v1 : UInt64
  v2 : UInt64
  deriving DecidableEq, Repr

abbrev PortName := Name

abbrev NodeName := Name

structure PortDescriptor where
  peerNodeName : NodeName
  peerPortName : PortName
  referringNodeName : NodeName
  referringPortName : PortName
  nextSequenceNumToSend : UInt64
  nextSequenceNumToReceive : UInt64
  lastSequenceNumToReceive : UInt64
  peerClosed : Bool
  padding : {bs : List UInt8 // bs.length = 7}
  deriving DecidableEq

/-- The fields of a user message event besides the port it is sent to. There is
one descriptor for every attached port. -/
structure UserMessageData where
  sequenceNum : UInt64
  portDescriptors : List PortDescriptor
  ports : List PortName
  length_eq : portDescriptors.length = ports.length
  deriving DecidableEq

structure ObserveProxyData where
  proxyNodeName : NodeName
  proxyPortName : PortName
  proxyTargetNodeName : NodeName
  proxyTargetPortName : PortName
  deriving DecidableEq

structure MergePortData where
  newPortName : PortName
  newPortDescriptor : PortDescriptor
  deriving DecidableEq

inductive EventType where
  | userMessage
  | portAccepted
  | observeProxy
  | observeProxyAck
  | observeClosure
  | mergePort
  | userMessageReadAckRequest
  | userMessageReadAck
  deriving DecidableEq, Repr

inductive EventData where
  | userMessage (data : UserMessageData)
  | portAccepted
  | observeProxy (data : ObserveProxyData)
  | observeProxyAck (lastSequenceNum : UInt64)
  | observeClosure (lastSequenceNum : UInt64)
  | mergePort (data : MergePortData)
  | userMessageReadAckRequest (sequenceNumToAcknowledge : UInt64)
  | userMessageReadAck (sequenceNumAcknowledged : UInt64)
  deriving DecidableEq

structure Event where
  portName : PortName
  data : EventData
  deriving DecidableEq

namespace EventType

def toCode : EventType → UInt32
  | userMessage => 0
  | portAccepted => 1
  | observeProxy => 2
  | observeProxyAck => 3
  | observeClosure => 4
  | mergePort => 5
  | userMessageReadAckRequest => 6
  | userMessageReadAck => 7

def ofCode (code : UInt32) : Option EventType :=
  [userMessage, portAccepted, observeProxy, observeProxyAck, observeClosure,
    mergePort, userMessageReadAckRequest, userMessageReadAck][code.toNat]?

end EventType

namespace Event

def type (e : Event) : EventType :=
  match e.data with
  | .userMessage _ => .userMessage
  | .portAccepted => .portAccepted
  | .observeProxy _ => .observeProxy
  | .observeProxyAck _ => .observeProxyAck
  | .observeClosure _ => .observeClosure
  | .mergePort _ => .mergePort
  | .userMessageReadAckRequest _ => .userMessageReadAckRequest
  | .userMessageReadAck _ => .userMessageReadAck

def numPorts (e : Event) : ℕ :=
  match e.data with
  | .userMessage data => data.ports.length
  | _ => 0

def nameCodec : Codec Name :=
  (uint64.pair .uint64).map (fun p => ⟨p.1, p.2⟩) (fun n => (n.v1, n.v2))
    fun _ => rfl

def portDescriptorCodec : Codec PortDescriptor :=
  (nameCodec.pair <| nameCodec.pair <| nameCodec.pair <| nameCodec.pair <|
    uint64.pair <| uint64.pair <| uint64.pair <|
    bool.pair (.bytes 7)).map
    (fun ⟨a, b, c, d, e, f, g, h, i⟩ => ⟨a, b, c, d, e, f, g, h, i⟩)
    (fun ⟨a, b, c, d, e, f, g, h, i⟩ => ⟨a, b, c, d, e, f, g, h, i⟩)
    fun _ => rfl

def observeProxyCodec : Codec ObserveProxyData :=
  (nameCodec.pair <| nameCodec.pair <| nameCodec.pair nameCodec).map
    (fun ⟨a, b, c, d⟩ => ⟨a, b, c, d⟩) (fun ⟨a, b, c, d⟩ => ⟨a, b, c, d⟩) fun _ => rfl

def mergePortCodec : Codec MergePortData :=
  (nameCodec.pair portDescriptorCodec).map (fun ⟨a, b⟩ => ⟨a, b⟩)
    (fun ⟨a, b⟩ => ⟨a, b⟩) fun _ => rfl

def headerSize : ℕ := 24

def userMessageHeaderSize : ℕ := 16

example : nameCodec.size = 16 := rfl

example : portDescriptorCodec.size = 96 := rfl

/-- `UserMessageEvent::SerializeData`; the number of ports is cast to 32 bits. -/
def serializeUserMessage (data : UserMessageData) : List UInt8 :=
  uint64.encode data.sequenceNum ++
    (uint32.encode (UInt32.ofNat data.ports.length) ++
      (uint32.encode 0 ++
        (portDescriptorCodec.encodeList data.portDescriptors ++
          nameCodec.encodeList data.ports)))

def serializeData : EventData → List UInt8
  | .userMessage data => serializeUserMessage data
  | .portAccepted => []
  | .observeProxy data => observeProxyCodec.encode data
  | .observeProxyAck lastSequenceNum => uint64.encode lastSequenceNum
  | .observeClosure lastSequenceNum => uint64.encode lastSequenceNum
  | .mergePort data => mergePortCodec.encode data
  | .userMessageReadAckRequest sequenceNum => uint64.encode sequenceNum
  | .userMessageReadAck sequenceNum => uint64.encode sequenceNum

def serialize (e : Event) : List UInt8 :=
  uint32.encode e.type.toCode ++
    (uint32.encode 0 ++ (nameCodec.encode e.portName ++ serializeData e.data))

/-- The checked arithmetic over the port count has no result when it overflows. -/
def getSerializedDataSize : EventData → Option ℕ
  | .userMessage data =>
    let size := userMessageHeaderSize +
      (portDescriptorCodec.size + nameCodec.size) * data.ports.length
    if size < 2 ^ 64 then some size else none
  | .portAccepted => some 0
  | .observeProxy _ => some observeProxyCodec.size
  | .mergePort _ => some mergePortCodec.size
  | _ => some uint64.size

def getSerializedSize (e : Event) : Option ℕ :=
  (getSerializedDataSize e.data).map fun size => (headerSize + size) % 2 ^ 64

/-- The `Deserialize` of an event class whose data is one packed structure: a
length check, then the fields. -/
def deserializeStruct {α : Type} (c : Codec α) (make : α → EventData)
    (portName : PortName) (m : Mem) (buffer numBytes : ℕ) : Traced (Option Event) :=
  if numBytes < c.size then
    pure none
  else
    c.read m buffer >>= fun a => pure (some ⟨portName, make a⟩)

def makeUserMessage (portName : PortName) (sequenceNum : UInt64)
    (portDescriptors : List PortDescriptor) (ports : List PortName) : Option Event :=
  if h : portDescriptors.length = ports.length then
    some ⟨portName, .userMessage ⟨sequenceNum, portDescriptors, ports, h⟩⟩
  else
    none

def deserializeUserMessage (portName : PortName) (m : Mem) (buffer numBytes : ℕ) :
    Traced (Option Event) :=
  if numBytes < userMessageHeaderSize then
    pure none
  else
    uint32.read m (buffer + 8) >>= fun numPorts =>
      let portDataSize := numPorts.toNat * (portDescriptorCodec.size + nameCodec.size)
      let totalSize := portDataSize + userMessageHeaderSize
      if 2 ^ 64 ≤ portDataSize ∨ 2 ^ 64 ≤ totalSize ∨ numBytes < totalSize then
        pure none
      else
        let inDescriptors := buffer + userMessageHeaderSize
        let inNames := inDescriptors + numPorts.toNat * portDescriptorCodec.size
        uint64.read m buffer >>= fun sequenceNum =>
        portDescriptorCodec.readList m inDescriptors numPorts.toNat >>= fun descriptors =>
        nameCodec.readList m inNames numPorts.toNat >>= fun names =>
          pure (makeUserMessage portName sequenceNum descriptors names)

def deserializePortAccepted (portName : PortName) : Traced (Option Event) :=
  pure (some ⟨portName, .portAccepted⟩)

def deserializeObserveProxy := deserializeStruct observeProxyCodec .observeProxy

def deserializeObserveProxyAck := deserializeStruct .uint64 .observeProxyAck

def deserializeObserveClosure := deserializeStruct .uint64 .observeClosure

def deserializeMergePort := deserializeStruct mergePortCodec .mergePort

/-- `UserMessageReadAckRequestEvent::Deserialize`, which `deserialize` does not
call. -/
def deserializeUserMessageReadAckRequest :=
  deserializeStruct .uint64 .userMessageReadAckRequest

/-- `UserMessageReadAckEvent::Deserialize`, which `deserialize` does not call. -/
def deserializeUserMessageReadAck := deserializeStruct .uint64 .userMessageReadAck

/-- The switch has no case for the two read acknowledgement types, so these fall to the default like
an unknown type. -/
def deserialize (m : Mem) (numBytes : ℕ) : Traced (Option Event) :=
  if numBytes < headerSize then
    pure none
  else
    let dataSize := numBytes - headerSize
    uint32.read m 0 >>= fun type =>
    nameCodec.read m 8 >>= fun portName =>
      match EventType.ofCode type with
      | some .userMessage => deserializeUserMessage portName m headerSize dataSize
      | some .portAccepted => deserializePortAccepted portName
      | some .observeProxy => deserializeObserveProxy portName m headerSize dataSize
      | some .observeProxyAck => deserializeObserveProxyAck portName m headerSize dataSize
      | some .observeClosure => deserializeObserveClosure portName m headerSize dataSize
      | some .mergePort => deserializeMergePort portName m headerSize dataSize
      | some .userMessageReadAckRequest | some .userMessageReadAck | none => pure none

variable {buffer numBytes n : ℕ} {α : Type} {m : Mem} {e : Event}

theorem within_deserializeStruct (c : Codec α) (make : α → EventData) (portName : PortName)
    (m : Mem) (h : buffer + numBytes ≤ n) :
    (deserializeStruct c make portName m buffer numBytes).Within n := by
  unfold deserializeStruct
  split
  · exact within_pure _ _
  · exact within_bind (within_read m) (within_pure _ _)

theorem within_deserializeUserMessage (portName : PortName) (m : Mem) (h : buffer + numBytes ≤ n) :
    (deserializeUserMessage portName m buffer numBytes).Within n := by
  have hd : portDescriptorCodec.size = 96 := rfl
  have hn : nameCodec.size = 16 := rfl
  have h32 : uint32.size = 4 := rfl
  have h64 : uint64.size = 8 := rfl
  unfold deserializeUserMessage
  simp only [userMessageHeaderSize, hd, hn]
  split
  · exact within_pure _ _
  · refine within_bind (within_read m) ?_
    split
    · exact within_pure _ _
    · refine within_bind (within_read m) ?_
      refine within_bind (within_readList m (by rw [hd]; omega)) ?_
      exact within_bind (within_readList m (by rw [hn]; omega))
        (within_pure _ _)

/-- No event is read beyond the bytes given, whatever they are. -/
theorem within_deserialize (m : Mem) (numBytes : ℕ) : (deserialize m numBytes).Within numBytes := by
  have hn : nameCodec.size = 16 := rfl
  have h32 : uint32.size = 4 := rfl
  have hh : headerSize = 24 := rfl
  unfold deserialize
  split
  · exact within_pure _ _
  · refine within_bind (within_read m) ?_
    refine within_bind (within_read m) ?_
    split
    · exact within_deserializeUserMessage _ m (by omega)
    · exact within_pure _ _
    iterate 4 exact within_deserializeStruct _ _ _ m (by omega)
    all_goals exact within_pure _ _

variable {c : Codec α} {make : α → EventData} {portName : PortName}

theorem deserializeStruct_encode {a : α} (h : HoldsAt m buffer (c.encode a)) :
    (deserializeStruct c make portName m buffer c.size).result = some ⟨portName, make a⟩ := by
  rw [deserializeStruct, if_neg (lt_irrefl _)]
  simp only [result_bind, result_pure, read_result h]

/-- A user message is read back with all its ports. -/
theorem deserializeUserMessage_serialize {data : UserMessageData}
    (hp : data.ports.length < 2 ^ 32) (h : HoldsAt m buffer (serializeUserMessage data)) :
    (deserializeUserMessage portName m buffer
      (userMessageHeaderSize +
        (portDescriptorCodec.size + nameCodec.size) * data.ports.length)).result =
      some ⟨portName, .userMessage data⟩ := by
  have hs : portDescriptorCodec.size + nameCodec.size = 112 := rfl
  have hseq : HoldsAt m buffer (uint64.encode data.sequenceNum) := h.left
  have hc : HoldsAt m (buffer + 8)
      (uint32.encode (UInt32.ofNat data.ports.length)) := h.right.left
  have hr : HoldsAt m (buffer + 16) (portDescriptorCodec.encodeList
      data.portDescriptors ++ nameCodec.encodeList data.ports) := h.right.right.right
  have hnum : (UInt32.ofNat data.ports.length).toNat = data.ports.length :=
    UInt32.toNat_ofNat_of_lt' hp
  have hn := hr.right
  rw [length_encodeList, data.length_eq] at hn
  have hd := readList_result hr.left
  rw [data.length_eq] at hd
  unfold deserializeUserMessage
  simp only [userMessageHeaderSize, hs]
  rw [if_neg (by omega), result_bind, read_result hc, hnum, if_neg (by omega)]
  simp only [result_bind, read_result hseq, hd, readList_result hn, result_pure,
    makeUserMessage, dif_pos data.length_eq]

/-- The events that `deserialize` can return: their type has a case in the
switch, and their port count fits the field that stores it. -/
def Covered (e : Event) : Prop :=
  e.type ≠ .userMessageReadAckRequest ∧ e.type ≠ .userMessageReadAck ∧
    e.numPorts < 2 ^ 32

instance (e : Event) : Decidable e.Covered := inferInstanceAs (Decidable (_ ∧ _))

theorem covered_of_deserializeUserMessage
    (h : (deserializeUserMessage portName m buffer numBytes).result = some e) : e.Covered := by
  unfold deserializeUserMessage at h
  split at h
  · cases h
  · simp only [result_bind] at h
    split at h
    · cases h
    · simp only [result_bind, makeUserMessage] at h
      split at h
      · cases h
        exact ⟨nofun, nofun, by simpa [numPorts] using UInt32.toNat_lt _⟩
      · cases h

theorem covered_of_deserializeStruct
    (h : (deserializeStruct c make portName m buffer numBytes).result = some e)
    (hm : ∀ a, Covered ⟨portName, make a⟩) : e.Covered := by
  unfold deserializeStruct at h
  split at h
  · cases h
  · rw [← Option.some.inj h]
    exact hm _

theorem covered_of_deserialize (h : (deserialize m numBytes).result = some e) : e.Covered := by
  unfold deserialize at h
  split at h
  · cases h
  · simp only [result_bind] at h
    have hpos := Nat.two_pow_pos 32
    split at h
    · exact covered_of_deserializeUserMessage h
    · rw [← Option.some.inj h]
      exact ⟨nofun, nofun, hpos⟩
    iterate 4 exact covered_of_deserializeStruct h fun _ => ⟨nofun, nofun, hpos⟩
    all_goals cases h

theorem deserialize_of_holds (size : ℕ) (h : HoldsAt m 0 e.serialize) :
    (deserialize m (headerSize + size)).result = (match e.type with
      | .userMessage => deserializeUserMessage e.portName m headerSize size
      | .portAccepted => deserializePortAccepted e.portName
      | .observeProxy => deserializeObserveProxy e.portName m headerSize size
      | .observeProxyAck => deserializeObserveProxyAck e.portName m headerSize size
      | .observeClosure => deserializeObserveClosure e.portName m headerSize size
      | .mergePort => deserializeMergePort e.portName m headerSize size
      | .userMessageReadAckRequest | .userMessageReadAck => pure none).result := by
  have ht : HoldsAt m 0 (uint32.encode e.type.toCode) := h.left
  have hn : HoldsAt m 8 (nameCodec.encode e.portName) := h.right.right.left
  rw [deserialize, if_neg (by omega)]
  simp only [result_bind, read_result ht, read_result hn, Nat.add_sub_cancel_left]
  cases e.type <;> rfl

/-- An event whose type the switch knows is read back. -/
theorem deserialize_of_covered {size : ℕ} (hs : e.getSerializedSize = some size)
    (hm : HoldsAt m 0 e.serialize) (hc : e.Covered) : (deserialize m size).result = some e := by
  obtain ⟨portName, data⟩ := e
  have hd : HoldsAt m headerSize (serializeData data) := hm.right.right.right
  cases data with
  | userMessage data =>
    have hp : data.ports.length < 2 ^ 32 := hc.2.2
    have hco : portDescriptorCodec.size + nameCodec.size = 112 := rfl
    have ht : getSerializedSize ⟨portName, .userMessage data⟩ =
        some (headerSize + (userMessageHeaderSize +
          (portDescriptorCodec.size + nameCodec.size) * data.ports.length)) := by
      simp only [getSerializedSize, getSerializedDataSize, hco, headerSize, userMessageHeaderSize]
      rw [if_pos (by omega), Option.map_some, Nat.mod_eq_of_lt (by omega)]
    rw [ht] at hs
    cases hs
    rw [deserialize_of_holds _ hm]
    exact deserializeUserMessage_serialize hp hd
  | portAccepted =>
    cases hs
    exact deserialize_of_holds 0 hm
  | observeProxy data =>
    cases hs
    exact (deserialize_of_holds observeProxyCodec.size hm).trans
      (deserializeStruct_encode hd)
  | observeProxyAck lastSequenceNum | observeClosure lastSequenceNum =>
    cases hs
    exact (deserialize_of_holds uint64.size hm).trans
      (deserializeStruct_encode hd)
  | mergePort data =>
    cases hs
    exact (deserialize_of_holds mergePortCodec.size hm).trans
      (deserializeStruct_encode hd)
  | userMessageReadAckRequest sequenceNum => exact absurd rfl hc.1
  | userMessageReadAck sequenceNum => exact absurd rfl hc.2.1

/-- An event is read back from its bytes exactly when its type has a case in
the switch and its port count fits the field that stores it; and no read goes
past the end of the buffer. -/
theorem deserialize_serialize (e : Event) (size : ℕ) (m : Mem)
    (hsize : e.getSerializedSize = some size) (hm : HoldsAt m 0 e.serialize)
    (m' : Mem) (numBytes : ℕ) : ((deserialize m size).result = some e ↔
      e.type ≠ .userMessageReadAckRequest ∧ e.type ≠ .userMessageReadAck ∧ e.numPorts < 2 ^ 32) ∧
    (deserialize m' numBytes).Within numBytes :=
  ⟨⟨covered_of_deserialize, deserialize_of_covered hsize hm⟩, within_deserialize m' numBytes⟩

/-- A closure event is read back, and reading a header that is cut short stays
inside its bytes. -/
theorem deserialize_serialize_observeClosure :
    let e : Event := ⟨⟨1, 2⟩, .observeClosure 5⟩
    (deserialize (ofList e.serialize) 32).result = some e ∧
      (deserialize (ofList e.serialize) 24).Within 24 := by
  intro e
  have h := deserialize_serialize e 32 _ rfl (holdsAt_ofList _) (ofList e.serialize) 24
  exact ⟨h.1.mpr ⟨by decide, by decide, by decide⟩, h.2⟩

/-- A read acknowledgement is not read back from its own bytes. -/
theorem deserialize_serialize_userMessageReadAck :
    let e : Event := ⟨⟨1, 2⟩, .userMessageReadAck 5⟩
    e.getSerializedSize = some 32 ∧
      (deserialize (ofList e.serialize) 32).result = none := by
  decide

end Event

end ChromiumBase.Ports
