import ChromiumBase.Lib.RingBuffer
import Mathlib.Algebra.Group.Nat.Defs

/-!
# Data pipes

The two ends of a data pipe, `data_pipe_producer_dispatcher.cc` and
`data_pipe_consumer_dispatcher.cc`. They share a ring of bytes, and each keeps
its own counters; what the other end did it learns from control messages. A
function of a dispatcher takes the fields of the dispatcher and returns them,
with the `MojoResult`, the control messages it sends and the bytes it moves. A
`DCHECK` or `CHECK` that fails gives `none`.

Left out are the watchers and what only they see: the signals, `peer_remote_` and
`new_data_available_`.
-/

namespace ChromiumBase.DataPipe

open RingBuffer

inductive MojoResult where
  | ok
  | invalidArgument
  | failedPrecondition
  | resourceExhausted
  | busy
  | shouldWait
  | outOfRange
  deriving DecidableEq, Repr

inductive Command where
  | dataWasWritten
  | dataWasRead
  deriving DecidableEq, Repr

structure ControlMessage where
  command : Command
  numBytes : ℕ
  deriving DecidableEq, Repr

structure Options where
  elementNumBytes : ℕ
  capacityNumBytes : ℕ
  deriving DecidableEq, Repr

/-- The fields of `DataPipeProducerDispatcher`. The ring buffer is valid until
the dispatcher is closed. -/
structure Producer where
  writeOffset : ℕ
  availableCapacity : ℕ
  inTwoPhaseWrite : Bool
  peerClosed : Bool
  inTransit : Bool
  isClosed : Bool
  deriving DecidableEq, Repr

structure Consumer where
  readOffset : ℕ
  bytesAvailable : ℕ
  inTwoPhaseRead : Bool
  twoPhaseMaxBytesRead : ℕ
  peerClosed : Bool
  inTransit : Bool
  isClosed : Bool
  deriving DecidableEq, Repr

def sum32 (a b : ℕ) : ℕ := (a + b) % 2 ^ 32

def check {α : Type} (c : Prop) [Decidable c] (rest : Option α) : Option α :=
  if c then rest else none

/-- What a call on the producer gives: `committed` are the bytes it hands over. -/
structure Wrote where
  result : MojoResult
  producer : Producer
  ring : List UInt8
  sent : List ControlMessage
  committed : List UInt8

def Wrote.refused (result : MojoResult) (p : Producer) (ring : List UInt8) : Wrote :=
  ⟨result, p, ring, [], []⟩

namespace Producer

variable (p : Producer) (o : Options)

def writeData (elements : List UInt8) (allOrNone : Bool) (p : Producer)
    (ring : List UInt8) : Option Wrote :=
  let numBytes := elements.length
  if p.isClosed ∨ p.inTransit then
    some (.refused .invalidArgument p ring)
  else if p.inTwoPhaseWrite then
    some (.refused .busy p ring)
  else if p.peerClosed then
    some (.refused .failedPrecondition p ring)
  else if numBytes % o.elementNumBytes ≠ 0 then
    some (.refused .invalidArgument p ring)
  else if numBytes = 0 then
    some (.refused .ok p ring)
  else if allOrNone ∧ numBytes > p.availableCapacity then
    some (.refused .outOfRange p ring)
  else check (p.availableCapacity ≤ o.capacityNumBytes) <|
    let numBytesToWrite := min numBytes p.availableCapacity
    if numBytesToWrite = 0 then
      some (.refused .shouldWait p ring)
    else check (p.writeOffset ≤ o.capacityNumBytes) <|
      let tailBytesToWrite := min (o.capacityNumBytes - p.writeOffset) numBytesToWrite
      let headBytesToWrite := numBytesToWrite - tailBytesToWrite
      check (0 < tailBytesToWrite) <|
      let ring := overwrite ring p.writeOffset (elements.take tailBytesToWrite)
      let ring :=
        if headBytesToWrite > 0 then
          overwrite ring 0 ((elements.drop tailBytesToWrite).take headBytesToWrite)
        else ring
      check (numBytesToWrite ≤ p.availableCapacity) <|
      some
        { result := .ok
          producer := { p with
            availableCapacity := p.availableCapacity - numBytesToWrite
            writeOffset := sum32 p.writeOffset numBytesToWrite % o.capacityNumBytes }
          ring := ring
          sent := [⟨.dataWasWritten, numBytesToWrite⟩]
          committed := elements.take numBytesToWrite }

/-- On success the number of bytes of the buffer that is handed out, which starts at the write
offset. -/
def beginWriteData (p : Producer) : Option (MojoResult × ℕ × Producer) :=
  if p.isClosed ∨ p.inTransit then
    some (.invalidArgument, 0, p)
  else if p.inTwoPhaseWrite then
    some (.busy, 0, p)
  else if p.peerClosed then
    some (.failedPrecondition, 0, p)
  else if p.availableCapacity = 0 then
    some (if p.peerClosed then .failedPrecondition else .shouldWait, 0, p)
  else
    let bufferNumBytes := min (o.capacityNumBytes - p.writeOffset) p.availableCapacity
    check (0 < bufferNumBytes) <|
    some (.ok, bufferNumBytes, { p with inTwoPhaseWrite := true })

def endWriteData (numBytesWritten : ℕ) (p : Producer) (ring : List UInt8) : Option Wrote :=
  if p.isClosed ∨ p.inTransit then
    some (.refused .invalidArgument p ring)
  else if ¬ p.inTwoPhaseWrite then
    some (.refused .failedPrecondition p ring)
  else if numBytesWritten > p.availableCapacity ∨
      numBytesWritten % o.elementNumBytes ≠ 0 ∨
      sum32 p.writeOffset numBytesWritten > o.capacityNumBytes then
    some (.refused .invalidArgument { p with inTwoPhaseWrite := false } ring)
  else check (sum32 numBytesWritten p.writeOffset ≤ o.capacityNumBytes) <|
    some
      { result := .ok
        producer := { p with
          availableCapacity := p.availableCapacity - numBytesWritten
          writeOffset := sum32 p.writeOffset numBytesWritten % o.capacityNumBytes
          inTwoPhaseWrite := false }
        ring := ring
        sent := [⟨.dataWasWritten, numBytesWritten⟩]
        committed := (ring.drop p.writeOffset).take numBytesWritten }

/-- The loop of `UpdateSignalsStateNoLock` over the messages that have arrived;
behind them `GetMessage` fails if the peer is known to be closed. The messages
behind one that is refused stay in the port. -/
def receive (o : Options) (closureKnown : Bool) :
    List ControlMessage → Producer → Producer × List ControlMessage
  | [], p => ({ p with peerClosed := p.peerClosed || closureKnown }, [])
  | m :: ms, p =>
    if m.command ≠ .dataWasRead then
      ({ p with peerClosed := true }, ms)
    else if p.availableCapacity + m.numBytes > o.capacityNumBytes then
      (p, ms)
    else
      receive o closureKnown ms
        { p with availableCapacity := p.availableCapacity + m.numBytes }

def updateSignalsState (closureKnown : Bool) (arrived : List ControlMessage)
    (p : Producer) : Producer × List ControlMessage :=
  if arrived = [] ∧ closureKnown then
    ({ p with peerClosed := true }, [])
  else if arrived ≠ [] ∧ ¬ p.inTransit then
    receive o closureKnown arrived p
  else
    (p, arrived)

def beginTransit : Producer :=
  if p.inTransit then p else { p with inTransit := !p.inTwoPhaseWrite }

def cancelTransit : Producer := { p with inTransit := false }

def close : Producer :=
  if p.isClosed ∨ p.inTransit then p else { p with isClosed := true }

/-- `Deserialize` of the fields that `EndSerialize` wrote; `none` if they are not
plausible. -/
def deserialize (p : Producer) : Option Producer :=
  if o.capacityNumBytes = 0 ∨ o.elementNumBytes = 0 ∨
      o.capacityNumBytes < o.elementNumBytes ∨
      p.writeOffset ≥ o.capacityNumBytes ∨ p.availableCapacity > o.capacityNumBytes then
    none
  else
    some { p with inTwoPhaseWrite := false, inTransit := false, isClosed := false }

end Producer

structure ReadFlags where
  allOrNone : Bool
  discard : Bool
  query : Bool
  peek : Bool
  deriving DecidableEq, Repr

/-- What a call on the consumer gives: `data` is what the caller's array holds
then, `numBytes` the value of `*num_bytes`, and `consumed` are the bytes that
leave the pipe. -/
structure Read where
  result : MojoResult
  consumer : Consumer
  sent : List ControlMessage
  numBytes : ℕ
  data : List UInt8
  consumed : List UInt8

def Read.refused (result : MojoResult) (c : Consumer) (numBytes : ℕ) : Read :=
  ⟨result, c, [], numBytes, [], []⟩

namespace Consumer

def starved (otherwise : MojoResult) (c : Consumer) : MojoResult :=
  if c.peerClosed then .failedPrecondition else otherwise

variable (o : Options) (c : Consumer)

def readData (flags : ReadFlags) (numBytes : ℕ) (c : Consumer)
    (ring : List UInt8) : Option Read :=
  if c.isClosed ∨ c.inTransit then
    some (.refused .invalidArgument c numBytes)
  else if c.inTwoPhaseRead then
    some (.refused .busy c numBytes)
  else if flags.query then
    if flags.peek ∨ flags.discard then some (.refused .invalidArgument c numBytes)
    else some (.refused .ok c c.bytesAvailable)
  else if flags.discard ∧ flags.peek then
    some (.refused .invalidArgument c numBytes)
  else if numBytes % o.elementNumBytes ≠ 0 then
    some (.refused .invalidArgument c numBytes)
  else
    let minNumBytesToRead := if flags.allOrNone then numBytes else 0
    if minNumBytesToRead > c.bytesAvailable then
      some (.refused (c.starved .outOfRange) c numBytes)
    else
      let bytesToRead := min numBytes c.bytesAvailable
      if bytesToRead = 0 then
        some (.refused (c.starved .shouldWait) c numBytes)
      else check (flags.discard ∨ c.readOffset ≤ o.capacityNumBytes) <|
        let tailBytesToCopy := min (o.capacityNumBytes - c.readOffset) bytesToRead
        let headBytesToCopy := bytesToRead - tailBytesToCopy
        let copied := (ring.drop c.readOffset).take tailBytesToCopy ++ ring.take headBytesToCopy
        if flags.discard ∨ ¬ flags.peek then
          some
            { result := .ok
              consumer := { c with
                readOffset := sum32 c.readOffset bytesToRead % o.capacityNumBytes
                bytesAvailable := c.bytesAvailable - bytesToRead }
              sent := [⟨.dataWasRead, bytesToRead⟩]
              numBytes := bytesToRead
              data := if flags.discard then [] else copied
              consumed := if flags.discard then readAround ring c.readOffset bytesToRead
                else copied }
        else
          some
            { result := .ok, consumer := c, sent := [], numBytes := bytesToRead
              data := copied, consumed := [] }

def beginReadData : Option (MojoResult × ℕ × Consumer) :=
  if c.isClosed ∨ c.inTransit then
    some (.invalidArgument, 0, c)
  else if c.inTwoPhaseRead then
    some (.busy, 0, c)
  else if c.bytesAvailable = 0 then
    some (c.starved .shouldWait, 0, c)
  else check (c.readOffset < o.capacityNumBytes) <|
    let bytesToRead := min c.bytesAvailable (o.capacityNumBytes - c.readOffset)
    some (.ok, bytesToRead, { c with inTwoPhaseRead := true, twoPhaseMaxBytesRead := bytesToRead })

/-- The bytes were read from the buffer that `BeginReadData` handed out. -/
def endReadData (numBytesRead : ℕ) (c : Consumer) (ring : List UInt8) : Option Read :=
  if ¬ c.inTwoPhaseRead then
    some (.refused .failedPrecondition c numBytesRead)
  else if c.inTransit then
    some (.refused .invalidArgument c numBytesRead)
  else check (¬ c.isClosed) <|
    if numBytesRead > c.twoPhaseMaxBytesRead ∨ numBytesRead % o.elementNumBytes ≠ 0 then
      some (.refused .invalidArgument
        { c with inTwoPhaseRead := false, twoPhaseMaxBytesRead := 0 } numBytesRead)
    else check (c.bytesAvailable ≥ numBytesRead) <|
      some
        { result := .ok
          consumer := { c with
            readOffset := sum32 c.readOffset numBytesRead % o.capacityNumBytes
            bytesAvailable := c.bytesAvailable - numBytesRead
            inTwoPhaseRead := false
            twoPhaseMaxBytesRead := 0 }
          sent := [⟨.dataWasRead, numBytesRead⟩]
          numBytes := numBytesRead
          data := []
          consumed := (ring.drop c.readOffset).take numBytesRead }

/-- The loop of `UpdateSignalsStateNoLock`. Unlike the producer, the consumer
gives up on a peer that claims too much. -/
def receive (o : Options) (closureKnown : Bool) :
    List ControlMessage → Consumer → Consumer × List ControlMessage
  | [], c => ({ c with peerClosed := c.peerClosed || closureKnown }, [])
  | m :: ms, c =>
    if m.command ≠ .dataWasWritten then
      ({ c with peerClosed := true }, ms)
    else if c.bytesAvailable + m.numBytes > o.capacityNumBytes then
      ({ c with peerClosed := true }, ms)
    else
      receive o closureKnown ms
        { c with bytesAvailable := c.bytesAvailable + m.numBytes }

def updateSignalsState (closureKnown : Bool) (arrived : List ControlMessage)
    (c : Consumer) : Consumer × List ControlMessage :=
  if arrived = [] ∧ closureKnown then
    ({ c with peerClosed := true }, [])
  else if arrived ≠ [] ∧ ¬ c.inTransit then
    receive o closureKnown arrived c
  else
    (c, arrived)

def beginTransit : Consumer :=
  if c.inTransit then c else { c with inTransit := !c.inTwoPhaseRead }

def cancelTransit : Consumer := { c with inTransit := false }

def close : Consumer :=
  if c.isClosed ∨ c.inTransit then c else { c with isClosed := true }

def deserialize : Option Consumer :=
  if o.capacityNumBytes = 0 ∨ o.elementNumBytes = 0 ∨
      o.capacityNumBytes < o.elementNumBytes ∨
      c.readOffset ≥ o.capacityNumBytes ∨ c.bytesAvailable > o.capacityNumBytes then
    none
  else
    some { c with
      inTwoPhaseRead := false, twoPhaseMaxBytesRead := 0, inTransit := false
      isClosed := false }

end Consumer

end ChromiumBase.DataPipe
