import ChromiumBase.Mojo.Core.DataPipe.Basic
import Mathlib.Algebra.Order.Ring.Nat

/-!
# A pipe and its runs

A pipe is made of its two dispatchers, the ring they share and the control
messages that are under way in either direction, in order. A step is one call of
a user, a byte that a user writes into a buffer handed out by `BeginWriteData`, or
the arrival of some control messages; the ends may also be closed, and sent to
another process. A history records besides the bytes that were committed and the
bytes that were consumed.
-/

namespace ChromiumBase.DataPipe

structure CreateOptions where
  structSize : UInt32
  elementNumBytes : UInt32
  capacityNumBytes : UInt32

/-- A pipe; `granted` is the size of the buffer that `BeginWriteData` last handed
out. -/
structure Pipe where
  options : Options
  ring : List UInt8
  producer : Producer
  consumer : Consumer
  toConsumer : List ControlMessage
  toProducer : List ControlMessage
  granted : ℕ

def createDataPipe (options : Option CreateOptions) : Except MojoResult Pipe :=
  if options.any fun o => o.structSize.toNat < 16 then
    .error .invalidArgument
  else
    let elementNumBytes := (options.elim 1 (·.elementNumBytes)).toNat
    let capacityNumBytes := options.elim (64 * 1024) fun o =>
      if o.capacityNumBytes ≠ 0 then o.capacityNumBytes.toNat else 64 * 1024
    if elementNumBytes = 0 ∨ capacityNumBytes = 0 ∨ capacityNumBytes < elementNumBytes then
      .error .invalidArgument
    else
      .ok
        { options := ⟨elementNumBytes, capacityNumBytes⟩
          ring := List.replicate capacityNumBytes 0
          producer := ⟨0, capacityNumBytes, false, false, false, false⟩
          consumer := ⟨0, 0, false, 0, false, false, false⟩
          toConsumer := []
          toProducer := []
          granted := 0 }

inductive Step where
  | writeData (elements : List UInt8) (allOrNone : Bool)
  | beginWriteData
  | fill (i : ℕ) (byte : UInt8)
  | endWriteData (numBytesWritten : UInt32)
  | readData (flags : ReadFlags) (numBytes : UInt32)
  | beginReadData
  | endReadData (numBytesRead : UInt32)
  | deliverToProducer (arrived : ℕ) (closureKnown : Bool)
  | deliverToConsumer (arrived : ℕ) (closureKnown : Bool)
  | closeProducer
  | closeConsumer
  | beginProducerTransit
  | cancelProducerTransit
  | moveProducer (arrived : ℕ) (closureKnown : Bool)
  | beginConsumerTransit
  | cancelConsumerTransit (arrived : ℕ) (closureKnown : Bool)
  | moveConsumer (arrived : ℕ) (closureKnown : Bool)

structure History where
  pipe : Pipe
  committed : List UInt8
  consumed : List UInt8

namespace History

def wrote (s : History) (w : Wrote) : History :=
  { pipe := { s.pipe with
      producer := w.producer, ring := w.ring, toConsumer := s.pipe.toConsumer ++ w.sent }
    committed := s.committed ++ w.committed
    consumed := s.consumed }

def read (s : History) (r : Read) : History :=
  { pipe := { s.pipe with
      consumer := r.consumer, toProducer := s.pipe.toProducer ++ r.sent }
    committed := s.committed
    consumed := s.consumed ++ r.consumed }

/-- The producer `p` handles the first `arrived` messages under way to it. It can
know that its peer is closed only if it is, and hears of it behind the last
message. -/
def updateProducer (s : History) (arrived : ℕ) (closureKnown : Bool) (p : Producer) :
    History :=
  let known := closureKnown && s.pipe.consumer.isClosed &&
    decide (s.pipe.toProducer.length ≤ arrived)
  let (p, left) := p.updateSignalsState s.pipe.options known (s.pipe.toProducer.take arrived)
  { s with pipe := { s.pipe with
      producer := p, toProducer := left ++ s.pipe.toProducer.drop arrived } }

def updateConsumer (s : History) (arrived : ℕ) (closureKnown : Bool) (c : Consumer) :
    History :=
  let known := closureKnown && s.pipe.producer.isClosed &&
    decide (s.pipe.toConsumer.length ≤ arrived)
  let (c, left) := c.updateSignalsState s.pipe.options known (s.pipe.toConsumer.take arrived)
  { s with pipe := { s.pipe with
      consumer := c, toConsumer := left ++ s.pipe.toConsumer.drop arrived } }

/-- One step. A user has no handle to an end that is closed; an end whose state is
refused on the other side is lost. -/
def step (s : History) : Step → Option History
  | .writeData elements allOrNone =>
    (s.pipe.producer.writeData s.pipe.options elements allOrNone s.pipe.ring).map s.wrote
  | .beginWriteData =>
    (s.pipe.producer.beginWriteData s.pipe.options).map fun (result, granted, p) =>
      { s with pipe := { s.pipe with
        producer := p
        granted := if result = .ok then granted else s.pipe.granted } }
  | .fill i byte =>
    if s.pipe.producer.inTwoPhaseWrite ∧ ¬ s.pipe.producer.isClosed ∧
        i < s.pipe.granted then
      some { s with pipe := { s.pipe with
        ring := s.pipe.ring.set (s.pipe.producer.writeOffset + i) byte } }
    else some s
  | .endWriteData n =>
    (s.pipe.producer.endWriteData s.pipe.options n.toNat s.pipe.ring).map s.wrote
  | .readData flags n =>
    (s.pipe.consumer.readData s.pipe.options flags n.toNat s.pipe.ring).map s.read
  | .beginReadData =>
    (s.pipe.consumer.beginReadData s.pipe.options).map fun (_, _, c) =>
      { s with pipe := { s.pipe with consumer := c } }
  | .endReadData n =>
    if s.pipe.consumer.isClosed then some s
    else (s.pipe.consumer.endReadData s.pipe.options n.toNat s.pipe.ring).map s.read
  | .deliverToProducer arrived closureKnown =>
    some (s.updateProducer arrived closureKnown s.pipe.producer)
  | .deliverToConsumer arrived closureKnown =>
    some (s.updateConsumer arrived closureKnown s.pipe.consumer)
  | .closeProducer => some { s with pipe := { s.pipe with producer := s.pipe.producer.close } }
  | .closeConsumer => some { s with pipe := { s.pipe with consumer := s.pipe.consumer.close } }
  | .beginProducerTransit =>
    if s.pipe.producer.isClosed then some s
    else some { s with pipe := { s.pipe with producer := s.pipe.producer.beginTransit } }
  | .cancelProducerTransit =>
    some { s with pipe := { s.pipe with producer := s.pipe.producer.cancelTransit } }
  | .moveProducer arrived closureKnown =>
    if s.pipe.producer.inTransit then
      match s.pipe.producer.deserialize s.pipe.options with
      | some p => some (s.updateProducer arrived closureKnown p)
      | none => some { s with pipe := { s.pipe with
          producer := { s.pipe.producer with isClosed := true } } }
    else some s
  | .beginConsumerTransit =>
    if s.pipe.consumer.isClosed then some s
    else some { s with pipe := { s.pipe with consumer := s.pipe.consumer.beginTransit } }
  | .cancelConsumerTransit arrived closureKnown =>
    some (s.updateConsumer arrived closureKnown s.pipe.consumer.cancelTransit)
  | .moveConsumer arrived closureKnown =>
    if s.pipe.consumer.inTransit then
      match s.pipe.consumer.deserialize s.pipe.options with
      | some c => some (s.updateConsumer arrived closureKnown c)
      | none => some { s with pipe := { s.pipe with
          consumer := { s.pipe.consumer with isClosed := true } } }
    else some s

def run (s : History) (steps : List Step) : Option History := steps.foldlM step s

end History

def announced (messages : List ControlMessage) : ℕ := (messages.map (·.numBytes)).sum

end ChromiumBase.DataPipe
