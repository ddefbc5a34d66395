import ChromiumBase.Mojo.Ports.Node

/-!
# Acknowledging read messages

A receiving port keeps one sequence number for the acknowledgements it has been asked
for. `Tracked` says what this number stands for: every request that no
acknowledgement has followed asks for a message that is still to be read, and for none
before the one the port has noted.
-/

open List

namespace ChromiumBase.Ports

/-- What happens to a port: it sends a message, an event comes in, or a message is read. -/
inductive Input where
  | send
  | message (sequenceNum : UInt64)
  | ackRequest (sequenceNum : UInt64)
  | ack (sequenceNum : UInt64)
  | getMessage (matched : Bool)
  deriving DecidableEq

/-- A request, and the number of acknowledgements that were sent before. -/
structure Request where
  sequenceNum : UInt64
  sent : ℕ

/-- An acknowledgement, and the smallest request that was pending then. -/
structure Ack where
  sequenceNum : UInt64
  smallestPending : ℕ

/-- A port, with the requests it received and the acknowledgements it sent. -/
structure Acknowledging where
  port : Port
  requests : List Request
  acks : List Ack

namespace Acknowledging

/-- The request that is answered, and the ones for messages that are not read. -/
def smallestPending (s : Acknowledging) (answered : UInt64) : ℕ :=
  ((s.requests.filter fun r => s.port.messageQueue.nextSequenceNum ≤ r.sequenceNum).map
    (·.sequenceNum.toNat)).foldr min answered.toNat

def step (s : Acknowledging) : Input → Acknowledging
  | .send =>
    { s with
      port.nextSequenceNumToSend := s.port.nextSequenceNumToSend + 1 }
  | .message n =>
    { s with
      port.messageQueue.heap := n :: s.port.messageQueue.heap }
  | .ackRequest n =>
    let requests := s.requests ++ [⟨n, s.acks.length⟩]
    match s.port.onUserMessageReadAckRequest n with
    | (some (.userMessageReadAck v), port) =>
      ⟨port, requests, s.acks ++ [⟨v, s.smallestPending n⟩]⟩
    | (_, port) => ⟨port, requests, s.acks⟩
  | .ack n => { s with port := (s.port.onUserMessageReadAck n).2 }
  | .getMessage matched =>
    match s.port.getMessage matched with
    | .ok (_, some v, port) => { s with port, acks := s.acks ++ [⟨v, s.smallestPending v⟩] }
    | .ok (_, none, port) => { s with port }
    | .error _ => s

def run (s : Acknowledging) (inputs : List Input) : Acknowledging := inputs.foldl step s

/-- The request has been followed by an acknowledgement of no less than the smallest
pending request. -/
def Answered (s : Acknowledging) (r : Request) : Prop :=
  ∃ a ∈ s.acks.drop r.sent, a.smallestPending ≤ a.sequenceNum.toNat

end Acknowledging

open Acknowledging

variable {s : Acknowledging} {port : Port}

theorem smallestPending_le (s : Acknowledging) (n : UInt64) : s.smallestPending n ≤ n.toNat := by
  unfold smallestPending
  induction List.map _ _ with
  | nil => exact Nat.le_refl _
  | cons m ms ih =>
    exact Nat.le_trans (Nat.min_le_right _ _) ih

/-- A request is answered, or noted for a message that is still to be read. -/
structure Tracked (s : Acknowledging) : Prop where
  receiving : s.port.state = .receiving
  acknowledged_lt : s.port.lastSequenceNumAcknowledged < s.port.nextSequenceNumToSend
  sent_le : ∀ r ∈ s.requests, r.sent ≤ s.acks.length
  noted : ∀ r ∈ s.requests, s.Answered r ∨ s.port.messageQueue.nextSequenceNum ≠ 0 ∧
    s.port.messageQueue.nextSequenceNum ≤ s.port.sequenceNumToAcknowledge ∧
      s.port.sequenceNumToAcknowledge ≤ r.sequenceNum

theorem lt_iff_le_sub_one {n m : UInt64} (h : n ≠ 0) : m < n ↔ m ≤ n - 1 := by
  have hn := mt UInt64.toNat_inj.1 h
  rw [UInt64.lt_iff_toNat_lt, UInt64.le_iff_toNat_le, UInt64.toNat_sub_of_le]
  · simp only [UInt64.toNat_zero, UInt64.toNat_one] at hn ⊢
    omega
  · rw [UInt64.le_iff_toNat_le]
    simp only [UInt64.toNat_zero, UInt64.toNat_one] at hn ⊢
    omega

/-- A request for a message that was read is answered, and another one noted if it is smaller than
the one noted before. -/
theorem onUserMessageReadAckRequest_eq (hs : port.state = .receiving) (n : UInt64) :
    ∃ noted, n ≤ port.messageQueue.nextSequenceNum - 1 ∧ port.onUserMessageReadAckRequest n =
          (some (.userMessageReadAck (port.messageQueue.nextSequenceNum - 1)),
            { port with sequenceNumToAcknowledge := noted }) ∨
      port.onUserMessageReadAckRequest n =
          (none, { port with sequenceNumToAcknowledge := noted }) ∧
        port.messageQueue.nextSequenceNum ≠ 0 ∧
        port.messageQueue.nextSequenceNum ≤ noted ∧ noted ≤ n ∧
        (port.messageQueue.nextSequenceNum ≤ port.sequenceNumToAcknowledge →
          noted ≤ port.sequenceNumToAcknowledge) := by
  unfold Port.onUserMessageReadAckRequest
  rw [if_neg (by simp [hs])]
  by_cases hr : n ≤ port.messageQueue.nextSequenceNum - 1
  · dsimp only
    rw [if_pos hr]
    split
    · exact ⟨_, .inl ⟨hr, rfl⟩⟩
    · exact ⟨port.sequenceNumToAcknowledge, .inl ⟨hr, rfl⟩⟩
  · dsimp only
    rw [if_neg hr]
    -- behind the largest number every request is for a message that was read
    have hro : port.messageQueue.nextSequenceNum ≠ 0 := by
      intro h0
      rw [h0, UInt64.not_le, UInt64.lt_iff_toNat_lt] at hr
      exact absurd n.toNat_lt (Nat.not_lt_of_le hr)
    have hlt (m : UInt64) := lt_iff_le_sub_one (m := m) hro
    have hn := UInt64.not_lt.1 (mt (hlt n).1 hr)
    split
    next he =>
      refine ⟨n, .inr ⟨rfl, hro, hn, UInt64.le_refl n, fun hp => ?_⟩⟩
      rcases he with hno | hl
      · exact absurd hp (UInt64.not_le.2 ((hlt _).2 (UInt64.not_lt.1 hno)))
      · exact UInt64.le_of_lt hl
    next hk =>
      obtain ⟨hp, hle⟩ := not_or.1 hk
      refine ⟨port.sequenceNumToAcknowledge, .inr ⟨rfl, hro, ?_, UInt64.not_lt.1 hle,
        fun _ => UInt64.le_refl _⟩⟩
      exact UInt64.not_lt.1 (mt (hlt _).1 (UInt64.not_le.2 (not_not.1 hp)))

/-- A message that is read is acknowledged if its number was asked for. -/
theorem getMessage_eq (port : Port) (matched : Bool) :
    (∃ error, port.getMessage matched = .error error) ∨
    port.getMessage matched = .ok (none, none, port) ∨
    ∃ heap, port.getMessage matched = .ok (some port.messageQueue.nextSequenceNum,
      if port.messageQueue.nextSequenceNum = port.sequenceNumToAcknowledge then
        some port.messageQueue.nextSequenceNum else none,
      { port with messageQueue := ⟨port.messageQueue.nextSequenceNum + 1, heap⟩ }) := by
  unfold Port.getMessage
  split
  · exact .inl ⟨_, rfl⟩
  split
  · exact .inl ⟨_, rfl⟩
  by_cases hn : port.messageQueue.hasNextMessage ∧ matched
  · refine .inr (.inr ⟨port.messageQueue.heap.erase port.messageQueue.nextSequenceNum, ?_⟩)
    simp only [MessageQueue.getNextMessage, if_pos hn, Option.some.injEq]
  · exact .inr (.inl (by simp [MessageQueue.getNextMessage, if_neg hn]))

theorem tracked_acknowledge {requests : List Request} {acks : List Ack} {a : Ack}
    (hst : port.state = .receiving)
    (hlt : port.lastSequenceNumAcknowledged < port.nextSequenceNumToSend)
    (hs : ∀ r ∈ requests, r.sent ≤ acks.length) (ha : a.smallestPending ≤ a.sequenceNum.toNat) :
    Tracked ⟨port, requests, acks ++ [a]⟩ where
  receiving := hst
  acknowledged_lt := hlt
  sent_le r hr := by
    have := hs r hr
    rw [length_append]
    omega
  noted r hr := by
    refine .inl ⟨a, ?_, ha⟩
    rw [drop_append_of_le_length (hs r hr)]
    exact mem_append_right _ (mem_singleton_self a)

namespace Tracked

theorem ackRequest (h : Tracked s) (n : UInt64) : Tracked (s.step (.ackRequest n)) := by
  have hs : ∀ r ∈ s.requests ++ [⟨n, s.acks.length⟩], r.sent ≤ s.acks.length :=
    forall_mem_append.2 ⟨h.sent_le, forall_mem_singleton.2 (Nat.le_refl _)⟩
  simp only [step]
  obtain ⟨noted, ⟨hre, heq⟩ | ⟨heq, hro, hn, hle, hk⟩⟩ :=
    onUserMessageReadAckRequest_eq h.receiving n <;> rw [heq]
  · exact tracked_acknowledge h.receiving h.acknowledged_lt hs
      (Nat.le_trans (smallestPending_le s n) (UInt64.le_iff_toNat_le.1 hre))
  · refine ⟨h.receiving, h.acknowledged_lt, hs,
      forall_mem_append.2 ⟨fun r hr => ?_, forall_mem_singleton.2 (.inr ⟨hro, hn, hle⟩)⟩⟩
    refine (h.noted r hr).imp_right fun hr => ⟨hro, hn, ?_⟩
    exact UInt64.le_trans (hk hr.2.1) hr.2.2

theorem getMessage (h : Tracked s) (matched : Bool) :
    Tracked (s.step (.getMessage matched)) := by
  simp only [step]
  rcases getMessage_eq s.port matched with ⟨error, heq⟩ | heq | ⟨heap, heq⟩ <;> rw [heq]
  · exact h
  · exact h
  by_cases hn : s.port.messageQueue.nextSequenceNum = s.port.sequenceNumToAcknowledge
  · simp only [if_pos hn]
    exact tracked_acknowledge h.receiving h.acknowledged_lt h.sent_le (smallestPending_le s _)
  · simp only [if_neg hn]
    refine ⟨h.receiving, h.acknowledged_lt, h.sent_le, fun r hr => ?_⟩
    refine (h.noted r hr).imp_right fun ⟨_, hne, hle⟩ => ?_
    have hlt := UInt64.lt_of_le_of_ne hne hn
    -- there is a larger number, so that the next one does not roll over
    have hro : s.port.messageQueue.nextSequenceNum + 1 ≠ 0 := by
      intro h0
      rw [← UInt64.sub_eq_iff_eq_add.2 h0.symm, UInt64.lt_iff_toNat_lt] at hlt
      exact absurd hlt (Nat.not_lt_of_le (Nat.le_of_lt_succ (UInt64.toNat_lt _)))
    refine ⟨hro, ?_, hle⟩
    rw [← UInt64.not_lt, lt_iff_le_sub_one hro, UInt64.add_sub_cancel]
    exact UInt64.not_le.2 hlt

theorem ack (h : Tracked s) (n : UInt64) : Tracked (s.step (.ack n)) := by
  simp only [step, Port.onUserMessageReadAck]
  split
  · exact h
  split
  · exact h
  next hlt _ => exact ⟨h.receiving, UInt64.not_le.1 hlt, h.sent_le, h.noted⟩

end Tracked

/-- A step keeps the invariant as long as the numbers that are sent do not roll over, and no
input takes an acknowledgement back. -/
theorem Tracked.step (h : Tracked s) {input : Input}
    (hsend : input = .send → s.port.nextSequenceNumToSend.toNat + 1 < 2 ^ 64) :
    Tracked (s.step input) ∧
      s.port.lastSequenceNumAcknowledged ≤ (s.step input).port.lastSequenceNumAcknowledged ∧
      (s.step input).port.nextSequenceNumToSend.toNat =
        s.port.nextSequenceNumToSend.toNat + if input = .send then 1 else 0 := by
  cases input with
  | send =>
    have hnext : (s.port.nextSequenceNumToSend + 1).toNat =
        s.port.nextSequenceNumToSend.toNat + 1 := by
      rw [UInt64.toNat_add, UInt64.toNat_one, Nat.mod_eq_of_lt (hsend rfl)]
    refine ⟨⟨h.receiving, ?_, h.sent_le, h.noted⟩, UInt64.le_refl _, hnext⟩
    have hlt := UInt64.lt_iff_toNat_lt.1 h.acknowledged_lt
    rw [UInt64.lt_iff_toNat_lt]
    simp only [Acknowledging.step, hnext]
    omega
  | message n =>
    exact ⟨⟨h.receiving, h.acknowledged_lt, h.sent_le, h.noted⟩, UInt64.le_refl _, rfl⟩
  | ackRequest n =>
    refine ⟨h.ackRequest n, ?_⟩
    simp only [Acknowledging.step]
    obtain ⟨noted, ⟨-, heq⟩ | ⟨heq, -⟩⟩ := onUserMessageReadAckRequest_eq h.receiving n <;>
      rw [heq] <;> exact ⟨UInt64.le_refl _, rfl⟩
  | ack n =>
    refine ⟨h.ack n, ?_⟩
    simp only [Acknowledging.step, Port.onUserMessageReadAck]
    split
    · exact ⟨UInt64.le_refl _, rfl⟩
    split
    · exact ⟨UInt64.le_refl _, rfl⟩
    next hl => exact ⟨UInt64.le_of_lt (UInt64.not_le.1 hl), rfl⟩
  | getMessage matched =>
    refine ⟨h.getMessage matched, ?_⟩
    simp only [Acknowledging.step]
    rcases getMessage_eq s.port matched with ⟨error, heq⟩ | heq | ⟨heap, heq⟩ <;> rw [heq]
    · exact ⟨UInt64.le_refl _, rfl⟩
    · exact ⟨UInt64.le_refl _, rfl⟩
    by_cases hn : s.port.messageQueue.nextSequenceNum = s.port.sequenceNumToAcknowledge
    · simp only [if_pos hn]
      exact ⟨UInt64.le_refl _, rfl⟩
    · simp only [if_neg hn]
      exact ⟨UInt64.le_refl _, rfl⟩

/-- The invariant holds after every run, by induction over the inputs. -/
theorem Tracked.run (h : Tracked s) (inputs : List Input)
    (hsend : s.port.nextSequenceNumToSend.toNat + inputs.count .send < 2 ^ 64) :
    Tracked (s.run inputs) ∧
      s.port.lastSequenceNumAcknowledged ≤ (s.run inputs).port.lastSequenceNumAcknowledged ∧
      (s.run inputs).port.nextSequenceNumToSend.toNat =
        s.port.nextSequenceNumToSend.toNat + inputs.count .send := by
  induction inputs generalizing s with
  | nil => exact ⟨h, UInt64.le_refl _, rfl⟩
  | cons input inputs ih =>
    rw [count_cons] at hsend ⊢
    simp only [beq_iff_eq] at hsend ⊢
    have hroom : input = .send → s.port.nextSequenceNumToSend.toNat + 1 < 2 ^ 64 := fun hi => by
      rw [if_pos hi] at hsend
      omega
    obtain ⟨hs, hle, hnext⟩ := h.step hroom
    obtain ⟨hrun, hle', hnext'⟩ := ih hs (by omega)
    refine ⟨hrun, UInt64.le_trans hle hle', ?_⟩
    rw [Acknowledging.run, foldl_cons]
    exact hnext'.trans (by omega)

def descriptorWith (toSend toReceive : UInt64) : PortDescriptor :=
  ⟨⟨0, 1⟩, ⟨0, 2⟩, ⟨0, 3⟩, ⟨0, 4⟩, toSend, toReceive, 0, false, Node.zeroPadding⟩

def threeOfNine : Port :=
  { Port.accept (descriptorWith 10 1) with lastSequenceNumAcknowledged := 3 }

def lateAcks : List Input := [.ackRequest 2, .ack 10, .send, .ack 10, .ack 7, .message 2,
  .ackRequest 1, .message 1, .getMessage true, .getMessage true]

end ChromiumBase.Ports
