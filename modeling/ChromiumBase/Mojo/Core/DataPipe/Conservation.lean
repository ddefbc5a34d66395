import ChromiumBase.Mojo.Core.DataPipe.Calls

/-!
# Bytes are neither lost nor made up

`Consistent` is the invariant of a pipe: every byte of the ring is counted once,
either free at the producer, announced to the consumer, available there or
announced back to the producer; and the bytes that were committed but not yet
consumed lie in the ring from the read offset on. The two kinds of step that move
bytes, committing and consuming, are dealt with once each.
-/

open RingBuffer List

namespace ChromiumBase.DataPipe

open History

variable {o : Options} {pipe : Pipe} {n : ℕ} (arrived : ℕ) (closureKnown : Bool) {s : History}

structure Consistent (o : Options) (s : History) : Prop where
  options_eq : s.pipe.options = o
  element_pos : 0 < s.pipe.options.elementNumBytes
  element_le : s.pipe.options.elementNumBytes ≤ s.pipe.options.capacityNumBytes
  capacity_lt : s.pipe.options.capacityNumBytes < 2 ^ 31
  ring_length : s.pipe.ring.length = s.pipe.options.capacityNumBytes
  read_lt : s.pipe.consumer.readOffset < s.pipe.options.capacityNumBytes
  conserved : s.pipe.producer.availableCapacity + announced s.pipe.toConsumer +
    s.pipe.consumer.bytesAvailable + announced s.pipe.toProducer =
      s.pipe.options.capacityNumBytes
  write_eq : s.pipe.producer.writeOffset = (s.pipe.consumer.readOffset +
    s.pipe.consumer.bytesAvailable + announced s.pipe.toConsumer) %
      s.pipe.options.capacityNumBytes
  stored : ∃ unread, s.committed = s.consumed ++ unread ∧
    unread.length = s.pipe.consumer.bytesAvailable + announced s.pipe.toConsumer ∧
    Holds s.pipe.ring s.pipe.consumer.readOffset unread
  toConsumer_written : AllOf .dataWasWritten s.pipe.toConsumer
  toProducer_read : AllOf .dataWasRead s.pipe.toProducer
  granted_le : s.pipe.producer.inTwoPhaseWrite →
    s.pipe.granted ≤ s.pipe.producer.availableCapacity ∧
    s.pipe.producer.writeOffset + s.pipe.granted ≤ s.pipe.options.capacityNumBytes
  twoPhase_le : s.pipe.consumer.inTwoPhaseRead →
    s.pipe.consumer.twoPhaseMaxBytesRead ≤ s.pipe.consumer.bytesAvailable ∧
    s.pipe.consumer.readOffset + s.pipe.consumer.twoPhaseMaxBytesRead ≤
      s.pipe.options.capacityNumBytes

section Bounds

variable (h : Consistent o s)

include h

theorem Consistent.capacity_pos : 0 < s.pipe.options.capacityNumBytes :=
  Nat.lt_of_lt_of_le h.element_pos h.element_le

theorem Consistent.write_lt : s.pipe.producer.writeOffset < s.pipe.options.capacityNumBytes := by
  rw [h.write_eq]
  exact Nat.mod_lt _ h.capacity_pos

theorem Consistent.available_le :
    s.pipe.producer.availableCapacity ≤ s.pipe.options.capacityNumBytes := by
  have := h.conserved
  omega

theorem Consistent.write_eq_cell {unread : List UInt8}
    (hlen : unread.length = s.pipe.consumer.bytesAvailable + announced s.pipe.toConsumer) :
    s.pipe.producer.writeOffset =
      cell s.pipe.options.capacityNumBytes s.pipe.consumer.readOffset unread.length := by
  have hsum := h.conserved
  rw [h.write_eq, Nat.add_assoc, ← hlen, add_mod_eq_cell h.read_lt (by omega)]

end Bounds

structure Aligned (e : ℕ) (s : History) : Prop where
  readOffset : e ∣ s.pipe.consumer.readOffset
  bytesAvailable : e ∣ s.pipe.consumer.bytesAvailable
  toConsumer : ∀ m ∈ s.pipe.toConsumer, e ∣ m.numBytes
  toProducer : ∀ m ∈ s.pipe.toProducer, e ∣ m.numBytes

variable {ms : List ControlMessage} {p : Producer} {bytes : List UInt8} {c : Consumer}
  {options : Option CreateOptions}

theorem dvd_announced {e : ℕ} (h : ∀ m ∈ ms, e ∣ m.numBytes) : e ∣ announced ms := by
  induction ms with
  | nil => exact Nat.dvd_zero e
  | cons m ms ih =>
    obtain ⟨hm, hms⟩ := forall_mem_cons.1 h
    exact Nat.dvd_add hm (ih hms)

section Aligned

variable {e : ℕ} (ha : Aligned e s) (h : Consistent o s)
  (hcap : e ∣ s.pipe.options.capacityNumBytes)

include ha h hcap

theorem Aligned.availableCapacity : e ∣ s.pipe.producer.availableCapacity := by
  have hr := Nat.dvd_add (dvd_announced ha.toConsumer)
    (Nat.dvd_add ha.bytesAvailable (dvd_announced ha.toProducer))
  rw [← h.conserved, Nat.add_assoc, Nat.add_assoc] at hcap
  exact (Nat.dvd_add_iff_left hr).2 hcap

theorem Aligned.writeOffset : e ∣ s.pipe.producer.writeOffset := by
  rw [h.write_eq]
  exact (Nat.dvd_mod_iff hcap).2
    (Nat.dvd_add (Nat.dvd_add ha.readOffset ha.bytesAvailable) (dvd_announced ha.toConsumer))

end Aligned

/-- The step from `s` to `s'` keeps the invariant, and whole elements if the ring
holds a whole number of them. -/
structure Keeps (o : Options) (s s' : History) : Prop where
  consistent : Consistent o s'
  aligned : o.elementNumBytes ∣ o.capacityNumBytes → Aligned o.elementNumBytes s →
    Aligned o.elementNumBytes s'

section

variable (h : Consistent o s)

include h

theorem Consistent.refl : Keeps o s s := ⟨h, fun _ => id⟩

/-- Bytes that are written to free cells are in the pipe once they are announced. -/
theorem Consistent.commit {ring : List UInt8} (hn : n ≤ s.pipe.producer.availableCapacity)
    (hb : bytes.length = n) (hr : ring.length = s.pipe.ring.length)
    (hh : ∀ unread, Holds s.pipe.ring s.pipe.consumer.readOffset unread →
      unread.length + n ≤ s.pipe.options.capacityNumBytes → s.pipe.producer.writeOffset =
        cell s.pipe.options.capacityNumBytes s.pipe.consumer.readOffset unread.length →
      Holds ring s.pipe.consumer.readOffset (unread ++ bytes))
    (hca : p.availableCapacity = s.pipe.producer.availableCapacity - n)
    (ho : p.writeOffset = (s.pipe.producer.writeOffset + n) % s.pipe.options.capacityNumBytes)
    (htwo : ¬ p.inTwoPhaseWrite)
    (hw : s.pipe.options.elementNumBytes ∣ s.pipe.producer.availableCapacity →
      s.pipe.options.elementNumBytes ∣ n) (result : MojoResult) :
    Keeps o s (s.wrote ⟨result, p, ring, [⟨.dataWasWritten, n⟩], bytes⟩) where
  aligned hcap ha := by
    obtain rfl := h.options_eq
    exact { ha with
      toConsumer := forall_mem_append.2 ⟨ha.toConsumer,
        forall_mem_singleton.2 (hw (ha.availableCapacity h hcap))⟩ }
  consistent :=
    { h with
      ring_length := hr.trans h.ring_length
      conserved := by
        have hsum := h.conserved
        simp only [wrote, announced_append, announced_cons, announced_nil]
        omega
      write_eq := by
        simp only [wrote, announced_append, announced_cons, announced_nil]
        rw [ho, h.write_eq, Nat.mod_add_mod, Nat.add_zero, ← Nat.add_assoc]
      stored := by
        obtain ⟨unread, hc, hlen, hu⟩ := h.stored
        have hsum := h.conserved
        refine ⟨unread ++ bytes, ?_, ?_, ?_⟩
        · simp only [wrote, hc, append_assoc]
        · simp only [wrote, length_append, announced_append, announced_cons, announced_nil]
          omega
        · exact hh unread hu (by omega) (h.write_eq_cell hlen)
      toConsumer_written :=
        forall_mem_append.2 ⟨h.toConsumer_written, forall_mem_singleton.2 rfl⟩
      granted_le := fun htwo' => absurd htwo' htwo }

/-- Bytes that are read leave the pipe in order. -/
theorem Consistent.consume (hn : n ≤ s.pipe.consumer.bytesAvailable)
    (hb : ∀ unread, Holds s.pipe.ring s.pipe.consumer.readOffset unread →
      n ≤ unread.length → unread.length ≤ s.pipe.options.capacityNumBytes →
      bytes = unread.take n) (hav : c.bytesAvailable = s.pipe.consumer.bytesAvailable - n)
    (ho : c.readOffset = (s.pipe.consumer.readOffset + n) % s.pipe.options.capacityNumBytes)
    (htwo : ¬ c.inTwoPhaseRead)
    (hw : s.pipe.options.elementNumBytes ∣ s.pipe.consumer.bytesAvailable →
      s.pipe.options.elementNumBytes ∣ n) (result : MojoResult) (numBytes : ℕ) (data : List UInt8) :
    Keeps o s (s.read ⟨result, c, [⟨.dataWasRead, n⟩], numBytes, data, bytes⟩) where
  aligned hcap ha := by
    obtain rfl := h.options_eq
    have hn := hw ha.bytesAvailable
    refine ⟨?_, ?_, ha.toConsumer, forall_mem_append.2 ⟨ha.toProducer, forall_mem_singleton.2 hn⟩⟩
    · simp only [History.read, ho]
      exact (Nat.dvd_mod_iff hcap).2 (Nat.dvd_add ha.readOffset hn)
    · simp only [History.read, hav]
      exact Nat.dvd_sub ha.bytesAvailable hn
  consistent :=
    { h with
      read_lt := by
        simp only [History.read, ho]
        exact Nat.mod_lt _ h.capacity_pos
      conserved := by
        have hsum := h.conserved
        simp only [History.read, announced_append, announced_cons, announced_nil]
        omega
      write_eq := by
        simp only [History.read, ho]
        rw [h.write_eq, Nat.add_assoc (_ % _), Nat.mod_add_mod]
        congr 1
        omega
      stored := by
        obtain ⟨unread, hc, hlen, hu⟩ := h.stored
        have hsum := h.conserved
        have hr := h.read_lt
        have hri := h.ring_length
        refine ⟨unread.drop n, ?_, ?_, ?_⟩
        · simp only [History.read]
          rw [hb unread hu (by omega) (by omega), append_assoc, take_append_drop, hc]
        · simp only [History.read, length_drop]
          omega
        · simp only [History.read, ho]
          rw [add_mod_eq_cell hr (by omega), ← hri]
          exact hu.drop (by omega) (by omega) (by omega)
      toProducer_read := forall_mem_append.2 ⟨h.toProducer_read, forall_mem_singleton.2 rfl⟩
      twoPhase_le := fun htwo' => absurd htwo' htwo }

theorem Consistent.setProducer {granted : ℕ}
    (hc : p.availableCapacity = s.pipe.producer.availableCapacity)
    (ho : p.writeOffset = s.pipe.producer.writeOffset)
    (hg : p.inTwoPhaseWrite → granted ≤ p.availableCapacity ∧
      p.writeOffset + granted ≤ s.pipe.options.capacityNumBytes) :
    Keeps o s { s with pipe := { s.pipe with producer := p, granted := granted } } where
  consistent :=
    { h with
      conserved := by rw [← h.conserved, hc]
      write_eq := by rw [← h.write_eq, ho]
      granted_le := hg }
  aligned _ ha := { ha with }

theorem Consistent.setConsumer (hav : c.bytesAvailable = s.pipe.consumer.bytesAvailable)
    (ho : c.readOffset = s.pipe.consumer.readOffset)
    (htwo : c.inTwoPhaseRead → c.twoPhaseMaxBytesRead ≤ c.bytesAvailable ∧
      c.readOffset + c.twoPhaseMaxBytesRead ≤ s.pipe.options.capacityNumBytes) :
    Keeps o s { s with pipe := { s.pipe with consumer := c } } where
  consistent :=
    { h with
      read_lt := by rw [ho]; exact h.read_lt
      conserved := by rw [← h.conserved, hav]
      write_eq := by rw [h.write_eq, ho, hav]
      stored := by rw [ho, hav]; exact h.stored
      twoPhase_le := htwo }
  aligned _ ha :=
    ⟨ho ▸ ha.readOffset, hav ▸ ha.bytesAvailable, ha.toConsumer, ha.toProducer⟩

end

theorem wrote_refused (s : History) (result : MojoResult) (p : Producer) :
    s.wrote (.refused result p s.pipe.ring) = { s with pipe := { s.pipe with producer := p } } := by
  simp [History.wrote, Wrote.refused]

theorem read_refused (s : History) (result : MojoResult) (c : Consumer) (n : ℕ) :
    s.read (.refused result c n) = { s with pipe := { s.pipe with consumer := c } } := by
  simp [History.read, Read.refused]

theorem AllOf.take {command : Command} (h : AllOf command ms) (k : ℕ) : AllOf command (ms.take k) :=
  fun m hm => h m (mem_of_mem_take hm)

theorem forall_left {P : ControlMessage → Prop} {left : List ControlMessage} {k : ℕ}
    (hl : left ⊆ ms.take k) (h : ∀ m ∈ ms, P m) : ∀ m ∈ left ++ ms.drop k, P m := by
  refine forall_mem_append.2 ⟨fun m hm => ?_, fun m hm => ?_⟩
  · exact h m (mem_of_mem_take (hl hm))
  · exact h m (mem_of_mem_drop hm)

section

variable (h : Consistent o s)

include h

/-- Control messages arrive at the producer, or at its successor in another
process. -/
theorem Consistent.updateProducer (hc : p.availableCapacity = s.pipe.producer.availableCapacity)
    (ho : p.writeOffset = s.pipe.producer.writeOffset)
    (htwo : p.inTwoPhaseWrite → s.pipe.producer.inTwoPhaseWrite) :
    Keeps o s (s.updateProducer arrived closureKnown p) := by
  have hsum := h.conserved
  have hs := announced_take_drop s.pipe.toProducer arrived
  obtain ⟨closed, k, left, hl, hk, hu⟩ := Producer.updateSignalsState_eq (p := p)
    (o := s.pipe.options)
    (closureKnown && s.pipe.consumer.isClosed && decide (s.pipe.toProducer.length ≤ arrived))
    (h.toProducer_read.take arrived) (by omega)
  simp only [History.updateProducer, hu]
  refine ⟨{ h with conserved := ?_, write_eq := ?_, toProducer_read := ?_, granted_le := ?_ },
    fun _ ha => { ha with toProducer := forall_left hl ha.toProducer }⟩
  · simp only [announced_append]
    omega
  · rw [← h.write_eq, ho]
  · exact forall_left hl h.toProducer_read
  · intro hp
    obtain ⟨hg, hf⟩ := h.granted_le (htwo hp)
    dsimp only
    omega

theorem Consistent.updateConsumer (hav : c.bytesAvailable = s.pipe.consumer.bytesAvailable)
    (ho : c.readOffset = s.pipe.consumer.readOffset)
    (htwo : c.inTwoPhaseRead → s.pipe.consumer.inTwoPhaseRead ∧
      c.twoPhaseMaxBytesRead = s.pipe.consumer.twoPhaseMaxBytesRead) :
    Keeps o s (s.updateConsumer arrived closureKnown c) := by
  have hsum := h.conserved
  have hs := announced_take_drop s.pipe.toConsumer arrived
  obtain ⟨closed, k, left, hl, hk, hu⟩ := Consumer.updateSignalsState_eq (c := c)
    (o := s.pipe.options)
    (closureKnown && s.pipe.producer.isClosed && decide (s.pipe.toConsumer.length ≤ arrived))
    (h.toConsumer_written.take arrived) (by omega)
  have hmo : c.bytesAvailable + k + announced (left ++ s.pipe.toConsumer.drop arrived) =
      s.pipe.consumer.bytesAvailable + announced s.pipe.toConsumer := by
    rw [announced_append]
    omega
  simp only [History.updateConsumer, hu]
  refine ⟨?_, fun _ ha => ?_⟩
  · refine { h with
      read_lt := ?_, conserved := ?_, write_eq := ?_, stored := ?_, toConsumer_written := ?_
      twoPhase_le := ?_ } <;> dsimp only
    · rw [ho]
      exact h.read_lt
    · omega
    · rw [h.write_eq, ho, Nat.add_assoc, Nat.add_assoc, hmo]
    · rw [ho, hmo]
      exact h.stored
    · exact forall_left hl h.toConsumer_written
    · intro hc
      obtain ⟨hr, hmax⟩ := htwo hc
      obtain ⟨hle, hf⟩ := h.twoPhase_le hr
      omega
  · have ht : ∀ m ∈ s.pipe.toConsumer.take arrived, o.elementNumBytes ∣ m.numBytes :=
      fun m hm => ha.toConsumer m (mem_of_mem_take hm)
    have hsum : o.elementNumBytes ∣ k + announced left := hk ▸ dvd_announced ht
    have hd : o.elementNumBytes ∣ k :=
      (Nat.dvd_add_iff_left (dvd_announced fun m hm => ht m (hl hm))).2 hsum
    exact ⟨ho ▸ ha.readOffset, Nat.dvd_add (hav ▸ ha.bytesAvailable) hd,
      forall_left hl ha.toConsumer, ha.toProducer⟩

theorem Consistent.step_writeData (elements : List UInt8) (allOrNone : Bool) :
    ∃ s', s.step (.writeData elements allOrNone) = some s' ∧ Keeps o s s' := by
  have hr := h.ring_length
  simp only [step]
  rcases Producer.writeData_eq elements allOrNone hr h.capacity_lt h.available_le h.write_lt
    with ⟨result, hw⟩ | ⟨n, hn, hlen, htwo, hwh, hw⟩
  · rw [hw, Option.map_some, wrote_refused]
    exact ⟨_, rfl, h.refl⟩
  · rw [hw]
    have hb : (elements.take n).length = n := length_take_of_le hlen
    have hfit := h.available_le
    refine ⟨_, rfl, h.commit hn hb ?_ ?_ rfl rfl ?_ hwh _⟩
    · exact length_overwriteAround (by rw [hr]; exact h.write_lt.le) (by omega)
    · intro unread hu hro hc
      rw [hc, ← hr]
      exact hu.overwriteAround (by rw [hr]; exact h.read_lt) (by omega)
    · exact htwo

theorem Consistent.step_fill (i : ℕ) (byte : UInt8) :
    ∃ s', s.step (.fill i byte) = some s' ∧ Keeps o s s' := by
  simp only [step]
  split
  · rename_i hf
    obtain ⟨hle, hfi⟩ := h.granted_le hf.1
    obtain ⟨unread, hc, hlen, hu⟩ := h.stored
    have hsum := h.conserved
    have hri := h.ring_length
    have hr : s.pipe.consumer.readOffset < s.pipe.ring.length := by
      rw [hri]
      exact h.read_lt
    -- the byte lies behind the unread ones
    have hpos : s.pipe.producer.writeOffset + i =
        cell s.pipe.ring.length s.pipe.consumer.readOffset (unread.length + i) := by
      rw [← cell_cell hr (by omega), hri, ← h.write_eq_cell hlen, cell, if_pos (by omega)]
    refine ⟨_, rfl, { h with ring_length := ?_, stored := ⟨unread, hc, hlen, ?_⟩ },
      fun _ ha => { ha with }⟩
    · rw [length_set, hri]
    · rw [← cell_zero hr] at hu
      have hset := hu.set_outside (j := unread.length + i) hr (by omega) (by omega)
        (by omega) byte
      rwa [cell_zero hr, ← hpos] at hset
  · exact ⟨s, rfl, h.refl⟩

theorem Consistent.step_endWriteData (n : UInt32) :
    ∃ s', s.step (.endWriteData n) = some s' ∧ Keeps o s s' := by
  have hr := h.ring_length
  simp only [step]
  rcases Producer.endWriteData_eq s.pipe.ring n.toNat h.capacity_lt h.available_le
    h.write_lt with ⟨result, two, htwo, hw⟩ | ⟨hn, hf, hwh, hw⟩
  · rw [hw, Option.map_some, wrote_refused]
    exact ⟨_, rfl, h.setProducer rfl rfl fun hp => h.granted_le (htwo hp)⟩
  · rw [hw]
    have hb : ((s.pipe.ring.drop s.pipe.producer.writeOffset).take n.toNat).length =
        n.toNat := by
      rw [length_take, length_drop]
      omega
    refine ⟨_, rfl, h.commit hn hb rfl ?_ rfl rfl ?_ (fun _ => hwh) _⟩
    · intro unread hu hro hc
      have hs := holds_slice s.pipe.ring (b := s.pipe.producer.writeOffset)
        (n := n.toNat) (by omega)
      refine hu.append (by rw [hr]; exact h.read_lt) (by omega) ?_
      rwa [hr, ← hc]
    · exact Bool.false_ne_true

theorem Consistent.step_readData (flags : ReadFlags) (n : UInt32) :
    ∃ s', s.step (.readData flags n) = some s' ∧ Keeps o s s' := by
  have hri := h.ring_length
  have hsum := h.conserved
  simp only [step]
  rcases Consumer.readData_eq flags n.toNat hri h.capacity_lt (by omega) h.read_lt
    with ⟨result, m, data, hr, -⟩ | ⟨m, hm, htwo, hw, hr⟩
  · rw [hr]
    refine ⟨_, rfl, ?_⟩
    simp only [History.read, append_nil]
    exact h.refl
  · rw [hr]
    refine ⟨_, rfl, h.consume hm ?_ rfl rfl ?_ hw _ _ _⟩
    · intro unread hu hle hlen
      exact hu.readAround (by rw [hri]; exact h.read_lt) (by omega) hle
    · exact htwo

theorem Consistent.step_endReadData (n : UInt32) :
    ∃ s', s.step (.endReadData n) = some s' ∧ Keeps o s s' := by
  have hri := h.ring_length
  simp only [step]
  split
  · exact ⟨s, rfl, h.refl⟩
  · rename_i ho
    rcases Consumer.endReadData_eq s.pipe.ring n.toNat ho h.capacity_lt
      h.twoPhase_le with ⟨result, hr⟩ | ⟨result, hr⟩ | ⟨hn, hf, hw, hr⟩
    · rw [hr, Option.map_some, read_refused]
      exact ⟨_, rfl, h.refl⟩
    · rw [hr, Option.map_some, read_refused]
      exact ⟨_, rfl, h.setConsumer rfl rfl fun hc => absurd hc Bool.false_ne_true⟩
    · rw [hr]
      refine ⟨_, rfl, h.consume hn ?_ rfl rfl ?_ (fun _ => hw) _ _ _⟩
      · intro unread hu hle hlen
        rw [← readAround_of_le (by omega)]
        exact hu.readAround (by rw [hri]; exact h.read_lt) (by omega) hle
      · exact Bool.false_ne_true

/-- The step lemma of the pipe, one case for each call. -/
theorem Consistent.step (a : Step) : ∃ s', s.step a = some s' ∧ Keeps o s s' := by
  cases a with
  | writeData elements allOrNone => exact h.step_writeData elements allOrNone
  | beginWriteData =>
    simp only [History.step]
    rcases Producer.beginWriteData_eq h.write_lt with ⟨result, hok, hb⟩ | ⟨n, hn, hf, -, hb⟩
    · rw [hb]
      refine ⟨_, rfl, ?_⟩
      simp only [if_neg hok]
      exact h.refl
    · rw [hb]
      exact ⟨_, rfl, h.setProducer rfl rfl fun _ => ⟨hn, hf⟩⟩
  | fill i byte => exact h.step_fill i byte
  | endWriteData n => exact h.step_endWriteData n
  | readData flags n => exact h.step_readData flags n
  | beginReadData =>
    simp only [History.step]
    rcases Consumer.beginReadData_eq h.read_lt with ⟨result, hb⟩ | ⟨n, hn, hf, -, hb⟩
    · rw [hb]
      exact ⟨_, rfl, h.refl⟩
    · rw [hb]
      exact ⟨_, rfl, h.setConsumer rfl rfl fun _ => ⟨hn, hf⟩⟩
  | endReadData n => exact h.step_endReadData n
  | deliverToProducer arrived closureKnown =>
    exact ⟨_, rfl, h.updateProducer arrived closureKnown rfl rfl id⟩
  | deliverToConsumer arrived closureKnown | cancelConsumerTransit arrived closureKnown =>
    exact ⟨_, rfl, h.updateConsumer arrived closureKnown rfl rfl fun hc => ⟨hc, rfl⟩⟩
  | closeProducer =>
    refine ⟨_, rfl, ?_⟩
    unfold Producer.close
    split
    · exact h.refl
    · exact h.setProducer rfl rfl h.granted_le
  | closeConsumer =>
    refine ⟨_, rfl, ?_⟩
    unfold Consumer.close
    split
    · exact h.refl
    · exact h.setConsumer rfl rfl h.twoPhase_le
  | beginProducerTransit =>
    simp only [History.step, Producer.beginTransit]
    split
    · exact ⟨s, rfl, h.refl⟩
    · refine ⟨_, rfl, ?_⟩
      split
      · exact h.refl
      · exact h.setProducer rfl rfl h.granted_le
  | cancelProducerTransit => exact ⟨_, rfl, h.setProducer rfl rfl h.granted_le⟩
  | moveProducer arrived closureKnown =>
    simp only [History.step, Producer.deserialize]
    split
    · have := h.write_lt
      have := h.available_le
      have := h.element_pos
      have := h.element_le
      rw [if_neg (by omega)]
      exact ⟨_, rfl, h.updateProducer arrived closureKnown rfl rfl
        fun hp => absurd hp Bool.false_ne_true⟩
    · exact ⟨s, rfl, h.refl⟩
  | beginConsumerTransit =>
    simp only [History.step, Consumer.beginTransit]
    split
    · exact ⟨s, rfl, h.refl⟩
    · refine ⟨_, rfl, ?_⟩
      split
      · exact h.refl
      · exact h.setConsumer rfl rfl h.twoPhase_le
  | moveConsumer arrived closureKnown =>
    simp only [History.step, Consumer.deserialize]
    split
    · have := h.conserved
      have := h.read_lt
      have := h.element_pos
      have := h.element_le
      rw [if_neg (by omega)]
      exact ⟨_, rfl, h.updateConsumer arrived closureKnown rfl rfl
        fun hc => absurd hc Bool.false_ne_true⟩
    · exact ⟨s, rfl, h.refl⟩

theorem Consistent.run (steps : List Step) : ∃ s', s.run steps = some s' ∧ Keeps o s s' := by
  induction steps generalizing s with
  | nil => exact ⟨s, rfl, h.refl⟩
  | cons a steps ih =>
    obtain ⟨s', hs', h'⟩ := h.step a
    obtain ⟨s'', hs'', h''⟩ := ih h'.consistent
    refine ⟨s'', ?_, h''.consistent, fun hcap ha => h''.aligned hcap (h'.aligned hcap ha)⟩
    rw [run, foldlM_cons, hs']
    exact hs''

end

theorem createDataPipe_eq (h : createDataPipe options = .ok pipe) :
    ∃ o : Options, 0 < o.elementNumBytes ∧ o.elementNumBytes ≤ o.capacityNumBytes ∧
      pipe = ⟨o, List.replicate o.capacityNumBytes 0,
        ⟨0, o.capacityNumBytes, false, false, false, false⟩,
        ⟨0, 0, false, 0, false, false, false⟩, [], [], 0⟩ := by
  unfold createDataPipe at h
  split at h
  · exact nomatch h
  · dsimp only at h
    split at h
    · exact nomatch h
    · injection h with h
      exact ⟨⟨_, _⟩, by dsimp only; omega, by dsimp only; omega, h.symm⟩

/-- A pipe that has just been created is empty. -/
theorem consistent_create (h : createDataPipe options = .ok pipe)
    (hcap : pipe.options.capacityNumBytes < 2 ^ 31) : Consistent pipe.options ⟨pipe, [], []⟩ := by
  obtain ⟨o, hpos, hle, rfl⟩ := createDataPipe_eq h
  exact
    { options_eq := rfl
      element_pos := hpos
      element_le := hle
      capacity_lt := hcap
      ring_length := length_replicate
      read_lt := hpos.trans_le hle
      conserved := rfl
      write_eq := (Nat.zero_mod _).symm
      stored := ⟨[], rfl, rfl, holds_nil _ _⟩
      toConsumer_written := nofun
      toProducer_read := nofun
      granted_le := nofun
      twoPhase_le := nofun }

/-- From its creation on, whatever the users do and however the control messages
arrive, no assertion fails, the bytes of the ring are all accounted for, and what
the consumer has taken out is a prefix of what the producer has put in. -/
theorem run_conserves (options : Option CreateOptions) (pipe : Pipe)
    (hcreate : createDataPipe options = .ok pipe)
    (hcap : pipe.options.capacityNumBytes < 2 ^ 31) (steps : List Step) :
    ∃ s, (mk pipe [] []).run steps = some s ∧
      s.pipe.producer.availableCapacity + announced s.pipe.toConsumer +
          s.pipe.consumer.bytesAvailable + announced s.pipe.toProducer =
        pipe.options.capacityNumBytes ∧
      s.pipe.producer.writeOffset = (s.pipe.consumer.readOffset + s.pipe.consumer.bytesAvailable +
          announced s.pipe.toConsumer) % pipe.options.capacityNumBytes ∧
      s.consumed <+: s.committed := by
  obtain ⟨s, hs, h, -⟩ := (consistent_create hcreate hcap).run steps
  obtain ⟨unread, hc, -, -⟩ := h.stored
  rw [← h.options_eq]
  exact ⟨s, hs, h.conserved, h.write_eq, unread, hc.symm⟩

/-- Six bytes go around a ring of four. -/
theorem run_conserves_around : ∃ s, (mk ⟨⟨1, 4⟩, [0, 0, 0, 0], ⟨0, 4, false, false, false, false⟩,
        ⟨0, 0, false, 0, false, false, false⟩, [], [], 0⟩ [] []).run
        [.writeData [1, 2, 3] false, .deliverToConsumer 1 false,
          .readData ⟨false, false, false, false⟩ 2, .deliverToProducer 1 false,
          .writeData [4, 5, 6] true] = some s ∧
      s.pipe.producer.availableCapacity + announced s.pipe.toConsumer +
          s.pipe.consumer.bytesAvailable + announced s.pipe.toProducer = 4 ∧
      s.pipe.producer.writeOffset = (s.pipe.consumer.readOffset + s.pipe.consumer.bytesAvailable +
          announced s.pipe.toConsumer) % 4 ∧
      s.consumed <+: s.committed :=
  run_conserves (some ⟨16, 1, 4⟩) _ rfl (by decide) _

end ChromiumBase.DataPipe
