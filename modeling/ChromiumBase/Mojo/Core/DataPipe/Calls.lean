import ChromiumBase.Mojo.Core.DataPipe.Pipe
import Mathlib.Algebra.BigOperators.Group.List.Basic

/-!
# What the calls do

Each call on a dispatcher either leaves its counters alone or moves some bytes;
the lemmas say which bytes, and that no assertion fails. They ask only for
counters inside the ring, and for a ring of less than `2 ^ 31` bytes, so that no
offset overflows.
-/

open RingBuffer List

namespace ChromiumBase.DataPipe

theorem sum32_eq {a b : ℕ} (h : a + b < 2 ^ 32 := by omega) : sum32 a b = a + b :=
  Nat.mod_eq_of_lt h

theorem check_of {α : Type} {c : Prop} [Decidable c] (h : c) (rest : Option α) :
    check c rest = rest := if_pos h

@[simp] theorem announced_nil : announced [] = 0 := rfl

@[simp] theorem announced_append (ms ns : List ControlMessage) :
    announced (ms ++ ns) = announced ms + announced ns := by
  simp [announced]

@[simp] theorem announced_cons (m : ControlMessage) (ms : List ControlMessage) :
    announced (m :: ms) = m.numBytes + announced ms := by
  simp [announced]

theorem announced_take_drop (ms : List ControlMessage) (k : ℕ) :
    announced (ms.take k) + announced (ms.drop k) = announced ms := by
  rw [← announced_append, take_append_drop]

def AllOf (command : Command) (ms : List ControlMessage) : Prop :=
  ∀ m ∈ ms, m.command = command

theorem dvd_min_of_dvd {e a b : ℕ} (ha : e ∣ a) (hb : e ∣ b) : e ∣ min a b :=
  min_rec' (e ∣ ·) ha hb

variable {o : Options} {ring : List UInt8} {arrived ms : List ControlMessage}
  (closureKnown : Bool) (elements : List UInt8)

namespace Producer

variable {p : Producer}

/-- The copies that `WriteData` makes are one copy around the ring. -/
theorem overwrite_overwrite {b n : ℕ} (hb : b ≤ ring.length) :
    (if n - min (ring.length - b) n > 0 then
      overwrite (overwrite ring b (elements.take (min (ring.length - b) n))) 0
        ((elements.drop (min (ring.length - b) n)).take (n - min (ring.length - b) n))
    else overwrite ring b (elements.take (min (ring.length - b) n))) =
      overwriteAround ring b (elements.take n) := by
  rw [overwriteAround, take_take, drop_take]
  split
  · rw [Nat.min_eq_left (by omega : ring.length - b ≤ n)]
  · rw [Nat.sub_eq_zero_of_le (by omega : n ≤ ring.length - b), take_zero, overwrite_nil]

/-- `WriteData` is refused, or writes at most the capacity that is left, in whole elements. -/
theorem writeData_eq (allOrNone : Bool) (hr : ring.length = o.capacityNumBytes)
    (hc : o.capacityNumBytes < 2 ^ 31) (ha : p.availableCapacity ≤ o.capacityNumBytes)
    (hw : p.writeOffset < o.capacityNumBytes) :
    (∃ result, p.writeData o elements allOrNone ring = some (.refused result p ring)) ∨
    ∃ n, n ≤ p.availableCapacity ∧ n ≤ elements.length ∧ ¬ p.inTwoPhaseWrite ∧
      (o.elementNumBytes ∣ p.availableCapacity → o.elementNumBytes ∣ n) ∧
      p.writeData o elements allOrNone ring = some
        ⟨.ok, { p with
            availableCapacity := p.availableCapacity - n
            writeOffset := (p.writeOffset + n) % o.capacityNumBytes },
          overwriteAround ring p.writeOffset (elements.take n),
          [⟨.dataWasWritten, n⟩], elements.take n⟩ := by
  unfold writeData
  simp only [check_of ha, check_of hw.le]
  rw [← hr] at *
  rw [overwrite_overwrite elements (by omega)]
  split_ifs with hcl htwo hp hodd hn hall hf
  iterate 7 exact .inl ⟨_, rfl⟩
  refine .inr ⟨min elements.length p.availableCapacity, Nat.min_le_right _ _,
    Nat.min_le_left _ _, htwo, dvd_min_of_dvd (Nat.dvd_of_mod_eq_zero (not_not.mp hodd)), ?_⟩
  rw [check_of (by omega), check_of (Nat.min_le_right _ _), sum32_eq]

theorem beginWriteData_eq (hw : p.writeOffset < o.capacityNumBytes) :
    (∃ result, result ≠ .ok ∧ p.beginWriteData o = some (result, 0, p)) ∨
    ∃ n, n ≤ p.availableCapacity ∧ p.writeOffset + n ≤ o.capacityNumBytes ∧
      n = min (o.capacityNumBytes - p.writeOffset) p.availableCapacity ∧
      p.beginWriteData o = some (.ok, n, { p with inTwoPhaseWrite := true }) := by
  unfold beginWriteData
  split_ifs with hc htwo hp hf
  iterate 4 exact .inl ⟨_, by decide, rfl⟩
  refine .inr ⟨min (o.capacityNumBytes - p.writeOffset) p.availableCapacity,
    Nat.min_le_right _ _, by omega, rfl, ?_⟩
  rw [check_of (by omega)]

/-- `EndWriteData` is refused, or commits what was written, and ends the two-phase write. -/
theorem endWriteData_eq (ring : List UInt8) (n : ℕ) (hc : o.capacityNumBytes < 2 ^ 31)
    (ha : p.availableCapacity ≤ o.capacityNumBytes) (hw : p.writeOffset < o.capacityNumBytes) :
    (∃ result two, (two = true → p.inTwoPhaseWrite) ∧ p.endWriteData o n ring =
        some (.refused result { p with inTwoPhaseWrite := two } ring)) ∨
    n ≤ p.availableCapacity ∧ p.writeOffset + n ≤ o.capacityNumBytes ∧
      o.elementNumBytes ∣ n ∧ p.endWriteData o n ring = some
        ⟨.ok, { p with
            availableCapacity := p.availableCapacity - n
            writeOffset := (p.writeOffset + n) % o.capacityNumBytes
            inTwoPhaseWrite := false },
          ring, [⟨.dataWasWritten, n⟩], (ring.drop p.writeOffset).take n⟩ := by
  unfold endWriteData
  split
  · exact .inl ⟨_, p.inTwoPhaseWrite, id, rfl⟩
  split
  · exact .inl ⟨_, p.inTwoPhaseWrite, id, rfl⟩
  split
  · exact .inl ⟨_, false, nofun, rfl⟩
  · rename_i hbad
    have hsum : sum32 p.writeOffset n = p.writeOffset + n := sum32_eq
    have hsum' : sum32 n p.writeOffset = p.writeOffset + n := by
      rw [sum32_eq, Nat.add_comm]
    refine .inr ⟨by omega, by omega, Nat.dvd_of_mod_eq_zero (by omega), ?_⟩
    rw [check_of (by omega), hsum]

theorem receive_eq (hms : AllOf .dataWasRead ms)
    (hsum : p.availableCapacity + announced ms ≤ o.capacityNumBytes) :
    ∃ closed, receive o closureKnown ms p = ({ p with
          availableCapacity := p.availableCapacity + announced ms
          peerClosed := closed }, []) := by
  induction ms generalizing p with
  | nil => exact ⟨_, rfl⟩
  | cons m ms ih =>
    rw [announced_cons] at hsum
    have hm : m.command = .dataWasRead := hms m mem_cons_self
    obtain ⟨closed, hr⟩ := ih
      (p := { p with availableCapacity := p.availableCapacity + m.numBytes })
      (fun m' hm' => hms m' (mem_cons_of_mem m hm')) (by dsimp only; omega)
    refine ⟨closed, ?_⟩
    rw [receive, if_neg (not_not.mpr hm), if_neg (by omega), hr, announced_cons, Nat.add_assoc]

theorem updateSignalsState_eq (ha : AllOf .dataWasRead arrived)
    (hsum : p.availableCapacity + announced arrived ≤ o.capacityNumBytes) :
    ∃ closed k left, left ⊆ arrived ∧ k + announced left = announced arrived ∧
      p.updateSignalsState o closureKnown arrived =
        ({ p with availableCapacity := p.availableCapacity + k, peerClosed := closed }, left) := by
  unfold updateSignalsState
  split
  · rename_i hn
    rw [hn.1]
    exact ⟨true, 0, [], nil_subset _, rfl, rfl⟩
  · split
    · obtain ⟨closed, hr⟩ := receive_eq closureKnown ha hsum
      exact ⟨closed, announced arrived, [], nil_subset _, rfl, hr⟩
    · exact ⟨p.peerClosed, 0, arrived, List.Subset.refl _, Nat.zero_add _, rfl⟩

end Producer

namespace Consumer

variable {c : Consumer}

theorem starved_ne_ok {otherwise : MojoResult} (h : otherwise ≠ .ok) :
    c.starved otherwise ≠ .ok := by
  unfold starved
  split
  · exact nofun
  · exact h

/-- `ReadData` gives no bytes away, or at most those available, in whole elements. -/
theorem readData_eq (flags : ReadFlags) (numBytes : ℕ) (hr : ring.length = o.capacityNumBytes)
    (hca : o.capacityNumBytes < 2 ^ 31) (ha : c.bytesAvailable ≤ o.capacityNumBytes)
    (hre : c.readOffset < o.capacityNumBytes) :
    (∃ result n data, c.readData o flags numBytes ring = some ⟨result, c, [], n, data, []⟩ ∧
      (result = .ok → o.elementNumBytes ∣ c.bytesAvailable → o.elementNumBytes ∣ n)) ∨
    ∃ n, n ≤ c.bytesAvailable ∧ ¬ c.inTwoPhaseRead ∧
      (o.elementNumBytes ∣ c.bytesAvailable → o.elementNumBytes ∣ n) ∧
      c.readData o flags numBytes ring = some
        ⟨.ok, { c with
            readOffset := (c.readOffset + n) % o.capacityNumBytes
            bytesAvailable := c.bytesAvailable - n },
          [⟨.dataWasRead, n⟩], n,
          if flags.discard then [] else readAround ring c.readOffset n,
          readAround ring c.readOffset n⟩ := by
  unfold readData
  by_cases hc : c.isClosed ∨ c.inTransit
  · exact .inl ⟨_, _, _, if_pos hc, nofun⟩
  rw [if_neg hc]
  by_cases htwo : c.inTwoPhaseRead
  · exact .inl ⟨_, _, _, if_pos htwo, nofun⟩
  rw [if_neg htwo]
  by_cases hq : flags.query
  · rw [if_pos hq]
    by_cases hbad : flags.peek ∨ flags.discard
    · exact .inl ⟨_, _, _, if_pos hbad, nofun⟩
    · exact .inl ⟨_, _, _, if_neg hbad, fun _ => id⟩
  rw [if_neg hq]
  by_cases hb : flags.discard ∧ flags.peek
  · exact .inl ⟨_, _, _, if_pos hb, nofun⟩
  rw [if_neg hb]
  by_cases hodd : numBytes % o.elementNumBytes ≠ 0
  · exact .inl ⟨_, _, _, if_pos hodd, nofun⟩
  have hw := dvd_min_of_dvd (b := c.bytesAvailable)
    (Nat.dvd_of_mod_eq_zero (not_not.mp hodd))
  rw [if_neg hodd]
  have hle := Nat.min_le_right numBytes c.bytesAvailable
  generalize min numBytes c.bytesAvailable = n at *
  by_cases hmin : (if flags.allOrNone then numBytes else 0) > c.bytesAvailable
  · exact .inl ⟨_, _, _, if_pos hmin, fun h => absurd h (starved_ne_ok (by decide))⟩
  rw [if_neg hmin]
  by_cases hn : n = 0
  · exact .inl ⟨_, _, _, if_pos hn, fun h => absurd h (starved_ne_ok (by decide))⟩
  rw [if_neg hn, check_of (.inr hre.le)]
  by_cases hp : flags.discard ∨ ¬ flags.peek
  · -- the two copies are one reading around the ring
    have hco : (ring.drop c.readOffset).take (min (o.capacityNumBytes - c.readOffset) n) ++
        ring.take (n - min (o.capacityNumBytes - c.readOffset) n) =
        readAround ring c.readOffset n := by
      have hh : n - min (o.capacityNumBytes - c.readOffset) n =
          n - (o.capacityNumBytes - c.readOffset) := by omega
      rw [readAround, hr, hh, Nat.min_comm (o.capacityNumBytes - c.readOffset),
        ← take_take, take_of_length_le (l := ring.drop c.readOffset)
          (by rw [length_drop, hr])]
    refine .inr ⟨n, hle, htwo, hw, ?_⟩
    rw [if_pos hp, hco, sum32_eq, ite_self]
  · exact .inl ⟨_, _, _, if_neg hp, fun _ => hw⟩

theorem beginReadData_eq (hr : c.readOffset < o.capacityNumBytes) :
    (∃ result, c.beginReadData o = some (result, 0, c)) ∨
    ∃ n, n ≤ c.bytesAvailable ∧ c.readOffset + n ≤ o.capacityNumBytes ∧
      n = min c.bytesAvailable (o.capacityNumBytes - c.readOffset) ∧
      c.beginReadData o =
        some (.ok, n, { c with inTwoPhaseRead := true, twoPhaseMaxBytesRead := n }) := by
  unfold beginReadData
  split_ifs with hc htwo hn
  iterate 3 exact .inl ⟨_, rfl⟩
  refine .inr ⟨min c.bytesAvailable (o.capacityNumBytes - c.readOffset),
    Nat.min_le_left _ _, by omega, rfl, ?_⟩
  rw [check_of hr]

/-- `EndReadData` is refused with or without an end of the two-phase read, or gives the bytes
away. -/
theorem endReadData_eq (ring : List UInt8) (n : ℕ) (ho : ¬ c.isClosed)
    (hc : o.capacityNumBytes < 2 ^ 31)
    (htp : c.inTwoPhaseRead → c.twoPhaseMaxBytesRead ≤ c.bytesAvailable ∧
      c.readOffset + c.twoPhaseMaxBytesRead ≤ o.capacityNumBytes) :
    (∃ result, c.endReadData o n ring = some (.refused result c n)) ∨
    (∃ result, c.endReadData o n ring = some
      (.refused result { c with inTwoPhaseRead := false, twoPhaseMaxBytesRead := 0 } n)) ∨
    n ≤ c.bytesAvailable ∧ c.readOffset + n ≤ o.capacityNumBytes ∧
      o.elementNumBytes ∣ n ∧ c.endReadData o n ring = some
        ⟨.ok, { c with
            readOffset := (c.readOffset + n) % o.capacityNumBytes
            bytesAvailable := c.bytesAvailable - n
            inTwoPhaseRead := false
            twoPhaseMaxBytesRead := 0 },
          [⟨.dataWasRead, n⟩], n, [], (ring.drop c.readOffset).take n⟩ := by
  unfold endReadData
  by_cases htwo : ¬ c.inTwoPhaseRead
  · exact .inl ⟨_, if_pos htwo⟩
  obtain ⟨hmax, hf⟩ := htp (not_not.mp htwo)
  rw [if_neg htwo, check_of ho]
  split_ifs with ht hbad
  · exact .inl ⟨_, rfl⟩
  · exact .inr (.inl ⟨_, rfl⟩)
  · refine .inr (.inr ⟨by omega, by omega, Nat.dvd_of_mod_eq_zero (by omega), ?_⟩)
    rw [check_of (by omega), sum32_eq]

theorem receive_eq (hms : AllOf .dataWasWritten ms)
    (hsum : c.bytesAvailable + announced ms ≤ o.capacityNumBytes) :
    ∃ closed, receive o closureKnown ms c =
      ({ c with bytesAvailable := c.bytesAvailable + announced ms, peerClosed := closed }, []) := by
  induction ms generalizing c with
  | nil => exact ⟨_, rfl⟩
  | cons m ms ih =>
    rw [announced_cons] at hsum
    have hm : m.command = .dataWasWritten := hms m mem_cons_self
    obtain ⟨closed, hr⟩ := ih
      (c := { c with bytesAvailable := c.bytesAvailable + m.numBytes })
      (fun m' hm' => hms m' (mem_cons_of_mem m hm')) (by dsimp only; omega)
    refine ⟨closed, ?_⟩
    rw [receive, if_neg (not_not.mpr hm), if_neg (by omega), hr, announced_cons, Nat.add_assoc]

theorem updateSignalsState_eq (ha : AllOf .dataWasWritten arrived)
    (hsum : c.bytesAvailable + announced arrived ≤ o.capacityNumBytes) :
    ∃ closed k left, left ⊆ arrived ∧ k + announced left = announced arrived ∧
      c.updateSignalsState o closureKnown arrived =
        ({ c with bytesAvailable := c.bytesAvailable + k, peerClosed := closed }, left) := by
  unfold updateSignalsState
  split
  · rename_i hn
    rw [hn.1]
    exact ⟨true, 0, [], nil_subset _, rfl, rfl⟩
  · split
    · obtain ⟨closed, hr⟩ := receive_eq closureKnown ha hsum
      exact ⟨closed, announced arrived, [], nil_subset _, rfl, hr⟩
    · exact ⟨c.peerClosed, 0, arrived, List.Subset.refl _, Nat.zero_add _, rfl⟩

end Consumer

end ChromiumBase.DataPipe
