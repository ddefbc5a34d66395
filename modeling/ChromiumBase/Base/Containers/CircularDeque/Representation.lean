import ChromiumBase.Base.Containers.CircularDeque.Basic
import ChromiumBase.Lib.RingBuffer

/-!
# The list a deque stands for

`Represents d xs` says that the deque `d` keeps the list `xs` in its buffer, with
at least one slot to spare, or has no buffer at all. The functions that replace
the buffer keep the list; they may fail only when
memory runs out.
-/

open Outcome RingBuffer List

namespace ChromiumBase.CircularDeque

variable {α : Type} {d : CircularDeque α} {xs : List α}

def OutOfMemory (c : Crash) : Prop := c = .outOfMemory

structure Placed (d : CircularDeque α) (xs : List α) : Prop where
  begin_lt : d.beginIdx < d.buffer.length
  length_lt : xs.length < d.buffer.length
  end_eq : d.endIdx = cell d.buffer.length d.beginIdx xs.length
  holds : Holds d.buffer d.beginIdx (xs.map some)
  bounded : d.buffer.length < 2 ^ 63

def Represents (d : CircularDeque α) (xs : List α) : Prop :=
  Placed d xs ∨ d.buffer = [] ∧ d.beginIdx = d.endIdx ∧ xs = []

theorem represents_empty : Represents (empty : CircularDeque α) [] := .inr ⟨rfl, rfl, rfl⟩

theorem Placed.size_eq (h : Placed d xs) : d.size = xs.length := by
  have hb := h.begin_lt
  have hlen := h.length_lt
  rw [size, h.end_eq]
  unfold cell
  split <;> split <;> omega

theorem Placed.capacity_eq (h : Placed d xs) : d.capacity = d.buffer.length - 1 :=
  if_neg (Nat.ne_of_gt (Nat.lt_of_le_of_lt (Nat.zero_le _) h.begin_lt))

section

variable (h : Represents d xs)

include h

theorem Represents.size_eq : d.size = xs.length := by
  rcases h with h | ⟨-, hbe, rfl⟩
  · exact h.size_eq
  · simp [size, hbe]

theorem Represents.capacity_eq : d.capacity = d.buffer.length - 1 := by
  rcases h with h | ⟨hbuf, -, -⟩
  · exact h.capacity_eq
  · simp [capacity, hbuf]

theorem Represents.length_le_capacity : xs.length ≤ d.capacity := by
  rw [h.capacity_eq]
  rcases h with h | ⟨-, -, rfl⟩
  · have := h.length_lt
    omega
  · exact Nat.zero_le _

theorem Represents.buffer_lt : d.buffer.length < 2 ^ 63 := by
  rcases h with h | ⟨hbuf, -, -⟩
  · exact h.bounded
  · simp [hbuf]

theorem Represents.placed (hcap : 0 < d.capacity) : Placed d xs := by
  rcases h with h | ⟨hbuf, -, -⟩
  · exact h
  · simp [capacity, hbuf] at hcap

end

variable {i n : ℕ}

theorem Represents.placed_of_lt (h : Represents d xs) (hi : i < xs.length) : Placed d xs :=
  h.placed (Nat.lt_of_lt_of_le (Nat.zero_lt_of_lt hi) h.length_le_capacity)

theorem Represents.iteratorAt_eq (h : Represents d xs) (hi : i ≤ xs.length) :
    d.iteratorAt i = if i = 0 then d.beginIdx else cell d.buffer.length d.beginIdx i := by
  unfold iteratorAt
  split
  · rfl
  · have hp := h.placed_of_lt (i := i - 1) (by omega)
    have := hp.length_lt
    rw [Nat.add_comm, add_mod_eq_cell hp.begin_lt (by omega)]

theorem Placed.iteratorAt_eq (h : Placed d xs) (hi : i ≤ xs.length) :
    d.iteratorAt i = cell d.buffer.length d.beginIdx i := by
  rw [Represents.iteratorAt_eq (.inl h) hi]
  split
  · subst i
    rw [cell_zero h.begin_lt]
  · rfl

section

variable (hb : d.beginIdx < d.buffer.length) (hi : i < d.buffer.length)

include hb hi

theorem offsetFromBegin_cell : d.offsetFromBegin (cell d.buffer.length d.beginIdx i) = i := by
  unfold offsetFromBegin cell
  split <;> split <;> omega

theorem increment_cell : d.increment (cell d.buffer.length d.beginIdx i) =
      cell d.buffer.length d.beginIdx (i + 1) := by
  unfold increment cell
  split <;> split <;> split <;> omega

theorem decrement_cell : d.decrement (cell d.buffer.length d.beginIdx (i + 1)) =
      cell d.buffer.length d.beginIdx i := by
  unfold decrement cell
  split <;> split <;> split <;> omega

theorem offsetFromBegin_lt {j : ℕ} (hj : j < i) :
    d.offsetFromBegin (cell d.buffer.length d.beginIdx j) <
      d.offsetFromBegin (cell d.buffer.length d.beginIdx i) := by
  rwa [offsetFromBegin_cell hb (hj.trans hi), offsetFromBegin_cell hb hi]

end

theorem Placed.slot_cell (h : Placed d xs) (hi : i < xs.length) :
    d.slot (cell d.buffer.length d.beginIdx i) = xs[i]? := by
  rw [slot, h.holds i (by simpa using hi), getElem?_map, getElem?_eq_getElem hi]
  rfl

theorem Represents.elemAt_eq (h : Represents d xs) (hi : i < xs.length) : d.elemAt i = xs[i]? := by
  have hp := h.placed_of_lt hi
  have hb := hp.begin_lt
  have hlen := hp.length_lt
  rw [← hp.slot_cell hi, elemAt, hp.end_eq]
  unfold cell
  split <;> split <;> split at * <;> first | rfl | omega | (congr 1; omega)

theorem Represents.toList_eq (h : Represents d xs) : d.toList = xs.map some := by
  rw [toList, h.size_eq]
  apply ext_getElem?
  intro i
  by_cases hi : i < xs.length
  · have hp := h.placed_of_lt hi
    have := hp.length_lt
    simp [hi, add_mod_eq_cell hp.begin_lt (by omega : i ≤ d.buffer.length), hp.slot_cell hi]
  · simp [hi]

/-- `MoveRange` between two buffers copies the range and leaves what is before it. -/
theorem moveRange_returns {fromBuf toBuf : List (Option α)} {fromBegin fromEnd dest : ℕ}
    (hle : fromBegin ≤ fromEnd) (hf : fromEnd ≤ fromBuf.length)
    (hto : dest + (fromEnd - fromBegin) ≤ toBuf.length) :
    ReturnsUnless OutOfMemory (moveRange fromBuf fromBegin fromEnd toBuf dest) fun buf =>
      buf.length = toBuf.length ∧
      (∀ i, i < fromEnd - fromBegin → buf[dest + i]? = fromBuf[fromBegin + i]?) ∧
      ∀ i, i < dest → buf[i]? = toBuf[i]? := by
  unfold moveRange
  rw [if_pos ⟨hle, hf, hto⟩]
  have hpre : (toBuf.take dest).length = dest := length_take_of_le (by omega)
  have hmid : ((fromBuf.drop fromBegin).take (fromEnd - fromBegin)).length =
      fromEnd - fromBegin := by
    rw [length_take, length_drop]
    omega
  rw [append_assoc]
  refine ⟨?_, fun i hi => ?_, fun i hi => ?_⟩
  · rw [length_append, length_append, hpre, hmid, length_drop]
    omega
  · rw [getElem?_append_right (by omega), hpre, Nat.add_sub_cancel_left,
      getElem?_append_left (by omega), getElem?_take_of_lt hi, getElem?_drop]
  · rw [getElem?_append_left (by omega), getElem?_take_of_lt hi]

/-- The elements are laid out from the first slot of the new buffer on. -/
theorem Represents.moveBuffer (h : Represents d xs) (toBuf : List (Option α))
    (hlen : xs.length < toBuf.length) (hbo : toBuf.length < 2 ^ 63) :
    ReturnsUnless OutOfMemory (d.moveBuffer toBuf) fun d' =>
      Placed d' xs ∧ d'.buffer.length = toBuf.length := by
  have hs := h.size_eq
  unfold CircularDeque.moveBuffer
  split
  · -- the list does not wrap
    have hp := h.placed_of_lt (i := 0) (by rw [← hs, size, if_pos (by omega)]; omega)
    have hb := hp.begin_lt
    have hend := hp.end_eq
    rw [size, if_pos (by omega)] at hs
    have hle : d.endIdx ≤ d.buffer.length := by
      unfold cell at hend
      split at hend <;> omega
    refine (moveRange_returns (by omega) hle (by omega)).bind ?_
    rintro buf ⟨hbuf, hc, -⟩
    refine ⟨⟨?_, ?_, ?_, ?_, ?_⟩, hbuf⟩ <;> dsimp only
    · omega
    · omega
    · rw [cell, if_pos (by omega)]
      omega
    · intro i hi
      rw [length_map] at hi
      have hi' := hp.holds i (by simpa using hi)
      have hce : cell d.buffer.length d.beginIdx i = d.beginIdx + i := if_pos (by omega)
      rw [cell, if_pos (by omega), hc i (by omega), ← hi', hce]
    · omega
  · split
    · -- the right part goes to the front, the left part behind it
      have hp := h.placed_of_lt (i := 0) (by
        rw [← hs, size, if_neg (by omega)]
        rcases h with h | ⟨-, hbe, -⟩
        · have := h.begin_lt
          omega
        · omega)
      have hb := hp.begin_lt
      rw [size, if_neg (by omega)] at hs
      refine (moveRange_returns (by omega) le_rfl (by omega)).bind ?_
      rintro buf₁ ⟨hbuf₁, hc₁, -⟩
      refine (moveRange_returns (Nat.zero_le _) (by omega) (by omega)).bind ?_
      rintro buf ⟨hbuf, hc, hk⟩
      refine ⟨⟨?_, ?_, ?_, ?_, ?_⟩, hbuf.trans hbuf₁⟩ <;> dsimp only
      · omega
      · omega
      · rw [cell, if_pos (by omega)]
        omega
      · intro i hi
        rw [length_map] at hi
        have hi' := hp.holds i (by simpa using hi)
        rw [cell, if_pos (by omega), ← hi', Nat.zero_add]
        by_cases hr : i < d.buffer.length - d.beginIdx
        · have hce : cell d.buffer.length d.beginIdx i = d.beginIdx + i := if_pos (by omega)
          have hm := hc₁ i hr
          rw [Nat.zero_add] at hm
          rw [hk i hr, hm, hce]
        · have hm := hc (i - (d.buffer.length - d.beginIdx)) (by omega)
          rw [Nat.add_sub_cancel' (by omega), Nat.zero_add] at hm
          rw [hm, cell, if_neg (by omega)]
          congr 1
          omega
      · omega
    · have hnil : xs.length = 0 := by
        rw [← hs, size, if_pos (by omega)]
        omega
      rw [length_eq_zero_iff] at hnil
      subst hnil
      exact ⟨⟨hlen, hlen, (cell_zero hlen).symm, holds_nil _ _, hbo⟩, rfl⟩

variable {elemSize : ℕ+}

section

variable (h : Represents d xs)

include h

/-- A new capacity leaves the list alone if it has room for it. -/
theorem Represents.setCapacityTo (hn : xs.length ≤ n) (hmax : n + 1 < 2 ^ 64) :
    ReturnsUnless OutOfMemory (d.setCapacityTo elemSize n) fun d' =>
      Placed d' xs ∧ d'.capacity = n := by
  have hsum : sum n 1 = n + 1 := Nat.mod_eq_of_lt hmax
  unfold CircularDeque.setCapacityTo newBuffer
  rw [hsum]
  split
  · rename_i hmem
    have hs : n + 1 < 2 ^ 63 :=
      Nat.lt_of_le_of_lt (Nat.le_mul_of_pos_left _ elemSize.pos) hmem
    have hm := h.moveBuffer (List.replicate (n + 1) none)
      (by simp; omega) (by simpa using hs)
    refine hm.mono ?_
    rintro d' ⟨hd', hlen⟩
    exact ⟨hd', by rw [hd'.capacity_eq, hlen]; simp⟩
  · rfl

/-- After growing there is room for `k` more elements, as long as their number fits. -/
theorem Represents.expandCapacityIfNecessary {k : ℕ} (hmax : xs.length + k + 1 < 2 ^ 64) :
    ReturnsUnless OutOfMemory (d.expandCapacityIfNecessary elemSize k) fun d' =>
      Represents d' xs ∧ xs.length + k ≤ d'.capacity := by
  have hcap := h.capacity_eq
  have hbuf := h.buffer_lt
  have hsum : sum d.size k = xs.length + k := by
    rw [h.size_eq]
    exact Nat.mod_eq_of_lt (by omega)
  have hg : sum d.capacity (d.capacity / 4) = d.capacity + d.capacity / 4 :=
    Nat.mod_eq_of_lt (by omega)
  unfold CircularDeque.expandCapacityIfNecessary
  simp only [hsum]
  split
  · exact ⟨h, ‹_›⟩
  · have ht : initialCapacity = 3 := rfl
    refine (h.setCapacityTo (by omega) (by omega)).mono ?_
    rintro d' ⟨hd', hcap'⟩
    exact ⟨.inl hd', by omega⟩

theorem Represents.shrinkCapacityIfNecessary :
    ReturnsUnless OutOfMemory (d.shrinkCapacityIfNecessary elemSize) fun d' =>
      Represents d' xs := by
  have hcap := h.capacity_eq
  have hbuf := h.buffer_lt
  have hle := h.length_le_capacity
  have hsum : sum xs.length (xs.length / 4) = xs.length + xs.length / 4 :=
    Nat.mod_eq_of_lt (by omega)
  unfold CircularDeque.shrinkCapacityIfNecessary
  simp only [h.size_eq]
  split
  · exact h
  · split
    · exact h
    · split
      · exact (h.setCapacityTo (by omega) (by omega)).mono fun d' hd' => .inl hd'.1
      · exact h

theorem Represents.reserve (hmax : n + 1 < 2 ^ 64) :
    ReturnsUnless OutOfMemory (d.reserve elemSize n) fun d' => Represents d' xs := by
  have hle := h.length_le_capacity
  unfold CircularDeque.reserve
  split
  · exact (h.setCapacityTo (by omega) hmax).mono fun d' hd' => .inl hd'.1
  · exact h

theorem Represents.shrinkToFit :
    ReturnsUnless OutOfMemory (d.shrinkToFit elemSize) fun d' => Represents d' xs := by
  have hs := h.size_eq
  unfold CircularDeque.shrinkToFit
  split
  · rename_i hbe
    rw [size, hbe, if_pos le_rfl, Nat.sub_self] at hs
    exact .inr ⟨rfl, hbe, length_eq_zero_iff.mp hs.symm⟩
  · have hle := h.length_le_capacity
    have hcap := h.capacity_eq
    have hbuf := h.buffer_lt
    rw [hs]
    exact (h.setCapacityTo le_rfl (by omega)).mono fun d' hd' => .inl hd'.1

theorem Represents.clearRetainCapacity : Represents d.clearRetainCapacity [] := by
  rcases h with h | ⟨hbuf, -, -⟩
  · have hpos : 0 < d.buffer.length := Nat.zero_lt_of_lt h.begin_lt
    exact .inl ⟨hpos, hpos, (cell_zero hpos).symm, holds_nil _ _, h.bounded⟩
  · exact .inr ⟨hbuf, rfl, rfl⟩

end

end ChromiumBase.CircularDeque
