import Mathlib.Data.List.Basic
import Mathlib.Order.Nat

/-!
# Lists in a ring of cells

A ring buffer keeps a list in an array of cells, from some cell on and around
the end of the array. `cell c b i` is the `i`-th cell after the cell `b` in a
ring of `c` cells, with at most one wrap; `Holds buf b xs` says that the list
`xs` is stored from the cell `b` on. The lemmas say what writing one cell and
moving the start do to the stored list.
-/

open List

namespace RingBuffer

/-- The `i`-th cell after `b` in a ring of `c` cells. -/
def cell (c b i : ℕ) : ℕ := if b + i < c then b + i else b + i - c

theorem add_mod_eq_cell {c b i : ℕ} (hb : b < c) (hi : i ≤ c) : (b + i) % c = cell c b i := by
  unfold cell
  split
  · exact Nat.mod_eq_of_lt ‹_›
  · rw [Nat.mod_eq_sub_mod (by omega), Nat.mod_eq_of_lt (by omega)]

theorem cell_lt {c b i : ℕ} (hb : b < c) (hi : i ≤ c) : cell c b i < c := by
  unfold cell
  split <;> omega

@[simp] theorem cell_zero {c b : ℕ} (hb : b < c) : cell c b 0 = b := if_pos hb

theorem cell_inj {c b i j : ℕ} (hi : i < c) (hj : j < c) : cell c b i = cell c b j ↔ i = j := by
  unfold cell
  split <;> split <;> omega

theorem cell_cell {c b i j : ℕ} (hb : b < c) (h : i + j ≤ c) :
    cell c (cell c b i) j = cell c b (i + j) := by
  unfold cell
  split <;> split <;> split <;> omega

def Holds {α : Type*} (buf : List α) (b : ℕ) (xs : List α) : Prop :=
  ∀ i, i < xs.length → buf[cell buf.length b i]? = xs[i]?

section Cells

variable {α : Type*} {buf ys : List α} {b j k : ℕ} {xs : List α}

theorem holds_nil (buf : List α) (b : ℕ) : Holds buf b [] := fun i hi => absurd hi (by simp)

theorem Holds.take (h : Holds buf b xs) (k : ℕ) : Holds buf b (xs.take k) := by
  intro i hi
  rw [length_take] at hi
  rw [h i (by omega), getElem?_take_of_lt (by omega)]

theorem Holds.drop (h : Holds buf b xs) (hb : b < buf.length) (hk : k ≤ xs.length)
    (hlen : xs.length ≤ buf.length) : Holds buf (cell buf.length b k) (xs.drop k) := by
  intro i hi
  rw [length_drop] at hi
  rw [cell_cell hb (by omega), h _ (by omega), getElem?_drop]

theorem Holds.left (h : Holds buf b (xs ++ ys)) : Holds buf b xs := by
  have hl := h.take xs.length
  rwa [take_left] at hl

theorem Holds.right (h : Holds buf b (xs ++ ys)) (hb : b < buf.length)
    (hlen : xs.length + ys.length ≤ buf.length) : Holds buf (cell buf.length b xs.length) ys := by
  have hr := h.drop hb (k := xs.length) (by simp) (by simpa using hlen)
  rwa [drop_left] at hr

theorem Holds.append (h : Holds buf b xs) (hb : b < buf.length)
    (hlen : xs.length + ys.length ≤ buf.length) (h' : Holds buf (cell buf.length b xs.length) ys) :
    Holds buf b (xs ++ ys) := by
  intro i hi
  rw [length_append] at hi
  by_cases hx : i < xs.length
  · rw [h i hx, getElem?_append_left hx]
  · have hy := h' (i - xs.length) (by omega)
    rw [cell_cell hb (by omega)] at hy
    rw [getElem?_append_right (by omega), ← hy]
    congr 2
    omega

/-- Writing the `j`-th cell after `b` replaces the `j`-th element, and leaves the
list alone when it is shorter. -/
theorem Holds.set (h : Holds buf b xs) (hb : b < buf.length) (hlen : xs.length ≤ buf.length)
    (hj : j < buf.length) (a : α) : Holds (buf.set (cell buf.length b j) a) b (xs.set j a) := by
  intro i hi
  rw [length_set] at hi
  rw [length_set]
  have hc := cell_lt hb hj.le
  by_cases hij : i = j
  · subst hij
    rw [getElem?_set_self hc, getElem?_set_self hi]
  · have hne : cell buf.length b j ≠ cell buf.length b i := by
      rw [Ne, cell_inj hj (by omega)]
      exact Ne.symm hij
    rw [getElem?_set_ne hne, getElem?_set_ne (Ne.symm hij), h i hi]

theorem Holds.set_outside (h : Holds buf (cell buf.length b k) xs) (hb : b < buf.length)
    (hlen : k + xs.length ≤ buf.length) (hj : j < buf.length) (hout : j < k ∨ k + xs.length ≤ j)
    (a : α) : Holds (buf.set (cell buf.length b j) a) (cell buf.length b k) xs := by
  intro i hi
  have hne : cell buf.length b j ≠ cell buf.length b (k + i) := by
    rw [Ne, cell_inj hj (by omega)]
    omega
  rw [length_set, ← h i hi, cell_cell hb (by omega), getElem?_set_ne hne]

theorem Holds.concat (h : Holds buf b xs) (hb : b < buf.length) (hlen : xs.length < buf.length)
    (a : α) : Holds (buf.set (cell buf.length b xs.length) a) b (xs ++ [a]) := by
  have hset := h.set hb hlen.le hlen a
  rw [set_eq_of_length_le le_rfl] at hset
  refine hset.append (by simpa using hb)
    (by rw [length_set, length_singleton]; omega) fun i hi => ?_
  have hi0 : i = 0 := by simpa using hi
  subst hi0
  have hc := cell_lt hb hlen.le
  rw [length_set, cell_zero hc, getElem?_set_self hc]
  rfl

theorem Holds.cons (hb : b < buf.length) (h : Holds buf (cell buf.length b 1) xs)
    (hlen : xs.length < buf.length) (a : α) : Holds (buf.set b a) b (a :: xs) := by
  intro i hi
  rw [length_set]
  cases i with
  | zero => rw [cell_zero hb, getElem?_set_self hb, getElem?_cons_zero]
  | succ i =>
    rw [length_cons] at hi
    have hne : b ≠ cell buf.length b (i + 1) := by
      unfold cell
      split <;> omega
    rw [getElem?_set_ne hne, getElem?_cons_succ, ← h i (by omega),
      cell_cell hb (by omega), Nat.add_comm]

end Cells

/-! ## Copying in and out

A list is copied into the ring in at most two pieces: up to the end of the array,
and from its start on. -/

section Copies

variable {n off i : ℕ}

def overwrite (buf : List α) (off : ℕ) (xs : List α) : List α :=
  buf.take off ++ xs ++ buf.drop (off + xs.length)

@[simp] theorem overwrite_nil (buf : List α) (off : ℕ) : overwrite buf off [] = buf := by
  simp [overwrite]

theorem length_overwrite (h : off + xs.length ≤ buf.length) :
    (overwrite buf off xs).length = buf.length := by
  rw [overwrite, length_append, length_append, length_take, length_drop]
  omega

theorem getElem?_overwrite (h : off + xs.length ≤ buf.length) :
    (overwrite buf off xs)[i]? =
      if off ≤ i ∧ i < off + xs.length then xs[i - off]? else buf[i]? := by
  have hoff : (buf.take off).length = off := length_take_of_le (by omega)
  rw [overwrite, append_assoc]
  split
  · rw [getElem?_append_right (by omega), hoff, getElem?_append_left (by omega)]
  · by_cases hi : i < off
    · rw [getElem?_append_left (by omega), getElem?_take_of_lt hi]
    · rw [getElem?_append_right (by omega), hoff, getElem?_append_right (by omega), getElem?_drop]
      congr 1
      omega

def overwriteAround (buf : List α) (b : ℕ) (xs : List α) : List α :=
  overwrite (overwrite buf b (xs.take (buf.length - b))) 0 (xs.drop (buf.length - b))

theorem length_overwriteAround (hb : b ≤ buf.length) (hlen : xs.length ≤ buf.length) :
    (overwriteAround buf b xs).length = buf.length := by
  have hf : (overwrite buf b (xs.take (buf.length - b))).length = buf.length :=
    length_overwrite (by rw [length_take]; omega)
  rw [overwriteAround, length_overwrite (by rw [hf, length_drop]; omega), hf]

theorem getElem?_overwriteAround (hb : b < buf.length) (hlen : xs.length ≤ buf.length)
    (hi : i < buf.length) : (overwriteAround buf b xs)[cell buf.length b i]? =
      if i < xs.length then xs[i]? else buf[cell buf.length b i]? := by
  have ht : (xs.take (buf.length - b)).length = min (buf.length - b) xs.length :=
    length_take
  have hd : (xs.drop (buf.length - b)).length = xs.length - (buf.length - b) :=
    length_drop
  have hf : (overwrite buf b (xs.take (buf.length - b))).length = buf.length :=
    length_overwrite (by omega)
  rw [overwriteAround, getElem?_overwrite (by omega), getElem?_overwrite (by omega), ht, hd]
  unfold cell
  by_cases hw : b + i < buf.length
  · rw [if_pos hw, if_neg (by omega)]
    by_cases hx : i < xs.length
    · rw [if_pos (by omega), if_pos hx, Nat.add_sub_cancel_left, getElem?_take_of_lt (by omega)]
    · rw [if_neg (by omega), if_neg hx]
  · rw [if_neg hw]
    by_cases hx : i < xs.length
    · rw [if_pos (by omega), if_pos hx, getElem?_drop]
      congr 1
      omega
    · rw [if_neg (by omega), if_neg (by omega), if_neg hx]

/-- What is written behind the contents belongs to them. -/
theorem Holds.overwriteAround (h : Holds buf b xs) (hb : b < buf.length)
    (hlen : xs.length + ys.length ≤ buf.length) :
    Holds (overwriteAround buf (cell buf.length b xs.length) ys) b (xs ++ ys) := by
  have hend := cell_lt hb (by omega : xs.length ≤ buf.length)
  intro i hi
  rw [length_append] at hi
  rw [length_overwriteAround hend.le (by omega)]
  by_cases hx : i < xs.length
  · -- seen from the first cell written, the stored list comes last
    have hpos : cell buf.length b i =
        cell buf.length (cell buf.length b xs.length) (buf.length - xs.length + i) := by
      unfold cell
      split <;> split <;> split <;> omega
    rw [hpos, getElem?_overwriteAround hend (by omega) (by omega), if_neg (by omega), ← hpos,
      h i hx, getElem?_append_left hx]
  · have hpos : cell buf.length b i =
        cell buf.length (cell buf.length b xs.length) (i - xs.length) := by
      rw [cell_cell hb (by omega)]
      congr 1
      omega
    rw [hpos, getElem?_overwriteAround hend (by omega) (by omega), if_pos (by omega),
      getElem?_append_right (by omega)]

theorem holds_slice (buf : List α) (h : b + n ≤ buf.length) :
    Holds buf b ((buf.drop b).take n) := by
  intro i hi
  rw [length_take, length_drop] at hi
  rw [cell, if_pos (by omega), getElem?_take_of_lt (by omega), getElem?_drop]

def readAround (buf : List α) (b n : ℕ) : List α :=
  (buf.drop b).take n ++ buf.take (n - (buf.length - b))

theorem readAround_of_le (h : b + n ≤ buf.length) : readAround buf b n = (buf.drop b).take n := by
  rw [readAround, Nat.sub_eq_zero_of_le (by omega), take_zero, append_nil]

/-- Reading around the end gives the first of the contents. -/
theorem Holds.readAround (h : Holds buf b xs) (hb : b < buf.length) (hlen : xs.length ≤ buf.length)
    (hn : n ≤ xs.length) : readAround buf b n = xs.take n := by
  have hf : ((buf.drop b).take n).length = min n (buf.length - b) := by
    rw [length_take, length_drop]
  apply ext_getElem?
  intro i
  by_cases hi : i < n
  · rw [getElem?_take_of_lt hi, ← h i (by omega), RingBuffer.readAround]
    unfold cell
    by_cases hw : b + i < buf.length
    · rw [if_pos hw, getElem?_append_left (by omega), getElem?_take_of_lt hi, getElem?_drop]
    · rw [if_neg hw, getElem?_append_right (by omega), hf, getElem?_take_of_lt (by omega)]
      congr 1
      omega
  · rw [getElem?_eq_none, getElem?_eq_none]
    · rw [length_take]
      omega
    · rw [RingBuffer.readAround, length_append, hf, length_take]
      omega

end Copies

end RingBuffer
