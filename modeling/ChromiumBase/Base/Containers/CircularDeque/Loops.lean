import ChromiumBase.Base.Containers.CircularDeque.Representation
import Mathlib.Data.List.Induction

/-!
# The loops that shift and fill

Each loop walks along the ring from `begin_`, so its invariant is stated with
offsets from there: which lists are held at which offsets. The lemmas go by
induction on the list that the loop has yet to move or to write.
-/

open Outcome RingBuffer List

namespace ChromiumBase.CircularDeque

variable {α : Type} {d : CircularDeque α} {xs ys zs : List α}

def HoldsFrom (d : CircularDeque α) (k : ℕ) (xs : List α) : Prop :=
  Holds d.buffer (cell d.buffer.length d.beginIdx k) (xs.map some)

/-- Everything but the contents of the slots and `end_` is as before. -/
def SameRing (d d' : CircularDeque α) : Prop :=
  d'.buffer.length = d.buffer.length ∧ d'.beginIdx = d.beginIdx ∧ d'.endIdx = d.endIdx

theorem SameRing.trans {d₁ d₂ d₃ : CircularDeque α} (h : SameRing d₁ d₂)
    (h' : SameRing d₂ d₃) : SameRing d₁ d₃ :=
  ⟨h'.1.trans h.1, h'.2.1.trans h.2.1, h'.2.2.trans h.2.2⟩

theorem Placed.holdsFrom (h : Placed d (xs ++ ys)) :
    HoldsFrom d 0 xs ∧ HoldsFrom d xs.length ys := by
  have hlen := h.length_lt
  have hh := h.holds
  rw [length_append] at hlen
  rw [map_append] at hh
  refine ⟨?_, ?_⟩
  · rw [HoldsFrom, cell_zero h.begin_lt]
    exact hh.left
  · have hr := hh.right h.begin_lt (by simp; omega)
    rwa [length_map] at hr

theorem holdsFrom_nil (d : CircularDeque α) (k : ℕ) : HoldsFrom d k [] := holds_nil _ _

theorem HoldsFrom.append {k : ℕ} (h : HoldsFrom d k xs) (h' : HoldsFrom d (k + xs.length) ys)
    (hb : d.beginIdx < d.buffer.length) (hlen : k + xs.length + ys.length ≤ d.buffer.length) :
    HoldsFrom d k (xs ++ ys) := by
  unfold HoldsFrom at *
  rw [map_append]
  refine Holds.append h (cell_lt hb (by omega)) (by simp; omega) ?_
  rwa [length_map, cell_cell hb (by omega)]

theorem HoldsFrom.placed (h : HoldsFrom d 0 xs) (hb : d.beginIdx < d.buffer.length)
    (hlen : xs.length < d.buffer.length)
    (hend : d.endIdx = cell d.buffer.length d.beginIdx xs.length) (hbo : d.buffer.length < 2 ^ 63) :
    Placed d xs := by
  rw [HoldsFrom, cell_zero hb] at h
  exact ⟨hb, hlen, hend, h, hbo⟩

def write (d : CircularDeque α) (j : ℕ) (v : α) : CircularDeque α :=
  { d with buffer := d.buffer.set (cell d.buffer.length d.beginIdx j) (some v) }

theorem sameRing_write (j : ℕ) (v : α) : SameRing d (d.write j v) :=
  ⟨length_set, rfl, rfl⟩

@[simp] theorem length_write (j : ℕ) (v : α) :
    (d.write j v).buffer.length = d.buffer.length := length_set

@[simp] theorem beginIdx_write (j : ℕ) (v : α) : (d.write j v).beginIdx = d.beginIdx := rfl

@[simp] theorem endIdx_write (j : ℕ) (v : α) : (d.write j v).endIdx = d.endIdx := rfl

@[simp] theorem increment_write (j : ℕ) (v : α) (i : ℕ) :
    (d.write j v).increment i = d.increment i := by simp [increment]

@[simp] theorem decrement_write (j : ℕ) (v : α) (i : ℕ) :
    (d.write j v).decrement i = d.decrement i := by simp [decrement]

theorem construct_cell {j : ℕ} {v : α} (hb : d.beginIdx < d.buffer.length)
    (hj : j < d.buffer.length) :
    d.construct (cell d.buffer.length d.beginIdx j) v = .ok (d.write j v) :=
  if_pos (cell_lt hb hj.le)

@[simp] theorem constructFrom_object (i : ℕ) (v : α) :
    d.constructFrom i (.object v) = d.construct i v := rfl

section Writing

variable {k j : ℕ} {v : α} (hb : d.beginIdx < d.buffer.length)

include hb

theorem HoldsFrom.write_outside (h : HoldsFrom d k xs)
    (hlen : k + xs.length ≤ d.buffer.length) (hj : j < d.buffer.length)
    (hout : j < k ∨ k + xs.length ≤ j) : HoldsFrom (d.write j v) k xs := by
  have hset := Holds.set_outside h hb (by simpa using hlen) hj (by simpa using hout) (some v)
  simpa [HoldsFrom, write] using hset

theorem HoldsFrom.write_concat (h : HoldsFrom d 0 xs) (hlen : xs.length < d.buffer.length) :
    HoldsFrom (d.write xs.length v) 0 (xs ++ [v]) := by
  have hset := Holds.concat h (cell_lt hb (by omega)) (by simp; omega) (some v)
  rw [length_map, cell_cell hb (by omega), Nat.zero_add] at hset
  simpa [HoldsFrom, write] using hset

theorem HoldsFrom.write_cons (h : HoldsFrom d (k + 1) xs)
    (hlen : k + 1 + xs.length ≤ d.buffer.length) : HoldsFrom (d.write k v) k (v :: xs) := by
  rw [HoldsFrom, ← cell_cell hb (by omega)] at h
  have hset := Holds.cons (cell_lt hb (by omega)) h (by simp; omega) (some v)
  simpa [HoldsFrom, write] using hset

theorem moveSlot_cell {i : ℕ} (hi : HoldsFrom d i [v]) (hilt : i < d.buffer.length)
    (hj : j < d.buffer.length) (hne : j ≠ i) :
    d.moveSlot (cell d.buffer.length d.beginIdx i) (cell d.buffer.length d.beginIdx j) =
      .ok (d.write j v) := by
  have hr := hi 0 (by simp)
  rw [cell_zero (cell_lt hb hilt.le)] at hr
  have hc : cell d.buffer.length d.beginIdx j < d.buffer.length ∧
      cell d.buffer.length d.beginIdx j ≠ cell d.buffer.length d.beginIdx i :=
    ⟨cell_lt hb hj.le, by rwa [Ne, cell_inj hj hilt]⟩
  simp only [moveSlot, hr]
  exact if_pos hc

end Writing

/-- The elements of `ys` move `k` slots to the right, the last one first. -/
theorem makeRoomLoop_returns {k p n : ℕ} (hb : d.beginIdx < d.buffer.length) (hk : 0 < k)
    (hp : p = xs.length) (hlen : p + k + ys.length + zs.length < d.buffer.length)
    (hxs : HoldsFrom d 0 xs) (hys : HoldsFrom d p ys) (hzs : HoldsFrom d (p + k + ys.length) zs)
    (hf : ys.length < n) :
    ReturnsUnless OutOfMemory (makeRoomLoop (cell d.buffer.length d.beginIdx p) n
        (cell d.buffer.length d.beginIdx (p + ys.length))
        (cell d.buffer.length d.beginIdx (p + k + ys.length)) d) fun d' =>
      SameRing d d' ∧ HoldsFrom d' 0 xs ∧ HoldsFrom d' (p + k) (ys ++ zs) := by
  induction ys using List.reverseRecOn generalizing d zs n with
  | nil =>
    obtain _ | n := n
    · omega
    rw [makeRoomLoop, length_nil, Nat.add_zero, if_pos rfl]
    exact ⟨⟨rfl, rfl, rfl⟩, hxs, hzs⟩
  | append_singleton ys y ih =>
    obtain _ | n := n
    · omega
    simp only [length_append, length_singleton, ← Nat.add_assoc] at *
    have hne : cell d.buffer.length d.beginIdx (p + ys.length + 1) ≠
        cell d.buffer.length d.beginIdx p := by
      rw [Ne, cell_inj (by omega) (by omega)]
      omega
    have hys' : HoldsFrom d p ys := Holds.left (by rwa [HoldsFrom, map_append] at hys)
    have hy : HoldsFrom d (p + ys.length) [y] := by
      rw [HoldsFrom, map_append] at hys
      have hri := hys.right (cell_lt hb (by omega)) (by simp; omega)
      rwa [length_map, cell_cell hb (by omega)] at hri
    have hm := moveSlot_cell (j := p + k + ys.length) hb hy (by omega) (by omega)
      (by omega)
    have hr := ih (d := d.write (p + k + ys.length) y) (n := n)
      (by simpa using hb) (by simp; omega)
      (hxs.write_outside hb (by omega) (by omega) (by omega))
      (hys'.write_outside hb (by omega) (by omega) (by omega))
      (hzs.write_cons hb (by omega)) (by omega)
    rw [makeRoomLoop, if_neg hne, decrement_cell hb (by omega), decrement_cell hb (by omega),
      hm, returnsUnless_ok_bind, decrement_write, decrement_write, decrement_cell hb (by omega),
      decrement_cell hb (by omega)]
    simp only [length_write] at hr
    refine hr.mono ?_
    rintro d' ⟨hrin, hxs', hzs'⟩
    exact ⟨(sameRing_write _ _).trans hrin, hxs', by simpa using hzs'⟩

/-- The objects `ys` are constructed one after the other, up to `zs`. -/
theorem fillLoop_returns {next : ℕ → Option (Ref α)} {m n : ℕ} (hb : d.beginIdx < d.buffer.length)
    (hlen : xs.length + ys.length + zs.length < d.buffer.length)
    (hn : ∀ i, i < ys.length → next (m + i) = (ys[i]?).map .object) (hxs : HoldsFrom d 0 xs)
    (hzs : HoldsFrom d (xs.length + ys.length) zs) (hf : ys.length < n) :
    ReturnsUnless OutOfMemory
      (fillLoop (cell d.buffer.length d.beginIdx (xs.length + ys.length)) next n m
        (cell d.buffer.length d.beginIdx xs.length) d) fun d' =>
      SameRing d d' ∧ HoldsFrom d' 0 (xs ++ ys ++ zs) := by
  induction ys generalizing d xs m n with
  | nil =>
    obtain _ | n := n
    · omega
    simp only [length_nil, Nat.add_zero, append_nil] at *
    rw [fillLoop, if_neg (Nat.lt_irrefl _)]
    exact ⟨⟨rfl, rfl, rfl⟩, hxs.append (by rwa [Nat.zero_add]) hb (by omega)⟩
  | cons y ys ih =>
    obtain _ | n := n
    · omega
    simp only [length_cons] at *
    have hfi : next m = some (.object y) := hn 0 (by omega)
    have hr := ih (d := d.write xs.length y) (m := m + 1) (n := n)
      (by simpa using hb) (by simp; omega)
      (fun i hi => by
        have := hn (i + 1) (by omega)
        rwa [getElem?_cons_succ, Nat.add_comm i, ← Nat.add_assoc] at this)
      (hxs.write_concat hb (by omega)) (by
        have := hzs.write_outside (j := xs.length) (v := y) hb (by omega) (by omega) (by omega)
        simpa [Nat.add_assoc, Nat.add_comm 1] using this) (by omega)
    rw [fillLoop, if_pos (offsetFromBegin_lt hb (by omega) (by omega)), hfi]
    simp only [constructFrom_object, construct_cell hb (by omega : xs.length < d.buffer.length),
      returnsUnless_ok_bind, increment_write,
      increment_cell hb (by omega : xs.length < d.buffer.length)]
    simp only [length_write, length_append, length_singleton, Nat.add_assoc, Nat.add_comm 1] at hr
    refine hr.mono ?_
    rintro d' ⟨hri, hd'⟩
    exact ⟨(sameRing_write _ _).trans hri, by simpa using hd'⟩

/-- The elements of `ys` move to the left, up against `xs`. -/
theorem eraseLoop_returns {q n : ℕ} (hb : d.beginIdx < d.buffer.length) (hq : xs.length < q)
    (hlen : q + ys.length < d.buffer.length) (hxs : HoldsFrom d 0 xs) (hys : HoldsFrom d q ys)
    (hf : ys.length < n) :
    ReturnsUnless OutOfMemory (eraseLoop (cell d.buffer.length d.beginIdx (q + ys.length)) n
        (cell d.buffer.length d.beginIdx q) (cell d.buffer.length d.beginIdx xs.length) d)
      fun r => SameRing d r.2 ∧ HoldsFrom r.2 0 (xs ++ ys) ∧
        r.1 = cell d.buffer.length d.beginIdx (xs.length + ys.length) := by
  induction ys generalizing d xs q n with
  | nil =>
    obtain _ | n := n
    · omega
    rw [eraseLoop, length_nil, Nat.add_zero, if_neg (Nat.lt_irrefl _)]
    exact ⟨⟨rfl, rfl, rfl⟩, by simpa using hxs, by simp⟩
  | cons y ys ih =>
    obtain _ | n := n
    · omega
    simp only [length_cons] at *
    have hy : HoldsFrom d q [y] := Holds.take hys 1
    have hys' : HoldsFrom d (q + 1) ys := by
      have hri := Holds.drop hys (k := 1) (cell_lt hb (by omega)) (by simp) (by simp; omega)
      rwa [cell_cell hb (by omega)] at hri
    have hm := moveSlot_cell (j := xs.length) hb hy (by omega) (by omega) (by omega)
    have hr := ih (d := d.write xs.length y) (q := q + 1) (n := n)
      (by simpa using hb) (by simpa using hq) (by simp; omega)
      (hxs.write_concat hb (by omega)) (hys'.write_outside hb (by omega) (by omega) (by omega))
      (by omega)
    rw [eraseLoop, if_pos (offsetFromBegin_lt hb (by omega) (by omega)), hm,
      returnsUnless_ok_bind, increment_write, increment_write, increment_cell hb (by omega),
      increment_cell hb (by omega)]
    simp only [length_write, length_append, length_singleton, Nat.add_assoc, Nat.add_comm 1] at hr
    refine hr.mono ?_
    rintro ⟨dest, d'⟩ ⟨hrin, hd', hd⟩
    exact ⟨(sameRing_write _ _).trans hrin, by simpa using hd', hd⟩

end ChromiumBase.CircularDeque
