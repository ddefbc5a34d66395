import ChromiumBase.Base.Containers.CircularDeque.Loops

/-!
# The operations on the list

One lemma for each operation: applied to a deque that keeps a list, it returns a
deque that keeps the list that the operation is meant to make of it. A caller's
count must not make a `size_t` overflow; positions lie in the deque, and only a
non-empty deque is popped; and arguments are objects outside the deque.
-/

open Outcome RingBuffer List

namespace ChromiumBase.CircularDeque

variable {α : Type} {d : CircularDeque α} {xs : List α} {elemSize : ℕ+} {x : α}

theorem cell_one_pred {c b : ℕ} (hb : b < c) : cell c (if b = 0 then c - 1 else b - 1) 1 = b := by
  unfold cell
  split <;> split <;> omega

/-- Growing first and decrementing `begin_` puts one element in front. -/
theorem Represents.emplaceFront (h : Represents d xs) (v : α) :
    ReturnsUnless OutOfMemory (d.emplaceFront elemSize (.object v)) fun d' =>
      Represents d' (v :: xs) := by
  have hle := h.length_le_capacity
  have hcap := h.capacity_eq
  have hbuf := h.buffer_lt
  refine (h.expandCapacityIfNecessary (k := 1) (by omega)).bind ?_
  rintro d' ⟨hd', hr⟩
  have hp := hd'.placed (by omega)
  have hb := hp.begin_lt
  rw [hp.capacity_eq] at hr
  have hpr : (if d'.beginIdx = 0 then d'.buffer.length - 1 else d'.beginIdx - 1) <
      d'.buffer.length := by
    split <;> omega
  have hone := cell_one_pred hb
  rw [constructFrom_object, construct, if_pos hpr]
  have hh := hp.holds
  rw [← hone] at hh
  refine .inl ⟨by simpa using hpr, by simp; omega, ?_, ?_, by simpa using hp.bounded⟩
  · rw [length_cons, length_set, Nat.add_comm, ← cell_cell hpr (by omega), hone]
    exact hp.end_eq
  · exact hh.cons hpr (by simp; omega) (some v)

theorem Represents.emplaceBack (h : Represents d xs) (v : α) :
    ReturnsUnless OutOfMemory (d.emplaceBack elemSize (.object v)) fun d' =>
      Represents d' (xs ++ [v]) := by
  have hle := h.length_le_capacity
  have hcap := h.capacity_eq
  have hbuf := h.buffer_lt
  refine (h.expandCapacityIfNecessary (k := 1) (by omega)).bind ?_
  rintro d' ⟨hd', hr⟩
  have hp := hd'.placed (by omega)
  have hb := hp.begin_lt
  rw [hp.capacity_eq] at hr
  rw [hp.end_eq, constructFrom_object, construct_cell hb hp.length_lt, returnsUnless_ok_bind]
  refine .inl ⟨by simpa using hb, by simp; omega, ?_, ?_, by simpa using hp.bounded⟩
  · have hinc := increment_cell hb hp.length_lt
    rw [increment, ← hp.end_eq] at hinc
    simp only [length_write, beginIdx_write, endIdx_write, length_append, length_singleton]
    rw [← hinc]
    split <;> split <;> omega
  · have hc := hp.holds.concat hb (by simpa using hp.length_lt) (some v)
    simpa [write] using hc

/-- The buffer may shrink after the element is gone. -/
theorem Represents.popFront (h : Represents d (x :: xs)) :
    ReturnsUnless OutOfMemory (d.popFront elemSize) fun d' => Represents d' xs := by
  have hp := h.placed_of_lt (i := 0) (by simp)
  have hb := hp.begin_lt
  have hlen := hp.length_lt
  have hn : (if d.beginIdx + 1 = d.buffer.length then 0 else d.beginIdx + 1) =
      cell d.buffer.length d.beginIdx 1 := by
    unfold cell
    split <;> split <;> omega
  rw [length_cons] at hlen
  unfold CircularDeque.popFront
  rw [hn]
  refine Represents.shrinkCapacityIfNecessary (.inl ⟨?_, ?_, ?_, ?_, hp.bounded⟩) <;> dsimp only
  · exact cell_lt hb (by omega)
  · omega
  · rw [cell_cell hb (by omega), Nat.add_comm, ← length_cons, hp.end_eq]
  · exact hp.holds.drop hb (by simp) (by simp; omega)

theorem Represents.popBack (h : Represents d (xs ++ [x])) :
    ReturnsUnless OutOfMemory (d.popBack elemSize) fun d' => Represents d' xs := by
  have hp := h.placed_of_lt (i := 0) (by simp)
  have hb := hp.begin_lt
  have hlen := hp.length_lt
  rw [length_append, length_singleton] at hlen
  have hpr := decrement_cell hb (by omega : xs.length < d.buffer.length)
  have hend := hp.end_eq
  rw [length_append, length_singleton] at hend
  rw [← hend, decrement] at hpr
  unfold CircularDeque.popBack
  rw [hpr]
  refine Represents.shrinkCapacityIfNecessary (.inl ⟨hb, ?_, rfl, ?_, hp.bounded⟩) <;> dsimp only
  · omega
  · have hh := hp.holds
    rw [map_append] at hh
    exact hh.left

theorem Represents.repeatM_emplaceBack (h : Represents d xs) (v : α) (n : ℕ) :
    ReturnsUnless OutOfMemory (repeatM (CircularDeque.emplaceBack elemSize (.object v)) n d)
      fun d' => Represents d' (xs ++ List.replicate n v) := by
  induction n generalizing d xs with
  | zero => simpa [repeatM] using h
  | succ n ih =>
    refine (h.emplaceBack v).bind fun d' hd' => ?_
    simpa [replicate_succ] using ih hd'

theorem Represents.repeatM_emplaceFront (h : Represents d xs) (v : α) (n : ℕ) :
    ReturnsUnless OutOfMemory (repeatM (CircularDeque.emplaceFront elemSize (.object v)) n d)
      fun d' => Represents d' (List.replicate n v ++ xs) := by
  induction n generalizing d xs with
  | zero => simpa [repeatM] using h
  | succ n ih =>
    refine (h.emplaceFront v).bind fun d' hd' => ?_
    have hr := ih hd'
    rwa [append_cons, ← replicate_succ'] at hr

theorem Represents.foldlM_emplaceBack (h : Represents d xs) (items : List α) :
    ReturnsUnless OutOfMemory
      (items.foldlM (fun d v => CircularDeque.emplaceBack elemSize (.object v) d) d) fun d' =>
        Represents d' (xs ++ items) := by
  induction items generalizing d xs with
  | nil => simpa using h
  | cons v items ih =>
    refine (h.emplaceBack v).bind fun d' hd' => ?_
    simpa using ih hd'

theorem Represents.assignRange (h : Represents d xs) (items : List α) :
    ReturnsUnless OutOfMemory (d.assignRange elemSize items) fun d' => Represents d' items :=
  h.clearRetainCapacity.foldlM_emplaceBack items

variable {items ys : List α} {count pos k : ℕ}

theorem mapM_id_map_some (xs : List α) : (xs.map some).mapM id = some xs := by
  induction xs with
  | nil => rfl
  | cons x xs ih => simp [ih]

theorem Represents.copyAssign {other : CircularDeque α} (h : Represents d xs)
    (ho : Represents other ys) :
    ReturnsUnless OutOfMemory (CircularDeque.copyAssign elemSize other d) fun d' =>
      Represents d' ys := by
  have hle := ho.length_le_capacity
  have hcap := ho.capacity_eq
  have hbuf := ho.buffer_lt
  unfold CircularDeque.copyAssign
  rw [ho.size_eq, ho.toList_eq, mapM_id_map_some]
  exact (h.reserve (by omega)).bind fun _ hd' => hd'.assignRange ys

theorem Represents.resizeLoop (h : Represents d xs) {fuel : ℕ} (v : α) (hle : xs.length ≤ count)
    (hf : count - xs.length < fuel) :
    ReturnsUnless OutOfMemory (CircularDeque.resizeLoop elemSize count (.object v) fuel d) fun d' =>
      Represents d' (xs ++ List.replicate (count - xs.length) v) := by
  induction fuel generalizing d xs with
  | zero => exact absurd hf (Nat.not_lt_zero _)
  | succ fuel ih =>
    rw [CircularDeque.resizeLoop, h.size_eq]
    split
    · refine (h.emplaceBack v).bind fun d' hd' => ?_
      have hr := ih hd' (by simp; omega) (by simp; omega)
      have hc : count - xs.length = count - (xs ++ [v]).length + 1 := by
        simp
        omega
      rw [hc, replicate_succ, append_cons]
      exact hr
    · have hc : count - xs.length = 0 := by omega
      simpa [hc] using h

/-- `resize` cuts the list or appends copies of the value. -/
theorem Represents.resize (h : Represents d xs) (v : α) (hmax : count + 1 < 2 ^ 64) :
    ReturnsUnless OutOfMemory (d.resize elemSize count (.object v)) fun d' =>
      Represents d' (xs.take count ++ List.replicate (count - xs.length) v) := by
  unfold CircularDeque.resize
  rw [h.size_eq]
  split
  · refine (h.expandCapacityIfNecessary (by omega)).bind fun d' hd' => ?_
    rw [take_of_length_le (by omega)]
    exact hd'.1.resizeLoop v (by omega) (by omega)
  · split
    · rename_i hlt
      have hp := h.placed_of_lt hlt
      have hb := hp.begin_lt
      have hlen := hp.length_lt
      have hbuf := hp.bounded
      have hsum : sum d.beginIdx count = d.beginIdx + count := Nat.mod_eq_of_lt (by omega)
      rw [if_neg (by omega), hsum, add_mod_eq_cell hb (by omega)]
      have hc : count - xs.length = 0 := by omega
      rw [hc, replicate_zero, append_nil]
      refine Represents.shrinkCapacityIfNecessary (.inl ⟨hb, ?_, ?_, ?_, hbuf⟩) <;> dsimp only
      · rw [length_take]
        omega
      · rw [length_take, Nat.min_eq_left (by omega)]
      · rw [map_take]
        exact hp.holds.take count
    · have hc : count = xs.length := by omega
      simpa [hc] using h

/-- A deque with room for `k` elements between `xs` and `ys`. -/
structure Gap (d : CircularDeque α) (xs : List α) (k : ℕ) (ys : List α) : Prop where
  begin_lt : d.beginIdx < d.buffer.length
  length_lt : xs.length + k + ys.length < d.buffer.length
  end_eq : d.endIdx = cell d.buffer.length d.beginIdx (xs.length + k + ys.length)
  front : HoldsFrom d 0 xs
  back : HoldsFrom d (xs.length + k) ys
  bounded : d.buffer.length < 2 ^ 63

/-- `MakeRoomFor` leaves `k` free slots at the position, however it has to move the elements. -/
theorem Represents.makeRoomFor (elemSize : ℕ+) (h : Represents d (xs ++ ys)) (hxs : 0 < xs.length)
    (hmax : (xs ++ ys).length + k + 1 < 2 ^ 64) :
    ReturnsUnless OutOfMemory (d.makeRoomFor elemSize k (d.iteratorAt xs.length)) fun r =>
      Gap r.2.2 xs k ys ∧
      r.1 = cell r.2.2.buffer.length r.2.2.beginIdx xs.length ∧
      r.2.1 = cell r.2.2.buffer.length r.2.2.beginIdx (xs.length + k) := by
  have hp := h.placed_of_lt (i := 0) (by simp; omega)
  have hlen := hp.length_lt
  rw [length_append] at hlen hmax
  rw [hp.iteratorAt_eq (by simp)]
  unfold CircularDeque.makeRoomFor
  split
  · subst k
    obtain ⟨hf, hba⟩ := hp.holdsFrom
    refine ⟨⟨hp.begin_lt, hlen, ?_, hf, hba, hp.bounded⟩, rfl, rfl⟩
    rw [hp.end_eq, length_append, Nat.add_zero]
  · rename_i hk
    rw [offsetFromBegin_cell hp.begin_lt (by omega)]
    refine (h.expandCapacityIfNecessary (k := k) (by simpa using hmax)).bind ?_
    rintro d' ⟨hd', hr⟩
    have hp' := hd'.placed (by omega)
    have hb := hp'.begin_lt
    have hbuf := hp'.bounded
    have hend := hp'.end_eq
    obtain ⟨hf, hba⟩ := hp'.holdsFrom
    rw [hp'.capacity_eq, length_append] at hr
    rw [length_append] at hend
    have hc {i : ℕ} (hi : i ≤ d'.buffer.length) := cell_lt hb hi
    have hpos := hc (i := xs.length) (by omega)
    have hl := hc (i := xs.length + ys.length) (by omega)
    have hsum {i : ℕ} (hi : i < d'.buffer.length) : sum i k = i + k :=
      Nat.mod_eq_of_lt (by omega)
    have hd : sum d'.endIdx k % d'.buffer.length =
        cell d'.buffer.length d'.beginIdx (xs.length + k + ys.length) := by
      rw [hend, hsum hl, add_mod_eq_cell hl (by omega), cell_cell hb (by omega), Nat.add_right_comm]
    rw [if_neg (by omega), add_mod_eq_cell hb (by omega)]
    dsimp only
    rw [hsum hpos, add_mod_eq_cell hpos (by omega), cell_cell hb (by omega), hd, hend]
    have hlo := makeRoomLoop_returns
      (d := { d' with endIdx := cell d'.buffer.length d'.beginIdx (xs.length + k + ys.length) })
      (k := k) (n := d'.buffer.length + 1) hb (by omega) rfl (by simp; omega)
      hf hba (holdsFrom_nil _ _) (by omega)
    refine hlo.bind ?_
    rintro d'' ⟨⟨hlen'', hbe'', hend''⟩, hf', hba'⟩
    rw [append_nil] at hba'
    dsimp only at hlen'' hbe'' hend''
    rw [← hlen'', ← hbe''] at hend'' ⊢
    refine ⟨⟨?_, ?_, hend'', hf', hba', ?_⟩, rfl, rfl⟩ <;> dsimp only <;> omega

theorem Represents.makeRoomAt (h : Represents d xs) (hpos : 0 < pos) (hle : pos ≤ xs.length)
    (hmax : xs.length + k + 1 < 2 ^ 64) :
    ReturnsUnless OutOfMemory (d.makeRoomFor elemSize k (d.iteratorAt pos)) fun r =>
      Gap r.2.2 (xs.take pos) k (xs.drop pos) ∧
      r.1 = cell r.2.2.buffer.length r.2.2.beginIdx pos ∧
      r.2.1 = cell r.2.2.buffer.length r.2.2.beginIdx (pos + k) := by
  have hlen : (xs.take pos).length = pos := length_take_of_le hle
  have hs : Represents d (xs.take pos ++ xs.drop pos) := by rwa [take_append_drop]
  have hr := hs.makeRoomFor elemSize (k := k) (by rwa [hlen])
    (by rwa [take_append_drop])
  rwa [hlen] at hr

/-- Constructing the objects one by one closes the gap that was made for them. -/
theorem Gap.fillLoop (h : Gap d xs items.length ys) (next : ℕ → Option (Ref α))
    (hn : ∀ i, i < items.length → next i = (items[i]?).map .object) : ReturnsUnless OutOfMemory
      (d.fillLoop (cell d.buffer.length d.beginIdx (xs.length + items.length)) next
        (d.buffer.length + 1) 0 (cell d.buffer.length d.beginIdx xs.length)) fun d' =>
      Represents d' (xs ++ items ++ ys) := by
  have hlen := h.length_lt
  have hbuf := h.bounded
  refine (fillLoop_returns (m := 0) h.begin_lt hlen (fun i hi => ?_) h.front h.back
    (by omega)).mono ?_
  · rw [Nat.zero_add, hn i hi]
  · rintro d' ⟨⟨hlen', hb', hend'⟩, hd'⟩
    refine .inl (hd'.placed ?_ ?_ ?_ ?_)
    · rw [hlen', hb']
      exact h.begin_lt
    · simpa [hlen', Nat.add_assoc] using hlen
    · rw [hend', h.end_eq, hlen', hb', length_append, length_append]
    · omega

theorem Gap.construct (h : Gap d xs 1 ys) (v : α) :
    ReturnsUnless OutOfMemory (d.construct (cell d.buffer.length d.beginIdx xs.length) v)
      fun d' => Represents d' (xs ++ [v] ++ ys) := by
  have hlen := h.length_lt
  have hb := h.begin_lt
  rw [construct_cell hb (by omega)]
  have hf := h.front.write_concat (v := v) hb (by omega)
  have hba := h.back.write_outside (v := v) (j := xs.length) hb (by omega) (by omega)
  have hall := hf.append (by simpa using hba) (by simpa using hb)
    (by simp; omega)
  refine .inl (hall.placed (by simpa using hb) (by simp; omega) ?_ (by simpa using h.bounded))
  rw [length_append, length_append, length_write, beginIdx_write, endIdx_write]
  exact h.end_eq

theorem Represents.iteratorAt_eq_begin {i : ℕ} (h : Represents d xs) (hi : i ≤ xs.length) :
    d.iteratorAt i = d.beginIdx ↔ i = 0 := by
  rw [h.iteratorAt_eq hi]
  split
  · simp [*]
  · have hp := h.placed_of_lt (i := i - 1) (by omega)
    have hb := hp.begin_lt
    have hlen := hp.length_lt
    have hinj := cell_inj (b := d.beginIdx) (i := i) (j := 0) (by omega : i < d.buffer.length)
      (by omega)
    rwa [cell_zero hb] at hinj

theorem Represents.insertCount (h : Represents d xs) (v : α) (hpos : pos ≤ xs.length)
    (hmax : xs.length + count + 1 < 2 ^ 64) :
    ReturnsUnless OutOfMemory (d.insertCount elemSize pos count (.object v)) fun d' =>
      Represents d' (xs.take pos ++ List.replicate count v ++ xs.drop pos) := by
  unfold CircularDeque.insertCount
  simp only [h.iteratorAt_eq_begin hpos]
  split
  · subst pos
    refine (h.expandCapacityIfNecessary hmax).bind fun d' hd' => ?_
    simpa using hd'.1.repeatM_emplaceFront v count
  · refine (h.makeRoomAt (by omega) hpos hmax).bind ?_
    rintro ⟨cur, insertEnd, d'⟩ ⟨hgap, hcur, hend⟩
    have hgap' : Gap d' (xs.take pos) (List.replicate count v).length (xs.drop pos) := by
      simpa using hgap
    have hf := hgap'.fillLoop (fun _ => some (.object v)) fun i hi => by
      rw [getElem?_replicate_of_lt (by simpa using hi)]
      rfl
    rw [length_take, Nat.min_eq_left hpos, length_replicate] at hf
    rwa [hcur, hend]

/-- `begin_` moves back by `k` slots, which leaves them free in front. -/
theorem Placed.gap_front {b : ℕ} (h : Placed d xs) (hb : b < d.buffer.length)
    (hk : xs.length + k < d.buffer.length) (hcell : cell d.buffer.length b k = d.beginIdx) :
    Gap { d with beginIdx := b } [] k xs := by
  refine ⟨hb, ?_, ?_, holdsFrom_nil _ _, ?_, h.bounded⟩
  · simp
    omega
  · have hend := h.end_eq
    rw [← hcell, cell_cell hb (by omega)] at hend
    simpa using hend
  · have hholds := h.holds
    rw [← hcell] at hholds
    simpa [HoldsFrom] using hholds

/-- In front, the objects are constructed in order from the new `begin_` on. -/
theorem Represents.insertRange (h : Represents d xs) (hpos : pos ≤ xs.length)
    (hmax : xs.length + items.length + 1 < 2 ^ 64) :
    ReturnsUnless OutOfMemory (d.insertRange elemSize pos items) fun d' =>
      Represents d' (xs.take pos ++ items ++ xs.drop pos) := by
  unfold CircularDeque.insertRange
  simp only [h.iteratorAt_eq_begin hpos]
  split
  · rename_i hnil
    rw [length_eq_zero_iff.mp hnil, append_nil, take_append_drop]
    exact h
  · split
    · subst pos
      refine (h.expandCapacityIfNecessary hmax).bind ?_
      rintro d' ⟨hd', hr⟩
      have hp := hd'.placed (by omega)
      have hb := hp.begin_lt
      have hbuf := hp.bounded
      rw [hp.capacity_eq] at hr
      have hbe : sum (sum d'.beginIdx d'.buffer.length) (2 ^ 64 - items.length) %
          d'.buffer.length =
          cell d'.buffer.length d'.beginIdx (d'.buffer.length - items.length) := by
        rw [← add_mod_eq_cell hb (by omega)]
        congr 1
        unfold sum
        omega
      have hb' := cell_lt hb (Nat.sub_le d'.buffer.length items.length)
      have hfi : cell d'.buffer.length
          (cell d'.buffer.length d'.beginIdx (d'.buffer.length - items.length)) items.length =
          d'.beginIdx := by
        rw [cell_cell hb (by omega), cell, if_neg (by omega)]
        omega
      rw [if_neg (by omega), hbe]
      generalize cell d'.buffer.length d'.beginIdx (d'.buffer.length - items.length) = b
        at hb' hfi
      have hgap := hp.gap_front hb' (by omega) hfi
      have hf := hgap.fillLoop (fun k => (items[k]?).map .object) fun i hi => rfl
      rw [length_nil, Nat.zero_add, hfi, cell_zero hb'] at hf
      simpa using hf
    · refine (h.makeRoomAt (by omega) hpos hmax).bind ?_
      rintro ⟨cur, insertEnd, d'⟩ ⟨hgap, hcur, hend⟩
      have hf := hgap.fillLoop (fun k => (items[k]?).map .object) fun i hi => rfl
      rw [length_take, Nat.min_eq_left hpos] at hf
      rwa [hcur, hend]

theorem Represents.emplace (h : Represents d xs) (v : α) (hpos : pos ≤ xs.length) :
    ReturnsUnless OutOfMemory (d.emplace elemSize pos (.object v)) fun d' =>
      Represents d' (xs.take pos ++ [v] ++ xs.drop pos) := by
  have hle := h.length_le_capacity
  have hcap := h.capacity_eq
  have hbuf := h.buffer_lt
  unfold CircularDeque.emplace
  simp only [h.iteratorAt_eq_begin hpos]
  split
  · subst pos
    simpa using h.emplaceFront v
  · refine (h.makeRoomAt (k := 1) (by omega) hpos (by omega)).bind ?_
    rintro ⟨cur, insertEnd, d'⟩ ⟨hgap, hcur, -⟩
    have hput := hgap.construct v
    rw [length_take_of_le hpos, ← hcur] at hput
    exact hput

/-- A front that is erased is skipped; otherwise the elements behind are moved to the left. -/
theorem Represents.erase {first last : ℕ} (h : Represents d xs) (hle : first ≤ last)
    (hl : last ≤ xs.length) : ReturnsUnless OutOfMemory (d.erase first last) fun d' =>
      Represents d' (xs.take first ++ xs.drop last) := by
  have hf : first ≤ xs.length := hle.trans hl
  unfold CircularDeque.erase
  simp only [h.iteratorAt_eq_begin hf]
  split
  · rename_i heq
    have hs : first = last := by
      by_contra hne
      have hp := h.placed_of_lt (i := first) (by omega)
      have hlen := hp.length_lt
      rw [hp.iteratorAt_eq hf, hp.iteratorAt_eq hl, cell_inj (by omega) (by omega)] at heq
      exact hne heq
    rw [hs, take_append_drop]
    exact h
  · rename_i hne
    have hlt : first < last := by
      rcases Nat.lt_or_eq_of_le hle with hlt | rfl
      · exact hlt
      · exact absurd rfl hne
    have hp := h.placed_of_lt (i := first) (by omega)
    have hb := hp.begin_lt
    have hlen := hp.length_lt
    have hend := hp.end_eq
    have hdr : xs.length = last + (xs.drop last).length := by
      rw [length_drop]
      omega
    rw [hp.iteratorAt_eq hl]
    split
    · subst first
      refine .inl ⟨cell_lt hb (by omega), ?_, ?_, ?_, hp.bounded⟩ <;> dsimp only
      · simp
        omega
      · rw [hend, take_zero, nil_append, cell_cell hb (by omega), ← hdr]
      · rw [take_zero, nil_append, map_drop]
        exact hp.holds.drop hb (by simpa using hl) (by simp; omega)
    · have ht : (xs.take first).length = first := length_take_of_le hf
      have hfr : HoldsFrom d 0 (xs.take first) := by
        rw [HoldsFrom, cell_zero hb, map_take]
        exact hp.holds.take first
      have hba : HoldsFrom d last (xs.drop last) := by
        rw [HoldsFrom, map_drop]
        exact hp.holds.drop hb (by simpa using hl) (by simp; omega)
      have hlo := eraseLoop_returns (n := d.buffer.length + 1) hb (by omega)
        (by omega) hfr hba (by omega)
      rw [ht, ← hdr, ← hend] at hlo
      rw [hp.iteratorAt_eq hf]
      refine hlo.bind ?_
      rintro ⟨dest, d'⟩ ⟨⟨hlen', hbe', -⟩, hd', hd⟩
      dsimp only at hlen' hbe' hd' hd ⊢
      refine .inl (HoldsFrom.placed hd' ?_ ?_ ?_ ?_) <;> dsimp only
      · omega
      · rw [length_append, ht]
        omega
      · rw [hd, hlen', hbe', length_append, ht]
      · rw [hlen']
        exact hp.bounded

end ChromiumBase.CircularDeque
