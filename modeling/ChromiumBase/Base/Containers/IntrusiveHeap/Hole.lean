import ChromiumBase.Base.Containers.IntrusiveHeap.Basic

/-!
# The travelling hole

While an element is being put into the heap, the heap has a hole. `Hole n pos e s`
says what holds then: below `n` every slot but the hole is in use, and the
handles are right for exactly these slots. `view` is the heap with `e` in the
hole, as a function on indices. Moving the hole exchanges two values of the
view, so the order and the elements are followed there, with the lemmas of
`HeapOrder`.
-/

open Function List

namespace ChromiumBase.IntrusiveHeap

variable {ι α : Type*}

def Lt (less : α → α → Bool) : Element ι α → Element ι α → Prop :=
  onFun (fun a b => less a b = true) Element.value

instance (less : α → α → Bool) [IsStrictWeakOrder α fun a b => less a b = true] :
    IsStrictWeakOrder (Element ι α) (Lt less) :=
  inferInstanceAs (IsStrictWeakOrder (Element ι α)
    (onFun (fun a b => less a b = true) Element.value))

/-- The heap with the element `e` in the hole. -/
def view (pos : ℕ) (e : Element ι α) (s : IntrusiveHeap ι α) (i : ℕ) : Element ι α :=
  if i = pos then e else s.heap.getD i e

def bag (n : ℕ) (f : ℕ → Element ι α) : Multiset (Element ι α) := (Multiset.range n).map f

/-- A heap of `n` elements, one of which is to go into the hole at `pos`. -/
structure Hole (n pos : ℕ) (e : Element ι α) (s : IntrusiveHeap ι α) : Prop where
  lt : pos < n
  le : pos ≤ s.heap.length
  slots : ∀ i, i < n → i ≠ pos → i < s.heap.length
  handles : ∀ id i, s.handles id = some i ↔
    i < n ∧ i ≠ pos ∧ ∃ x, s.heap[i]? = some x ∧ x.id = id
  fresh : s.handles e.id = none

theorem getElem?_place {pos : ℕ} (e : Element ι α) {heap : List (Element ι α)}
    (h : pos ≤ heap.length) (i : ℕ) :
    (place pos e heap)[i]? = if i = pos then some e else heap[i]? := by
  unfold place
  split
  · subst pos
    by_cases hi : i = heap.length
    · simp [hi]
    · rw [if_neg hi]
      rcases Nat.lt_or_gt_of_ne hi with hi | hi
      · rw [getElem?_append_left hi]
      · rw [getElem?_eq_none (by simp; omega), getElem?_eq_none (by omega)]
  · rw [getElem?_set]
    by_cases hi : i = pos
    · subst hi
      simp [show i < heap.length by omega]
    · rw [if_neg (Ne.symm hi), if_neg hi]

theorem length_place (pos : ℕ) (e : Element ι α) (heap : List (Element ι α)) :
    (place pos e heap).length = if pos = heap.length then pos + 1 else heap.length := by
  unfold place
  split
  · simp [*]
  · simp

section Moves

variable {n pos : ℕ} {e : Element ι α} {s : IntrusiveHeap ι α}

theorem Hole.getElem? (h : Hole n pos e s) {i : ℕ} (hi : i < n) (hne : i ≠ pos) :
    s.heap[i]? = some (view pos e s i) := by
  have hlen := h.slots i hi hne
  rw [view, if_neg hne, getD_eq_getElem?_getD, getElem?_eq_getElem hlen]
  rfl

theorem Hole.length_bounds (h : Hole n pos e s) :
    n ≤ s.heap.length + 1 ∧ (s.heap.length < n → s.heap.length = pos) := by
  have hle := h.le
  constructor
  · by_contra hn
    have := h.slots (s.heap.length + 1) (by omega) (by omega)
    omega
  · intro hs
    by_contra hp
    exact absurd (h.slots _ hs hp) (lt_irrefl _)

variable [DecidableEq ι]

theorem setHeapHandle_place (h : pos ≤ s.heap.length) (x : Element ι α) :
    setHeapHandle pos { s with heap := place pos x s.heap } =
      ⟨place pos x s.heap, Function.update s.handles x.id (some pos)⟩ := by
  have hget := getElem?_place x h pos
  rw [if_pos rfl] at hget
  simp only [setHeapHandle, hget]

variable (h : Hole n pos e s) {i : ℕ} (hi : i < n) (hne : i ≠ pos)

include h hi hne

theorem Hole.moveHole_eq : moveHole i pos s = ⟨place pos (view pos e s i) s.heap,
      Function.update s.handles (view pos e s i).id (some pos)⟩ := by
  rw [moveHole, h.getElem? hi hne]
  exact setHeapHandle_place h.le _

theorem Hole.view_moveHole : view i e (moveHole i pos s) = view pos e s ∘ Equiv.swap pos i := by
  funext k
  rw [h.moveHole_eq hi hne]
  have hget := getElem?_place (view pos e s i) h.le k
  by_cases hki : k = i
  · subst hki
    simp [view]
  · rw [comp_apply, view, if_neg hki, getD_eq_getElem?_getD, hget]
    by_cases hkp : k = pos
    · rw [if_pos hkp, hkp, Equiv.swap_apply_left]
      rfl
    · rw [if_neg hkp, Equiv.swap_apply_of_ne_of_ne hkp hki, view, if_neg hkp, getD_eq_getElem?_getD]

/-- The element of another slot goes into the hole, and leaves the hole there. -/
theorem Hole.moveHole : Hole n i e (moveHole i pos s) := by
  have hx := h.getElem? hi hne
  have hh : s.handles (view pos e s i).id = some i :=
    (h.handles _ _).mpr ⟨hi, hne, _, hx, rfl⟩
  have hget := getElem?_place (view pos e s i) h.le
  have hlen := length_place pos (view pos e s i) s.heap
  have hi' := h.slots i hi hne
  rw [h.moveHole_eq hi hne]
  refine ⟨hi, ?_, ?_, ?_, ?_⟩
  · simp only [hlen]
    split <;> omega
  · intro k hk hki
    simp only [hlen]
    by_cases hkp : k = pos
    · have := h.le
      split <;> omega
    · have := h.slots k hk hkp
      split <;> omega
  · intro id k
    by_cases hid : id = (view pos e s i).id
    · subst hid
      simp only [update_self, hget]
      constructor
      · rintro ⟨⟩
        exact ⟨h.lt, hne.symm, _, if_pos rfl, rfl⟩
      · rintro ⟨hk, hki, x, hx', hxid⟩
        by_cases hkp : k = pos
        · rw [hkp]
        · rw [if_neg hkp] at hx'
          have hk' := (h.handles _ _).mpr ⟨hk, hkp, x, hx', hxid⟩
          rw [hh] at hk'
          exact absurd (Option.some.inj hk').symm hki
    · simp only [update_of_ne hid, hget, h.handles]
      constructor
      · rintro ⟨hk, hkp, x, hx', hxid⟩
        refine ⟨hk, ?_, x, by rwa [if_neg hkp], hxid⟩
        rintro rfl
        rw [hx] at hx'
        cases hx'
        exact hid hxid.symm
      · rintro ⟨hk, hki, x, hx', hxid⟩
        by_cases hkp : k = pos
        · rw [if_pos hkp] at hx'
          cases hx'
          exact absurd hxid.symm hid
        · rw [if_neg hkp] at hx'
          exact ⟨hk, hkp, x, hx', hxid⟩
  · have hf : e.id ≠ (view pos e s i).id := by
      intro hid
      rw [← hid, h.fresh] at hh
      cases hh
    simp only [update_of_ne hf, h.fresh]

theorem Hole.length_moveHole :
    max (IntrusiveHeap.moveHole i pos s).heap.length n = max s.heap.length n := by
  have hlen := length_place pos (view pos e s i) s.heap
  have hlt := h.lt
  rw [h.moveHole_eq hi hne]
  simp only [hlen]
  split <;> omega

end Moves

def HandlesExact (n : ℕ) (s : IntrusiveHeap ι α) : Prop :=
  ∀ id i, s.handles id = some i ↔ i < n ∧ ∃ x, s.heap[i]? = some x ∧ x.id = id

/-- Once the hole is filled every handle is exact again. -/
theorem Hole.fillHole [DecidableEq ι] {n pos : ℕ} {e : Element ι α}
    {s : IntrusiveHeap ι α} (h : Hole n pos e s) : HandlesExact n (fillHole pos e s) ∧
      (fillHole pos e s).heap.length = max s.heap.length n ∧
      (∀ i, i < n → (fillHole pos e s).heap[i]? = some (view pos e s i)) := by
  have hget := getElem?_place e h.le
  have hlen := length_place pos e s.heap
  have hlt := h.lt
  have hb := h.length_bounds
  rw [IntrusiveHeap.fillHole, setHeapHandle_place h.le]
  refine ⟨?_, ?_, ?_⟩
  · intro id i
    simp only [hget]
    by_cases hid : id = e.id
    · subst hid
      simp only [update_self]
      constructor
      · rintro ⟨⟩
        exact ⟨hlt, e, if_pos rfl, rfl⟩
      · rintro ⟨hi, x, hx, hxid⟩
        by_cases hip : i = pos
        · rw [hip]
        · rw [if_neg hip] at hx
          have hi' := (h.handles _ _).mpr ⟨hi, hip, x, hx, hxid⟩
          rw [h.fresh] at hi'
          cases hi'
    · simp only [update_of_ne hid, h.handles]
      constructor
      · rintro ⟨hi, hip, x, hx, hxid⟩
        exact ⟨hi, x, by rwa [if_neg hip], hxid⟩
      · rintro ⟨hi, x, hx, hxid⟩
        by_cases hip : i = pos
        · rw [if_pos hip] at hx
          cases hx
          exact absurd hxid.symm hid
        · rw [if_neg hip] at hx
          exact ⟨hi, hip, x, hx, hxid⟩
  · have hle := h.le
    simp only [hlen]
    split_ifs <;> omega
  · intro i hi
    simp only [hget]
    by_cases hip : i = pos
    · rw [if_pos hip, view, if_pos hip]
    · rw [if_neg hip, h.getElem? hi hip]

end ChromiumBase.IntrusiveHeap
