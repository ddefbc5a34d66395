import ChromiumBase.Base.Containers.IntrusiveHeap.Hole

/-!
# Moving the hole and filling it

The two loops that repair the heap. Each keeps the hole, the elements and the
order around the hole; the loop upwards ends where the element is not above its
parent, the loop downwards where it is not below its children.
-/

open HeapOrder

namespace ChromiumBase.IntrusiveHeap

variable {ι α : Type*} {less : α → α → Bool} {s : IntrusiveHeap ι α} {e : Element ι α}
  {pos n fuel i j : ℕ}

@[simp] theorem view_hole (pos : ℕ) (e : Element ι α) (s : IntrusiveHeap ι α) :
    view pos e s pos = e := if_pos rfl

theorem Hole.lessAtThan_iff (h : Hole n pos e s) (hi : i < n) (hne : i ≠ pos) :
    lessAtThan less i e s = true ↔ Lt less (view pos e s i) (view pos e s pos) := by
  rw [lessAtThan, h.getElem? hi hne, view_hole]
  rfl

theorem Hole.lessThanAt_iff (h : Hole n pos e s) (hi : i < n) (hne : i ≠ pos) :
    lessThanAt less e i s = true ↔ Lt less (view pos e s pos) (view pos e s i) := by
  rw [lessThanAt, h.getElem? hi hne, view_hole]
  rfl

theorem Hole.lessAt_iff (h : Hole n pos e s) (hi : i < n) (hne : i ≠ pos) (hj : j < n)
    (hne' : j ≠ pos) : lessAt less i j s = true ↔ Lt less (view pos e s i) (view pos e s j) := by
  rw [lessAt, h.getElem? hi hne, h.getElem? hj hne']
  rfl

/-- What stays the same while the hole moves: the elements, and the length of
the vector once the hole is filled. -/
structure SameElements (n : ℕ) (e : Element ι α) (pos : ℕ) (s : IntrusiveHeap ι α)
    (pos' : ℕ) (s' : IntrusiveHeap ι α) : Prop where
  bag_eq : bag n (view pos' e s') = bag n (view pos e s)
  length_eq : max s'.heap.length n = max s.heap.length n

theorem SameElements.refl (n : ℕ) (e : Element ι α) (pos : ℕ) (s : IntrusiveHeap ι α) :
    SameElements n e pos s pos s := ⟨rfl, rfl⟩

theorem SameElements.trans {pos' pos'' : ℕ} {s' s'' : IntrusiveHeap ι α}
    (h : SameElements n e pos s pos' s') (h' : SameElements n e pos' s' pos'' s'') :
    SameElements n e pos s pos'' s'' :=
  ⟨h'.bag_eq.trans h.bag_eq, h'.length_eq.trans h.length_eq⟩

/-- No child of the hole is larger than the one that is chosen. -/
theorem largestChild_spec (less : α → α → Bool) [IsStrictWeakOrder α fun a b => less a b = true]
    (h : Hole n pos e s) (hl : 2 * pos + 1 < n) :
    0 < largestChild less n pos s ∧ largestChild less n pos s < n ∧
      parent (largestChild less n pos s) = pos ∧
      ∀ d, 0 < d → d < n → parent d = pos →
        ¬ Lt less (view pos e s (largestChild less n pos s)) (view pos e s d) := by
  have hi : ∀ a : Element ι α, ¬ Lt less a a := fun a => irrefl_of (Lt less) a
  simp only [largestChild]
  split
  · rename_i hr
    obtain ⟨hlt, hle⟩ := hr
    have hle' := (h.lessAt_iff hl (by omega) hlt (by omega)).mp hle
    refine ⟨by omega, hlt, by unfold parent; omega, fun d hd hdn hdp => ?_⟩
    rcases parent_eq_iff.mp ⟨hd, hdp⟩ with rfl | rfl
    · exact not_lt_of_lt hle'
    · exact hi _
  · rename_i hr
    refine ⟨by omega, hl, by unfold parent; omega, fun d hd hdn hdp => ?_⟩
    rcases parent_eq_iff.mp ⟨hd, hdp⟩ with rfl | rfl
    · exact hi _
    · intro hlt
      exact hr ⟨hdn, (h.lessAt_iff hl (by omega) hdn (by omega)).mpr hlt⟩

variable [DecidableEq ι]

theorem Hole.sameElements_moveHole (h : Hole n pos e s) (hi : i < n) (hne : i ≠ pos) :
    SameElements n e pos s i (IntrusiveHeap.moveHole i pos s) where
  bag_eq := by
    rw [bag, h.view_moveHole hi hne, map_swap_range _ h.lt hi]
    rfl
  length_eq := h.length_moveHole hi hne

/-- The first `n` slots are a heap of the elements `b`, with exact handles, and
`e` is at `pos`. -/
structure Filled (less : α → α → Bool) (n : ℕ) (b : Multiset (Element ι α))
    (e : Element ι α) (out : ℕ × IntrusiveHeap ι α) : Prop where
  handles : HandlesExact n out.2
  values : ∃ f, (∀ i, i < n → out.2.heap[i]? = some (f i)) ∧ IsHeap (Lt less) n f ∧
    bag n f = b
  lt : out.1 < n
  getElem_eq : out.2.heap[out.1]? = some e

theorem Hole.filled (h : Hole n pos e s) (hh : IsHeap (Lt less) n (view pos e s)) :
    Filled less n (bag n (view pos e s)) e (pos, IntrusiveHeap.fillHole pos e s) ∧
      (IntrusiveHeap.fillHole pos e s).heap.length = max s.heap.length n := by
  obtain ⟨he, hlen, hget⟩ := h.fillHole
  refine ⟨⟨he, ⟨_, hget, hh, rfl⟩, h.lt, ?_⟩, hlen⟩
  rw [hget pos h.lt, view_hole]

variable [IsStrictWeakOrder α fun a b => less a b = true]

/-- The way up ends where the element is in order with its parent. -/
theorem moveHoleUpLoop_spec (hf : pos ≤ fuel) (h : Hole n pos e s)
    (ho : HoleOrder (Lt less) n (view pos e s) pos) (hb : Below (Lt less) n (view pos e s) pos) :
    let out := moveHoleUpLoop less fuel pos e s
    Hole n out.1 e out.2 ∧ IsHeap (Lt less) n (view out.1 e out.2) ∧
      SameElements n e pos s out.1 out.2 := by
  induction fuel generalizing pos s with
  | zero =>
    have ha : Above (Lt less) (view pos e s) pos := by
      intro hpos
      omega
    exact ⟨h, ho.isHeap ha hb, .refl _ _ _ _⟩
  | succ fuel ih =>
    rw [moveHoleUpLoop]
    split
    · rename_i hm
      obtain ⟨hne, hl⟩ := hm
      have hpos : 0 < pos := Nat.pos_of_ne_zero hne
      have hup := parent_lt hpos
      have hlt := h.lt
      have hp : parent pos < n := by omega
      have hv := h.view_moveHole hp hup.ne
      have hlt' := (h.lessAtThan_iff hp hup.ne).mp hl
      obtain ⟨ho', hb'⟩ := ho.up h.lt hpos hlt'
      rw [← hv] at ho' hb'
      obtain ⟨hho, hh, hs⟩ :=
        ih (by omega) (h.moveHole hp hup.ne) ho' hb'
      exact ⟨hho, hh, (h.sameElements_moveHole hp hup.ne).trans hs⟩
    · rename_i hst
      have ha : Above (Lt less) (view pos e s) pos := by
        intro hpos hlt
        have hup := parent_lt hpos
        have hpn := h.lt
        exact hst ⟨hpos.ne', (h.lessAtThan_iff (by omega) hup.ne).mpr hlt⟩
      exact ⟨h, ho.isHeap ha hb, .refl _ _ _ _⟩

/-- The way down ends at a leaf, or where the element is not below the larger child. -/
theorem moveHoleDownLoop_spec (isLeaf : Bool) (hf : n ≤ pos + fuel) (h : Hole n pos e s)
    (ho : HoleOrder (Lt less) n (view pos e s) pos)
    (ha : isLeaf = false → Above (Lt less) (view pos e s) pos) :
    let out := moveHoleDownLoop less isLeaf n fuel pos e s
    Hole n out.1 e out.2 ∧ HoleOrder (Lt less) n (view out.1 e out.2) out.1 ∧
      Below (Lt less) n (view out.1 e out.2) out.1 ∧
      (isLeaf = false → Above (Lt less) (view out.1 e out.2) out.1) ∧
      SameElements n e pos s out.1 out.2 := by
  induction fuel generalizing pos s with
  | zero =>
    have := h.lt
    omega
  | succ fuel ih =>
    simp only [moveHoleDownLoop]
    split
    · rename_i hl
      refine ⟨h, ho, fun c hc hcn hcp => ?_, ha, .refl _ _ _ _⟩
      rcases parent_eq_iff.mp ⟨hc, hcp⟩ with rfl | rfl <;> omega
    · rename_i hlef
      obtain ⟨hpos, hlt, hp, hmax⟩ := largestChild_spec less h (by omega)
      have hd := parent_lt hpos
      rw [hp] at hd
      split
      · rename_i hs
        have hnot : ¬ Lt less (view pos e s pos)
            (view pos e s (largestChild less n pos s)) := by
          rw [← h.lessThanAt_iff hlt hd.ne', hs.2]
          exact Bool.false_ne_true
        exact ⟨h, ho, fun d hd hn hp => not_lt_trans hnot (hmax d hd hn hp), ha, .refl _ _ _ _⟩
      · rename_i hm
        have hv := h.view_moveHole hlt hd.ne'
        obtain ⟨ho', ha'⟩ := ho.down hpos hlt hp hmax
        rw [← hv] at ho' ha'
        have ha'' : isLeaf = false → Above (Lt less)
            (view (largestChild less n pos s) e
              (moveHole (largestChild less n pos s) pos s))
            (largestChild less n pos s) := by
          intro hl
          apply ha'
          rw [← h.lessThanAt_iff hlt hd.ne']
          by_contra hle
          exact hm ⟨hl, Bool.eq_false_iff.mpr hle⟩
        obtain ⟨h₁, h₂, h₃, h₄, h₅⟩ :=
          ih (by omega) (h.moveHole hlt hd.ne') ho' ha''
        exact ⟨h₁, h₂, h₃, h₄, (h.sameElements_moveHole hlt hd.ne').trans h₅⟩

theorem moveHoleUpAndFill_spec (h : Hole n pos e s) (ho : HoleOrder (Lt less) n (view pos e s) pos)
    (hb : Below (Lt less) n (view pos e s) pos) :
    Filled less n (bag n (view pos e s)) e (moveHoleUpAndFill less pos e s) ∧
      (moveHoleUpAndFill less pos e s).2.heap.length = max s.heap.length n := by
  obtain ⟨hho, hh, hs⟩ := moveHoleUpLoop_spec le_rfl h ho hb
  have hf := hho.filled hh
  rw [hs.bag_eq, hs.length_eq] at hf
  exact hf

/-- Downwards without the last slot, for a leaf that is about to be erased. -/
theorem moveHoleDownAndFill_leaf_spec (h : Hole (s.size - 1) pos e s)
    (ho : HoleOrder (Lt less) (s.size - 1) (view pos e s) pos) :
    Filled less (s.size - 1) (bag (s.size - 1) (view pos e s)) e
        (moveHoleDownAndFill less true pos e s) ∧
      (moveHoleDownAndFill less true pos e s).2.heap.length = s.size := by
  obtain ⟨hh, ho', hb, -, hs⟩ :=
    moveHoleDownLoop_spec true (Nat.le_add_left _ pos) h ho nofun
  have hf := moveHoleUpAndFill_spec hh ho' hb
  rw [hs.bag_eq, hs.length_eq] at hf
  refine ⟨hf.1, hf.2.trans ?_⟩
  unfold size
  omega

/-- Downwards with an element that is not above its parent. -/
theorem moveHoleDownAndFill_spec (h : Hole s.size pos e s)
    (ho : HoleOrder (Lt less) s.size (view pos e s) pos) (ha : Above (Lt less) (view pos e s) pos) :
    Filled less s.size (bag s.size (view pos e s)) e
        (moveHoleDownAndFill less false pos e s) ∧
      (moveHoleDownAndFill less false pos e s).2.heap.length = s.size := by
  obtain ⟨hh, ho', hb, ha', hs⟩ :=
    moveHoleDownLoop_spec false (Nat.le_add_left _ pos) h ho fun _ => ha
  have hf := hh.filled (ho'.isHeap (ha' rfl) hb)
  rw [hs.bag_eq, hs.length_eq] at hf
  exact ⟨hf.1, hf.2.trans (max_self _)⟩

end ChromiumBase.IntrusiveHeap
