import Mathlib.Data.Finset.Image

/-!
# Binary heaps with a hole

The order theory of array heaps. An array of `n` elements is a function on the
indices below `n`, and `IsHeap` says that no element is less than one of its
children, for a strict weak order `lt`.

An algorithm that repairs a heap lets one index, the hole, travel along a path.
`HoleOrder` is what holds throughout: every pair that does not touch the hole is
in order, and so is the parent of the hole with the children of the hole. Moving
the hole one step is an exchange of two values. `Above` and `Below` are the two
conditions that make a heap of it again.
-/

namespace HeapOrder

def parent (i : ℕ) : ℕ := (i - 1) / 2

theorem parent_lt {i : ℕ} (h : 0 < i) : parent i < i := by
  unfold parent
  omega

theorem parent_eq_iff {i c : ℕ} : 0 < c ∧ parent c = i ↔ c = 2 * i + 1 ∨ c = 2 * i + 2 := by
  unfold parent
  omega

section Order

variable {α : Type*} {lt : α → α → Prop} [IsStrictWeakOrder α lt]

theorem not_lt_trans {a b c : α} (hab : ¬ lt a b) (hbc : ¬ lt b c) : ¬ lt a c := by
  intro hac
  have hba : ¬ lt b a := fun hba => hbc (IsTrans.trans b a c hba hac)
  have hcb : ¬ lt c b := fun hcb => hab (IsTrans.trans a c b hac hcb)
  exact (IsStrictWeakOrder.incomp_trans a b c ⟨hab, hba⟩ ⟨hbc, hcb⟩).1 hac

theorem not_lt_of_lt {a b : α} (h : lt a b) : ¬ lt b a :=
  fun h' => irrefl_of lt a (IsTrans.trans a b a h h')

section

variable (lt : α → α → Prop) (n : ℕ) (f : ℕ → α)

def IsHeap : Prop :=
  ∀ i, 0 < i → i < n → ¬ lt (f (parent i)) (f i)

/-- The order around a hole whose own value is not constrained. -/
structure HoleOrder (hole : ℕ) : Prop where
  off : ∀ i, 0 < i → i < n → i ≠ hole → parent i ≠ hole → ¬ lt (f (parent i)) (f i)
  across : 0 < hole → ∀ c, 0 < c → c < n → parent c = hole →
    ¬ lt (f (parent hole)) (f c)

/-- The value in the hole is not above the parent's. -/
def Above (hole : ℕ) : Prop :=
  0 < hole → ¬ lt (f (parent hole)) (f hole)

/-- The value in the hole is not below the children's. -/
def Below (hole : ℕ) : Prop :=
  ∀ c, 0 < c → c < n → parent c = hole → ¬ lt (f hole) (f c)

end

variable {n hole c : ℕ} {f : ℕ → α}

omit [IsStrictWeakOrder α lt] in
theorem HoleOrder.isHeap (h : HoleOrder lt n f hole) (ha : Above lt f hole)
    (hb : Below lt n f hole) : IsHeap lt n f := by
  intro i hi hn
  by_cases hh : i = hole
  · subst hh
    exact ha hi
  · by_cases hp : parent i = hole
    · rw [hp]
      exact hb i hi hn hp
    · exact h.off i hi hn hh hp

theorem IsHeap.not_lt_top {i : ℕ} (h : IsHeap lt n f) (hi : i < n) : ¬ lt (f 0) (f i) := by
  induction i using Nat.strong_induction_on with
  | _ i ih =>
    rcases Nat.eq_zero_or_pos i with rfl | hpos
    · exact irrefl_of lt (f 0)
    · have hup := parent_lt hpos
      exact not_lt_trans (ih _ hup (hup.trans hi)) (h i hpos hi)

/-- Whatever a value of a heap is changed to, the order around it remains. -/
theorem IsHeap.holeOrder (h : IsHeap lt n f) (hh : hole < n) {g : ℕ → α}
    (hg : ∀ i, i ≠ hole → g i = f i) : HoleOrder lt n g hole where
  off i hi hn hne hp := by
    rw [hg i hne, hg _ hp]
    exact h i hi hn
  across hpos c hc hn hp := by
    have hup := parent_lt hpos
    have hd := parent_lt hc
    rw [hg _ (by omega), hg c (by omega)]
    refine not_lt_trans (h hole hpos hh) ?_
    rw [← hp]
    exact h c hc hn

omit [IsStrictWeakOrder α lt] in
theorem HoleOrder.off_child (h : HoleOrder lt n f hole) (hpos : 0 < hole) (hc : 0 < c) (hn : c < n)
    (hne : c ≠ hole) (hp : parent c = parent hole) : ¬ lt (f (parent hole)) (f c) := by
  have hup := parent_lt hpos
  rw [← hp]
  exact h.off c hc hn hne (by omega)

/-- The hole moves up when the value in it is above the parent's, and is then not
below its children. -/
theorem HoleOrder.up (h : HoleOrder lt n f hole) (hh : hole < n) (hpos : 0 < hole)
    (hlt : lt (f (parent hole)) (f hole)) :
    HoleOrder lt n (f ∘ Equiv.swap hole (parent hole)) (parent hole) ∧
      Below lt n (f ∘ Equiv.swap hole (parent hole)) (parent hole) := by
  have hup := parent_lt hpos
  have hs : (f ∘ Equiv.swap hole (parent hole)) hole = f (parent hole) := by simp
  have htop : (f ∘ Equiv.swap hole (parent hole)) (parent hole) = f hole := by simp
  have ho : ∀ i, i ≠ hole → i ≠ parent hole →
      (f ∘ Equiv.swap hole (parent hole)) i = f i := by
    intro i h₁ h₂
    simp [Equiv.swap_apply_of_ne_of_ne h₁ h₂]
  refine ⟨⟨?_, ?_⟩, ?_⟩
  · intro i hi hn hne hp
    have hih : i ≠ hole := fun hi => hp (congrArg parent hi)
    rw [ho i hih hne]
    by_cases hchi : parent i = hole
    · rw [hchi, hs]
      exact h.across hpos i hi hn hchi
    · rw [ho _ hchi hp]
      exact h.off i hi hn hih hchi
  · intro hpos' c hc hn hp
    have hup' := parent_lt hpos'
    have ht := h.off (parent hole) hpos' (by omega) (by omega) (by omega)
    rw [ho (parent (parent hole)) (by omega) (by omega)]
    by_cases hch : c = hole
    · rw [hch, hs]
      exact ht
    · have hd := parent_lt hc
      rw [ho c hch (by omega)]
      exact not_lt_trans ht (h.off_child hpos hc hn hch hp)
  · intro c hc hn hp
    rw [htop]
    by_cases hch : c = hole
    · rw [hch, hs]
      exact not_lt_of_lt hlt
    · have hd := parent_lt hc
      rw [ho c hch (by omega)]
      exact not_lt_trans (not_lt_of_lt hlt) (h.off_child hpos hc hn hch hp)

/-- The hole moves down to the child with the larger value. If the value in it
was less than that child's, it stays not above its parent. -/
theorem HoleOrder.down (h : HoleOrder lt n f hole) (hc : 0 < c) (hn : c < n) (hp : parent c = hole)
    (hmax : ∀ d, 0 < d → d < n → parent d = hole → ¬ lt (f c) (f d)) :
    HoleOrder lt n (f ∘ Equiv.swap hole c) c ∧
      (lt (f hole) (f c) → Above lt (f ∘ Equiv.swap hole c) c) := by
  have hdo := parent_lt hc
  have hs : (f ∘ Equiv.swap hole c) hole = f c := by simp
  have hch : (f ∘ Equiv.swap hole c) c = f hole := by simp
  have ho : ∀ i, i ≠ hole → i ≠ c → (f ∘ Equiv.swap hole c) i = f i := by
    intro i h₁ h₂
    simp [Equiv.swap_apply_of_ne_of_ne h₁ h₂]
  refine ⟨⟨?_, ?_⟩, ?_⟩
  · intro i hi hin hne hpi
    have hup := parent_lt hi
    by_cases hih : i = hole
    · subst hih
      rw [hs, ho _ (by omega) (by omega)]
      exact h.across hi c hc hn hp
    · rw [ho i hih hne]
      by_cases hpih : parent i = hole
      · rw [hpih, hs]
        exact hmax i hi hin hpih
      · rw [ho _ hpih hpi]
        exact h.off i hi hin hih hpih
  · intro _ d hd hdn hpd
    have hdo' := parent_lt hd
    rw [hp, hs, ho d (by omega) (by omega), ← hpd]
    exact h.off d hd hdn (by omega) (by omega)
  · intro hlt _
    rw [hp, hs, hch]
    exact not_lt_of_lt hlt

end Order

theorem map_swap_range {α : Type*} (f : ℕ → α) {n i j : ℕ} (hi : i < n) (hj : j < n) :
    (Multiset.range n).map (f ∘ Equiv.swap i j) = (Multiset.range n).map f := by
  have hr : (Finset.range n).map (Equiv.swap i j).toEmbedding = Finset.range n := by
    refine Finset.map_perm fun k hk => Finset.mem_coe.mpr (Finset.mem_range.mpr ?_)
    rcases (Equiv.swap_apply_ne_self_iff.mp hk).2 with rfl | rfl <;> assumption
  rw [← Multiset.map_map]
  exact congrArg (Multiset.map f ·.val) hr

end HeapOrder
