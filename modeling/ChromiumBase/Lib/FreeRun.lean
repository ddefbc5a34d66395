import Mathlib.Data.Nat.Count

/-!
# Free runs at the end of groups of cells

A map `u` says which cells are used.  `freeEnd u a n` is the number of free cells at the end of
the group of `n` cells that starts at `a`.  Filling cells from the start of that run shortens
it by as many; clearing cells changes it only if everything behind them is free.  `tally`
counts the groups by a value, and changes by one where one group changes.
-/

namespace FreeRun

variable {u u' : ℕ → Bool} {a n i s t : ℕ}

def freeEnd (u : ℕ → Bool) (a : ℕ) : ℕ → ℕ
  | 0 => 0
  | n + 1 => if u (a + n) then 0 else freeEnd u a n + 1

theorem freeEnd_le (u : ℕ → Bool) (a n : ℕ) : freeEnd u a n ≤ n := by
  induction n with
  | zero => exact le_rfl
  | succ n ih =>
    unfold freeEnd
    split <;> omega

/-- The free cells at the end of a group, up to the last used one. -/
theorem freeEnd_eq_iff (ht : t ≤ n) : freeEnd u a n = t ↔
      (∀ i, n - t ≤ i → i < n → u (a + i) = false) ∧ (t < n → u (a + (n - t - 1)) = true) := by
  induction n generalizing t with
  | zero =>
    obtain rfl : t = 0 := by omega
    simp [freeEnd]
  | succ n ih =>
    unfold freeEnd
    cases hu : u (a + n) with
    | true =>
      rw [if_pos rfl]
      constructor
      · rintro rfl
        exact ⟨fun i h₁ h₂ => by omega, fun _ => by simpa using hu⟩
      · rintro ⟨hf, -⟩
        by_contra hne
        have := hf n (by omega) (by omega)
        rw [hu] at this
        cases this
    | false =>
      rw [if_neg (by simp)]
      cases t with
      | zero =>
        simp only [Nat.add_eq_zero_iff, one_ne_zero, and_false, false_iff, not_and]
        intro _ h
        have := h (by omega)
        simp [hu] at this
      | succ t =>
        rw [Nat.add_right_cancel_iff, ih (by omega)]
        have hsub : n + 1 - (t + 1) = n - t := by omega
        rw [hsub, Nat.add_lt_add_iff_right]
        refine and_congr_left fun _ => ⟨fun h i h₁ h₂ => ?_, fun h i h₁ h₂ => ?_⟩
        · by_cases hi : i = n
          · rw [hi, hu]
          · exact h i h₁ (by omega)
        · exact h i h₁ (by omega)

theorem freeEnd_congr {a' : ℕ} (h : ∀ i < n, u' (a' + i) = u (a + i)) :
    freeEnd u' a' n = freeEnd u a n := by
  obtain ⟨hf, hu⟩ := (freeEnd_eq_iff (freeEnd_le u a n)).mp rfl
  refine (freeEnd_eq_iff (freeEnd_le u a n)).mpr ⟨fun i h₁ h₂ => ?_, fun hlt => ?_⟩
  · rw [h i h₂]
    exact hf i h₁ h₂
  · rw [h _ (by omega)]
    exact hu hlt

theorem free_of_freeEnd (h₁ : n - freeEnd u a n ≤ i) (h₂ : i < n) : u (a + i) = false :=
  ((freeEnd_eq_iff (freeEnd_le u a n)).mp rfl).1 i h₁ h₂

theorem freeEnd_fill (hs : 0 < s) (hle : s ≤ freeEnd u a n)
    (hf : ∀ i < n, u' (a + i) = (u (a + i) ||
      decide (n - freeEnd u a n ≤ i ∧ i < n - freeEnd u a n + s))) :
    freeEnd u' a n = freeEnd u a n - s := by
  have hn := freeEnd_le u a n
  refine (freeEnd_eq_iff (by omega)).mpr ⟨fun i h₁ h₂ => ?_, fun hlt => ?_⟩
  · have hfr : u (a + i) = false := free_of_freeEnd (n := n) (by omega) h₂
    rw [hf i h₂, hfr, Bool.false_or, decide_eq_false_iff_not]
    omega
  · rw [hf _ (by omega), Bool.or_eq_true]
    exact .inr (by simp only [decide_eq_true_eq]; omega)

/-- Behind the cleared cells something is in use: the run is as before. -/
theorem freeEnd_clear_of_used
    (hc : ∀ j < n, u' (a + j) = (u (a + j) && !decide (i ≤ j ∧ j < i + s))) {j : ℕ}
    (hj : i + s ≤ j ∧ j < n) (hu : u (a + j) = true) : freeEnd u' a n = freeEnd u a n := by
  have hn := freeEnd_le u a n
  obtain ⟨hf, hus⟩ := (freeEnd_eq_iff hn).mp rfl
  have hlt : freeEnd u a n < n - j := by
    by_contra hge
    have := hf j (by omega) hj.2
    rw [hu] at this
    cases this
  refine (freeEnd_eq_iff hn).mpr ⟨fun k h₁ h₂ => ?_, fun h => ?_⟩
  · rw [hc k h₂, hf k h₁ h₂, Bool.false_and]
  · rw [hc _ (by omega), hus h]
    simp only [Bool.true_and, Bool.not_eq_true', decide_eq_false_iff_not]
    omega

/-- Behind the cleared cells everything is free: the run ended there, and is longer now. -/
theorem freeEnd_clear_of_free (hin : i + s ≤ n) (hs : 0 < s)
    (hc : ∀ j < n, u' (a + j) = (u (a + j) && !decide (i ≤ j ∧ j < i + s)))
    (hf : ∀ j, i + s ≤ j → j < n → u (a + j) = false) (hu : u (a + (i + s - 1)) = true) :
    freeEnd u a n = n - (i + s) ∧ n - i ≤ freeEnd u' a n := by
  constructor
  · refine (freeEnd_eq_iff (by omega)).mpr ⟨fun j h₁ h₂ => hf j (by omega) h₂, fun _ => ?_⟩
    rwa [show n - (n - (i + s)) - 1 = i + s - 1 by omega]
  · by_contra hlt
    have hn := freeEnd_le u' a n
    have hus := ((freeEnd_eq_iff hn).mp rfl).2 (by omega)
    rw [hc _ (by omega)] at hus
    by_cases hcut : n - freeEnd u' a n - 1 < i + s
    · simp only [Bool.and_eq_true, Bool.not_eq_true', decide_eq_false_iff_not] at hus
      omega
    · rw [hf _ (by omega) (by omega)] at hus
      cases hus

section Tally

variable {f f' : ℕ → ℕ} {g v N M : ℕ}

def tally (f : ℕ → ℕ) (v N : ℕ) : ℕ := Nat.count (fun g => f g = v) N

theorem tally_succ (f : ℕ → ℕ) (v N : ℕ) :
    tally f v (N + 1) = tally f v N + if f N = v then 1 else 0 := Nat.count_succ _ _

theorem tally_congr (h : ∀ g < N, f' g = f g) : tally f' v N = tally f v N := by
  induction N with
  | zero => rfl
  | succ N ih => rw [tally_succ, tally_succ, ih fun g hg => h g (by omega), h N (by omega)]

theorem tally_pos_iff : 0 < tally f v N ↔ ∃ g < N, f g = v := by
  induction N with
  | zero => simp [tally]
  | succ N ih =>
    rw [tally_succ]
    constructor
    · intro h
      by_cases hN : f N = v
      · exact ⟨N, by omega, hN⟩
      · rw [if_neg hN] at h
        obtain ⟨g, hg, hv⟩ := ih.mp h
        exact ⟨g, by omega, hv⟩
    · rintro ⟨g, hg, hv⟩
      by_cases hN : g = N
      · subst hN
        simp [hv]
      · have := ih.mpr ⟨g, by omega, hv⟩
        omega

theorem tally_change (hg : g < N) (h : ∀ k < N, k ≠ g → f' k = f k) :
    tally f' v N + (if f g = v then 1 else 0) = tally f v N + if f' g = v then 1 else 0 := by
  induction N with
  | zero => omega
  | succ N ih =>
    rw [tally_succ, tally_succ]
    by_cases hN : g = N
    · subst hN
      rw [tally_congr fun k hk => h k (by omega) (by omega)]
      omega
    · have := ih (by omega) fun k hk => h k (by omega)
      rw [h N (by omega) (Ne.symm hN)]
      omega

theorem tally_append (h : ∀ g, N ≤ g → g < N + M → f g = t) :
    tally f v (N + M) = tally f v N + if t = v then M else 0 := by
  induction M with
  | zero => simp
  | succ M ih =>
    rw [← Nat.add_assoc, tally_succ, ih fun g h₁ h₂ => h g h₁ (by omega),
      h (N + M) (by omega) (by omega)]
    split <;> omega

theorem tally_le (f : ℕ → ℕ) (N : ℕ) :
    tally f 1 N + tally f 2 N * 2 + tally f 3 N * 3 + tally f 4 N * 4 ≤ N * 4 := by
  induction N with
  | zero => simp [tally]
  | succ N ih =>
    simp only [tally_succ]
    split_ifs <;> omega

/-- What is used in a group lies before its free run. -/
theorem count_add_tally_le (u : ℕ → Bool) (N : ℕ) :
    Nat.count (fun b => u b = true) (4 * N) + (tally (fun g => freeEnd u (4 * g) 4) 1 N +
      tally (fun g => freeEnd u (4 * g) 4) 2 N * 2 + tally (fun g => freeEnd u (4 * g) 4) 3 N * 3 +
      tally (fun g => freeEnd u (4 * g) 4) 4 N * 4) ≤ 4 * N := by
  induction N with
  | zero => simp [tally]
  | succ N ih =>
    have hle := freeEnd_le u (4 * N) 4
    have hused (i : ℕ) (hi : i < 4) : (if u (4 * N + i) = true then 1 else 0) ≤ 1 ∧
        (if u (4 * N + i) = true then 1 else 0) * (i + 1) ≤ 4 - freeEnd u (4 * N) 4 := by
      split_ifs with hu
      · refine ⟨le_rfl, not_lt.mp fun hlt => ?_⟩
        have hfree := free_of_freeEnd (u := u) (a := 4 * N) (n := 4) (by omega) hi
        exact absurd (hu.symm.trans hfree) (by decide)
      · omega
    have h0 := hused 0 (by omega)
    rw [Nat.add_zero] at h0
    have h1 := hused 1 (by omega)
    have h2 := hused 2 (by omega)
    have h3 := hused 3 (by omega)
    simp only [Nat.mul_succ, Nat.count_succ, tally_succ]
    generalize freeEnd u (4 * N) 4 = r at *
    have hr : (if r = 1 then 1 else 0) + (if r = 2 then 1 else 0) * 2 +
        (if r = 3 then 1 else 0) * 3 + (if r = 4 then 1 else 0) * 4 ≤ r := by
      split_ifs <;> omega
    omega

end Tally

end FreeRun
