import Mathlib.Data.Int.LeastGreatest
import Mathlib.Data.List.Chain

/-!
# Segments of the integers one after the other

`Tiles lo l hi` says that the segments `l` make up the integers from `lo` up to `hi`: each starts
right behind the one before, and none is empty.

The second part is about sets of integers given by a test, on which a scan from the left stops:
at the first integer that passes, and at the left end of a run of equal answers.
-/

namespace Tiling

structure Segment where
  first : ℤ
  last : ℤ
deriving DecidableEq

def Segment.Contains (s : Segment) (b : ℤ) : Prop := s.first ≤ b ∧ b ≤ s.last

def Tiles : ℤ → List Segment → ℤ → Prop
  | lo, [], hi => lo = hi
  | lo, s :: l, hi => s.first = lo ∧ lo ≤ s.last ∧ Tiles (s.last + 1) l hi

namespace Tiles

variable {lo hi : ℤ} {l : List Segment} {s : Segment}

variable (h : Tiles lo l hi)

include h

theorem le : lo ≤ hi := by
  induction l generalizing lo with
  | nil => exact le_of_eq h
  | cons s l ih =>
    have hn := ih h.2.2
    have hl := h.2.1
    omega

theorem append_singleton {last : ℤ} (hl : hi ≤ last) : Tiles lo (l ++ [⟨hi, last⟩]) (last + 1) := by
  induction l generalizing lo with
  | nil =>
    obtain rfl : lo = hi := h
    exact ⟨rfl, hl, rfl⟩
  | cons s l ih => exact ⟨h.1, h.2.1, ih h.2.2⟩

theorem bounds (hs : s ∈ l) : lo ≤ s.first ∧ s.first ≤ s.last ∧ s.last < hi := by
  induction l generalizing lo with
  | nil => cases hs
  | cons t l ih =>
    obtain ⟨hf, hl, hn⟩ := h
    rcases List.mem_cons.mp hs with rfl | hs
    · have := hn.le
      omega
    · have := ih hn hs
      omega

theorem pairwise : l.Pairwise fun s t => s.last < t.first := by
  induction l generalizing lo with
  | nil => exact List.Pairwise.nil
  | cons s l ih =>
    refine List.Pairwise.cons (fun t ht => ?_) (ih h.2.2)
    have := (h.2.2.bounds ht).1
    omega

theorem isChain : l.IsChain fun s t => t.first = s.last + 1 := by
  induction l generalizing lo with
  | nil => exact List.IsChain.nil
  | cons s l ih =>
    cases l with
    | nil => exact List.IsChain.singleton s
    | cons t l => exact List.IsChain.cons_cons h.2.2.1 (ih h.2.2)

/-- Adjacent segments cover exactly what is between their ends. -/
theorem exists_contains_iff (b : ℤ) : (∃ s ∈ l, s.Contains b) ↔ lo ≤ b ∧ b < hi := by
  constructor
  · rintro ⟨s, hs, hf, hl⟩
    have := h.bounds hs
    omega
  · rintro ⟨hlo, hhi⟩
    induction l generalizing lo with
    | nil =>
      obtain rfl : lo = hi := h
      omega
    | cons s l ih =>
      obtain ⟨hf, -, hn⟩ := h
      by_cases hb : b ≤ s.last
      · exact ⟨s, List.mem_cons_self, by omega, hb⟩
      · obtain ⟨t, ht, hc⟩ := ih hn (by omega)
        exact ⟨t, List.mem_cons_of_mem _ ht, hc⟩

end Tiles

variable {p : ℤ → Bool} {lo hi : ℤ}

theorem exists_first {b : ℤ} (hlo : lo ≤ b) (hb : p b = true) :
    ∃ q, lo ≤ q ∧ q ≤ b ∧ p q = true ∧ ∀ c, lo ≤ c → c < q → p c = false := by
  obtain ⟨q, ⟨hq, hpq⟩, hl⟩ :=
    Int.exists_least_of_bdd (P := fun c => lo ≤ c ∧ p c = true) ⟨lo, fun c hc => hc.1⟩ ⟨b, hlo, hb⟩
  refine ⟨q, hq, hl b ⟨hlo, hb⟩, hpq, fun c hc hcq => ?_⟩
  by_contra hpc
  have := hl c ⟨hc, Bool.eq_true_of_not_eq_false hpc⟩
  omega

theorem exists_run_start {v : Bool} {c : ℤ} (hlo : lo ≤ c) (hrun : ∀ b, c ≤ b → b < hi → p b = v) :
    ∃ q, lo ≤ q ∧ q ≤ c ∧ (∀ b, q ≤ b → b < hi → p b = v) ∧ (lo < q → p (q - 1) = !v) := by
  obtain ⟨q, ⟨hq, hqr⟩, hl⟩ :=
    Int.exists_least_of_bdd (P := fun q => lo ≤ q ∧ ∀ b, q ≤ b → b < hi → p b = v)
      ⟨lo, fun q hq => hq.1⟩ ⟨c, hlo, hrun⟩
  refine ⟨q, hq, hl c ⟨hlo, hrun⟩, hqr, fun hlt => ?_⟩
  by_contra hne
  have hv : p (q - 1) = v := by
    cases v <;> simpa using hne
  have hle := hl (q - 1) ⟨by omega, fun b hb hbhi => ?_⟩
  · omega
  · by_cases hbq : b = q - 1
    · rw [hbq, hv]
    · exact hqr b (by omega) hbhi

end Tiling
