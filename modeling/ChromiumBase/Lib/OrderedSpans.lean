import ChromiumBase.Lib.Memory

/-!
# Spans claimed in order

A region is handed out from its low end to its high end: whoever claims a span must start at or
behind the end of the span claimed before.  `InOrder lo ss hi` says that the spans `ss` have been
claimed in this way between `lo` and `hi`.  The spans then lie between the two ends and do not
meet each other.
-/

namespace Memory

variable {lo mid hi : ℕ} {s t : Span} {ss ts : List Span}

namespace Span

def stop (s : Span) : ℕ := s.start + s.len

end Span

def InOrder : ℕ → List Span → ℕ → Prop
  | lo, [], hi => lo ≤ hi
  | lo, s :: ss, hi => lo ≤ s.start ∧ InOrder s.stop ss hi

namespace InOrder

theorem le (h : InOrder lo ss hi) : lo ≤ hi := by
  induction ss generalizing lo with
  | nil => exact h
  | cons s ss ih =>
    have hs : s.stop ≤ hi := ih h.2
    have hst : lo ≤ s.start := h.1
    unfold Span.stop at hs
    omega

theorem append (h₁ : InOrder lo ss mid) (h₂ : InOrder mid ts hi) : InOrder lo (ss ++ ts) hi := by
  induction ss generalizing lo with
  | nil =>
    cases ts with
    | nil => exact Nat.le_trans h₁ h₂
    | cons t ts => exact ⟨Nat.le_trans h₁ h₂.1, h₂.2⟩
  | cons s ss ih => exact ⟨h₁.1, ih h₁.2⟩

theorem singleton (hlo : lo ≤ s.start) : InOrder lo [s] s.stop :=
  ⟨hlo, Nat.le_refl _⟩

theorem bounds (h : InOrder lo ss hi) (hs : s ∈ ss) : lo ≤ s.start ∧ s.stop ≤ hi := by
  induction ss generalizing lo with
  | nil => cases hs
  | cons t ss ih =>
    cases hs with
    | head => exact ⟨h.1, le h.2⟩
    | tail _ hs =>
      obtain ⟨hlow, hh⟩ := ih h.2 hs
      have hst : lo ≤ t.start := h.1
      unfold Span.stop at hlow
      exact ⟨by omega, hh⟩

theorem pairwise (h : InOrder lo ss hi) : ss.Pairwise fun s t => s.stop ≤ t.start := by
  induction ss generalizing lo with
  | nil => exact List.Pairwise.nil
  | cons s ss ih => exact List.Pairwise.cons (fun t ht => (bounds h.2 ht).1) (ih h.2)

end InOrder

end Memory
