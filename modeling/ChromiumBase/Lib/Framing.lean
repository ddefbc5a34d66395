import Mathlib.Data.List.Basic

/-!
# Cutting a stream into frames

A framer takes one frame off the front of what has arrived, waits for more, or gives up.
A frame is taken for what lies in it, and giving up is for good, so nothing that arrives
later changes a verdict. Then the frames of a stream do not depend on how it arrives.
-/

open List

namespace Framing

variable {α δ : Type*} {s : List α}

/-- What a framer says of what has arrived: a frame, with its length. -/
inductive Verdict (δ : Type*) where
  | frame (length : ℕ) (content : δ)
  | wait
  | fail

structure Framer (α δ : Type*) where
  next : List α → Verdict δ
  length_le : ∀ s n d, next s = .frame n d → 0 < n ∧ n ≤ s.length
  frame_take : ∀ s t n d, next s = .frame n d → next (s.take n ++ t) = .frame n d
  fail_append : ∀ s t, next s = .fail → next (s ++ t) = .fail

structure Taken (α δ : Type*) where
  frames : List (List α × δ)
  rest : List α
  failed : Bool

namespace Framer

variable (F : Framer α δ)

def run (s : List α) : Taken α δ :=
  match h : F.next s with
  | .frame n d =>
    have : s.length - n < s.length := by
      have := F.length_le s n d h
      omega
    let r := run (s.drop n)
    { r with frames := (s.take n, d) :: r.frames }
  | .wait => ⟨[], s, false⟩
  | .fail => ⟨[], s, true⟩
termination_by s.length
decreasing_by simpa using this

variable {F}

theorem run_frame {n : ℕ} {d : δ} (h : F.next s = .frame n d) :
    F.run s = { F.run (s.drop n) with
      frames := (s.take n, d) :: (F.run (s.drop n)).frames } := by
  rw [run]
  split <;> simp_all

theorem run_wait (h : F.next s = .wait) : F.run s = ⟨[], s, false⟩ := by
  rw [run]
  split <;> simp_all

theorem run_fail (h : F.next s = .fail) : F.run s = ⟨[], s, true⟩ := by
  rw [run]
  split <;> simp_all

theorem next_rest (s : List α) (h : (F.run s).failed = false) : F.next (F.run s).rest = .wait := by
  fun_induction F.run s with
  | case1 s n d hn hlt r ih => exact ih h
  | case2 s hn => exact hn
  | case3 s hn => cases h

theorem flatMap_frames (s : List α) : (F.run s).frames.flatMap Prod.fst ++ (F.run s).rest = s := by
  fun_induction F.run s with
  | case1 s n d hn hlt r ih => simp [r, ih]
  | case2 s hn => rfl
  | case3 s hn => rfl

/-- Frames that have been taken do not depend on what comes behind them. -/
theorem run_frames_append {fs fs' : List (List α × δ)} (h : (F.run s).frames = fs ++ fs')
    (t : List α) : F.run (fs.flatMap Prod.fst ++ t) =
      { F.run t with frames := fs ++ (F.run t).frames } := by
  induction fs generalizing s with
  | nil => rfl
  | cons f fs ih =>
    cases hn : F.next s with
    | frame n d =>
      rw [run_frame hn, cons_append, List.cons.injEq] at h
      obtain ⟨rfl, hr⟩ := h
      have hl := length_take_of_le (F.length_le s n d hn).2
      rw [flatMap_cons, append_assoc, run_frame (F.frame_take s _ n d hn),
        drop_left' hl, take_left' hl, ih hr]
      rfl
    | wait => simp [run_wait hn] at h
    | fail => simp [run_fail hn] at h

/-- What arrives later is cut as if the rest and it had arrived together, unless the framer
has given up. -/
theorem run_append (s t : List α) : F.run (s ++ t) =
      if (F.run s).failed then { F.run s with rest := (F.run s).rest ++ t }
      else { F.run ((F.run s).rest ++ t) with
        frames := (F.run s).frames ++ (F.run ((F.run s).rest ++ t)).frames } := by
  induction hl : s.length using Nat.strongRecOn generalizing s with
  | _ length ih =>
    cases h : F.next s with
    | frame n d =>
      have hn := F.length_le s n d h
      have hd : (s ++ t).drop n = s.drop n ++ t := drop_append_of_le_length hn.2
      have ht : (s ++ t).take n = s.take n := take_append_of_le_length hn.2
      have hne : F.next (s ++ t) = .frame n d := by
        have := F.frame_take s (s.drop n ++ t) n d h
        rwa [← append_assoc, take_append_drop] at this
      rw [run_frame hne, hd, ht,
        ih (s.drop n).length (by rw [length_drop]; omega) (s.drop n) rfl, run_frame h]
      split <;> simp_all
    | wait => simp [run_wait h]
    | fail => simp [run_fail h, run_fail (F.fail_append s t h)]

end Framer

end Framing
