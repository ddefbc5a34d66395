import Mathlib.Data.List.Nodup

/-!
# Queues linked through a successor function

A queue is given by a function `next` from nodes to nodes.  `Follows next stop a Q` says that
following `next` from the node `a` passes the nodes `Q` one after the other and then comes to
`stop`.  The head `a` is a node that belongs to the queue structure and is not counted as a
member.  Linking a new node behind the last one appends it, and changes nothing about the
order of the others.
-/

open List

namespace LinkedQueue

variable {α : Type*} {next next' : α → α} {stop a t r : α} {Q Q' : List α}

def Follows (next : α → α) (stop : α) : α → List α → Prop
  | a, [] => next a = stop
  | a, b :: Q => next a = b ∧ b ≠ stop ∧ Follows next stop b Q

variable (h : Follows next stop a Q)

include h

theorem Follows.congr (heq : ∀ b ∈ a :: Q, next' b = next b) : Follows next' stop a Q := by
  induction Q generalizing a with
  | nil => exact (heq a (by simp)).trans h
  | cons b Q ih =>
    exact ⟨(heq a (by simp)).trans h.1, h.2.1, ih h.2.2 fun c hc => heq c (mem_cons_of_mem a hc)⟩

theorem Follows.next_eq (ht : t ∈ a :: Q) : next t = stop ∨ next t ∈ Q := by
  induction Q generalizing a with
  | nil =>
    obtain rfl : t = a := by simpa using ht
    exact .inl h
  | cons b Q ih =>
    rcases mem_cons.mp ht with rfl | ht
    · exact .inr (by simp [h.1])
    · exact (ih h.2.2 ht).imp_right (mem_cons_of_mem b)

theorem Follows.ne_stop (hr : r ∈ Q) : r ≠ stop := by
  induction Q generalizing a with
  | nil => cases hr
  | cons b Q ih =>
    rcases mem_cons.mp hr with rfl | hr
    · exact h.2.1
    · exact ih h.2.2 hr

section Position

variable [DecidableEq α]

/-- The next node has the next index. -/
theorem Follows.idxOf_next (hnd : (a :: Q).Nodup) (ht : t ∈ a :: Q)
    (hne : next t ≠ stop) : (a :: Q).idxOf (next t) = (a :: Q).idxOf t + 1 := by
  induction Q generalizing a with
  | nil =>
    obtain rfl : t = a := by simpa using ht
    exact absurd h hne
  | cons b Q ih =>
    have hnd' := (nodup_cons.mp hnd).2
    have hab : a ∉ b :: Q := (nodup_cons.mp hnd).1
    rcases mem_cons.mp ht with rfl | ht
    · have hne' : t ≠ b := fun hb => hab (by simp [hb])
      rw [h.1, idxOf_cons_ne _ hne', idxOf_cons_self, idxOf_cons_self]
    · have hta : a ≠ t := fun hb => hab (hb ▸ ht)
      have hmem : next t ∈ b :: Q :=
        mem_cons_of_mem b ((h.2.2.next_eq ht).resolve_left hne)
      have hna : a ≠ next t := fun hb => hab (hb ▸ hmem)
      rw [idxOf_cons_ne _ hna, idxOf_cons_ne _ hta, ih h.2.2 hnd' ht]

/-- Linking a node behind the last one appends it. -/
theorem Follows.append (hnd : (a :: Q).Nodup) (ht : t ∈ a :: Q)
    (hl : next t = stop) (hr : r ∉ a :: Q) (hs : r ≠ stop) (hn : next r = stop) :
    Follows (Function.update next t r) stop a (Q ++ [r]) := by
  have hrt : r ≠ t := fun hb => hr (hb ▸ ht)
  induction Q generalizing a with
  | nil =>
    obtain rfl : t = a := by simpa using ht
    exact ⟨Function.update_self _ _ _, hs, by simpa [Follows, hrt] using hn⟩
  | cons b Q ih =>
    have hnd' := (nodup_cons.mp hnd).2
    have hta : a ≠ t := by
      rintro rfl
      exact h.2.1 (h.1.symm.trans hl)
    have ht' : t ∈ b :: Q := (mem_cons.mp ht).resolve_left (Ne.symm hta)
    exact ⟨(Function.update_of_ne hta _ _).trans h.1, h.2.1,
      ih h.2.2 hnd' ht' fun hb => hr (mem_cons_of_mem a hb)⟩

end Position

end LinkedQueue
