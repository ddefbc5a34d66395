import Mathlib.Data.List.Nodup

/-!
# Doubly linked lists

Links between cells, given by the functions `prev` and `next`.  They describe a list when every
member is linked to the members before and behind it; the first one is its own predecessor and
the last one its own successor.
-/

open List

namespace DoublyLinked

variable {α : Type*} {prev next prev' next' : α → α} {l X Y : List α} {n r a : α}

structure Linked (prev next : α → α) (l : List α) : Prop where
  prev_eq : ∀ {X Y : List α} {a : α}, l = X ++ a :: Y → prev a = X.getLastD a
  next_eq : ∀ {X Y : List α} {a : α}, l = X ++ a :: Y → next a = Y.headD a

theorem Linked.nil : Linked prev next ([] : List α) :=
  ⟨fun h => by simp at h, fun h => by simp at h⟩

theorem Linked.congr (h : Linked prev next l) (hp : ∀ a ∈ l, prev' a = prev a)
    (hn : ∀ a ∈ l, next' a = next a) : Linked prev' next' l where
  prev_eq {X Y a} hl := by
    rw [hp a (hl ▸ by simp)]
    exact h.prev_eq hl
  next_eq {X Y a} hl := by
    rw [hn a (hl ▸ by simp)]
    exact h.next_eq hl

theorem head?_ne (hn : (X ++ a :: Y).Nodup) (hX : X ≠ []) : (X ++ a :: Y).head? ≠ some a := by
  obtain ⟨x, X, rfl⟩ := exists_cons_of_ne_nil hX
  intro h
  rw [cons_append, head?_cons, Option.some.injEq] at h
  subst h
  exact (nodup_cons.mp hn).1 (by simp)

theorem getLast?_ne (hn : (X ++ a :: Y).Nodup) (hY : Y ≠ []) : (X ++ a :: Y).getLast? ≠ some a := by
  obtain ⟨Y, y, rfl⟩ := (eq_nil_or_concat Y).resolve_left hY
  intro h
  rw [nodup_middle] at hn
  have hy : (X ++ a :: Y.concat y).getLast? = some y := by
    simp [getLast?_cons]
  rw [hy, Option.some.injEq] at h
  subst h
  exact (nodup_cons.mp hn).1 (by simp)

/-- A node in front, when only its own links and that of the old head change. -/
theorem Linked.cons (h : Linked prev next l) (hno : l.Nodup) (hpr : prev' n = n)
    (hn : next' n = l.headD n) (hp : ∀ a ∈ l, l.head? = some a → prev' a = n)
    (hp' : ∀ a ∈ l, l.head? ≠ some a → prev' a = prev a)
    (hne : ∀ a ∈ l, next' a = next a) : Linked prev' next' (n :: l) where
  prev_eq {X Y a} hl := by
    cases X with
    | nil =>
      cases hl
      exact hpr
    | cons x X =>
      obtain ⟨rfl, rfl⟩ := hl
      have hmem : a ∈ X ++ a :: Y := by simp
      rcases eq_nil_or_concat X with rfl | ⟨Z, z, rfl⟩
      · exact hp a hmem rfl
      · rw [hp' a hmem (head?_ne hno (by simp)), h.prev_eq rfl, getLastD_cons]
        simp
  next_eq {X Y a} hl := by
    cases X with
    | nil =>
      cases hl
      exact hn
    | cons x X =>
      obtain ⟨rfl, rfl⟩ := hl
      rw [hne a (by simp)]
      exact h.next_eq rfl

theorem append_eq_append_cons {us vs : List α} (h : X ++ Y = us ++ a :: vs) :
    (∃ w, us = X ++ w ∧ Y = w ++ a :: vs) ∨ ∃ w, X = us ++ a :: w ∧ vs = w ++ Y := by
  rcases append_eq_append_iff.mp h with ⟨w, hus, hY⟩ | ⟨w, hX, hvs⟩
  · exact .inl ⟨w, hus, hY⟩
  · cases w with
    | nil => exact .inl ⟨[], by simpa using hX.symm, by simpa using hvs.symm⟩
    | cons b w =>
      obtain ⟨rfl, rfl⟩ := hvs
      exact .inr ⟨w, hX, rfl⟩

/-- A node is taken out when its neighbours are linked to each other. -/
theorem Linked.remove (h : Linked prev next (X ++ r :: Y)) (hno : (X ++ r :: Y).Nodup)
    (hp : ∀ a ∈ X ++ Y, Y.head? = some a → prev' a = X.getLastD a)
    (hp' : ∀ a ∈ X ++ Y, Y.head? ≠ some a → prev' a = prev a)
    (hn : ∀ a ∈ X ++ Y, X.getLast? = some a → next' a = Y.headD a)
    (hn' : ∀ a ∈ X ++ Y, X.getLast? ≠ some a → next' a = next a) : Linked prev' next' (X ++ Y) := by
  have hXY : (X ++ Y).Nodup := (nodup_cons.mp (nodup_middle.mp hno)).2
  constructor
  · intro us vs a hl
    have hmem : a ∈ X ++ Y := hl ▸ by simp
    rcases append_eq_append_cons hl with ⟨w, rfl, rfl⟩ | ⟨w, rfl, rfl⟩
    · -- the member is behind the one that is taken out
      cases w with
      | nil => rw [hp a hmem rfl, append_nil]
      | cons b w =>
        have hne := head?_ne hXY.of_append_right (cons_ne_nil b w)
        rw [hp' a hmem hne, h.prev_eq (X := X ++ r :: b :: w) (Y := vs) (by simp)]
        rcases eq_nil_or_concat w with rfl | ⟨w, z, rfl⟩ <;>
          simp [getLastD_eq_getLast?]
    · have hne : Y.head? ≠ some a := fun hY => by
        have hin : a ∈ Y := mem_of_head? hY
        rw [append_assoc, cons_append, nodup_middle] at hXY
        exact (nodup_cons.mp hXY).1 (by simp [hin])
      rw [hp' a hmem hne, h.prev_eq (X := us) (Y := w ++ r :: Y) (by simp)]
  · intro us vs a hl
    have hmem : a ∈ X ++ Y := hl ▸ by simp
    rcases append_eq_append_cons hl with ⟨w, rfl, rfl⟩ | ⟨w, rfl, rfl⟩
    · have hne : X.getLast? ≠ some a := fun hX => by
        have hin : a ∈ X := mem_of_getLast? hX
        rw [← append_assoc, nodup_middle] at hXY
        exact (nodup_cons.mp hXY).1 (by simp [hin])
      rw [hn' a hmem hne, h.next_eq (X := X ++ r :: w) (Y := vs) (by simp)]
    · -- the member is in front of the one that is taken out
      cases w with
      | nil => rw [hn a hmem (by simp), nil_append]
      | cons b w =>
        have hne := getLast?_ne hXY.of_append_left (cons_ne_nil b w)
        rw [hn' a hmem hne, h.next_eq (X := us) (Y := b :: w ++ r :: Y) (by simp)]
        rfl

end DoublyLinked
