import Mathlib.Order.Lattice

/-!
# Ordered sets kept as sorted lists

A set that is iterated in increasing order is kept as a strictly increasing list.
-/

structure SortedSet (α : Type*) [LinearOrder α] where
  elems : List α
  sorted : elems.Pairwise (· < ·)
  deriving DecidableEq

open List

namespace SortedSet

variable {α : Type*} [LinearOrder α]

instance : Membership α (SortedSet α) :=
  ⟨fun s a => a ∈ s.elems⟩

instance (a : α) (s : SortedSet α) : Decidable (a ∈ s) :=
  inferInstanceAs (Decidable (a ∈ s.elems))

/-- The place of `a` in a strictly increasing list; nothing changes when it is there. -/
def insertElem (a : α) : List α → List α
  | [] => [a]
  | b :: bs => if a < b then a :: b :: bs else if b < a then b :: insertElem a bs else b :: bs

theorem mem_insertElem (a c : α) (l : List α) : c ∈ insertElem a l ↔ c = a ∨ c ∈ l := by
  induction l with
  | nil => simp [insertElem]
  | cons b bs ih =>
    rcases lt_trichotomy a b with hab | rfl | hba
    · simp [insertElem, hab]
    · simp [insertElem]
    · simp only [insertElem, hba, not_lt_of_gt hba, if_false, if_true, mem_cons, ih]
      exact or_left_comm

theorem pairwise_insertElem (a : α) {l : List α} (h : l.Pairwise (· < ·)) :
    (insertElem a l).Pairwise (· < ·) := by
  induction h with
  | nil => exact pairwise_singleton _ _
  | @cons b bs hb hbs ih =>
    rcases lt_trichotomy a b with hab | rfl | hba
    · simp only [insertElem, hab]
      refine List.Pairwise.cons ?_ (List.Pairwise.cons hb hbs)
      intro c hc
      rcases mem_cons.1 hc with rfl | hc
      · exact hab
      · exact hab.trans (hb c hc)
    · simpa [insertElem] using List.Pairwise.cons hb hbs
    · simp only [insertElem, hba, not_lt_of_gt hba]
      refine List.Pairwise.cons ?_ ih
      intro c hc
      rcases (mem_insertElem a c bs).1 hc with rfl | hc
      · exact hba
      · exact hb c hc

def insert (a : α) (s : SortedSet α) : SortedSet α :=
  ⟨insertElem a s.elems, pairwise_insertElem a s.sorted⟩

def ofList : List α → SortedSet α
  | [] => ⟨[], List.Pairwise.nil⟩
  | a :: as => (ofList as).insert a

def singleton (a : α) : SortedSet α :=
  ⟨[a], pairwise_singleton _ _⟩

end SortedSet
