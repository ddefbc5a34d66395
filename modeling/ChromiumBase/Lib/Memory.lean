import Mathlib.Data.List.Basic

/-!
# Byte memory with a record of what is read

A memory assigns a byte to every address. A computation that reads it is
`Traced`: next to its result it carries the list of spans it has read, so that
"never reads past the end" is a statement about that list and not about the
result. `Within n` says that every span read lies below the address `n`; it is
closed under `pure`, `bind` and `load`, which is how the readers are checked.
-/

universe u

open List

namespace Memory

abbrev Mem := ℕ → UInt8

structure Span where
  start : ℕ
  len : ℕ
  deriving DecidableEq, Repr

/-- A result together with the spans of memory read to compute it. -/
structure Traced (α : Type u) where
  result : α
  spans : List Span

namespace Traced

variable {α β : Type u} (t : Traced α) (f : α → Traced β) (a : α)

instance : Monad Traced where
  pure a := ⟨a, []⟩
  bind t f := ⟨(f t.result).result, t.spans ++ (f t.result).spans⟩

@[simp] theorem result_pure : (pure a : Traced α).result = a := rfl

@[simp] theorem spans_pure : (pure a : Traced α).spans = [] := rfl

@[simp] theorem result_bind : (t >>= f).result = (f t.result).result := rfl

@[simp] theorem spans_bind : (t >>= f).spans = t.spans ++ (f t.result).spans := rfl

def Within (n : ℕ) (t : Traced α) : Prop :=
  ∀ s ∈ t.spans, s.start + s.len ≤ n

theorem within_pure (n : ℕ) (a : α) : Within n (pure a : Traced α) := by
  intro s hs
  simp at hs

theorem within_bind {n : ℕ} {t : Traced α} {f : α → Traced β}
    (ht : Within n t) (hf : Within n (f t.result)) : Within n (t >>= f) := by
  intro s hs
  rw [spans_bind, mem_append] at hs
  exact hs.elim (ht s) (hf s)

end Traced

def slice (m : Mem) (start len : ℕ) : List UInt8 :=
  (List.range len).map fun i => m (start + i)

def load (m : Mem) (start len : ℕ) : Traced (List UInt8) :=
  ⟨slice m start len, [⟨start, len⟩]⟩

@[simp] theorem load_result (m : Mem) (start len : ℕ) :
    (load m start len).result = slice m start len := rfl

variable {start : ℕ} {m : Mem}

variable (m : Mem)

theorem within_load {n : ℕ} {len : ℕ} (h : start + len ≤ n) :
    Traced.Within n (load m start len) := by
  intro s hs
  simp only [load, mem_singleton] at hs
  subst hs
  exact h

@[simp] theorem length_slice (start len : ℕ) : (slice m start len).length = len := by simp [slice]

theorem slice_add (start a b : ℕ) :
    slice m start (a + b) = slice m start a ++ slice m (start + a) b := by
  simp [slice, range_add, Nat.add_assoc]

def HoldsAt (m : Mem) (start : ℕ) (bs : List UInt8) : Prop :=
  slice m start bs.length = bs

instance (m : Mem) (start : ℕ) (bs : List UInt8) : Decidable (HoldsAt m start bs) :=
  inferInstanceAs (Decidable (slice m start bs.length = bs))

theorem HoldsAt.left {bs cs : List UInt8} (h : HoldsAt m start (bs ++ cs)) :
    HoldsAt m start bs := by
  unfold HoldsAt at h ⊢
  rw [length_append, slice_add] at h
  exact (append_inj h (by simp)).1

theorem HoldsAt.right {bs cs : List UInt8} (h : HoldsAt m start (bs ++ cs)) :
    HoldsAt m (start + bs.length) cs := by
  unfold HoldsAt at h ⊢
  rw [length_append, slice_add] at h
  exact (append_inj h (by simp)).2

def ofList (bs : List UInt8) : Mem := fun i => bs.getD i 0

theorem holdsAt_ofList (bs : List UInt8) : HoldsAt (ofList bs) 0 bs := by
  apply ext_getElem (by simp)
  intro i h₁ h₂
  simp [slice, ofList, h₂]

end Memory
