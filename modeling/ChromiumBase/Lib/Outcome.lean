/-!
# Computations that may fail

`ReturnsUnless excused m P` says of a computation `m : Except ε α` that it ends
with a result that satisfies `P`, or with an error that is excused. The rules
follow the structure of a program: a result, a sequence, a weaker postcondition.
-/

universe u v

namespace Outcome

variable {ε : Type u} {α β : Type v} {excused : ε → Prop} {b : β} (a : α) (P : α → Prop)

theorem ok_bind (f : α → Except ε β) : (.ok a >>= f) = f a := rfl

variable {m : Except ε α} {f : α → Except ε β}

theorem exists_of_bind_eq_ok (h : m >>= f = .ok b) : ∃ a, m = .ok a ∧ f a = .ok b := by
  cases m with
  | ok a => exact ⟨a, rfl, h⟩
  | error e => cases h

theorem exists_of_map_eq_ok {f : α → β} (h : f <$> m = .ok b) : ∃ a, m = .ok a ∧ f a = b := by
  cases m with
  | ok a => exact ⟨a, rfl, Except.ok.inj h⟩
  | error e => cases h

/-- The computation satisfies `P`, or fails with an excused error. -/
def ReturnsUnless (excused : ε → Prop) (m : Except ε α) (P : α → Prop) : Prop :=
  match m with
  | .ok a => P a
  | .error e => excused e

@[simp] theorem returnsUnless_ok : ReturnsUnless excused (.ok a) P ↔ P a := Iff.rfl

@[simp] theorem returnsUnless_error (e : ε) (P : α → Prop) :
    ReturnsUnless excused (.error e) P ↔ excused e := Iff.rfl

@[simp] theorem returnsUnless_pure : ReturnsUnless excused (pure a) P ↔ P a := Iff.rfl

@[simp] theorem returnsUnless_ok_bind (f : α → Except ε β) (P : β → Prop) :
    ReturnsUnless excused (.ok a >>= f) P ↔ ReturnsUnless excused (f a) P := Iff.rfl

theorem ReturnsUnless.bind {P : α → Prop} {Q : β → Prop} (hm : ReturnsUnless excused m P)
    (hf : ∀ a, P a → ReturnsUnless excused (f a) Q) : ReturnsUnless excused (m >>= f) Q := by
  cases m with
  | ok a => exact hf a hm
  | error e => exact hm

theorem ReturnsUnless.map {f : α → β} {P : β → Prop}
    (hm : ReturnsUnless excused m fun a => P (f a)) : ReturnsUnless excused (f <$> m) P := by
  cases m with
  | ok a => exact hm
  | error e => exact hm

theorem ReturnsUnless.mono {P Q : α → Prop} (hm : ReturnsUnless excused m P) (h : ∀ a, P a → Q a) :
    ReturnsUnless excused m Q := by
  cases m with
  | ok a => exact h a hm
  | error e => exact hm

end Outcome
