import Mathlib.Logic.Function.Basic
import Mathlib.Logic.Relation
import Mathlib.Data.Nat.Notation

/-!
# Calls that share a memory

A call is a sequence of atomic accesses to a shared memory.  Between two of them it is
described by what it will do next (its program point and local variables), and `action` says
which access comes next and how the call goes on with the value it finds.  Any number of
calls are in progress; each step of the system performs one access of one of them, or starts
a new call.  A call that is never chosen again is one whose thread has stopped.

Several calls made one after the other by a thread are calls of the system that happen not
to overlap, so nothing is lost by giving each call its own index.

`Holds.update` is the proof rule of this library: an assertion about the memory, one about each
call, and one about each pair of calls.  It suffices that a step keeps the first two for the
call that makes it and does not disturb those of the others.
-/

namespace SharedMemory

variable {A V L G : Type*} {m : A → V}

/-- The next access of a call: look at the memory and change nothing, or replace the value
of one cell by a function of it. -/
inductive Action (A V L : Type*)
  | read (resume : (A → V) → L)
  | modify (a : A) (f : V → V) (resume : V → L)
  | halt

namespace Action

def load (a : A) (resume : V → L) : Action A V L :=
  .read fun m => resume (m a)

def store (a : A) (v : V) (l : L) : Action A V L :=
  .modify a (fun _ => v) fun _ => l

/-- Compare-and-exchange: `failed` gets the value that was found instead. -/
def exchange [DecidableEq V] (a : A) (expected desired : V) (done : L) (failed : V → L) :
    Action A V L :=
  .modify a (fun v => if v = expected then desired else v)
    fun v => if v = expected then done else failed v

variable [DecidableEq A]

def perform : Action A V L → (A → V) → Option ((A → V) × L)
  | .read resume, m => some (m, resume m)
  | .modify a f resume, m => some (Function.update m a (f (m a)), resume (m a))
  | .halt, _ => none

def Ensures : Action A V L → (A → V) → ((A → V) → L → Prop) → Prop
  | .read resume, m, Q => Q m (resume m)
  | .modify a f resume, m, Q => Q (Function.update m a (f (m a))) (resume (m a))
  | .halt, _, _ => True

namespace Ensures

variable {m' : A → V} {l' : L} {Q : (A → V) → L → Prop}

theorem of_perform {x : Action A V L} (h : x.Ensures m Q)
    (hp : x.perform m = some (m', l')) : Q m' l' := by
  cases x with
  | read resume =>
    cases hp
    exact h
  | modify a f resume =>
    cases hp
    exact h
  | halt => cases hp

theorem read {resume : (A → V) → L} (h : Q m (resume m)) : (Action.read resume).Ensures m Q := h

theorem exchange [DecidableEq V] {a : A} {expected desired : V} {done : L} {failed : V → L}
    (hd : m a = expected → Q (Function.update m a desired) done)
    (hf : m a ≠ expected → Q m (failed (m a))) :
    (Action.exchange a expected desired done failed).Ensures m Q := by
  by_cases he : m a = expected
  · simpa [Action.exchange, Ensures, he] using hd he
  · simpa [Action.exchange, Ensures, he] using hf he

end Ensures

end Action

structure Config (A V L : Type*) where
  memory : A → V
  call : ℕ → L

/-- An assertion about the memory, one about each call, and one about each pair, with an
auxiliary value `g` that they share. -/
structure Holds (I : G → (A → V) → Prop) (P : G → (A → V) → L → Prop) (R : L → L → Prop)
    (g : G) (c : Config A V L) : Prop where
  shared : I g c.memory
  call : ∀ i, P g c.memory (c.call i)
  pair : ∀ i j, i ≠ j → R (c.call i) (c.call j)

/-- What a change of the memory and of call `i` has to keep. -/
structure Kept (I : G → (A → V) → Prop) (P : G → (A → V) → L → Prop) (R : L → L → Prop)
    (c : Config A V L) (i : ℕ) (g : G) (m : A → V) (l : L) (g' : G) : Prop where
  shared : I g' m
  own : P g' m l
  others : ∀ j, j ≠ i → P g c.memory (c.call j) → R (c.call i) (c.call j) →
    P g' m (c.call j) ∧ R l (c.call j)

section Rule

variable {I : G → (A → V) → Prop} {P : G → (A → V) → L → Prop} {R : L → L → Prop} {c : Config A V L}
  {i : ℕ} {l : L}

/-- The assertions hold after a step that keeps them. -/
theorem Holds.update (hs : ∀ l k, R l k → R k l) {g g' : G} (h : Holds I P R g c)
    (hk : Kept I P R c i g m l g') : Holds I P R g' ⟨m, Function.update c.call i l⟩ := by
  have ho : ∀ j, j ≠ i → P g' m (c.call j) ∧ R l (c.call j) := fun j hj =>
    hk.others j hj (h.call j) (h.pair i j (Ne.symm hj))
  refine ⟨hk.shared, fun j => ?_, fun j k hjk => ?_⟩
  · by_cases hj : j = i
    · subst hj
      simpa using hk.own
    · simpa [hj] using (ho j hj).1
  · by_cases hj : j = i <;> by_cases hki : k = i
    · exact absurd (hj.trans hki.symm) hjk
    · subst hj
      simpa [hki] using (ho k hki).2
    · subst hki
      simpa [hj] using hs _ _ (ho j hj).2
    · simpa [hj, hki] using h.pair j k hjk

end Rule

section Run

variable [DecidableEq A] (action : L → Action A V L) (idle : L) (start : Config A V L → L → Prop)

inductive Step : Config A V L → Config A V L → Prop
  | run {c : Config A V L} (i : ℕ) {m : A → V} {l : L}
      (h : (action (c.call i)).perform c.memory = some (m, l)) :
      Step c ⟨m, Function.update c.call i l⟩
  | start {c : Config A V L} (i : ℕ) {l : L} (hidle : c.call i = idle) (h : start c l) :
      Step c ⟨c.memory, Function.update c.call i l⟩

def advance (c : Config A V L) (i : ℕ) : Config A V L :=
  match (action (c.call i)).perform c.memory with
  | some (m, l) => ⟨m, Function.update c.call i l⟩
  | none => c

def schedule (c : Config A V L) (calls : List ℕ) : Config A V L :=
  calls.foldl (advance action) c

variable {action idle start}

theorem reflTransGen_schedule (c : Config A V L) (calls : List ℕ) :
    Relation.ReflTransGen (Step action idle start) c (schedule action c calls) := by
  induction calls generalizing c with
  | nil => exact .refl
  | cons i calls ih =>
    refine .trans ?_ (ih (advance action c i))
    unfold advance
    split
    · next m l h => exact .single (.run i h)
    · exact .refl

theorem schedule_call (c : Config A V L) {calls : List ℕ} {j : ℕ} (hj : j ∉ calls) :
    (schedule action c calls).call j = c.call j := by
  induction calls generalizing c with
  | nil => rfl
  | cons i calls ih =>
    rw [List.mem_cons, not_or] at hj
    have hi : (advance action c i).call j = c.call j := by
      unfold advance
      split
      · exact Function.update_of_ne hj.1 _ _
      · rfl
    exact (ih (advance action c i) hj.2).trans hi

/-- An assertion that every step keeps holds in every state reached. -/
theorem invariant_of_step {Inv : Config A V L → Prop} {c₀ c : Config A V L} (h₀ : Inv c₀)
    (hst : ∀ c c', Inv c → Step action idle start c c' → Inv c')
    (h : Relation.ReflTransGen (Step action idle start) c₀ c) : Inv c := by
  induction h with
  | refl => exact h₀
  | tail _ hs ih => exact hst _ _ ih hs

end Run

end SharedMemory
