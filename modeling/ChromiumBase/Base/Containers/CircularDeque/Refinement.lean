import ChromiumBase.Base.Containers.CircularDeque.Operations

/-!
# Deques behave as lists

Two deques take any operations of the class, in any order; two, so that they can
be swapped and assigned to each other. Beside them runs a pair of lists. As long
as positions are valid, no caller's count makes a sum of `size_t` overflow and no
argument refers into the deque, each deque behaves as its list.

The last two conditions are not ones that the class documents: `insert` of very
many elements overflows `size() + additional_elts`, and the deque then loses
elements instead of running out of memory; and an element of the deque that is
inserted again is read only when elements have been moved.
-/

open Outcome RingBuffer List

namespace ChromiumBase.CircularDeque

variable {α : Type} {s : CircularDeque α × CircularDeque α} {elemSize : ℕ+} {l : List α × List α}
  {d : CircularDeque α} {xs : List α}

/-- An argument of a call: an object outside the deque, or the element `at(i)`. -/
inductive Arg (α : Type) where
  | object (v : α)
  | element (i : ℕ)

namespace Arg

def ref (d : CircularDeque α) : Arg α → Ref α
  | object v => .object v
  | element i => .slot d.bufferId (d.iteratorAt i)

def copies (count : ℕ) (xs : List α) : Arg α → List α
  | object v => List.replicate count v
  | element i => (xs[i]?).toList.flatMap (List.replicate count)

def Outside : Arg α → Prop
  | object _ => True
  | element _ => False

end Arg

inductive Op (α : Type) where
  | emplaceFront (v : Arg α)
  | emplaceBack (v : Arg α)
  | popFront
  | popBack
  | emplace (pos : ℕ) (v : Arg α)
  | insertCount (pos : ℕ) (count : UInt64) (value : Arg α)
  | insertRange (pos : ℕ) (items : List α)
  | erase (first last : ℕ)
  | resize (count : UInt64) (value : Arg α)
  | reserve (newCapacity : UInt64)
  | shrinkToFit
  | clear
  | assignCount (count : UInt64) (value : Arg α)
  | assignRange (items : List α)
  | assignList (items : List α)

namespace Op

def exec (elemSize : ℕ+) : Op α → CircularDeque α → Except Crash (CircularDeque α)
  | emplaceFront v, d => d.emplaceFront elemSize (v.ref d)
  | emplaceBack v, d => d.emplaceBack elemSize (v.ref d)
  | popFront, d => d.popFront elemSize
  | popBack, d => d.popBack elemSize
  | emplace pos v, d => d.emplace elemSize pos (v.ref d)
  | insertCount pos count value, d => d.insertCount elemSize pos count.toNat (value.ref d)
  | insertRange pos items, d => d.insertRange elemSize pos items
  | erase first last, d => d.erase first last
  | resize count value, d => d.resize elemSize count.toNat (value.ref d)
  | reserve newCapacity, d => d.reserve elemSize newCapacity.toNat
  | shrinkToFit, d => d.shrinkToFit elemSize
  | clear, d => .ok d.clear
  | assignCount count value, d => d.assignCount elemSize count.toNat (value.ref d)
  | assignRange items, d => d.assignRange elemSize items
  | assignList items, d => d.assignList elemSize items

def onList : Op α → List α → List α
  | emplaceFront v, xs => v.copies 1 xs ++ xs
  | emplaceBack v, xs => xs ++ v.copies 1 xs
  | popFront, xs => xs.tail
  | popBack, xs => xs.dropLast
  | emplace pos v, xs => xs.take pos ++ v.copies 1 xs ++ xs.drop pos
  | insertCount pos count value, xs =>
    xs.take pos ++ value.copies count.toNat xs ++ xs.drop pos
  | insertRange pos items, xs => xs.take pos ++ items ++ xs.drop pos
  | erase first last, xs => xs.take first ++ xs.drop last
  | resize count value, xs =>
    xs.take count.toNat ++ value.copies (count.toNat - xs.length) xs
  | reserve _, xs => xs
  | shrinkToFit, xs => xs
  | clear, _ => []
  | assignCount count value, xs => value.copies count.toNat xs
  | assignRange items, _ => items
  | assignList items, _ => items

/-- What the class asks of its callers: iterators into the deque, in order, and
no `pop` from an empty one. -/
def Valid : Op α → List α → Prop
  | popFront, xs => xs ≠ []
  | popBack, xs => xs ≠ []
  | emplace pos _, xs => pos ≤ xs.length
  | insertCount pos _ _, xs => pos ≤ xs.length
  | insertRange pos _, xs => pos ≤ xs.length
  | erase first last, xs => first ≤ last ∧ last ≤ xs.length
  | _, _ => True

/-- The slots that are asked for, and the free one, fit in a `size_t`. -/
def NoOverflow : Op α → List α → Prop
  | insertCount _ count _, xs => xs.length + count.toNat + 1 < 2 ^ 64
  | insertRange _ items, xs => xs.length + items.length + 1 < 2 ^ 64
  | resize count _, _ => count.toNat + 1 < 2 ^ 64
  | reserve newCapacity, _ => newCapacity.toNat + 1 < 2 ^ 64
  | assignCount count _, _ => count.toNat + 1 < 2 ^ 64
  | assignList items, _ => items.length + 1 < 2 ^ 64
  | _, _ => True

def Separate : Op α → Prop
  | emplaceFront v => v.Outside
  | emplaceBack v => v.Outside
  | emplace _ v => v.Outside
  | insertCount _ _ value => value.Outside
  | resize _ value => value.Outside
  | assignCount _ value => value.Outside
  | _ => True

/-- Each operation does to the buffer what it does to the list. -/
theorem exec_represents (op : Op α) (h : Represents d xs) (hv : op.Valid xs)
    (hf : op.NoOverflow xs) (hsep : op.Separate) :
    ReturnsUnless OutOfMemory (op.exec elemSize d) fun d' => Represents d' (op.onList xs) := by
  cases op with
  | emplaceFront v =>
    cases v with
    | object v => exact h.emplaceFront v
    | element i => exact hsep.elim
  | emplaceBack v =>
    cases v with
    | object v => exact h.emplaceBack v
    | element i => exact hsep.elim
  | popFront =>
    obtain ⟨x, xs, rfl⟩ := exists_cons_of_ne_nil hv
    exact h.popFront
  | popBack =>
    have hxs := dropLast_append_getLast hv
    rw [← hxs] at h
    exact h.popBack
  | emplace pos v =>
    cases v with
    | object v => exact h.emplace v hv
    | element i => exact hsep.elim
  | insertCount pos count value =>
    cases value with
    | object v => exact h.insertCount v hv hf
    | element i => exact hsep.elim
  | insertRange pos items => exact h.insertRange hv hf
  | erase first last => exact h.erase hv.1 hv.2
  | resize count value =>
    cases value with
    | object v => exact h.resize v hf
    | element i => exact hsep.elim
  | reserve newCapacity => exact h.reserve hf
  | shrinkToFit => exact h.shrinkToFit
  | clear => exact .inr ⟨rfl, rfl, rfl⟩
  | assignCount count value =>
    cases value with
    | object v =>
      exact (h.clearRetainCapacity.reserve hf).bind fun _ hd => hd.repeatM_emplaceBack v _
    | element i => exact hsep.elim
  | assignRange items => exact h.assignRange items
  | assignList items => exact (h.reserve hf).bind fun _ hd => hd.assignRange items

end Op

inductive Step (α : Type) where
  | first (op : Op α)
  | second (op : Op α)
  | swap
  | copyAssign
  | moveAssign

namespace Step

def exec (elemSize : ℕ+) :
    Step α → CircularDeque α × CircularDeque α →
      Except Crash (CircularDeque α × CircularDeque α)
  | first op, (d, e) => do
      let d ← op.exec elemSize d
      pure (d, e)
  | second op, (d, e) => do
      let e ← op.exec elemSize e
      pure (d, e)
  | swap, (d, e) => .ok (e, d)
  | copyAssign, (d, e) => do
      let d ← CircularDeque.copyAssign elemSize e d
      pure (d, e)
  | moveAssign, (_, e) => .ok (e, empty)

def onLists : Step α → List α × List α → List α × List α
  | first op, (xs, ys) => (op.onList xs, ys)
  | second op, (xs, ys) => (xs, op.onList ys)
  | swap, (xs, ys) => (ys, xs)
  | copyAssign, (_, ys) => (ys, ys)
  | moveAssign, (_, ys) => (ys, [])

def Admissible : Step α → List α × List α → Prop
  | first op, (xs, _) => op.Valid xs ∧ op.NoOverflow xs ∧ op.Separate
  | second op, (_, ys) => op.Valid ys ∧ op.NoOverflow ys ∧ op.Separate
  | _, _ => True

theorem exec_represents (step : Step α) (h : Represents s.1 l.1 ∧ Represents s.2 l.2)
    (hadm : step.Admissible l) :
    ReturnsUnless OutOfMemory (step.exec elemSize s) fun s' =>
      Represents s'.1 (step.onLists l).1 ∧ Represents s'.2 (step.onLists l).2 := by
  obtain ⟨hd, he⟩ := h
  cases step with
  | first op => exact (op.exec_represents hd hadm.1 hadm.2.1 hadm.2.2).bind fun d' hd' => ⟨hd', he⟩
  | second op => exact (op.exec_represents he hadm.1 hadm.2.1 hadm.2.2).bind fun e' he' => ⟨hd, he'⟩
  | swap => exact ⟨he, hd⟩
  | copyAssign => exact (hd.copyAssign he).bind fun d' hd' => ⟨hd', he⟩
  | moveAssign => exact ⟨he, represents_empty⟩

end Step

def run (elemSize : ℕ+) (steps : List (Step α)) (s : CircularDeque α × CircularDeque α) :
    Except Crash (CircularDeque α × CircularDeque α) :=
  steps.foldlM (fun s step => step.exec elemSize s) s

def runLists (steps : List (Step α)) (l : List α × List α) : List α × List α :=
  steps.foldl (fun l step => step.onLists l) l

def RunAdmissible : List (Step α) → List α × List α → Prop
  | [], _ => True
  | step :: steps, l => step.Admissible l ∧ RunAdmissible steps (step.onLists l)

/-- Runs do what they do to the two lists, by induction over the steps. -/
theorem run_represents {steps : List (Step α)} (h : Represents s.1 l.1 ∧ Represents s.2 l.2)
    (hadm : RunAdmissible steps l) :
    ReturnsUnless OutOfMemory (run elemSize steps s) fun s' =>
      Represents s'.1 (runLists steps l).1 ∧ Represents s'.2 (runLists steps l).2 := by
  induction steps generalizing s l with
  | nil => exact h
  | cons step steps ih =>
    exact (step.exec_represents h hadm.1).bind fun s' hs' => ih hs' hadm.2

structure Behaves (d : CircularDeque α) (xs : List α) : Prop where
  toList_eq : d.toList = xs.map some
  size_eq : d.size = xs.length
  elemAt_eq : ∀ i, i < xs.length → d.elemAt i = xs[i]?
  inside : xs ≠ [] → d.beginIdx < d.buffer.length ∧ d.endIdx < d.buffer.length
  slot_free : d.size < d.buffer.length ∨ d.buffer = []

/-- What a user of the deque sees of the list it represents. -/
theorem Represents.behaves (h : Represents d xs) : Behaves d xs where
  toList_eq := h.toList_eq
  size_eq := h.size_eq
  elemAt_eq _ hi := h.elemAt_eq hi
  inside hne := by
    have hp := h.placed_of_lt (length_pos_iff.mpr hne)
    rw [hp.end_eq]
    exact ⟨hp.begin_lt, cell_lt hp.begin_lt hp.length_lt.le⟩
  slot_free := by
    rcases h with hp | ⟨hbuf, -, -⟩
    · rw [hp.size_eq]
      exact .inl hp.length_lt
    · exact .inr hbuf

/-- Starting from empty deques, every run of admissible steps ends with deques
that behave as the lists of the same run, unless memory runs out on the way. -/
theorem run_behaves (elemSize : ℕ+) (steps : List (Step α)) (hadm : RunAdmissible steps ([], [])) :
    ReturnsUnless OutOfMemory (run elemSize steps (empty, empty)) fun s =>
      Behaves s.1 (runLists steps ([], [])).1 ∧ Behaves s.2 (runLists steps ([], [])).2 :=
  (run_represents ⟨represents_empty, represents_empty⟩ hadm).mono
    fun _ hs => ⟨hs.1.behaves, hs.2.behaves⟩

theorem run_behaves_insert_swap : ReturnsUnless OutOfMemory
      (run 4 [.first (.assignList [1, 2]), .first (.insertCount 1 2 (.object 9)), .swap]
        (empty, empty))
      fun s => Behaves s.1 [] ∧ Behaves s.2 [1, 9, 9, 2] :=
  run_behaves 4 _ (by
    simp [RunAdmissible, Step.Admissible, Step.onLists, Op.Valid, Op.NoOverflow, Op.Separate,
      Arg.Outside, Op.onList])

/-- The fourth element is read when the elements behind the first have moved, so that the third
one is inserted; and a full deque has freed its buffer before its first element is read. -/
example :
    run 4 [.first (.assignList [1, 2, 3, 4]), .first (.reserve 8),
        .first (.emplace 1 (.element 3))] (empty, empty) =
      .ok (⟨[some 1, some 3, some 2, some 3, some 4, none, none, none, none], 0, 5, 2⟩, empty) ∧
    run 4 [.first (.assignList [1, 2, 3, 4]), .first (.emplaceBack (.element 0))] (empty, empty) =
      .error .undefined :=
  ⟨rfl, rfl⟩

/-- With `SIZE_MAX` copies to insert, `size() + additional_elts` and the indices
wrap around: nothing is inserted, and an element is lost. -/
theorem insertCount_wraps :
    run 4 [.first (.assignList [1, 2]), .first (.insertCount 1 (-1) (.object 9))]
      (empty, empty) = .ok (⟨[some 2, some 2, none], 0, 1, 1⟩, empty) ∧
    (runLists [.first (.assignList [1, 2]), .first (.insertCount 1 (-1) (.object 9))]
      ([], [])).1.length = 2 ^ 64 + 1 := by
  refine ⟨rfl, ?_⟩
  simp only [runLists, List.foldl, Step.onLists, Op.onList, Arg.copies, length_append,
    length_replicate]
  rfl

end ChromiumBase.CircularDeque
