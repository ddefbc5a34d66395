import ChromiumBase.Lib.HeapOrder

/-!
# `IntrusiveHeap`

The heap of `base/containers/intrusive_heap.h`. Each element carries the
identity of the place where its handle is stored; the handles themselves are a
map from these identities to indices, so that a handle follows its element
wherever the element is moved, and stays behind when the element is removed.

Elements are moved through a hole. The slot of the hole keeps the element that
was last moved out of it; nothing reads that slot before it is filled again.
-/

namespace ChromiumBase

structure Element (ι α : Type*) where
  id : ι
  value : α
  deriving DecidableEq, Repr

/-- The vector of elements, and the handle stored for each identity; an invalid
handle is `none`. -/
structure IntrusiveHeap (ι α : Type*) where
  heap : List (Element ι α)
  handles : ι → Option ℕ

namespace IntrusiveHeap

variable {ι α : Type*} [DecidableEq ι]

def empty : IntrusiveHeap ι α := ⟨[], fun _ => none⟩

def size (s : IntrusiveHeap ι α) : ℕ := s.heap.length

def setHeapHandle (i : ℕ) (s : IntrusiveHeap ι α) : IntrusiveHeap ι α :=
  match s.heap[i]? with
  | some e => { s with handles := Function.update s.handles e.id (some i) }
  | none => s

def clearHeapHandle (i : ℕ) (s : IntrusiveHeap ι α) : IntrusiveHeap ι α :=
  match s.heap[i]? with
  | some e => { s with handles := Function.update s.handles e.id none }
  | none => s

def makeHole (pos : ℕ) (s : IntrusiveHeap ι α) : IntrusiveHeap ι α :=
  clearHeapHandle pos s

/-- Assign to a slot, which may be the one past the end. -/
def place (pos : ℕ) (e : Element ι α) (heap : List (Element ι α)) : List (Element ι α) :=
  if pos = heap.length then heap ++ [e] else heap.set pos e

def fillHole (holePos : ℕ) (e : Element ι α) (s : IntrusiveHeap ι α) :
    IntrusiveHeap ι α :=
  setHeapHandle holePos { s with heap := place holePos e s.heap }

def moveHole (newHolePos oldHolePos : ℕ) (s : IntrusiveHeap ι α) : IntrusiveHeap ι α :=
  match s.heap[newHolePos]? with
  | some e => setHeapHandle oldHolePos { s with heap := place oldHolePos e s.heap }
  | none => s

section Compare

variable (less : α → α → Bool)

def lessAt (i j : ℕ) (s : IntrusiveHeap ι α) : Bool :=
  match s.heap[i]?, s.heap[j]? with
  | some a, some b => less a.value b.value
  | _, _ => false

def lessThanAt (e : Element ι α) (i : ℕ) (s : IntrusiveHeap ι α) : Bool :=
  match s.heap[i]? with
  | some a => less e.value a.value
  | none => false

def lessAtThan (i : ℕ) (e : Element ι α) (s : IntrusiveHeap ι α) : Bool :=
  match s.heap[i]? with
  | some a => less a.value e.value
  | none => false

/-- The loop of `MoveHoleUpAndFill`: where the hole ends and what is left around
it. The hole position is at least halved in every step. -/
def moveHoleUpLoop : ℕ → ℕ → Element ι α → IntrusiveHeap ι α → ℕ × IntrusiveHeap ι α
  | 0, holePos, _, s => (holePos, s)
  | fuel + 1, holePos, e, s =>
    if holePos ≠ 0 ∧ lessAtThan less (HeapOrder.parent holePos) e s then
      moveHoleUpLoop fuel (HeapOrder.parent holePos) e
        (moveHole (HeapOrder.parent holePos) holePos s)
    else
      (holePos, s)

def moveHoleUpAndFill (holePos : ℕ) (e : Element ι α) (s : IntrusiveHeap ι α) :
    ℕ × IntrusiveHeap ι α :=
  let out := moveHoleUpLoop less holePos holePos e s
  (out.1, fillHole out.1 e out.2)

/-- The larger of the children of the hole, where only the slots below `n`
count. -/
def largestChild (n holePos : ℕ) (s : IntrusiveHeap ι α) : ℕ :=
  let left := 2 * holePos + 1
  if left + 1 < n ∧ lessAt less left (left + 1) s then left + 1 else left

/-- The loop of `MoveHoleDownAndFill`. With `isLeaf` the hole goes down to a
leaf whatever the element is. -/
def moveHoleDownLoop (isLeaf : Bool) (n : ℕ) :
    ℕ → ℕ → Element ι α → IntrusiveHeap ι α → ℕ × IntrusiveHeap ι α
  | 0, holePos, _, s => (holePos, s)
  | fuel + 1, holePos, e, s =>
    let largest := largestChild less n holePos s
    if 2 * holePos + 1 ≥ n then
      (holePos, s)
    else if isLeaf = false ∧ lessThanAt less e largest s = false then
      (holePos, s)
    else
      moveHoleDownLoop isLeaf n fuel largest e (moveHole largest holePos s)

/-- A leaf is about to be erased, so its slot is left out; having come down to the bottom it may
have to go up again. -/
def moveHoleDownAndFill (isLeaf : Bool) (holePos : ℕ) (e : Element ι α)
    (s : IntrusiveHeap ι α) : ℕ × IntrusiveHeap ι α :=
  let n := s.size - (if isLeaf then 1 else 0)
  let out := moveHoleDownLoop less isLeaf n n holePos e s
  if isLeaf then
    moveHoleUpAndFill less out.1 e out.2
  else
    (out.1, fillHole out.1 e out.2)

def insertImpl (e : Element ι α) (s : IntrusiveHeap ι α) : ℕ × IntrusiveHeap ι α :=
  moveHoleUpAndFill less s.size e s

def erase (pos : ℕ) (s : IntrusiveHeap ι α) : IntrusiveHeap ι α :=
  let s := makeHole pos s
  let s := if pos ≠ s.size - 1 then
      let s := makeHole (s.size - 1) s
      match s.heap[s.size - 1]? with
      | some last => (moveHoleDownAndFill less true pos last s).2
      | none => s
    else s
  { s with heap := s.heap.dropLast }

def take (pos : ℕ) (s : IntrusiveHeap ι α) : Option (Element ι α) × IntrusiveHeap ι α :=
  (s.heap[pos]?, erase less pos s)

/-- The element is compared with the one it replaces, whose slot is a hole already. -/
def replaceImpl (pos : ℕ) (e : Element ι α) (s : IntrusiveHeap ι α) :
    ℕ × IntrusiveHeap ι α :=
  let s := makeHole pos s
  if lessThanAt less e pos s = false then
    moveHoleUpAndFill less pos e s
  else
    moveHoleDownAndFill less false pos e s

def replaceTopImpl (e : Element ι α) (s : IntrusiveHeap ι α) : ℕ × IntrusiveHeap ι α :=
  moveHoleDownAndFill less false 0 e (makeHole 0 s)

def update (pos : ℕ) (s : IntrusiveHeap ι α) : ℕ × IntrusiveHeap ι α :=
  let s := makeHole pos s
  match s.heap[pos]? with
  | some e =>
    if pos > 0 ∧ lessAt less pos (HeapOrder.parent pos) s = false then
      moveHoleUpAndFill less pos e s
    else
      moveHoleDownAndFill less false pos e s
  | none => (pos, s)

end Compare

def clear (s : IntrusiveHeap ι α) : IntrusiveHeap ι α :=
  let s := (List.range s.size).foldl (fun s i => clearHeapHandle i s) s
  { s with heap := [] }

/-- Give the element at `pos` a new value, as the owner of the element does
before it calls `Update`. -/
def setValue (pos : ℕ) (value : α) (s : IntrusiveHeap ι α) : IntrusiveHeap ι α :=
  match s.heap[pos]? with
  | some e => { s with heap := s.heap.set pos { e with value := value } }
  | none => s

inductive Op (ι α : Type*) where
  | insert (e : Element ι α)
  | emplace (e : Element ι α)
  | erase (pos : ℕ)
  | take (pos : ℕ)
  | replace (pos : ℕ) (e : Element ι α)
  | replaceTop (e : Element ι α)
  | update (pos : ℕ) (value : α)
  | clear

/-- What the caller has to respect: positions lie in the heap, and an element
that is put in is not in the heap already. -/
def Op.Valid (s : IntrusiveHeap ι α) : Op ι α → Prop
  | .insert e | .emplace e => s.handles e.id = none
  | .erase pos | .take pos | .update pos _ => pos < s.size
  | .replace pos e => pos < s.size ∧ (makeHole pos s).handles e.id = none
  | .replaceTop e => 0 < s.size ∧ (makeHole 0 s).handles e.id = none
  | .clear => True

instance (s : IntrusiveHeap ι α) : (op : Op ι α) → Decidable (op.Valid s)
  | .insert e | .emplace e => inferInstanceAs (Decidable (s.handles e.id = none))
  | .erase pos | .take pos | .update pos _ => inferInstanceAs (Decidable (pos < s.size))
  | .replace pos e =>
    inferInstanceAs (Decidable (pos < s.size ∧ (makeHole pos s).handles e.id = none))
  | .replaceTop e =>
    inferInstanceAs (Decidable (0 < s.size ∧ (makeHole 0 s).handles e.id = none))
  | .clear => inferInstanceAs (Decidable True)

def Op.apply (less : α → α → Bool) (s : IntrusiveHeap ι α) : Op ι α → IntrusiveHeap ι α
  | .insert e => (insertImpl less e s).2
  | .emplace e => (insertImpl less e s).2
  | .erase pos => IntrusiveHeap.erase less pos s
  | .take pos => (IntrusiveHeap.take less pos s).2
  | .replace pos e => (replaceImpl less pos e s).2
  | .replaceTop e => (replaceTopImpl less e s).2
  | .update pos value => (IntrusiveHeap.update less pos (setValue pos value s)).2
  | .clear => IntrusiveHeap.clear s

/-- A sequence of calls; there is no result when one of them is not valid. -/
def run (less : α → α → Bool) : List (Op ι α) → IntrusiveHeap ι α →
    Option (IntrusiveHeap ι α)
  | [], s => some s
  | op :: ops, s => if op.Valid s then run less ops (op.apply less s) else none

end IntrusiveHeap

end ChromiumBase
