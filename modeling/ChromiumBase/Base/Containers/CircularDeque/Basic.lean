import ChromiumBase.Lib.Outcome
import Mathlib.Algebra.Group.Nat.Defs
import Mathlib.Data.PNat.Defs

/-!
# `circular_deque`

The deque of `base/containers/circular_deque.h`. Its buffer has one slot more
than the deque has capacity, so that a full deque and an empty one differ in
their indices. A slot holds an object or nothing; destroying an object or moving
from it leaves the slot as it is, as for a type that is trivially copyable.

An argument is passed by reference, and read only when the new object is
constructed. If it refers to an element of the deque, the slot may hold another
one by then, or its buffer may be gone.

Indices and counts are `size_t`: where a caller's count enters a sum, the sum is
taken modulo `2 ^ 64`. An allocation of `2 ^ 63` bytes or more fails and ends the
program; so does everything else that has no defined result, but that is kept
apart, as `undefined`.
-/

namespace ChromiumBase

inductive Crash where
  | outOfMemory
  | undefined
  deriving DecidableEq, Repr

/-- The fields of `circular_deque`; the length of `buffer` is its capacity.
`bufferId` stands for its address: it counts the buffers so far. -/
structure CircularDeque (α : Type) where
  buffer : List (Option α)
  beginIdx : ℕ
  endIdx : ℕ
  bufferId : ℕ
  deriving DecidableEq, Repr

namespace CircularDeque

variable {α : Type}

def initialCapacity : ℕ := 3

def sum (a b : ℕ) : ℕ := (a + b) % 2 ^ 64

def empty : CircularDeque α := ⟨[], 0, 0, 0⟩

section

variable (d : CircularDeque α)

def capacity : ℕ :=
  if d.buffer.length = 0 then 0 else d.buffer.length - 1

def size : ℕ :=
  if d.beginIdx ≤ d.endIdx then d.endIdx - d.beginIdx
  else d.buffer.length - d.beginIdx + d.endIdx

def slot (i : ℕ) : Option α := (d.buffer[i]?).join

def elemAt (i : ℕ) : Option α :=
  let rightSize := d.buffer.length - d.beginIdx
  if d.beginIdx ≤ d.endIdx ∨ i < rightSize then d.slot (d.beginIdx + i)
  else d.slot (i - rightSize)

/-- The buffer, read cyclically from `begin_` to `end_`. -/
def toList : List (Option α) :=
  (List.range d.size).map fun i => d.slot ((d.beginIdx + i) % d.buffer.length)

/-! ## Iterators

An iterator is the index of a slot. -/

def offsetFromBegin (index : ℕ) : ℕ :=
  if index ≥ d.beginIdx then index - d.beginIdx
  else d.buffer.length - d.beginIdx + index

def increment (index : ℕ) : ℕ :=
  if index + 1 = d.buffer.length then 0 else index + 1

def decrement (index : ℕ) : ℕ :=
  if index = 0 then d.buffer.length - 1 else index - 1

/-- `begin() + delta`; adding 0 must not divide by the capacity. -/
def iteratorAt (delta : ℕ) : ℕ :=
  if delta = 0 then d.beginIdx else (delta + d.beginIdx) % d.buffer.length

/-- What an argument refers to: an object outside the deque, or a slot. -/
inductive Ref (α : Type) where
  | object (v : α)
  | slot (bufferId i : ℕ)

/-- A slot of a buffer that has been freed cannot be read. -/
def Ref.read (d : CircularDeque α) : Ref α → Except Crash α
  | object v => .ok v
  | slot bufferId i =>
    match d.slot i with
    | some v => if bufferId = d.bufferId then .ok v else .error .undefined
    | none => .error .undefined

/-- `VectorBuffer(count)` for elements of `elemSize` bytes. -/
def newBuffer (elemSize : ℕ+) (count : ℕ) : Except Crash (List (Option α)) :=
  if elemSize * count < 2 ^ 63 then .ok (List.replicate count none)
  else .error .outOfMemory

def moveRange (fromBuf : List (Option α)) (fromBegin fromEnd : ℕ) (toBuf : List (Option α))
    (dest : ℕ) : Except Crash (List (Option α)) :=
  let n := fromEnd - fromBegin
  if fromBegin ≤ fromEnd ∧ fromEnd ≤ fromBuf.length ∧ dest + n ≤ toBuf.length then
    .ok (toBuf.take dest ++ (fromBuf.drop fromBegin).take n ++ toBuf.drop (dest + n))
  else
    .error .undefined

def moveSlot (src dest : ℕ) (d : CircularDeque α) : Except Crash (CircularDeque α) :=
  match d.buffer[src]? with
  | some (some v) =>
    if dest < d.buffer.length ∧ dest ≠ src then
      .ok { d with buffer := d.buffer.set dest (some v) }
    else .error .undefined
  | _ => .error .undefined

def construct (i : ℕ) (v : α) (d : CircularDeque α) : Except Crash (CircularDeque α) :=
  if i < d.buffer.length then .ok { d with buffer := d.buffer.set i (some v) }
  else .error .undefined

/-- The object is constructed from what the argument refers to now. -/
def constructFrom (i : ℕ) (ref : Ref α) (d : CircularDeque α) :
    Except Crash (CircularDeque α) := do
  let v ← ref.read d
  construct i v d

def moveBuffer (toBuf : List (Option α)) :
    Except Crash (CircularDeque α) :=
  if d.beginIdx < d.endIdx then do
    let buf ← moveRange d.buffer d.beginIdx d.endIdx toBuf 0
    pure ⟨buf, 0, d.endIdx - d.beginIdx, d.bufferId + 1⟩
  else if d.beginIdx > d.endIdx then do
    let buf ← moveRange d.buffer d.beginIdx d.buffer.length toBuf 0
    let rightSize := d.buffer.length - d.beginIdx
    let buf ← moveRange d.buffer 0 d.endIdx buf rightSize
    pure ⟨buf, 0, rightSize + d.endIdx, d.bufferId + 1⟩
  else
    pure ⟨toBuf, 0, 0, d.bufferId + 1⟩

end

section Operations

variable (elemSize : ℕ+)

/-- The slot that stays free is added to the capacity. -/
def setCapacityTo (newCapacity : ℕ) (d : CircularDeque α) :
    Except Crash (CircularDeque α) := do
  let newBuf ← newBuffer elemSize (sum newCapacity 1)
  moveBuffer d newBuf

def expandCapacityIfNecessary (additionalElts : ℕ) (d : CircularDeque α) :
    Except Crash (CircularDeque α) :=
  let minNewCapacity := sum d.size additionalElts
  if d.capacity ≥ minNewCapacity then
    .ok d
  else
    let minNewCapacity := max minNewCapacity initialCapacity
    setCapacityTo elemSize (max minNewCapacity (sum d.capacity (d.capacity / 4))) d

section

variable (d : CircularDeque α)

def shrinkCapacityIfNecessary : Except Crash (CircularDeque α) :=
  if d.capacity ≤ initialCapacity then
    .ok d
  else if d.capacity - d.size < d.size then
    .ok d
  else
    let newCapacity := max initialCapacity (sum d.size (d.size / 4))
    if newCapacity < d.capacity then setCapacityTo elemSize newCapacity d else .ok d

def reserve (newCapacity : ℕ) (d : CircularDeque α) : Except Crash (CircularDeque α) :=
  if newCapacity > d.capacity then setCapacityTo elemSize newCapacity d else .ok d

/-- The indices of an empty deque stay as they are. -/
def shrinkToFit : Except Crash (CircularDeque α) :=
  if d.beginIdx = d.endIdx then .ok { d with buffer := [], bufferId := d.bufferId + 1 }
  else setCapacityTo elemSize d.size d

def clearRetainCapacity : CircularDeque α :=
  { d with beginIdx := 0, endIdx := 0 }

def clear : CircularDeque α :=
  { clearRetainCapacity d with buffer := [], bufferId := d.bufferId + 1 }

def emplaceFront (ref : Ref α) (d : CircularDeque α) : Except Crash (CircularDeque α) := do
  let d ← expandCapacityIfNecessary elemSize 1 d
  let begin := if d.beginIdx = 0 then d.buffer.length - 1 else d.beginIdx - 1
  constructFrom begin ref { d with beginIdx := begin }

def emplaceBack (ref : Ref α) (d : CircularDeque α) : Except Crash (CircularDeque α) := do
  let d ← expandCapacityIfNecessary elemSize 1 d
  let d ← constructFrom d.endIdx ref d
  pure { d with
    endIdx := if d.endIdx = d.buffer.length - 1 then 0 else d.endIdx + 1 }

def popFront : Except Crash (CircularDeque α) :=
  let begin := if d.beginIdx + 1 = d.buffer.length then 0 else d.beginIdx + 1
  shrinkCapacityIfNecessary elemSize { d with beginIdx := begin }

def popBack : Except Crash (CircularDeque α) :=
  let endIdx := if d.endIdx = 0 then d.buffer.length - 1 else d.endIdx - 1
  shrinkCapacityIfNecessary elemSize { d with endIdx := endIdx }

end

def repeatM (f : CircularDeque α → Except Crash (CircularDeque α)) :
    ℕ → CircularDeque α → Except Crash (CircularDeque α)
  | 0, d => .ok d
  | count + 1, d => f d >>= repeatM f count

def resizeLoop (count : ℕ) (value : Ref α) :
    ℕ → CircularDeque α → Except Crash (CircularDeque α)
  | 0, _ => .error .undefined
  | fuel + 1, d =>
    if d.size < count then emplaceBack elemSize value d >>= resizeLoop count value fuel
    else .ok d

/-- `resize`, to `count` elements; `value` is the one to append, or what the
default constructor makes. -/
def resize (count : ℕ) (value : Ref α) (d : CircularDeque α) :
    Except Crash (CircularDeque α) :=
  if count > d.size then do
    let d ← expandCapacityIfNecessary elemSize (count - d.size) d
    resizeLoop elemSize count value (count + 1) d
  else if count < d.size then
    if d.buffer.length = 0 then .error .undefined
    else shrinkCapacityIfNecessary elemSize
      { d with endIdx := sum d.beginIdx count % d.buffer.length }
  else
    .ok d

/-- The loop of `MakeRoomFor`, which moves elements to the right, last one
first. -/
def makeRoomLoop (insertBegin : ℕ) :
    ℕ → ℕ → ℕ → CircularDeque α → Except Crash (CircularDeque α)
  | 0, _, _, _ => .error .undefined
  | fuel + 1, src, dest, d =>
    if src = insertBegin then
      .ok d
    else do
      let d ← moveSlot (d.decrement src) (d.decrement dest) d
      makeRoomLoop insertBegin fuel (d.decrement src) (d.decrement dest) d

/-- The first slot of the new room, the slot behind it, and the deque. -/
def makeRoomFor (count insertBegin : ℕ) (d : CircularDeque α) :
    Except Crash (ℕ × ℕ × CircularDeque α) :=
  if count = 0 then
    .ok (insertBegin, insertBegin, d)
  else do
    let beginOffset := d.offsetFromBegin insertBegin
    let d ← expandCapacityIfNecessary elemSize count d
    if d.buffer.length = 0 then .error .undefined
    else
      let insertBegin := (d.beginIdx + beginOffset) % d.buffer.length
      let insertEnd := sum insertBegin count % d.buffer.length
      let src := d.endIdx
      let dest := sum d.endIdx count % d.buffer.length
      let d ← makeRoomLoop insertBegin (d.buffer.length + 1) src dest
        { d with endIdx := dest }
      .ok (insertBegin, insertEnd, d)

/-- The loops that construct the inserted objects, from the slot `cur` to the
slot `insertEnd`; `next k` is what the `k`-th object is constructed from. -/
def fillLoop (insertEnd : ℕ) (next : ℕ → Option (Ref α)) :
    ℕ → ℕ → ℕ → CircularDeque α → Except Crash (CircularDeque α)
  | 0, _, _, _ => .error .undefined
  | fuel + 1, k, cur, d =>
    if d.offsetFromBegin cur < d.offsetFromBegin insertEnd then
      match next k with
      | some ref => do
          let d ← constructFrom cur ref d
          fillLoop insertEnd next fuel (k + 1) (d.increment cur) d
      | none => .error .undefined
    else
      .ok d

def insertCount (pos count : ℕ) (value : Ref α) (d : CircularDeque α) :
    Except Crash (CircularDeque α) :=
  let index := d.iteratorAt pos
  if index = d.beginIdx then do
    let d ← expandCapacityIfNecessary elemSize count d
    repeatM (emplaceFront elemSize value) count d
  else do
    let (cur, insertEnd, d) ← makeRoomFor elemSize count index d
    fillLoop insertEnd (fun _ => some value) (d.buffer.length + 1) 0 cur d

/-- `insert(pos, first, last)` for the objects `items` outside the deque. -/
def insertRange (pos : ℕ) (items : List α) (d : CircularDeque α) :
    Except Crash (CircularDeque α) :=
  let index := d.iteratorAt pos
  if items.length = 0 then
    .ok d
  else if index = d.beginIdx then do
    let d ← expandCapacityIfNecessary elemSize items.length d
    if d.buffer.length = 0 then .error .undefined
    else
      let insertEnd := d.beginIdx
      let begin := sum (sum d.beginIdx d.buffer.length) (2 ^ 64 - items.length) %
        d.buffer.length
      fillLoop insertEnd (fun k => (items[k]?).map .object) (d.buffer.length + 1) 0 begin
        { d with beginIdx := begin }
  else do
    let (cur, insertEnd, d) ← makeRoomFor elemSize items.length index d
    fillLoop insertEnd (fun k => (items[k]?).map .object) (d.buffer.length + 1) 0 cur d

/-- `emplace`, and `insert` of one object. -/
def emplace (pos : ℕ) (ref : Ref α) (d : CircularDeque α) : Except Crash (CircularDeque α) :=
  let index := d.iteratorAt pos
  if index = d.beginIdx then
    emplaceFront elemSize ref d
  else do
    let (insertBegin, _, d) ← makeRoomFor elemSize 1 index d
    constructFrom insertBegin ref d

/-- The loop of `erase`, which moves elements to the left: the slot behind the
last one moved, and the deque. -/
def eraseLoop (srcEnd : ℕ) :
    ℕ → ℕ → ℕ → CircularDeque α → Except Crash (ℕ × CircularDeque α)
  | 0, _, _, _ => .error .undefined
  | fuel + 1, src, dest, d =>
    if d.offsetFromBegin src < d.offsetFromBegin srcEnd then do
      let d ← moveSlot src dest d
      eraseLoop srcEnd fuel (d.increment src) (d.increment dest) d
    else
      .ok (dest, d)

def erase (first last : ℕ) (d : CircularDeque α) : Except Crash (CircularDeque α) :=
  let firstIdx := d.iteratorAt first
  let lastIdx := d.iteratorAt last
  if firstIdx = lastIdx then
    .ok d
  else if firstIdx = d.beginIdx then
    .ok { d with beginIdx := lastIdx }
  else do
    let (endIdx, d) ← eraseLoop d.endIdx (d.buffer.length + 1) lastIdx firstIdx d
    pure { d with endIdx := endIdx }

def assignCount (count : ℕ) (value : Ref α) (d : CircularDeque α) :
    Except Crash (CircularDeque α) := do
  let d ← reserve elemSize count (clearRetainCapacity d)
  repeatM (emplaceBack elemSize value) count d

def assignRange (items : List α) (d : CircularDeque α) : Except Crash (CircularDeque α) :=
  items.foldlM (fun d v => emplaceBack elemSize (.object v) d) (clearRetainCapacity d)

def assignList (items : List α) (d : CircularDeque α) : Except Crash (CircularDeque α) := do
  let d ← reserve elemSize items.length d
  assignRange elemSize items d

def copyAssign (other d : CircularDeque α) : Except Crash (CircularDeque α) := do
  let d ← reserve elemSize other.size d
  match other.toList.mapM id with
  | some items => assignRange elemSize items d
  | none => .error .undefined

end Operations

end CircularDeque

end ChromiumBase
