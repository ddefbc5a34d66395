import Mathlib.Algebra.Order.Ring.Nat

/-!
# Sparse data of an in-memory cache entry

The sparse data of an entry is split over child entries of four kilobytes each; the entry
itself is the child for the first of them.  A child has a vector of bytes and the position of
the first byte that was written to it.

The backend decides whether the data of a child may grow: it has a limit for the size of one
entry, and the storage of the cache may be exceeded.  The latter is a condition of the
environment here, given for each child that a call writes.
-/

namespace ChromiumBase.MemEntry

def kMaxChildEntryBits : ℕ := 12
def kMaxChildEntrySize : ℕ := 1 <<< kMaxChildEntryBits

def toChildIndex (offset : ℕ) : ℕ := offset >>> kMaxChildEntryBits
def toChildOffset (offset : ℕ) : ℕ := offset &&& (kMaxChildEntrySize - 1)

inductive NetError where
  | invalidArgument
  | failed
  | insufficientResources
  | cacheOperationNotSupported
deriving DecidableEq, Repr

structure Backend where
  alive : Bool
  maxFileSize : ℕ
  hasExceededStorageSize : ℕ → Bool

structure Child where
  data : List UInt8
  childFirstPos : ℕ
deriving DecidableEq

/-- The entry itself, which is the child of index zero, and the map of the other children,
which is not there before the first sparse operation. -/
structure MemEntryImpl where
  own : Child
  children : Option (ℕ → Option Child)

def resize (data : List UInt8) (n : ℕ) : List UInt8 :=
  data.take n ++ List.replicate (n - data.length) 0

def internalReadData (data : List UInt8) (offset bufLen : ℕ) : List UInt8 :=
  if data.length ≤ offset ∨ bufLen = 0 then []
  else
    let bufLen := if data.length < offset + bufLen then data.length - offset else bufLen
    (data.drop offset).take bufLen

def internalWriteData (b : Backend) (exceeded : Bool) (data : List UInt8) (offset : ℕ)
    (buf : List UInt8) (truncate : Bool) : Except NetError (List UInt8) :=
  let endOffset := offset + buf.length
  if !b.alive then .error .insufficientResources
  else if b.maxFileSize < offset ∨ b.maxFileSize < buf.length ∨ b.maxFileSize < endOffset then
    .error .failed
  else if truncate ∨ data.length < endOffset then
    if exceeded then .error .insufficientResources
    else
      let data := resize data endOffset
      .ok (data.take offset ++ buf ++ data.drop endOffset)
  else .ok (data.take offset ++ buf ++ data.drop endOffset)

namespace MemEntryImpl

def initSparseInfo (e : MemEntryImpl) : Option MemEntryImpl :=
  match e.children with
  | some _ => some e
  | none => if e.own.data.length ≠ 0 then none else some { e with children := some fun _ => none }

def getChild (e : MemEntryImpl) (index : ℕ) : Option Child :=
  match e.children with
  | none => none
  | some children => if index = 0 then some e.own else children index

def setChild (e : MemEntryImpl) (index : ℕ) (child : Child) : MemEntryImpl :=
  if index = 0 then { e with own := child }
  else { e with children := e.children.map fun c => Function.update c index (some child) }

/-- The loop of `InternalReadSparseData`, with the bytes that have been read.  Every round
reads at least one byte, so that as many rounds as bytes are enough. -/
def readChildren (e : MemEntryImpl) (offset : ℕ) : ℕ → List UInt8 → ℕ → List UInt8
  | 0, consumed, _ => consumed
  | fuel + 1, consumed, remaining =>
    if remaining = 0 then consumed
    else
      match e.getChild (toChildIndex (offset + consumed.length)) with
      | none => consumed
      | some child =>
        let childOffset := toChildOffset (offset + consumed.length)
        -- a position that the child has no data for
        if childOffset < child.childFirstPos then consumed
        else
          let read := internalReadData child.data childOffset remaining
          if read.length = 0 then consumed
          else readChildren e offset fuel (consumed ++ read) (remaining - read.length)

def internalReadSparseData (e : MemEntryImpl) (offset bufLen : ℤ) :
    MemEntryImpl × Except NetError (List UInt8) :=
  match e.initSparseInfo with
  | none => (e, .error .cacheOperationNotSupported)
  | some e =>
    if offset < 0 ∨ bufLen < 0 then (e, .error .invalidArgument)
    else
      let bufLen := (min bufLen (2 ^ 63 - 1 - offset)).toNat
      (e, .ok (e.readChildren offset.toNat bufLen [] bufLen))

/-- The loop of `InternalWriteSparseData`, with the number of bytes that have been written,
which is also given when a write to a child fails. -/
def writeChildren (b : Backend) (buf : ℕ → UInt8) (offset : ℕ) :
    ℕ → MemEntryImpl → ℕ → ℕ → MemEntryImpl × ℕ × Option NetError
  | 0, e, consumed, _ => (e, consumed, none)
  | fuel + 1, e, consumed, remaining =>
    if remaining = 0 then (e, consumed, none)
    else
      let index := toChildIndex (offset + consumed)
      let child := (e.getChild index).getD ⟨[], 0⟩
      let childOffset := toChildOffset (offset + consumed)
      let writeLen := min remaining (kMaxChildEntrySize - childOffset)
      let bytes := (List.range writeLen).map fun i => buf (consumed + i)
      match internalWriteData b (b.hasExceededStorageSize index) child.data childOffset bytes
        true with
      | .error err => (e.setChild index child, consumed, some err)
      | .ok data =>
        -- The first byte position is kept if the write was not continuous.
        let childFirstPos :=
          if child.data.length ≠ childOffset then childOffset else child.childFirstPos
        writeChildren b buf offset fuel (e.setChild index ⟨data, childFirstPos⟩)
          (consumed + writeLen) (remaining - writeLen)

def internalWriteSparseData (e : MemEntryImpl) (b : Backend) (offset : ℤ) (buf : ℕ → UInt8)
    (bufLen : ℤ) : MemEntryImpl × ℕ × Option NetError :=
  match e.initSparseInfo with
  | none => (e, 0, some .cacheOperationNotSupported)
  | some e =>
    if !b.alive then (e, 0, some .failed)
    else if offset < 0 ∨ bufLen < 0 ∨ 2 ^ 63 ≤ offset + bufLen then
      (e, 0, some .invalidArgument)
    else writeChildren b buf offset.toNat bufLen.toNat e 0 bufLen.toNat

end MemEntryImpl

end ChromiumBase.MemEntry
