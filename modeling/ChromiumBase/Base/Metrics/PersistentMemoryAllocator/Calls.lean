import ChromiumBase.Lib.SharedMemory
import ChromiumBase.Base.Metrics.PersistentMemoryAllocator.Iterator

/-!
# The calls of threads that share a segment

`Allocate`, `MakeIterable`, the construction of an `Iterator` and `Iterator::GetNext` as
sequences of atomic accesses.  A constructor of `Call` is a point of one of these functions
just before an access to shared memory, with the local variables that are still needed; what
the source computes between two accesses is computed by `action`.

A compare-exchange that fails leaves the value it found in its first argument, one that
succeeds leaves the argument as it was.  So after the remainder of a page has been marked as
wasted, or the tail pointer has been helped on, the loop is entered again with the old value
and finds the new one at its next exchange.  `size` is a variable of `AllocateImpl` that
lives through the loop: an attempt that enlarged it to the end of the page and then lost its
exchange goes on with the enlarged size.

The header fields that `GetBlock` reads are read in one step.  The pages that `AllocateImpl`
touches, the data of the blocks and the histograms are left out.
-/

namespace ChromiumBase.PersistentMemoryAllocator

open SharedMemory

/-- A segment that the constructor accepts, with pages of a size that can hold the shared
metadata and a block. -/
structure Segment where
  memSize : ℕ
  memPage : ℕ
  memSize_le : memSize ≤ kSegmentMaxSize
  metadata_le : sizeofSharedMetadata ≤ memSize
  memPage_ge : 128 ≤ memPage
  memPage_aligned : memPage % kAllocAlignment = 0
  memSize_pages : memSize % memPage = 0

/-- The cells that several threads access: the words of the segment, the local flag
`corrupt_`, and the two members of each iterator. -/
inductive Location
  | word (offset : ℕ)
  | corrupt
  | lastRecord (iterator : ℕ)
  | recordCount (iterator : ℕ)
  deriving DecidableEq

abbrev Memory := Location → ℕ

def words (m : Memory) : Words := fun offset => m (.word offset)

def isCorrupt (m : Memory) : Bool :=
  m .corrupt ≠ 0 || m (.word flagsOffset) % 2 = 1

def setFlagCorrupt (flags : ℕ) : ℕ := flags ||| 1

def setFlagFull (flags : ℕ) : ℕ := flags ||| 2

structure Frame where
  reqSize : ℕ
  typeId : ℕ
  size : ℕ
  freeptr : ℕ
  deriving DecidableEq, Repr

inductive Call
  | idle
  -- `AllocateImpl`
  | loadFreeptr (f : Frame)
  | testCorrupt (f : Frame)
  | setFull
  | reserveWasted (f : Frame)
  | writeWastedSize (f : Frame)
  | writeWastedCookie (f : Frame)
  | reserve (f : Frame)
  | verify (f : Frame) (field : ℕ)
  | writeSize (f : Frame)
  | writeCookie (f : Frame)
  | writeTypeId (f : Frame)
  | allocated (f : Frame)
  | allocateFailed
  -- `MakeIterable`
  | makeIterable (ref : ℕ)
  | checkBlock (ref : ℕ)
  | loadNext (ref : ℕ)
  | storeNext (ref : ℕ)
  | loadTail (ref : ℕ)
  | checkTail (ref tail : ℕ)
  | link (ref tail : ℕ)
  | swingTail (ref tail : ℕ)
  | helpTail (ref tail next : ℕ)
  | madeIterable (ref : ℕ)
  -- the constructor of `Iterator`
  | construct (iterator startingAfter : ℕ)
  | storeLast (iterator last : ℕ)
  | constructed (iterator : ℕ)
  -- `Iterator::GetNext`
  | loadCount (iterator : ℕ)
  | loadLast (iterator count : ℕ)
  | checkLast (iterator count last : ℕ)
  | followLast (iterator count last : ℕ)
  | checkNext (iterator count last next : ℕ)
  | advance (iterator count last next : ℕ)
  | loadType (iterator count next : ℕ)
  | testCount (iterator count next typeId : ℕ)
  | countRecord (iterator next typeId : ℕ)
  | returned (iterator next typeId : ℕ)
  | returnedNull (iterator : ℕ)
  -- `SetCorrupt`, and what its caller returns
  | setCorrupt (resume : Call)
  | setCorruptFlag (resume : Call)
  deriving DecidableEq

def roundUp (n : ℕ) : ℕ := (n + (kAllocAlignment - 1)) / kAllocAlignment * kAllocAlignment

variable (S : Segment)

def pageFree (freeptr : ℕ) : ℕ := S.memPage - freeptr % S.memPage

def allocateImpl (reqSize typeId : ℕ) : Call :=
  -- Validate req_size to ensure it won't overflow when used as 32-bit value.
  if kSegmentMaxSize - sizeofBlockHeader < reqSize then .allocateFailed
  else
    let size := roundUp (reqSize + sizeofBlockHeader)
    if size ≤ sizeofBlockHeader ∨ S.memPage < size then .allocateFailed
    else .loadFreeptr ⟨reqSize, typeId, size, 0⟩

/-- One attempt of the loop of `AllocateImpl`, from the test for corruption to the exchange
of the free pointer. -/
def attempt (w : Words) (f : Frame) : Call :=
  if S.memSize < add32 f.freeptr f.size then .setFull
  else if (getBlock S.memSize w f.freeptr 0 0 false true).isNone then .setCorrupt .allocateFailed
  -- An allocation cannot cross page boundaries.
  else if pageFree S f.freeptr < f.size then
    if pageFree S f.freeptr ≤ sizeofBlockHeader then .setCorrupt .allocateFailed
    else .reserveWasted f
  else
    -- Don't leave a slice at the end of a page too small for anything.
    let size := if pageFree S f.freeptr - f.size < sizeofBlockHeader + kAllocAlignment
      then pageFree S f.freeptr else f.size
    if S.memSize < add32 f.freeptr size then .setCorrupt .allocateFailed
    else .reserve { f with size := size }

def startOf (w : Words) (startingAfter : ℕ) : ℕ :=
  if startingAfter = 0 then kReferenceQueue
  else if (getBlock S.memSize w startingAfter 0 0 false false).isNone ∨
      blockNext w startingAfter = 0 then kReferenceQueue
  else startingAfter

def action : Call → Action Location ℕ Call
  | .loadFreeptr f => .load (.word freeptrOffset) fun v => .testCorrupt { f with freeptr := v }
  | .testCorrupt f => .read fun m =>
    if isCorrupt m then .setCorrupt .allocateFailed else attempt S (words m) f
  | .setFull => .modify (.word flagsOffset) setFlagFull fun _ => .allocateFailed
  | .reserveWasted f =>
    .exchange (.word freeptrOffset) f.freeptr (add32 f.freeptr (pageFree S f.freeptr))
      (.writeWastedSize f) fun v => .testCorrupt { f with freeptr := v }
  | .writeWastedSize f =>
    .store (.word f.freeptr) (pageFree S f.freeptr) (.writeWastedCookie f)
  | .writeWastedCookie f =>
    .store (.word (f.freeptr + 4)) kBlockCookieWasted (.testCorrupt f)
  | .reserve f =>
    .exchange (.word freeptrOffset) f.freeptr (add32 f.freeptr f.size) (.verify f 0)
      fun v => .testCorrupt { f with freeptr := v }
  -- The four fields of the header of a new block must be zero.
  | .verify f field => .load (.word (f.freeptr + 4 * field)) fun v =>
    if v ≠ 0 then .setCorrupt .allocateFailed
    else if field < 3 then .verify f (field + 1) else .writeSize f
  | .writeSize f => .store (.word f.freeptr) f.size (.writeCookie f)
  | .writeCookie f => .store (.word (f.freeptr + 4)) kBlockCookieAllocated (.writeTypeId f)
  | .writeTypeId f => .store (.word (f.freeptr + 8)) f.typeId (.allocated f)
  | .makeIterable ref => .read fun m =>
    if isCorrupt m then .setCorrupt (.madeIterable ref) else .checkBlock ref
  | .checkBlock ref => .read fun m =>
    if (getBlock S.memSize (words m) ref 0 0 false false).isNone then .madeIterable ref
    else .loadNext ref
  | .loadNext ref => .load (.word (ref + 12)) fun v =>
    if v ≠ 0 then .madeIterable ref else .storeNext ref
  | .storeNext ref => .store (.word (ref + 12)) kReferenceQueue (.loadTail ref)
  | .loadTail ref => .load (.word tailptrOffset) fun tail => .checkTail ref tail
  | .checkTail ref tail => .read fun m =>
    if (getBlock S.memSize (words m) tail 0 0 true false).isNone then
      .setCorrupt (.madeIterable ref)
    else .link ref tail
  | .link ref tail => .exchange (.word (tail + 12)) kReferenceQueue ref
      (.swingTail ref tail) fun next => .helpTail ref tail next
  | .swingTail ref tail => .exchange (.word tailptrOffset) tail ref
      (.madeIterable ref) fun _ => .madeIterable ref
  | .helpTail ref tail next => .exchange (.word tailptrOffset) tail next
      (.checkTail ref tail) fun v => .checkTail ref v
  | .construct k startingAfter => .read fun m => .storeLast k (startOf S (words m) startingAfter)
  | .storeLast k last => .store (.lastRecord k) last (.constructed k)
  | .loadCount k => .load (.recordCount k) fun count => .loadLast k count
  | .loadLast k count => .load (.lastRecord k) fun last => .checkLast k count last
  | .checkLast k count last => .read fun m =>
    if (getBlock S.memSize (words m) last 0 0 true false).isNone then .returnedNull k
    else .followLast k count last
  | .followLast k count last => .load (.word (last + 12)) fun next =>
    if next = kReferenceQueue then .returnedNull k else .checkNext k count last next
  | .checkNext k count last next => .read fun m =>
    if (getBlock S.memSize (words m) next 0 0 false false).isNone then
      .setCorrupt (.returnedNull k)
    else .advance k count last next
  | .advance k count last next => .exchange (.lastRecord k) last next
      (.loadType k count next) fun v => .checkLast k count v
  | .loadType k count next => .load (.word (next + 8)) fun v => .testCount k count next v
  | .testCount k count next type => .load (.word freeptrOffset) fun v =>
    if maxRecords S.memSize v < count then .setCorrupt (.returnedNull k)
    else .countRecord k next type
  | .countRecord k next type => .modify (.recordCount k) (fun v => add32 v 1)
      fun _ => .returned k next type
  | .setCorrupt resume => .store .corrupt 1 (.setCorruptFlag resume)
  | .setCorruptFlag resume => .modify (.word flagsOffset) setFlagCorrupt fun _ => resume
  | .idle | .allocated _ | .allocateFailed | .madeIterable _ | .constructed _ | .returned _ _ _
  | .returnedNull _ => .halt

def Call.iterable : Call → Option ℕ
  | .makeIterable ref | .checkBlock ref | .loadNext ref | .storeNext ref | .loadTail ref
  | .checkTail ref _ | .link ref _ | .swingTail ref _ | .helpTail ref _ _ | .madeIterable ref =>
    some ref
  | .setCorrupt resume | .setCorruptFlag resume => resume.iterable
  | _ => none

def Call.constructs : Call → Option ℕ
  | .construct k _ | .storeLast k _ | .constructed k => some k
  | .setCorrupt resume | .setCorruptFlag resume => resume.constructs
  | _ => none

/-- The iterator that a call has moved on and the block it has moved it to. -/
def Call.taken : Call → Option (ℕ × ℕ)
  | .loadType k _ next | .testCount k _ next _ | .countRecord k next _ | .returned k next _ =>
    some (k, next)
  | _ => none

abbrev Config := SharedMemory.Config Location ℕ Call

def Returned (c : Config) (ref : ℕ) : Prop := ∃ i f, c.call i = .allocated f ∧ f.freeptr = ref

/-- The calls that may be started.  `MakeIterable` is called for a block that `Allocate` has
returned, once for each block; an iterator is constructed once, to start after such a block
or (with `0`) at the head of the queue, and used after that. -/
inductive Start (c : Config) : Call → Prop
  | allocate (reqSize typeId : ℕ) : Start c (allocateImpl S reqSize typeId)
  | makeIterable {ref : ℕ} (hblock : Returned c ref)
      (honce : ∀ j, (c.call j).iterable ≠ some ref) : Start c (.makeIterable ref)
  | construct {k startingAfter : ℕ} (hblock : startingAfter = 0 ∨ Returned c startingAfter)
      (honce : ∀ j, (c.call j).constructs ≠ some k) : Start c (.construct k startingAfter)
  | getNext {i k : ℕ} (hconstructed : c.call i = .constructed k) : Start c (.loadCount k)

/-- The words that the constructor writes to a segment of zeros. -/
def initialMemory : Memory
  | .word offset =>
    if offset = freeptrOffset then sizeofSharedMetadata
    else if offset = tailptrOffset then kReferenceQueue
    else if offset = kReferenceQueue then sizeofBlockHeader
    else if offset = kReferenceQueue + 4 then kBlockCookieQueue
    else if offset = kReferenceQueue + 12 then kReferenceQueue
    else 0
  | _ => 0

def initial : Config := ⟨initialMemory, fun _ => .idle⟩

/-- One atomic access of one of the calls, or the start of a call. -/
abbrev Step : Config → Config → Prop := SharedMemory.Step (action S) .idle (Start S)

abbrev Reachable (c : Config) : Prop := Relation.ReflTransGen (Step S) initial c

end ChromiumBase.PersistentMemoryAllocator
