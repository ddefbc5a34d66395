import Mathlib.Data.Nat.Bitwise
import ChromiumBase.Lib.FreeRun

/-!
# The header of a block file

A block file keeps entries of one to four consecutive blocks.  Its header has a bit for each
block, and counts, for each length `t` from one to four, the groups of four blocks whose free
run at the end has that length.  An entry is placed at the start of the free run of a group;
the table `s_types` gives the length of that run for the four bits of a group.

The allocation map is an array of 32-bit words, which `DeleteMapBlock` reads and writes as
bytes, the lowest bits of a word first.
-/

open Function

namespace ChromiumBase.DiskCache

def kMaxNumBlocks : ℕ := 4
def kBlockHeaderSize : ℕ := 8192
def kMaxBlocks : ℕ := (kBlockHeaderSize - 80) * 8
def kNumExtraBlocks : ℕ := 1024

/-- The type of entry that can be stored in a group, by the four bits of the group. -/
def sTypes : List ℕ := [4, 3, 2, 2, 1, 1, 1, 1, 0, 0, 0, 0, 0, 0, 0, 0]

def getMapBlockType (value : ℕ) : ℕ := sTypes.getD (value &&& 0xf) 0

/-- The fields of the header that allocation uses.  `empty` and `hints` are indexed by the
length minus one. -/
structure BlockFileHeader where
  nextFile : ℤ
  numEntries : ℤ
  maxEntries : ℕ
  empty : ℕ → ℤ
  hints : ℕ → ℕ
  allocationMap : ℕ → BitVec 32

def BlockFileHeader.new : BlockFileHeader :=
  ⟨0, 0, 0, fun _ => 0, fun _ => 0, fun _ => 0⟩

namespace BlockFileHeader

variable (h : BlockFileHeader)

def byteMap (byteIndex : ℕ) : BitVec 8 :=
  (h.allocationMap (byteIndex / 4)).extractLsb' (8 * (byteIndex % 4)) 8

def setByte (word : BitVec 32) (i : ℕ) (byte : BitVec 8) : BitVec 32 :=
  (word &&& ~~~(0xff#32 <<< (8 * i))) ||| (byte.zeroExtend 32 <<< (8 * i))

def setByteMap (byteIndex : ℕ) (byte : BitVec 8) : BlockFileHeader :=
  { h with
    allocationMap := update h.allocationMap (byteIndex / 4)
      (setByte (h.allocationMap (byteIndex / 4)) (byteIndex % 4) byte) }

/-- The smallest type of at least `size` blocks of which there is a group. -/
def targetFor (size : ℕ) : Option ℕ :=
  (List.range' size (kMaxNumBlocks + 1 - size)).find? fun i => h.empty (i - 1) ≠ 0

def findNibble (mapBlock : BitVec 32) (target : ℕ) : Option ℕ :=
  (List.range 8).find? fun j => getMapBlockType (mapBlock >>> (4 * j)).toNat = target

/-- The walk over the words of the map: `n` words from `current` on, starting over at the
end.  It gives the word and the group. -/
def findGroup (h : BlockFileHeader) (target : ℕ) : ℕ → ℕ → Option (ℕ × ℕ)
  | 0, _ => none
  | n + 1, current =>
    let current := if current = h.maxEntries / 32 then 0 else current
    match findNibble (h.allocationMap current) target with
    | some j => some (current, j)
    | none => findGroup h target n (current + 1)

def fixAllocationCounters : BlockFileHeader :=
  { h with
    hints := fun _ => 0
    empty := fun t => ((List.range (h.maxEntries / 32 * 8)).filter fun g =>
      getMapBlockType (h.allocationMap (g / 8) >>> (4 * (g % 8))).toNat = t + 1).length }

def createMapBlock (size : ℕ) : BlockFileHeader × Option ℕ :=
  match h.targetFor size with
  | none => (h, none)
  | some target =>
    match h.findGroup target (h.maxEntries / 32) (h.hints (target - 1)) with
    -- It is possible to have an undetected corruption, fix it here.
    | none => (h.fixAllocationCounters, none)
    | some (current, j) =>
      let indexOffset := j * 4 + 4 - target
      let toAdd : BitVec 32 := ((1#32 <<< size) - 1#32) <<< indexOffset
      let empty := update h.empty (target - 1) (h.empty (target - 1) - 1)
      ({ h with
          numEntries := h.numEntries + 1
          allocationMap := update h.allocationMap current
            (h.allocationMap current ||| toAdd)
          hints := update h.hints (target - 1) current
          empty := if target ≠ size then
              update empty (target - size - 1) (empty (target - size - 1) + 1)
            else empty },
        some (current * 32 + indexOffset))

def deleteMapBlock (index size : ℕ) : BlockFileHeader :=
  if kMaxNumBlocks < size then h
  else
    let byte := h.byteMap (index / 8)
    let mapBlock := if 4 ≤ index % 8 then byte >>> 4 else byte
    -- See what type of block will be available after we delete this one.
    let bitsAtEnd := 4 - size - index % 4
    let endMask : BitVec 8 := (0xf#8 <<< (4 - bitsAtEnd)) &&& 0xf#8
    let newValue := mapBlock &&& ~~~(((1#8 <<< size) - 1#8) <<< (index % 4))
    let newType := getMapBlockType newValue.toNat
    let toClear : BitVec 8 := ((1#8 <<< size) - 1#8) <<< (index % 8)
    let cleared := h.setByteMap (index / 8) (byte &&& ~~~toClear)
    let empty := if bitsAtEnd ≠ 0 then
        update h.empty (bitsAtEnd - 1) (h.empty (bitsAtEnd - 1) - 1)
      else h.empty
    { cleared with
      empty := if mapBlock &&& endMask = 0 then
          update empty (newType - 1) (empty (newType - 1) + 1)
        else h.empty
      numEntries := h.numEntries - 1 }

def needToGrowBlockFile (blockCount : ℕ) : Bool :=
  let emptyBlocks := h.empty 0 * 1 + h.empty 1 * 2 + h.empty 2 * 3 + h.empty 3 * 4
  let haveSpace := (List.range kMaxNumBlocks).any fun i => blockCount - 1 ≤ i ∧ h.empty i ≠ 0
  -- A file that is almost full is not used when there is another one already.
  if h.nextFile ≠ 0 ∧ emptyBlocks < (kMaxBlocks / 10 : ℕ) then true else !haveSpace

/-- `GrowBlockFile`, when the length of the file can be set. -/
def growBlockFile : BlockFileHeader :=
  if kMaxBlocks = h.maxEntries then h
  else
    let newSize := min (h.maxEntries + kNumExtraBlocks) kMaxBlocks
    { h with
      empty := update h.empty 3 ((newSize - h.maxEntries) / 4 : ℕ)
      maxEntries := newSize }

/-- What `FileForNewBlock` does to a file on its way to the one it returns: a file that is
not full grows, a full one gets a next file, whose number is not zero. -/
def fileForNewBlock (blockCount : ℕ) (newFile : ℤ) : BlockFileHeader :=
  if h.needToGrowBlockFile blockCount then
    if kMaxBlocks = h.maxEntries then
      { h with nextFile := if h.nextFile = 0 then newFile else h.nextFile }
    else h.growBlockFile
  else h

def emptyBlocks : ℤ :=
  if (List.range kMaxNumBlocks).any fun i => h.empty i < 0 then 0
  else h.empty 0 * 1 + h.empty 1 * 2 + h.empty 2 * 3 + h.empty 3 * 4

def countedBlocks : ℤ := (h.emptyBlocks + h.numEntries).bmod (2 ^ 32)

def validateCounters : Bool :=
  h.maxEntries ≤ kMaxBlocks ∧ 0 ≤ h.numEntries ∧ h.countedBlocks ≤ h.maxEntries

def fixCounters : Option BlockFileHeader :=
  let h := h.fixAllocationCounters
  let h := if h.maxEntries < h.countedBlocks then
      { h with numEntries := h.maxEntries - h.emptyBlocks }
    else h
  if h.validateCounters then some h else none

/-- The header that is left in a file of `fileSize` bytes, or nothing on an error. -/
def fixBlockFileHeader (entrySize fileSize : ℕ) : Option BlockFileHeader :=
  let expected := entrySize * h.maxEntries + kBlockHeaderSize
  if fileSize < kBlockHeaderSize ∨ entrySize < 36 ∨ 4096 < entrySize ∨ h.numEntries < 0 then none
  else if fileSize = expected then h.fixCounters
  else if fileSize < expected ∨ h.empty 3 ≠ 0 ∨
      entrySize * kMaxBlocks + kBlockHeaderSize < fileSize then none
  -- We were in the middle of growing the file.
  else fixCounters { h with maxEntries := (fileSize - kBlockHeaderSize) / entrySize }

end BlockFileHeader

end ChromiumBase.DiskCache
