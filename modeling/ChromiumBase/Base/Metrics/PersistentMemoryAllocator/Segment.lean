import Mathlib.Algebra.Order.Ring.Nat

/-!
# The persistent memory segment

A segment is read as 32-bit words at byte offsets.  The first 64 bytes are the shared
metadata, whose last member is the header of the iteration queue; after it come the blocks,
each with a header of four words.  Nothing is assumed here about the words: the segment may
be shared with a process that writes to it what it likes.

All sums of the source are sums of `uint32_t`, so they are taken modulo `2 ^ 32`.  A block
that is accepted lies in the segment exactly when the sums compared for it did not wrap.
-/

namespace ChromiumBase.PersistentMemoryAllocator

/-- The 32-bit words by byte offset from the base of the segment.  Offsets past the end of
the segment are whatever memory lies there. -/
abbrev Words := ℕ → ℕ

def kSegmentMaxSize : ℕ := 1073741824

def sizeofBlockHeader : ℕ := 16

def sizeofSharedMetadata : ℕ := 64

def kAllocAlignment : ℕ := 8


def kReferenceQueue : ℕ := 48

def kBlockCookieQueue : ℕ := 1
def kBlockCookieWasted : ℕ := 0xFFFFFFFF
def kBlockCookieAllocated : ℕ := 0xC8799269

def flagsOffset : ℕ := 36

def freeptrOffset : ℕ := 40

def tailptrOffset : ℕ := 44

def add32 (a b : ℕ) : ℕ := (a + b) % 2 ^ 32

theorem add32_of_lt {a b : ℕ} (h : a + b < 2 ^ 32) : add32 a b = a + b :=
  Nat.mod_eq_of_lt h

section

variable (memSize : ℕ) (w : Words) (ref typeId size : ℕ)

def blockSize (block : ℕ) : ℕ := w block
def blockCookie (block : ℕ) : ℕ := w (block + 4)
def blockTypeId (block : ℕ) : ℕ := w (block + 8)
def blockNext (block : ℕ) : ℕ := w (block + 12)

/-- The block behind a reference, as its offset, if it is valid for the type and size. -/
def getBlock (queueOk freeOk : Bool) : Option ℕ :=
  -- Handle special cases.
  if ref = kReferenceQueue ∧ queueOk then some ref
  -- Validation of parameters.
  else if ref < sizeofSharedMetadata then none
  else if ref % kAllocAlignment ≠ 0 then none
  else if memSize < add32 ref (add32 size sizeofBlockHeader) then none
  -- Validation of referenced block-header.
  else if freeOk then some ref
  else if blockCookie w ref ≠ kBlockCookieAllocated then none
  else if blockSize w ref < add32 size sizeofBlockHeader then none
  else if memSize < add32 ref (blockSize w ref) then none
  else if typeId ≠ 0 ∧ blockTypeId w ref ≠ typeId then none
  else some ref

def getBlockData : Option ℕ :=
  (getBlock memSize w ref typeId size false false).map (· + sizeofBlockHeader)

/-- The number of data bytes of a block, `0` if the reference is not valid. -/
def getAllocSize (ref : ℕ) : ℕ :=
  match getBlock memSize w ref 0 0 false false with
  | none => 0
  | some block =>
    if blockSize w block ≤ sizeofBlockHeader ∨ memSize < add32 ref (blockSize w block) then 0
    else blockSize w block - sizeofBlockHeader

/-- What the checks of `getBlock` compare, for a caller that takes neither the queue header
nor a free block. -/
structure Accepted : Prop where
  pastMetadata : sizeofSharedMetadata ≤ ref
  aligned : ref % kAllocAlignment = 0
  request : add32 ref (add32 size sizeofBlockHeader) ≤ memSize
  cookie : blockCookie w ref = kBlockCookieAllocated
  holds : add32 size sizeofBlockHeader ≤ blockSize w ref
  block : add32 ref (blockSize w ref) ≤ memSize
  type : typeId = 0 ∨ blockTypeId w ref = typeId

end

variable {memSize : ℕ} {w : Words} {ref typeId size : ℕ}

/-- `GetBlock` returns the reference itself if its checks pass. -/
theorem getBlock_eq_some_iff {block : ℕ} :
    getBlock memSize w ref typeId size false false = some block ↔
      block = ref ∧ Accepted memSize w ref typeId size := by
  unfold getBlock
  simp only [Bool.false_eq_true, and_false, if_false]
  constructor
  · intro h
    split_ifs at h with h₁ h₂ h₃ h₄ h₅ h₆ h₇
    exact ⟨(Option.some.inj h).symm, ⟨by omega, by omega, by omega, by omega, by omega,
      by omega, by omega⟩⟩
  · rintro ⟨rfl, ha⟩
    rw [if_neg (Nat.not_lt.mpr ha.pastMetadata), if_neg (by simp [ha.aligned]),
      if_neg (Nat.not_lt.mpr ha.request), if_neg (by simp [ha.cookie]),
      if_neg (Nat.not_lt.mpr ha.holds), if_neg (Nat.not_lt.mpr ha.block),
      if_neg (by have := ha.type; omega)]

theorem getBlockData_eq_some_iff {data : ℕ} : getBlockData memSize w ref typeId size = some data ↔
      data = ref + sizeofBlockHeader ∧ Accepted memSize w ref typeId size := by
  simp only [getBlockData, Option.map_eq_some_iff, getBlock_eq_some_iff]
  constructor
  · rintro ⟨block, ⟨rfl, ha⟩, rfl⟩
    exact ⟨rfl, ha⟩
  · rintro ⟨rfl, ha⟩
    exact ⟨ref, ⟨rfl, ha⟩, rfl⟩

theorem getAllocSize_eq_iff {n : ℕ} (hn : 0 < n) : getAllocSize memSize w ref = n ↔
      Accepted memSize w ref 0 0 ∧ blockSize w ref = n + sizeofBlockHeader := by
  unfold getAllocSize
  cases hb : getBlock memSize w ref 0 0 false false with
  | none =>
    have hna : ¬ Accepted memSize w ref 0 0 := fun ha => by
      rw [getBlock_eq_some_iff.mpr ⟨rfl, ha⟩] at hb
      cases hb
    simp only [hna, false_and, iff_false]
    omega
  | some block =>
    obtain ⟨rfl, ha⟩ := getBlock_eq_some_iff.mp hb
    have := ha.block
    simp only [ha, true_and]
    split <;> omega

variable (hsize : memSize ≤ kSegmentMaxSize)

include hsize

theorem add_le_iff_of_add32_le {a b : ℕ} (h : add32 a b ≤ memSize) :
    a + b ≤ memSize ↔ a + b < 2 ^ 32 := by
  unfold kSegmentMaxSize at hsize
  constructor
  · omega
  · intro hlt
    rwa [add32_of_lt hlt] at h

theorem Accepted.request_inside_iff (ha : Accepted memSize w ref typeId size) :
    ref + sizeofBlockHeader + size ≤ memSize ↔ ref + sizeofBlockHeader + size < 2 ^ 32 := by
  have hr := ha.request
  unfold kSegmentMaxSize at hsize
  unfold add32 sizeofBlockHeader at *
  omega

theorem Accepted.block_inside_iff (ha : Accepted memSize w ref typeId size) :
    ref + blockSize w ref ≤ memSize ↔ ref + blockSize w ref < 2 ^ 32 :=
  add_le_iff_of_add32_le hsize ha.block

end ChromiumBase.PersistentMemoryAllocator
