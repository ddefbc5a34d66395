import ChromiumBase.Base.Metrics.PersistentMemoryAllocator.Segment

/-!
# Iterating over a segment that cannot be trusted

`getNext` is one call of `Iterator::GetNext` by a thread that has the iterator for itself, so
the exchange of `last_record_` succeeds at the first attempt.  The words of the segment are
arbitrary.  The links may form a cycle; what stops the iteration is that every call that
returns a reference counts one record, and that no more records are accepted than blocks fit
below the free pointer.
-/

namespace ChromiumBase.PersistentMemoryAllocator

structure Iterator where
  /-- The last record that was returned. -/
  lastRecord : ℕ
  /-- The number of records found; used for detecting loops. -/
  recordCount : ℕ
  deriving DecidableEq, Repr

/-- What a call of `getNext` does: the iterator it leaves, the reference and the type it
returns, and whether it marks the segment as corrupt. -/
structure Found where
  iterator : Iterator
  record : Option (ℕ × ℕ)
  corrupt : Bool
  deriving DecidableEq, Repr

def maxRecords (memSize freeptr : ℕ) : ℕ :=
  min freeptr memSize / (sizeofBlockHeader + kAllocAlignment)

def getNext (memSize : ℕ) (w : Words) (it : Iterator) : Found :=
  match getBlock memSize w it.lastRecord 0 0 true false with
  | none => ⟨it, none, false⟩  -- Invalid iterator state.
  | some block =>
    let next := blockNext w block
    if next = kReferenceQueue then ⟨it, none, false⟩  -- No next allocation in queue.
    else
      match getBlock memSize w next 0 0 false false with
      | none => ⟨it, none, true⟩  -- Memory is corrupt.
      | some block =>
        if maxRecords memSize (w freeptrOffset) < it.recordCount then
          ⟨⟨next, it.recordCount⟩, none, true⟩
        else ⟨⟨next, add32 it.recordCount 1⟩, some (next, blockTypeId w block), false⟩

/-- The references that up to `n` calls of `getNext` return before the first null, and
whether a null was returned. -/
def iterate (memSize : ℕ) (w : Words) : ℕ → Iterator → List ℕ × Bool
  | 0, _ => ([], false)
  | n + 1, it =>
    match (getNext memSize w it).record with
    | none => ([], true)
    | some (ref, _) =>
      let rest := iterate memSize w n (getNext memSize w it).iterator
      (ref :: rest.1, rest.2)

variable {memSize ref n : ℕ} {w : Words} {it : Iterator}

/-- A reference that an iterator returns has passed the checks of `GetBlock`. -/
theorem getNext_eq_some {type : ℕ} (h : (getNext memSize w it).record = some (ref, type)) :
    Accepted memSize w ref 0 0 ∧ it.recordCount ≤ maxRecords memSize (w freeptrOffset) ∧
      (getNext memSize w it).iterator.recordCount = add32 it.recordCount 1 := by
  unfold getNext at h ⊢
  cases hb : getBlock memSize w it.lastRecord 0 0 true false with
  | none => simp [hb] at h
  | some block =>
    simp only [hb] at h ⊢
    by_cases hq : blockNext w block = kReferenceQueue
    · simp [hq] at h
    simp only [hq, if_false] at h ⊢
    cases hn : getBlock memSize w (blockNext w block) 0 0 false false with
    | none => simp [hn] at h
    | some block' =>
      simp only [hn] at h ⊢
      split at h
      · cases h
      · next hc =>
        obtain ⟨rfl, -⟩ := Prod.mk.inj (Option.some.inj h)
        rw [if_neg hc]
        exact ⟨(getBlock_eq_some_iff.mp hn).2, Nat.not_lt.mp hc, rfl⟩

theorem accepted_of_mem_iterate (h : ref ∈ (iterate memSize w n it).1) :
    Accepted memSize w ref 0 0 := by
  induction n generalizing it with
  | zero => simp [iterate] at h
  | succ n ih =>
    unfold iterate at h
    split at h
    · simp at h
    · next ref' type hr =>
      rcases List.mem_cons.mp h with rfl | h
      · exact (getNext_eq_some hr).1
      · exact ih h

/-- The iteration ends whatever the links are: the induction is on the calls that are left,
and each call that returns a record moves the count closer to its bound. -/
theorem iterate_ends (hs : memSize ≤ kSegmentMaxSize) (hpos : 0 < n)
    (hn : memSize / 24 + 2 ≤ n + it.recordCount) : (iterate memSize w n it).2 = true := by
  induction n generalizing it with
  | zero => omega
  | succ n ih =>
    unfold iterate
    split
    · rfl
    · next ref type hr =>
      obtain ⟨-, hc, hne⟩ := getNext_eq_some hr
      have hmax : maxRecords memSize (w freeptrOffset) ≤ memSize / 24 :=
        Nat.div_le_div_right (Nat.min_le_right _ _)
      have hco : add32 it.recordCount 1 = it.recordCount + 1 := by
        apply add32_of_lt
        unfold kSegmentMaxSize at hs
        omega
      exact ih (by omega) (by omega)

def Inside (memSize : ℕ) (w : Words) (ref : ℕ) : Prop :=
  sizeofBlockHeader ≤ blockSize w ref ∧ ref + blockSize w ref ≤ memSize

instance (memSize : ℕ) (w : Words) (ref : ℕ) : Decidable (Inside memSize w ref) :=
  inferInstanceAs (Decidable (_ ∧ _))

theorem Accepted.inside_iff (hs : memSize ≤ kSegmentMaxSize) (ha : Accepted memSize w ref 0 0) :
    Inside memSize w ref ↔ ref + blockSize w ref < 2 ^ 32 := by
  have hh : sizeofBlockHeader ≤ blockSize w ref := ha.holds
  rw [← ha.block_inside_iff hs]
  exact and_iff_right hh

/-- In a segment with any content, what the accessors hand out lies in the segment exactly
when none of the 32-bit sums their checks compare has wrapped, and every iteration ends. -/
theorem accessors_inside_iff_no_wrap (memSize : ℕ) (hsize : memSize ≤ kSegmentMaxSize)
    (w : Words) (ref typeId size : ℕ) :
    ((∀ data, getBlockData memSize w ref typeId size = some data → data + size ≤ memSize) ↔
      (Accepted memSize w ref typeId size → ref + sizeofBlockHeader + size < 2 ^ 32)) ∧
    ((∀ n, 0 < n → getAllocSize memSize w ref = n → ref + sizeofBlockHeader + n ≤ memSize) ↔
      (Accepted memSize w ref 0 0 → sizeofBlockHeader < blockSize w ref →
        ref + blockSize w ref < 2 ^ 32)) ∧
    ∀ it : Iterator, (∀ n, (∀ r ∈ (iterate memSize w n it).1, Inside memSize w r) ↔
        ∀ r ∈ (iterate memSize w n it).1, r + blockSize w r < 2 ^ 32) ∧
      (iterate memSize w (memSize / 24 + 2) it).2 = true := by
  refine ⟨?_, ?_, fun it => ⟨fun n => ?_, ?_⟩⟩
  · constructor
    · intro h ha
      exact (ha.request_inside_iff hsize).mp (h _ (getBlockData_eq_some_iff.mpr ⟨rfl, ha⟩))
    · intro h data hd
      obtain ⟨rfl, ha⟩ := getBlockData_eq_some_iff.mp hd
      exact (ha.request_inside_iff hsize).mpr (h ha)
  · constructor
    · intro h ha hlt
      have hn : 0 < blockSize w ref - sizeofBlockHeader := Nat.sub_pos_of_lt hlt
      have hin := h _ hn ((getAllocSize_eq_iff hn).mpr ⟨ha, by omega⟩)
      exact (ha.block_inside_iff hsize).mp (by omega)
    · intro h n hn hsz
      obtain ⟨ha, hb⟩ := (getAllocSize_eq_iff hn).mp hsz
      have hin := (ha.block_inside_iff hsize).mpr (h ha (by omega))
      omega
  · exact forall₂_congr fun r hr => (accepted_of_mem_iterate hr).inside_iff hsize
  · exact iterate_ends hsize (by omega) (by omega)

/-- A segment with one block, at the head of the queue, whose header gives `size`. -/
def oneBlock (size : ℕ) : Words := fun offset =>
  if offset = freeptrOffset then 128
  else if offset = kReferenceQueue + 12 then 64
  else if offset = 64 then size
  else if offset = 68 then kBlockCookieAllocated
  else if offset = 76 then kReferenceQueue
  else 0

theorem oneBlock_inside : getAllocSize 128 (oneBlock 64) 64 = 48 ∧
      ∀ n, 0 < n → getAllocSize 128 (oneBlock 64) 64 = n → 64 + sizeofBlockHeader + n ≤ 128 :=
  ⟨by decide, (accessors_inside_iff_no_wrap 128 (by decide) (oneBlock 64) 64 0 16).2.1.mpr
    fun _ _ => by decide⟩

/-- A block size just below `2 ^ 32` passes every check of a segment of 128 bytes, and so
does a requested size just below it. -/
theorem oneBlock_leaves_segment : getAllocSize 128 (oneBlock 0xFFFFFFFF) 64 = 0xFFFFFFEF ∧
      ¬ 64 + sizeofBlockHeader + 0xFFFFFFEF ≤ 128 ∧
    getBlockData 128 (oneBlock 64) 64 0 0xFFFFFFF8 = some 80 ∧ ¬ 80 + 0xFFFFFFF8 ≤ 128 ∧
    iterate 128 (oneBlock 0xFFFFFFFF) 2 ⟨kReferenceQueue, 0⟩ = ([64], true) ∧
      ¬ Inside 128 (oneBlock 0xFFFFFFFF) 64 := by
  decide

end ChromiumBase.PersistentMemoryAllocator
