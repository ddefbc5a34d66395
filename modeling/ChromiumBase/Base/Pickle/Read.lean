import ChromiumBase.Base.Pickle.Write
import ChromiumBase.Lib.Memory

/-!
# Reading a pickle

`PickleIterator` and the constructor that reads a pickle in place from a block
of memory. An iterator holds the address of the payload and two offsets into
it. That the read offset never passes the end, and that there is nothing to read
behind a null payload, are fields, so every function on iterators keeps them by
construction.

The readers run on `Memory.Traced`, which records the bytes they touch. A
`Read` is a function on iterators that may fail, and the composite readers are
built from the simple ones with `Read.bind`, as the source builds them from
calls that return early on failure.
-/

open Memory Traced Option

namespace ChromiumBase

/-- No payload is a null pointer. -/
structure PickleIterator where
  payload : Option ℕ
  readIndex : ℕ
  endIndex : ℕ
  read_le : readIndex ≤ endIndex
  null_empty : payload = none → endIndex = 0
  deriving DecidableEq

namespace PickleIterator

open Pickle (Block Item align string16Bytes)

def toEnd (it : PickleIterator) : PickleIterator :=
  { it with readIndex := it.endIndex, read_le := le_rfl }

def advance (size : ℕ) (it : PickleIterator) : PickleIterator :=
  if h : it.endIndex - it.readIndex < align size 4 then
    it.toEnd
  else
    { it with
      readIndex := it.readIndex + align size 4
      read_le := by have := it.read_le; omega }

/-- `GetReadPointerAndAdvance` for a type of `size` bytes. Adding the read
offset to a null payload, whose offsets are all 0, gives a null pointer. -/
def getReadPointerAndAdvance (size : ℕ) (it : PickleIterator) :
    Option ℕ × PickleIterator :=
  if size > it.endIndex - it.readIndex then
    (none, it.toEnd)
  else
    (it.payload.map (· + it.readIndex), it.advance size)

def getReadPointerAndAdvanceBytes (numBytes : Int32) (it : PickleIterator) :
    Option ℕ × PickleIterator :=
  if numBytes.toInt < 0 ∨ it.endIndex - it.readIndex < numBytes.toInt.toNat then
    (none, it.toEnd)
  else
    (it.payload.map (· + it.readIndex), it.advance numBytes.toInt.toNat)

/-- `GetReadPointerAndAdvance(int num_elements, size_t size_element)`: the
product is computed as a checked `size_t` and assigned to an `int` if it is
valid there. -/
def getReadPointerAndAdvanceElements (numElements : Int32) (sizeElement : ℕ)
    (it : PickleIterator) : Option ℕ × PickleIterator :=
  let product := numElements.toInt * sizeElement
  if 0 ≤ product ∧ product < 2 ^ 31 then
    getReadPointerAndAdvanceBytes (Int32.ofInt product) it
  else
    (none, it)

/-- A function that reads from an iterator: it succeeds with a value or fails,
and moves the iterator in either case. -/
def Read (α : Type) := PickleIterator → Traced (Option α × PickleIterator)

namespace Read

variable {α β : Type}

def bind (r : Read α) (f : α → Read β) : Read β := fun it =>
  r it >>= fun out =>
    match out.1 with
    | none => pure (none, out.2)
    | some a => f a out.2

def filterMap (f : α → Option β) (r : Read α) : Read β := fun it =>
  r it >>= fun out => pure (out.1.bind f, out.2)

def map (f : α → β) (r : Read α) : Read β := r.filterMap fun a => some (f a)

end Read

def readBuiltinType (m : Mem) (size : ℕ) : Read ℕ := fun it =>
  match getReadPointerAndAdvance size it with
  | (none, it) => pure (none, it)
  | (some readFrom, it) =>
    load m readFrom size >>= fun bs => pure (some (LittleEndian.ofBytes bs), it)

def loadBlock (m : Mem) (start : ℕ) (length : Int32) : Traced Block where
  result := ⟨slice m start length.toInt.toNat, by
    have := length.toInt_lt
    rw [length_slice]
    omega⟩
  spans := (load m start length.toInt.toNat).spans

def readBytes (m : Mem) (length : Int32) : Read Block := fun it =>
  match getReadPointerAndAdvanceBytes length it with
  | (none, it) => pure (none, it)
  | (some readFrom, it) =>
    loadBlock m readFrom length >>= fun block => pure (some block, it)

def readInt (m : Mem) : Read Int32 :=
  (readBuiltinType m 4).map fun n => (UInt32.ofNat n).toInt32

def readLength (m : Mem) : Read Int32 :=
  (readInt m).filterMap fun n => if 0 ≤ n.toInt then some n else none

def readData (m : Mem) : Read Block := (readInt m).bind (readBytes m)

def readString (m : Mem) : Read (List UInt8) :=
  ((readInt m).bind (readBytes m)).map Subtype.val

def string16OfBytes : List UInt8 → List UInt16
  | low :: high :: bs =>
    UInt16.ofNat (LittleEndian.ofBytes [low, high]) :: string16OfBytes bs
  | _ => []

def readElements16 (m : Mem) (length : Int32) : Read (List UInt16) := fun it =>
  match getReadPointerAndAdvanceElements length 2 it with
  | (none, it) => pure (none, it)
  | (some readFrom, it) =>
    load m readFrom (2 * length.toInt.toNat) >>= fun bs =>
      pure (some (string16OfBytes bs), it)

def readString16 (m : Mem) : Read (List UInt16) :=
  (readInt m).bind (readElements16 m)

/-- The readers, by the type they read; `ReadBytes` takes the length from its
caller. -/
inductive Kind where
  | bool | int | long | uint16 | uint32 | int64 | uint64 | float | double
  | string | string16 | data
  | bytes (length : Int32)
  | length
  deriving DecidableEq

/-- The read operation of each type. A `bool` is read from one byte, though it
was written as an `int`. -/
def read (m : Mem) : Kind → Read Item
  | .bool => (readBuiltinType m 1).map fun n => .bool (n != 0)
  | .int => (readInt m).map .int
  | .long => (readBuiltinType m 8).map fun n => .long (UInt64.ofNat n).toInt64
  | .uint16 => (readBuiltinType m 2).map fun n => .uint16 (UInt16.ofNat n)
  | .uint32 => (readBuiltinType m 4).map fun n => .uint32 (UInt32.ofNat n)
  | .int64 => (readBuiltinType m 8).map fun n => .int64 (UInt64.ofNat n).toInt64
  | .uint64 => (readBuiltinType m 8).map fun n => .uint64 (UInt64.ofNat n)
  | .float => (readBuiltinType m 4).map fun n => .float (UInt32.ofNat n)
  | .double => (readBuiltinType m 8).map fun n => .double (UInt64.ofNat n)
  | .string => (readString m).map .string
  | .string16 => (readString16 m).map .string16
  | .data => (readData m).map .data
  | .bytes length => (readBytes m length).map .bytes
  | .length => (readLength m).map .int

/-- A sequence of reads, which goes on after a failure: the outcome of each
read, and the iterator that is left. -/
def readAll (m : Mem) : List Kind → PickleIterator →
    Traced (List (Option Item) × PickleIterator)
  | [], it => pure ([], it)
  | kind :: kinds, it =>
    read m kind it >>= fun out =>
      readAll m kinds out.2 >>= fun rest => pure (out.1 :: rest.1, rest.2)

def kindOf : Item → Kind
  | .bool _ => .bool
  | .int _ => .int
  | .long _ => .long
  | .uint16 _ => .uint16
  | .uint32 _ => .uint32
  | .int64 _ => .int64
  | .uint64 _ => .uint64
  | .float _ => .float
  | .double _ => .double
  | .string _ => .string
  | .string16 _ => .string16
  | .data _ => .data
  | .bytes value => .bytes (Int32.ofNat value.1.length)

def ofPickle (p : Pickle) : PickleIterator :=
  ⟨some p.headerSize, 0, p.payloadSize, Nat.zero_le _, nofun⟩

/-- The checks that `Pickle(const char* data, size_t data_len)` makes on the
header size it deduced; 0 when something is wrong with it. The length is cast to
an `unsigned int` for the first one. -/
def checkedHeaderSize (dataLen headerSize : ℕ) : ℕ :=
  if headerSize > dataLen % 2 ^ 32 then 0
  else if headerSize ≠ align headerSize 4 then 0
  else headerSize

/-- The header size that the constructor deduces from the length of the data
and the payload size stored in it. -/
def headerSizeOfData (m : Mem) (dataLen : ℕ) : Traced ℕ :=
  if 4 ≤ dataLen then
    load m 0 4 >>= fun bs =>
      pure (checkedHeaderSize dataLen
        ((dataLen + (2 ^ 64 - LittleEndian.ofBytes bs)) % 2 ^ 64))
  else
    pure (checkedHeaderSize dataLen 0)

def ofData (m : Mem) (dataLen : ℕ) : Traced PickleIterator :=
  headerSizeOfData m dataLen >>= fun headerSize =>
    if headerSize = 0 then
      pure ⟨none, 0, 0, le_rfl, fun _ => rfl⟩
    else
      load m 0 4 >>= fun bs =>
        pure ⟨some headerSize, 0, LittleEndian.ofBytes bs, Nat.zero_le _, nofun⟩

/-- What every reader does to the iterator: it moves forward over the same
payload. -/
structure Forward (it it' : PickleIterator) : Prop where
  payload_eq : it'.payload = it.payload
  end_eq : it'.endIndex = it.endIndex
  read_le : it.readIndex ≤ it'.readIndex

theorem Forward.refl (it : PickleIterator) : Forward it it := ⟨rfl, rfl, le_rfl⟩

variable {it it' : PickleIterator} {m : Mem} {length : Int32} {kind : Kind}
  (numElements numBytes : Int32)

theorem Forward.trans {it'' : PickleIterator} (h : Forward it it') (h' : Forward it' it'') :
    Forward it it'' :=
  ⟨h'.payload_eq.trans h.payload_eq, h'.end_eq.trans h.end_eq, h.read_le.trans h'.read_le⟩

theorem forward_toEnd (it : PickleIterator) : Forward it it.toEnd :=
  ⟨rfl, rfl, it.read_le⟩

section

variable (m : Mem) (size : ℕ)

theorem forward_advance (it : PickleIterator) : Forward it (it.advance size) := by
  unfold advance
  split
  · exact forward_toEnd it
  · exact ⟨rfl, rfl, Nat.le_add_right _ _⟩

def InPayload (it : PickleIterator) (s : Span) : Prop :=
  ∃ base, it.payload = some base ∧ base ≤ s.start ∧
    s.start + s.len ≤ base + it.endIndex

theorem InPayload.of_forward {s : Span} (h : Forward it it') (hs : InPayload it' s) :
    InPayload it s := by
  unfold InPayload at hs ⊢
  rwa [h.payload_eq, h.end_eq] at hs

/-- A pointer function returns nothing, or the address of the read offset with
`size` bytes of payload behind it. -/
def PointsTo (it : PickleIterator)
    (out : Option ℕ × PickleIterator) : Prop :=
  Forward it out.2 ∧ ∀ a, out.1 = some a → InPayload it ⟨a, size⟩

theorem pointsTo_getReadPointerAndAdvance (it : PickleIterator) :
    PointsTo size it (getReadPointerAndAdvance size it) := by
  unfold getReadPointerAndAdvance
  have hle := it.read_le
  split
  · exact ⟨forward_toEnd it, nofun⟩
  · refine ⟨forward_advance size it, fun a ha => ?_⟩
    obtain ⟨base, hb, rfl⟩ := map_eq_some_iff.mp ha
    exact ⟨base, hb, by simp, by simp only; omega⟩

theorem getReadPointerAndAdvanceBytes_eq (it : PickleIterator) :
    getReadPointerAndAdvanceBytes numBytes it = if numBytes.toInt < 0 then (none, it.toEnd)
      else getReadPointerAndAdvance numBytes.toInt.toNat it := by
  unfold getReadPointerAndAdvanceBytes getReadPointerAndAdvance
  split_ifs <;> first | rfl | omega

theorem pointsTo_getReadPointerAndAdvanceBytes (it : PickleIterator) :
    PointsTo numBytes.toInt.toNat it (getReadPointerAndAdvanceBytes numBytes it) := by
  rw [getReadPointerAndAdvanceBytes_eq]
  split
  · exact ⟨forward_toEnd it, nofun⟩
  · exact pointsTo_getReadPointerAndAdvance _ it

/-- The checked product of `ReadString16` is refused from 2³⁰ elements on. -/
theorem getReadPointerAndAdvanceElements_two (it : PickleIterator) :
    getReadPointerAndAdvanceElements numElements 2 it =
      if numElements.toInt < 0 ∨ 2 ^ 30 ≤ numElements.toInt then (none, it)
      else getReadPointerAndAdvance (2 * numElements.toInt.toNat) it := by
  by_cases hbad : numElements.toInt < 0 ∨ 2 ^ 30 ≤ numElements.toInt
  · rw [if_pos hbad, getReadPointerAndAdvanceElements, if_neg (by omega)]
  · have hp : (Int32.ofInt (numElements.toInt * (2 : ℕ))).toInt =
        numElements.toInt * 2 := by
      rw [Int32.toInt_ofInt_of_le (by omega) (by omega)]
      rfl
    rw [if_neg hbad, getReadPointerAndAdvanceElements, if_pos (by omega),
      getReadPointerAndAdvanceBytes_eq, hp, if_neg (by omega)]
    congr 1
    omega

theorem pointsTo_getReadPointerAndAdvanceElements (it : PickleIterator) :
    PointsTo (2 * numElements.toInt.toNat) it
      (getReadPointerAndAdvanceElements numElements 2 it) := by
  rw [getReadPointerAndAdvanceElements_two]
  split
  · exact ⟨Forward.refl it, nofun⟩
  · exact pointsTo_getReadPointerAndAdvance _ it

/-- A reader that moves the iterator forward and touches only the payload. -/
def Safe {α : Type} (r : Read α) : Prop :=
  ∀ it, Forward it (r it).result.2 ∧ ∀ s ∈ (r it).spans, InPayload it s

section

variable {α β : Type} {r : Read α} {f : α → Read β}

theorem Safe.bind (hr : Safe r) (hf : ∀ a, Safe (f a)) : Safe (r.bind f) := by
  intro it
  obtain ⟨hfo, hsp⟩ := hr it
  simp only [Read.bind, result_bind, spans_bind]
  split
  · exact ⟨hfo, by simpa using hsp⟩
  · rename_i a ha
    obtain ⟨hfo', hsp'⟩ := hf a (r it).result.2
    refine ⟨hfo.trans hfo', fun s hs => ?_⟩
    rcases List.mem_append.mp hs with hs | hs
    · exact hsp s hs
    · exact (hsp' s hs).of_forward hfo

theorem Safe.filterMap {f : α → Option β} (hr : Safe r) : Safe (r.filterMap f) := by
  intro it
  simpa [Read.filterMap] using hr it

theorem Safe.map {f : α → β} (hr : Safe r) : Safe (r.map f) := hr.filterMap

theorem safe_readBuiltinType : Safe (readBuiltinType m size) := by
  intro it
  have hp := pointsTo_getReadPointerAndAdvance size it
  unfold readBuiltinType
  split
  · rename_i heq
    rw [heq] at hp
    exact ⟨hp.1, by simp⟩
  · rename_i heq
    rw [heq] at hp
    exact ⟨hp.1, by simpa [load] using hp.2⟩

variable (length : Int32)

theorem safe_readBytes : Safe (readBytes m length) := by
  intro it
  have hp := pointsTo_getReadPointerAndAdvanceBytes length it
  unfold readBytes
  split
  · rename_i heq
    rw [heq] at hp
    exact ⟨hp.1, by simp⟩
  · rename_i heq
    rw [heq] at hp
    exact ⟨hp.1, by simpa [loadBlock, load] using hp.2⟩

theorem safe_readElements16 : Safe (readElements16 m length) := by
  intro it
  have hp := pointsTo_getReadPointerAndAdvanceElements length it
  unfold readElements16
  split
  · rename_i heq
    rw [heq] at hp
    exact ⟨hp.1, by simp⟩
  · rename_i heq
    rw [heq] at hp
    exact ⟨hp.1, by simpa [load] using hp.2⟩

theorem safe_readInt : Safe (readInt m) := (safe_readBuiltinType m 4).map

theorem safe_read (kind : Kind) : Safe (read m kind) := by
  cases kind with
  | int => exact (safe_readInt m).map
  | string => exact ((safe_readInt m).bind (safe_readBytes m)).map.map
  | string16 => exact ((safe_readInt m).bind (safe_readElements16 m)).map
  | data => exact ((safe_readInt m).bind (safe_readBytes m)).map
  | bytes length => exact (safe_readBytes m length).map
  | length => exact (safe_readInt m).filterMap.map
  | _ => exact (safe_readBuiltinType m _).map

theorem safe_readAll (kinds : List Kind) (it : PickleIterator) :
    Forward it (readAll m kinds it).result.2 ∧
      ∀ s ∈ (readAll m kinds it).spans, InPayload it s := by
  induction kinds generalizing it with
  | nil => exact ⟨Forward.refl it, by simp [readAll]⟩
  | cons kind kinds ih =>
    obtain ⟨hone, hsp⟩ := safe_read m kind it
    obtain ⟨hr, hsp'⟩ := ih (read m kind it).result.2
    refine ⟨hone.trans hr, fun s hs => ?_⟩
    simp only [readAll, spans_bind, spans_pure, List.append_nil] at hs
    rcases List.mem_append.mp hs with hs | hs
    · exact hsp s hs
    · exact (hsp' s hs).of_forward hone

def AtEnd (it : PickleIterator) : Prop := it.readIndex = it.endIndex

instance (it : PickleIterator) : Decidable (AtEnd it) :=
  inferInstanceAs (Decidable (_ = _))

theorem AtEnd.of_forward (h : AtEnd it) (hf : Forward it it') : AtEnd it' := by
  have := hf.read_le
  have := hf.end_eq
  have := it'.read_le
  unfold AtEnd at *
  omega

theorem atEnd_of_null (h : it.payload = none) : AtEnd it := by
  have := it.null_empty h
  have := it.read_le
  unfold AtEnd
  omega

theorem atEnd_of_getReadPointerAndAdvance (it : PickleIterator)
    (h : (getReadPointerAndAdvance size it).1 = none) :
    AtEnd (getReadPointerAndAdvance size it).2 := by
  have hp := pointsTo_getReadPointerAndAdvance size it
  unfold getReadPointerAndAdvance at h hp ⊢
  split
  · rfl
  · rw [if_neg (by assumption)] at h hp
    exact (atEnd_of_null (map_eq_none_iff.mp h)).of_forward hp.1

def FailsAtEnd {α : Type} (r : Read α) : Prop :=
  ∀ it, (r it).result.1 = none → AtEnd (r it).result.2

theorem FailsAtEnd.bind
    (hr : FailsAtEnd r) (hf : ∀ a, FailsAtEnd (f a)) : FailsAtEnd (r.bind f) := by
  intro it h
  simp only [Read.bind, result_bind] at h ⊢
  split
  · exact hr it (by assumption)
  · rename_i a ha
    simp only [ha] at h
    exact hf a _ h

theorem FailsAtEnd.map {f : α → β} (hr : FailsAtEnd r) : FailsAtEnd (r.map f) := by
  intro it h
  simp only [Read.map, Read.filterMap, result_bind, result_pure,
    bind_eq_none_iff, reduceCtorEq] at h ⊢
  exact hr it (eq_none_iff_forall_ne_some.mpr h)

end

theorem failsAtEnd_readBuiltinType : FailsAtEnd (readBuiltinType m size) := by
  intro it h
  have hend := atEnd_of_getReadPointerAndAdvance size it
  unfold readBuiltinType at h ⊢
  split
  · rename_i heq
    rw [heq] at hend
    exact hend rfl
  · rename_i heq
    rw [heq] at h
    cases h

theorem failsAtEnd_readBytes (length : Int32) : FailsAtEnd (readBytes m length) := by
  intro it h
  have hend : (getReadPointerAndAdvanceBytes length it).1 = none →
      AtEnd (getReadPointerAndAdvanceBytes length it).2 := by
    rw [getReadPointerAndAdvanceBytes_eq]
    split
    · exact fun _ => rfl
    · exact atEnd_of_getReadPointerAndAdvance _ it
  unfold readBytes at h ⊢
  split
  · rename_i heq
    rw [heq] at hend
    exact hend rfl
  · rename_i heq
    rw [heq] at h
    cases h

theorem readBuiltinType_of_lt {size : ℕ} (h : it.endIndex - it.readIndex < size) :
    readBuiltinType m size it = pure (none, it.toEnd) := by
  rw [readBuiltinType, getReadPointerAndAdvance, if_pos h]

theorem readBuiltinType_of_le {size base : ℕ} (hb : it.payload = some base)
    (h : size ≤ it.endIndex - it.readIndex) : (readBuiltinType m size it).result =
      (some (LittleEndian.ofBytes (slice m (base + it.readIndex) size)), it.advance size) := by
  rw [readBuiltinType, getReadPointerAndAdvance, if_neg (by omega), hb]
  rfl

def lengthWord (it : PickleIterator) : Int32 :=
  (UInt32.ofNat (LittleEndian.ofBytes
    (slice m (it.payload.getD 0 + it.readIndex) 4))).toInt32

theorem readInt_of_le (h : 4 ≤ it.endIndex - it.readIndex) :
    (readInt m it).result = (some (lengthWord m it), it.advance 4) := by
  cases hb : it.payload with
  | none =>
    have := it.null_empty hb
    omega
  | some base =>
    simp only [readInt, Read.map, Read.filterMap, result_bind, readBuiltinType_of_le m hb h,
      result_pure, bind_some, lengthWord, hb, getD_some]

theorem readInt_of_lt (h : it.endIndex - it.readIndex < 4) :
    (readInt m it).result = (none, it.toEnd) := by
  simp only [readInt, Read.map, Read.filterMap, result_bind,
    readBuiltinType_of_lt m h, result_pure, bind_none]

theorem advance_four_readIndex (h : 4 ≤ it.endIndex - it.readIndex) :
    (it.advance 4).readIndex = it.readIndex + 4 ∧ (it.advance 4).endIndex = it.endIndex := by
  have ha : align 4 4 = 4 := rfl
  simp only [advance]
  rw [dif_neg (by omega)]
  exact ⟨rfl, rfl⟩

/-- The length words after which a reader gives up without moving to the end:
`ReadString16` when the byte count is no `int`, `ReadLength` when the length is
negative. -/
def LengthRefused : Kind → Int32 → Prop
  | .string16, length => length.toInt < 0 ∨ 2 ^ 30 ≤ length.toInt
  | .length, length => length.toInt < 0
  | _, _ => False

instance : ∀ kind length, Decidable (LengthRefused kind length)
  | .string16, length =>
    inferInstanceAs (Decidable (length.toInt < 0 ∨ 2 ^ 30 ≤ length.toInt))
  | .length, length => inferInstanceAs (Decidable (length.toInt < 0))
  | .bool, _ | .int, _ | .long, _ | .uint16, _ | .uint32, _ | .int64, _
  | .uint64, _ | .float, _ | .double, _ | .string, _ | .data, _ | .bytes _, _ =>
    inferInstanceAs (Decidable False)

/-- The reader stops at a length it refuses, with payload left behind it. -/
def LeavesRest (kind : Kind) (it : PickleIterator) : Prop :=
  4 < it.endIndex - it.readIndex ∧ LengthRefused kind (lengthWord m it)

instance (m : Mem) (kind : Kind) (it : PickleIterator) :
    Decidable (LeavesRest m kind it) :=
  inferInstanceAs (Decidable (_ ∧ _))

theorem readElements16_of_refused (it : PickleIterator)
    (h : length.toInt < 0 ∨ 2 ^ 30 ≤ length.toInt) :
    readElements16 m length it = pure (none, it) := by
  rw [readElements16, getReadPointerAndAdvanceElements_two, if_pos h]

theorem failsAtEnd_readElements16 (h : ¬ (length.toInt < 0 ∨ 2 ^ 30 ≤ length.toInt)) :
    FailsAtEnd (readElements16 m length) := by
  intro it hn
  unfold readElements16 at hn ⊢
  rw [getReadPointerAndAdvanceElements_two, if_neg h] at hn ⊢
  have hend := atEnd_of_getReadPointerAndAdvance (2 * length.toInt.toNat) it
  split
  · rename_i heq
    rw [heq] at hend
    exact hend rfl
  · rename_i heq
    rw [heq] at hn
    cases hn

end

theorem atEnd_advance_four (h : 4 ≤ it.endIndex - it.readIndex) :
    AtEnd (it.advance 4) ↔ ¬ 4 < it.endIndex - it.readIndex := by
  obtain ⟨hr, hend⟩ := advance_four_readIndex h
  unfold AtEnd
  omega

/-- A failed `ReadString16` is at the end unless it has refused the length. -/
theorem readString16_failed (h : (readString16 m it).result.1 = none) :
    AtEnd (readString16 m it).result.2 ↔ ¬ LeavesRest m .string16 it := by
  simp only [readString16, Read.bind, result_bind] at h ⊢
  by_cases hw : 4 ≤ it.endIndex - it.readIndex
  · simp only [readInt_of_le m hw] at h ⊢
    by_cases hbad : (lengthWord m it).toInt < 0 ∨ 2 ^ 30 ≤ (lengthWord m it).toInt
    · rw [readElements16_of_refused m _ hbad]
      exact (atEnd_advance_four hw).trans (not_congr (and_iff_left hbad).symm)
    · have hend := failsAtEnd_readElements16 m hbad _ h
      exact iff_of_true hend fun hl => hbad hl.2
  · simp only [readInt_of_lt m (not_le.mp hw)]
    have hr : ¬ LeavesRest m .string16 it := fun hl => by
      have := hl.1
      omega
    exact iff_of_true rfl hr

theorem readLength_failed (h : (readLength m it).result.1 = none) :
    AtEnd (readLength m it).result.2 ↔ ¬ LeavesRest m .length it := by
  simp only [readLength, Read.filterMap, result_bind] at h ⊢
  by_cases hw : 4 ≤ it.endIndex - it.readIndex
  · simp only [readInt_of_le m hw, bind_some] at h ⊢
    have hbad : (lengthWord m it).toInt < 0 := by
      by_contra hge
      rw [if_pos (by omega)] at h
      cases h
    exact (atEnd_advance_four hw).trans (not_congr (and_iff_left hbad).symm)
  · simp only [readInt_of_lt m (not_le.mp hw)]
    have hr : ¬ LeavesRest m .length it := fun hl => by
      have := hl.1
      omega
    exact iff_of_true rfl hr

theorem result_map_eq_none {α β : Type} {r : Read α} {f : α → β} :
    ((r.map f) it).result.1 = none ↔ (r it).result.1 = none := by
  simp only [Read.map, Read.filterMap, result_bind]
  cases (r it).result.1 <;> simp

/-- A failed read leaves the iterator at the end, except when it stops at a
length it refuses. -/
theorem read_failed (h : (read m kind it).result.1 = none) :
    AtEnd (read m kind it).result.2 ↔ ¬ LeavesRest m kind it := by
  have hfa : FailsAtEnd (read m kind) → (∀ n, ¬ LengthRefused kind n) →
      (AtEnd (read m kind it).result.2 ↔ ¬ LeavesRest m kind it) :=
    fun hf hn => iff_of_true (hf it h) fun hl => hn _ hl.2
  have hint : FailsAtEnd (readInt m) := (failsAtEnd_readBuiltinType m 4).map
  cases kind with
  | int => exact hfa hint.map fun _ => id
  | string => exact hfa (hint.bind (failsAtEnd_readBytes m)).map.map fun _ => id
  | string16 => exact readString16_failed (result_map_eq_none.mp h)
  | data => exact hfa (hint.bind (failsAtEnd_readBytes m)).map fun _ => id
  | bytes length => exact hfa (failsAtEnd_readBytes m length).map fun _ => id
  | length => exact readLength_failed (result_map_eq_none.mp h)
  | _ => exact hfa (failsAtEnd_readBuiltinType m _).map fun _ => id

def Kind.NonEmpty : Kind → Prop
  | .bytes n => n ≠ 0
  | _ => True

/-- At the end nothing can be read but an empty value. -/
theorem read_atEnd (hend : AtEnd it) (hk : kind.NonEmpty) : (read m kind it).result.1 = none := by
  have hl : it.endIndex - it.readIndex = 0 := by
    unfold AtEnd at hend
    omega
  have hpod : ∀ size, 0 < size → (readBuiltinType m size it).result.1 = none := by
    intro size hs
    rw [readBuiltinType_of_lt m (by omega)]
    rfl
  have hint : (readInt m it).result.1 = none := by rw [readInt_of_lt m (by omega)]
  have hb : ∀ {α : Type} (f : Int32 → Read α), (((readInt m).bind f) it).result.1 = none := by
    simp [Read.bind, hint]
  cases kind with
  | int => exact result_map_eq_none.mpr hint
  | string => exact result_map_eq_none.mpr (result_map_eq_none.mpr (hb _))
  | string16 | data => exact result_map_eq_none.mpr (hb _)
  | bytes length =>
    apply result_map_eq_none.mpr
    have hpos : length.toInt < 0 ∨ it.endIndex - it.readIndex < length.toInt.toNat := by
      have : length.toInt ≠ 0 := fun h => hk (Int32.toInt_inj.mp h)
      omega
    rw [readBytes, getReadPointerAndAdvanceBytes, if_pos hpos]
    rfl
  | length =>
    apply result_map_eq_none.mpr
    simp [readLength, Read.filterMap, hint]
  | _ => exact result_map_eq_none.mpr (hpod _ (by decide))

theorem readAll_atEnd {kinds : List Kind} (hend : AtEnd it) :
    List.Forall₂ (fun kind out => kind.NonEmpty → out = none) kinds
      (readAll m kinds it).result.1 := by
  induction kinds generalizing it with
  | nil => exact .nil
  | cons kind kinds ih =>
    exact .cons (read_atEnd hend) (ih (hend.of_forward (safe_read m kind it).1))

end PickleIterator

end ChromiumBase
