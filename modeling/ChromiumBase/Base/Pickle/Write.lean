import ChromiumBase.Lib.LittleEndian

/-!
# Writing a pickle

The writing half of `base/pickle.cc`. A pickle is a header, whose first word is
the payload size, followed by the payload. Every write goes through
`writeBytesCommon`, which pads the item to four bytes, grows the buffer when
the padded item does not fit, and records the new payload size.

Only the bytes below `writeOffset` are part of the payload, so the buffer is
kept as the list of these bytes next to the capacity that was allocated for
them. The assertions the writers make about sizes are part of the model: an
operation that would trip one has no result.
-/

open List

namespace ChromiumBase

/-- A writable pickle: the fields of `Pickle`, with the payload in place of the
part of the buffer that holds it. -/
structure Pickle where
  headerSize : ℕ
  capacityAfterHeader : ℕ
  writeOffset : ℕ
  payloadSize : ℕ
  payload : List UInt8
  deriving DecidableEq, Repr

namespace Pickle

/-- Round `size` up to a multiple of `alignment`, which is a power of two, in 64-bit arithmetic. -/
def align (size alignment : ℕ) : ℕ :=
  (size + alignment - 1) % 2 ^ 64 / alignment * alignment

def payloadUnit : ℕ := 64

def pickleHeapAlign : ℕ := 4096

def uint32Max : ℕ := 2 ^ 32 - 1

def resize (newCapacity : ℕ) (p : Pickle) : Pickle :=
  { p with capacityAfterHeader := align newCapacity payloadUnit }

/-- `Pickle(int header_size)`; the assertions ask for at least one header word
and at most one payload unit. `Pickle()` is the case of a bare header. -/
def new (headerSize : ℕ) : Option Pickle :=
  if headerSize < 4 ∨ payloadUnit < headerSize then
    none
  else
    some (resize payloadUnit ⟨align headerSize 4, 0, 0, 0, []⟩)

def size (p : Pickle) : ℕ := p.headerSize + p.payloadSize

/-- The size assertions shared by `Reserve` and
`ClaimUninitializedBytesInternal`, for a request of `length` bytes. -/
def sizesOk (length : ℕ) (p : Pickle) : Bool :=
  length ≤ align length 4 ∧ align length 4 ≤ uint32Max ∧
    p.writeOffset ≤ uint32Max - align length 4

/-- The capacity `ClaimUninitializedBytesInternal` grows to when the current
one is too small. -/
def grownCapacity (capacity newSize : ℕ) : ℕ :=
  let newCapacity := capacity * 2
  max (if newCapacity > pickleHeapAlign then
      align newCapacity pickleHeapAlign - payloadUnit
    else newCapacity) newSize

/-- `WriteBytesCommon` with `ClaimUninitializedBytesInternal` inlined: append
the first `length` bytes of `data` and pad them to four bytes with zeros. -/
def writeBytesCommon (data : List UInt8) (length : ℕ) (p : Pickle) :
    Option Pickle :=
  if sizesOk length p then
    let dataLen := align length 4
    let newSize := p.writeOffset + dataLen
    let q := if newSize > p.capacityAfterHeader then
        resize (grownCapacity p.capacityAfterHeader newSize) p
      else p
    some { q with
      payload := q.payload ++
        (data.take length ++ List.replicate (dataLen - length) 0)
      payloadSize := newSize % 2 ^ 32
      writeOffset := newSize }
  else
    none

def reserve (length : ℕ) (p : Pickle) : Option Pickle :=
  if sizesOk length p then
    let newSize := p.writeOffset + align length 4
    some (if newSize > p.capacityAfterHeader then
      resize (p.capacityAfterHeader * 2 + newSize) p else p)
  else
    none

def intToSize (x : Int32) : ℕ := (x.toInt % 2 ^ 64).toNat

def Block := {bs : List UInt8 // bs.length < 2 ^ 31}
  deriving DecidableEq

/-- A value that can be written to a pickle; the floating point types appear
as their bit patterns. -/
inductive Item where
  | bool (value : Bool)
  | int (value : Int32)
  | long (value : Int64)
  | uint16 (value : UInt16)
  | uint32 (value : UInt32)
  | int64 (value : Int64)
  | uint64 (value : UInt64)
  | float (bits : UInt32)
  | double (bits : UInt64)
  | string (value : List UInt8)
  | string16 (value : List UInt16)
  | data (value : Block)
  | bytes (value : Block)
  deriving DecidableEq

/-- The `size` bytes of an integer, in the byte order of the machine. -/
def writePOD (size value : ℕ) (p : Pickle) : Option Pickle :=
  writeBytesCommon (LittleEndian.toBytes size value) size p

def writeInt (value : Int32) (p : Pickle) : Option Pickle :=
  writePOD 4 value.toUInt32.toNat p

def writeBytes (data : List UInt8) (length : Int32) (p : Pickle) :
    Option Pickle :=
  writeBytesCommon data (intToSize length) p

def string16Bytes (value : List UInt16) : List UInt8 :=
  value.flatMap fun c => LittleEndian.toBytes 2 c.toNat

def writeString (value : List UInt8) (p : Pickle) : Option Pickle :=
  (writeInt (Int32.ofNat value.length) p).bind
    (writeBytes value (Int32.ofNat value.length))

/-- `WriteString16`: the character count is cast to `int`, multiplied by the
character size as a `size_t`, and passed on as an `int`. -/
def writeString16 (value : List UInt16) (p : Pickle) : Option Pickle :=
  (writeInt (Int32.ofNat value.length) p).bind
    (writeBytes (string16Bytes value)
      (Int32.ofNat (intToSize (Int32.ofNat value.length) * 2 % 2 ^ 64)))

def writeData (value : Block) (p : Pickle) : Option Pickle :=
  (writeInt (Int32.ofNat value.1.length) p).bind
    (writeBytes value.1 (Int32.ofNat value.1.length))

def write (item : Item) (p : Pickle) : Option Pickle :=
  match item with
  | .bool value => writeInt (if value then 1 else 0) p
  | .int value => writeInt value p
  | .long value => writePOD 8 value.toUInt64.toNat p
  | .uint16 value => writePOD 2 value.toNat p
  | .uint32 value => writePOD 4 value.toNat p
  | .int64 value => writePOD 8 value.toUInt64.toNat p
  | .uint64 value => writePOD 8 value.toNat p
  | .float bits => writePOD 4 bits.toNat p
  | .double bits => writePOD 8 bits.toNat p
  | .string value => writeString value p
  | .string16 value => writeString16 value p
  | .data value => writeData value p
  | .bytes value => writeBytes value.1 (Int32.ofNat value.1.length) p

inductive WriteOp where
  | item (item : Item)
  | reserve (length : ℕ)

def WriteOp.apply (op : WriteOp) (p : Pickle) : Option Pickle :=
  match op with
  | .item x => write x p
  | .reserve length => Pickle.reserve length p

def writeAll : List WriteOp → Pickle → Option Pickle
  | [], p => some p
  | op :: ops, p => (op.apply p).bind (writeAll ops)

def items (ops : List WriteOp) : List Item :=
  ops.filterMap fun
    | .item x => some x
    | .reserve _ => none

variable {n length a : ℕ} {bs : List UInt8} {p q : Pickle}

theorem align_eq (h : n + a - 1 < 2 ^ 64) : align n a = (n + a - 1) / a * a := by
  rw [align, Nat.mod_eq_of_lt h]

theorem align_bounds (ha : 0 < a) (h : n + a - 1 < 2 ^ 64) : n ≤ align n a ∧ align n a < n + a := by
  rw [align_eq h]
  have hdiv := Nat.div_add_mod' (n + a - 1) a
  have hmod := Nat.mod_lt (n + a - 1) ha
  omega

def padded (bs : List UInt8) : List UInt8 :=
  bs ++ List.replicate (align bs.length 4 - bs.length) 0

theorem length_padded (h : bs.length ≤ align bs.length 4) :
    (padded bs).length = align bs.length 4 := by
  simp [padded, h]

structure Wf (p : Pickle) : Prop where
  offset_eq : p.writeOffset = p.payload.length
  size_eq : p.payloadSize = p.payload.length
  lt : p.payload.length < 2 ^ 32
  capacity_le : p.payload.length ≤ p.capacityAfterHeader
  capacity_lt : p.capacityAfterHeader < 2 ^ 36
  header_pos : 4 ≤ p.headerSize
  header_dvd : 4 ∣ p.headerSize
  header_le : p.headerSize ≤ payloadUnit

theorem wf_new {headerSize : ℕ} (h : new headerSize = some p) : Wf p ∧ p.payload = [] := by
  unfold new at h
  split at h
  · cases h
  · rename_i hs
    simp only [payloadUnit] at hs
    have hr := align_bounds (n := headerSize) (a := 4) (by omega) (by omega)
    have hdvd : 4 ∣ align headerSize 4 := Dvd.intro_left _ rfl
    cases h
    refine ⟨⟨rfl, rfl, by simp [resize], by simp [resize], ?_, ?_, hdvd, ?_⟩, rfl⟩
    · simp [resize, align, payloadUnit]
    all_goals
      simp only [resize, payloadUnit]
      omega

/-- The pickle `q` is `p` with the bytes `bs` appended to its payload, up to
the capacity. -/
structure Extends (p q : Pickle) (bs : List UInt8) : Prop where
  payload_eq : q.payload = p.payload ++ bs
  header_eq : q.headerSize = p.headerSize
  wf : Wf q

theorem Extends.trans {r : Pickle} {cs : List UInt8} (h₁ : Extends p q bs) (h₂ : Extends q r cs) :
    Extends p r (bs ++ cs) where
  payload_eq := by rw [h₂.payload_eq, h₁.payload_eq, append_assoc]
  header_eq := h₂.header_eq.trans h₁.header_eq
  wf := h₂.wf

theorem sizesOk_bounds (h : sizesOk length p = true) :
    length ≤ align length 4 ∧ p.writeOffset + align length 4 < 2 ^ 32 := by
  have hs := of_decide_eq_true h
  simp only [uint32Max] at hs
  omega

theorem resize_wf (capacity need : ℕ) (hp : Wf p) (hn : p.payload.length ≤ need)
    (hcap : need ≤ capacity) (hlt : capacity < 2 ^ 35) :
    Wf (resize capacity p) ∧ need ≤ (resize capacity p).capacityAfterHeader := by
  have hr := align_bounds (n := capacity) (a := payloadUnit) (by decide)
  simp only [payloadUnit] at hr
  obtain ⟨h₁, h₂, h₃, h₄, h₅, h₆, h₇, h₈⟩ := hp
  refine ⟨⟨h₁, h₂, h₃, ?_, ?_, h₆, h₇, h₈⟩, ?_⟩
  all_goals
    simp only [resize, payloadUnit]
    omega

theorem grownCapacity_bounds (capacity newSize : ℕ) (h : capacity < 2 ^ 32)
    (hs : newSize < 2 ^ 32) : newSize ≤ grownCapacity capacity newSize ∧
      grownCapacity capacity newSize < 2 ^ 35 := by
  have hr := align_bounds (n := capacity * 2) (a := pickleHeapAlign) (by decide)
  simp only [grownCapacity]
  simp only [pickleHeapAlign] at hr
  split
  · simp only [pickleHeapAlign]
    omega
  · omega

theorem reserve_extends (hp : Wf p) (h : reserve length p = some q) : Extends p q [] := by
  simp only [reserve] at h
  split at h
  · rename_i hok
    have hs := sizesOk_bounds hok
    have ho := hp.offset_eq
    cases h
    split
    · have hcap := (resize_wf
        (p.capacityAfterHeader * 2 + (p.writeOffset + align length 4))
        (p.writeOffset + align length 4) hp
        (by omega) (by omega) (by omega)).1
      exact ⟨by simp [resize], rfl, hcap⟩
    · exact ⟨by simp, rfl, hp⟩
  · cases h

/-- The bytes and their padding are appended, and the capacity suffices. -/
theorem writeBytesCommon_extends {data : List UInt8} (hp : Wf p)
    (h : writeBytesCommon data data.length p = some q) : Extends p q (padded data) := by
  simp only [writeBytesCommon] at h
  split at h
  · rename_i hok
    obtain ⟨hro, hs⟩ := sizesOk_bounds hok
    have hlen := length_padded hro
    have ho := hp.offset_eq
    -- The grown pickle differs from `p` in its capacity only.
    obtain ⟨r, hr, hwf, hcap, hpay, hh⟩ : ∃ r, r =
        (if p.writeOffset + align data.length 4 > p.capacityAfterHeader then
          resize (grownCapacity p.capacityAfterHeader
            (p.writeOffset + align data.length 4)) p else p) ∧ Wf r ∧
        p.writeOffset + align data.length 4 ≤ r.capacityAfterHeader ∧
        r.payload = p.payload ∧ r.headerSize = p.headerSize := by
      refine ⟨_, rfl, ?_⟩
      split
      · have hg := grownCapacity_bounds p.capacityAfterHeader
          (p.writeOffset + align data.length 4) (by omega) hs
        have hres := resize_wf _ (p.writeOffset + align data.length 4) hp
          (by omega) hg.1 hg.2
        exact ⟨hres.1, hres.2, rfl, rfl⟩
      · exact ⟨hp, by omega, rfl, rfl⟩
    rw [← hr, take_length] at h
    cases h
    have hmod : (p.writeOffset + align data.length 4) % 2 ^ 32 =
        p.writeOffset + align data.length 4 := Nat.mod_eq_of_lt hs
    have hpa : data ++ List.replicate (align data.length 4 - data.length) 0 =
        padded data := rfl
    simp only [hpay, hpa]
    refine ⟨rfl, hh, ⟨?_, ?_, ?_, ?_, hwf.capacity_lt, hwf.header_pos,
      hwf.header_dvd, hwf.header_le⟩⟩
    all_goals
      simp only [length_append]
      omega
  · cases h

/-- The byte length that writing a string casts to an `int`. The other types
carry no length, or one that is an `int` already. -/
def Item.byteLength : Item → ℕ
  | .string value => value.length
  | .string16 value => 2 * value.length
  | _ => 0

def Item.Fits (item : Item) : Prop := item.byteLength < 2 ^ 31

instance (item : Item) : Decidable item.Fits :=
  inferInstanceAs (Decidable (item.byteLength < 2 ^ 31))

def encodePOD (size value : ℕ) : List UInt8 :=
  padded (LittleEndian.toBytes size value)

def encodeSized (length : ℕ) (bs : List UInt8) : List UInt8 :=
  encodePOD 4 length ++ padded bs

def encode : Item → List UInt8
  | .bool value => encodePOD 4 (if value then 1 else 0)
  | .int value => encodePOD 4 value.toUInt32.toNat
  | .long value => encodePOD 8 value.toUInt64.toNat
  | .uint16 value => encodePOD 2 value.toNat
  | .uint32 value => encodePOD 4 value.toNat
  | .int64 value => encodePOD 8 value.toUInt64.toNat
  | .uint64 value => encodePOD 8 value.toNat
  | .float bits => encodePOD 4 bits.toNat
  | .double bits => encodePOD 8 bits.toNat
  | .string value => encodeSized value.length value
  | .string16 value => encodeSized value.length (string16Bytes value)
  | .data value => encodeSized value.1.length value.1
  | .bytes value => padded value.1

@[simp] theorem length_string16Bytes (value : List UInt16) :
    (string16Bytes value).length = 2 * value.length := by
  induction value with
  | nil => rfl
  | cons c cs ih =>
    simp only [string16Bytes, flatMap_cons, length_append,
      LittleEndian.length_toBytes, length_cons] at ih ⊢
    omega

theorem intToSize_ofNat (h : n < 2 ^ 31) : intToSize (Int32.ofNat n) = n := by
  rw [intToSize, Int32.toInt_ofNat_of_lt h]
  omega

variable (hp : Wf p)

include hp

theorem writePOD_extends {size value : ℕ} (h : writePOD size value p = some q) :
    Extends p q (encodePOD size value) := by
  apply writeBytesCommon_extends hp
  rwa [LittleEndian.length_toBytes]

theorem writeInt_ofNat_extends (hn : n < 2 ^ 31)
    (h : writeInt (Int32.ofNat n) p = some q) : Extends p q (encodePOD 4 n) := by
  have hw : (Int32.ofNat n).toUInt32.toNat = n := by
    change n % 2 ^ 32 = n
    omega
  rw [writeInt, hw] at h
  exact writePOD_extends hp h

theorem writeBytes_extends (hn : bs.length < 2 ^ 31)
    (h : writeBytes bs (Int32.ofNat bs.length) p = some q) : Extends p q (padded bs) := by
  rw [writeBytes, intToSize_ofNat hn] at h
  exact writeBytesCommon_extends hp h

theorem writeSized_extends (hn : n < 2 ^ 31) (hbs : bs.length < 2 ^ 31)
    (h : (writeInt (Int32.ofNat n) p).bind (writeBytes bs (Int32.ofNat bs.length)) = some q) :
    Extends p q (encodeSized n bs) := by
  obtain ⟨r, hr, hq⟩ := Option.bind_eq_some_iff.mp h
  have hint := writeInt_ofNat_extends hp hn hr
  exact hint.trans (writeBytes_extends hint.wf hbs hq)

theorem writeString16_extends {value : List UInt16} (hn : 2 * value.length < 2 ^ 31)
    (h : writeString16 value p = some q) :
    Extends p q (encodeSized value.length (string16Bytes value)) := by
  have hc : intToSize (Int32.ofNat value.length) * 2 % 2 ^ 64 =
      (string16Bytes value).length := by
    rw [intToSize_ofNat (by omega), length_string16Bytes]
    omega
  rw [writeString16, hc] at h
  exact writeSized_extends hp (by omega) (by simpa using hn) h

theorem write_extends {item : Item} (hf : item.Fits) (h : write item p = some q) :
    Extends p q (encode item) := by
  cases item with
  | bool value =>
    cases value
    · exact writePOD_extends hp h
    · exact writePOD_extends hp h
  | string value => exact writeSized_extends hp hf hf h
  | string16 value => exact writeString16_extends hp hf h
  | data value => exact writeSized_extends hp value.2 value.2 h
  | bytes value => exact writeBytes_extends hp value.2 h
  | _ => exact writePOD_extends hp h

/-- A sequence of writes appends the encodings of its items, in order. -/
theorem writeAll_extends {ops : List WriteOp} (hf : ∀ item ∈ items ops, item.Fits)
    (h : writeAll ops p = some q) : Extends p q ((items ops).flatMap encode) := by
  induction ops generalizing p with
  | nil =>
    cases h
    exact ⟨by simp [items], rfl, hp⟩
  | cons op ops ih =>
    obtain ⟨r, hr, hq⟩ := Option.bind_eq_some_iff.mp h
    cases op with
    | item x =>
      have hit : items (.item x :: ops) = x :: items ops := rfl
      rw [hit] at hf ⊢
      have hone := write_extends hp (hf x (by simp)) hr
      have hre := ih hone.wf (fun item hi => hf item (by simp [hi])) hq
      exact hone.trans hre
    | reserve length =>
      have hone := reserve_extends hp hr
      exact hone.trans (ih hone.wf hf hq)

end Pickle

end ChromiumBase
