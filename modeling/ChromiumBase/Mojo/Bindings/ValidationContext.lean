import ChromiumBase.Lib.LittleEndian
import ChromiumBase.Lib.Memory

/-!
# Validation contexts

The state that the validation of a received message threads through its calls
(`mojo/public/cpp/bindings/lib/validation_context.h`) and the decoding of relative pointers
(`bindings_internal.h`, `validation_util.h`).  Addresses are natural numbers; where the source
adds to a `uintptr_t` the sum is cut to 64 bits.
-/

open Memory

namespace ChromiumBase.Bindings

/-- `ValidationError`, as far as it is reported by the functions below. -/
inductive ValidationError where
  | misalignedObject
  | illegalMemoryRange
  | unexpectedStructHeader
  | unexpectedArrayHeader
  | illegalHandle
  | unexpectedInvalidHandle
  | illegalPointer
  | unexpectedNullPointer
  | illegalInterfaceId
  | unexpectedInvalidInterfaceId
  | messageHeaderInvalidFlags
  | messageHeaderMissingRequestId
  | differentSizedArraysInMap
  | unknownEnumValue
  | maxRecursionDepth
  deriving DecidableEq, Repr

/-- The outcome of a validation that returns false comes with the error it has reported, if it
has reported one. -/
abbrev Validated := Except (Option ValidationError)

def require (c : Prop) [Decidable c] (e : ValidationError) : Validated Unit :=
  if c then .ok () else .error (some e)

def kMaxRecursionDepth : ℤ := 100

def kEncodedInvalidHandleValue : ℕ := 2 ^ 32 - 1

structure ValidationContext where
  dataBegin : ℕ
  dataEnd : ℕ
  handleBegin : ℕ
  handleEnd : ℕ
  associatedEndpointHandleBegin : ℕ
  associatedEndpointHandleEnd : ℕ
  stackDepth : ℤ
  deriving DecidableEq, Repr

namespace ValidationContext

def new (data dataNumBytes numHandles numAssociatedEndpointHandles : ℕ) : ValidationContext :=
  let dataEnd := (data + dataNumBytes) % 2 ^ 64
  let handleEnd := numHandles % 2 ^ 32
  let associatedEndpointHandleEnd := numAssociatedEndpointHandles % 2 ^ 32
  { dataBegin := data
    dataEnd := if dataEnd < data then data else dataEnd
    handleBegin := 0
    handleEnd := if handleEnd < numHandles then 0 else handleEnd
    associatedEndpointHandleBegin := 0
    associatedEndpointHandleEnd :=
      if associatedEndpointHandleEnd < numAssociatedEndpointHandles then 0
      else associatedEndpointHandleEnd
    stackDepth := 0 }

variable (ctx : ValidationContext)

def InternalIsValidRange (start stop : ℕ) : Prop :=
  stop > start ∧ start ≥ ctx.dataBegin ∧ stop ≤ ctx.dataEnd

instance (ctx : ValidationContext) (start stop : ℕ) :
    Decidable (ctx.InternalIsValidRange start stop) :=
  inferInstanceAs (Decidable (_ ∧ _ ∧ _))

def IsValidRange (position numBytes : ℕ) : Prop :=
  ctx.InternalIsValidRange position ((position + numBytes) % 2 ^ 64)

instance (ctx : ValidationContext) (position numBytes : ℕ) :
    Decidable (ctx.IsValidRange position numBytes) :=
  inferInstanceAs (Decidable (ctx.InternalIsValidRange _ _))

/-- The claims return the context after the claim, or nothing where the source returns false. -/
def claimMemory (position numBytes : ℕ) : Option ValidationContext :=
  let stop := (position + numBytes) % 2 ^ 64
  if ctx.InternalIsValidRange position stop then some { ctx with dataBegin := stop } else none

def claimHandle (index : ℕ) : Option ValidationContext :=
  if index = kEncodedInvalidHandleValue then some ctx
  else if index < ctx.handleBegin ∨ index ≥ ctx.handleEnd then none
  else some { ctx with handleBegin := index + 1 }

def claimAssociatedEndpointHandle (index : ℕ) : Option ValidationContext :=
  if index = kEncodedInvalidHandleValue then some ctx
  else if index < ctx.associatedEndpointHandleBegin ∨
      index ≥ ctx.associatedEndpointHandleEnd then none
  else some { ctx with associatedEndpointHandleBegin := index + 1 }

def ExceedsMaxDepth : Prop := ctx.stackDepth > kMaxRecursionDepth

instance (ctx : ValidationContext) : Decidable ctx.ExceedsMaxDepth :=
  inferInstanceAs (Decidable (_ > _))

end ValidationContext

def orReport (r : Option ValidationContext) (e : ValidationError) : Validated ValidationContext :=
  r.elim (.error (some e)) .ok

variable {e : ValidationError} {c : Prop}

theorem require_eq_ok [Decidable c] {u : Unit} (h : require c e = .ok u) : c := by
  unfold require at h
  split at h
  · assumption
  · cases h

theorem orReport_eq_ok {r : Option ValidationContext} {ctx : ValidationContext}
    (h : orReport r e = .ok ctx) : r = some ctx := by
  cases r with
  | none => cases h
  | some c => exact congrArg some (Except.ok.inj h)

section

variable (m : Mem) (data : ℕ)

def readUInt32 (address : ℕ) : ℕ := LittleEndian.ofBytes (slice m address 4)

def readUInt64 (address : ℕ) : ℕ := LittleEndian.ofBytes (slice m address 8)

theorem readUInt32_lt (address : ℕ) : readUInt32 m address < 2 ^ 32 := by
  have h := LittleEndian.ofBytes_lt (slice m address 4)
  rw [length_slice] at h
  exact h

def IsAligned (address : ℕ) : Prop := address % 8 = 0

instance (address : ℕ) : Decidable (IsAligned address) := inferInstanceAs (Decidable (_ = _))

/-- The address that the pointer stored at `slot` stands for; 0 is the null pointer. -/
def decodePointer (slot : ℕ) : ℕ :=
  if readUInt64 m slot = 0 then 0 else (slot + readUInt64 m slot) % 2 ^ 64

def ValidateEncodedPointer (slot : ℕ) : Prop :=
  readUInt64 m slot ≤ 2 ^ 32 - 1 ∧ (slot + readUInt64 m slot % 2 ^ 32) % 2 ^ 64 ≥ slot

instance (m : Mem) (slot : ℕ) : Decidable (ValidateEncodedPointer m slot) :=
  inferInstanceAs (Decidable (_ ∧ _))

/-- `StructHeader` and `ArrayHeader` both take eight bytes and start with their number of
bytes. -/
def kHeaderSize : ℕ := 8

def numBytes : ℕ := readUInt32 m data

theorem numBytes_lt : numBytes m data < 2 ^ 32 := readUInt32_lt m data

def numElements : ℕ := readUInt32 m (data + 4)

def version : ℕ := readUInt32 m (data + 4)

def validateStructHeaderAndClaimMemory (ctx : ValidationContext) : Validated ValidationContext := do
  require (IsAligned data) .misalignedObject
  require (ctx.IsValidRange data kHeaderSize) .illegalMemoryRange
  require (kHeaderSize ≤ numBytes m data) .unexpectedStructHeader
  orReport (ctx.claimMemory data (numBytes m data)) .illegalMemoryRange

/-- `ValidateContainer`, for a target whose `Validate` is given: the depth is counted while the
call lasts, and checked before the pointer is looked at. -/
def validateContainer (validate : ℕ → ValidationContext → Validated ValidationContext)
    (slot : ℕ) (ctx : ValidationContext) : Validated ValidationContext := do
  let ctx := { ctx with stackDepth := ctx.stackDepth + 1 }
  require (¬ ctx.ExceedsMaxDepth) .maxRecursionDepth
  require (ValidateEncodedPointer m slot) .illegalPointer
  let ctx ← validate (decodePointer m slot) ctx
  pure { ctx with stackDepth := ctx.stackDepth - 1 }

end

namespace ValidationContext

variable {ctx ctx' ctx'' : ValidationContext} {position n index : ℕ}

theorem claimMemory_eq_some (hn : n < 2 ^ 32) (h : ctx.claimMemory position n = some ctx') :
    ctx.dataBegin ≤ position ∧ position + n ≤ ctx.dataEnd ∧
      ctx' = { ctx with dataBegin := position + n } := by
  unfold claimMemory at h
  dsimp only at h
  split at h
  case isFalse => cases h
  case isTrue hr =>
      obtain ⟨hlt, hb, hle⟩ := hr
      have hs : (position + n) % 2 ^ 64 = position + n := by omega
      rw [hs] at h hlt hle
      exact ⟨hb, hle, (Option.some.inj h).symm⟩

/-- What a claim of an index does. -/
theorem claimed_or_invalid [Decidable c]
    (h : (if index = kEncodedInvalidHandleValue then some ctx else if c then none else some ctx'') =
      some ctx') :
    index = kEncodedInvalidHandleValue ∧ ctx' = ctx ∨
      index ≠ kEncodedInvalidHandleValue ∧ ¬ c ∧ ctx' = ctx'' := by
  split at h
  case isTrue hi => exact .inl ⟨hi, (Option.some.inj h).symm⟩
  case isFalse hv =>
      split at h
      case isTrue => cases h
      case isFalse hr => exact .inr ⟨hv, hr, (Option.some.inj h).symm⟩

end ValidationContext

end ChromiumBase.Bindings
