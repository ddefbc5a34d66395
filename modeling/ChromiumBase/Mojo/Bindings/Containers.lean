import ChromiumBase.Mojo.Bindings.ValidationContext

/-!
# Arrays and maps in a received message

`Array_Data::Validate` and `Map_Data::Validate` (`array_internal.h`, `map_data_internal.h`) for
containers of bools, integers, handles and pointers to containers, nested to any depth.  A type
carries the parameters its `ContainerValidateParams` give: the expected number of elements,
whether elements may be null and the check of an enumeration.

A `Visit` is one call of `Validate`; `visits` lists the calls that the pointers in the buffer
lead to, so that the visits with a non-null address are the objects reachable from the root.
-/

open Memory

namespace ChromiumBase.Bindings

inductive IntegerWidth where
  | bits8
  | bits16
  | bits32
  | bits64
  deriving DecidableEq, Repr

def IntegerWidth.bytes : IntegerWidth → ℕ
  | bits8 => 1
  | bits16 => 2
  | bits32 => 4
  | bits64 => 8

/-- `Handle_Data`, `Interface_Data`, `AssociatedEndpointHandle_Data` and
`AssociatedInterface_Data`; each starts with the index. -/
inductive HandleKind where
  | handle
  | interface
  | associatedEndpointHandle
  | associatedInterface
  deriving DecidableEq, Repr

namespace HandleKind

def bytes : HandleKind → ℕ
  | handle | associatedEndpointHandle => 4
  | interface | associatedInterface => 8

def associated : HandleKind → Bool
  | handle | interface => false
  | associatedEndpointHandle | associatedInterface => true

def invalidError (kind : HandleKind) : ValidationError :=
  if kind.associated then .unexpectedInvalidInterfaceId else .unexpectedInvalidHandle

def illegalError (kind : HandleKind) : ValidationError :=
  if kind.associated then .illegalInterfaceId else .illegalHandle

end HandleKind

mutual

inductive ElementType where
  | bool
  | integer (width : IntegerWidth) (validateEnumFunc : Option (ℤ → Bool))
  | handle (kind : HandleKind) (elementIsNullable : Bool)
  | pointer (target : ContainerType) (elementIsNullable : Bool)

/-- `Array_Data<T>` with its parameters; an expected number of 0 allows any number. -/
inductive ArrayType where
  | mk (element : ElementType) (expectedNumElements : ℕ)

inductive ContainerType where
  | array (type : ArrayType)
  | map (keys values : ArrayType)

end

namespace ElementType

def storageBytes : ElementType → ℕ
  | bool => 1
  | integer width _ => width.bytes
  | handle kind _ => kind.bytes
  | pointer _ _ => 8

def kMaxNumElements : ElementType → ℕ
  | bool => 2 ^ 32 - 1
  | t => (2 ^ 32 - 1 - kHeaderSize) / t.storageBytes

/-- For bools the sum is taken in 32 bits. -/
def getStorageSize : ElementType → ℕ → ℕ
  | bool, n => (kHeaderSize + (n + 7) % 2 ^ 32 / 8) % 2 ^ 32
  | t, n => (kHeaderSize + t.storageBytes * n) % 2 ^ 32

def location : ElementType → ℕ → ℕ → Span
  | bool, data, i => ⟨data + kHeaderSize + i / 8, 1⟩
  | t, data, i => ⟨data + kHeaderSize + t.storageBytes * i, t.storageBytes⟩

end ElementType

def forElements (n : ℕ) (f : ℕ → ValidationContext → Validated ValidationContext)
    (ctx : ValidationContext) : Validated ValidationContext :=
  (List.range n).foldlM (fun ctx i => f i ctx) ctx

def claim (kind : HandleKind) (ctx : ValidationContext) (index : ℕ) : Option ValidationContext :=
  if kind.associated then ctx.claimAssociatedEndpointHandle index else ctx.claimHandle index

def validateHandleElement (m : Mem) (kind : HandleKind) (elementIsNullable : Bool) (address : ℕ)
    (ctx : ValidationContext) : Validated ValidationContext := do
  require (elementIsNullable ∨ readUInt32 m address ≠ kEncodedInvalidHandleValue) kind.invalidError
  orReport (claim kind ctx (readUInt32 m address)) kind.illegalError

def readEnum (m : Mem) (width : IntegerWidth) (address : ℕ) : ℤ :=
  (BitVec.ofNat 32 (LittleEndian.ofBytes (slice m address width.bytes))).toInt

mutual

def ElementType.validateElements (m : Mem) :
    ElementType → ℕ → ℕ → ValidationContext → Validated ValidationContext
  | .bool, _, _, ctx => .ok ctx
  | .integer _ none, _, _, ctx => .ok ctx
  | .integer width (some validateEnumFunc), n, elements, ctx =>
    forElements n (fun i ctx => do
      require (validateEnumFunc (readEnum m width (elements + width.bytes * i))) .unknownEnumValue
      pure ctx) ctx
  | .handle kind elementIsNullable, n, elements, ctx =>
    forElements n (fun i =>
      validateHandleElement m kind elementIsNullable (elements + kind.bytes * i)) ctx
  | .pointer target elementIsNullable, n, elements, ctx =>
    forElements n (fun i ctx => do
      require (elementIsNullable ∨ readUInt64 m (elements + 8 * i) ≠ 0) .unexpectedNullPointer
      validateContainer m (target.validate m) (elements + 8 * i) ctx) ctx

def ArrayType.validate (m : Mem) :
    ArrayType → ℕ → ValidationContext → Validated ValidationContext
  | .mk element expectedNumElements, data, ctx =>
    if data = 0 then .ok ctx
    else do
      require (IsAligned data) .misalignedObject
      require (ctx.IsValidRange data kHeaderSize) .illegalMemoryRange
      require (numElements m data ≤ element.kMaxNumElements ∧
        element.getStorageSize (numElements m data) ≤ numBytes m data) .unexpectedArrayHeader
      require (expectedNumElements = 0 ∨ numElements m data = expectedNumElements)
        .unexpectedArrayHeader
      let ctx ← orReport (ctx.claimMemory data (numBytes m data)) .illegalMemoryRange
      element.validateElements m (numElements m data) (data + kHeaderSize) ctx

/-- `Validate` of the container; `Map_Data::Validate` for a map, whose two pointers follow its
header. -/
def ContainerType.validate (m : Mem) :
    ContainerType → ℕ → ValidationContext → Validated ValidationContext
  | .array type, data, ctx => type.validate m data ctx
  | .map keys values, data, ctx =>
    if data = 0 then .ok ctx
    else do
      let ctx ← validateStructHeaderAndClaimMemory m data ctx
      require (numBytes m data = 24 ∧ version m data = 0) .unexpectedStructHeader
      require (readUInt64 m (data + 8) ≠ 0) .unexpectedNullPointer
      let ctx ← validateContainer m (keys.validate m) (data + 8) ctx
      require (readUInt64 m (data + 16) ≠ 0) .unexpectedNullPointer
      let ctx ← validateContainer m (values.validate m) (data + 16) ctx
      require (numElements m (decodePointer m (data + 8)) =
        numElements m (decodePointer m (data + 16))) .differentSizedArraysInMap
      pure ctx

end

structure Visit where
  type : ContainerType
  data : ℕ
  depth : ℤ

mutual

def ElementType.visits (m : Mem) : ElementType → ℕ → ℕ → ℤ → List Visit
  | .pointer target _, n, elements, depth =>
    (List.range n).flatMap fun i => target.visits m (decodePointer m (elements + 8 * i)) depth
  | _, _, _, _ => []

def ArrayType.visits (m : Mem) : ArrayType → ℕ → ℤ → List Visit
  | .mk element expectedNumElements, data, depth =>
    ⟨.array (.mk element expectedNumElements), data, depth⟩ ::
      if data = 0 then []
      else element.visits m (numElements m data) (data + kHeaderSize) (depth + 1)

def ContainerType.visits (m : Mem) : ContainerType → ℕ → ℤ → List Visit
  | .array type, data, depth => type.visits m data depth
  | .map keys values, data, depth =>
    ⟨.map keys values, data, depth⟩ ::
      if data = 0 then []
      else keys.visits m (decodePointer m (data + 8)) (depth + 1) ++
        values.visits m (decodePointer m (data + 16)) (depth + 1)

end

/-- The index a handle field of the given kind names, if it names one of the wanted ones. -/
def handleIndex (kind : HandleKind) (associated : Bool) (index : ℕ) : List ℕ :=
  if kind.associated = associated ∧ index ≠ kEncodedInvalidHandleValue then [index] else []

def ElementType.handleIndices (m : Mem) (associated : Bool) (n elements : ℕ) :
    ElementType → List ℕ
  | handle kind _ => (List.range n).flatMap fun i =>
    handleIndex kind associated (readUInt32 m (elements + kind.bytes * i))
  | _ => []

namespace Visit

def spans (m : Mem) (v : Visit) : List Span :=
  if v.data = 0 then [] else [⟨v.data, numBytes m v.data⟩]

/-- The indices that the handle fields of the object name, of associated endpoints or not. -/
def handleIndices (m : Mem) (associated : Bool) (v : Visit) : List ℕ :=
  match v.type with
  | .array (.mk element _) =>
    if v.data = 0 then []
    else element.handleIndices m associated (numElements m v.data) (v.data + kHeaderSize)
  | .map _ _ => []

end Visit

end ChromiumBase.Bindings
