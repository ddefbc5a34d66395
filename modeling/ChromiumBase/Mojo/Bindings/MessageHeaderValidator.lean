import ChromiumBase.Mojo.Bindings.ContainerSafety

/-!
# Message headers

`MessageHeaderValidator::Accept` and `IsValidMessageHeader`
(`mojo/public/cpp/bindings/lib/message_header_validator.cc`) for a serialized message, and the
accessors of `message.cc` that find the payload and the interface IDs in it.  The end of the
payload is not stored in a message: it is where the array of interface IDs starts, or the end of
the message.
-/

open Memory Outcome

namespace ChromiumBase.Bindings

open ValidationContext

def kMasterInterfaceId : ℕ := 0

def kInvalidInterfaceId : ℕ := 2 ^ 32 - 1

def kFlagExpectsResponse : ℕ := 1

def kFlagIsResponse : ℕ := 2

def interfaceIdsType : ArrayType := .mk (.integer .bits32 none) 0

namespace Message

/-! The fields of `MessageHeaderV2`, of which `MessageHeader` and `MessageHeaderV1` are the first
24 and 32 bytes. -/

def flags (m : Mem) (data : ℕ) : ℕ := readUInt32 m (data + 16)

def payloadSlot (data : ℕ) : ℕ := data + 32

def payloadInterfaceIdsSlot (data : ℕ) : ℕ := data + 40

def interfaceId (m : Mem) (ids i : ℕ) : ℕ := readUInt32 m (ids + kHeaderSize + 4 * i)

def payload (m : Mem) (data : ℕ) : ℕ :=
  if version m data < 2 then data + numBytes m data else decodePointer m (payloadSlot data)

def payloadInterfaceIds (m : Mem) (data : ℕ) : ℕ :=
  if version m data < 2 then 0 else decodePointer m (payloadInterfaceIdsSlot data)

/-- A difference of 64 bits, cut to 32 bits. -/
def payloadNumBytes (m : Mem) (data dataNumBytes : ℕ) : ℕ :=
  if version m data < 2 then (dataNumBytes + 2 ^ 64 - numBytes m data) % 2 ^ 64 % 2 ^ 32
  else
    let payloadEnd := if payloadInterfaceIds m data = 0 then (data + dataNumBytes) % 2 ^ 64
      else payloadInterfaceIds m data
    (payloadEnd + 2 ^ 64 - payload m data) % 2 ^ 64 % 2 ^ 32

end Message

open Message

def HeaderSizeOk (m : Mem) (data : ℕ) : Prop :=
  version m data = 0 ∧ numBytes m data = 24 ∨ version m data = 1 ∧ numBytes m data = 32 ∨
    version m data = 2 ∧ numBytes m data = 48 ∨ version m data > 2 ∧ numBytes m data ≥ 48

instance (m : Mem) (data : ℕ) : Decidable (HeaderSizeOk m data) :=
  inferInstanceAs (Decidable (_ ∨ _ ∨ _ ∨ _))

def kRequestIdFlags : ℕ := kFlagExpectsResponse ||| kFlagIsResponse

/-- The claim of one byte at the payload returns false without a report. -/
def claimPayload (m : Mem) (data : ℕ) (ctx : ValidationContext) : Validated ValidationContext :=
  (ctx.claimMemory (decodePointer m (payloadSlot data)) 1).elim (.error none) .ok

def isValidMessageHeader (m : Mem) (data : ℕ) (ctx : ValidationContext) :
    Validated ValidationContext := do
  require (HeaderSizeOk m data) .unexpectedStructHeader
  require (¬ (version m data = 0 ∧ flags m data &&& kRequestIdFlags ≠ 0))
    .messageHeaderMissingRequestId
  require (flags m data &&& kRequestIdFlags ≠ kRequestIdFlags) .messageHeaderInvalidFlags
  if version m data < 2 then pure ctx
  else
    require (readUInt64 m (payloadSlot data) ≠ 0) .unexpectedNullPointer
    require (ValidateEncodedPointer m (payloadSlot data)) .illegalPointer
    let ctx ← claimPayload m data ctx
    let ctx ← validateContainer m (interfaceIdsType.validate m) (payloadInterfaceIdsSlot data) ctx
    if readUInt64 m (payloadInterfaceIdsSlot data) = 0 then pure ctx
    else
      let ids := decodePointer m (payloadInterfaceIdsSlot data)
      require (∀ i < numElements m ids, interfaceId m ids i ≠ kInvalidInterfaceId ∧
        interfaceId m ids i ≠ kMasterInterfaceId) .illegalInterfaceId
      pure ctx

def accept (m : Mem) (data dataNumBytes : ℕ) : Validated ValidationContext := do
  let ctx ← validateStructHeaderAndClaimMemory m data (.new data dataNumBytes 0 0)
  isValidMessageHeader m data ctx

/-- Header, payload and interface IDs lie in the message one behind the other. -/
structure WellPlaced (m : Mem) (data dataNumBytes : ℕ) : Prop where
  header : data + numBytes m data ≤ payload m data
  payload : payload m data + payloadNumBytes m data dataNumBytes ≤ data + dataNumBytes
  interfaceIds : payloadInterfaceIds m data ≠ 0 →
    Message.payload m data + payloadNumBytes m data dataNumBytes ≤ payloadInterfaceIds m data ∧
      payloadInterfaceIds m data + numBytes m (payloadInterfaceIds m data) ≤
        data + dataNumBytes ∧
      ∀ i < numElements m (payloadInterfaceIds m data),
        kHeaderSize + 4 * i + 4 ≤ numBytes m (payloadInterfaceIds m data) ∧
          interfaceId m (payloadInterfaceIds m data) i ≠ kInvalidInterfaceId ∧
          interfaceId m (payloadInterfaceIds m data) i ≠ kMasterInterfaceId

variable {m : Mem} {data dataNumBytes : ℕ} {ctx ctx' : ValidationContext}

/-- What was checked of a header that has pointers: the claims of the payload and of the array
follow each other. -/
theorem isValidMessageHeader_eq_ok (hv : ¬ version m data < 2)
    (h : isValidMessageHeader m data ctx = .ok ctx') :
    ∃ c c', ctx.claimMemory (decodePointer m (payloadSlot data)) 1 = some c ∧
      validateContainer m (interfaceIdsType.validate m) (payloadInterfaceIdsSlot data) c = .ok c' ∧
      (readUInt64 m (payloadInterfaceIdsSlot data) ≠ 0 →
        ∀ i < numElements m (decodePointer m (payloadInterfaceIdsSlot data)),
          interfaceId m (decodePointer m (payloadInterfaceIdsSlot data)) i ≠ kInvalidInterfaceId ∧
            interfaceId m (decodePointer m (payloadInterfaceIdsSlot data)) i ≠
              kMasterInterfaceId) := by
  obtain ⟨_, _, h⟩ := exists_of_bind_eq_ok h
  obtain ⟨_, _, h⟩ := exists_of_bind_eq_ok h
  obtain ⟨_, _, h⟩ := exists_of_bind_eq_ok h
  rw [if_neg hv] at h
  obtain ⟨_, _, h⟩ := exists_of_bind_eq_ok h
  obtain ⟨_, _, h⟩ := exists_of_bind_eq_ok h
  obtain ⟨c, hp, h⟩ := exists_of_bind_eq_ok h
  obtain ⟨c', hids, h⟩ := exists_of_bind_eq_ok h
  have hcl : ctx.claimMemory (decodePointer m (payloadSlot data)) 1 = some c := by
    unfold claimPayload at hp
    cases hc : ctx.claimMemory (decodePointer m (payloadSlot data)) 1 with
    | none => rw [hc] at hp; cases hp
    | some d => rw [hc] at hp; exact congrArg some (Except.ok.inj hp)
  refine ⟨c, c', hcl, hids, fun hne => ?_⟩
  rw [if_neg hne] at h
  obtain ⟨_, hva, _⟩ := exists_of_bind_eq_ok h
  exact require_eq_ok hva

/-- The interface IDs that are accepted lie in the range that was left. -/
theorem interfaceIds_claimed {ids : ℕ} (hids : ids ≠ 0)
    (h : interfaceIdsType.validate m ids ctx = .ok ctx') :
    ctx.dataBegin ≤ ids ∧ ids + numBytes m ids ≤ ctx.dataEnd ∧
      kHeaderSize + 4 * numElements m ids ≤ numBytes m ids := by
  unfold interfaceIdsType at h
  rw [ArrayType.validate, if_neg hids] at h
  obtain ⟨_, _, h⟩ := exists_of_bind_eq_ok h
  obtain ⟨_, _, h⟩ := exists_of_bind_eq_ok h
  obtain ⟨_, hh, h⟩ := exists_of_bind_eq_ok h
  obtain ⟨_, _, h⟩ := exists_of_bind_eq_ok h
  obtain ⟨c, hc, _⟩ := exists_of_bind_eq_ok h
  obtain ⟨hb, hend, -⟩ := claimMemory_eq_some (numBytes_lt m ids) (orReport_eq_ok hc)
  obtain ⟨hmax, hs⟩ := require_eq_ok hh
  have hmax : numElements m ids ≤ (2 ^ 32 - 1 - kHeaderSize) / 4 := hmax
  have hs : (kHeaderSize + 4 * numElements m ids) % 2 ^ 32 ≤ numBytes m ids := hs
  have hh : kHeaderSize = 8 := rfl
  exact ⟨hb, hend, by omega⟩

/-- In a message that was accepted, of any version, the payload lies in the message behind the
header, and the interface IDs lie in the message behind the payload and are valid. -/
theorem accept_wellPlaced (h : accept m data dataNumBytes = .ok ctx') :
    WellPlaced m data dataNumBytes := by
  obtain ⟨c₀, hh, h⟩ := exists_of_bind_eq_ok h
  obtain ⟨-, hc⟩ := validateStructHeaderAndClaimMemory_eq_ok hh
  have hend := dataEnd_new_le data dataNumBytes 0 0
  obtain ⟨-, hle, rfl⟩ := claimMemory_eq_some (numBytes_lt m data) hc
  by_cases hv : version m data < 2
  · -- without pointers the payload is what is left of the message
    have hp : payload m data = data + numBytes m data := if_pos hv
    have hby : payloadNumBytes m data dataNumBytes =
        (dataNumBytes + 2 ^ 64 - numBytes m data) % 2 ^ 64 % 2 ^ 32 := if_pos hv
    have hids : payloadInterfaceIds m data = 0 := if_pos hv
    exact ⟨hp.ge, by omega, fun hne => absurd hids hne⟩
  · obtain ⟨c₁, c₂, hone, hids, hval⟩ := isValidMessageHeader_eq_ok hv h
    obtain ⟨hb, hl, rfl⟩ := claimMemory_eq_some (by omega) hone
    obtain ⟨c₃, -, hpo, hva, -⟩ := validateContainer_eq_ok hids
    have hp : payload m data = decodePointer m (payloadSlot data) := if_neg hv
    have hie : payloadInterfaceIds m data = decodePointer m (payloadInterfaceIdsSlot data) :=
      if_neg hv
    have hby : payloadNumBytes m data dataNumBytes =
        ((if payloadInterfaceIds m data = 0 then (data + dataNumBytes) % 2 ^ 64
          else payloadInterfaceIds m data) + 2 ^ 64 - payload m data) % 2 ^ 64 % 2 ^ 32 :=
      if_neg hv
    rw [← hp] at hb hl
    rw [← hie] at hva hval
    dsimp only at hb hl
    by_cases hn : payloadInterfaceIds m data = 0
    · rw [if_pos hn] at hby
      exact ⟨hb, by omega, fun hne => absurd hn hne⟩
    · rw [if_neg hn] at hby
      obtain ⟨ha, hin, hs⟩ := interfaceIds_claimed hn hva
      dsimp only at ha hin
      have ho : readUInt64 m (payloadInterfaceIdsSlot data) ≠ 0 := by
        intro hz
        rw [hie, decodePointer, if_pos hz] at hn
        exact hn rfl
      refine ⟨hb, by omega, fun _ => ⟨by omega, by omega, fun i hi => ⟨by omega, ?_⟩⟩⟩
      exact hval ho i hi

def versionTwo : Mem :=
  ofList ([0, 0, 0, 0, 0, 0, 0, 0] ++
    [48, 0, 0, 0, 2, 0, 0, 0, 0, 0, 0, 0, 7, 0, 0, 0, 0, 0, 0, 0, 0, 0, 0, 0,
      0, 0, 0, 0, 0, 0, 0, 0, 16, 0, 0, 0, 0, 0, 0, 0, 16, 0, 0, 0, 0, 0, 0, 0] ++
    [8, 0, 0, 0, 0, 0, 0, 0] ++ [12, 0, 0, 0, 1, 0, 0, 0, 5, 0, 0, 0])

theorem accept_versionTwo : WellPlaced versionTwo 8 68 :=
  have ha : accept versionTwo 8 68 = .ok ⟨76, 76, 0, 0, 0, 0, 0⟩ := by decide +kernel
  accept_wellPlaced ha

end ChromiumBase.Bindings
