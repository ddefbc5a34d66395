import ChromiumBase.Lib.LittleEndian

/-!
# WebSocket frame headers

`WebSocketFrameHeader` with `GetWebSocketFrameHeaderSize` and
`WriteWebSocketFrameHeader` (`net/websockets/websocket_frame.cc`), and
`WebSocketFrameParser::DecodeFrameHeader`, which reads such a header back. An
opcode is a number of four bits, as the writer asserts.
-/

open LittleEndian List

namespace ChromiumBase.WebSocket

abbrev MaskingKey := {key : List UInt8 // key.length = 4}

def MaskingKey.zero : MaskingKey := ⟨[0, 0, 0, 0], rfl⟩

structure FrameHeader where
  final : Bool
  reserved1 : Bool
  reserved2 : Bool
  reserved3 : Bool
  opcode : Fin 16
  masked : Bool
  maskingKey : MaskingKey
  payloadLength : ℕ
  deriving DecidableEq

inductive WebSocketError where
  | protocolError
  | messageTooBig
  deriving DecidableEq, Repr

def kMaxPayloadLengthWithoutExtendedLengthField : ℕ := 125

def kMaximumFrameHeaderSize : ℕ := 2 + 8 + 4

def writeBigEndian (k n : ℕ) : List UInt8 := (toBytes k n).reverse

def readBigEndian (bytes : List UInt8) : ℕ := ofBytes bytes.reverse

variable (header : FrameHeader)

def extendedLengthSize : ℕ :=
  if header.payloadLength ≤ kMaxPayloadLengthWithoutExtendedLengthField then 0
  else if header.payloadLength ≤ 65535 then 2
  else 8

def getWebSocketFrameHeaderSize : ℕ :=
  2 + extendedLengthSize header + (if header.masked then 4 else 0)

def flagBit (flag : Bool) (mask : UInt8) : UInt8 := if flag then mask else 0

def firstByte : UInt8 :=
  flagBit header.final 0x80 ||| flagBit header.reserved1 0x40 |||
    flagBit header.reserved2 0x20 ||| flagBit header.reserved3 0x10 |||
      UInt8.ofNat header.opcode

def secondByte : UInt8 :=
  flagBit header.masked 0x80 |||
    if header.payloadLength ≤ kMaxPayloadLengthWithoutExtendedLengthField then
      UInt8.ofNat header.payloadLength
    else if header.payloadLength ≤ 65535 then 126
    else 127

/-- `WriteWebSocketFrameHeader` into a buffer of a given size: the bytes it writes, or
nothing for `ERR_INVALID_ARGUMENT`. -/
def writeWebSocketFrameHeader (maskingKey : MaskingKey)
    (bufferSize : ℕ) : Option (List UInt8) :=
  if getWebSocketFrameHeaderSize header > bufferSize then
    none
  else
    some (firstByte header :: secondByte header ::
      (writeBigEndian (extendedLengthSize header) header.payloadLength ++
        if header.masked then maskingKey.val else []))

/-- What reading from the front of some data gives: not enough data, an error, or a
value and the number of bytes it takes. -/
inductive Decoded (α : Type) where
  | incomplete
  | failed (error : WebSocketError)
  | decoded (value : α) (consumed : ℕ)
  deriving DecidableEq

variable {α β : Type}

def field (size : ℕ) (read : {bytes : List UInt8 // bytes.length = size} → Except WebSocketError α)
    (data : List UInt8) : Decoded α :=
  if h : data.length < size then
    .incomplete
  else
    match read ⟨data.take size, length_take_of_le (not_lt.mp h)⟩ with
    | .ok value => .decoded value size
    | .error error => .failed error

def andThen (f : List UInt8 → Decoded α) (g : α → List UInt8 → Decoded β) (data : List UInt8) :
    Decoded β :=
  match f data with
  | .incomplete => .incomplete
  | .failed error => .failed error
  | .decoded a m =>
    match g a (data.drop m) with
    | .incomplete => .incomplete
    | .failed error => .failed error
    | .decoded b n => .decoded b (m + n)

def decodeBase : List UInt8 → Decoded (UInt8 × UInt8) :=
  field 2 fun
    | ⟨[firstByte, secondByte], _⟩ => .ok (firstByte, secondByte)

def decodePayloadLength (secondByte : UInt8) : List UInt8 → Decoded ℕ :=
  let payloadLength := (secondByte &&& 0x7F).toNat
  if payloadLength = 126 then
    field 2 fun bytes =>
      let payloadLength := readBigEndian bytes
      if payloadLength ≤ kMaxPayloadLengthWithoutExtendedLengthField then .error .protocolError
      else .ok payloadLength
  else if payloadLength = 127 then
    field 8 fun bytes =>
      let payloadLength := readBigEndian bytes
      if payloadLength ≤ 65535 ∨ payloadLength > 2 ^ 63 - 1 then .error .protocolError
      else if payloadLength > 2 ^ 31 - 1 then .error .messageTooBig
      else .ok payloadLength
  else
    field 0 fun _ => .ok payloadLength

def decodeMaskingKey (masked : Bool) : List UInt8 → Decoded MaskingKey :=
  if masked then field 4 .ok else field 0 fun _ => .ok .zero

def decodeFrameHeader : List UInt8 → Decoded FrameHeader :=
  andThen decodeBase fun (firstByte, secondByte) =>
    let masked := secondByte &&& 0x80 != 0
    andThen (decodePayloadLength secondByte) fun payloadLength =>
      andThen (decodeMaskingKey masked) fun maskingKey =>
        field 0 fun _ => .ok
          { final := firstByte &&& 0x80 != 0
            reserved1 := firstByte &&& 0x40 != 0
            reserved2 := firstByte &&& 0x20 != 0
            reserved3 := firstByte &&& 0x10 != 0
            opcode := Fin.ofNat 16 (firstByte &&& 0xF).toNat
            masked
            maskingKey
            payloadLength }

/-- A reader that needs at most `limit` bytes and looks at no more than it takes: more
data changes no decision, and a value is read from just the bytes it takes. -/
structure Bounded (limit : ℕ) (f : List UInt8 → Decoded α) : Prop where
  append : ∀ data more, f data ≠ .incomplete → f (data ++ more) = f data
  take : ∀ data value consumed, f data = .decoded value consumed →
    consumed ≤ limit ∧ consumed ≤ data.length ∧ f (data.take consumed) = .decoded value consumed
  complete : ∀ data, limit ≤ data.length → f data ≠ .incomplete

variable {bytes : List UInt8} {f : List UInt8 → Decoded α} {n size m : ℕ}

theorem field_of_le (read : {bytes : List UInt8 // bytes.length = size} → Except WebSocketError α)
    (h : bytes.length = size) (more : List UInt8) : field size read (bytes ++ more) =
      match read ⟨bytes, h⟩ with
      | .ok value => .decoded value size
      | .error error => .failed error := by
  subst h
  rw [field, dif_neg (by simp)]
  simp only [take_left]

theorem exists_append_of_field_ne
    {read : {bytes : List UInt8 // bytes.length = size} → Except WebSocketError α}
    {data : List UInt8} (h : field size read data ≠ .incomplete) :
    ∃ bytes more, data = bytes ++ more ∧ bytes.length = size := by
  have hle : size ≤ data.length := not_lt.mp fun hlt => h (dif_pos hlt)
  exact ⟨data.take size, data.drop size, (take_append_drop ..).symm, length_take_of_le hle⟩

theorem bounded_field (size : ℕ)
    (read : {bytes : List UInt8 // bytes.length = size} → Except WebSocketError α) :
    Bounded size (field size read) where
  append data more h := by
    obtain ⟨bytes, rest, rfl, hlen⟩ := exists_append_of_field_ne h
    rw [append_assoc, field_of_le read hlen, field_of_le read hlen]
  take data value consumed h := by
    obtain ⟨bytes, rest, rfl, hlen⟩ := exists_append_of_field_ne (by rw [h]; simp)
    rw [field_of_le read hlen] at h
    have hs := field_of_le read hlen []
    rw [append_nil] at hs
    cases hr : read ⟨bytes, hlen⟩ with
    | error error => rw [hr] at h; cases h
    | ok a =>
      rw [hr] at h hs
      cases h
      subst hlen
      exact ⟨le_rfl, by simp, by rw [take_left, hs]⟩
  complete data h := by
    rw [field, dif_neg (not_lt.mpr h)]
    split <;> simp

variable {g : α → List UInt8 → Decoded β}

/-- Reading one field after the other. -/
theorem Bounded.andThen (hf : Bounded m f) (hg : ∀ a, Bounded n (g a)) :
    Bounded (m + n) (andThen f g) where
  append data more h := by
    cases hfd : f data with
    | incomplete => simp [WebSocket.andThen, hfd] at h
    | failed error =>
      have := hf.append data more (by rw [hfd]; simp)
      simp [WebSocket.andThen, this, hfd]
    | decoded a k =>
      have hfa := hf.append data more (by rw [hfd]; simp)
      have hk := (hf.take data a k hfd).2.1
      simp only [WebSocket.andThen, hfd] at h
      have hga := (hg a).append (data.drop k) more fun hg' => h (by rw [hg'])
      simp only [WebSocket.andThen, hfa, hfd, drop_append_of_le_length hk, hga]
  take data value consumed h := by
    cases hfd : f data with
    | incomplete => simp [WebSocket.andThen, hfd] at h
    | failed error => simp [WebSocket.andThen, hfd] at h
    | decoded a k =>
      obtain ⟨hkm, hk, hfk⟩ := hf.take data a k hfd
      cases hgd : g a (data.drop k) with
      | incomplete => simp [WebSocket.andThen, hfd, hgd] at h
      | failed error => simp [WebSocket.andThen, hfd, hgd] at h
      | decoded b l =>
        obtain ⟨hln, hl, hgl⟩ := (hg a).take _ b l hgd
        simp only [WebSocket.andThen, hfd, hgd] at h
        obtain ⟨rfl, rfl⟩ := h
        rw [length_drop] at hl
        refine ⟨by omega, by omega, ?_⟩
        have hd : data.take (k + l) = data.take k ++ (data.drop k).take l := by
          rw [take_add]
        have hfa := hf.append (data.take k) ((data.drop k).take l) (by rw [hfk]; simp)
        have hdr : (data.take k ++ (data.drop k).take l).drop k = (data.drop k).take l := by
          rw [drop_append_of_le_length (by simp [hk]), drop_take_self, nil_append]
        simp only [WebSocket.andThen, hd, hfa, hfk, hdr, hgl]
  complete data h := by
    cases hfd : f data with
    | incomplete => exact absurd hfd (hf.complete data (by omega))
    | failed error => simp [WebSocket.andThen, hfd]
    | decoded a k =>
      have hk := (hf.take data a k hfd).1
      have hga := (hg a).complete (data.drop k) (by rw [length_drop]; omega)
      simp only [WebSocket.andThen, hfd]
      split
      · contradiction
      · simp
      · simp

theorem Bounded.mono (hf : Bounded m f) (h : m ≤ n) : Bounded n f where
  append := hf.append
  take data value consumed hd := by
    obtain ⟨hm, ht⟩ := hf.take data value consumed hd
    exact ⟨hm.trans h, ht⟩
  complete data hd := hf.complete data (h.trans hd)

theorem bounded_decodePayloadLength (secondByte : UInt8) :
    Bounded 8 (decodePayloadLength secondByte) := by
  simp only [decodePayloadLength]
  split
  · exact (bounded_field 2 _).mono (by omega)
  · split
    · exact bounded_field 8 _
    · exact (bounded_field 0 _).mono (by omega)

theorem bounded_decodeMaskingKey (masked : Bool) : Bounded 4 (decodeMaskingKey masked) := by
  unfold decodeMaskingKey
  split
  · exact bounded_field 4 _
  · exact (bounded_field 0 _).mono (by omega)

theorem bounded_decodeFrameHeader : Bounded kMaximumFrameHeaderSize decodeFrameHeader := by
  refine (Bounded.andThen (bounded_field 2 _) fun (_, secondByte) => ?_ :
    Bounded (2 + (8 + (4 + 0))) decodeFrameHeader)
  exact (bounded_decodePayloadLength secondByte).andThen fun _ =>
    (bounded_decodeMaskingKey _).andThen fun _ => bounded_field 0 _

def FrameHeader.withKey (maskingKey : MaskingKey) : FrameHeader :=
  { header with maskingKey := if header.masked then maskingKey else .zero }

theorem andThen_of_eq {more : List UInt8} {a : α}
    (hf : f (bytes ++ more) = .decoded a bytes.length) : andThen f g (bytes ++ more) =
      match g a more with
      | .incomplete => .incomplete
      | .failed error => .failed error
      | .decoded b n => .decoded b (bytes.length + n) := by
  simp only [andThen, hf, drop_left]

theorem firstByte_bits : ∀ (final reserved1 reserved2 reserved3 : Bool) (opcode : Fin 16),
    let b := flagBit final 0x80 ||| flagBit reserved1 0x40 ||| flagBit reserved2 0x20 |||
      flagBit reserved3 0x10 ||| UInt8.ofNat opcode
    (b &&& 0x80 != 0) = final ∧ (b &&& 0x40 != 0) = reserved1 ∧ (b &&& 0x20 != 0) = reserved2 ∧
      (b &&& 0x10 != 0) = reserved3 ∧ Fin.ofNat 16 (b &&& 0xF).toNat = opcode := by
  decide

theorem secondByte_bits : ∀ (masked : Bool) (n : Fin 128),
    let b := flagBit masked 0x80 ||| UInt8.ofNat n
    (b &&& 0x80 != 0) = masked ∧ (b &&& 0x7F).toNat = n := by
  decide

theorem readBigEndian_writeBigEndian {k : ℕ} (h : n < 256 ^ k) :
    readBigEndian (writeBigEndian k n) = n := by
  rw [readBigEndian, writeBigEndian, reverse_reverse, ofBytes_toBytes h]

def lengthCode : ℕ :=
  match extendedLengthSize header with
  | 0 => header.payloadLength
  | 2 => 126
  | _ => 127

theorem extendedLengthSize_cases : header.payloadLength ≤ 125 ∧ extendedLengthSize header = 0 ∨
      125 < header.payloadLength ∧ header.payloadLength ≤ 65535 ∧ extendedLengthSize header = 2 ∨
      65535 < header.payloadLength ∧ extendedLengthSize header = 8 := by
  unfold extendedLengthSize kMaxPayloadLengthWithoutExtendedLengthField
  split
  · exact .inl ⟨by omega, rfl⟩
  · split
    · exact .inr (.inl ⟨by omega, by omega, rfl⟩)
    · exact .inr (.inr ⟨by omega, rfl⟩)

theorem secondByte_spec : (secondByte header &&& 0x80 != 0) = header.masked ∧
      (secondByte header &&& 0x7F).toNat = lengthCode header := by
  have hlt : lengthCode header < 128 := by
    rcases extendedLengthSize_cases header with ⟨h, hs⟩ | ⟨-, -, hs⟩ | ⟨-, hs⟩ <;>
      simp [lengthCode, hs]
    omega
  have hb : secondByte header = flagBit header.masked 0x80 ||| UInt8.ofNat (lengthCode header) := by
    unfold secondByte lengthCode extendedLengthSize
    split
    · rfl
    · split <;> rfl
  rw [hb]
  exact secondByte_bits header.masked ⟨lengthCode header, hlt⟩

theorem length_writeBigEndian (k n : ℕ) : (writeBigEndian k n).length = k := by
  rw [writeBigEndian, length_reverse, length_toBytes]

variable {header : FrameHeader}

theorem decodePayloadLength_secondByte (h : header.payloadLength ≤ 2 ^ 31 - 1) (more : List UInt8) :
    decodePayloadLength (secondByte header)
        (writeBigEndian (extendedLengthSize header) header.payloadLength ++ more) =
      .decoded header.payloadLength (extendedLengthSize header) := by
  have hc := (secondByte_spec header).2
  rcases extendedLengthSize_cases header with ⟨hle, hs⟩ | ⟨hgt, hle, hs⟩ | ⟨hgt, hs⟩
  · have hc' : (secondByte header &&& 0x7F).toNat = header.payloadLength := by
      simp [hc, lengthCode, hs]
    simp only [decodePayloadLength, hc']
    rw [if_neg (by omega), if_neg (by omega), hs, field_of_le _ (length_writeBigEndian 0 _)]
  · have hc' : (secondByte header &&& 0x7F).toNat = 126 := by
      simp [hc, lengthCode, hs]
    have hr := readBigEndian_writeBigEndian (k := 2) (by omega : header.payloadLength < _)
    simp only [decodePayloadLength, hc', kMaxPayloadLengthWithoutExtendedLengthField]
    rw [if_pos trivial, hs, field_of_le _ (length_writeBigEndian 2 _)]
    simp only [hr]
    rw [if_neg (by omega)]
  · have hc' : (secondByte header &&& 0x7F).toNat = 127 := by
      simp [hc, lengthCode, hs]
    have hr := readBigEndian_writeBigEndian (k := 8) (by omega : header.payloadLength < _)
    simp only [decodePayloadLength, hc']
    rw [if_neg (by omega), if_pos trivial, hs, field_of_le _ (length_writeBigEndian 8 _)]
    simp only [hr]
    rw [if_neg (by omega), if_neg (by omega)]

theorem decodeMaskingKey_write (maskingKey : MaskingKey) (more : List UInt8) :
    decodeMaskingKey header.masked ((if header.masked then maskingKey.val else []) ++ more) =
      .decoded (header.withKey maskingKey).maskingKey
        (if header.masked then maskingKey.val else []).length := by
  cases hm : header.masked with
  | false => simp [decodeMaskingKey, FrameHeader.withKey, hm, field]
  | true =>
    simp only [decodeMaskingKey, FrameHeader.withKey, hm, if_true]
    rw [field_of_le _ maskingKey.property, maskingKey.property]

/-- A header that was written is read back, whatever follows it. -/
theorem decodeFrameHeader_write {maskingKey : MaskingKey} {bufferSize : ℕ}
    (h : header.payloadLength ≤ 2 ^ 31 - 1)
    (hw : writeWebSocketFrameHeader header maskingKey bufferSize = some bytes) (more : List UInt8) :
    decodeFrameHeader (bytes ++ more) = .decoded (header.withKey maskingKey) bytes.length := by
  unfold writeWebSocketFrameHeader at hw
  split at hw
  · cases hw
  · obtain rfl := Option.some.inj hw
    generalize hlen : writeBigEndian (extendedLengthSize header) header.payloadLength = len
    generalize hkey : (if header.masked then maskingKey.val else []) = key
    have hb : (firstByte header :: secondByte header :: (len ++ key)) ++ more =
        [firstByte header, secondByte header] ++ (len ++ (key ++ more)) := by simp
    have hba : decodeBase ([firstByte header, secondByte header] ++ (len ++ (key ++ more))) =
        .decoded (firstByte header, secondByte header) 2 := by
      rw [decodeBase, field_of_le _ (by rfl : [firstByte header, secondByte header].length = 2)]
    have hpay : decodePayloadLength (secondByte header) (len ++ (key ++ more)) =
        .decoded header.payloadLength len.length := by
      rw [← hlen, decodePayloadLength_secondByte h, length_writeBigEndian]
    have hm : decodeMaskingKey header.masked (key ++ more) =
        .decoded (header.withKey maskingKey).maskingKey key.length := by
      rw [← hkey, decodeMaskingKey_write]
    obtain ⟨h80, h40, h20, h10, hop⟩ := firstByte_bits header.final header.reserved1
      header.reserved2 header.reserved3 header.opcode
    rw [hb, decodeFrameHeader, andThen_of_eq hba]
    simp only [(secondByte_spec header).1]
    rw [andThen_of_eq hpay, andThen_of_eq hm]
    simp only [field, firstByte, h80, h40, h20, h10, hop]
    simp [FrameHeader.withKey]
    omega

end ChromiumBase.WebSocket
