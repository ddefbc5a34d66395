import ChromiumBase.Lib.Memory
import ChromiumBase.Net.WebSockets.Frame

/-!
# Masking payloads

`MaskWebSocketFramePayload` (`net/websockets/websocket_frame.cc`) on the memory the payload lies
in.  The middle of a long payload is masked a `PackedMaskType` at a time, which may have any number
of bytes that is a multiple of four, from a multiple of its size to another.  However the payload
lies in memory, each byte is masked with the byte of the key for its offset in the frame.
-/

open Memory

namespace ChromiumBase.WebSocket

structure PackedMaskType where
  size : ℕ
  dvd_size : 4 ∣ size
  size_pos : 0 < size

namespace PackedMaskType

/-- Four `uint32_t` in a vector, for GCC on x86 and ARM. -/
def vector : PackedMaskType := ⟨16, by decide, by decide⟩

/-- `size_t` of 64 bits. -/
def sizeT : PackedMaskType := ⟨8, by decide, by decide⟩

end PackedMaskType

def MaskingKey.byte (key : MaskingKey) (i : ℕ) : UInt8 := key.val[i % 4]?.getD 0

/-- `MaskWebSocketFramePayloadByBytes` for `n` bytes from `masked` on. -/
def maskByBytes (key : MaskingKey) (offset masked : ℕ) : ℕ → Mem → Mem
  | 0, m => m
  | n + 1, m => maskByBytes key (offset + 1) (masked + 1) n
      (Function.update m masked (m masked ^^^ key.byte offset))

def xorPacked (size : ℕ) (packed : ℕ → UInt8) (merged : ℕ) (m : Mem) : Mem :=
  fun a => if merged ≤ a ∧ a < merged + size then m a ^^^ packed (a - merged) else m a

/-- The main loop; nothing if it misses `alignedEnd`. -/
def mainLoop (size : ℕ) (packed : ℕ → UInt8) (alignedEnd : ℕ) : ℕ → ℕ → Mem → Option Mem
  | 0, _, _ => none
  | n + 1, merged, m =>
    if merged = alignedEnd then some m
    else mainLoop size packed alignedEnd n (merged + size) (xorPacked size packed merged m)

/-- Sums with `frame_offset` are taken modulo 2⁶⁴. -/
def maskWebSocketFramePayload (type : PackedMaskType) (key : MaskingKey) (frameOffset : UInt64)
    (data dataSize : ℕ) (m : Mem) : Option Mem :=
  if dataSize ≤ type.size * 2 then
    some (maskByBytes key (frameOffset.toNat % 4) data dataSize m)
  else do
    let stop := data + dataSize
    let dataModulus := data % type.size
    let alignedBegin := if dataModulus = 0 then data else data + type.size - dataModulus
    let m := maskByBytes key (frameOffset.toNat % 4) data (alignedBegin - data) m
    let alignedEnd := stop - stop % type.size
    let realignedMask := maskByBytes key
      ((frameOffset + .ofNat (alignedBegin - data)).toNat % 4) 0 4 fun _ => 0
    let m ← mainLoop type.size (fun i => realignedMask (i % 4)) alignedEnd (dataSize + 1)
      alignedBegin m
    some (maskByBytes key ((frameOffset + .ofNat (alignedEnd - data)).toNat % 4) alignedEnd
      (stop - alignedEnd) m)

/-- The `n` bytes from `start` on are masked, the first one as the byte at `offset` of a frame. -/
def mask (key : MaskingKey) (offset start n : ℕ) (m : Mem) : Mem :=
  fun a => if start ≤ a ∧ a < start + n then m a ^^^ key.byte (offset + (a - start)) else m a

variable {key : MaskingKey} {size offset start n k : ℕ} {m : Mem} (type : PackedMaskType)

theorem byte_congr (h : offset % 4 = k % 4) : key.byte offset = key.byte k := by
  rw [MaskingKey.byte, h, MaskingKey.byte]

theorem mask_congr (h : offset % 4 = k % 4) : mask key offset start n m = mask key k start n m := by
  funext a
  rw [mask, mask, byte_congr (show (offset + (a - start)) % 4 = (k + (a - start)) % 4 by omega)]

/-- Masking goes on behind what is masked. -/
theorem mask_mask : mask key (offset + n) (start + n) k (mask key offset start n m) =
      mask key offset start (n + k) m := by
  funext a
  simp only [mask]
  split_ifs <;> first | omega | rfl | (congr 2; omega)

theorem mask_zero : mask key offset start 0 m = m := by
  funext a
  exact if_neg (by omega)

theorem maskByBytes_eq : maskByBytes key offset start n m = mask key offset start n m := by
  induction n generalizing offset start m with
  | zero => rw [mask_zero, maskByBytes]
  | succ n ih =>
    rw [maskByBytes, ih, Nat.add_comm n, ← mask_mask]
    congr 1
    funext a
    simp only [mask, Function.update_apply]
    split_ifs with h h' h'
    · rw [h, Nat.sub_self, Nat.add_zero]
    · omega
    · omega
    · rfl

theorem mask_packed :
    xorPacked type.size (fun i => mask key offset 0 4 (fun _ => 0) (i % 4)) start m =
      mask key offset start type.size m := by
  funext a
  simp only [xorPacked, mask]
  split_ifs with h
  · rw [UInt8.zero_xor, byte_congr (k := offset + (a - start)) (by omega)]
  · omega
  · rfl

/-- The main loop masks a multiple of the size. -/
theorem mainLoop_eq {i : ℕ} (hi : i < n) :
    mainLoop type.size (fun i => mask key offset 0 4 (fun _ => 0) (i % 4)) (start + i * type.size) n
      start m = some (mask key offset start (i * type.size) m) := by
  induction n generalizing i start m with
  | zero => omega
  | succ n ih =>
    have hpos := type.size_pos
    have hdvd := type.dvd_size
    cases i with
    | zero => simp [mainLoop, mask_zero]
    | succ i =>
      have hend : start + (i + 1) * type.size = start + type.size + i * type.size := by
        rw [Nat.succ_mul]
        omega
      rw [mainLoop, if_neg (by omega), mask_packed, hend, ih (by omega),
        mask_congr (k := offset + type.size) (by omega), mask_mask, Nat.succ_mul, Nat.add_comm]

theorem mask_mod : mask key (offset % 4) start n m = mask key offset start n m :=
  mask_congr (Nat.mod_mod _ _)

theorem mask_offset {a : UInt64} :
    mask key (a + .ofNat k).toNat start n m = mask key (a.toNat + k) start n m :=
  mask_congr (by rw [UInt64.toNat_add, UInt64.toNat_ofNat']; omega)

theorem exists_aligned (hpos : 0 < size) (data : ℕ) :
    ∃ b head, (if data % size = 0 then data else data + size - data % size) = data + head ∧
      data + head = b * size ∧ head < size := by
  have hlt := Nat.mod_lt data hpos
  have hdiv := Nat.div_add_mod' data size
  split_ifs with h
  · exact ⟨data / size, 0, rfl, by omega, hpos⟩
  · refine ⟨data / size + 1, size - data % size, by omega, ?_, by omega⟩
    rw [Nat.succ_mul]
    omega

/-- The three parts of a payload together are masked byte by byte. -/
theorem maskWebSocketFramePayload_eq (key : MaskingKey) (frameOffset : UInt64) (data dataSize : ℕ)
    (m : Mem) :
    maskWebSocketFramePayload type key frameOffset data dataSize m =
      some (mask key frameOffset.toNat data dataSize m) := by
  rw [maskWebSocketFramePayload]
  split_ifs with hsmall
  · rw [maskByBytes_eq, mask_mod]
  · obtain ⟨b, head, hb, hbegin, hhead⟩ := exists_aligned type.size_pos data
    have hend := Nat.div_add_mod' (data + dataSize) type.size
    have hlt := Nat.mod_lt (data + dataSize) type.size_pos
    have hle : b ≤ (data + dataSize) / type.size := by
      by_contra hcb
      have := Nat.mul_le_mul_right type.size (Nat.le_of_not_le hcb)
      omega
    -- the part in the middle is `i` times the size
    obtain ⟨i, hi⟩ := Nat.exists_eq_add_of_le hle
    have hipos : i ≤ i * type.size := Nat.le_mul_of_pos_right i type.size_pos
    rw [hi, Nat.add_mul] at hend
    have hstop : data + dataSize - (data + dataSize) % type.size =
        data + (head + i * type.size) := by omega
    simp only [maskByBytes_eq, hb, hstop, mask_offset, mask_mod, Nat.add_sub_cancel_left]
    rw [← Nat.add_assoc, mainLoop_eq type (by omega), Option.bind_eq_bind, Option.bind_some,
      mask_mask, Nat.add_assoc, mask_mask]
    congr 2
    omega

/-- Each byte of the payload is masked by the byte of the key for its offset in the frame, and
nothing else is changed; so a payload can be masked in parts, and masking twice has no effect. -/
theorem maskWebSocketFramePayload_spec (type : PackedMaskType) (key : MaskingKey)
    (frameOffset : UInt64) (data dataSize : ℕ) (m : Mem) :
    (∃ m', maskWebSocketFramePayload type key frameOffset data dataSize m = some m' ∧
      ∀ a, m' a = if data ≤ a ∧ a < data + dataSize
        then m a ^^^ key.byte (frameOffset.toNat + (a - data)) else m a) ∧
    (∀ n, (maskWebSocketFramePayload type key frameOffset data dataSize m >>=
        maskWebSocketFramePayload type key (frameOffset + .ofNat dataSize) (data + dataSize) n) =
      maskWebSocketFramePayload type key frameOffset data (dataSize + n) m) ∧
    (maskWebSocketFramePayload type key frameOffset data dataSize m >>=
      maskWebSocketFramePayload type key frameOffset data dataSize) = some m := by
  simp only [maskWebSocketFramePayload_eq, Option.bind_eq_bind, Option.bind_some]
  refine ⟨⟨_, rfl, fun a => rfl⟩, fun n => ?_, ?_⟩
  · rw [mask_offset, mask_mask]
  · congr 1
    funext a
    simp only [mask]
    split_ifs
    · rw [UInt8.xor_assoc, UInt8.xor_self, UInt8.xor_zero]
    · rfl

-- forty bytes from an address that neither type is aligned to, with at least one round of the
-- main loop
example : ∀ type ∈ [PackedMaskType.vector, .sizeT],
    (maskWebSocketFramePayload type ⟨[1, 2, 3, 4], rfl⟩ 2 5 40 fun _ => 0).map
      (fun m => [m 4, m 5, m 15, m 16, m 31, m 32, m 44, m 45]) =
        some [0, 3, 1, 2, 1, 2, 2, 0] := by
  decide +kernel

end ChromiumBase.WebSocket
