import Mathlib.Algebra.Order.Ring.Nat

/-!
# Numbers and their texts

`NumberToString`, `StringToInt` and `HexStringToInt` of
`base/strings/string_number_conversions.cc`. The two readers are one function of the
base. On failure they also leave a partial number in their output; no caller here looks
at it, so failure is `none`.
-/

open List

namespace ChromiumBase.NumberConversions

def intMax : ℤ := 2147483647

def intMin : ℤ := -2147483648

def charToDigit (base : ℕ) (c : UInt8) : Option ℕ :=
  if base ≤ 10 then
    if 0x30 ≤ c.toNat ∧ c.toNat < 0x30 + base then some (c.toNat - 0x30) else none
  else if 0x30 ≤ c.toNat ∧ c.toNat ≤ 0x39 then some (c.toNat - 0x30)
  else if 0x61 ≤ c.toNat ∧ c.toNat < 0x61 + base - 10 then some (c.toNat - 0x61 + 10)
  else if 0x41 ≤ c.toNat ∧ c.toNat < 0x41 + base - 10 then some (c.toNat - 0x41 + 10)
  else none

def localIsWhitespace (c : UInt8) : Bool := c = 0x20 ∨ (0x09 ≤ c ∧ c ≤ 0x0d)

/-- The classes `Positive` and `Negative` that the digit loop is instantiated with. -/
inductive Sign where
  | positive
  | negative

namespace Sign

def checkBounds (base : ℕ) (output : ℤ) (newDigit : ℕ) : Sign → Bool
  | positive =>
    !(output > intMax.tdiv base ∨
      (output = intMax.tdiv base ∧ (newDigit : ℤ) > intMax.tmod base))
  | negative =>
    !(output < intMin.tdiv base ∨
      (output = intMin.tdiv base ∧ (newDigit : ℤ) > 0 - intMin.tmod base))

def increment (digit : ℕ) (output : ℤ) : Sign → ℤ
  | positive => output + digit
  | negative => output - digit

def ofMagnitude (n : ℕ) : Sign → ℤ
  | positive => n
  | negative => -n

end Sign

/-- The loop of `Base::Invoke`; `first` says that `current` is `begin`. -/
def readDigits (sign : Sign) (base : ℕ) (first : Bool) (output : ℤ) : List UInt8 → Option ℤ
  | [] => some output
  | c :: s =>
    (charToDigit base c).bind fun newDigit =>
      if first then
        readDigits sign base false (sign.increment newDigit output) s
      else if sign.checkBounds base output newDigit then
        readDigits sign base false (sign.increment newDigit (output * base)) s
      else none

/-- A prefix `0x` is skipped in base 16, if something follows it. -/
def skipHexMark (base : ℕ) : List UInt8 → List UInt8
  | c :: x :: d :: s =>
    if base = 16 ∧ c = 0x30 ∧ (x = 0x78 ∨ x = 0x58) then d :: s else c :: x :: d :: s
  | s => s

def invokeSigned (sign : Sign) (base : ℕ) (s : List UInt8) : Option ℤ :=
  if s = [] then none else readDigits sign base true 0 (skipHexMark base s)

/-- `IteratorRangeToNumber::Invoke`. White space at the front makes the result invalid
whatever follows. -/
def rangeToNumber (base : ℕ) : List UInt8 → Option ℤ
  | [] => invokeSigned .positive base []
  | c :: s =>
    if localIsWhitespace c then none
    else if c = 0x2d then invokeSigned .negative base s
    else if c = 0x2b then invokeSigned .positive base s
    else invokeSigned .positive base (c :: s)

def stringToInt (s : List UInt8) : Option ℤ := rangeToNumber 10 s

def hexStringToInt (s : List UInt8) : Option ℤ := rangeToNumber 16 s

/-- The loop of `IntToString`, which fills a buffer from the back. The first argument
bounds the number of digits. -/
def writeDigits : ℕ → ℕ → List UInt8 → List UInt8
  | 0, _, out => out
  | n + 1, res, out =>
    if res / 10 = 0 then (res % 10 + 0x30).toUInt8 :: out
    else writeDigits n (res / 10) ((res % 10 + 0x30).toUInt8 :: out)

/-- `IntToStringT<std::string, INT>::IntToString` for a signed type of `sizeofInt` bytes. -/
def intToString (sizeofInt : ℕ) (value : ℤ) : List UInt8 :=
  let digits := writeDigits (3 * sizeofInt + 1) value.natAbs []
  if value < 0 then 0x2d :: digits else digits

def numberToString (value : ℤ) : List UInt8 := intToString 4 value

def isAsciiDigit (c : UInt8) : Bool := 0x30 ≤ c ∧ c ≤ 0x39

theorem isAsciiDigit_iff (c : UInt8) : isAsciiDigit c = true ↔ 0x30 ≤ c.toNat ∧ c.toNat ≤ 0x39 := by
  rw [isAsciiDigit, decide_eq_true_iff, UInt8.le_iff_toNat_le, UInt8.le_iff_toNat_le]
  rfl

variable {d : ℕ} {c : UInt8}

theorem toNat_digit (h : d < 10) : (d + 0x30).toUInt8.toNat = d + 0x30 := by
  rw [Nat.toUInt8_eq, UInt8.toNat_ofNat', Nat.mod_eq_of_lt (by omega)]

theorem charToDigit_digit (h : d < 10) : charToDigit 10 (d + 0x30).toUInt8 = some d := by
  rw [charToDigit, if_pos le_rfl, toNat_digit h, if_pos (by omega), Nat.add_sub_cancel]

theorem writeDigits_append (n res : ℕ) (out rest : List UInt8) :
    writeDigits n res (out ++ rest) = writeDigits n res out ++ rest := by
  induction n generalizing res out with
  | zero => rfl
  | succ n ih =>
    rw [writeDigits, writeDigits]
    split
    · rfl
    · exact ih _ (_ :: out)

theorem writeDigits_succ (n res : ℕ) : writeDigits (n + 1) res [] =
      (if res / 10 = 0 then [] else writeDigits n (res / 10) []) ++
        [(res % 10 + 0x30).toUInt8] := by
  rw [writeDigits]
  split
  · rfl
  · exact writeDigits_append n (res / 10) [] _

theorem writeDigits_isAsciiDigit (n res : ℕ) :
    ∀ c ∈ writeDigits n res [], isAsciiDigit c = true := by
  induction n generalizing res with
  | zero => simp [writeDigits]
  | succ n ih =>
    intro c hc
    rw [writeDigits_succ, mem_append, mem_singleton] at hc
    rcases hc with hc | rfl
    · split at hc
      · exact absurd hc not_mem_nil
      · exact ih _ c hc
    · rw [isAsciiDigit_iff, toNat_digit (Nat.mod_lt _ (by decide))]
      omega

theorem writeDigits_head {n res : ℕ} (hres : res ≠ 0) (hlt : res < 10 ^ n) :
    ∃ c s, writeDigits n res [] = c :: s ∧ c ≠ 0x30 := by
  induction n generalizing res with
  | zero => omega
  | succ n ih =>
    rw [writeDigits_succ]
    by_cases hdiv : res / 10 = 0
    · refine ⟨_, [], by rw [if_pos hdiv]; rfl, fun h => ?_⟩
      have hnat := congrArg UInt8.toNat h
      rw [toNat_digit (by omega)] at hnat
      change res % 10 + 48 = 48 at hnat
      omega
    · rw [pow_succ] at hlt
      obtain ⟨c, s, hw, hc⟩ := ih hdiv (by omega)
      exact ⟨c, s ++ [_], by rw [if_neg hdiv, hw]; rfl, hc⟩

def isHexDigit (c : UInt8) : Bool := (charToDigit 16 c).isSome

def hexValueFrom (value : ℕ) (s : List UInt8) : ℕ :=
  s.foldl (fun value c => value * 16 + (charToDigit 16 c).getD 0) value

def hexValue (s : List UInt8) : ℕ := hexValueFrom 0 s

theorem charToDigit_lt (h : charToDigit 16 c = some d) : d < 16 := by
  unfold charToDigit at h
  split_ifs at h <;> simp at h <;> omega

theorem hexValueFrom_cons (hd : charToDigit 16 c = some d) (value : ℕ) (s : List UInt8) :
    hexValueFrom value (c :: s) = hexValueFrom (value * 16 + d) s := by
  rw [hexValueFrom, foldl_cons, hd, Option.getD_some, hexValueFrom]

end ChromiumBase.NumberConversions
