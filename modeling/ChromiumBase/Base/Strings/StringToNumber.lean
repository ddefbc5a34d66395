import ChromiumBase.Base.Strings.NumberConversions

/-!
# Texts of numbers of any integer type

`IteratorRangeToNumber` (`base/strings/string_number_conversions.cc`) for every integer type and
both bases, with what it leaves in `*output`.  Every assignment to `*output` is `checked`: nothing
stands for a number that the type does not hold.  No text leads there (`rangeToNumber_spec`).

The readers of an `int` in `NumberConversions`, for callers that do not look at the output of a
failed call, are this function for one type and one locale (`rangeToNumber_int`).
-/

open List

namespace ChromiumBase.StringToNumber

open NumberConversions (Sign)

/-- `std::numeric_limits` of a type that every digit fits in. -/
structure ValueType where
  isSigned : Bool
  min : ℤ
  max : ℤ
  le_max : 15 ≤ max
  min_le : if isSigned then min ≤ -15 else min = 0

def int : ValueType := ⟨true, -2147483648, 2147483647, by decide, by decide⟩

def unsigned : ValueType := ⟨false, 0, 4294967295, by decide, by decide⟩

def int64 : ValueType := ⟨true, -9223372036854775808, 9223372036854775807, by decide, by decide⟩

def uint64 : ValueType := ⟨false, 0, 18446744073709551615, by decide, by decide⟩

inductive Base
  | decimal
  | hexadecimal

def Base.toNat : Base → ℕ
  | decimal => 10
  | hexadecimal => 16

def charToDigit (c : ℕ) : Base → Option ℕ
  | .decimal => if 0x30 ≤ c ∧ c < 0x30 + 10 then some (c - 0x30) else none
  | .hexadecimal =>
    if 0x30 ≤ c ∧ c ≤ 0x39 then some (c - 0x30)
    else if 0x61 ≤ c ∧ c < 0x61 + 16 - 10 then some (c - 0x61 + 10)
    else if 0x41 ≤ c ∧ c < 0x41 + 16 - 10 then some (c - 0x41 + 10)
    else none

/-- What `LocalIsWhitespace` asks the locale. -/
structure Locale where
  isSpace : ℕ → Bool
  isSpace_sign : isSpace 0x2b = false ∧ isSpace 0x2d = false
  isSpace_digit : ∀ c base, (charToDigit c base).isSome → isSpace c = false

def ValueType.checked (t : ValueType) (v : ℤ) : Option ℤ :=
  if t.min ≤ v ∧ v ≤ t.max then some v else none

/-- What a failing `CheckBounds` assigns.  Division truncates as in C++. -/
def checkBounds (t : ValueType) (base : Base) (output : ℤ) (newDigit : ℕ) : Sign → Option ℤ
  | .positive =>
    if output > t.max.tdiv base.toNat ∨
        output = t.max.tdiv base.toNat ∧ (newDigit : ℤ) > t.max.tmod base.toNat then some t.max
    else none
  | .negative =>
    if output < t.min.tdiv base.toNat ∨
        output = t.min.tdiv base.toNat ∧ (newDigit : ℤ) > 0 - t.min.tmod base.toNat then some t.min
    else none

/-- The loop of `Base::Invoke`; `first` says that `current` is `begin`. -/
def digitLoop (t : ValueType) (base : Base) (sign : Sign) (first : Bool) (output : ℤ) :
    List ℕ → Option (Bool × ℤ)
  | [] => some (true, output)
  | c :: s =>
    match charToDigit c base with
    | none => some (false, output)
    | some newDigit =>
      if first then do
        digitLoop t base sign false (← t.checked (sign.increment newDigit output)) s
      else match checkBounds t base output newDigit sign with
        | some bound => some (false, bound)
        | none => do
          let output ← t.checked (output * base.toNat)
          digitLoop t base sign false (← t.checked (sign.increment newDigit output)) s

def skipHexMark : Base → List ℕ → List ℕ
  | .hexadecimal, c :: x :: d :: s =>
    if c = 0x30 ∧ (x = 0x78 ∨ x = 0x58) then d :: s else c :: x :: d :: s
  | _, s => s

def invokeSigned (t : ValueType) (base : Base) (sign : Sign) (s : List ℕ) : Option (Bool × ℤ) :=
  if s = [] then some (false, 0) else digitLoop t base sign true 0 (skipHexMark base s)

def invoke (t : ValueType) (base : Base) : List ℕ → Option (Bool × ℤ)
  | 0x2d :: s => if t.isSigned then invokeSigned t base .negative s else some (false, 0)
  | 0x2b :: s => invokeSigned t base .positive s
  | s => invokeSigned t base .positive s

def rangeToNumber (locale : Locale) (t : ValueType) (base : Base) (s : List ℕ) :
    Option (Bool × ℤ) :=
  (invoke t base (s.dropWhile locale.isSpace)).map fun (valid, output) =>
    (valid && !s.head?.any locale.isSpace, output)

def valueFrom (base : Base) (n : ℕ) (ds : List ℕ) : ℕ :=
  ds.foldl (fun n c => n * base.toNat + (charToDigit c base).getD 0) n

def Digits (base : Base) (ds : List ℕ) : Prop := ∀ c ∈ ds, (charToDigit c base).isSome

/-- One or more digits with the value `n`, in base 16 maybe behind `0x`. -/
def Magnitude (base : Base) (s : List ℕ) (n : ℕ) : Prop :=
  ∃ ds, ds ≠ [] ∧ Digits base ds ∧ n = valueFrom base 0 ds ∧
    (s = ds ∨ base = .hexadecimal ∧ ∃ x, (x = 0x78 ∨ x = 0x58) ∧ s = 0x30 :: x :: ds)

/-- A magnitude behind an optional sign, which is not a minus if the type has none. -/
def Denotes (t : ValueType) (base : Base) : List ℕ → ℤ → Prop
  | 0x2d :: s, v => t.isSigned ∧ ∃ n, Magnitude base s n ∧ v = -n
  | 0x2b :: s, v => ∃ n, Magnitude base s n ∧ v = n
  | s, v => ∃ n, Magnitude base s n ∧ v = n

variable {t : ValueType} {base : Base} {sign : Sign} {s ds : List ℕ} {c d n : ℕ} {v : ℤ}

def limit (t : ValueType) : Sign → ℕ
  | .positive => t.max.toNat
  | .negative => (-t.min).toNat

theorem checked_ofMagnitude (h : n ≤ limit t sign) :
    t.checked (sign.ofMagnitude n) = some (sign.ofMagnitude n) := by
  have hmax := t.le_max
  have hmin := t.min_le
  refine if_pos ?_
  split_ifs at hmin <;> cases sign <;> simp only [Sign.ofMagnitude, limit] at h ⊢ <;> omega

theorem charToDigit_lt (h : charToDigit c base = some d) : d < base.toNat := by
  cases base <;> simp only [charToDigit] at h <;> split_ifs at h <;> cases h <;>
    simp only [Base.toNat] <;> omega

theorem digit_le (h : charToDigit c base = some d) : d ≤ 15 := by
  have := charToDigit_lt h
  cases base <;> simp only [Base.toNat] at this <;> omega

theorem lt_iff_digit {b L : ℕ} (hd : d < b) :
    L < n * b + d ↔ L / b < n ∨ n = L / b ∧ L % b < d := by
  have hdiv := Nat.div_add_mod' L b
  have hmod := Nat.mod_lt L (Nat.zero_lt_of_lt hd)
  have hstep {i j : ℕ} (h : i < j) := Nat.succ_mul i b ▸ Nat.mul_le_mul_right b h
  rcases Nat.lt_trichotomy n (L / b) with h | rfl | h
  · have := hstep h
    omega
  · omega
  · have := hstep h
    omega

/-- The comparison before the multiplication decides whether the next value is in range. -/
theorem checkBounds_eq (hd : d < base.toNat) : checkBounds t base (sign.ofMagnitude n) d sign =
      if limit t sign < n * base.toNat + d then some (sign.ofMagnitude (limit t sign))
      else none := by
  have hmax := t.le_max
  have hmin := t.min_le
  rw [if_congr (lt_iff_digit hd) rfl rfl]
  generalize hL : limit t sign = L
  cases sign with
  | positive =>
    have : t.max = L := by
      rw [← hL, limit]
      omega
    simp only [checkBounds, Sign.ofMagnitude, this, ← Int.ofNat_tdiv, ← Int.ofNat_tmod]
    exact if_congr (by omega) rfl rfl
  | negative =>
    have : t.min = -L := by
      rw [← hL, limit]
      split_ifs at hmin <;> omega
    simp only [checkBounds, Sign.ofMagnitude, this, Int.neg_tdiv, Int.neg_tmod, ← Int.ofNat_tdiv,
      ← Int.ofNat_tmod]
    exact if_congr (by omega) rfl rfl

theorem le_valueFrom (n : ℕ) (ds : List ℕ) : n ≤ valueFrom base n ds := by
  induction ds generalizing n with
  | nil => exact Nat.le_refl n
  | cons c ds ih =>
    have hpos : 0 < base.toNat := by cases base <;> decide
    exact (Nat.le_add_right_of_le (Nat.le_mul_of_pos_right n hpos)).trans (ih _)

theorem increment_ofMagnitude (d n : ℕ) (sign : Sign) :
    sign.increment d (sign.ofMagnitude n) = sign.ofMagnitude (n + d) := by
  cases sign <;> simp only [Sign.increment, Sign.ofMagnitude] <;> omega

theorem increment_zero (d : ℕ) (sign : Sign) : sign.increment d 0 = sign.ofMagnitude d := by
  cases sign <;> simp [Sign.increment, Sign.ofMagnitude]

theorem ofMagnitude_mul (n k : ℕ) (sign : Sign) :
    sign.ofMagnitude n * k = sign.ofMagnitude (n * k) := by
  cases sign with
  | positive => simp [Sign.ofMagnitude]
  | negative => simp only [Sign.ofMagnitude, Int.natCast_mul, Int.neg_mul]

/-- A digit that fits is appended. -/
theorem digitLoop_cons (hd : charToDigit c base = some d) (h : n * base.toNat + d ≤ limit t sign)
    (s : List ℕ) : digitLoop t base sign false (sign.ofMagnitude n) (c :: s) =
      digitLoop t base sign false (sign.ofMagnitude (n * base.toNat + d)) s := by
  have hm : n * base.toNat ≤ limit t sign := by omega
  rw [digitLoop, hd]
  simp only [checkBounds_eq (charToDigit_lt hd), if_neg (Nat.not_lt.mpr h), ofMagnitude_mul,
    increment_ofMagnitude, checked_ofMagnitude hm, checked_ofMagnitude h, Option.bind_eq_bind,
    Option.bind_some]
  rfl

theorem digitLoop_first (h : 15 ≤ limit t sign) (s : List ℕ) :
    digitLoop t base sign true 0 s = digitLoop t base sign false (sign.ofMagnitude 0) s := by
  have h0 : sign.ofMagnitude 0 = 0 := by cases sign <;> rfl
  cases s with
  | nil => rw [h0, digitLoop, digitLoop]
  | cons c s =>
    cases hd : charToDigit c base with
    | none => rw [h0, digitLoop, digitLoop, hd]
    | some d =>
      have hle := (digit_le hd).trans h
      rw [digitLoop_cons hd (by omega), digitLoop, hd]
      simp [increment_zero, checked_ofMagnitude hle]

theorem skipHexMark_digits (h : Digits base s) : skipHexMark base s = s := by
  fun_cases skipHexMark base s with
  | case1 c x d s hx =>
    have := h x (by simp)
    rcases hx.2 with rfl | rfl <;> simp [charToDigit] at this
  | case2 => rfl
  | case3 => rfl

theorem magnitude_iff : Magnitude base s n ↔ s ≠ [] ∧ Digits base (skipHexMark base s) ∧
    n = valueFrom base 0 (skipHexMark base s) := by
  constructor
  · rintro ⟨ds, hne, hds, rfl, rfl | ⟨rfl, x, hx, rfl⟩⟩
    · rw [skipHexMark_digits hds]
      exact ⟨hne, hds, rfl⟩
    · obtain ⟨d, ds, rfl⟩ := exists_cons_of_ne_nil hne
      rw [skipHexMark, if_pos ⟨rfl, hx⟩]
      exact ⟨cons_ne_nil _ _, hds, rfl⟩
  · rintro ⟨hne, hds, rfl⟩
    refine ⟨_, ?_, hds, rfl, ?_⟩ <;> fun_cases skipHexMark base s with
    | case1 c x d s hx => simp [hx]
    | _ => simp [hne]

/-- What a call returns for a text with the values `P`. -/
def Correct (t : ValueType) (P : ℤ → Prop) (r : Option (Bool × ℤ)) : Prop :=
  ∃ valid output, r = some (valid, output) ∧
    (valid = true ↔ ∃ v, P v ∧ t.min ≤ v ∧ v ≤ t.max) ∧
    ∀ v, P v → output = if v < t.min then t.min else if t.max < v then t.max else v

theorem correct_of_forall_not {P : ℤ → Prop} (h : ∀ v, ¬ P v) (output : ℤ) :
    Correct t P (some (false, output)) :=
  ⟨_, _, rfl, by simp [h], fun v hv => absurd hv (h v)⟩

/-- The values of digits behind a number `n`: one, or none if there is another character. -/
def Reads (base : Base) (sign : Sign) (n : ℕ) (ds : List ℕ) (v : ℤ) : Prop :=
  Digits base ds ∧ v = sign.ofMagnitude (valueFrom base n ds)

theorem reads_cons (hd : charToDigit c base = some d) :
    Reads base sign n (c :: ds) = Reads base sign (n * base.toNat + d) ds := by
  funext v
  simp [Reads, Digits, hd, valueFrom]

section Loop

variable (hsign : 15 ≤ limit t sign)

include hsign

theorem correct_reads (hds : Digits base ds) {b : Bool} {m : ℕ}
    (hb : b = true ↔ valueFrom base n ds ≤ limit t sign)
    (hm : m = min (valueFrom base n ds) (limit t sign)) :
    Correct t (Reads base sign n ds) (some (b, sign.ofMagnitude m)) := by
  have hmax := t.le_max
  have hmin := t.min_le
  refine ⟨_, _, rfl, hb.trans ?_, ?_⟩
  · simp only [Reads, hds, true_and, exists_eq_left]
    split_ifs at hmin <;> cases sign <;> simp only [Sign.ofMagnitude, limit] at * <;> omega
  · rintro _ ⟨-, rfl⟩
    split_ifs at hmin <;> cases sign <;> simp only [Sign.ofMagnitude, limit] at * <;>
      split_ifs <;> omega

/-- The loop reads the value of the digits, or stops at the limit it exceeds. -/
theorem digitLoop_correct (hn : n ≤ limit t sign) (s : List ℕ) :
    Correct t (Reads base sign n s) (digitLoop t base sign false (sign.ofMagnitude n) s) := by
  induction s generalizing n with
  | nil =>
    have hv : valueFrom base n [] = n := rfl
    exact correct_reads hsign (fun _ h => absurd h not_mem_nil) (by simp [hv, hn]) (by omega)
  | cons c s ih =>
    cases hd : charToDigit c base with
    | none =>
      rw [digitLoop, hd]
      exact correct_of_forall_not (by simp [Reads, Digits, hd]) _
    | some d =>
      rw [reads_cons hd]
      by_cases hlt : limit t sign < n * base.toNat + d
      · have := @le_valueFrom base (n * base.toNat + d) s
        rw [digitLoop, hd]
        simp only [checkBounds_eq (charToDigit_lt hd), if_pos hlt]
        by_cases hds : Digits base s
        · exact correct_reads hsign hds (by simp; omega) (by omega)
        · exact correct_of_forall_not (fun v h => hds h.1) _
      · rw [digitLoop_cons hd (Nat.le_of_not_lt hlt)]
        exact ih (Nat.le_of_not_lt hlt)

theorem invokeSigned_correct (s : List ℕ) :
    Correct t (fun v => ∃ n, Magnitude base s n ∧ v = sign.ofMagnitude n)
      (invokeSigned t base sign s) := by
  rw [invokeSigned]
  split_ifs with hs
  · exact correct_of_forall_not (by simp [magnitude_iff, hs]) _
  · have hv : (fun v => ∃ n, Magnitude base s n ∧ v = sign.ofMagnitude n) =
        Reads base sign 0 (skipHexMark base s) := by
      funext v
      simp [magnitude_iff, hs, Reads]
    rw [hv, digitLoop_first hsign]
    exact digitLoop_correct hsign (Nat.zero_le _) _

end Loop

theorem invoke_correct (t : ValueType) (base : Base) (s : List ℕ) :
    Correct t (Denotes t base s) (invoke t base s) := by
  have hmax := t.le_max
  have hmin := t.min_le
  have hpos : 15 ≤ limit t .positive := by
    simp only [limit]
    omega
  fun_cases invoke t base s with
  | case1 s hs =>
    have hv : Denotes t base (0x2d :: s) = fun v : ℤ => ∃ n : ℕ, Magnitude base s n ∧ v = -n :=
      funext fun v => by simp [Denotes, hs]
    have hneg : 15 ≤ limit t .negative := by
      rw [if_pos hs] at hmin
      simp only [limit]
      omega
    rw [hv]
    exact invokeSigned_correct hneg s
  | case2 s hs => exact correct_of_forall_not (by simp [Denotes, hs]) _
  | case3 s => exact invokeSigned_correct hpos s
  | case4 s hminus hplus =>
    have hv : Denotes t base s = fun v : ℤ => ∃ n : ℕ, Magnitude base s n ∧ v = n :=
      funext fun v => by rw [Denotes] <;> assumption
    rw [hv]
    exact invokeSigned_correct hpos s

theorem Denotes.not_space (h : Denotes t base s v) (locale : Locale) :
    ¬ s.head?.any locale.isSpace := by
  revert h
  fun_cases Denotes t base s v with
  | case1 => simp [locale.isSpace_sign]
  | case2 => simp [locale.isSpace_sign]
  | case3 s =>
    rintro ⟨n, ⟨ds, hne, hds, -, rfl | ⟨-, x, -, rfl⟩⟩, -⟩
    · obtain ⟨c, ds, rfl⟩ := exists_cons_of_ne_nil hne
      simp [locale.isSpace_digit c base (hds c mem_cons_self)]
    · simp [locale.isSpace_digit 0x30 .decimal rfl]

section

variable (locale : Locale) (t : ValueType) (base : Base) (s : List ℕ)

theorem rangeToNumber_eq_invoke (hs : ¬ s.head?.any locale.isSpace) :
    rangeToNumber locale t base s = invoke t base s := by
  have hdrop : s.dropWhile locale.isSpace = s := by
    cases s <;> simp_all
  simp [rangeToNumber, hdrop, hs]

theorem rangeToNumber_correct : Correct t (Denotes t base s) (rangeToNumber locale t base s) := by
  by_cases hs : s.head?.any locale.isSpace
  · obtain ⟨valid, output, heq, -⟩ := invoke_correct t base (s.dropWhile locale.isSpace)
    rw [rangeToNumber, heq, hs]
    simpa using correct_of_forall_not (fun v hv => hv.not_space locale hs) output
  · rw [rangeToNumber_eq_invoke locale t base s hs]
    exact invoke_correct t base s

/-- The call succeeds for the texts of the numbers that the type holds, and leaves the number in
the output, or the nearest one that the type holds if there is another. -/
theorem rangeToNumber_spec : ∃ valid output, rangeToNumber locale t base s = some (valid, output) ∧
      (valid = true ↔ ∃ v, Denotes t base s v ∧ t.min ≤ v ∧ v ≤ t.max) ∧
      ∀ v, Denotes t base s v →
        output = if v < t.min then t.min else if t.max < v then t.max else v :=
  rangeToNumber_correct locale t base s

end

def defaultLocale : Locale where
  isSpace c := c = 0x20 ∨ (0x09 ≤ c ∧ c ≤ 0x0d)
  isSpace_sign := by decide
  isSpace_digit c base h := by
    cases base <;> simp only [charToDigit] at h <;> split_ifs at h <;> simp_all <;> omega

def accepted (r : Option (Bool × ℤ)) : Option ℤ :=
  r.bind fun (valid, output) => if valid then some output else none

section Int

variable {text : List UInt8}

theorem charToDigit_int (base : Base) (c : UInt8) :
    NumberConversions.charToDigit base.toNat c = charToDigit c.toNat base := by
  cases base <;> rfl

theorem checkBounds_int (output : ℤ) (d : ℕ) :
    sign.checkBounds base.toNat output d = (checkBounds int base output d sign).isNone := by
  have hif {P : Prop} [Decidable P] (v : ℤ) :
      (!decide P) = (if P then some v else none).isNone := by
    split <;> simp [*]
  cases sign <;> exact hif _

theorem readDigits_int (hn : n ≤ limit int sign) (text : List UInt8) :
    NumberConversions.readDigits sign base.toNat false (sign.ofMagnitude n) text =
      accepted (digitLoop int base sign false (sign.ofMagnitude n) (text.map UInt8.toNat)) := by
  induction text generalizing n with
  | nil => rfl
  | cons c text ih =>
    rw [NumberConversions.readDigits, charToDigit_int, map_cons]
    cases hd : charToDigit c.toNat base with
    | none =>
      rw [digitLoop, hd]
      rfl
    | some d =>
      by_cases hlt : limit int sign < n * base.toNat + d
      · rw [digitLoop, hd]
        simp [checkBounds_int, checkBounds_eq (charToDigit_lt hd), hlt, accepted]
      · rw [digitLoop_cons hd (Nat.le_of_not_lt hlt), ← ih (Nat.le_of_not_lt hlt)]
        simp [checkBounds_int, checkBounds_eq (charToDigit_lt hd), hlt, ofMagnitude_mul,
          increment_ofMagnitude]

theorem map_skipHexMark (base : Base) (text : List UInt8) :
    (NumberConversions.skipHexMark base.toNat text).map UInt8.toNat =
      skipHexMark base (text.map UInt8.toNat) := by
  cases base with
  | decimal => fun_cases NumberConversions.skipHexMark 10 text <;> simp_all [skipHexMark]
  | hexadecimal =>
    match text with
    | [] | [_] | [_, _] => rfl
    | c :: x :: d :: text =>
      simp [NumberConversions.skipHexMark, skipHexMark, Base.toNat, ← UInt8.toNat_inj]
      split <;> rfl

theorem invokeSigned_int (sign : Sign) (text : List UInt8) :
    NumberConversions.invokeSigned sign base.toNat text =
      accepted (invokeSigned int base sign (text.map UInt8.toNat)) := by
  rw [NumberConversions.invokeSigned, invokeSigned, ← map_skipHexMark]
  simp only [map_eq_nil_iff]
  split_ifs
  · rfl
  cases NumberConversions.skipHexMark base.toNat text with
  | nil => rfl
  | cons c text =>
    rw [NumberConversions.readDigits, charToDigit_int, map_cons]
    cases hd : charToDigit c.toNat base with
    | none =>
      rw [digitLoop, hd]
      rfl
    | some d =>
      have hlim : 15 ≤ limit int sign := by cases sign <;> decide
      have hle : 0 * base.toNat + d ≤ limit int sign := by
        have := digit_le hd
        omega
      rw [digitLoop_first hlim, digitLoop_cons hd hle, ← readDigits_int hle, Nat.zero_mul,
        Nat.zero_add, ← increment_zero]
      rfl

theorem isSpace_int (c : UInt8) :
    NumberConversions.localIsWhitespace c = defaultLocale.isSpace c.toNat := by
  simp [NumberConversions.localIsWhitespace, defaultLocale, ← UInt8.toNat_inj,
    UInt8.le_iff_toNat_le]

/-- The functions of the JSON reader and writer are those for `int`. -/
theorem rangeToNumber_int (base : Base) (text : List UInt8) :
    NumberConversions.rangeToNumber base.toNat text =
      accepted (rangeToNumber defaultLocale int base (text.map UInt8.toNat)) := by
  cases text with
  | nil => exact invokeSigned_int .positive []
  | cons c text =>
    rw [NumberConversions.rangeToNumber, isSpace_int]
    by_cases hs : defaultLocale.isSpace c.toNat
    · simp [rangeToNumber, hs, accepted, Option.bind_map]
    · rw [rangeToNumber_eq_invoke _ _ _ _ (by simpa using hs), if_neg hs]
      by_cases hm : c = 0x2d
      · subst hm
        exact invokeSigned_int .negative text
      by_cases hp : c = 0x2b
      · subst hp
        exact invokeSigned_int .positive text
      rw [if_neg hm, if_neg hp, invokeSigned_int, map_cons, invoke]
      · simpa [← UInt8.toNat_inj] using hm
      · simpa [← UInt8.toNat_inj] using hp

theorem rangeToNumber_of_denotes (base : Base) (h : Denotes int base (text.map UInt8.toNat) v)
    (hlo : int.min ≤ v) (hhi : v ≤ int.max) :
    NumberConversions.rangeToNumber base.toNat text = some v := by
  obtain ⟨valid, output, heq, hv, ho⟩ := rangeToNumber_correct defaultLocale int base
    (text.map UInt8.toNat)
  rw [rangeToNumber_int, heq, ho v h, if_neg (not_lt.mpr hlo), if_neg (not_lt.mpr hhi), accepted]
  exact if_pos (hv.mpr ⟨v, h, hlo, hhi⟩)

theorem denotes_digits (hne : ds ≠ []) (hds : Digits base ds) :
    Denotes t base ds (valueFrom base 0 ds) := by
  have hm : Magnitude base ds (valueFrom base 0 ds) := ⟨ds, hne, hds, rfl, .inl rfl⟩
  generalize hv : (valueFrom base 0 ds : ℤ) = v
  fun_cases Denotes t base ds v with
  | case1 s => exact absurd (hds 0x2d mem_cons_self) (by cases base <;> decide)
  | case2 s => exact absurd (hds 0x2b mem_cons_self) (by cases base <;> decide)
  | case3 => exact ⟨_, hm, hv.symm⟩

end Int

end ChromiumBase.StringToNumber

namespace ChromiumBase.NumberConversions

open StringToNumber

variable {s : List UInt8}

theorem valueFrom_writeDigits {n res : ℕ} (h : res < 10 ^ n) :
    valueFrom .decimal 0 ((writeDigits n res []).map UInt8.toNat) = res := by
  induction n generalizing res with
  | zero => exact (Nat.lt_one_iff.mp h).symm
  | succ n ih =>
    have hd := (charToDigit_int .decimal _).symm.trans
      (charToDigit_digit (Nat.mod_lt res (show 0 < 10 by decide)))
    have hf : valueFrom .decimal 0 ((if res / 10 = 0 then [] else
        writeDigits n (res / 10) []).map UInt8.toNat) = res / 10 := by
      split_ifs with hz
      · exact hz.symm
      · exact ih (by omega)
    rw [valueFrom] at hf
    rw [writeDigits_succ, map_append, valueFrom, foldl_append, hf, map_singleton, foldl_cons, hd]
    exact Nat.div_add_mod' res 10

/-- Numbers are read back from their text. -/
theorem stringToInt_numberToString {value : ℤ} (hlo : intMin ≤ value) (hhi : value ≤ intMax) :
    stringToInt (numberToString value) = some value := by
  have hds : Digits .decimal ((writeDigits 13 value.natAbs []).map UInt8.toNat) := by
    intro c hc
    obtain ⟨b, hb, rfl⟩ := mem_map.mp hc
    have := (isAsciiDigit_iff b).mp (writeDigits_isAsciiDigit 13 _ b hb)
    simp only [StringToNumber.charToDigit]
    rw [if_pos (by omega)]
    rfl
  have hne : (writeDigits 13 value.natAbs []).map UInt8.toNat ≠ [] := by
    simp [writeDigits_succ]
  have hv : valueFrom .decimal 0 _ = value.natAbs := valueFrom_writeDigits (n := 13) (by
    unfold intMin at hlo
    unfold intMax at hhi
    omega)
  refine rangeToNumber_of_denotes .decimal ?_ hlo hhi
  rw [numberToString, intToString]
  split
  · exact ⟨rfl, _, ⟨_, hne, hds, rfl, .inl rfl⟩, by rw [hv]; omega⟩
  · have hd := denotes_digits (t := int) hne hds
    rwa [hv, Int.natAbs_of_nonneg (by omega)] at hd

theorem hexValueFrom_lt (value : ℕ) (s : List UInt8) :
    hexValueFrom value s < (value + 1) * 16 ^ s.length := by
  induction s generalizing value with
  | nil => simp [hexValueFrom]
  | cons c s ih =>
    have hd : (charToDigit 16 c).getD 0 < 16 := by
      cases h : charToDigit 16 c with
      | none => decide
      | some d => exact charToDigit_lt h
    calc hexValueFrom value (c :: s)
      _ < (value * 16 + (charToDigit 16 c).getD 0 + 1) * 16 ^ s.length := ih _
      _ ≤ (value + 1) * 16 * 16 ^ s.length := Nat.mul_le_mul_right _ (by omega)
      _ = (value + 1) * 16 ^ (c :: s).length := by
        rw [length_cons, pow_succ', mul_assoc]

theorem hexValue_lt (hlen : s.length ≤ 7) : hexValue s < 16 ^ 7 :=
  calc hexValue s < (0 + 1) * 16 ^ s.length := hexValueFrom_lt 0 s
    _ ≤ 16 ^ 7 := by
      rw [zero_add, one_mul]
      exact Nat.pow_le_pow_right (by decide) hlen

theorem hexStringToInt_of_isHexDigit (hne : s ≠ []) (hlen : s.length ≤ 7)
    (hs : ∀ c ∈ s, isHexDigit c = true) : hexStringToInt s = some ↑(hexValue s) := by
  have hds : Digits .hexadecimal (s.map UInt8.toNat) := by
    intro c hc
    obtain ⟨b, hb, rfl⟩ := mem_map.mp hc
    exact hs b hb
  have hv : valueFrom .hexadecimal 0 (s.map UInt8.toNat) = hexValue s := by
    simp only [valueFrom, foldl_map]
    rfl
  have hlt := hexValue_lt hlen
  have hd := denotes_digits (t := int) (by simpa using hne) hds
  rw [hv] at hd
  exact rangeToNumber_of_denotes .hexadecimal hd (by simp only [int]; omega)
    (by simp only [int]; omega)

end ChromiumBase.NumberConversions
