import Mathlib.Data.Nat.Bitwise

/-!
# Reading and writing UTF-8

`ReadUnicodeCharacter` and `WriteUnicodeCharacter` of
`base/strings/utf_string_conversion_utils.cc`, with the macros of `icu_utf.h` that
they expand to. Reading is described on the bytes from the current position on:
the code point, if there is one, and the number of bytes read. Bit fields are
joined by sums, since they do not overlap.

The two functions are inverse to each other on valid code points.
-/

open List UInt8

namespace ChromiumBase.Utf

def IsValidCodepoint (c : ℕ) : Prop := c < 0xD800 ∨ 0xE000 ≤ c ∧ c ≤ 0x10FFFF

instance (c : ℕ) : Decidable (IsValidCodepoint c) :=
  inferInstanceAs (Decidable (_ ∨ _))

def IsValidCharacter (c : ℕ) : Prop :=
  c < 0xD800 ∨ (0xE000 ≤ c ∧ c < 0xFDD0) ∨
    (0xFDEF < c ∧ c ≤ 0x10FFFF ∧ c &&& 0xFFFE ≠ 0xFFFE)

instance (c : ℕ) : Decidable (IsValidCharacter c) :=
  inferInstanceAs (Decidable (_ ∨ _))

variable {c n : ℕ} {b t1 t2 t3 : UInt8} {s : List UInt8}

theorem IsValidCharacter.isValidCodepoint (h : IsValidCharacter c) : IsValidCodepoint c := by
  unfold IsValidCharacter IsValidCodepoint at *
  omega

def lead3T1Bits : List ℕ :=
  [0x20, 0x30, 0x30, 0x30, 0x30, 0x30, 0x30, 0x30, 0x30, 0x30, 0x30, 0x30, 0x30, 0x10, 0x30, 0x30]

def lead4T1Bits : List ℕ :=
  [0, 0, 0, 0, 0, 0, 0, 0, 0x1E, 0x0F, 0x0F, 0x0F, 0, 0, 0, 0]

def isValidLead3AndT1 (lead t1 : UInt8) : Bool :=
  (lead3T1Bits.getD (lead.toNat % 16) 0).testBit (t1.toNat / 32)

def isValidLead4AndT1 (lead t1 : UInt8) : Bool :=
  (lead4T1Bits.getD (t1.toNat / 16) 0).testBit (lead.toNat % 8)

def isTrail (t : UInt8) : Bool := decide (t - 0x80 ≤ 0x3f)

/-- `utf8_nextCharSafeBody` for the lead byte `c` and the bytes behind it. -/
def nextCharSafeBody (c : UInt8) : List UInt8 → Option ℕ × ℕ
  | [] => (none, 1)
  | t1 :: s =>
    if c > 0xf4 then
      (none, 1)
    else if c ≥ 0xf0 then
      if isValidLead4AndT1 c t1 then
        match s with
        | [] => (none, 2)
        | t2 :: s =>
          if isTrail t2 then
            match s with
            | [] => (none, 3)
            | t3 :: _ =>
              if isTrail t3 then
                (some (c.toNat % 8 * 2 ^ 18 + t1.toNat % 64 * 2 ^ 12 +
                  (t2 - 0x80).toNat * 2 ^ 6 + (t3 - 0x80).toNat), 4)
              else (none, 3)
          else (none, 2)
      else (none, 1)
    else if c ≥ 0xe0 then
      if isValidLead3AndT1 c t1 then
        match s with
        | [] => (none, 2)
        | t2 :: _ =>
          if isTrail t2 then
            (some (c.toNat % 16 * 2 ^ 12 + t1.toNat % 64 * 2 ^ 6 + (t2 - 0x80).toNat), 3)
          else (none, 2)
      else (none, 1)
    else if c ≥ 0xc2 then
      if isTrail t1 then (some ((c - 0xc0).toNat * 2 ^ 6 + (t1 - 0x80).toNat), 2)
      else (none, 1)
    else (none, 1)

/-- `CBU8_NEXT`, with its two cases that are handled inline. -/
def cbu8Next : List UInt8 → Option ℕ × ℕ
  | [] => (none, 0)
  | c :: s =>
    if c < 0x80 then
      (some c.toNat, 1)
    else
      match s with
      | t1 :: t2 :: _ =>
        if 0xe0 ≤ c ∧ c < 0xf0 ∧ isValidLead3AndT1 c t1 ∧ isTrail t2 then
          (some (c.toNat % 16 * 2 ^ 12 + t1.toNat % 64 * 2 ^ 6 + (t2 - 0x80).toNat), 3)
        else if c < 0xe0 ∧ c ≥ 0xc2 ∧ isTrail t1 then
          (some (c.toNat % 32 * 2 ^ 6 + (t1 - 0x80).toNat), 2)
        else nextCharSafeBody c s
      | [t1] =>
        if c < 0xe0 ∧ c ≥ 0xc2 ∧ isTrail t1 then
          (some (c.toNat % 32 * 2 ^ 6 + (t1 - 0x80).toNat), 2)
        else nextCharSafeBody c s
      | [] => nextCharSafeBody c s

/-- The code point, if it is valid, and the number of bytes read. -/
def readUnicodeCharacter (s : List UInt8) : Option ℕ × ℕ :=
  ((cbu8Next s).1.filter (IsValidCodepoint ·), (cbu8Next s).2)

def cbu8AppendUnsafe (c : ℕ) : List UInt8 :=
  if c ≤ 0x7f then [c.toUInt8]
  else if c ≤ 0x7ff then [(c >>> 6 ||| 0xc0).toUInt8, (c &&& 0x3f ||| 0x80).toUInt8]
  else if c ≤ 0xffff then
    [(c >>> 12 ||| 0xe0).toUInt8, (c >>> 6 &&& 0x3f ||| 0x80).toUInt8,
      (c &&& 0x3f ||| 0x80).toUInt8]
  else
    [(c >>> 18 ||| 0xf0).toUInt8, (c >>> 12 &&& 0x3f ||| 0x80).toUInt8,
      (c >>> 6 &&& 0x3f ||| 0x80).toUInt8, (c &&& 0x3f ||| 0x80).toUInt8]

def writeUnicodeCharacter (c : ℕ) : List UInt8 :=
  if c ≤ 0x7f then [c.toUInt8] else cbu8AppendUnsafe c

theorem toNat_toUInt8 (h : n < 256) : n.toUInt8.toNat = n := by
  rw [Nat.toUInt8_eq, toNat_ofNat', Nat.mod_eq_of_lt h]

theorem toNat_or {i : ℕ} (a : ℕ) (h : n < 2 ^ i) (hlt : 2 ^ i * a + n < 256) :
    (n ||| 2 ^ i * a).toUInt8.toNat = 2 ^ i * a + n := by
  rw [Nat.or_comm, ← Nat.two_pow_add_eq_or_of_lt h, toNat_toUInt8 hlt]

theorem toNat_trail (n : ℕ) : (n &&& 0x3f ||| 0x80).toUInt8.toNat = 0x80 + n % 64 := by
  have hmod : n &&& 0x3f = n % 64 := Nat.and_two_pow_sub_one_eq_mod n 6
  rw [hmod]
  exact toNat_or (i := 6) 2 (by omega) (by omega)

theorem isTrail_iff (t : UInt8) : isTrail t = true ↔ 0x80 ≤ t.toNat ∧ t.toNat < 0xc0 := by
  have ht := t.toNat_lt
  rw [isTrail, decide_eq_true_iff, UInt8.le_iff_toNat_le, UInt8.toNat_sub]
  change (2 ^ 8 - 128 + t.toNat) % 2 ^ 8 ≤ 63 ↔ _
  omega

theorem toNat_sub_of_isTrail {t : UInt8} (h : isTrail t = true) :
    (t - 0x80).toNat = t.toNat - 0x80 := by
  have ht := t.toNat_lt
  obtain ⟨hge, -⟩ := (isTrail_iff t).mp h
  change (2 ^ 8 - 128 + t.toNat) % 2 ^ 8 = t.toNat - 128
  omega

theorem lead3T1Bits_testBit : ∀ i < 16, ∀ j < 8, (lead3T1Bits.getD i 0).testBit j =
    decide ((j = 4 ∨ j = 5) ∧ (i = 0 → j = 5) ∧ (i = 13 → j = 4)) := by
  decide

theorem lead4T1Bits_testBit : ∀ i < 16, ∀ j < 8, (lead4T1Bits.getD i 0).testBit j =
    decide ((8 ≤ i ∧ i ≤ 11) ∧ (j = 0 → 9 ≤ i) ∧ (i = 8 → 1 ≤ j) ∧ (j = 4 → i = 8) ∧ j ≤ 4) := by
  decide

theorem isValidLead3AndT1_iff {lead t1 : UInt8} (hlo : 0xe0 ≤ lead.toNat)
    (hhi : lead.toNat < 0xf0) : isValidLead3AndT1 lead t1 = true ↔
      (0x80 ≤ t1.toNat ∧ t1.toNat < 0xc0) ∧ (lead.toNat = 0xe0 → 0xa0 ≤ t1.toNat) ∧
        (lead.toNat = 0xed → t1.toNat < 0xa0) := by
  have ht := t1.toNat_lt
  rw [isValidLead3AndT1, lead3T1Bits_testBit _ (by omega) _ (by omega), decide_eq_true_iff]
  omega

theorem isValidLead4AndT1_iff {lead t1 : UInt8} (hlo : 0xf0 ≤ lead.toNat)
    (hhi : lead.toNat ≤ 0xf4) : isValidLead4AndT1 lead t1 = true ↔
      (0x80 ≤ t1.toNat ∧ t1.toNat < 0xc0) ∧ (lead.toNat = 0xf0 → 0x90 ≤ t1.toNat) ∧
        (lead.toNat = 0xf4 → t1.toNat < 0x90) := by
  have ht := t1.toNat_lt
  rw [isValidLead4AndT1, lead4T1Bits_testBit _ (by omega) _ (by omega), decide_eq_true_iff]
  omega

theorem writeUnicodeCharacter_one (h : c ≤ 0x7f) :
    ∃ b : UInt8, writeUnicodeCharacter c = [b] ∧ b.toNat = c :=
  ⟨c.toUInt8, if_pos h, toNat_toUInt8 (by omega)⟩

theorem writeUnicodeCharacter_two (hlo : 0x7f < c) (hhi : c ≤ 0x7ff) :
    ∃ b t1 : UInt8, writeUnicodeCharacter c = [b, t1] ∧
      b.toNat = 0xc0 + c / 2 ^ 6 ∧ t1.toNat = 0x80 + c % 64 := by
  have hw : writeUnicodeCharacter c =
      [(c / 2 ^ 6 ||| 0xc0).toUInt8, (c &&& 0x3f ||| 0x80).toUInt8] := by
    rw [writeUnicodeCharacter, if_neg (by omega), cbu8AppendUnsafe, if_neg (by omega),
      if_pos hhi, Nat.shiftRight_eq_div_pow]
  exact ⟨_, _, hw, toNat_or (i := 5) 6 (by omega) (by omega), toNat_trail c⟩

theorem writeUnicodeCharacter_three (hlo : 0x7ff < c) (hhi : c ≤ 0xffff) :
    ∃ b t1 t2 : UInt8, writeUnicodeCharacter c = [b, t1, t2] ∧
      b.toNat = 0xe0 + c / 2 ^ 12 ∧ t1.toNat = 0x80 + c / 2 ^ 6 % 64 ∧
      t2.toNat = 0x80 + c % 64 := by
  have hw : writeUnicodeCharacter c =
      [(c / 2 ^ 12 ||| 0xe0).toUInt8, (c / 2 ^ 6 &&& 0x3f ||| 0x80).toUInt8,
        (c &&& 0x3f ||| 0x80).toUInt8] := by
    rw [writeUnicodeCharacter, if_neg (by omega), cbu8AppendUnsafe, if_neg (by omega),
      if_neg (by omega), if_pos hhi, Nat.shiftRight_eq_div_pow, Nat.shiftRight_eq_div_pow]
  exact ⟨_, _, _, hw, toNat_or (i := 4) 14 (by omega) (by omega), toNat_trail _, toNat_trail c⟩

theorem writeUnicodeCharacter_four (hlo : 0xffff < c) (hhi : c ≤ 0x10FFFF) :
    ∃ b t1 t2 t3 : UInt8, writeUnicodeCharacter c = [b, t1, t2, t3] ∧
      b.toNat = 0xf0 + c / 2 ^ 18 ∧ t1.toNat = 0x80 + c / 2 ^ 12 % 64 ∧
      t2.toNat = 0x80 + c / 2 ^ 6 % 64 ∧ t3.toNat = 0x80 + c % 64 := by
  have hw : writeUnicodeCharacter c =
      [(c / 2 ^ 18 ||| 0xf0).toUInt8, (c / 2 ^ 12 &&& 0x3f ||| 0x80).toUInt8,
        (c / 2 ^ 6 &&& 0x3f ||| 0x80).toUInt8, (c &&& 0x3f ||| 0x80).toUInt8] := by
    rw [writeUnicodeCharacter, if_neg (by omega), cbu8AppendUnsafe, if_neg (by omega),
      if_neg (by omega), if_neg (by omega), Nat.shiftRight_eq_div_pow,
      Nat.shiftRight_eq_div_pow, Nat.shiftRight_eq_div_pow]
  exact ⟨_, _, _, _, hw, toNat_or (i := 3) 30 (by omega) (by omega), toNat_trail _,
    toNat_trail _, toNat_trail c⟩

theorem toNat_sub_c0 {c : UInt8} (hlo : 0xc2 ≤ c.toNat) (hhi : c.toNat < 0xe0) :
    (c - 0xc0).toNat = c.toNat % 32 := by
  change (2 ^ 8 - 192 + c.toNat) % 2 ^ 8 = c.toNat % 32
  omega

section Lengths

variable {c : UInt8}

theorem nextCharSafeBody_two (hlo : 0xc2 ≤ c.toNat) (hhi : c.toNat < 0xe0)
    (h1 : isTrail t1 = true) (s : List UInt8) :
    nextCharSafeBody c (t1 :: s) = (some (c.toNat % 32 * 2 ^ 6 + (t1 - 0x80).toNat), 2) := by
  simp only [nextCharSafeBody, lt_iff_toNat_lt, le_iff_toNat_le, reduceToNat]
  rw [if_neg (by omega), if_neg (by omega), if_neg (by omega), if_pos hlo, if_pos h1,
    toNat_sub_c0 hlo hhi]

theorem nextCharSafeBody_three (hlo : 0xe0 ≤ c.toNat) (hhi : c.toNat < 0xf0)
    (h1 : isValidLead3AndT1 c t1 = true) (h2 : isTrail t2 = true) (s : List UInt8) :
    nextCharSafeBody c (t1 :: t2 :: s) =
      (some (c.toNat % 16 * 2 ^ 12 + t1.toNat % 64 * 2 ^ 6 + (t2 - 0x80).toNat), 3) := by
  simp only [nextCharSafeBody, lt_iff_toNat_lt, le_iff_toNat_le, reduceToNat]
  rw [if_neg (by omega), if_neg (by omega), if_pos hlo, if_pos h1, if_pos h2]

theorem nextCharSafeBody_four (hlo : 0xf0 ≤ c.toNat) (hhi : c.toNat ≤ 0xf4)
    (h1 : isValidLead4AndT1 c t1 = true) (h2 : isTrail t2 = true) (h3 : isTrail t3 = true)
    (s : List UInt8) : nextCharSafeBody c (t1 :: t2 :: t3 :: s) =
      (some (c.toNat % 8 * 2 ^ 18 + t1.toNat % 64 * 2 ^ 12 + (t2 - 0x80).toNat * 2 ^ 6 +
        (t3 - 0x80).toNat), 4) := by
  simp only [nextCharSafeBody, lt_iff_toNat_lt, le_iff_toNat_le, reduceToNat]
  rw [if_neg (by omega), if_pos hlo, if_pos h1, if_pos h2, if_pos h3]

theorem cbu8Next_eq_nextCharSafeBody (s : List UInt8) (hc : 0x80 ≤ c.toNat) :
    cbu8Next (c :: s) = nextCharSafeBody c s := by
  have hge : ¬ c < 0x80 := fun h => absurd (lt_iff_toNat_lt.mp h) (Nat.not_lt.mpr hc)
  match s with
  | [] => exact if_neg hge
  | [t1] =>
    simp only [cbu8Next, if_neg hge]
    split
    · rename_i h
      exact (nextCharSafeBody_two h.2.1 h.1 h.2.2 _).symm
    · rfl
  | t1 :: t2 :: s =>
    simp only [cbu8Next, if_neg hge]
    split
    · rename_i h
      exact (nextCharSafeBody_three h.1 h.2.1 h.2.2.1 h.2.2.2 _).symm
    · split
      · rename_i h
        exact (nextCharSafeBody_two h.2.1 h.1 h.2.2 _).symm
      · rfl

end Lengths

theorem cbu8Next_one (h : b.toNat ≤ 0x7f) (s : List UInt8) :
    cbu8Next (b :: s) = (some b.toNat, 1) :=
  if_pos (lt_iff_toNat_lt.mpr (Nat.lt_succ_of_le h))

/-- A code point is read back from its bytes. -/
theorem cbu8Next_writeUnicodeCharacter (hc : IsValidCodepoint c) (rest : List UInt8) :
    cbu8Next (writeUnicodeCharacter c ++ rest) = (some c, (writeUnicodeCharacter c).length) := by
  unfold IsValidCodepoint at hc
  by_cases h1 : c ≤ 0x7f
  · obtain ⟨b, hw, hb⟩ := writeUnicodeCharacter_one h1
    rw [hw, singleton_append, cbu8Next_one (by omega), hb]
    rfl
  by_cases h2 : c ≤ 0x7ff
  · obtain ⟨b, t1, hw, hb, ht1⟩ := writeUnicodeCharacter_two (by omega) h2
    have hv1 : isTrail t1 = true := (isTrail_iff t1).mpr (by omega)
    have hv : b.toNat % 32 * 2 ^ 6 + (t1 - 0x80).toNat = c := by
      rw [toNat_sub_of_isTrail hv1]
      omega
    rw [hw, cons_append, cbu8Next_eq_nextCharSafeBody _ (by omega), cons_append,
      nextCharSafeBody_two (by omega) (by omega) hv1, hv]
    rfl
  by_cases h3 : c ≤ 0xffff
  · obtain ⟨b, t1, t2, hw, hb, ht1, ht2⟩ := writeUnicodeCharacter_three (by omega) h3
    have hv1 : isValidLead3AndT1 b t1 = true :=
      (isValidLead3AndT1_iff (by omega) (by omega)).mpr (by omega)
    have hv2 : isTrail t2 = true := (isTrail_iff t2).mpr (by omega)
    have hv : b.toNat % 16 * 2 ^ 12 + t1.toNat % 64 * 2 ^ 6 + (t2 - 0x80).toNat = c := by
      rw [toNat_sub_of_isTrail hv2]
      omega
    rw [hw, cons_append, cbu8Next_eq_nextCharSafeBody _ (by omega), cons_append,
      cons_append, nextCharSafeBody_three (by omega) (by omega) hv1 hv2, hv]
    rfl
  · obtain ⟨b, t1, t2, t3, hw, hb, ht1, ht2, ht3⟩ :=
      writeUnicodeCharacter_four (by omega) (by omega : c ≤ 0x10FFFF)
    have hv1 : isValidLead4AndT1 b t1 = true :=
      (isValidLead4AndT1_iff (by omega) (by omega)).mpr (by omega)
    have hv2 : isTrail t2 = true := (isTrail_iff t2).mpr (by omega)
    have hv3 : isTrail t3 = true := (isTrail_iff t3).mpr (by omega)
    have hv : b.toNat % 8 * 2 ^ 18 + t1.toNat % 64 * 2 ^ 12 +
        (t2 - 0x80).toNat * 2 ^ 6 + (t3 - 0x80).toNat = c := by
      rw [toNat_sub_of_isTrail hv2, toNat_sub_of_isTrail hv3]
      omega
    rw [hw, cons_append, cbu8Next_eq_nextCharSafeBody _ (by omega), cons_append, cons_append,
      cons_append, nextCharSafeBody_four (by omega) (by omega) hv1 hv2 hv3, hv]
    rfl

theorem readUnicodeCharacter_writeUnicodeCharacter (hc : IsValidCodepoint c) (rest : List UInt8) :
    readUnicodeCharacter (writeUnicodeCharacter c ++ rest) =
      (some c, (writeUnicodeCharacter c).length) := by
  simp [readUnicodeCharacter, cbu8Next_writeUnicodeCharacter hc, hc]

theorem writeUnicodeCharacter_of_two (hlo : 0xc2 ≤ b.toNat) (hhi : b.toNat < 0xe0)
    (h1 : isTrail t1 = true) :
    writeUnicodeCharacter (b.toNat % 32 * 2 ^ 6 + (t1 - 0x80).toNat) = [b, t1] := by
  have ht1 := (isTrail_iff t1).mp h1
  rw [toNat_sub_of_isTrail h1]
  obtain ⟨b', t1', hw, hb, h1'⟩ := writeUnicodeCharacter_two
    (c := b.toNat % 32 * 2 ^ 6 + (t1.toNat - 0x80)) (by omega) (by omega)
  rw [hw, show b' = b from UInt8.toNat_inj.mp (by omega),
    show t1' = t1 from UInt8.toNat_inj.mp (by omega)]

theorem writeUnicodeCharacter_of_three (hlo : 0xe0 ≤ b.toNat) (hhi : b.toNat < 0xf0)
    (h1 : isValidLead3AndT1 b t1 = true) (h2 : isTrail t2 = true) :
    writeUnicodeCharacter (b.toNat % 16 * 2 ^ 12 + t1.toNat % 64 * 2 ^ 6 + (t2 - 0x80).toNat) =
      [b, t1, t2] := by
  have ht1 := (isValidLead3AndT1_iff hlo hhi).mp h1
  have ht2 := (isTrail_iff t2).mp h2
  rw [toNat_sub_of_isTrail h2]
  obtain ⟨b', t1', t2', hw, hb, h1', h2'⟩ := writeUnicodeCharacter_three
    (c := b.toNat % 16 * 2 ^ 12 + t1.toNat % 64 * 2 ^ 6 + (t2.toNat - 0x80)) (by omega)
    (by omega)
  rw [hw, show b' = b from UInt8.toNat_inj.mp (by omega), show t1' = t1 from UInt8.toNat_inj.mp (by
    omega), show t2' = t2 from UInt8.toNat_inj.mp (by omega)]

theorem writeUnicodeCharacter_of_four (hlo : 0xf0 ≤ b.toNat) (hhi : b.toNat ≤ 0xf4)
    (h1 : isValidLead4AndT1 b t1 = true) (h2 : isTrail t2 = true) (h3 : isTrail t3 = true) :
    writeUnicodeCharacter (b.toNat % 8 * 2 ^ 18 + t1.toNat % 64 * 2 ^ 12 +
      (t2 - 0x80).toNat * 2 ^ 6 + (t3 - 0x80).toNat) = [b, t1, t2, t3] := by
  have ht1 := (isValidLead4AndT1_iff hlo hhi).mp h1
  have ht2 := (isTrail_iff t2).mp h2
  have ht3 := (isTrail_iff t3).mp h3
  rw [toNat_sub_of_isTrail h2, toNat_sub_of_isTrail h3]
  obtain ⟨b', t1', t2', t3', hw, hb, h1', h2', h3'⟩ := writeUnicodeCharacter_four
    (c := b.toNat % 8 * 2 ^ 18 + t1.toNat % 64 * 2 ^ 12 + (t2.toNat - 0x80) * 2 ^ 6 +
      (t3.toNat - 0x80)) (by omega) (by omega)
  rw [hw, show b' = b from UInt8.toNat_inj.mp (by omega), show t1' = t1 from UInt8.toNat_inj.mp (by
    omega), show t2' = t2 from UInt8.toNat_inj.mp (by omega), show t3' = t3 from UInt8.toNat_inj.mp
    (by omega)]

/-- The bytes of a character that is read are those that write it. -/
theorem take_of_nextCharSafeBody (h : nextCharSafeBody b s = (some c, n)) :
    (b :: s).take n = writeUnicodeCharacter c := by
  revert h
  fun_cases nextCharSafeBody b s
  all_goals rintro ⟨⟩
  case case5 t1 hlo hhi h1 t2 h2 t3 s h3 =>
    simp only [lt_iff_toNat_lt, le_iff_toNat_le, reduceToNat] at hlo hhi
    exact (writeUnicodeCharacter_of_four (by omega) (by omega) h1 h2 h3).symm
  case case10 t1 hlo hhi hge h1 t2 s h2 =>
    simp only [le_iff_toNat_le, reduceToNat] at hhi hge
    exact (writeUnicodeCharacter_of_three (by omega) (by omega) h1 h2).symm
  case case13 t1 s hlo hhi hlt hge h1 =>
    simp only [le_iff_toNat_le, reduceToNat] at hlt hge
    rw [toNat_sub_c0 (by omega) (by omega)]
    exact (writeUnicodeCharacter_of_two (by omega) (by omega) h1).symm

theorem take_of_readUnicodeCharacter (h : readUnicodeCharacter s = (some c, n)) :
    s.take n = writeUnicodeCharacter c := by
  obtain ⟨hc, hn⟩ := Prod.mk.inj h
  obtain ⟨hne, -⟩ := Option.filter_eq_some_iff.mp hc
  cases s with
  | nil => simp [cbu8Next] at hne
  | cons b s =>
    by_cases hb : b.toNat ≤ 0x7f
    · rw [cbu8Next_one hb] at hne hn
      obtain ⟨b', hw, hb'⟩ := writeUnicodeCharacter_one hb
      obtain rfl : b' = b := UInt8.toNat_inj.mp hb'
      rw [← hn, ← Option.some.inj hne, hw]
      rfl
    · rw [cbu8Next_eq_nextCharSafeBody _ (by omega)] at hne hn
      exact take_of_nextCharSafeBody (Prod.ext hne hn)

theorem toNat_of_mem_writeUnicodeCharacter (hc : IsValidCodepoint c) (hlo : 0x7f < c)
    (hb : b ∈ writeUnicodeCharacter c) : 0x80 ≤ b.toNat := by
  unfold IsValidCodepoint at hc
  by_cases h2 : c ≤ 0x7ff
  · obtain ⟨b0, t1, hw, h0, h1⟩ := writeUnicodeCharacter_two hlo h2
    simp only [hw, mem_cons, not_mem_nil, or_false] at hb
    rcases hb with rfl | rfl <;> omega
  by_cases h3 : c ≤ 0xffff
  · obtain ⟨b0, t1, t2, hw, h0, h1, h2⟩ := writeUnicodeCharacter_three (by omega) h3
    simp only [hw, mem_cons, not_mem_nil, or_false] at hb
    rcases hb with rfl | rfl | rfl <;> omega
  · obtain ⟨b0, t1, t2, t3, hw, h0, h1, h2, h3⟩ :=
      writeUnicodeCharacter_four (by omega) (by omega : c ≤ 0x10FFFF)
    simp only [hw, mem_cons, not_mem_nil, or_false] at hb
    rcases hb with rfl | rfl | rfl | rfl <;> omega

theorem readUnicodeCharacter_pos (b : UInt8) (s : List UInt8) :
    0 < (readUnicodeCharacter (b :: s)).2 := by
  by_cases hb : b.toNat ≤ 0x7f
  · rw [readUnicodeCharacter, cbu8Next_one hb]
    exact Nat.one_pos
  · rw [readUnicodeCharacter, cbu8Next_eq_nextCharSafeBody _ (by omega)]
    fun_cases nextCharSafeBody b s <;> exact Nat.succ_pos _

theorem writeUnicodeCharacter_ne_nil (hc : IsValidCodepoint c) : writeUnicodeCharacter c ≠ [] := by
  intro h
  simpa [h, cbu8Next] using cbu8Next_writeUnicodeCharacter hc []

def isSurrogate (c : ℕ) : Bool := c &&& 0xfffff800 = 0xd800

def isSurrogateLead (c : ℕ) : Bool := c &&& 0x400 = 0

def isTrailUnit (c : ℕ) : Bool := c &&& 0xfffffc00 = 0xdc00

def getSupplementary (lead trail : ℕ) : ℕ :=
  (lead <<< 10) + trail - ((0xd800 <<< 10) + 0xdc00 - 0x10000)

theorem and_highBits (k m : ℕ) (hc : c < 2 ^ (k + m)) :
    c &&& (2 ^ m - 1) <<< k = c / 2 ^ k * 2 ^ k := by
  have hdiv : c / 2 ^ k < 2 ^ m := Nat.div_lt_of_lt_mul (by rwa [← pow_add])
  rw [← Nat.shiftLeft_eq, ← Nat.mod_eq_of_lt hdiv, ← Nat.and_two_pow_sub_one_eq_mod,
    ← Nat.shiftRight_eq_div_pow]
  apply Nat.eq_of_testBit_eq
  intro i
  simp only [Nat.testBit_and, Nat.testBit_shiftLeft]
  by_cases hi : k ≤ i
  · simp [hi]
  · simp [hi]

theorem isSurrogate_iff (hc : c < 2 ^ 32) : isSurrogate c = true ↔ 0xd800 ≤ c ∧ c < 0xe000 := by
  rw [isSurrogate, decide_eq_true_iff]
  have hm := and_highBits 11 21 hc
  change c &&& 4294965248 = _ at hm
  omega

theorem isTrailUnit_iff (hc : c < 2 ^ 32) : isTrailUnit c = true ↔ 0xdc00 ≤ c ∧ c < 0xe000 := by
  rw [isTrailUnit, decide_eq_true_iff]
  have hm := and_highBits 10 22 hc
  change c &&& 4294966272 = _ at hm
  omega

theorem isSurrogateLead_iff (hlo : 0xd800 ≤ c) (hhi : c < 0xe000) :
    isSurrogateLead c = true ↔ c < 0xdc00 := by
  rw [isSurrogateLead, decide_eq_true_iff, show 0x400 = 2 ^ 10 from rfl, Nat.and_two_pow,
    Nat.testBit_eq_decide_div_mod_eq]
  by_cases h : c / 2 ^ 10 % 2 = 1
  · rw [decide_eq_true h, Bool.toNat_true]
    omega
  · rw [decide_eq_false h, Bool.toNat_false]
    omega

end ChromiumBase.Utf
