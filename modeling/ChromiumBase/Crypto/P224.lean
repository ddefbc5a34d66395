import Mathlib.Algebra.BigOperators.Fin
import Mathlib.Data.Nat.ModEq
import Mathlib.Tactic.IntervalCases
import Mathlib.Tactic.Ring

/-!
# Contracting elements of the field of P-224

`Contract` (`crypto/p224.cc`) carries the limbs of a field element below 2^28 and subtracts `p` if
what is left seems to be at least `p`.

The masks of this test come from the wrong bits: the limb with index 3 is found greater than that
of `p` whenever it is even, and the low limbs are always found to be zero.
-/

open Function List

namespace ChromiumBase.P224

/-- The limbs of a field element, of which the first eight are used. -/
abbrev FieldElement := ℕ → BitVec 32

def kBottom28Bits : BitVec 32 := 0xfffffff

/-- The mask `static_cast<uint32_t>(static_cast<int32_t>(x) >> 31)`. -/
def signMask (x : BitVec 32) : BitVec 32 := x.sshiftRight 31

def carryUp (out : FieldElement) (i : ℕ) : FieldElement :=
  let out := update out (i + 1) (out (i + 1) + out i >>> 28)
  update out i (out i &&& kBottom28Bits)

def carryDown (out : FieldElement) (i : ℕ) : FieldElement :=
  let mask := signMask (out i)
  let out := update out i (out i + (0x10000000 &&& mask))
  update out (i + 1) (out (i + 1) - (1 &&& mask))

/-- Eliminate top while maintaining the same value mod p, and carry down. -/
def eliminateTop (out : FieldElement) : FieldElement :=
  let top := out 7 >>> 28
  let out := update out 7 (out 7 &&& kBottom28Bits)
  let out := update out 0 (out 0 - top)
  let out := update out 3 (out 3 + top <<< 12)
  (range' 0 3).foldl carryDown out

/-- `Contract` up to the subtraction of `p`. -/
def carried (out : FieldElement) : FieldElement :=
  let out := eliminateTop ((range' 0 7).foldl carryUp out)
  eliminateTop ((range' 3 4).foldl carryUp out)

def andBits (x : BitVec 32) : BitVec 32 :=
  let x := x &&& x >>> 16
  let x := x &&& x >>> 8
  let x := x &&& x >>> 4
  let x := x &&& x >>> 2
  x &&& x >>> 1

def orBits (x : BitVec 32) : BitVec 32 :=
  let x := x ||| x >>> 16
  let x := x ||| x >>> 8
  let x := x ||| x >>> 4
  let x := x ||| x >>> 2
  x ||| x >>> 1

def subtractMask (out : FieldElement) : BitVec 32 :=
  let top4AllOnes := 0xffffffff &&& out 4 &&& out 5 &&& out 6 &&& out 7
  let top4AllOnes := signMask (andBits (top4AllOnes ||| 0xf0000000) <<< 31)
  let bottom3NonZero := signMask (orBits (out 0 ||| out 1 ||| out 2))
  let n := out 3 - 0xffff000
  let out3Equal := ~~~signMask (orBits n <<< 31)
  let out3Gt := ~~~signMask (n <<< 31)
  top4AllOnes &&& ((out3Equal &&& bottom3NonZero) ||| out3Gt)

def contract (out : FieldElement) : FieldElement :=
  let out := carried out
  let mask := subtractMask out
  let out := update out 0 (out 0 - (1 &&& mask))
  let out := update out 3 (out 3 - (0xffff000 &&& mask))
  [4, 5, 6, 7].foldl (fun out i => update out i (out i - (0xfffffff &&& mask))) out

def p : ℕ := 0xffffffffffffffffffffffffffffffff000000000000000000000001

def value (a : FieldElement) : ℕ := ∑ i ∈ Finset.range 8, (a i).toNat * 2 ^ (28 * i)

/-- What is above 2²²⁴ is folded, which is 2⁹⁶ - 1 modulo `p`. -/
def foldTop (v : ℕ) : ℕ := v % 2 ^ 224 + v / 2 ^ 224 * (2 ^ 96 - 1)

/-- The value with the limbs as signed numbers, which they are between the carries. -/
def signedValue (a : FieldElement) : ℤ := ∑ i ∈ Finset.range 8, (a i).toInt * 2 ^ (28 * i)

abbrev Limb (x : BitVec 32) : Prop := 0 ≤ x.toInt ∧ x.toInt < 2 ^ 28

variable {a r w : FieldElement} {x y : BitVec 32} {i s n : ℕ}

theorem toInt_add (h : -2147483648 ≤ x.toInt + y.toInt) (h' : x.toInt + y.toInt < 2147483648) :
    (x + y).toInt = x.toInt + y.toInt := by
  rw [BitVec.toInt_add]
  exact Int.bmod_eq_of_le (by omega) (by omega)

theorem toInt_sub (h : -2147483648 ≤ x.toInt - y.toInt) (h' : x.toInt - y.toInt < 2147483648) :
    (x - y).toInt = x.toInt - y.toInt := by
  rw [BitVec.toInt_sub]
  exact Int.bmod_eq_of_le (by omega) (by omega)

theorem toInt_eq (h : 0 ≤ x.toInt) : x.toInt = x.toNat := by
  rw [BitVec.toInt_eq_toNat_cond] at h ⊢
  split_ifs at h ⊢ <;> omega

theorem toInt_shiftRight (h : 0 ≤ x.toInt) : (x >>> 28).toInt = x.toInt / 2 ^ 28 := by
  rw [BitVec.toInt_ushiftRight, if_neg (by decide), Nat.shiftRight_eq_div_pow, toInt_eq h]
  rfl

theorem toInt_and (h : 0 ≤ x.toInt) : (x &&& kBottom28Bits).toInt = x.toInt % 2 ^ 28 := by
  have hn : (x &&& kBottom28Bits).toNat = x.toNat % 2 ^ 28 := by
    exact Nat.and_two_pow_sub_one_eq_mod _ 28
  rw [BitVec.toInt_eq_toNat_cond, hn, if_pos (by omega), toInt_eq h]
  rfl

theorem signMask_eq (x : BitVec 32) :
    signMask x = if x.toInt < 0 then BitVec.allOnes 32 else 0 := by
  have hlt := x.toInt_lt
  have hle := x.le_toInt
  apply BitVec.eq_of_toInt_eq
  rw [signMask, BitVec.toInt_sshiftRight, Int.shiftRight_eq_div_pow]
  split <;> simp <;> omega

/-- A carry of what a signed limb has above its low 28 bits. -/
def Carry (a : FieldElement) (i : ℕ) (r : FieldElement) : Prop :=
  ∃ x y, r = update (update a (i + 1) y) i x ∧ x.toInt = (a i).toInt % 2 ^ 28 ∧
    y.toInt = (a (i + 1)).toInt + (a i).toInt / 2 ^ 28

theorem Carry.signedValue_eq (h : Carry a i r) (hi : i < 7) : signedValue r = signedValue a := by
  obtain ⟨x, y, rfl, hx, hy⟩ := h
  interval_cases i <;> simp [signedValue, Finset.sum_range_succ, hy] <;> omega

theorem carry_carryUp (h : 0 ≤ (a i).toInt) (hn : -8 ≤ (a (i + 1)).toInt)
    (hlt : (a (i + 1)).toInt < 2 ^ 30) : Carry a i (carryUp a i) := by
  have hle := (a i).toInt_lt
  have hs := toInt_shiftRight h
  refine ⟨_, _, by rw [carryUp, update_of_ne (by omega)], toInt_and h, ?_⟩
  rw [toInt_add, hs] <;> rw [hs] <;> omega

/-- The arithmetic shift carries what is above the low 28 bits, also for a negative limb. -/
theorem carry_carryDown (h : -8 ≤ (a i).toInt) (h' : (a i).toInt < 2 ^ 28)
    (hn : -8 ≤ (a (i + 1)).toInt) : Carry a i (carryDown a i) := by
  have hlt := (a (i + 1)).toInt_lt
  refine ⟨_, _, by rw [carryDown, update_comm (by omega), update_of_ne (by omega)], ?_, ?_⟩
  · rw [signMask_eq]
    split
    · rw [toInt_add] <;> simp <;> omega
    · simp
      omega
  · rw [signMask_eq]
    split
    · rw [toInt_sub] <;> simp <;> omega
    · simp
      omega

/-- A run of carries, if `P` limbs leave `C` carries. -/
theorem carries_spec {f : FieldElement → ℕ → FieldElement} {P C : ℤ → Prop} (h0 : C 0)
    (hC : ∀ x, P x → C (x / 2 ^ 28))
    (hf : ∀ a i, P (a i).toInt → -8 ≤ (a (i + 1)).toInt → (a (i + 1)).toInt < 2 ^ 30 →
      Carry a i (f a i)) (ha : ∀ i < 8, -8 ≤ (a i).toInt ∧ (a i).toInt < 2 ^ 30) {e : ℕ}
    (he : s + n = e) (hle : e ≤ 7) (hok : ∀ i, s ≤ i → i < e → ∀ c, C c → P ((a i).toInt + c))
    (hr : (range' s n).foldl f a = r) : signedValue r = signedValue a ∧
      (∀ i, s ≤ i → i < e → Limb (r i)) ∧
      (∃ c, C c ∧ (r e).toInt = (a e).toInt + c) ∧ ∀ i, i < s ∨ e < i → r i = a i := by
  induction n generalizing e r with
  | zero =>
    subst he hr
    exact ⟨rfl, fun i hi hi' => by omega, ⟨0, h0, (add_zero _).symm⟩, fun _ _ => rfl⟩
  | succ n ih =>
    rw [range'_concat, foldl_append, Nat.one_mul] at hr
    subst he
    obtain ⟨hv, hlow, ⟨c, hc, hself⟩, hother⟩ :=
      ih rfl (by omega) (fun i hi hi' => hok i hi (by omega)) rfl
    generalize (range' s n).foldl f a = b at *
    have hcarry := hok (s + n) (by omega) (by omega) c hc
    rw [← hself] at hcarry
    have hnext := ha (s + n + 1) (by omega)
    rw [← hother (s + n + 1) (by omega)] at hnext
    have hb := hf b (s + n) hcarry hnext.1 hnext.2
    have hv' := hb.signedValue_eq (by omega)
    obtain ⟨x, y, hu, hx, hy⟩ := hb
    rw [foldl_cons, foldl_nil, hu] at hr
    rw [hu, hr] at hv'
    subst hr
    refine ⟨hv'.trans hv, fun i hi hi' => ?_, ⟨_, hC _ hcarry, ?_⟩, fun i hi => ?_⟩
    · by_cases heq : i = s + n
      · subst heq
        rw [update_self]
        omega
      · rw [update_of_ne heq, update_of_ne (by omega)]
        exact hlow i hi (by omega)
    · rw [update_of_ne (by omega), ← Nat.add_assoc, update_self, hy, hother _ (by omega)]
    · rw [update_of_ne (by omega), update_of_ne (by omega), hother i (by omega)]

theorem carryUps_spec (ha : ∀ i < 8, 0 ≤ (a i).toInt ∧ (a i).toInt < 2 ^ 30 - 4) (he : s + n = 7)
    (hr : (range' s n).foldl carryUp a = r) : signedValue r = signedValue a ∧
      (∀ i, s ≤ i → i < 7 → Limb (r i)) ∧
      (∃ c, (0 ≤ c ∧ c ≤ 3) ∧ (r 7).toInt = (a 7).toInt + c) ∧ ∀ i, i < s ∨ 7 < i → r i = a i := by
  refine carries_spec (P := fun x => 0 ≤ x ∧ x < 2 ^ 30) (by omega) (by omega)
    (fun a i h => carry_carryUp h.1) (fun i hi => ?_) he le_rfl (fun i _ hi c hc => ?_) hr
  · have := ha i hi
    omega
  · have := ha i (by omega)
    omega

/-- The top is replaced by what it is modulo `p`, and the limbs stay in range but for one. -/
theorem eliminateTop_spec (h : ∀ i < 7, Limb (a i)) (h7 : 0 ≤ (a 7).toInt)
    (hr : eliminateTop a = r) :
    signedValue r = signedValue a - (a 7).toInt / 2 ^ 28 * p ∧ (∀ i < 8, i ≠ 3 → Limb (r i)) ∧
      0 ≤ (r 3).toInt ∧ (r 3).toInt ≤ (a 3).toInt + (a 7).toInt / 2 ^ 28 * 4096 := by
  have hlt := (a 7).toInt_lt
  have h0 := h 0 (by omega)
  have h3 := h 3 (by omega)
  have hs := toInt_shiftRight h7
  have ht : (a 7 >>> 28 <<< 12).toInt = (a 7).toInt / 2 ^ 28 * 4096 := by
    have hn := toInt_eq h7
    rw [BitVec.toInt_eq_toNat_cond, BitVec.toNat_shiftLeft, BitVec.toNat_ushiftRight,
      Nat.shiftRight_eq_div_pow, Nat.shiftLeft_eq, Nat.mod_eq_of_lt (by omega), if_pos (by omega)]
    omega
  have hsub : (a 0 - a 7 >>> 28).toInt = (a 0).toInt - (a 7).toInt / 2 ^ 28 := by
    rw [toInt_sub, hs] <;> rw [hs] <;> omega
  have hadd : (a 3 + a 7 >>> 28 <<< 12).toInt = (a 3).toInt + (a 7).toInt / 2 ^ 28 * 4096 := by
    rw [toInt_add, ht] <;> rw [ht] <;> omega
  simp only [eliminateTop] at hr
  generalize he : update (update (update a 7 (a 7 &&& kBottom28Bits)) 0 _) 3 _ = e at hr
  have he0 : (e 0).toInt = (a 0).toInt - (a 7).toInt / 2 ^ 28 := by simp [← he, hsub]
  have he3 : (e 3).toInt = (a 3).toInt + (a 7).toInt / 2 ^ 28 * 4096 := by simp [← he, hadd]
  have he7 : (e 7).toInt = (a 7).toInt % 2 ^ 28 := by simp [← he, toInt_and h7]
  have heo (i) (hi : i < 7) (h0 : i ≠ 0) (h3 : i ≠ 3) : Limb (e i) := by
    rw [show e i = a i by simp [← he, h0, h3, hi.ne]]
    exact h i hi
  have hv : signedValue e = signedValue a - (a 7).toInt / 2 ^ 28 * p := by
    simp [signedValue, Finset.sum_range_succ, ← he, hsub, hadd, toInt_and h7, p]
    omega
  have hall (i) (hi : i < 8) : -8 ≤ (e i).toInt ∧ (e i).toInt < 2 ^ 30 := by
    by_cases hi' : i = 0 ∨ i = 3 ∨ i = 7
    · rcases hi' with rfl | rfl | rfl <;> omega
    · have := heo i (by omega) (by omega) (by omega)
      omega
  -- there is a borrow from the limb with index 3 only if something was added to it
  obtain ⟨hv', hlow, ⟨c, hc, hr3⟩, ho⟩ := carries_spec (e := 3)
    (P := fun x => -8 ≤ x ∧ x < 2 ^ 28 ∧ (0 ≤ (e 0).toInt → 0 ≤ x))
    (C := fun c => -1 ≤ c ∧ c ≤ 0 ∧ (0 ≤ (e 0).toInt → c = 0)) (by omega) (by omega)
    (fun a i h hn _ => carry_carryDown h.1 h.2.1 hn) hall rfl (by omega) (fun i _ hi c hc => by
      by_cases hi0 : i = 0
      · subst hi0
        omega
      · have := heo i (by omega) hi0 (by omega)
        omega) hr
  refine ⟨hv'.trans hv, fun i hi hi3 => ?_, by omega, by omega⟩
  by_cases hi' : i < 3
  · exact hlow i (Nat.zero_le i) hi'
  · rw [ho i (by omega)]
    by_cases hi7 : i = 7
    · subst hi7
      omega
    · exact heo i (by omega) (by omega) hi3

theorem value_eq (h : ∀ i < 8, 0 ≤ (a i).toInt) : (value a : ℤ) = signedValue a := by
  rw [value, signedValue, Nat.cast_sum]
  refine Finset.sum_congr rfl fun i hi => ?_
  rw [toInt_eq (h i (Finset.mem_range.mp hi))]
  rfl

theorem foldTop_eq (v : ℕ) : (foldTop v : ℤ) = v - v / 2 ^ 224 * p := by
  rw [foldTop, p]
  omega

theorem top_eq (h : ∀ i < 7, Limb (a i)) : (a 7).toInt / 2 ^ 28 = signedValue a / 2 ^ 224 := by
  have h0 := h 0 (by omega)
  have h1 := h 1 (by omega)
  have h2 := h 2 (by omega)
  have h3 := h 3 (by omega)
  have h4 := h 4 (by omega)
  have h5 := h 5 (by omega)
  have h6 := h 6 (by omega)
  simp only [signedValue, Finset.sum_range_succ, Finset.sum_range_zero]
  omega

/-- The limbs after the carries: the top of the value has been folded twice. -/
theorem carried_spec (h : ∀ i < 8, 0 ≤ (a i).toInt ∧ (a i).toInt < 2 ^ 29) {w : FieldElement}
    (hw : carried a = w) :
    (∀ i < 8, Limb (w i)) ∧ value w = foldTop (foldTop (value a)) := by
  rw [carried] at hw
  generalize hb : (range' 0 7).foldl carryUp a = b at hw
  generalize hc : eliminateTop b = c at hw
  generalize hd : (range' 3 4).foldl carryUp c = d at hw
  obtain ⟨hvb, hlb, ⟨_, _, hb7⟩, -⟩ := carryUps_spec
    (fun i hi => ⟨(h i hi).1, by have := (h i hi).2; omega⟩) rfl hb
  have h7 := h 7 (by omega)
  obtain ⟨hvc, hlc, hc3, hc3'⟩ := eliminateTop_spec (fun i hi => hlb i (by omega) (by omega))
    (by omega) hc
  have hb3 := hlb 3 (by omega) (by omega)
  have hcl (i) (hi : i < 8) : 0 ≤ (c i).toInt ∧ (c i).toInt < 2 ^ 30 - 4 := by
    by_cases hi3 : i = 3
    · subst hi3
      omega
    · have := hlc i hi hi3
      omega
  obtain ⟨hvd, hld, ⟨_, _, hd7⟩, hod⟩ := carryUps_spec hcl rfl hd
  have hdl (i) (hi : i < 7) : Limb (d i) := by
    by_cases hi3 : i < 3
    · rw [hod i (by omega)]
      exact hlc i (by omega) (by omega)
    · exact hld i (by omega) (by omega)
  have hc7 := hcl 7 (by omega)
  obtain ⟨hvw, hlw, hw3, hw3'⟩ := eliminateTop_spec hdl (by omega) hw
  have hlim (i) (hi : i < 8) : Limb (w i) := by
    by_cases hi3 : i ≠ 3
    · exact hlw i hi hi3
    obtain rfl := not_not.1 hi3
    -- a carry out of the top limb comes from the limb with index 3, which is small then
    have hd3 := hdl 3 (by omega)
    simp [signedValue, Finset.sum_range_succ, hod] at hvd
    have := hlc 4 (by omega) (by omega)
    have := hlc 5 (by omega) (by omega)
    have := hlc 6 (by omega) (by omega)
    have := hlc 7 (by omega) (by omega)
    have := hdl 4 (by omega)
    have := hdl 5 (by omega)
    have := hdl 6 (by omega)
    omega
  refine ⟨hlim, ?_⟩
  have hva : signedValue b = value a := hvb.trans (value_eq fun i hi => (h i hi).1).symm
  rw [top_eq fun i hi => hlb i (by omega) (by omega), hva, ← foldTop_eq] at hvc
  rw [top_eq hdl, hvd, hvc, ← foldTop_eq, ← value_eq fun i hi => (hlim i hi).1] at hvw
  exact Int.ofNat_inj.1 hvw

abbrev Top4AllOnes (a : FieldElement) : Prop :=
  a 4 = kBottom28Bits ∧ a 5 = kBottom28Bits ∧ a 6 = kBottom28Bits ∧ a 7 = kBottom28Bits

theorem signMask_shiftLeft (x : BitVec 32) :
    signMask (x <<< 31) = if x.toNat % 2 = 1 then BitVec.allOnes 32 else 0 := by
  rw [signMask_eq, BitVec.toInt_eq_toNat_cond, BitVec.toNat_shiftLeft, Nat.shiftLeft_eq]
  refine if_congr ?_ rfl rfl
  split_ifs <;> omega

theorem forall_getLsbD_and {k m : ℕ} (x : BitVec 32) (hk : k ≤ m := by omega) :
    (∀ i < m, (x &&& x >>> k).getLsbD i) ↔ ∀ i < m + k, x.getLsbD i := by
  simp only [BitVec.getLsbD_and, BitVec.getLsbD_ushiftRight, Bool.and_eq_true]
  refine ⟨fun h i hi => ?_, fun h i hi => ⟨h i (by omega), h (k + i) (by omega)⟩⟩
  by_cases him : i < m
  · exact (h i him).1
  · have := (h (i - k) (by omega)).2
    rwa [Nat.add_sub_cancel' (by omega)] at this

theorem andBits_odd_iff (x : BitVec 32) : (andBits x).toNat % 2 = 1 ↔ x = BitVec.allOnes 32 := by
  have hbit : (andBits x).toNat % 2 = 1 ↔ ∀ i < 1, (andBits x).getLsbD i := by
    simp [BitVec.getLsbD]
  rw [hbit, andBits, forall_getLsbD_and _, forall_getLsbD_and _,
    forall_getLsbD_and _, forall_getLsbD_and _, forall_getLsbD_and _]
  refine ⟨fun h => BitVec.eq_of_getLsbD_eq fun i hi => ?_, ?_⟩
  · rw [h i hi, BitVec.getLsbD_allOnes, decide_eq_true hi]
  · rintro rfl i hi
    rw [BitVec.getLsbD_allOnes, decide_eq_true hi]

theorem orBits_lt (h : x.toNat < 2 ^ 28) : (orBits x).toNat < 2 ^ 28 := by
  have hor {x : BitVec 32} (k : ℕ) (h : x.toNat < 2 ^ 28) : (x ||| x >>> k).toNat < 2 ^ 28 := by
    rw [BitVec.toNat_or, BitVec.toNat_ushiftRight, Nat.shiftRight_eq_div_pow]
    exact Nat.or_lt_two_pow h ((Nat.div_le_self _ _).trans_lt h)
  exact hor 1 (hor 2 (hor 4 (hor 8 (hor 16 h))))

theorem and_eq_bottom_iff (hx : x.toNat < 2 ^ 28) (hy : y.toNat < 2 ^ 28) :
    x &&& y = kBottom28Bits ↔ x = kBottom28Bits ∧ y = kBottom28Bits := by
  refine ⟨fun h => ?_, ?_⟩
  · have hn := congrArg BitVec.toNat h
    have hl := Nat.and_le_left (n := x.toNat) (m := y.toNat)
    have hr := Nat.and_le_right (n := x.toNat) (m := y.toNat)
    rw [BitVec.toNat_and] at hn
    have : kBottom28Bits.toNat = 2 ^ 28 - 1 := rfl
    exact ⟨BitVec.eq_of_toNat_eq (by omega), BitVec.eq_of_toNat_eq (by omega)⟩
  · rintro ⟨rfl, rfl⟩
    rfl

section

variable (h : ∀ i < 8, (w i).toNat < 2 ^ 28)

include h

theorem top4_iff : 0xffffffff &&& w 4 &&& w 5 &&& w 6 &&& w 7 ||| 0xf0000000 = BitVec.allOnes 32 ↔
    Top4AllOnes w := by
  have hand {x y : BitVec 32} (hx : x.toNat < 2 ^ 28) : (x &&& y).toNat < 2 ^ 28 := by
    exact Nat.and_le_left.trans_lt hx
  have h4 := h 4 (by omega)
  have h5 := hand (y := w 5) h4
  have h6 := hand (y := w 6) h5
  have h7 := hand (y := w 7) h6
  have hor : (w 4 &&& w 5 &&& w 6 &&& w 7 ||| 0xf0000000) = BitVec.allOnes 32 ↔
      w 4 &&& w 5 &&& w 6 &&& w 7 = kBottom28Bits := by
    rw [← BitVec.toNat_inj, ← BitVec.toNat_inj, BitVec.toNat_or, Nat.or_comm]
    generalize (w 4 &&& w 5 &&& w 6 &&& w 7).toNat = y at h7 ⊢
    have := Nat.two_pow_add_eq_or_of_lt h7 15
    change 15 * 2 ^ 28 ||| y = 2 ^ 32 - 1 ↔ y = 2 ^ 28 - 1
    rw [Nat.mul_comm, ← this]
    omega
  rw [show (0xffffffff : BitVec 32) = BitVec.allOnes 32 from rfl, BitVec.allOnes_and, hor,
    and_eq_bottom_iff h6 (h 7 (by omega)), and_eq_bottom_iff h5 (h 6 (by omega)),
    and_eq_bottom_iff h4 (h 5 (by omega)), and_assoc, and_assoc]

/-- The limb with index 3 is only tested for being even. -/
theorem subtractMask_eq : subtractMask w =
    if Top4AllOnes w ∧ (w 3).toNat % 2 = 0 then BitVec.allOnes 32 else 0 := by
  have hb : signMask (orBits (w 0 ||| w 1 ||| w 2)) = 0 := by
    have hlt : (w 0 ||| w 1 ||| w 2).toNat < 2 ^ 28 := by
      exact Nat.or_lt_two_pow (Nat.or_lt_two_pow (h 0 (by omega)) (h 1 (by omega))) (h 2 (by omega))
    have := orBits_lt hlt
    rw [signMask_eq, BitVec.toInt_eq_toNat_cond, if_neg]
    split_ifs <;> omega
  have hn : (w 3 - 0xffff000).toNat % 2 = (w 3).toNat % 2 := by
    change (2 ^ 32 - 0xffff000 + (w 3).toNat) % 2 ^ 32 % 2 = _
    omega
  simp only [subtractMask, hb, signMask_shiftLeft, andBits_odd_iff, top4_iff h, hn]
  rcases Nat.mod_two_eq_zero_or_one (w 3).toNat with h3 | h3 <;> simp [h3]
  split_ifs <;> rfl

end

section

theorem forall_lt_eight {P : ℕ → Prop} :
    (∀ i < 8, P i) ↔ P 0 ∧ P 1 ∧ P 2 ∧ P 3 ∧ P 4 ∧ P 5 ∧ P 6 ∧ P 7 := by
  simp only [Nat.forall_lt_succ_left', Nat.not_lt_zero, false_implies, implies_true, and_true]

variable (hl : ∀ i < 8, (w i).toNat < 2 ^ 28)

include hl

theorem value_lt_iff : value w < p ↔
    (Top4AllOnes w → (w 3).toNat < 0xffff000 ∨ (w 3).toNat = 0xffff000 ∧
      (w 0).toNat = 0 ∧ (w 1).toNat = 0 ∧ (w 2).toNat = 0) := by
  have hb : kBottom28Bits.toNat = 268435455 := rfl
  rw [forall_lt_eight] at hl
  simp only [value, Finset.sum_range_succ, Finset.sum_range_zero, Top4AllOnes,
    ← BitVec.toNat_inj, p]
  omega

/-- The subtraction is that of `p` if no limb becomes negative. -/
theorem value_subtract (htop : Top4AllOnes w) (h0 : r 0 = w 0 - 1) (h1 : r 1 = w 1) (h2 : r 2 = w 2)
    (h3 : r 3 = w 3 - 0xffff000) (h4 : r 4 = 0 ∧ r 5 = 0 ∧ r 6 = 0 ∧ r 7 = 0) :
    ((∀ i < 8, (r i).toNat < 2 ^ 28) ↔ 0xffff000 ≤ (w 3).toNat ∧ w 0 ≠ 0) ∧
      ((∀ i < 8, (r i).toNat < 2 ^ 28) → value r + p = value w ∧ value r < p) := by
  have hr0 : (r 0).toNat = (2 ^ 32 - 1 + (w 0).toNat) % 2 ^ 32 := by
    rw [h0, BitVec.toNat_sub]
    rfl
  have hr3 : (r 3).toNat = (2 ^ 32 - 0xffff000 + (w 3).toNat) % 2 ^ 32 := by
    rw [h3, BitVec.toNat_sub]
    rfl
  have hb : kBottom28Bits.toNat = 268435455 := rfl
  have hz : (0 : BitVec 32).toNat = 0 := rfl
  simp only [Top4AllOnes, forall_lt_eight, ← BitVec.toNat_inj] at htop hl h4
  simp only [value, Finset.sum_range_succ, Finset.sum_range_zero, forall_lt_eight, h1, h2, p, ne_eq,
    ← BitVec.toNat_inj]
  omega

end

theorem signed_lt (h : ∀ i < 8, (a i).toNat < 2 ^ 29) (i : ℕ) (hi : i < 8) :
    0 ≤ (a i).toInt ∧ (a i).toInt < 2 ^ 29 := by
  have := h i hi
  rw [BitVec.toInt_eq_toNat_cond]
  split_ifs <;> omega

theorem Limb.toNat_lt (h : ∀ i < 8, Limb (a i)) (i : ℕ) (hi : i < 8) : (a i).toNat < 2 ^ 28 := by
  have := h i hi
  have := toInt_eq this.1
  omega

theorem foldTop_modEq (v : ℕ) : foldTop v ≡ v [MOD p] := by
  refine Nat.modEq_iff_dvd.mpr ⟨v / 2 ^ 224, ?_⟩
  rw [foldTop_eq]
  ring

theorem contract_iff_carried (h : ∀ i < 8, (a i).toNat < 2 ^ 29) :
    ((∀ i < 8, (contract a i).toNat < 2 ^ 28) ∧ value (contract a) ≡ value a [MOD p] ∧
      value (contract a) < p) ↔
    (Top4AllOnes (carried a) →
      if (carried a 3).toNat % 2 = 0 then 0xffff000 ≤ (carried a 3).toNat ∧ carried a 0 ≠ 0
      else (carried a 3).toNat < 0xffff000) := by
  have hs := signed_lt h
  generalize hw : carried a = w
  obtain ⟨hl, hv⟩ := carried_spec hs hw
  have hlim := Limb.toNat_lt hl
  have hmod : value w ≡ value a [MOD p] := by
    rw [hv]
    exact (foldTop_modEq _).trans (foldTop_modEq _)
  by_cases hm : Top4AllOnes w ∧ (w 3).toNat % 2 = 0
  · have hmask := (subtractMask_eq hlim).trans (if_pos hm)
    obtain ⟨hiff, hval⟩ := value_subtract hlim hm.1 (r := contract a)
      (by simp [contract, hw, hmask]) (by simp [contract, hw]) (by simp [contract, hw])
      (by simp [contract, hw, hmask]) (by simp [contract, hw, hmask, hm.1, kBottom28Bits])
    rw [if_pos hm.2, imp_iff_right hm.1, ← hiff]
    refine and_iff_left_of_imp fun hlt => ?_
    obtain ⟨hv, hp⟩ := hval hlt
    refine ⟨?_, hp⟩
    rw [← hv] at hmod
    exact (Nat.modEq_iff_dvd' (Nat.le_add_right ..)).mpr (by simp) |>.trans hmod
  · have hc : contract a = w := by
      simp [contract, hw, (subtractMask_eq hlim).trans (if_neg hm)]
    rw [hc, value_lt_iff hlim]
    simp only [hmod, true_and]
    rw [and_iff_right hlim]
    refine imp_congr_right fun htop => ?_
    have hodd : ¬ (w 3).toNat % 2 = 0 := fun h => hm ⟨htop, h⟩
    rw [if_neg hodd]
    omega

/-- The limbs that the test looks at, as digits of the value. -/
theorem digits_eq (h : ∀ i < 8, (w i).toNat < 2 ^ 28) :
    (Top4AllOnes w ↔ value w / 2 ^ 112 = 2 ^ 112 - 1) ∧
      (w 3).toNat = value w / 2 ^ 84 % 2 ^ 28 ∧ (w 0).toNat = value w % 2 ^ 28 := by
  have hb : kBottom28Bits.toNat = 268435455 := rfl
  rw [forall_lt_eight] at h
  simp only [value, Finset.sum_range_succ, Finset.sum_range_zero, Top4AllOnes, ← BitVec.toNat_inj]
  omega

/-- `Contract` returns the least representative of a field element with limbs below 2^29 unless,
once the top of its value has been folded twice, the upper 112 bits are all ones and the digit below
them is odd and at least that of `p`, or even and less, or else even and the lowest digit is
zero. -/
theorem contract_iff (h : ∀ i < 8, (a i).toNat < 2 ^ 29) :
    ((∀ i < 8, (contract a i).toNat < 2 ^ 28) ∧ value (contract a) ≡ value a [MOD p] ∧
      value (contract a) < p) ↔
    let v := foldTop (foldTop (value a))
    v / 2 ^ 112 = 2 ^ 112 - 1 →
      if v / 2 ^ 84 % 2 = 0 then 0xffff000 ≤ v / 2 ^ 84 % 2 ^ 28 ∧ v % 2 ^ 28 ≠ 0
      else v / 2 ^ 84 % 2 ^ 28 < 0xffff000 := by
  rw [contract_iff_carried h]
  generalize hw : carried a = w
  obtain ⟨hl, hv⟩ := carried_spec (signed_lt h) hw
  obtain ⟨htop, h3, h0⟩ := digits_eq (Limb.toNat_lt hl)
  rw [← hv, htop, h3, Nat.mod_mod_of_dvd _ (by decide : 2 ∣ 2 ^ 28), ne_eq, ← BitVec.toNat_inj, h0]
  rfl

/-- A value of 2²²⁴ and more that is at least `p` when its top has been folded. -/
theorem contract_iff_subtracted :
    let a : FieldElement := fun i => [0x10000002, 0, 0, 0xfffe002, 0xfffffff, 0xfffffff,
      0xfffffff, 0x1fffffff].getD i 0
    2 ^ 224 ≤ value a ∧ p ≤ foldTop (foldTop (value a)) ∧
      (∀ i < 8, (contract a i).toNat < 2 ^ 28) ∧ value (contract a) ≡ value a [MOD p] ∧
      value (contract a) < p :=
  ⟨by decide, by decide, (contract_iff (by decide)).mpr (by decide)⟩

/-- From 2²²⁴ - 2¹¹², which is less than `p`, the function subtracts `p`. -/
theorem contract_subtracts :
    let a : FieldElement := fun i => if i < 4 then 0 else 0xfffffff
    (∀ i < 8, (a i).toNat < 2 ^ 29) ∧ value a < p ∧ (contract a 0).toNat = 0xffffffff := by
  decide

end ChromiumBase.P224
