import Mathlib.Tactic.Ring

/-!
# Little-endian byte strings

`toBytes k n` lists the `k` low bytes of the number `n`, least significant byte
first, and `ofBytes` reads such a list back. The two are inverse to each other
below `256 ^ k`; outside that range `toBytes` drops the high bytes, which is
what storing a wide integer in a narrow field does.
-/

namespace LittleEndian

def toBytes : ℕ → ℕ → List UInt8
  | 0, _ => []
  | k + 1, n => UInt8.ofNat n :: toBytes k (n / 256)

def ofBytes : List UInt8 → ℕ
  | [] => 0
  | b :: bs => b.toNat + 256 * ofBytes bs

theorem ofBytes_cons (b : UInt8) (bs : List UInt8) :
    ofBytes (b :: bs) = b.toNat + 256 * ofBytes bs := rfl

@[simp] theorem length_toBytes (k n : ℕ) : (toBytes k n).length = k := by
  induction k generalizing n with
  | zero => rfl
  | succ k ih => simp [toBytes, ih]

theorem ofBytes_lt (bs : List UInt8) : ofBytes bs < 256 ^ bs.length := by
  induction bs with
  | nil => simp [ofBytes]
  | cons b bs ih =>
    have hb : b.toNat < 256 := b.toNat_lt
    rw [ofBytes_cons, List.length_cons, pow_succ]
    omega

theorem ofBytes_toBytes_mod (k n : ℕ) : ofBytes (toBytes k n) = n % 256 ^ k := by
  induction k generalizing n with
  | zero => simp [toBytes, ofBytes, Nat.mod_one]
  | succ k ih =>
    have hb : (UInt8.ofNat n).toNat = n % 256 := by simp
    rw [toBytes, ofBytes_cons, ih, hb, pow_succ', Nat.mod_mul]

theorem ofBytes_toBytes {k n : ℕ} (h : n < 256 ^ k) : ofBytes (toBytes k n) = n := by
  rw [ofBytes_toBytes_mod, Nat.mod_eq_of_lt h]

end LittleEndian
