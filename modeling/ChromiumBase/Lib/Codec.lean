import ChromiumBase.Lib.LittleEndian
import ChromiumBase.Lib.Memory

/-!
# Fixed-size codecs

A `Codec α` lays a value of type `α` out in a fixed number of bytes and reads it
back; that the layout has this size and that reading inverts it are fields. The
layout of a packed record is put together from the codecs of its fields with
`pair` and `map`, and an array of records from `encodeList`, so the laws of the
whole follow from those of the parts.
-/

open Memory List

structure Codec (α : Type) where
  size : ℕ
  encode : α → List UInt8
  decode : List UInt8 → α
  length_encode : ∀ a, (encode a).length = size
  decode_encode : ∀ a, decode (encode a) = a

namespace Codec

open LittleEndian

variable {α β : Type}

def uint32 : Codec UInt32 where
  size := 4
  encode n := toBytes 4 n.toNat
  decode bs := UInt32.ofNat (ofBytes bs)
  length_encode _ := length_toBytes _ _
  decode_encode n := by
    rw [ofBytes_toBytes n.toNat_lt, UInt32.ofNat_toNat]

def uint64 : Codec UInt64 where
  size := 8
  encode n := toBytes 8 n.toNat
  decode bs := UInt64.ofNat (ofBytes bs)
  length_encode _ := length_toBytes _ _
  decode_encode n := by
    rw [ofBytes_toBytes n.toNat_lt, UInt64.ofNat_toNat]

def bool : Codec Bool where
  size := 1
  encode b := [if b then 1 else 0]
  decode bs := bs != [0]
  length_encode _ := rfl
  decode_encode b := by cases b <;> rfl

def bytes (n : ℕ) : Codec {bs : List UInt8 // bs.length = n} where
  size := n
  encode := Subtype.val
  decode bs := if h : bs.length = n then ⟨bs, h⟩ else ⟨List.replicate n 0, by simp⟩
  length_encode := Subtype.property
  decode_encode bs := by rw [dif_pos bs.2]

section

variable (c : Codec α) (m : Mem) (start n : ℕ)

def pair (d : Codec β) : Codec (α × β) where
  size := c.size + d.size
  encode p := c.encode p.1 ++ d.encode p.2
  decode bs := (c.decode (bs.take c.size), d.decode (bs.drop c.size))
  length_encode p := by rw [length_append, c.length_encode, d.length_encode]
  decode_encode p := by
    rw [take_left' (c.length_encode _), drop_left' (c.length_encode _),
      c.decode_encode, d.decode_encode]

def map (f : α → β) (g : β → α) (h : ∀ b, f (g b) = b) : Codec β where
  size := c.size
  encode b := c.encode (g b)
  decode bs := f (c.decode bs)
  length_encode _ := c.length_encode _
  decode_encode b := by rw [c.decode_encode, h]

def encodeList (xs : List α) : List UInt8 := xs.flatMap c.encode

def decodeList (c : Codec α) : ℕ → List UInt8 → List α
  | 0, _ => []
  | n + 1, bs => c.decode (bs.take c.size) :: decodeList c n (bs.drop c.size)

@[simp] theorem length_encodeList (xs : List α) :
    (c.encodeList xs).length = xs.length * c.size := by
  induction xs with
  | nil => simp [encodeList]
  | cons x xs ih =>
    rw [encodeList, flatMap_cons, length_append, c.length_encode,
      length_cons, Nat.succ_mul, Nat.add_comm]
    exact congrArg (· + c.size) ih

@[simp] theorem length_decodeList (n : ℕ) (bs : List UInt8) :
    (c.decodeList n bs).length = n := by
  induction n generalizing bs with
  | zero => rfl
  | succ n ih => simp [decodeList, ih]

theorem decodeList_encodeList (xs : List α) : c.decodeList xs.length (c.encodeList xs) = xs := by
  induction xs with
  | nil => rfl
  | cons x xs ih =>
    have hlen := c.length_encode x
    rw [encodeList, flatMap_cons, length_cons, decodeList,
      take_left' hlen, drop_left' hlen, c.decode_encode]
    exact congrArg (x :: ·) ih

def read (start : ℕ) : Traced α :=
  load m start c.size >>= fun bs => pure (c.decode bs)

def readList : Traced (List α) :=
  load m start (n * c.size) >>= fun bs => pure (c.decodeList n bs)

theorem read_result {c : Codec α} {m : Mem} {start : ℕ} {a : α}
    (h : HoldsAt m start (c.encode a)) : (c.read m start).result = a := by
  rw [HoldsAt, c.length_encode] at h
  simp only [read, Traced.result_bind, load_result, h, Traced.result_pure, c.decode_encode]

theorem readList_result {c : Codec α} {m : Mem} {start : ℕ} {xs : List α}
    (h : HoldsAt m start (c.encodeList xs)) : (c.readList m start xs.length).result = xs := by
  rw [HoldsAt, length_encodeList] at h
  simp only [readList, Traced.result_bind, load_result, h, Traced.result_pure,
    decodeList_encodeList]

@[simp] theorem length_readList :
    (c.readList m start n).result.length = n := by simp [readList]

end

theorem within_read {c : Codec α} (m : Mem) {start n : ℕ} (h : start + c.size ≤ n := by omega) :
    Traced.Within n (c.read m start) :=
  Traced.within_bind (within_load m h) (Traced.within_pure _ _)

theorem within_readList {c : Codec α} (m : Mem) {start k n : ℕ}
    (h : start + k * c.size ≤ n) : Traced.Within n (c.readList m start k) :=
  Traced.within_bind (within_load m h) (Traced.within_pure _ _)

end Codec
