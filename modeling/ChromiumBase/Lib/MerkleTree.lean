import Mathlib.Data.Nat.Log
import Mathlib.Data.List.Basic
import Mathlib.Algebra.Order.Ring.Nat

/-!
# Merkle trees

The tree heads, audit paths and consistency proofs of RFC 6962 over a list of leaf
hashes: a tree of more than one leaf splits at the largest power of two below its
size. Verifiers go through such a tree from the leaves to the root, one level at a
time; `levelUp` is one such level, and each of the recursive notions is related to
itself one level further up.
-/

open List Option

namespace MerkleTree

variable {H : Type*} (node : H → H → H) (empty a : H) {i n : ℕ} {l : List H}

/-- The largest power of two below `n`. -/
def splitSize (n : ℕ) : ℕ := 2 ^ Nat.log 2 (n - 1)

theorem splitSize_pos (n : ℕ) : 0 < splitSize n := Nat.two_pow_pos _

theorem splitSize_lt (h : 2 ≤ n) : splitSize n < n := by
  have hle : splitSize n ≤ n - 1 := Nat.pow_log_le_self 2 (by omega)
  omega

theorem splitSize_eq_two_mul (h : 3 ≤ n) : splitSize n = 2 * splitSize ((n + 1) / 2) := by
  have hlog : Nat.log 2 (n - 1) = Nat.log 2 ((n - 1) / 2) + 1 :=
    Nat.log_of_one_lt_of_le (by omega) (by omega)
  have hh : (n + 1) / 2 - 1 = (n - 1) / 2 := by omega
  rw [splitSize, splitSize, hlog, hh, pow_succ']

/-- `MTH` -/
def treeHead (leaves : List H) : H :=
  if leaves.length < 2 then
    leaves.headD empty
  else
    node (treeHead (leaves.take (splitSize leaves.length)))
      (treeHead (leaves.drop (splitSize leaves.length)))
termination_by leaves.length
decreasing_by
  all_goals
    have h : 2 ≤ leaves.length := not_lt.mp (by assumption)
    have hlt := splitSize_lt h
    have hpos := splitSize_pos leaves.length
    simp only [length_take, length_drop]
    omega

/-- `PATH(i, leaves)`, from the leaf to the root. -/
def auditPath (leaves : List H) (i : ℕ) : List H :=
  if leaves.length < 2 then
    []
  else if i < splitSize leaves.length then
    auditPath (leaves.take (splitSize leaves.length)) i ++
      [treeHead node empty (leaves.drop (splitSize leaves.length))]
  else
    auditPath (leaves.drop (splitSize leaves.length)) (i - splitSize leaves.length) ++
      [treeHead node empty (leaves.take (splitSize leaves.length))]
termination_by leaves.length
decreasing_by
  all_goals
    have h : 2 ≤ leaves.length := not_lt.mp (by assumption)
    have hlt := splitSize_lt h
    have hpos := splitSize_pos leaves.length
    simp only [length_take, length_drop]
    omega

/-- `SUBPROOF(m, leaves, known)`, where `known` says that the verifier has the head
of the first `m` leaves. -/
def subproof (leaves : List H) (m : ℕ) (known : Bool) : List H :=
  if leaves.length ≤ m ∨ leaves.length < 2 then
    if known then [] else [treeHead node empty leaves]
  else if m ≤ splitSize leaves.length then
    subproof (leaves.take (splitSize leaves.length)) m known ++
      [treeHead node empty (leaves.drop (splitSize leaves.length))]
  else
    subproof (leaves.drop (splitSize leaves.length)) (m - splitSize leaves.length) false ++
      [treeHead node empty (leaves.take (splitSize leaves.length))]
termination_by leaves.length
decreasing_by
  all_goals
    have h : 2 ≤ leaves.length := by omega
    have hlt := splitSize_lt h
    have hpos := splitSize_pos leaves.length
    simp only [length_take, length_drop]
    omega

/-- `PROOF(m, leaves)`, the consistency of the tree of the first `m` leaves with the
tree of all of them. -/
def consistencyProof (leaves : List H) (m : ℕ) : List H :=
  subproof node empty leaves m true

/-- The level above a list of nodes: neighbours are joined, and a last node without
a neighbour goes up as it is. -/
def levelUp : List H → List H
  | [] => []
  | [a] => [a]
  | a :: b :: l => node a b :: levelUp l

section Levels

variable {node}

theorem length_levelUp (l : List H) : (levelUp node l).length = (l.length + 1) / 2 := by
  fun_induction levelUp node l with
  | case1 => simp
  | case2 a => simp
  | case3 a b l ih =>
    simp only [length_cons]
    omega

theorem splitAt_levelUp (l : List H) (k : ℕ) :
    (levelUp node l).take k = levelUp node (l.take (2 * k)) ∧
      (levelUp node l).drop k = levelUp node (l.drop (2 * k)) := by
  fun_induction levelUp node l generalizing k with
  | case1 => simp [levelUp]
  | case2 a =>
    cases k with
    | zero => exact ⟨rfl, rfl⟩
    | succ k => simp [Nat.mul_succ, levelUp]
  | case3 a b l ih =>
    cases k with
    | zero => exact ⟨rfl, rfl⟩
    | succ k => simp [Nat.mul_succ, levelUp, ih]

theorem levelUp_append (h : l.length % 2 = 0) (l' : List H) :
    levelUp node (l ++ l') = levelUp node l ++ levelUp node l' := by
  fun_induction levelUp node l with
  | case1 => rfl
  | case2 a => simp at h
  | case3 a b l ih =>
    simp only [length_cons] at h
    rw [cons_append, cons_append, levelUp, ih (by omega), cons_append]

theorem getElem?_levelUp_pair {a b : H} (ha : l[2 * i]? = some a) (hb : l[2 * i + 1]? = some b) :
    (levelUp node l)[i]? = some (node a b) := by
  fun_induction levelUp node l generalizing i with
  | case1 => simp at ha
  | case2 c => simp at hb
  | case3 c d l ih =>
    cases i with
    | zero =>
      rw [getElem?_cons_zero, some.inj ha, some.inj hb]
    | succ i => exact ih ha hb

theorem getElem?_levelUp_last (hl : l.length = 2 * i + 1) : (levelUp node l)[i]? = l[2 * i]? := by
  fun_induction levelUp node l generalizing i with
  | case1 => simp at hl
  | case2 c =>
    obtain rfl : i = 0 := by simp at hl; omega
    rfl
  | case3 c d l ih =>
    cases i with
    | zero => simp at hl
    | succ i => exact ih (by simp only [length_cons] at hl; omega)

end Levels

/-- Induction along the split of the leaves at the largest power of two. -/
theorem split_induction {P : List H → Prop} (small : ∀ l, l.length < 2 → P l)
    (pair : ∀ a b, P [a, b]) (split : ∀ l, 3 ≤ l.length → P (l.take (splitSize l.length)) →
      P (l.drop (splitSize l.length)) → P l) (l : List H) : P l := by
  induction hn : l.length using Nat.strong_induction_on generalizing l with
  | _ n ih =>
    rcases lt_trichotomy l.length 2 with h | h | h
    · exact small l h
    · obtain ⟨a, b, rfl⟩ := length_eq_two.mp h
      exact pair a b
    · have hlt := splitSize_lt (n := l.length) (by omega)
      have hpos := splitSize_pos l.length
      refine split l (by omega) (ih _ ?_ _ rfl) (ih _ ?_ _ rfl)
      · rw [length_take]; omega
      · rw [length_drop]; omega

section Heads

variable {node} {empty} {m : ℕ}

theorem take_drop_levelUp (node : H → H → H) (h : 3 ≤ l.length) :
    (levelUp node l).take (splitSize (levelUp node l).length) =
        levelUp node (l.take (splitSize l.length)) ∧
      (levelUp node l).drop (splitSize (levelUp node l).length) =
        levelUp node (l.drop (splitSize l.length)) := by
  rw [(splitAt_levelUp ..).1, (splitAt_levelUp ..).2, length_levelUp, ← splitSize_eq_two_mul h]
  exact ⟨rfl, rfl⟩

theorem levelUp_of_length_lt (h : l.length < 2) : levelUp node l = l := by
  match l with
  | [] => rfl
  | [_] => rfl

theorem two_le_length_levelUp (h : 3 ≤ l.length) : 2 ≤ (levelUp node l).length := by
  rw [length_levelUp]
  omega

theorem splitSize_two : splitSize 2 = 1 := by simp [splitSize]

theorem treeHead_of_two_le (h : 2 ≤ l.length) :
    treeHead node empty l = node (treeHead node empty (l.take (splitSize l.length)))
      (treeHead node empty (l.drop (splitSize l.length))) := by
  rw [treeHead, if_neg (not_lt.mpr h)]

@[simp] theorem treeHead_singleton : treeHead node empty [a] = a := by
  rw [treeHead, if_pos (by simp)]
  rfl

@[simp] theorem treeHead_pair (b : H) : treeHead node empty [a, b] = node a b := by
  rw [treeHead_of_two_le (by simp)]
  simp [splitSize_two]

theorem treeHead_levelUp (l : List H) :
    treeHead node empty (levelUp node l) = treeHead node empty l := by
  induction l using split_induction with
  | small l h => rw [levelUp_of_length_lt h]
  | pair a b => simp [levelUp]
  | split l h ihtake ihdrop =>
    obtain ⟨ht, hd⟩ := take_drop_levelUp node h
    rw [treeHead_of_two_le (two_le_length_levelUp h), ht, hd, ihtake, ihdrop,
      treeHead_of_two_le (l := l) (by omega)]

theorem auditPath_of_lt (h : 2 ≤ l.length) (hi : i < splitSize l.length) :
    auditPath node empty l i = auditPath node empty (l.take (splitSize l.length)) i ++
      [treeHead node empty (l.drop (splitSize l.length))] := by
  rw [auditPath, if_neg (not_lt.mpr h), if_pos hi]

theorem auditPath_of_le (h : 2 ≤ l.length) (hi : splitSize l.length ≤ i) :
    auditPath node empty l i =
      auditPath node empty (l.drop (splitSize l.length)) (i - splitSize l.length) ++
        [treeHead node empty (l.take (splitSize l.length))] := by
  rw [auditPath, if_neg (not_lt.mpr h), if_neg (not_lt.mpr hi)]

@[simp] theorem auditPath_of_length_lt (h : l.length < 2) (i : ℕ) :
    auditPath node empty l i = [] := by
  rw [auditPath, if_pos h]

def sibling (i : ℕ) : ℕ := if i % 2 = 1 then i - 1 else i + 1

/-- An audit path starts with the sibling of the leaf, if it has one, and goes on as
the path of the node above the leaf. -/
theorem auditPath_levelUp (l : List H) (hi : i < l.length) : auditPath node empty l i =
      l[sibling i]?.toList ++ auditPath node empty (levelUp node l) (i / 2) := by
  induction l using split_induction generalizing i with
  | small l h =>
    obtain rfl : i = 0 := by omega
    rw [levelUp_of_length_lt h, auditPath_of_length_lt h,
      getElem?_eq_none (by simp [sibling]; omega)]
    rfl
  | pair a b =>
    rw [levelUp, levelUp, auditPath_of_length_lt (l := [node a b]) (by simp)]
    have hc : i = 0 ∨ i = 1 := by simp at hi; omega
    rcases hc with rfl | rfl
    · rw [auditPath_of_lt (by simp) (by simp [splitSize_two])]
      simp [splitSize_two, sibling]
    · rw [auditPath_of_le (by simp) (by simp [splitSize_two])]
      simp [splitSize_two, sibling]
  | split l h ihtake ihdrop =>
    obtain ⟨ht, hd⟩ := take_drop_levelUp node h
    have hs := splitSize_eq_two_mul h
    have hup : 2 ≤ (levelUp node l).length := two_le_length_levelUp h
    by_cases hik : i < splitSize l.length
    · have hik' : i / 2 < splitSize (levelUp node l).length := by
        rw [length_levelUp]; omega
      rw [auditPath_of_lt (by omega) hik, auditPath_of_lt hup hik', ht, hd,
        ihtake (by rw [length_take]; omega), treeHead_levelUp, append_assoc]
      rw [getElem?_take_of_lt]
      unfold sibling
      split <;> omega
    · have hik' : splitSize (levelUp node l).length ≤ i / 2 := by
        rw [length_levelUp]; omega
      have hsub : i / 2 - splitSize (levelUp node l).length =
          (i - splitSize l.length) / 2 := by
        rw [length_levelUp]; omega
      rw [auditPath_of_le (by omega) (by omega), auditPath_of_le hup hik', ht, hd,
        ihdrop (by rw [length_drop]; omega), treeHead_levelUp, append_assoc, hsub]
      congr 2
      rw [getElem?_drop]
      congr 1
      unfold sibling
      split <;> split <;> omega

theorem subproof_of_length_le (h : l.length ≤ m ∨ l.length < 2) (known : Bool) :
    subproof node empty l m known = if known then [] else [treeHead node empty l] := by
  rw [subproof, if_pos h]

theorem subproof_of_le (hm : m < l.length) (h : 2 ≤ l.length) (known : Bool)
    (hk : m ≤ splitSize l.length) :
    subproof node empty l m known = subproof node empty (l.take (splitSize l.length)) m known ++
      [treeHead node empty (l.drop (splitSize l.length))] := by
  rw [subproof, if_neg (by omega), if_pos hk]

theorem subproof_of_lt (hm : m < l.length) (h : 2 ≤ l.length) (known : Bool)
    (hk : splitSize l.length < m) : subproof node empty l m known =
      subproof node empty (l.drop (splitSize l.length)) (m - splitSize l.length) false ++
        [treeHead node empty (l.take (splitSize l.length))] := by
  rw [subproof, if_neg (by omega), if_neg (by omega)]

/-- The proof for an even number of leaves is that of the level above. -/
theorem subproof_levelUp (l : List H) (hm : 2 * m ≤ l.length) (hpos : 0 < m) (known : Bool) :
    subproof node empty l (2 * m) known = subproof node empty (levelUp node l) m known := by
  induction l using split_induction generalizing m known with
  | small l h => omega
  | pair a b =>
    rw [subproof_of_length_le (by simp; omega), subproof_of_length_le (by simp [levelUp]),
      treeHead_levelUp]
  | split l h ihtake ihdrop =>
    obtain ⟨ht, hd⟩ := take_drop_levelUp node h
    have hs := splitSize_eq_two_mul h
    have hup : 2 ≤ (levelUp node l).length := two_le_length_levelUp h
    have hlen : (levelUp node l).length = (l.length + 1) / 2 := length_levelUp l
    rcases hm.eq_or_lt with hm | hm
    · rw [subproof_of_length_le (by omega), subproof_of_length_le (by omega), treeHead_levelUp]
    · rw [← hlen] at hs
      rcases le_or_gt (2 * m) (splitSize l.length) with hk | hk
      · rw [subproof_of_le hm (by omega) known hk,
          subproof_of_le (by omega) hup known (by omega), ht, hd, treeHead_levelUp,
          ihtake (by rw [length_take]; omega) hpos]
      · have hsub : 2 * m - splitSize l.length =
            2 * (m - splitSize (levelUp node l).length) := by omega
        rw [subproof_of_lt hm (by omega) known hk,
          subproof_of_lt (by omega) hup known (by omega), ht, hd, treeHead_levelUp,
          hsub, ihdrop (by rw [length_drop]; omega) (by omega)]

/-- A proof for an odd number of leaves is the last of them, unless it is the only
one and known, and its audit path. -/
theorem subproof_eq_auditPath (l : List H) (hi : i % 2 = 0) (hlt : i < l.length)
    (h1 : i + 1 < l.length ∨ l.length < 2) (known : Bool) : subproof node empty l (i + 1) known =
      (if known ∧ i = 0 then [] else l[i]?.toList) ++ auditPath node empty l i := by
  induction l using split_induction generalizing i known with
  | small l h =>
    obtain ⟨a, rfl⟩ := length_eq_one_iff.mp (by omega : l.length = 1)
    obtain rfl : i = 0 := by simp at hlt; omega
    rw [subproof_of_length_le (.inr h), auditPath_of_length_lt h]
    cases known <;> simp
  | pair a b =>
    obtain rfl : i = 0 := by simp at h1; omega
    rw [subproof_of_le (by simp) (by simp) known (by simp [splitSize_two]),
      auditPath_of_lt (by simp) (by simp [splitSize_two])]
    cases known <;> simp [splitSize_two, subproof_of_length_le]
  | split l h ihtake ihdrop =>
    have hs := splitSize_eq_two_mul h
    have hk2 := splitSize_pos ((l.length + 1) / 2)
    rcases Nat.lt_or_ge i (splitSize l.length) with hk | hk
    · rw [subproof_of_le (by omega) (by omega) known (by omega), auditPath_of_lt (by omega) hk,
        ihtake hi (by rw [length_take]; omega) (by rw [length_take]; omega),
        getElem?_take_of_lt hk, append_assoc]
    · have hi' : i ≠ 0 := by omega
      rw [subproof_of_lt (by omega) (by omega) known (by omega),
        auditPath_of_le (by omega) hk, Nat.succ_sub hk,
        ihdrop (by omega) (by rw [length_drop]; omega) (by rw [length_drop]; omega),
        getElem?_drop, Nat.add_sub_cancel' hk, append_assoc]
      simp [hi']

end Heads

/-- A walk from the node with index `i` of a level, whose last node has index `last`,
to the root. It carries a value along and meets the siblings on its way: a sibling on
the left for an odd index, one on the right for an even index, and none for a last
node with an even index. -/
inductive Climbs {α : Type*} (left : H → α → α) (right : α → H → α) :
    ℕ → ℕ → List H → α → α → Prop
  | root (a : α) : Climbs left right 0 0 [] a a
  | left {i last : ℕ} {p : H} {nodes : List H} {a x : α} :
      2 * i + 1 ≤ last → Climbs left right i (last / 2) nodes (left p a) x →
        Climbs left right (2 * i + 1) last (p :: nodes) a x
  | right {i last : ℕ} {p : H} {nodes : List H} {a x : α} :
      2 * i < last → Climbs left right i (last / 2) nodes (right a p) x →
        Climbs left right (2 * i) last (p :: nodes) a x
  | last {i : ℕ} {nodes : List H} {a x : α} :
      0 < i → Climbs left right i i nodes a x → Climbs left right (2 * i) (2 * i) nodes a x

theorem climbs_iff {α : Type*} {left : H → α → α} {right : α → H → α} {last : ℕ} {nodes : List H}
    {a x : α} : Climbs left right i last nodes a x ↔
      (last = 0 ∧ i = 0 ∧ nodes = [] ∧ a = x) ∨
      (i % 2 = 1 ∧ i ≤ last ∧
        ∃ p rest, nodes = p :: rest ∧ Climbs left right (i / 2) (last / 2) rest (left p a) x) ∨
      (i % 2 = 0 ∧ i < last ∧
        ∃ p rest, nodes = p :: rest ∧ Climbs left right (i / 2) (last / 2) rest (right a p) x) ∨
      (i % 2 = 0 ∧ i = last ∧ 0 < i ∧ Climbs left right (i / 2) (i / 2) nodes a x) := by
  constructor
  · intro h
    cases h with
    | root a => exact .inl ⟨rfl, rfl, rfl, rfl⟩
    | @left i last p nodes a x hi h =>
      have hh : (2 * i + 1) / 2 = i := by omega
      exact .inr (.inl ⟨by omega, hi, p, nodes, rfl, by rwa [hh]⟩)
    | @right i last p nodes a x hi h =>
      have hh : 2 * i / 2 = i := by omega
      exact .inr (.inr (.inl ⟨by omega, hi, p, nodes, rfl, by rwa [hh]⟩))
    | @last i nodes a x hi h =>
      have hh : 2 * i / 2 = i := by omega
      exact .inr (.inr (.inr ⟨by omega, rfl, by omega, by rwa [hh]⟩))
  · rintro (⟨rfl, rfl, rfl, rfl⟩ | ⟨hodd, hi, p, rest, rfl, h⟩ | ⟨he, hi, p, rest, rfl, h⟩ |
      ⟨he, rfl, hi, h⟩)
    · exact .root a
    · have hd : 2 * (i / 2) + 1 = i := by omega
      have := Climbs.left (by omega : 2 * (i / 2) + 1 ≤ last) h
      rwa [hd] at this
    · have hd : 2 * (i / 2) = i := by omega
      have := Climbs.right (by omega : 2 * (i / 2) < last) h
      rwa [hd] at this
    · have hd : 2 * (i / 2) = i := by omega
      have := Climbs.last (by omega : 0 < i / 2) h
      rwa [hd] at this

abbrev ClimbsOne := Climbs node node

/-- The walk that hashes a value of an older tree, which ends at the walk's node, and a
value of the tree. -/
abbrev ClimbsTwo :=
  Climbs (fun c (a : H × H) => (node c a.1, node c a.2)) (fun a c => (a.1, node a.2 c))

section Walks

variable {node} {empty} {last : ℕ} {nodes : List H}

theorem ClimbsTwo.snd {a x : H × H} (h : ClimbsTwo node i last nodes a x) :
    ClimbsOne node i last nodes a.2 x.2 := by
  induction h with
  | root a => exact .root _
  | left hi _ ih => exact .left hi ih
  | right hi _ ih => exact .right hi ih
  | last hi _ ih => exact .last hi ih

theorem exists_pair (h : 2 * i + 1 < l.length := by omega) :
    ∃ a b, l[2 * i]? = some a ∧ l[2 * i + 1]? = some b :=
  ⟨l[2 * i], l[2 * i + 1], getElem?_eq_getElem _, getElem?_eq_getElem _⟩

/-- With an injective hash only the leaf itself climbs to the head. -/
theorem ClimbsOne.getElem? (hinj : Function.Injective2 node) {r x : H}
    (hx : treeHead node empty l = x) (h : ClimbsOne node i last nodes r x)
    (hl : l.length = last + 1) : l[i]? = some r := by
  induction h generalizing l with
  | root a =>
    obtain ⟨b, rfl⟩ := length_eq_one_iff.mp hl
    rw [treeHead_singleton] at hx
    rw [hx]
    rfl
  | @left i last p nodes a x hi _ ih =>
    obtain ⟨b, c, hb, hc⟩ := exists_pair (l := l) (i := i)
    have hup := ih (l := levelUp node l) (by rw [treeHead_levelUp, hx])
      (by rw [length_levelUp]; omega)
    rw [getElem?_levelUp_pair hb hc] at hup
    rw [hc, (hinj (some.inj hup)).2]
  | @right i last p nodes a x hi _ ih =>
    obtain ⟨b, c, hb, hc⟩ := exists_pair (l := l) (i := i)
    have hup := ih (l := levelUp node l) (by rw [treeHead_levelUp, hx])
      (by rw [length_levelUp]; omega)
    rw [getElem?_levelUp_pair hb hc] at hup
    rw [hb, (hinj (some.inj hup)).1]
  | @last i nodes a x hi _ ih =>
    rw [← getElem?_levelUp_last hl]
    exact ih (l := levelUp node l) (by rw [treeHead_levelUp, hx])
      (by rw [length_levelUp]; omega)

theorem length_take_mod_two (h : 2 * i ≤ l.length) : (l.take (2 * i)).length % 2 = 0 := by
  rw [length_take_of_le h]
  omega

theorem treeHead_take_even (h : 2 * i ≤ l.length) (a : H) :
    treeHead node empty ((levelUp node l).take i ++ [a]) =
      treeHead node empty (l.take (2 * i) ++ [a]) := by
  rw [← treeHead_levelUp (l.take (2 * i) ++ [a]), levelUp_append (length_take_mod_two h),
    (splitAt_levelUp ..).1]
  rfl

theorem treeHead_take_odd {b : H} (hb : l[2 * i]? = some b) (a : H) :
    treeHead node empty ((levelUp node l).take i ++ [node b a]) =
      treeHead node empty (l.take (2 * i + 1) ++ [a]) := by
  obtain ⟨hlt, -⟩ := List.getElem?_eq_some_iff.mp hb
  rw [← treeHead_levelUp (l.take (2 * i + 1) ++ [a]), take_add_one, hb, append_assoc,
    levelUp_append (length_take_mod_two (by omega)), (splitAt_levelUp ..).1]
  rfl

/-- A walk of two values that reaches the head of a tree turned the nodes before its
start, followed by its first value, into their head. -/
theorem ClimbsTwo.treeHead_take (hinj : Function.Injective2 node) {a x : H × H}
    (h : ClimbsTwo node i last nodes a x) (hx : treeHead node empty l = x.2)
    (hl : l.length = last + 1) : treeHead node empty (l.take i ++ [a.1]) = x.1 := by
  induction h generalizing l with
  | root a => simp
  | @left i last p nodes a x hi hw ih =>
    have hlup : (levelUp node l).length = last / 2 + 1 := by rw [length_levelUp]; omega
    have hxup : treeHead node empty (levelUp node l) = x.2 := by rw [treeHead_levelUp, hx]
    obtain ⟨b, c, hb, hc⟩ := exists_pair (l := l) (i := i)
    -- the sibling is the node of the tree, by the walk of the second value
    have hup := ClimbsOne.getElem? hinj hxup (ClimbsTwo.snd hw) hlup
    rw [getElem?_levelUp_pair hb hc] at hup
    rw [← treeHead_take_odd hb, (hinj (some.inj hup)).1]
    exact ih hxup hlup
  | @right i last p nodes a x hi hw ih | @last i nodes a x hi hw ih =>
    rw [← treeHead_take_even (by omega)]
    exact ih (by rw [treeHead_levelUp, hx]) (by rw [length_levelUp]; omega)

/-- The audit path takes both values along, the one of the older tree to its head. -/
theorem climbsTwo_auditPath {r : H} (hl : l.length = last + 1) (h : l[i]? = some r) (fr : H) :
    ClimbsTwo node i last (auditPath node empty l i) (fr, r)
      (treeHead node empty (l.take i ++ [fr]), treeHead node empty l) := by
  induction last using Nat.strong_induction_on generalizing l i r fr with
  | _ last ih =>
    obtain ⟨hi, -⟩ := List.getElem?_eq_some_iff.mp h
    have hlup : (levelUp node l).length = last / 2 + 1 := by rw [length_levelUp]; omega
    rcases Nat.eq_zero_or_pos last with rfl | hpos
    · obtain ⟨b, rfl⟩ := length_eq_one_iff.mp hl
      obtain rfl : i = 0 := by omega
      obtain rfl : b = r := by simpa using h
      rw [auditPath_of_length_lt (by simp), take_zero, nil_append,
        treeHead_singleton, treeHead_singleton]
      exact .root _
    · rw [auditPath_levelUp l hi, ← treeHead_levelUp l]
      obtain ⟨j, rfl | rfl⟩ := Nat.even_or_odd' i
      · have hj : 2 * j / 2 = j := by omega
        have hsib : sibling (2 * j) = 2 * j + 1 := by simp [sibling]
        rw [hj, hsib, ← treeHead_take_even (by omega)]
        rcases Nat.lt_or_ge (2 * j + 1) l.length with hlt | hge
        · obtain ⟨b, c, hb, hc⟩ := exists_pair hlt
          obtain rfl : r = b := some.inj (h.symm.trans hb)
          rw [hc]
          exact .right (by omega) (ih _ (by omega) hlup (getElem?_levelUp_pair hb hc) fr)
        · obtain rfl : last = 2 * j := by omega
          rw [getElem?_eq_none hge]
          rw [Nat.mul_div_cancel_left j two_pos] at hlup
          exact .last (by omega)
            (ih _ (by omega) hlup ((getElem?_levelUp_last hl).trans h) fr)
      · have hj : (2 * j + 1) / 2 = j := by omega
        have hsib : sibling (2 * j + 1) = 2 * j := by simp [sibling]
        obtain ⟨b, c, hb, hc⟩ := exists_pair hi
        obtain rfl : r = c := some.inj (h.symm.trans hc)
        rw [hj, hsib, hb, ← treeHead_take_odd hb]
        exact .left (by omega)
          (ih _ (by omega) hlup (getElem?_levelUp_pair hb hc) (node b fr))

end Walks

end MerkleTree
