import ChromiumBase.Lib.MerkleTree
import Mathlib.Data.Nat.Pairing

/-!
# Merkle proofs of certificate transparency logs

`CTLogVerifier::VerifyAuditProof` and `CTLogVerifier::VerifyConsistencyProof`
(`net/cert/ct_log_verifier.cc`). Both go through the nodes of a proof from the
leaves to the root with two counters: `fn` is the index of a node in its level of the
tree and `sn` the index of the last node of that level, so that a level is a list of
`sn + 1` nodes. The strings of the source are hashes of an arbitrary type here, and
`HashNodes` is an arbitrary function on them.
-/

open List MerkleTree

namespace ChromiumBase.Ct

variable {S H : Type*} (hashNodes : H → H → H) {fn sn n : UInt64} {keyId : S} {nodes : List H}

structure MerkleAuditProof (H : Type*) where
  leafIndex : UInt64
  treeSize : UInt64
  nodes : List H

structure MerkleConsistencyProof (S H : Type*) where
  logId : S
  nodes : List H
  firstTreeSize : UInt64
  secondTreeSize : UInt64

def isPowerOfTwo (n : UInt64) : Bool := n != 0 && n &&& (n - 1) == 0

/-- `while (fn & 1)`: both counters are shifted while the last bit of `fn` is set.
A 64-bit counter is shifted at most 64 times. -/
def shiftWhileSet : ℕ → UInt64 → UInt64 → UInt64 × UInt64
  | 0, fn, sn => (fn, sn)
  | bits + 1, fn, sn =>
    if fn &&& 1 = 0 then (fn, sn) else shiftWhileSet bits (fn >>> 1) (sn >>> 1)

/-- `while (!(fn & 1) && fn != 0)`: both counters are shifted until the last bit of
`fn` is set. -/
def shiftUntilSet : ℕ → UInt64 → UInt64 → UInt64 × UInt64
  | 0, fn, sn => (fn, sn)
  | bits + 1, fn, sn =>
    if fn &&& 1 = 0 ∧ fn ≠ 0 then shiftUntilSet bits (fn >>> 1) (sn >>> 1) else (fn, sn)

/-- The loop of both functions over the nodes, which differ in what a node does to the
hashes they keep: `sn` and the hashes at its end, or nothing when it returns early. -/
def nodeLoop {α : Type*} (left : H → α → α) (right : α → H → α) :
    List H → UInt64 → UInt64 → α → Option (UInt64 × α)
  | [], _, sn, a => some (sn, a)
  | p :: nodes, fn, sn, a =>
    if sn = 0 then
      none
    else if fn &&& 1 ≠ 0 ∨ fn = sn then
      let (fn, sn) := shiftUntilSet 64 fn sn
      nodeLoop left right nodes (fn >>> 1) (sn >>> 1) (left p a)
    else
      nodeLoop left right nodes (fn >>> 1) (sn >>> 1) (right a p)

def auditLoop : List H → UInt64 → UInt64 → H → Option (UInt64 × H) :=
  nodeLoop (fun p r => hashNodes p r) (fun r p => hashNodes r p)

def verifyAuditProof [DecidableEq H] (proof : MerkleAuditProof H) (rootHash leafHash : H) : Bool :=
  if proof.leafIndex ≥ proof.treeSize then
    false
  else
    match auditLoop hashNodes proof.nodes proof.leafIndex (proof.treeSize - 1) leafHash with
    | none => false
    | some (sn, r) => sn == 0 && r == rootHash

def consistencyLoop : List H → UInt64 → UInt64 → H × H → Option (UInt64 × H × H) :=
  nodeLoop (fun c (fr, sr) => (hashNodes c fr, hashNodes c sr))
    (fun (fr, sr) c => (fr, hashNodes sr c))

def verifyNodes [DecidableEq H] (firstProofNode : H) (nodes : List H)
    (firstTreeSize secondTreeSize : UInt64) (oldTreeHash newTreeHash : H) : Bool :=
  let (fn, sn) := shiftWhileSet 64 (firstTreeSize - 1) (secondTreeSize - 1)
  match consistencyLoop hashNodes nodes fn sn (firstProofNode, firstProofNode) with
  | none => false
  | some (sn, (fr, sr)) => fr == oldTreeHash && sr == newTreeHash && sn == 0

def verifyConsistencyProof [DecidableEq S] [DecidableEq H] (keyId : S)
    (proof : MerkleConsistencyProof S H) (oldTreeHash newTreeHash : H) : Bool :=
  if keyId ≠ proof.logId then
    false
  else if proof.firstTreeSize > proof.secondTreeSize then
    false
  else if proof.firstTreeSize = proof.secondTreeSize then
    proof.nodes.isEmpty && oldTreeHash == newTreeHash
  else if proof.firstTreeSize = 0 then
    proof.nodes.isEmpty
  else if isPowerOfTwo proof.firstTreeSize then
    verifyNodes hashNodes oldTreeHash proof.nodes proof.firstTreeSize proof.secondTreeSize
      oldTreeHash newTreeHash
  else
    match proof.nodes with
    | [] => false
    | firstProofNode :: nodes =>
      verifyNodes hashNodes firstProofNode nodes proof.firstTreeSize proof.secondTreeSize
        oldTreeHash newTreeHash

@[simp] theorem toNat_shiftRight_one (n : UInt64) : (n >>> 1).toNat = n.toNat / 2 := by
  simp [Nat.shiftRight_one]

theorem and_one_eq_zero_iff (n : UInt64) : n &&& 1 = 0 ↔ n.toNat % 2 = 0 := by
  rw [← UInt64.toNat_inj]
  simp

theorem ne_zero_iff (n : UInt64) : n ≠ 0 ↔ n.toNat ≠ 0 := by
  rw [ne_eq, ← UInt64.toNat_inj]
  rfl

theorem shiftUntilSet_succ (bits : ℕ) (fn sn : UInt64) (h : fn.toNat < 2 ^ bits) :
    shiftUntilSet (bits + 1) fn sn = shiftUntilSet bits fn sn := by
  induction bits generalizing fn sn with
  | zero =>
    have hz : fn = 0 := UInt64.toNat_inj.mp (by simpa using h)
    simp [shiftUntilSet, hz]
  | succ bits ih =>
    have hh : (fn >>> 1).toNat < 2 ^ bits := by
      rw [toNat_shiftRight_one]
      omega
    rw [shiftUntilSet, ih _ _ hh]
    rfl

theorem shiftUntilSet_even (he : fn.toNat % 2 = 0) (hne : fn.toNat ≠ 0) (sn : UInt64) :
    shiftUntilSet 64 fn sn = shiftUntilSet 64 (fn >>> 1) (sn >>> 1) := by
  have hh : (fn >>> 1).toNat < 2 ^ 63 := by
    have hlt := fn.toNat_lt
    rw [toNat_shiftRight_one]
    omega
  rw [shiftUntilSet_succ 63 _ _ hh]
  exact if_pos ⟨(and_one_eq_zero_iff fn).mpr he, (ne_zero_iff fn).mpr hne⟩

theorem shiftUntilSet_odd (hodd : fn.toNat % 2 = 1) (sn : UInt64) :
    shiftUntilSet 64 fn sn = (fn, sn) :=
  if_neg fun h => by
    have := (and_one_eq_zero_iff fn).mp h.1
    omega

theorem isPowerOfTwo_iff (n : UInt64) :
    isPowerOfTwo n = true ↔ n.toNat ≠ 0 ∧ n.toNat &&& (n.toNat - 1) = 0 := by
  by_cases h : n = 0
  · simp [isPowerOfTwo, h]
  · have hle : 1 ≤ n := by
      have := (ne_zero_iff n).mp h
      exact Nat.one_le_iff_ne_zero.mpr this
    have hne := (ne_zero_iff n).mp h
    simp [isPowerOfTwo, hne, ← UInt64.toNat_inj, UInt64.toNat_sub_of_le _ _ hle]

theorem isPowerOfTwo_even (he : n.toNat % 2 = 0) (hne : n.toNat ≠ 0) :
    isPowerOfTwo n = isPowerOfTwo (n >>> 1) := by
  rw [Bool.eq_iff_iff, isPowerOfTwo_iff, isPowerOfTwo_iff, toNat_shiftRight_one]
  have hdiv : (n.toNat &&& (n.toNat - 1)) / 2 = n.toNat / 2 &&& (n.toNat / 2 - 1) := by
    rw [Nat.and_div_two]
    congr 1
    omega
  have hmod : (n.toNat &&& (n.toNat - 1)) % 2 = 0 := by
    rw [Nat.and_mod_two_pow (n := 1), pow_one, he, Nat.zero_and]
  constructor
  · rintro ⟨-, h⟩
    rw [h] at hdiv
    exact ⟨by omega, hdiv.symm⟩
  · rintro ⟨-, h⟩
    exact ⟨hne, by omega⟩

theorem isPowerOfTwo_odd (hodd : n.toNat % 2 = 1) : isPowerOfTwo n = true ↔ n.toNat = 1 := by
  rw [isPowerOfTwo_iff]
  have hdiv : (n.toNat &&& (n.toNat - 1)) / 2 = n.toNat / 2 := by
    have hh : (n.toNat - 1) / 2 = n.toNat / 2 := by omega
    rw [Nat.and_div_two, hh, Nat.and_self]
  constructor
  · rintro ⟨-, h⟩
    omega
  · intro h
    rw [h]
    exact ⟨by omega, rfl⟩

section Loop

variable {α : Type*} {left : H → α → α} {right : α → H → α} {a x : α}
variable {p : H}

theorem nodeLoop_odd (hodd : fn.toNat % 2 = 1) (hsn : sn ≠ 0) :
    nodeLoop left right (p :: nodes) fn sn a =
      nodeLoop left right nodes (fn >>> 1) (sn >>> 1) (left p a) := by
  have hset : fn &&& 1 ≠ 0 := fun h => by
    have := (and_one_eq_zero_iff fn).mp h
    omega
  rw [nodeLoop, if_neg hsn, if_pos (.inl hset), shiftUntilSet_odd hodd]

theorem nodeLoop_even (he : fn.toNat % 2 = 0) (hsn : sn ≠ 0) (hne : fn ≠ sn) :
    nodeLoop left right (p :: nodes) fn sn a =
      nodeLoop left right nodes (fn >>> 1) (sn >>> 1) (right a p) := by
  rw [nodeLoop, if_neg hsn, if_neg]
  rintro (h | h)
  · exact h ((and_one_eq_zero_iff fn).mpr he)
  · exact hne h

theorem nodeLoop_last (he : fn.toNat % 2 = 0) (hne : fn.toNat ≠ 0) :
    nodeLoop left right nodes fn fn a = some (0, x) ↔
      nodeLoop left right nodes (fn >>> 1) (fn >>> 1) a = some (0, x) := by
  have hfn : fn ≠ 0 := (ne_zero_iff fn).mpr hne
  have hh : fn >>> 1 ≠ 0 := (ne_zero_iff _).mpr (by rw [toNat_shiftRight_one]; omega)
  cases nodes with
  | nil => simp [nodeLoop, hfn, hh]
  | cons p nodes =>
    rw [nodeLoop, nodeLoop, if_neg hfn, if_neg hh, if_pos (.inr rfl), if_pos (.inr rfl),
      shiftUntilSet_even he hne]

/-- The loop over the nodes climbs the levels of the tree, by its two counters. -/
theorem nodeLoop_eq_some_iff (hle : fn.toNat ≤ sn.toNat) :
    nodeLoop left right nodes fn sn a = some (0, x) ↔
      Climbs left right fn.toNat sn.toNat nodes a x := by
  induction hn : sn.toNat using Nat.strong_induction_on generalizing fn sn nodes a with
  | _ n ih =>
    subst hn
    have hh : ∀ {nodes : List H} {a : α}, sn.toNat ≠ 0 →
        (nodeLoop left right nodes (fn >>> 1) (sn >>> 1) a = some (0, x) ↔
          Climbs left right (fn.toNat / 2) (sn.toNat / 2) nodes a x) := by
      intro nodes a hsn
      have hle' : (fn >>> 1).toNat ≤ (sn >>> 1).toNat := by
        rw [toNat_shiftRight_one, toNat_shiftRight_one]
        omega
      rw [ih _ (by rw [toNat_shiftRight_one]; omega) hle' rfl, toNat_shiftRight_one,
        toNat_shiftRight_one]
    rw [climbs_iff]
    by_cases hsn : sn.toNat = 0
    · obtain rfl : sn = 0 := UInt64.toNat_inj.mp hsn
      have hfn : fn.toNat = 0 := by omega
      cases nodes with
      | nil => simp [nodeLoop, hfn]
      | cons p nodes => simp [nodeLoop, hfn]
    · have hsn' : sn ≠ 0 := (ne_zero_iff sn).mpr hsn
      rcases Nat.mod_two_eq_zero_or_one fn.toNat with he | hodd
      · rcases hle.eq_or_lt with heq | hlt
        · obtain rfl : fn = sn := UInt64.toNat_inj.mp heq
          rw [nodeLoop_last he hsn, hh hsn]
          simp [hsn, he, Nat.pos_of_ne_zero hsn]
        · have hne : fn ≠ sn := fun h => by rw [h] at hlt; omega
          cases nodes with
          | nil => simp [nodeLoop, hsn, hsn', hlt.ne]
          | cons p nodes =>
            rw [nodeLoop_even he hsn' hne, hh hsn]
            simp [he, hlt, hlt.ne]
      · cases nodes with
        | nil => simp [nodeLoop, hsn, hsn', hodd]
        | cons p nodes =>
          rw [nodeLoop_odd hodd hsn', hh hsn]
          simp [hodd, hle]

end Loop

section Proofs

variable {hashNodes} {empty : H} {D : Type*} {m : UInt64} {new old : H} {l : List H}

theorem toNat_sub_one (h : 0 < n.toNat) : (n - 1).toNat = n.toNat - 1 :=
  UInt64.toNat_sub_of_le _ _ (UInt64.le_iff_toNat_le.mpr h)

theorem verifyAuditProof_iff [DecidableEq H] {proof : MerkleAuditProof H} {rootHash leafHash : H}
    (hlt : proof.leafIndex < proof.treeSize) :
    verifyAuditProof hashNodes proof rootHash leafHash = true ↔
      ClimbsOne hashNodes proof.leafIndex.toNat (proof.treeSize.toNat - 1) proof.nodes leafHash
        rootHash := by
  have hlt' := UInt64.lt_iff_toNat_lt.mp hlt
  have hsub : (proof.treeSize - 1).toNat = proof.treeSize.toNat - 1 := toNat_sub_one (by omega)
  have hl : auditLoop hashNodes proof.nodes proof.leafIndex (proof.treeSize - 1) leafHash =
        some (0, rootHash) ↔
      ClimbsOne hashNodes proof.leafIndex.toNat (proof.treeSize - 1).toNat proof.nodes leafHash
        rootHash := nodeLoop_eq_some_iff (by omega)
  rw [verifyAuditProof, if_neg (UInt64.not_le.mpr hlt), ← hsub, ← hl]
  cases auditLoop hashNodes proof.nodes proof.leafIndex (proof.treeSize - 1) leafHash with
  | none => simp
  | some result => simp [Prod.ext_iff]

/-- The proof of RFC 6962 is accepted, and no proof is for another leaf. -/
theorem verifyAuditProof_correct [DecidableEq H] (hinj : Function.Injective2 hashNodes)
    (hashLeaf : D → H) (leaves : List D) (treeSize leafIndex : UInt64)
    (hn : leaves.length = treeSize.toNat) (leaf : D)
    (hleaf : leaves[leafIndex.toNat]? = some leaf) : verifyAuditProof hashNodes
        ⟨leafIndex, treeSize, auditPath hashNodes empty (leaves.map hashLeaf) leafIndex.toNat⟩
        (treeHead hashNodes empty (leaves.map hashLeaf)) (hashLeaf leaf) = true ∧
      ∀ nodes leafHash, verifyAuditProof hashNodes ⟨leafIndex, treeSize, nodes⟩
            (treeHead hashNodes empty (leaves.map hashLeaf)) leafHash = true →
          leafHash = hashLeaf leaf := by
  obtain ⟨hi, -⟩ := List.getElem?_eq_some_iff.mp hleaf
  have hlt : leafIndex < treeSize := UInt64.lt_iff_toNat_lt.mpr (by omega)
  have hlen : (leaves.map hashLeaf).length = treeSize.toNat - 1 + 1 := by
    rw [length_map]; omega
  have hh : (leaves.map hashLeaf)[leafIndex.toNat]? = some (hashLeaf leaf) := by
    rw [getElem?_map, hleaf, Option.map_some]
  constructor
  · exact (verifyAuditProof_iff hlt).mpr (climbsTwo_auditPath hlen hh (hashLeaf leaf)).snd
  · intro nodes leafHash h
    have hget := ClimbsOne.getElem? hinj rfl ((verifyAuditProof_iff hlt).mp h) hlen
    exact Option.some.inj (hget.symm.trans hh)

theorem verifyAuditProof_correct_three : verifyAuditProof Nat.pair
        ⟨2, 3, auditPath Nat.pair 0 ([5, 6, 7].map id) (2 : UInt64).toNat⟩
        (treeHead Nat.pair 0 ([5, 6, 7].map id)) (id 7) = true ∧
      ∀ nodes leafHash,
        verifyAuditProof Nat.pair ⟨2, 3, nodes⟩ (treeHead Nat.pair 0 ([5, 6, 7].map id))
          leafHash = true → leafHash = id 7 :=
  verifyAuditProof_correct (fun _ _ _ _ h => Nat.pair_eq_pair.mp h) id [5, 6, 7] 3 2 rfl 7 rfl

theorem verifyNodes_iff [DecidableEq H] {first : H}
    (hs : shiftWhileSet 64 (m - 1) (n - 1) = (fn, sn)) (hle : fn.toNat ≤ sn.toNat) :
    verifyNodes hashNodes first nodes m n old new = true ↔
      ClimbsTwo hashNodes fn.toNat sn.toNat nodes (first, first) (old, new) := by
  have hl : consistencyLoop hashNodes nodes fn sn (first, first) = some (0, (old, new)) ↔
      ClimbsTwo hashNodes fn.toNat sn.toNat nodes (first, first) (old, new) :=
    nodeLoop_eq_some_iff hle
  simp only [verifyNodes, hs]
  rw [← hl]
  cases consistencyLoop hashNodes nodes fn sn (first, first) with
  | none => simp
  | some result => simp [Prod.ext_iff, and_comm]

/-- The first shifts of `VerifyConsistencyProof` lead to a level of the tree whose
first `fn + 1` nodes have the head of the older tree and end in an unpaired one. -/
theorem shiftWhileSet_spec (hashNodes : H → H → H) (empty : H) (bits : ℕ) (hb : fn.toNat < 2 ^ bits)
    (hlt : fn.toNat < sn.toNat) (hl : l.length = sn.toNat + 1) :
    ∃ fn' sn' l', shiftWhileSet bits fn sn = (fn', sn') ∧ fn'.toNat % 2 = 0 ∧
      fn'.toNat < sn'.toNat ∧ l'.length = sn'.toNat + 1 ∧
      treeHead hashNodes empty l' = treeHead hashNodes empty l ∧
      treeHead hashNodes empty (l'.take (fn'.toNat + 1)) =
        treeHead hashNodes empty (l.take (fn.toNat + 1)) ∧
      consistencyProof hashNodes empty l' (fn'.toNat + 1) =
        consistencyProof hashNodes empty l (fn.toNat + 1) ∧
      (isPowerOfTwo (fn + 1) = true ↔ fn'.toNat = 0) := by
  have hs : (fn + 1).toNat = fn.toNat + 1 := by
    have := sn.toNat_lt
    rw [UInt64.toNat_add, UInt64.toNat_one]
    omega
  induction bits generalizing fn sn l with
  | zero =>
    refine ⟨fn, sn, l, rfl, by omega, hlt, hl, rfl, rfl, rfl, ?_⟩
    rw [isPowerOfTwo_odd (by omega), hs]
    omega
  | succ bits ih =>
    rcases Nat.mod_two_eq_zero_or_one fn.toNat with he | hodd
    · refine ⟨fn, sn, l, if_pos ((and_one_eq_zero_iff fn).mpr he), he, hlt, hl, rfl, rfl, rfl, ?_⟩
      rw [isPowerOfTwo_odd (by omega), hs]
      omega
    · have hset : fn &&& 1 ≠ 0 := fun h => by
        have := (and_one_eq_zero_iff fn).mp h
        omega
      have hfn : (fn >>> 1).toNat = fn.toNat / 2 := toNat_shiftRight_one fn
      have hsn : (sn >>> 1).toNat = sn.toNat / 2 := toNat_shiftRight_one sn
      have hd : 2 * (fn.toNat / 2 + 1) = fn.toNat + 1 := by omega
      have hh : (fn + 1) >>> 1 = fn >>> 1 + 1 := by
        have := fn.toNat_lt
        rw [← UInt64.toNat_inj, toNat_shiftRight_one, hs, UInt64.toNat_add, hfn, UInt64.toNat_one]
        omega
      obtain ⟨fn', sn', l', hsh, he, hlt', hl', hhe, ht, hp, hpow⟩ :=
        ih (by rw [pow_succ] at hb; omega : (fn >>> 1).toNat < 2 ^ bits)
          (by omega : _ < (sn >>> 1).toNat)
          (by rw [length_levelUp]; omega : (levelUp hashNodes l).length = _)
          (by rw [← hh, toNat_shiftRight_one, hs, hfn]; omega)
      refine ⟨fn', sn', l', (if_neg hset).trans hsh, he, hlt', hl', ?_, ?_, ?_, ?_⟩
      · rw [hhe, treeHead_levelUp]
      · rw [ht, hfn, (splitAt_levelUp ..).1, treeHead_levelUp, hd]
      · rw [hp, hfn, consistencyProof, ← subproof_levelUp l (by omega) (by omega), hd,
          consistencyProof]
      · rw [isPowerOfTwo_even (by omega) (by omega), hh, hpow]

/-- A proof between trees of different sizes: the first node is the old hash for a
power of two, and the first of the proof's nodes otherwise. -/
theorem verifyConsistencyProof_iff [DecidableEq S] [DecidableEq H] (hm : 0 < m.toNat)
    (hlt : m.toNat < n.toNat) :
    verifyConsistencyProof hashNodes keyId ⟨keyId, nodes, m, n⟩ old new = true ↔
      ∃ first rest, (if isPowerOfTwo m = true then [old] else []) ++ nodes = first :: rest ∧
        verifyNodes hashNodes first rest m n old new = true := by
  have hgt : ¬ n < m := fun h => by
    have := UInt64.lt_iff_toNat_lt.mp h
    omega
  have hne : m ≠ n := fun h => by rw [h] at hlt; omega
  have hz : m ≠ 0 := (ne_zero_iff m).mpr (by omega)
  cases hpow : isPowerOfTwo m with
  | true => simp [verifyConsistencyProof, hgt, hne, hz, hpow]
  | false =>
    cases nodes with
    | nil | cons first rest => simp [verifyConsistencyProof, hgt, hne, hz, hpow]

theorem take_append_singleton {i : ℕ} {a : H} (h : l[i]? = some a) :
    l.take i ++ [a] = l.take (i + 1) := by
  rw [take_add_one, h]
  rfl

theorem verifyConsistencyProof_of_lt [DecidableEq S] [DecidableEq H]
    (hinj : Function.Injective2 hashNodes) (hlen : l.length = n.toNat) (hm : 0 < m.toNat)
    (hlt : m.toNat < n.toNat) (keyId : S) : verifyConsistencyProof hashNodes keyId
        ⟨keyId, consistencyProof hashNodes empty l m.toNat, m, n⟩
        (treeHead hashNodes empty (l.take m.toNat)) (treeHead hashNodes empty l) = true ∧
      ∀ nodes old, verifyConsistencyProof hashNodes keyId ⟨keyId, nodes, m, n⟩ old
          (treeHead hashNodes empty l) = true →
        old = treeHead hashNodes empty (l.take m.toNat) := by
  have hsub := toNat_sub_one hm
  have hsu : (n - 1).toNat = n.toNat - 1 := toNat_sub_one (by omega)
  have hadd : m.toNat - 1 + 1 = m.toNat := by omega
  obtain ⟨fn, sn, l', hs, he, hlt', hl', hh, ht, hp, hpow⟩ :=
    shiftWhileSet_spec hashNodes empty 64 (m - 1).toNat_lt (by omega : _ < (n - 1).toNat)
      (by omega : l.length = _)
  rw [hsub, hadd] at ht hp
  rw [UInt64.sub_add_cancel] at hpow
  -- the node that both walks start from
  obtain ⟨a, ha⟩ : ∃ a, l'[fn.toNat]? = some a :=
    ⟨_, getElem?_eq_getElem (by omega : fn.toNat < l'.length)⟩
  rw [← take_append_singleton ha] at ht
  constructor
  · refine (verifyConsistencyProof_iff hm hlt).mpr
      ⟨a, auditPath hashNodes empty l' fn.toNat, ?_, (verifyNodes_iff hs hlt'.le).mpr ?_⟩
    · rw [← hp, consistencyProof, subproof_eq_auditPath l' he (by omega) (by omega), ha]
      by_cases h : isPowerOfTwo m = true
      · have hfn := hpow.mp h
        simp [h, hfn, ← ht]
      · have hfn : fn.toNat ≠ 0 := fun h' => h (hpow.mpr h')
        simp [h, hfn]
    · rw [← ht, ← hh]
      exact climbsTwo_auditPath hl' ha a
  · intro nodes old h
    obtain ⟨first, rest, -, hn⟩ := (verifyConsistencyProof_iff hm hlt).mp h
    have hw := (verifyNodes_iff hs hlt'.le).mp hn
    have hget := ClimbsOne.getElem? hinj hh hw.snd hl'
    obtain rfl : a = first := Option.some.inj (ha.symm.trans hget)
    rw [← ht]
    exact (hw.treeHead_take hinj hh hl').symm

theorem logId_of_verifyConsistencyProof [DecidableEq S] [DecidableEq H]
    {proof : MerkleConsistencyProof S H}
    (h : verifyConsistencyProof hashNodes keyId proof old new = true) : keyId = proof.logId := by
  by_contra hne
  rw [verifyConsistencyProof, if_pos hne] at h
  cases h

/-- The proof of RFC 6962 is accepted, and no proof is for another older tree. -/
theorem verifyConsistencyProof_correct [DecidableEq S] [DecidableEq H]
    (hinj : Function.Injective2 hashNodes) (hashLeaf : D → H) (leaves : List D) (m n : UInt64)
    (hn : leaves.length = n.toNat) (hm : 0 < m) (hmn : m ≤ n) (keyId : S) :
    verifyConsistencyProof hashNodes keyId
        ⟨keyId, consistencyProof hashNodes empty (leaves.map hashLeaf) m.toNat, m, n⟩
        (treeHead hashNodes empty ((leaves.take m.toNat).map hashLeaf))
        (treeHead hashNodes empty (leaves.map hashLeaf)) = true ∧
      ∀ logId nodes oldTreeHash,
        verifyConsistencyProof hashNodes keyId ⟨logId, nodes, m, n⟩ oldTreeHash
            (treeHead hashNodes empty (leaves.map hashLeaf)) = true →
          oldTreeHash = treeHead hashNodes empty ((leaves.take m.toNat).map hashLeaf) := by
  rw [map_take]
  generalize hl : leaves.map hashLeaf = l
  have hlen : l.length = n.toNat := by rw [← hl, length_map, hn]
  rcases (UInt64.le_iff_toNat_le.mp hmn).eq_or_lt with heq | hlt
  · obtain rfl : m = n := UInt64.toNat_inj.mp heq
    rw [take_of_length_le hlen.le]
    constructor
    · simp [verifyConsistencyProof, consistencyProof, subproof_of_length_le (.inl hlen.le)]
    · intro logId nodes old h
      obtain rfl : keyId = logId := logId_of_verifyConsistencyProof h
      have hb : nodes = [] ∧ old = treeHead hashNodes empty l := by
        simpa [verifyConsistencyProof] using h
      exact hb.2
  · obtain ⟨hc, hs⟩ :=
      verifyConsistencyProof_of_lt hinj hlen (UInt64.lt_iff_toNat_lt.mp hm) hlt keyId
    refine ⟨hc, fun logId nodes old h => ?_⟩
    obtain rfl : keyId = logId := logId_of_verifyConsistencyProof h
    exact hs nodes old h

theorem verifyConsistencyProof_correct_three_of_five : verifyConsistencyProof Nat.pair ()
        ⟨(), consistencyProof Nat.pair 0 ([5, 6, 7, 8, 9].map id) (3 : UInt64).toNat, 3, 5⟩
        (treeHead Nat.pair 0 (([5, 6, 7, 8, 9].take (3 : UInt64).toNat).map id))
        (treeHead Nat.pair 0 ([5, 6, 7, 8, 9].map id)) = true ∧
      ∀ logId nodes oldTreeHash, verifyConsistencyProof Nat.pair () ⟨logId, nodes, 3, 5⟩ oldTreeHash
            (treeHead Nat.pair 0 ([5, 6, 7, 8, 9].map id)) = true →
          oldTreeHash = treeHead Nat.pair 0 (([5, 6, 7, 8, 9].take (3 : UInt64).toNat).map id) :=
  verifyConsistencyProof_correct (fun _ _ _ _ h => Nat.pair_eq_pair.mp h) id [5, 6, 7, 8, 9] 3 5
    rfl (by decide) (by decide) ()

section Chain

variable [DecidableEq S] [DecidableEq H] {a b : UInt64 × H}

/-- A tree, as a size and a head, leads to another one by an accepted proof. -/
def Extends (hashNodes : H → H → H) (keyId : S) (old new : UInt64 × H) : Prop :=
  ∃ logId nodes,
    verifyConsistencyProof hashNodes keyId ⟨logId, nodes, old.1, new.1⟩ old.2 new.2 = true

theorem Extends.le (h : Extends hashNodes keyId a b) : a.1.toNat ≤ b.1.toNat := by
  obtain ⟨logId, nodes, h⟩ := h
  by_contra hgt
  simp [verifyConsistencyProof, UInt64.lt_iff_toNat_lt.mpr (not_le.mp hgt)] at h

/-- An accepted proof leads from a head to that of a beginning of the leaves. -/
theorem Extends.eq_treeHead (h : Extends hashNodes keyId a b)
    (hinj : Function.Injective2 hashNodes) (ha : 0 < a.1.toNat) (hl : l.length = b.1.toNat)
    (hb : b.2 = treeHead hashNodes empty l) :
    a.2 = treeHead hashNodes empty (l.take a.1.toNat) := by
  have hle := h.le
  obtain ⟨logId, nodes, h⟩ := h
  obtain rfl : keyId = logId := logId_of_verifyConsistencyProof h
  rw [hb] at h
  rcases hle.eq_or_lt with heq | hlt
  · rw [UInt64.toNat_inj.mp heq] at h ⊢
    have hold : nodes = [] ∧ a.2 = treeHead hashNodes empty l := by
      simpa [verifyConsistencyProof] using h
    rw [take_of_length_le hl.le, hold.2]
  · exact (verifyConsistencyProof_of_lt hinj hl ha hlt keyId).2 nodes a.2 h

/-- Along any number of accepted proofs, the head of an old tree stays that of the first
leaves of the newest one, so that the log has only been appended to. -/
theorem extends_run (hinj : Function.Injective2 hashNodes) (hashLeaf : D → H) (leaves : List D)
    (old new : UInt64 × H) (hrun : Relation.ReflTransGen (Extends hashNodes keyId) old new)
    (hold : 0 < old.1.toNat) (hlen : leaves.length = new.1.toNat)
    (hnew : new.2 = treeHead hashNodes empty (leaves.map hashLeaf)) :
    old.1.toNat ≤ new.1.toNat ∧
      old.2 = treeHead hashNodes empty ((leaves.take old.1.toNat).map hashLeaf) := by
  have hl : (leaves.map hashLeaf).length = new.1.toNat := by rw [length_map, hlen]
  rw [map_take]
  induction hrun using Relation.ReflTransGen.head_induction_on with
  | refl => exact ⟨le_rfl, by rw [hnew, take_of_length_le hl.le]⟩
  | head hs _ ih =>
    obtain ⟨hle, hc⟩ := ih (hold.trans_le hs.le)
    have ht := hs.eq_treeHead hinj hold (by rw [length_take]; omega) hc
    rw [take_take, min_eq_left hs.le] at ht
    exact ⟨hs.le.trans hle, ht⟩

theorem extends_run_three : 5 = treeHead Nat.pair 0 ([5].map id) := by
  have h₁ : Extends Nat.pair () (1, 5) (2, 41) := ⟨(), [6], by decide⟩
  have h₂ : Extends Nat.pair () (2, 41) (3, 1729) := ⟨(), [7], by decide⟩
  have hh : treeHead Nat.pair 0 [5, 6, 7] = 1729 :=
    (treeHead_levelUp _).symm.trans (treeHead_pair 41 7)
  exact (extends_run (fun _ _ _ _ h => Nat.pair_eq_pair.mp h) id [5, 6, 7] _ _
    (.head h₁ (.single h₂)) (by decide) rfl hh.symm).2

end Chain

end Proofs

end ChromiumBase.Ct
