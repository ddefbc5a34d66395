import ChromiumBase.Net.DiskCache.Blockfile.BlockHeader

/-!
# The entries of a block file

What `CreateMapBlock`, `DeleteMapBlock` and the growth of the file do to the bits of the
allocation map, and from that the invariant of a block file: the bits are those of the entries
that are there, and the counters those of the free runs.
-/

open Function List

namespace ChromiumBase.DiskCache

open FreeRun BlockFileHeader

def used (h : BlockFileHeader) (b : ℕ) : Bool := (h.allocationMap (b / 32)).getLsbD (b % 32)

def endRun (h : BlockFileHeader) (g : ℕ) : ℕ := freeEnd (used h) (4 * g) 4

theorem endRun_le (h : BlockFileHeader) (g : ℕ) : endRun h g ≤ 4 := freeEnd_le _ _ _

theorem getMapBlockType_eq (v : ℕ) : getMapBlockType v = freeEnd v.testBit 0 4 := by
  have ht : ∀ x : Fin 16, sTypes.getD x 0 = freeEnd x.val.testBit 0 4 := by decide
  have hmod : v &&& 0xf = v % 16 := Nat.and_two_pow_sub_one_eq_mod v 4
  unfold getMapBlockType
  rw [hmod, ht ⟨v % 16, Nat.mod_lt _ (by omega)⟩]
  apply freeEnd_congr
  intro i hi
  have hbit := Nat.testBit_mod_two_pow v 4 (0 + i)
  simpa [hi] using hbit

variable {g c j size i k n t current index v w : ℕ} {h h' : BlockFileHeader}

theorem getMapBlockType_of_bits (hb : ∀ i < 4, v.testBit i = used h (4 * g + i)) :
    getMapBlockType v = endRun h g := by
  rw [getMapBlockType_eq]
  exact freeEnd_congr fun i hi => by rw [Nat.zero_add]; exact hb i hi

theorem getMapBlockType_word (h : BlockFileHeader) (hj : j < 8) :
    getMapBlockType (h.allocationMap c >>> (4 * j)).toNat = endRun h (8 * c + j) := by
  apply getMapBlockType_of_bits
  intro i hi
  have hdiv : (4 * (8 * c + j) + i) / 32 = c := by omega
  have hmod : (4 * (8 * c + j) + i) % 32 = 4 * j + i := by omega
  rw [used, hdiv, hmod, BitVec.testBit_toNat, BitVec.getLsbD_ushiftRight]

theorem mask_toNat (hsi : size < w) : ((1#w <<< size) - 1#w).toNat = 2 ^ size - 1 := by
  have hlt : 2 ^ size < 2 ^ w := Nat.pow_lt_pow_right (by omega) hsi
  have hpos : 0 < 2 ^ size := Nat.two_pow_pos size
  have hone : (1#w).toNat = 1 := by
    rw [BitVec.toNat_ofNat, Nat.mod_eq_of_lt (by omega)]
  have hs : (1#w <<< size).toNat = 2 ^ size := by
    rw [BitVec.toNat_shiftLeft, hone, Nat.shiftLeft_eq, Nat.one_mul, Nat.mod_eq_of_lt hlt]
  rw [BitVec.toNat_sub_of_le, hs, hone]
  rw [BitVec.le_def, hs, hone]
  omega

theorem getLsbD_mask (hs : size < w := by omega) (hi : i < w := by omega) :
    (((1#w <<< size) - 1#w) <<< k).getLsbD i = decide (k ≤ i ∧ i < k + size) := by
  rw [BitVec.getLsbD_shiftLeft, BitVec.getLsbD, mask_toNat hs, Nat.testBit_two_pow_sub_one]
  by_cases hk : i < k
  · simp [hk]
  · have : (i - k < size) ↔ i < k + size := by omega
    simp [hk, hi, this]
    omega

theorem used_setBits (hfit : k + size ≤ 32) (hs : size ≤ 4)
    (hmap : h'.allocationMap = update h.allocationMap c
      (h.allocationMap c ||| ((1#32 <<< size) - 1#32) <<< k)) (b : ℕ) :
    used h' b = (used h b || decide (c * 32 + k ≤ b ∧ b < c * 32 + k + size)) := by
  unfold used
  rw [hmap]
  by_cases hc : b / 32 = c
  · subst hc
    rw [update_self, BitVec.getLsbD_or, getLsbD_mask]
    congr 2
    exact propext (by omega)
  · rw [update_of_ne hc]
    have hout : ¬ (c * 32 + k ≤ b ∧ b < c * 32 + k + size) := by omega
    simp [hout]

theorem getLsbD_byteMap (h : BlockFileHeader) (hi : i < 8 := by omega) :
    (h.byteMap k).getLsbD i = used h (8 * k + i) := by
  have hdiv : (8 * k + i) / 32 = k / 4 := by omega
  have hmod : (8 * k + i) % 32 = 8 * (k % 4) + i := by omega
  rw [byteMap, BitVec.getLsbD_extractLsb', used, hdiv, hmod]
  simp [hi]

theorem getLsbD_setByte (word : BitVec 32) (byte : BitVec 8) (hi : i < 32) :
    (setByte word n byte).getLsbD i =
      if i / 8 = n then byte.getLsbD (i % 8) else word.getLsbD i := by
  have hff : (0xff#32 : BitVec 32) = (1#32 <<< 8) - 1#32 := rfl
  rw [setByte, BitVec.getLsbD_or, BitVec.getLsbD_and, BitVec.getLsbD_not, hff,
    getLsbD_mask, BitVec.getLsbD_shiftLeft, BitVec.getLsbD_setWidth]
  by_cases hin : i / 8 = n
  · have h₁ : 8 * n ≤ i ∧ i < 8 * n + 8 := by omega
    have h₂ : i - 8 * n = i % 8 := by omega
    have h₃ : ¬ i < 8 * n := by omega
    simp [hin, hi, h₁, h₂, h₃]
    omega
  · have h₁ : ¬ (8 * n ≤ i ∧ i < 8 * n + 8) := by omega
    rw [if_neg hin]
    simp only [h₁, hi]
    by_cases hlt : i < 8 * n
    · simp [hlt]
    · have : byte.getLsbD (i - 8 * n) = false := BitVec.getLsbD_of_ge _ _ (by omega)
      simp [this]

theorem used_setByteMap (h : BlockFileHeader) (k b : ℕ) (byte : BitVec 8) :
    used (h.setByteMap k byte) b = if b / 8 = k then byte.getLsbD (b % 8) else used h b := by
  unfold used setByteMap
  by_cases hw : b / 32 = k / 4
  · simp only [hw, update_self]
    rw [getLsbD_setByte _ _ (by omega)]
    have hmod : b % 32 % 8 = b % 8 := by omega
    have hiff : b % 32 / 8 = k % 4 ↔ b / 8 = k := by omega
    rw [hmod]
    simp only [hiff]
  · have hne : b / 8 ≠ k := by omega
    simp only [update_of_ne hw, if_neg hne]

theorem findNibble_eq_some (hf : findNibble (h.allocationMap c) t = some j) :
    j < 8 ∧ endRun h (8 * c + j) = t := by
  have hj : j < 8 := mem_range.mp (mem_of_find?_eq_some hf)
  have ht := find?_some hf
  rw [decide_eq_true_eq, getMapBlockType_word h hj] at ht
  exact ⟨hj, ht⟩

theorem findNibble_eq_none (hf : findNibble (h.allocationMap c) t = none)
    (hj : j < 8) : endRun h (8 * c + j) ≠ t := by
  have hno := find?_eq_none.mp hf j (mem_range.mpr hj)
  rwa [decide_eq_true_eq, getMapBlockType_word h hj] at hno

/-- The group found has the type that is looked for. -/
theorem findGroup_eq_some (hf : h.findGroup t n current = some (c, j))
    (hpos : 0 < h.maxEntries / 32) (hcur : current ≤ h.maxEntries / 32) :
    c < h.maxEntries / 32 ∧ j < 8 ∧ endRun h (8 * c + j) = t := by
  induction n generalizing current with
  | zero => cases hf
  | succ n ih =>
    rw [findGroup] at hf
    have hlt : (if current = h.maxEntries / 32 then 0 else current) < h.maxEntries / 32 := by
      split <;> omega
    split at hf
    case h_1 _ hnib =>
      cases hf
      exact ⟨hlt, findNibble_eq_some hnib⟩
    case h_2 => exact ih hf (by omega)

/-- The walk that found nothing has looked at the words one after the other, in the order of
their numbers modulo the size of the map. -/
theorem findGroup_eq_none (hf : h.findGroup t n current = none) (hpos : 0 < h.maxEntries / 32)
    (hcur : current ≤ h.maxEntries / 32) (hk : k < n) (hj : j < 8) :
    endRun h (8 * ((current + k) % (h.maxEntries / 32)) + j) ≠ t := by
  induction n generalizing current k with
  | zero => omega
  | succ n ih =>
    rw [findGroup] at hf
    have hs : (if current = h.maxEntries / 32 then 0 else current) =
        current % (h.maxEntries / 32) := by
      split
      case isTrue heq => rw [heq, Nat.mod_self]
      case isFalse => rw [Nat.mod_eq_of_lt (by omega)]
    rw [hs] at hf
    have hlt : current % (h.maxEntries / 32) < h.maxEntries / 32 := Nat.mod_lt _ hpos
    split at hf
    case h_1 => cases hf
    case h_2 hnib =>
      cases k with
      | zero => exact findNibble_eq_none hnib hj
      | succ k =>
        have hmod : (current + (k + 1)) % (h.maxEntries / 32) =
            (current % (h.maxEntries / 32) + 1 + k) % (h.maxEntries / 32) := by
          rw [Nat.add_assoc, Nat.mod_add_mod, Nat.add_comm 1 k]
        rw [hmod]
        exact ih hf hlt (by omega)

/-- The walk goes over all words, wherever it starts. -/
theorem findGroup_complete (hf : h.findGroup t (h.maxEntries / 32) current = none)
    (hcur : current ≤ h.maxEntries / 32) (hg : g < h.maxEntries / 32 * 8) : endRun h g ≠ t := by
  have hpos : 0 < h.maxEntries / 32 := by omega
  have hw : g / 8 < h.maxEntries / 32 := by omega
  have hs : current % (h.maxEntries / 32) < h.maxEntries / 32 := Nat.mod_lt _ hpos
  -- the number of steps after which the walk reaches the word of the group
  obtain ⟨k, hk, hr⟩ : ∃ k < h.maxEntries / 32,
      (current % (h.maxEntries / 32) + k) % (h.maxEntries / 32) = g / 8 := by
    by_cases hle : current % (h.maxEntries / 32) ≤ g / 8
    · refine ⟨g / 8 - current % (h.maxEntries / 32), by omega, ?_⟩
      rw [Nat.add_sub_cancel' hle, Nat.mod_eq_of_lt hw]
    · refine ⟨g / 8 + h.maxEntries / 32 - current % (h.maxEntries / 32), by omega, ?_⟩
      rw [Nat.add_sub_cancel' (by omega), Nat.add_mod_right, Nat.mod_eq_of_lt hw]
  have hne := findGroup_eq_none hf hpos hcur hk (Nat.mod_lt g (by omega : 0 < 8))
  rw [Nat.mod_add_mod] at hr
  rwa [hr, Nat.div_add_mod] at hne

theorem endRun_congr (hu : ∀ i < 4, used h' (4 * g + i) = used h (4 * g + i)) :
    endRun h' g = endRun h g :=
  freeEnd_congr hu

/-- One group of blocks changes, and the counters with it. -/
structure ChangesGroup (h h' : BlockFileHeader) (g : ℕ) : Prop where
  nextFile : h'.nextFile = h.nextFile
  maxEntries : h'.maxEntries = h.maxEntries
  others : ∀ k, k ≠ g → endRun h' k = endRun h k
  empty : ∀ v, 1 ≤ v → v ≤ 4 → h'.empty (v - 1) + (if endRun h g = v then 1 else 0) =
    h.empty (v - 1) + if endRun h' g = v then 1 else 0

theorem update_add (f : ℕ → ℤ) (k x : ℕ) (c : ℤ) :
    update f k (f k + c) x = f x + if x = k then c else 0 := by
  by_cases hx : x = k
  · subst hx
    simp
  · simp [hx]

theorem targetFor_eq_some (ht : h.targetFor size = some t) :
    size ≤ t ∧ t ≤ 4 ∧ h.empty (t - 1) ≠ 0 := by
  have hmem := mem_range'_1.mp (mem_of_find?_eq_some ht)
  have hne := find?_some ht
  have hmax : kMaxNumBlocks = 4 := rfl
  refine ⟨hmem.1, by omega, by simpa using hne⟩

theorem targetFor_eq_none (hta : h.targetFor size = none) (hle : size ≤ t) (ht : t ≤ 4) :
    h.empty (t - 1) = 0 := by
  have hmax : kMaxNumBlocks = 4 := rfl
  have hmem : t ∈ List.range' size (kMaxNumBlocks + 1 - size) :=
    mem_range'_1.mpr ⟨hle, by omega⟩
  simpa using find?_eq_none.mp hta t hmem

/-- An allocation takes free blocks at the end of a group, and changes no other block. -/
theorem createMapBlock_eq_some (hs : 1 ≤ size) (hhi : ∀ t, h.hints t ≤ h.maxEntries / 32)
    (hcr : h.createMapBlock size = (h', some index)) :
    ∃ g < h.maxEntries / 32 * 8, size ≤ endRun h g ∧ index = 4 * g + (4 - endRun h g) ∧
      (∀ b, used h' b = (used h b || decide (index ≤ b ∧ b < index + size))) ∧
      h'.numEntries = h.numEntries + 1 ∧ (∀ t, h'.hints t ≤ h.maxEntries / 32) ∧
      ChangesGroup h h' g := by
  unfold createMapBlock at hcr
  split at hcr
  case h_1 => simp at hcr
  case h_2 t hta =>
  split at hcr
  case h_1 => simp at hcr
  case h_2 c j hf =>
  obtain ⟨hle, ht, hne⟩ := targetFor_eq_some hta
  have hpos : 0 < h.maxEntries / 32 := by
    by_contra hz
    rw [show h.maxEntries / 32 = 0 by omega] at hf
    cases hf
  obtain ⟨hc, hj, hrun⟩ := findGroup_eq_some hf hpos (hhi _)
  simp only [Prod.mk.injEq, Option.some.injEq] at hcr
  obtain ⟨hh, hin⟩ := hcr
  have hu : ∀ b, used h' b = (used h b || decide (index ≤ b ∧ b < index + size)) := by
    intro b
    rw [← hin]
    exact used_setBits (by omega) (by omega) (by rw [← hh]) b
  have hfi : endRun h' (8 * c + j) = endRun h (8 * c + j) - size := by
    refine freeEnd_fill hs (le_of_le_of_eq hle hrun.symm) fun i hi => ?_
    rw [hu, show freeEnd (used h) (4 * (8 * c + j)) 4 = t from hrun]
    congr 2
    exact propext (by omega)
  refine ⟨8 * c + j, by omega, by omega, by omega, hu, by rw [← hh], fun k => ?_, ?_⟩
  · rw [← hh]
    dsimp only
    by_cases hk : k = t - 1
    · subst hk
      rw [update_self]
      omega
    · rw [update_of_ne hk]
      exact hhi k
  · refine ⟨by rw [← hh], by rw [← hh], fun k hk => endRun_congr fun i hi => ?_, fun v h₁ h₂ => ?_⟩
    · have hout : ¬ (index ≤ 4 * k + i ∧ 4 * k + i < index + size) := by omega
      rw [hu, decide_eq_false hout, Bool.or_false]
    · rw [hfi, hrun, ← hh]
      dsimp only
      by_cases heq : t = size
      · rw [if_neg (not_not.mpr heq), sub_eq_add_neg, update_add]
        split_ifs <;> omega
      · rw [if_pos heq, update_add, sub_eq_add_neg, update_add]
        split_ifs <;> omega

theorem getLsbD_nibble (h : BlockFileHeader) (index : ℕ) (hi : i < 4) :
    (if 4 ≤ index % 8 then h.byteMap (index / 8) >>> 4 else h.byteMap (index / 8)).getLsbD i =
      used h (4 * (index / 4) + i) := by
  split
  case isTrue hle =>
    rw [BitVec.getLsbD_ushiftRight, getLsbD_byteMap h]
    congr 1
    omega
  case isFalse hlt =>
    rw [getLsbD_byteMap h]
    congr 1
    omega

theorem and_endMask_eq_zero_iff {x : BitVec 8} :
    x &&& ((0xf#8 <<< k) &&& 0xf#8) = 0 ↔ ∀ i, k ≤ i → i < 4 → x.getLsbD i = false := by
  have hf : (0xf#8 : BitVec 8) = (1#8 <<< 4) - 1#8 := rfl
  have hlow : ∀ i < 8, (0xf#8 : BitVec 8).getLsbD i = decide (i < 4) := by
    intro i hi
    have := getLsbD_mask (w := 8) (k := 0) (show 4 < 8 by omega) hi
    simpa using this
  have hm : ∀ i < 8, ((0xf#8 <<< k) &&& 0xf#8 : BitVec 8).getLsbD i =
      decide (k ≤ i ∧ i < 4) := by
    intro i hi
    have hs : (0xf#8 <<< k : BitVec 8).getLsbD i = decide (k ≤ i ∧ i < k + 4) := by
      rw [hf]
      exact getLsbD_mask
    rw [BitVec.getLsbD_and, hs, hlow i hi, ← Bool.decide_and]
    congr 1
    exact propext (by omega)
  refine BitVec.zero_iff_eq_false.trans ⟨?_, ?_⟩
  · intro hz i h₁ h₂
    have := hz i
    rw [BitVec.getLsbD_and, hm i (by omega), decide_eq_true ⟨h₁, h₂⟩, Bool.and_true] at this
    exact this
  · intro hc i
    rw [BitVec.getLsbD_and]
    by_cases hi : i < 8
    · rw [hm i hi]
      by_cases hin : k ≤ i ∧ i < 4
      · rw [hc i hin.1 hin.2, Bool.false_and]
      · rw [decide_eq_false hin, Bool.and_false]
    · rw [BitVec.getLsbD_of_ge x i (by omega), Bool.false_and]


section

variable (hin : index % 4 + size ≤ 4)

include hin

/-- A deletion frees the blocks of the entry. -/
theorem used_deleteMapBlock (b : ℕ) : used (h.deleteMapBlock index size) b =
      (used h b && !decide (index ≤ b ∧ b < index + size)) := by
  have hmax : kMaxNumBlocks = 4 := rfl
  have hmap : (h.deleteMapBlock index size).allocationMap = (h.setByteMap (index / 8)
      (h.byteMap (index / 8) &&& ~~~(((1#8 <<< size) - 1#8) <<< (index % 8)))).allocationMap := by
    rw [deleteMapBlock, if_neg (by omega)]
  have hset := used_setByteMap h (index / 8) b
  unfold used at hset ⊢
  rw [hmap, hset]
  by_cases hb : b / 8 = index / 8
  · have hsum : 8 * (index / 8) + b % 8 = b := by omega
    rw [if_pos hb, BitVec.getLsbD_and, BitVec.getLsbD_not, getLsbD_byteMap h, hsum,
      getLsbD_mask, decide_eq_true (by omega : b % 8 < 8), Bool.true_and,
      used]
    congr 3
    exact propext (by omega)
  · have hout : ¬ (index ≤ b ∧ b < index + size) := by omega
    rw [if_neg hb, decide_eq_false hout, Bool.not_false, Bool.and_true]

theorem used_deleteMapBlock_group (_ : j < 4) :
    used (h.deleteMapBlock index size) (4 * (index / 4) + j) =
      (used h (4 * (index / 4) + j) && !decide (index % 4 ≤ j ∧ j < index % 4 + size)) := by
  rw [used_deleteMapBlock hin]
  congr 3
  exact propext (by omega)

theorem getMapBlockType_deleteMapBlock :
    getMapBlockType ((if 4 ≤ index % 8 then h.byteMap (index / 8) >>> 4
        else h.byteMap (index / 8)) &&& ~~~(((1#8 <<< size) - 1#8) <<< (index % 4))).toNat =
      endRun (h.deleteMapBlock index size) (index / 4) := by
  apply getMapBlockType_of_bits
  intro i hi
  rw [BitVec.testBit_toNat, BitVec.getLsbD_and, getLsbD_nibble h index hi,
    BitVec.getLsbD_not, getLsbD_mask,
    decide_eq_true (by omega : i < 8), Bool.true_and, used_deleteMapBlock_group hin hi]

end

/-- The counters follow the change of the group. -/
theorem deleteMapBlock_empty (hsi : 1 ≤ size) (hin : index % 4 + size ≤ 4)
    (hus : used h (index + size - 1) = true) (h₁ : 1 ≤ v) (h₂ : v ≤ 4) :
    (h.deleteMapBlock index size).empty (v - 1) + (if endRun h (index / 4) = v then 1 else 0) =
      h.empty (v - 1) + if endRun (h.deleteMapBlock index size) (index / 4) = v then 1 else 0 := by
  have hmax : kMaxNumBlocks = 4 := rfl
  have hb : 4 - (4 - size - index % 4) = index % 4 + size := by omega
  have hc := fun j (hj : j < 4) => used_deleteMapBlock_group (h := h) hin hj
  have hl : used h (4 * (index / 4) + (index % 4 + size - 1)) = true := by
    rwa [show 4 * (index / 4) + (index % 4 + size - 1) = index + size - 1 by omega]
  have hiff := and_endMask_eq_zero_iff (k := index % 4 + size)
    (x := if 4 ≤ index % 8 then h.byteMap (index / 8) >>> 4 else h.byteMap (index / 8))
  by_cases hf : ∀ i, index % 4 + size ≤ i → i < 4 → used h (4 * (index / 4) + i) = false
  · have hz := hiff.mpr fun i hi hi' => by rw [getLsbD_nibble h index hi']; exact hf i hi hi'
    obtain ⟨hold, hnew⟩ := freeEnd_clear_of_free (by omega) (by omega) hc hf hl
    have hnew' : 4 - index % 4 ≤ endRun (h.deleteMapBlock index size) (index / 4) := hnew
    have hold' : endRun h (index / 4) = 4 - (index % 4 + size) := hold
    rw [← getMapBlockType_deleteMapBlock hin] at hnew'
    rw [hold', ← getMapBlockType_deleteMapBlock hin]
    rw [deleteMapBlock, if_neg (by omega)]
    dsimp only
    rw [hb, if_pos hz, update_add]
    generalize getMapBlockType _ = run at hnew' ⊢
    by_cases hend : 4 - size - index % 4 = 0
    · rw [if_neg (not_not.mpr hend)]
      split_ifs <;> omega
    · rw [if_pos hend, sub_eq_add_neg, update_add]
      split_ifs <;> omega
  · have hne := mt hiff.mp fun hall => hf fun i hi hi' => by
      rw [← getLsbD_nibble h index hi']
      exact hall i hi hi'
    push Not at hf
    obtain ⟨j, hj, hj', hu⟩ := hf
    have hs : endRun (h.deleteMapBlock index size) (index / 4) = endRun h (index / 4) :=
      freeEnd_clear_of_used hc ⟨hj, hj'⟩ (by simpa using hu)
    have he : (h.deleteMapBlock index size).empty = h.empty := by
      rw [deleteMapBlock, if_neg (by omega)]
      dsimp only
      rw [hb, if_neg hne]
    rw [hs, he]

theorem deleteMapBlock_changesGroup (hs : 1 ≤ size) (hin : index % 4 + size ≤ 4)
    (hu : used h (index + size - 1) = true) :
    ChangesGroup h (h.deleteMapBlock index size) (index / 4) := by
  have hmax : kMaxNumBlocks = 4 := rfl
  have hle : ¬ kMaxNumBlocks < size := by omega
  refine ⟨by rw [deleteMapBlock, if_neg hle]; rfl,
    by rw [deleteMapBlock, if_neg hle]; rfl,
    fun k hk => endRun_congr fun i hi => ?_, fun v h₁ h₂ =>
      deleteMapBlock_empty hs hin hu h₁ h₂⟩
  have hout : ¬ (index ≤ 4 * k + i ∧ 4 * k + i < index + size) := by omega
  rw [used_deleteMapBlock hin, decide_eq_false hout, Bool.not_false, Bool.and_true]

end ChromiumBase.DiskCache
