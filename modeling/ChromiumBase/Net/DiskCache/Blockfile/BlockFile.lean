import Mathlib.Data.List.Pairwise
import ChromiumBase.Net.DiskCache.Blockfile.BlockAllocation

/-!
# Runs of a block file

A block file together with the entries that are in it.  Entries are added and removed and the
file grows; in every state that is reached the header describes exactly these entries.
-/

open List

namespace ChromiumBase.DiskCache

open FreeRun BlockFileHeader

/-- The header of a file and its live entries, each with its first block and its length. -/
structure BlockFile where
  header : BlockFileHeader
  live : List (ℕ × ℕ)

namespace BlockFile

def Covers (p : ℕ × ℕ) (b : ℕ) : Prop := p.1 ≤ b ∧ b < p.1 + p.2

def Apart (p q : ℕ × ℕ) : Prop := ∀ b, Covers p b → ¬ Covers q b

instance : Std.Symm Apart := ⟨fun _ _ h b hq hp => h b hp hq⟩

/-- One operation on a file.  The assertions of the source are conditions of the steps: an
entry has one to four blocks, and a file grows when it has no free group.  If the length of the
file cannot be set, `GrowBlockFile` repairs the header of the file as it is. -/
inductive Step : BlockFile → BlockFile → Prop
  | create {f : BlockFile} {h' : BlockFileHeader} {size index : ℕ} (hsize : 1 ≤ size)
      (hmax : size ≤ kMaxNumBlocks)
      (hcreate : f.header.createMapBlock size = (h', some index)) :
      Step f ⟨h', (index, size) :: f.live⟩
  | createFails {f : BlockFile} {h' : BlockFileHeader} {size : ℕ} (hsize : 1 ≤ size)
      (hmax : size ≤ kMaxNumBlocks) (hcreate : f.header.createMapBlock size = (h', none)) :
      Step f ⟨h', f.live⟩
  | delete {f : BlockFile} {index size : ℕ} (hlive : (index, size) ∈ f.live) :
      Step f ⟨f.header.deleteMapBlock index size, f.live.erase (index, size)⟩
  | grow {f : BlockFile} (hempty : f.header.empty 3 = 0) :
      Step f ⟨f.header.growBlockFile, f.live⟩
  | growFails {f : BlockFile} {h' : BlockFileHeader} {entrySize : ℕ}
      (hfix : f.header.fixBlockFileHeader entrySize
        (entrySize * f.header.maxEntries + kBlockHeaderSize) = some h') : Step f ⟨h', f.live⟩
  | fileForNewBlock {f : BlockFile} {blockCount : ℕ} {newFile : ℤ}
      (hmax : blockCount ≤ kMaxNumBlocks) :
      Step f ⟨f.header.fileForNewBlock blockCount newFile, f.live⟩

def new : BlockFile := ⟨BlockFileHeader.new, []⟩

structure Consistent (f : BlockFile) : Prop where
  size : ∀ p ∈ f.live, 1 ≤ p.2
  group : ∀ p ∈ f.live, p.1 % 4 + p.2 ≤ 4
  inside : ∀ p ∈ f.live, p.1 + p.2 ≤ f.header.maxEntries
  disjoint : f.live.Pairwise Apart
  bits : ∀ b, used f.header b = true ↔ ∃ p ∈ f.live, Covers p b
  numEntries : f.header.numEntries = f.live.length
  empty : ∀ t, 1 ≤ t → t ≤ 4 →
    f.header.empty (t - 1) = tally (endRun f.header) t (f.header.maxEntries / 4)
  hints : ∀ t, f.header.hints t ≤ f.header.maxEntries / 32
  words : f.header.maxEntries % 32 = 0
  le : f.header.maxEntries ≤ kMaxBlocks
  full : f.header.nextFile ≠ 0 → f.header.maxEntries = kMaxBlocks

variable {f : BlockFile} {h h' : BlockFileHeader} {size index blockCount g : ℕ}

theorem fixAllocationCounters_empty (hw : h.maxEntries % 32 = 0) (t : ℕ) :
    h.fixAllocationCounters.empty t = tally (endRun h) (t + 1) (h.maxEntries / 4) := by
  have hN : h.maxEntries / 32 * 8 = h.maxEntries / 4 := by omega
  rw [fixAllocationCounters, hN, tally, Nat.count_eq_card_filter_range]
  refine congrArg (fun l : List ℕ => (l.length : ℤ)) (filter_congr fun g _ => ?_)
  rw [getMapBlockType_word h (Nat.mod_lt g (by omega)), Nat.div_add_mod]

theorem fixAllocationCounters_emptyBlocks (hw : h.maxEntries % 32 = 0) :
    h.fixAllocationCounters.emptyBlocks = (tally (endRun h) 1 (h.maxEntries / 4) +
      tally (endRun h) 2 (h.maxEntries / 4) * 2 + tally (endRun h) 3 (h.maxEntries / 4) * 3 +
      tally (endRun h) 4 (h.maxEntries / 4) * 4 : ℕ) := by
  simp only [emptyBlocks, fixAllocationCounters_empty hw, Nat.reduceAdd]
  rw [if_neg (by simp)]
  omega

theorem fixCounters_eq_some (hw : h.maxEntries % 32 = 0) (hle : h.maxEntries ≤ kMaxBlocks)
    (hn : 0 ≤ h.numEntries) : ∃ k, 0 ≤ k ∧ k ≤ h.numEntries ∧
      (h.fixAllocationCounters.emptyBlocks + h.numEntries ≤ h.maxEntries → k = h.numEntries) ∧
      h.fixCounters = some { h.fixAllocationCounters with numEntries := k } := by
  have hta := tally_le (endRun h) (h.maxEntries / 4)
  have hb := fixAllocationCounters_emptyBlocks hw
  have hmax : h.fixAllocationCounters.maxEntries = h.maxEntries := rfl
  have hnum : h.fixAllocationCounters.numEntries = h.numEntries := rfl
  have hsum {k : ℤ} (hk : 0 ≤ k) (hlt : h.fixAllocationCounters.emptyBlocks + k ≤ h.maxEntries) :
      (h.fixAllocationCounters.emptyBlocks + k).bmod (2 ^ 32) =
        h.fixAllocationCounters.emptyBlocks + k := by
    have hblocks : kMaxBlocks = 64896 := rfl
    exact Int.bmod_eq_of_le (by omega) (by omega)
  simp only [fixCounters]
  by_cases hlt : h.fixAllocationCounters.maxEntries < h.fixAllocationCounters.countedBlocks
  · have hgt : (h.maxEntries : ℤ) < h.fixAllocationCounters.emptyBlocks + h.numEntries := by
      by_contra hle
      rw [countedBlocks, hnum, hsum hn (not_lt.mp hle)] at hlt
      exact hle hlt
    have hk : 0 ≤ (h.maxEntries : ℤ) - h.fixAllocationCounters.emptyBlocks := by omega
    have hcount : ((h.fixAllocationCounters.emptyBlocks +
        (h.maxEntries - h.fixAllocationCounters.emptyBlocks)).bmod (2 ^ 32) : ℤ) ≤
          h.maxEntries := by
      rw [hsum hk (by omega)]
      omega
    rw [if_pos hlt]
    exact ⟨_, hk, by omega, fun hle => absurd hle (not_le.mpr hgt),
      if_pos (decide_eq_true ⟨hle, hk, hcount⟩)⟩
  · rw [if_neg hlt]
    exact ⟨_, hn, le_rfl, fun _ => rfl, if_pos (decide_eq_true ⟨hle, hn, not_lt.mp hlt⟩)⟩

theorem consistent_new : Consistent new where
  size := by simp [new]
  group := by simp [new]
  inside := by simp [new]
  disjoint := by simp [new]
  bits b := by simp [new, used, BlockFileHeader.new]
  numEntries := rfl
  empty t _ _ := rfl
  hints t := le_rfl
  words := rfl
  le := Nat.zero_le _
  full h := absurd rfl h

namespace Consistent

variable (hf : Consistent f)

include hf

theorem empty_of_changesGroup (hg : g < f.header.maxEntries / 4) (hc : ChangesGroup f.header h' g)
    (t : ℕ) (h₁ : 1 ≤ t) (h₂ : t ≤ 4) :
    h'.empty (t - 1) = tally (endRun h') t (h'.maxEntries / 4) := by
  have hco := hc.empty t h₁ h₂
  have ht := tally_change (v := t) hg fun k _ hk => hc.others k hk
  rw [hf.empty t h₁ h₂] at hco
  rw [hc.maxEntries]
  split_ifs at hco ht <;> omega

theorem endRun_ne_of_empty {t : ℕ} (h₁ : 1 ≤ t) (h₂ : t ≤ 4) (hz : f.header.empty (t - 1) = 0)
    (hg : g < f.header.maxEntries / 4) : endRun f.header g ≠ t := by
  intro hrun
  have hpos : 0 < tally (endRun f.header) t (f.header.maxEntries / 4) :=
    tally_pos_iff.mpr ⟨g, hg, hrun⟩
  rw [hf.empty t h₁ h₂] at hz
  omega

/-- An allocation fails only if no group has room. -/
theorem createMapBlock_eq_none (hs : 1 ≤ size) (hc : f.header.createMapBlock size = (h', none)) :
    h' = f.header ∧ ∀ g < f.header.maxEntries / 4, endRun f.header g < size := by
  have hw := hf.words
  unfold createMapBlock at hc
  split at hc
  case h_1 hta =>
    cases hc
    refine ⟨rfl, fun g hg => ?_⟩
    by_contra hge
    have hle := endRun_le f.header g
    exact hf.endRun_ne_of_empty (by omega) hle
      (targetFor_eq_none hta (by omega) hle) hg rfl
  case h_2 t hta =>
  obtain ⟨hle, ht, hne⟩ := targetFor_eq_some hta
  split at hc
  case h_2 => simp at hc
  case h_1 hfi =>
    -- the counter says that there is a group, so that the walk finds one
    have hpos : 0 < tally (endRun f.header) t (f.header.maxEntries / 4) := by
      rw [hf.empty t (by omega) ht] at hne
      omega
    obtain ⟨g, hg, hrun⟩ := tally_pos_iff.mp hpos
    exact absurd hrun (findGroup_complete hfi (hf.hints _) (by omega))

theorem createMapBlock_isSome_iff (hs : 1 ≤ size) : (f.header.createMapBlock size).2.isSome ↔
      ∃ g < f.header.maxEntries / 4, size ≤ endRun f.header g := by
  rcases hc : f.header.createMapBlock size with ⟨h', _ | index⟩
  · have hno := (hf.createMapBlock_eq_none hs hc).2
    simp only [Option.isSome_none, Bool.false_eq_true, false_iff]
    rintro ⟨g, hg, hle⟩
    have := hno g hg
    omega
  · obtain ⟨g, hg, hle, -⟩ := createMapBlock_eq_some hs hf.hints hc
    simp only [Option.isSome_some, true_iff]
    exact ⟨g, by omega, hle⟩

theorem create (hs : 1 ≤ size) (hcr : f.header.createMapBlock size = (h', some index)) :
    Consistent ⟨h', (index, size) :: f.live⟩ := by
  obtain ⟨g, hg, hle, hi, hu, hnum, hh, hc⟩ :=
    createMapBlock_eq_some hs hf.hints hcr
  have hrun := endRun_le f.header g
  have hfr : ∀ b, Covers (index, size) b → used f.header b = false := by
    rintro b ⟨h₁, h₂⟩
    have := free_of_freeEnd (u := used f.header) (a := 4 * g) (n := 4) (i := b - 4 * g)
      (by unfold endRun at *; omega) (by omega)
    rwa [show 4 * g + (b - 4 * g) = b by omega] at this
  exact {
    size := forall_mem_cons.mpr ⟨hs, hf.size⟩
    group := forall_mem_cons.mpr ⟨by dsimp only; omega, hf.group⟩
    inside := by
      rw [hc.maxEntries]
      exact forall_mem_cons.mpr ⟨by dsimp only; omega, hf.inside⟩
    disjoint := by
      refine pairwise_cons.mpr ⟨fun q hq b hb hb' => ?_, hf.disjoint⟩
      have hset := (hf.bits b).mpr ⟨q, hq, hb'⟩
      rw [hfr b hb] at hset
      cases hset
    bits := fun b => by
      rw [hu, Bool.or_eq_true, hf.bits, decide_eq_true_eq, exists_mem_cons_iff]
      exact or_comm
    numEntries := by rw [hnum, hf.numEntries]; simp
    empty := hf.empty_of_changesGroup (by omega) hc
    hints := by rw [hc.maxEntries]; exact hh
    words := by rw [hc.maxEntries]; exact hf.words
    le := by rw [hc.maxEntries]; exact hf.le
    full := by rw [hc.maxEntries, hc.nextFile]; exact hf.full }

theorem nodup : f.live.Nodup := by
  refine hf.disjoint.imp_of_mem fun {p q} hp _ hd heq => ?_
  subst heq
  have hs := hf.size p hp
  exact hd p.1 ⟨le_rfl, by omega⟩ ⟨le_rfl, by omega⟩

theorem bits_delete (hl : (index, size) ∈ f.live) (b : ℕ) :
    used (f.header.deleteMapBlock index size) b = true ↔
      ∃ p ∈ f.live.erase (index, size), Covers p b := by
  rw [used_deleteMapBlock (hf.group _ hl), Bool.and_eq_true, hf.bits, Bool.not_eq_true',
    decide_eq_false_iff_not]
  simp only [hf.nodup.mem_erase_iff]
  constructor
  · rintro ⟨⟨p, hp, hc⟩, hout⟩
    refine ⟨p, ⟨?_, hp⟩, hc⟩
    rintro rfl
    exact hout hc
  · rintro ⟨p, ⟨hne, hp⟩, hc⟩
    exact ⟨⟨p, hp, hc⟩, fun hin =>
      hf.disjoint.forall hp hl hne _ hc hin⟩

theorem delete (hl : (index, size) ∈ f.live) :
    Consistent ⟨f.header.deleteMapBlock index size, f.live.erase (index, size)⟩ := by
  have hs : 1 ≤ size := hf.size _ hl
  have hg : index % 4 + size ≤ 4 := hf.group _ hl
  have hi : index + size ≤ f.header.maxEntries := hf.inside _ hl
  have hw := hf.words
  have hla : used f.header (index + size - 1) = true :=
    (hf.bits _).mpr ⟨_, hl, by dsimp only; omega, by dsimp only; omega⟩
  have hc := deleteMapBlock_changesGroup hs hg hla
  have hle : ¬ kMaxNumBlocks < size := by
    have hmax : kMaxNumBlocks = 4 := rfl
    omega
  exact {
    size := fun p hp => hf.size p (mem_of_mem_erase hp)
    group := fun p hp => hf.group p (mem_of_mem_erase hp)
    inside := fun p hp => by
      rw [hc.maxEntries]
      exact hf.inside p (mem_of_mem_erase hp)
    disjoint := hf.disjoint.sublist erase_sublist
    bits := hf.bits_delete hl
    numEntries := by
      have hpos := length_pos_of_mem hl
      have hnum := hf.numEntries
      rw [deleteMapBlock, if_neg hle]
      dsimp only
      rw [length_erase_of_mem hl]
      omega
    empty := hf.empty_of_changesGroup (by omega) hc
    hints := by
      rw [hc.maxEntries, deleteMapBlock, if_neg hle]
      exact hf.hints
    words := by rw [hc.maxEntries]; exact hf.words
    le := by rw [hc.maxEntries]; exact hf.le
    full := by rw [hc.maxEntries, hc.nextFile]; exact hf.full }

theorem used_of_le {b : ℕ} (hb : f.header.maxEntries ≤ b) : used f.header b = false := by
  rw [← Bool.not_eq_true, hf.bits]
  rintro ⟨p, hp, hc⟩
  have := hf.inside p hp
  have := hc.2
  omega

theorem endRun_of_le (hg : f.header.maxEntries / 4 ≤ g) : endRun f.header g = 4 := by
  have hw := hf.words
  refine (freeEnd_eq_iff le_rfl).mpr ⟨fun i _ _ => hf.used_of_le (by omega), fun h => ?_⟩
  omega

theorem grow (he : f.header.empty 3 = 0) : Consistent ⟨f.header.growBlockFile, f.live⟩ := by
  unfold growBlockFile
  split
  case isTrue => exact hf
  case isFalse hmax =>
    have hw := hf.words
    have hk : kMaxBlocks = 64896 := rfl
    have hex : kNumExtraBlocks = 1024 := rfl
    have hle := hf.le
    generalize hsi : min (f.header.maxEntries + kNumExtraBlocks) kMaxBlocks = newSize
    have hb : f.header.maxEntries ≤ newSize ∧ newSize % 32 = 0 ∧ newSize ≤ kMaxBlocks := by
      omega
    exact {
      hf with
      inside := fun p hp => le_trans (hf.inside p hp) hb.1
      empty := fun t h₁ h₂ => by
        have hta : tally (endRun f.header) t (newSize / 4) =
            tally (endRun f.header) t (f.header.maxEntries / 4) +
              if 4 = t then (newSize - f.header.maxEntries) / 4 else 0 := by
          have hs : newSize / 4 =
              f.header.maxEntries / 4 + (newSize - f.header.maxEntries) / 4 := by omega
          rw [hs, tally_append fun g hg _ => hf.endRun_of_le hg]
        have hold := hf.empty t h₁ h₂
        dsimp only
        change _ = ((tally (endRun f.header) t (newSize / 4) : ℕ) : ℤ)
        rw [hta]
        by_cases ht : t = 4
        · subst ht
          rw [Function.update_self, if_pos rfl]
          rw [he] at hold
          omega
        · rw [Function.update_of_ne (by omega), hold, if_neg (Ne.symm ht), Nat.add_zero]
      hints := fun t => le_trans (hf.hints t) (Nat.div_le_div_right hb.1)
      words := hb.2.1
      le := hb.2.2
      full := fun hn => absurd (hf.full hn).symm hmax }

theorem empty_of_needToGrow (hc : blockCount ≤ kMaxNumBlocks)
    (hn : f.header.needToGrowBlockFile blockCount) (hmax : kMaxBlocks ≠ f.header.maxEntries) :
    f.header.empty 3 = 0 := by
  have hnex : f.header.nextFile = 0 := by
    by_contra hne
    exact hmax (hf.full hne).symm
  have hfo : kMaxNumBlocks = 4 := rfl
  rw [needToGrowBlockFile, if_neg (fun h => h.1 hnex), Bool.not_eq_true', any_eq_false] at hn
  have hl := hn 3 (mem_range.mpr (by omega))
  rw [decide_eq_true_eq, not_and, not_not] at hl
  exact hl (by omega)

theorem fileForNewBlock (newFile : ℤ) (hc : blockCount ≤ kMaxNumBlocks) :
    Consistent ⟨f.header.fileForNewBlock blockCount newFile, f.live⟩ := by
  unfold BlockFileHeader.fileForNewBlock
  split
  case isFalse => exact hf
  case isTrue hn =>
    split
    case isTrue hmax => exact { hf with full := fun _ => hmax.symm }
    case isFalse hmax => exact hf.grow (hf.empty_of_needToGrow hc hn hmax)

/-- Entries and free blocks have room in the file, so that their sum does not overflow. -/
theorem length_live_le : f.live.length + (tally (endRun f.header) 1 (f.header.maxEntries / 4) +
      tally (endRun f.header) 2 (f.header.maxEntries / 4) * 2 +
      tally (endRun f.header) 3 (f.header.maxEntries / 4) * 3 +
      tally (endRun f.header) 4 (f.header.maxEntries / 4) * 4) ≤ f.header.maxEntries := by
  have hw := hf.words
  have hfour : 4 * (f.header.maxEntries / 4) = f.header.maxEntries := by omega
  have hcount := count_add_tally_le (used f.header) (f.header.maxEntries / 4)
  rw [hfour] at hcount
  refine le_trans (Nat.add_le_add_right ?_ _) hcount
  -- the first blocks of the entries are used, and no two are the same
  have hfirst (p) (hp : p ∈ f.live) : Covers p p.1 := ⟨le_rfl, by have := hf.size p hp; omega⟩
  have hnodup : (f.live.map Prod.fst).Nodup := by
    refine pairwise_map.mpr (hf.disjoint.imp_of_mem fun {p q} hp hq hpq heq => ?_)
    exact hpq p.1 (hfirst p hp) (heq ▸ hfirst q hq)
  rw [← length_map Prod.fst, ← toFinset_card_of_nodup hnodup, Nat.count_eq_card_filter_range]
  refine Finset.card_le_card fun b hb => ?_
  obtain ⟨p, hp, rfl⟩ := mem_map.mp (mem_toFinset.mp hb)
  have := hf.inside p hp
  have := hf.size p hp
  exact Finset.mem_filter.mpr
    ⟨Finset.mem_range.mpr (by omega), (hf.bits p.1).mpr ⟨p, hp, hfirst p hp⟩⟩

/-- The header that is repaired when the file cannot grow. -/
theorem growFails {entrySize : ℕ} (hfix : f.header.fixBlockFileHeader entrySize
      (entrySize * f.header.maxEntries + kBlockHeaderSize) = some h') :
    Consistent ⟨h', f.live⟩ := by
  have hnum := hf.numEntries
  obtain ⟨k, -, -, hk, hc⟩ := fixCounters_eq_some hf.words hf.le (by omega)
  have hle := hf.length_live_le
  obtain rfl : k = f.header.numEntries := hk (by
    rw [fixAllocationCounters_emptyBlocks hf.words]
    omega)
  rw [fixBlockFileHeader] at hfix
  split at hfix
  · cases hfix
  rw [if_pos rfl, hc] at hfix
  obtain rfl := Option.some.inj hfix
  exact {
    hf with
    empty := fun t h₁ h₂ => by
      dsimp only
      rw [fixAllocationCounters_empty hf.words, Nat.sub_add_cancel h₁]
      rfl
    hints := fun t => Nat.zero_le _ }

theorem step {f' : BlockFile} (hst : Step f f') : Consistent f' := by
  cases hst with
  | create hs _ hc => exact hf.create hs hc
  | createFails hs _ hc =>
    rw [(hf.createMapBlock_eq_none hs hc).1]
    exact hf
  | delete hl => exact hf.delete hl
  | grow he => exact hf.grow he
  | growFails hfix => exact hf.growFails hfix
  | fileForNewBlock hmax => exact hf.fileForNewBlock _ hmax

end Consistent

theorem consistent_of_run (hrun : Relation.ReflTransGen Step new f) : Consistent f := by
  induction hrun with
  | refl => exact consistent_new
  | tail _ hs ih => exact ih.step hs

/-- In every state of a block file that starts empty, the live entries lie apart, each inside a
group of four blocks; the bits are those of their blocks; the counters count them and the free
runs of the groups; and an entry can be created exactly when some group has a free run of its
length. -/
theorem blockFile_run (hrun : Relation.ReflTransGen Step new f) : f.live.Pairwise Apart ∧
    (∀ p ∈ f.live, 1 ≤ p.2 ∧ p.1 % 4 + p.2 ≤ 4 ∧ p.1 + p.2 ≤ f.header.maxEntries) ∧
    (∀ b, used f.header b = true ↔ ∃ p ∈ f.live, Covers p b) ∧ f.header.numEntries = f.live.length ∧
    (∀ t, 1 ≤ t → t ≤ 4 →
      f.header.empty (t - 1) = tally (endRun f.header) t (f.header.maxEntries / 4)) ∧
    (∀ size, 1 ≤ size → size ≤ kMaxNumBlocks → ((f.header.createMapBlock size).2.isSome ↔
        ∃ g < f.header.maxEntries / 4, size ≤ endRun f.header g)) := by
  have hf := consistent_of_run hrun
  exact ⟨hf.disjoint, fun p hp => ⟨hf.size p hp, hf.group p hp, hf.inside p hp⟩, hf.bits,
    hf.numEntries, hf.empty, fun size hs _ => hf.createMapBlock_isSome_iff hs⟩

/-- A file that has grown once, then with an entry of three blocks, then with one of a single
block behind it. -/
def grown : BlockFileHeader := BlockFileHeader.new.growBlockFile

def withThree : BlockFileHeader := (grown.createMapBlock 3).1

def withFour : BlockFileHeader := (withThree.createMapBlock 1).1

theorem run_withFour : Relation.ReflTransGen Step new ⟨withFour, [(3, 1), (0, 3)]⟩ := by
  have hg : Step new ⟨grown, []⟩ := Step.grow rfl
  have ht : Step ⟨grown, []⟩ ⟨withThree, [(0, 3)]⟩ :=
    Step.create (by decide) (by decide) (Prod.ext rfl (by decide))
  have hf : Step ⟨withThree, [(0, 3)]⟩ ⟨withFour, [(3, 1), (0, 3)]⟩ :=
    Step.create (by decide) (by decide) (Prod.ext rfl (by decide))
  exact ((Relation.ReflTransGen.single hg).tail ht).tail hf

theorem blockFile_run_removed : (withFour.deleteMapBlock 0 3).numEntries = 1 ∧
      used (withFour.deleteMapBlock 0 3) 3 = true := by
  have hd : Step ⟨withFour, [(3, 1), (0, 3)]⟩ ⟨withFour.deleteMapBlock 0 3, [(3, 1)]⟩ :=
    Step.delete (by decide)
  obtain ⟨-, -, hb, hnum, -⟩ := blockFile_run (run_withFour.tail hd)
  exact ⟨hnum, (hb 3).mpr ⟨(3, 1), by decide, by decide, by decide⟩⟩

/-- Whatever a crash leaves in the counters of a file, `FixBlockFileHeader` gives the header
back: the free groups are counted as the operations had counted them, and the number of entries
fits.  It only fails if the crash was between the two writes of `GrowBlockFile`. -/
theorem fixBlockFileHeader_run (hrun : Relation.ReflTransGen Step new f) (n : ℤ) (hn : 0 ≤ n)
    (m : ℕ) (hm : m ≤ f.header.maxEntries) (e : ℕ → ℤ) (hints : ℕ → ℕ) (entrySize : ℕ)
    (hsize : 36 ≤ entrySize ∧ entrySize ≤ 4096) :
    ∃ k e', 0 ≤ k ∧ k ≤ n ∧ (∀ t < kMaxNumBlocks, e' t = f.header.empty t) ∧
      fixBlockFileHeader { f.header with numEntries := n, maxEntries := m, empty := e, hints }
          entrySize (entrySize * f.header.maxEntries + kBlockHeaderSize) =
        if m < f.header.maxEntries ∧ e 3 ≠ 0 then none
        else some { f.header with numEntries := k, empty := e', hints := fun _ => 0 } := by
  have hf := consistent_of_run hrun
  obtain ⟨k, hk, hkn, -, hfix⟩ := fixCounters_eq_some
    (h := { f.header with numEntries := n, empty := e, hints }) hf.words hf.le hn
  refine ⟨k, f.header.fixAllocationCounters.empty, hk, hkn, fun t ht => ?_, ?_⟩
  · rw [fixAllocationCounters_empty hf.words, ← hf.empty (t + 1) (by omega) ht, Nat.add_sub_cancel]
  · rw [fixBlockFileHeader, if_neg (by dsimp only; omega)]
    rcases hm.eq_or_lt with rfl | hlt
    · rw [if_pos rfl, hfix, if_neg (by omega)]
      rfl
    · have hlt' := Nat.mul_lt_mul_of_pos_left hlt (by omega : 0 < entrySize)
      have hle := Nat.mul_le_mul_left entrySize hf.le
      rw [if_neg (by dsimp only; omega)]
      by_cases he : e 3 = 0
      · rw [if_neg (by dsimp only; omega), if_neg (by omega), Nat.add_sub_cancel,
          Nat.mul_div_cancel_left _ (by omega), hfix]
        rfl
      · rw [if_pos (.inr (.inl he)), if_pos ⟨hlt, he⟩]

theorem fixBlockFileHeader_four : ∃ h, fixBlockFileHeader
      { withFour with numEntries := 9, empty := fun _ => 5, hints := fun _ => 7 } 36
      (36 * withFour.maxEntries + kBlockHeaderSize) = some h ∧
      h.empty 3 = 255 ∧ h.allocationMap 0 = 0xf := by
  obtain ⟨k, e', -, -, he, h⟩ := fixBlockFileHeader_run run_withFour 9 (by decide)
    withFour.maxEntries le_rfl (fun _ => 5) (fun _ => 7) 36 (by decide)
  rw [if_neg fun hlt => absurd hlt.1 (lt_irrefl _)] at h
  have hmap : withFour.allocationMap 0 = 0xf := by decide
  exact ⟨_, h, (he 3 (by decide)).trans (by decide), hmap⟩

end BlockFile

end ChromiumBase.DiskCache
