import Mathlib.Data.List.AList
import Mathlib.Data.List.Sort
import Mathlib.Data.Prod.Lex
import Mathlib.Data.UInt
import Mathlib.Tactic.Abel

/-!
# The index of the simple cache

The index is loaded in the background.  Until then it collects what is inserted in a set of its
own, next to the hashes that were removed, and both are merged into the loaded entries at the
end.  An entry has its size in units of 256 bytes, and the index keeps the total.

A call that changes a size may start an eviction.  It gives the entries to doom to the delegate,
which calls `remove` for each of them: these are calls like any other here.
-/

open List

namespace ChromiumBase.SimpleCache

/-- In the mode for application caches, where the time of the last use is not kept, its field
stands for the hint that shares its bits. -/
structure EntryMetadata where
  lastUsedTimeSecondsSinceEpoch : UInt32 := 0
  entrySize256bChunks : BitVec 24 := 0
deriving DecidableEq

namespace EntryMetadata

/-- The null time is `none`; no other time is stored as zero, which stands for it. -/
def setLastUsedTime (e : EntryMetadata) (lastUsedTime : Option ℤ) : EntryMetadata :=
  { e with lastUsedTimeSecondsSinceEpoch := match lastUsedTime with
      | none => 0
      | some s => .ofNat (max 1 (min s.toNat (2 ^ 32 - 1))) }

def getEntrySize (e : EntryMetadata) : UInt32 :=
  .ofBitVec (e.entrySize256bChunks.setWidth 32 <<< 8)

def setEntrySize (e : EntryMetadata) (entrySize : UInt32) : EntryMetadata :=
  { e with entrySize256bChunks := ((entrySize + 255) >>> 8).toBitVec.setWidth 24 }

end EntryMetadata

/-- A map from the hashes of the keys to the metadata. -/
abbrev EntrySet := AList fun _ : UInt64 => EntryMetadata

abbrev Entry := (_ : UInt64) × EntryMetadata

def totalSize (s : EntrySet) : UInt64 := (s.entries.map (·.2.getEntrySize.toUInt64)).sum

structure SimpleIndex where
  appCache : Bool
  entriesSet : EntrySet := ∅
  cacheSize : UInt64 := 0
  maxSize : UInt64 := 0
  highWatermark : UInt64 := 0
  lowWatermark : UInt64 := 0
  evictionInProgress : Bool := false
  removedEntries : List UInt64 := []
  initialized : Bool := false

/-- What an eviction reads besides the index: the clock in seconds since the epoch, whether the
sizes count, and where the entries are in memory. -/
structure Environment where
  now : ℤ
  useSize : Bool
  address : Entry → ℕ

def kEvictionMarginDivisor : UInt64 := 20

def kEstimatedEntryOverhead : UInt32 := 512

section

variable (env : Environment)

/-- The difference of the times is one of 32 bits. -/
def score (e : Entry) : UInt64 :=
  let sortValue := (.ofInt env.now - e.2.lastUsedTimeSecondsSinceEpoch : UInt32).toUInt64
  0xffffffffffffffff - if env.useSize then
    sortValue * (e.2.getEntrySize + kEstimatedEntryOverhead).toUInt64 else sortValue

/-- The entries are sorted by their scores, and those with the same score by their addresses. -/
def sortKey (e : Entry) : ℕ ×ₗ ℕ := toLex ((score env e).toNat, env.address e)

def evictionOrder (s : EntrySet) : List Entry :=
  s.entries.insertionSort (sortKey env · ≤ sortKey env ·)

def selectEntries (amountToEvict : UInt64) : UInt64 → List Entry → List Entry
  | _, [] => []
  | evictedSoFarSize, e :: es =>
    if evictedSoFarSize ≥ amountToEvict then []
    else e :: selectEntries amountToEvict (evictedSoFarSize + e.2.getEntrySize.toUInt64) es

end

namespace SimpleIndex

variable (x : SimpleIndex) (entryHash : UInt64)

/-- A size of zero means the default, which is set already. -/
def setMaxSize (maxBytes : UInt64) : SimpleIndex :=
  if maxBytes ≠ 0 then
    { x with
      maxSize := maxBytes
      highWatermark := maxBytes - maxBytes / kEvictionMarginDivisor
      lowWatermark := maxBytes - 2 * (maxBytes / kEvictionMarginDivisor) }
  else x

/-- With the entries that the delegate is to doom, if an eviction starts. -/
def startEvictionIfNeeded (env : Environment) : SimpleIndex × Option (List Entry) :=
  if x.evictionInProgress ∨ x.cacheSize ≤ x.highWatermark then (x, none)
  else
    let amountToEvict := x.cacheSize - x.lowWatermark
    ({ x with evictionInProgress := true },
      some (selectEntries amountToEvict 0 (evictionOrder env x.entriesSet)))

def evictionDone : SimpleIndex := { x with evictionInProgress := false }

def insert (now : Option ℤ) : SimpleIndex :=
  { x with
    entriesSet := if entryHash ∈ x.entriesSet then x.entriesSet
      else x.entriesSet.insert entryHash (if x.appCache then {} else .setLastUsedTime {} now)
    removedEntries := if x.initialized then x.removedEntries
      else x.removedEntries.filter (· ≠ entryHash) }

/-- The iterator points to the entry `e` of the hash.  The result says whether its size has
changed. -/
def updateEntryIteratorSize (e : EntryMetadata) (entrySize : UInt32) : SimpleIndex × Bool :=
  let e' := e.setEntrySize entrySize
  ({ x with
      cacheSize := x.cacheSize - e.getEntrySize.toUInt64 + e'.getEntrySize.toUInt64
      entriesSet := x.entriesSet.insert entryHash e' },
    e.getEntrySize ≠ e'.getEntrySize)

def remove : SimpleIndex :=
  let y := match x.entriesSet.lookup entryHash with
    | none => x
    | some e =>
      let y := (x.updateEntryIteratorSize entryHash e 0).1
      { y with entriesSet := y.entriesSet.erase entryHash }
  { y with
    removedEntries := if x.initialized then x.removedEntries else entryHash :: x.removedEntries }

/-- As long as the index is not loaded, the entry may be on the disk. -/
def useIfExists (now : Option ℤ) : SimpleIndex × Bool :=
  match x.entriesSet.lookup entryHash with
  | none => (x, !x.initialized)
  | some e =>
    if x.appCache then (x, true)
    else ({ x with entriesSet := x.entriesSet.insert entryHash (e.setLastUsedTime now) }, true)

/-- The result says whether there is an entry, and which ones are to be doomed. -/
def updateEntrySize (entrySize : UInt32) (env : Environment) :
    SimpleIndex × Bool × Option (List Entry) :=
  match x.entriesSet.lookup entryHash with
  | none => (x, false, none)
  | some e =>
    let (y, changed) := x.updateEntryIteratorSize entryHash e entrySize
    if !changed then (y, true, none)
    else
      let (z, doomed) := y.startEvictionIfNeeded env
      (z, true, doomed)

/-- The entries that were inserted meanwhile replace the loaded ones. -/
def mergeInitializingSet (loaded : EntrySet) : SimpleIndex :=
  let merged := x.entriesSet ∪ x.removedEntries.foldl (fun s h => s.erase h) loaded
  { x with
    entriesSet := merged, cacheSize := totalSize merged, removedEntries := [], initialized := true }

end SimpleIndex

open SimpleIndex

inductive Call where
  | insert (entryHash : UInt64) (now : Option ℤ)
  | remove (entryHash : UInt64)
  | updateEntrySize (entryHash : UInt64) (entrySize : UInt32) (env : Environment)
  | useIfExists (entryHash : UInt64) (now : Option ℤ)
  | setMaxSize (maxBytes : UInt64)
  | evictionDone

def Call.changesKeys : Call → Bool
  | insert .. => true
  | remove _ => true
  | _ => false

def step (x : SimpleIndex) : Call → SimpleIndex
  | .insert h now => x.insert h now
  | .remove h => x.remove h
  | .updateEntrySize h size env => (x.updateEntrySize h size env).1
  | .useIfExists h now => (x.useIfExists h now).1
  | .setMaxSize maxBytes => x.setMaxSize maxBytes
  | .evictionDone => x.evictionDone

/-! ### The entries and their total size -/

/-- The watermarks and the state of an eviction may differ. -/
structure SameEntries (x y : SimpleIndex) : Prop where
  entriesSet : x.entriesSet = y.entriesSet
  cacheSize : x.cacheSize = y.cacheSize
  removedEntries : x.removedEntries = y.removedEntries
  initialized : x.initialized = y.initialized

theorem sameEntries_setMaxSize (x : SimpleIndex) (maxBytes : UInt64) :
    SameEntries (x.setMaxSize maxBytes) x := by
  unfold setMaxSize
  split <;> constructor <;> rfl

theorem sameEntries_startEvictionIfNeeded (x : SimpleIndex) (env : Environment) :
    SameEntries (x.startEvictionIfNeeded env).1 x := by
  unfold startEvictionIfNeeded
  split <;> constructor <;> rfl

theorem sameEntries_updateEntrySize (x : SimpleIndex) (h : UInt64) (size : UInt32)
    (env : Environment) :
    SameEntries (x.updateEntrySize h size env).1 (match x.entriesSet.lookup h with
      | none => x
      | some e => (x.updateEntryIteratorSize h e size).1) := by
  unfold updateEntrySize
  cases x.entriesSet.lookup h with
  | none => constructor <;> rfl
  | some e =>
    simp only
    split
    · constructor <;> rfl
    · exact sameEntries_startEvictionIfNeeded ..

theorem entries_erase (s : EntrySet) (h : UInt64) : (s.erase h).entries = s.entries.kerase h := rfl

theorem totalSize_insert (s : EntrySet) (h : UInt64) (e : EntryMetadata) :
    totalSize (s.insert h e) = e.getEntrySize.toUInt64 + totalSize (s.erase h) := by
  simp [totalSize, entries_erase]

theorem totalSize_of_lookup {s : EntrySet} {h : UInt64} {e : EntryMetadata}
    (hs : s.lookup h = some e) :
    totalSize s = e.getEntrySize.toUInt64 + totalSize (s.erase h) := by
  obtain ⟨l, hl⟩ := s
  simp only [AList.lookup, totalSize, entries_erase] at hs ⊢
  clear hl
  induction l with
  | nil => simp at hs
  | cons p l ih =>
    obtain ⟨k, f⟩ := p
    rcases eq_or_ne h k with rfl | hk
    · simp_all
    · rw [dlookup_cons_ne _ _ hk] at hs
      rw [kerase_cons_ne (by exact hk), map_cons, map_cons, sum_cons,
        sum_cons, ih hs, add_left_comm]

theorem totalSize_updateEntryIteratorSize {x : SimpleIndex} {h : UInt64} {e : EntryMetadata}
    (hx : x.cacheSize = totalSize x.entriesSet) (he : x.entriesSet.lookup h = some e)
    (size : UInt32) :
    (x.updateEntryIteratorSize h e size).1.cacheSize =
      totalSize (x.updateEntryIteratorSize h e size).1.entriesSet := by
  simp only [updateEntryIteratorSize, hx, totalSize_of_lookup he, totalSize_insert]
  abel

theorem totalSize_step {x : SimpleIndex} (hx : x.cacheSize = totalSize x.entriesSet)
    (c : Call) : (step x c).cacheSize = totalSize (step x c).entriesSet := by
  cases c with
  | insert h now =>
    by_cases hm : h ∈ x.entriesSet
    · simpa [step, SimpleIndex.insert, hm] using hx
    · have hz : (if x.appCache then {} else EntryMetadata.setLastUsedTime {} now).getEntrySize =
          0 := by split <;> rfl
      have he : x.entriesSet.erase h = x.entriesSet :=
        AList.ext (kerase_of_notMem_keys hm)
      simp only [step, SimpleIndex.insert, if_neg hm, totalSize_insert, hz, he, hx]
      exact (zero_add _).symm
  | remove h =>
    cases hl : x.entriesSet.lookup h with
    | none => simpa [step, remove, hl] using hx
    | some e =>
      have hz : (e.setEntrySize 0).getEntrySize = 0 := rfl
      have hs := totalSize_updateEntryIteratorSize hx hl 0
      simp only [step, remove, hl, hs]
      simp [updateEntryIteratorSize, hz, totalSize, entries_erase]
  | updateEntrySize h size env =>
    have hsame := sameEntries_updateEntrySize x h size env
    rw [step, hsame.cacheSize, hsame.entriesSet]
    cases hl : x.entriesSet.lookup h with
    | none => exact hx
    | some e => exact totalSize_updateEntryIteratorSize hx hl size
  | useIfExists h now =>
    cases hl : x.entriesSet.lookup h with
    | none => simpa [step, useIfExists, hl] using hx
    | some e =>
      by_cases ha : x.appCache
      · simpa [step, useIfExists, hl, ha] using hx
      · simp only [step, useIfExists, hl, ha, hx, totalSize_of_lookup hl]
        exact (totalSize_insert ..).symm
  | setMaxSize maxBytes =>
    have hsame := sameEntries_setMaxSize x maxBytes
    rw [step, hsame.cacheSize, hsame.entriesSet, hx]
  | evictionDone => exact hx

theorem totalSize_run {x : SimpleIndex} (hx : x.cacheSize = totalSize x.entriesSet)
    (cs : List Call) : (cs.foldl step x).cacheSize = totalSize (cs.foldl step x).entriesSet := by
  induction cs generalizing x with
  | nil => exact hx
  | cons c cs ih => exact ih (totalSize_step hx c)

theorem initialized_step (x : SimpleIndex) (c : Call) :
    (step x c).initialized = x.initialized := by
  cases c with
  | insert h now => rfl
  | remove h =>
    simp only [step, remove]
    split <;> rfl
  | updateEntrySize h size env =>
    rw [step, (sameEntries_updateEntrySize x h size env).initialized]
    split <;> rfl
  | useIfExists h now =>
    simp only [step, useIfExists]
    split <;> [rfl; split <;> rfl]
  | setMaxSize maxBytes => exact (sameEntries_setMaxSize x maxBytes).initialized
  | evictionDone => rfl

@[simp]
theorem initialized_run (x : SimpleIndex) (cs : List Call) :
    (cs.foldl step x).initialized = x.initialized := by
  induction cs generalizing x with
  | nil => rfl
  | cons c cs ih => rw [foldl_cons, ih, initialized_step]

/-! ### The keys -/

/-- A key of the index, where the entries still to be loaded count as loaded. -/
def HasKey (loaded : EntrySet) (x : SimpleIndex) (k : UInt64) : Prop :=
  k ∈ x.entriesSet ∨ ¬x.initialized ∧ k ∈ loaded ∧ k ∉ x.removedEntries

theorem SameEntries.hasKey_iff {x y : SimpleIndex} (h : SameEntries x y) (loaded : EntrySet)
    (k : UInt64) : HasKey loaded x k ↔ HasKey loaded y k := by
  simp only [HasKey, h.entriesSet, h.removedEntries, h.initialized]

theorem hasKey_step (loaded : EntrySet) (x : SimpleIndex) (c : Call) (k : UInt64) :
    HasKey loaded (step x c) k ↔ match c with
      | .insert h _ => k = h ∨ HasKey loaded x k
      | .remove h => k ≠ h ∧ HasKey loaded x k
      | _ => HasKey loaded x k := by
  have hl := fun h => @AList.lookup_isSome _ _ _ h x.entriesSet
  cases c with
  | insert h now =>
    simp only [step, SimpleIndex.insert, HasKey]
    grind [AList.mem_insert]
  | remove h =>
    simp only [step, remove, HasKey]
    grind [AList.mem_erase, AList.mem_insert, updateEntryIteratorSize]
  | updateEntrySize h size env =>
    rw [step, (sameEntries_updateEntrySize x h size env).hasKey_iff]
    simp only [HasKey]
    grind [AList.mem_insert, updateEntryIteratorSize]
  | useIfExists h now =>
    simp only [step, useIfExists, HasKey]
    grind [AList.mem_insert]
  | setMaxSize maxBytes => exact (sameEntries_setMaxSize x maxBytes).hasKey_iff loaded k
  | evictionDone => rfl

/-- Whether a hash is a key after a call depends only on whether it is one before. -/
theorem hasKey_run {loaded : EntrySet} {x y : SimpleIndex} {k : UInt64}
    (h : HasKey loaded x k ↔ HasKey loaded y k) (cs : List Call) :
    HasKey loaded (cs.foldl step x) k ↔
      HasKey loaded ((cs.filter Call.changesKeys).foldl step y) k := by
  induction cs generalizing x y with
  | nil => exact h
  | cons c cs ih =>
    cases c <;>
      simp only [filter_cons, Call.changesKeys, foldl_cons] <;>
      refine ih ?_ <;> simp only [hasKey_step, h]

theorem mem_foldl_erase (rs : List UInt64) (s : EntrySet) (k : UInt64) :
    k ∈ rs.foldl (fun s h => s.erase h) s ↔ k ∈ s ∧ k ∉ rs := by
  induction rs generalizing s with
  | nil => simp
  | cons r rs ih =>
    rw [foldl_cons, ih, AList.mem_erase, mem_cons]
    tauto

theorem hasKey_merge {x : SimpleIndex} (hx : x.initialized = false) (loaded : EntrySet)
    (k : UInt64) : HasKey loaded (x.mergeInitializingSet loaded) k ↔ HasKey loaded x k := by
  simp [HasKey, mergeInitializingSet, mem_foldl_erase, hx]

/-- Wherever the load completes in a sequence of calls, the total is that of the entries and the
keys are those after the same insertions and removals made on the loaded index. -/
theorem run_merge_run (appCache : Bool) (loaded : EntrySet) (before after : List Call) :
    let x := after.foldl step ((before.foldl step { appCache }).mergeInitializingSet loaded)
    let y := ((before ++ after).filter Call.changesKeys).foldl step
      (mergeInitializingSet { appCache } loaded)
    x.cacheSize = totalSize x.entriesSet ∧ ∀ k, k ∈ x.entriesSet ↔ k ∈ y.entriesSet := by
  refine ⟨totalSize_run rfl after, fun k => ?_⟩
  have hempty := hasKey_merge (x := { appCache }) rfl loaded k
  have hbefore := hasKey_run hempty.symm before
  have hafter := hasKey_run ((hasKey_merge (by simp) loaded k).trans hbefore) after
  rw [← foldl_append, ← filter_append] at hafter
  simpa [HasKey, mergeInitializingSet] using hafter

/-! ### Eviction -/

def sizeOfEntries (es : List Entry) : ℕ := (es.map (·.2.getEntrySize.toNat)).sum

@[simp]
theorem sizeOfEntries_nil : sizeOfEntries [] = 0 := rfl

@[simp]
theorem sizeOfEntries_cons (e : Entry) (es : List Entry) :
    sizeOfEntries (e :: es) = e.2.getEntrySize.toNat + sizeOfEntries es := rfl

/-- The shortest first part that makes up for the amount. -/
theorem selectEntries_spec (amount : UInt64) {acc : UInt64} {es : List Entry}
    (h : acc.toNat + sizeOfEntries es < 2 ^ 64) :
    selectEntries amount acc es <+: es ∧
      (amount.toNat ≤ acc.toNat + sizeOfEntries (selectEntries amount acc es) ∨
        selectEntries amount acc es = es) ∧
      ∀ p, p <+: es → p.length < (selectEntries amount acc es).length →
        acc.toNat + sizeOfEntries p < amount.toNat := by
  induction es generalizing acc with
  | nil => simp [selectEntries]
  | cons e es ih =>
    rw [sizeOfEntries_cons] at h
    have hacc : (acc + e.2.getEntrySize.toUInt64).toNat = acc.toNat + e.2.getEntrySize.toNat := by
      rw [UInt64.toNat_add, UInt32.toNat_toUInt64, Nat.mod_eq_of_lt (by omega)]
    obtain ⟨hp, hs, hm⟩ := ih (show (acc + e.2.getEntrySize.toUInt64).toNat + _ < _ by omega)
    rw [hacc] at hs hm
    rw [selectEntries]
    split_ifs with hle
    · simpa using UInt64.le_iff_toNat_le.1 hle
    · refine ⟨cons_prefix_cons.2 ⟨rfl, hp⟩, ?_, fun p hpe hl => ?_⟩
      · rw [sizeOfEntries_cons, ← add_assoc, cons.injEq]
        exact hs.imp_right fun hs => ⟨rfl, hs⟩
      · cases p with
        | nil => simpa [UInt64.le_iff_toNat_le] using hle
        | cons d p =>
          obtain ⟨rfl, hpe'⟩ := cons_prefix_cons.1 hpe
          rw [sizeOfEntries_cons, ← add_assoc]
          exact hm p hpe' (by simpa using hl)

section

variable {env : Environment}

theorem pairwise_evictionOrder (env : Environment) (s : EntrySet) :
    (evictionOrder env s).Pairwise (score env · ≤ score env ·) := by
  have : Std.Total (sortKey env · ≤ sortKey env ·) := ⟨fun _ _ => le_total ..⟩
  have : IsTrans Entry (sortKey env · ≤ sortKey env ·) := ⟨fun _ _ _ => le_trans⟩
  refine (pairwise_insertionSort _ s.entries).imp fun h => ?_
  have := Prod.Lex.le_iff.1 h
  simp only [sortKey, ofLex_toLex] at this
  rw [UInt64.le_iff_toNat_le]
  omega

theorem sizeOfEntries_evictionOrder (s : EntrySet) :
    sizeOfEntries (evictionOrder env s) = sizeOfEntries s.entries :=
  ((perm_insertionSort _ s.entries).map _).sum_nat

abbrev UsedAfterNow (env : Environment) (e : Entry) : Prop :=
  .ofInt env.now < e.2.lastUsedTimeSecondsSinceEpoch

/-- Without the sizes, the score orders the entries that were last used up to now by the time
of their last use, and so the others, but all of these before the former. -/
theorem score_le_iff (hu : env.useSize = false) (d e : Entry) :
    score env d ≤ score env e ↔ if UsedAfterNow env d ↔ UsedAfterNow env e then
        d.2.lastUsedTimeSecondsSinceEpoch ≤ e.2.lastUsedTimeSecondsSinceEpoch
      else UsedAfterNow env d := by
  simp only [score, hu, Bool.false_eq_true, if_false, UsedAfterNow]
  generalize UInt32.ofInt env.now = n, d.2.lastUsedTimeSecondsSinceEpoch = a,
    e.2.lastUsedTimeSecondsSinceEpoch = b
  have := a.toNat_lt
  have := b.toNat_lt
  have := n.toNat_lt
  simp only [UInt64.le_iff_toNat_le, UInt64.toNat_sub, UInt32.toNat_sub, UInt32.toNat_toUInt64,
    UInt32.lt_iff_toNat_lt, UInt32.le_iff_toNat_le, UInt64.reduceToNat]
  split_ifs <;> omega

theorem usedAfterNow_of_score_le (hu : env.useSize = false) {d e : Entry}
    (h : score env d ≤ score env e) (he : UsedAfterNow env e) : UsedAfterNow env d := by
  rw [score_le_iff hu] at h
  split_ifs at h with hiff
  · exact hiff.2 he
  · exact h

/-- What the eviction of `doomed` is to achieve. -/
structure FreesLeastRecent (env : Environment) (x : SimpleIndex) (doomed : List Entry) :
    Prop where
  ordered : doomed <+: evictionOrder env x.entriesSet
  enough : (x.cacheSize - x.lowWatermark).toNat ≤ sizeOfEntries doomed ∨
    ∀ e ∈ x.entriesSet.entries, e ∈ doomed
  minimal : ∀ p, p <+: evictionOrder env x.entriesSet → p.length < doomed.length →
    sizeOfEntries p < (x.cacheSize - x.lowWatermark).toNat
  leastRecent : env.useSize = false → ∀ d ∈ doomed, ∀ k ∈ x.entriesSet.entries, k ∉ doomed →
    d.2.lastUsedTimeSecondsSinceEpoch ≤ k.2.lastUsedTimeSecondsSinceEpoch

/-- Some entries are doomed and some are kept if the amount is not zero and the last one need not
be doomed. -/
theorem partly_iff {amount : ℕ} {order doomed rest : List Entry} (hr : doomed ++ rest = order)
    (hne : order ≠ []) (hs : amount ≤ sizeOfEntries doomed ∨ doomed = order)
    (hm : ∀ p, p <+: order → p.length < doomed.length → sizeOfEntries p < amount) :
    doomed ≠ [] ∧ rest ≠ [] ↔ 0 < amount ∧ amount ≤ sizeOfEntries order.dropLast := by
  subst hr
  constructor
  · rintro ⟨hd, hr⟩
    refine ⟨hm [] nil_prefix (length_pos_iff.2 hd), ?_⟩
    rw [dropLast_append_of_ne_nil hr, sizeOfEntries, map_append, sum_append]
    exact (hs.resolve_right fun h => hr (self_eq_append_right.1 h)).trans (Nat.le_add_right ..)
  · rintro ⟨hpos, hle⟩
    have hr : rest ≠ [] := by
      rintro rfl
      refine (hm _ ( dropLast_prefix _) ?_).not_ge hle
      rw [append_nil] at hne ⊢
      rw [length_dropLast]
      exact Nat.sub_lt (length_pos_iff.2 hne) Nat.one_pos
    refine ⟨fun hd => ?_, hr⟩
    subst hd
    exact hs.elim hpos.not_ge fun h => hr h.symm

/-- An entry that was used after the current time is doomed first.  That is right if nothing or
everything is doomed, or all entries were used after the current time. -/
theorem freesLeastRecent_iff {x : SimpleIndex} {doomed : List Entry}
    (hsize : sizeOfEntries x.entriesSet.entries < 2 ^ 64)
    (h : (x.startEvictionIfNeeded env).2 = some doomed) :
    FreesLeastRecent env x doomed ↔
      (env.useSize = false → 0 < (x.cacheSize - x.lowWatermark).toNat →
        (x.cacheSize - x.lowWatermark).toNat ≤
          sizeOfEntries (evictionOrder env x.entriesSet).dropLast →
        (∃ e ∈ x.entriesSet.entries, UsedAfterNow env e) →
        ∀ e ∈ x.entriesSet.entries, UsedAfterNow env e) := by
  unfold startEvictionIfNeeded at h
  split_ifs at h
  obtain rfl := Option.some.inj h
  have hsize' : (0 : UInt64).toNat + sizeOfEntries (evictionOrder env x.entriesSet) < 2 ^ 64 := by
    simpa [sizeOfEntries_evictionOrder] using hsize
  obtain ⟨hp, hs, hm⟩ := selectEntries_spec (x.cacheSize - x.lowWatermark) hsize'
  generalize selectEntries _ 0 _ = doomed at *
  simp only [UInt64.toNat_zero, zero_add] at hs hm
  have hperm : (evictionOrder env x.entriesSet).Perm x.entriesSet.entries :=
    perm_insertionSort _ _
  have hnodup := hperm.nodup_iff.2 (List.Nodup.of_map _ x.entriesSet.nodupKeys)
  have hpair := pairwise_evictionOrder env x.entriesSet
  obtain ⟨rest, hr⟩ := id hp
  rw [← hr, nodup_append] at hnodup
  rw [← hr, pairwise_append] at hpair
  have hmem : ∀ e, e ∈ x.entriesSet.entries ↔ e ∈ doomed ∨ e ∈ rest := fun e => by
    rw [← hperm.mem_iff, ← hr, mem_append]
  have hpartly : ∀ e ∈ x.entriesSet.entries, _ := fun e he =>
    partly_iff hr (ne_nil_of_mem (hperm.mem_iff.2 he)) hs hm
  constructor
  · rintro ⟨-, -, -, hlast⟩ hu hpos hle ⟨e, he, hen⟩ k hk
    by_contra hkn
    obtain ⟨hdne, hrne⟩ := (hpartly k hk).2 ⟨hpos, hle⟩
    obtain ⟨d, hd, hdn⟩ : ∃ d ∈ doomed, UsedAfterNow env d := by
      rcases (hmem e).1 he with hd | her
      · exact ⟨e, hd, hen⟩
      · obtain ⟨d, hd⟩ := exists_mem_of_ne_nil _ hdne
        exact ⟨d, hd, usedAfterNow_of_score_le hu (hpair.2.2 d hd e her) hen⟩
    obtain ⟨c, hc, hcn⟩ : ∃ c ∈ rest, ¬UsedAfterNow env c := by
      rcases (hmem k).1 hk with hkd | hkr
      · obtain ⟨c, hc⟩ := exists_mem_of_ne_nil _ hrne
        exact ⟨c, hc, mt (usedAfterNow_of_score_le hu (hpair.2.2 k hkd c hc)) hkn⟩
      · exact ⟨k, hkr, hkn⟩
    have hle := hlast hu d hd c ((hmem c).2 (.inr hc)) fun hcd => hnodup.2.2 c hcd c hc rfl
    exact hcn (UInt32.lt_of_lt_of_le hdn hle)
  · intro hcond
    refine ⟨hp, hs.imp_right fun hall => by simp [hall, hperm.mem_iff], hm,
      fun hu d hd k hk hkd => ?_⟩
    have hkr := ((hmem k).1 hk).resolve_left hkd
    have hle := (score_le_iff hu d k).1 (hpair.2.2 d hd k hkr)
    split_ifs at hle with hiff
    · exact hle
    -- only `d` was used after the current time, and `k` is kept
    · obtain ⟨hpos, hfits⟩ := (hpartly k hk).1 ⟨ne_nil_of_mem hd, ne_nil_of_mem hkr⟩
      have hall := hcond hu hpos hfits ⟨d, (hmem d).2 (.inl hd), hle⟩ k hk
      exact absurd (iff_of_true hle hall) hiff

end

/-- Two entries of 256 bytes each, with the times of their last use. -/
def twoEntries (first second : UInt32) : SimpleIndex where
  appCache := false
  entriesSet := .insert 1 ⟨first, 1⟩ (.insert 2 ⟨second, 1⟩ ∅)
  cacheSize := 512
  highWatermark := 300
  lowWatermark := 256

/-- The clock shows 100, and the sizes do not count. -/
def atHundred : Environment := ⟨100, false, fun _ => 0⟩

theorem freesLeastRecent_twoEntries :
    FreesLeastRecent atHundred (twoEntries 90 50) [⟨2, 50, 1⟩] :=
  (freesLeastRecent_iff (by decide) (by decide)).2 (by decide)

/-- Where the clock was set back, the entry that was used last is doomed first. -/
theorem doomed_twoEntries :
    ((twoEntries 101 50).startEvictionIfNeeded atHundred).2 = some [⟨1, 101, 1⟩] ∧
      ¬FreesLeastRecent atHundred (twoEntries 101 50) [⟨1, 101, 1⟩] := by
  refine ⟨by decide, fun h => ?_⟩
  exact absurd (h.leastRecent rfl _ (.head _) ⟨2, 50, 1⟩ (by decide) (by decide)) (by decide)

end ChromiumBase.SimpleCache
