import Mathlib.Algebra.BigOperators.Group.List.Basic
import Mathlib.Algebra.Order.Ring.Nat

/-!
# Adjusting offsets into a string that was altered twice

`OffsetAdjuster` (`base/strings/utf_offset_string_conversions.cc`) records the ranges of a string
that were replaced, and maps offsets into the string to offsets into the result.
`MergeSequentialAdjustments` combines the records of two passes into one.

The combined record gives what the two passes give one after the other, unless a range of the
second pass ends inside of what the first one has put in, or starts where the first one has
removed something (`adjustOffset_merge_iff`).

The source computes with `int` in between, which the loops convert to; for lengths that add up
to an `int` they compute the exact numbers (`adjustOffset_eq`, `mergeLoop_eq_combine`).
-/

open List Option Function

namespace ChromiumBase.OffsetAdjuster

structure Adjustment where
  originalOffset : ℕ
  originalLength : ℕ
  outputLength : ℕ
deriving DecidableEq

def toInt (z : ℤ) : ℤ := z.bmod (2 ^ 32)

/-- The loop of `AdjustOffset`; nothing is `npos`. -/
def adjustLoop (offset adjustment : ℤ) : List Adjustment → Option ℤ
  | [] => some adjustment
  | i :: rest =>
    if offset ≤ i.originalOffset then some adjustment
    else if offset < i.originalOffset + i.originalLength then none
    else adjustLoop offset (toInt (adjustment + toInt (i.originalLength - i.outputLength))) rest

/-- `AdjustOffset` with the default limit, which no offset exceeds. -/
def adjustOffset (adjustments : List Adjustment) (offset : Option ℤ) : Option ℤ := do
  let offset ← offset
  let adjustment ← adjustLoop offset 0 adjustments
  return offset - adjustment

/-- The loop of `MergeSequentialAdjustments` over what is left of the two lists. -/
def mergeLoop (shift currentlyCollapsing : ℕ) :
    List Adjustment → List Adjustment → List Adjustment
  | first, [] => first
  | [], a :: second =>
    { a with originalOffset := a.originalOffset + shift } ::
      mergeLoop (shift + currentlyCollapsing) 0 [] second
  | f :: first, a :: second =>
    if a.originalOffset + shift + a.originalLength ≤ f.originalOffset then
      { a with originalOffset := a.originalOffset + shift } ::
        mergeLoop (shift + currentlyCollapsing) 0 (f :: first) second
    else if f.originalOffset < a.originalOffset + shift then
      f :: mergeLoop (shift + (f.originalLength - f.outputLength)) currentlyCollapsing first
        (a :: second)
    else
      -- an assertion of the source asks for it to be positive
      let collapse := (toInt (toInt f.originalLength - toInt f.outputLength)).toNat
      mergeLoop shift (currentlyCollapsing + collapse) first
        ({ a with originalLength := a.originalLength + collapse } :: second)
termination_by first second => first.length + second.length

def mergeSequentialAdjustments (first second : List Adjustment) : List Adjustment :=
  mergeLoop 0 0 first second

def Sorted (l : List Adjustment) : Prop :=
  l.Pairwise fun a b => a.originalOffset + a.originalLength ≤ b.originalOffset

def Collapsing (l : List Adjustment) : Prop := ∀ a ∈ l, a.outputLength < a.originalLength

/-- Where the result of a pass has what was put in, and how much it is. -/
def outputs (shift : ℤ) : List Adjustment → List (ℤ × ℤ)
  | [] => []
  | f :: first => (f.originalOffset - shift, f.outputLength) ::
      outputs (shift + (f.originalLength - f.outputLength)) first

/-- No range starts strictly inside of an output. -/
def StartsAligned (outputs : List (ℤ × ℤ)) (second : List Adjustment) : Prop :=
  ∀ s ∈ second, ∀ p ∈ outputs, ¬ (p.1 < s.originalOffset ∧ s.originalOffset < p.1 + p.2)

/-- No range ends strictly inside of an output, and none starts at an empty one, unless it says
nothing. -/
def EndsAligned (outputs : List (ℤ × ℤ)) (second : List Adjustment) : Prop :=
  ∀ s ∈ second, ∀ p ∈ outputs, ¬ (p.1 < s.originalOffset + s.originalLength ∧
        s.originalOffset + s.originalLength < p.1 + p.2) ∧
      ¬ (p.2 = 0 ∧ s.originalOffset = p.1 ∧ (0 < s.originalLength ∨ 0 < s.outputLength))

def Adjustment.collapse (a : Adjustment) : ℕ := a.originalLength - a.outputLength

/-- The merged list over the exact numbers. -/
def combine (shift currentlyCollapsing : ℕ) :
    List Adjustment → List Adjustment → List Adjustment
  | first, [] => first
  | [], a :: second =>
    { a with originalOffset := a.originalOffset + shift } ::
      combine (shift + currentlyCollapsing) 0 [] second
  | f :: first, a :: second =>
    if a.originalOffset + shift + a.originalLength ≤ f.originalOffset then
      { a with originalOffset := a.originalOffset + shift } ::
        combine (shift + currentlyCollapsing) 0 (f :: first) second
    else if f.originalOffset < a.originalOffset + shift then
      f :: combine (shift + f.collapse) currentlyCollapsing first (a :: second)
    else
      combine shift (currentlyCollapsing + f.collapse) first
        ({ a with originalLength := a.originalLength + f.collapse } :: second)
termination_by first second => first.length + second.length

/-- What adjustments take away in front of an offset; nothing for one inside of a range. -/
def displacement (o : ℤ) : List Adjustment → Option ℤ
  | [] => some 0
  | i :: rest =>
    if o ≤ i.originalOffset then some 0
    else if o < i.originalOffset + i.originalLength then none
    else (displacement o rest).map (i.originalLength - i.outputLength + ·)

/-- The same for two passes, where the offsets of the second one are less by `shift`. -/
def displacementTwice (shift o : ℤ) (first second : List Adjustment) : Option ℤ :=
  (displacement o first).bind fun d => (displacement (o - shift - d) second).map (d + ·)

variable {first second l : List Adjustment} {f a : Adjustment} {o d : ℤ} {stop shift cur : ℕ}

theorem Collapsing.of_cons (hc : Collapsing (f :: l)) : Collapsing l :=
  fun g hg => hc g (mem_cons_of_mem _ hg)

theorem collapse_add (hc : Collapsing l) (hf : f ∈ l) :
    f.outputLength + f.collapse = f.originalLength :=
  Nat.add_sub_of_le (hc f hf).le

theorem toInt_eq {z : ℤ} (hge : -2 ^ 31 ≤ z) (hlt : z < 2 ^ 31) : toInt z = z :=
  Int.bmod_eq_of_le (by omega) (by omega)

def lengths (l : List Adjustment) : ℕ := (l.map (·.originalLength)).sum

def outputLengths (l : List Adjustment) : ℕ := (l.map (·.outputLength)).sum

/-- All sums of lengths fit into an `int`. -/
structure Short (l : List Adjustment) : Prop where
  lengths : lengths l < 2 ^ 31
  outputLengths : outputLengths l < 2 ^ 31

@[simp] theorem lengths_cons (f : Adjustment) (l : List Adjustment) :
    lengths (f :: l) = f.originalLength + lengths l := by simp [lengths]

@[simp] theorem outputLengths_cons (f : Adjustment) (l : List Adjustment) :
    outputLengths (f :: l) = f.outputLength + outputLengths l := by simp [outputLengths]

@[simp] theorem lengths_append (l l' : List Adjustment) :
    lengths (l ++ l') = lengths l + lengths l' := by simp [lengths]

@[simp] theorem outputLengths_append (l l' : List Adjustment) :
    outputLengths (l ++ l') = outputLengths l + outputLengths l' := by simp [outputLengths]

theorem adjustLoop_eq {adjustment : ℤ} (hlt : adjustment + lengths l < 2 ^ 31)
    (hge : -2 ^ 31 ≤ adjustment - outputLengths l) (o : ℤ) :
    adjustLoop o adjustment l = (displacement o l).map (adjustment + ·) := by
  induction l generalizing adjustment with
  | nil => simp [adjustLoop, displacement]
  | cons i l ih =>
    rw [lengths_cons] at hlt
    rw [outputLengths_cons] at hge
    have hsum : toInt (adjustment + toInt (i.originalLength - i.outputLength)) =
        adjustment + (i.originalLength - i.outputLength) := by
      rw [toInt, toInt, Int.add_bmod_bmod]
      exact toInt_eq (by omega) (by omega)
    rw [adjustLoop, displacement, hsum, ih (by omega) (by omega)]
    split_ifs <;> simp [comp_def, Int.add_assoc]

theorem adjustOffset_eq (hl : Short l) (o : ℤ) :
    adjustOffset l (some o) = (displacement o l).map (o - ·) := by
  have := hl.lengths
  have := hl.outputLengths
  have heq := adjustLoop_eq (l := l) (show (0 : ℤ) + lengths l < 2 ^ 31 by omega) (by omega) o
  simp [adjustOffset, heq, map_eq_bind]

/-- The casts of the loop lose nothing for ranges that an `int` can measure. -/
theorem mergeLoop_eq_combine (hc : Collapsing first) (hl : lengths first < 2 ^ 31) :
    mergeLoop shift cur first second = combine shift cur first second := by
  fun_induction combine shift cur first second with
  | case1 => rw [mergeLoop]
  | case2 _ _ a second ih => rw [mergeLoop, ih hc hl]
  | case3 _ _ f first a second h ih => rw [mergeLoop, if_pos h, ih hc hl]
  | case4 _ _ f first a second h hlt ih =>
    rw [lengths_cons] at hl
    rw [mergeLoop, if_neg h, if_pos hlt, ← ih hc.of_cons (by omega), Adjustment.collapse]
  | case5 _ _ f first a second h hlt ih =>
    rw [lengths_cons] at hl
    have hout := hc f mem_cons_self
    have hcol : (toInt (toInt f.originalLength - toInt f.outputLength)).toNat = f.collapse := by
      rw [toInt_eq (z := f.originalLength) (by omega) (by omega),
        toInt_eq (z := f.outputLength) (by omega) (by omega), toInt_eq (by omega) (by omega),
        Adjustment.collapse]
      omega
    rw [mergeLoop, if_neg h, if_neg hlt]
    simp only [hcol]
    exact ih hc.of_cons (by omega)

theorem combine_lengths_le : lengths (combine shift cur first second) ≤
      lengths first + lengths second ∧
    outputLengths (combine shift cur first second) ≤
      outputLengths first + outputLengths second := by
  fun_induction combine shift cur first second <;>
    simp_all [lengths_cons, outputLengths_cons, Adjustment.collapse] <;> omega

theorem displacement_eq_zero (h : ∀ f ∈ l, o ≤ f.originalOffset) : displacement o l = some 0 := by
  cases l with
  | nil => rfl
  | cons f l => exact if_pos (h f mem_cons_self)

theorem displacement_cons (h : f.originalOffset < o)
    (hle : f.originalOffset + f.originalLength ≤ o) : displacement o (f :: l) =
      (displacement o l).map ((f.originalLength : ℤ) - f.outputLength + ·) := by
  rw [displacement, if_neg (by omega), if_neg (by omega)]

theorem displacement_inside (h : f.originalOffset < o)
    (hlt : o < f.originalOffset + f.originalLength) : displacement o (f :: l) = none := by
  rw [displacement, if_neg (by omega), if_pos hlt]

/-- An offset behind `b` stays behind it if all ranges have their outputs end behind `b`. -/
theorem lt_sub_displacement {b : ℤ} (hs : Sorted l) (hc : Collapsing l)
    (hb : ∀ f ∈ l, b < f.originalOffset + f.outputLength) (ho : b < o)
    (hd : displacement o l = some d) : b < o - d := by
  induction l generalizing b d with
  | nil =>
    cases hd
    omega
  | cons f l ih =>
    have hf := hb f mem_cons_self
    rw [displacement] at hd
    split_ifs at hd with hle
    · cases hd
      omega
    · obtain ⟨e, he, rfl⟩ := map_eq_some_iff.mp hd
      have := ih (b := b + (f.originalLength - f.outputLength)) hs.of_cons
        hc.of_cons
        (fun g hg => by have := rel_of_pairwise_cons hs hg; omega) (by omega) he
      omega

/-- What is collapsed into a range that ends at `stop`, and the adjustments behind it. -/
def absorb (stop : ℕ) : List Adjustment → ℕ × List Adjustment
  | [] => (0, [])
  | f :: first =>
    if stop ≤ f.originalOffset then (0, f :: first)
    else (f.collapse + (absorb (stop + f.collapse) first).1, (absorb (stop + f.collapse) first).2)

/-- All that is taken in lies in the range. -/
def Fits (stop : ℕ) : List Adjustment → Prop
  | [] => True
  | f :: first => stop ≤ f.originalOffset ∨ f.originalOffset + f.outputLength ≤ stop ∧
      Fits (stop + f.collapse) first

/-- A range that starts before the rest of the first list takes in what begins inside of it. -/
theorem combine_absorb (hs : Sorted first)
    (h : ∀ f ∈ first, a.originalOffset + shift ≤ f.originalOffset) :
    combine shift cur first (a :: second) =
      let r := absorb (a.originalOffset + shift + a.originalLength) first
      ⟨a.originalOffset + shift, a.originalLength + r.1, a.outputLength⟩ ::
        combine (shift + cur + r.1) 0 r.2 second := by
  induction first generalizing a cur with
  | nil => simp [combine, absorb]
  | cons f first ih =>
    have hf := h f mem_cons_self
    rw [combine, absorb]
    split_ifs with hle hlt
    · rfl
    · omega
    · refine (ih (a := ⟨_, a.originalLength + f.collapse, _⟩) hs.of_cons fun g hg =>
        h g (mem_cons_of_mem _ hg)).trans ?_
      simp only [← Nat.add_assoc]

theorem absorb_suffix (stop : ℕ) (first : List Adjustment) : (absorb stop first).2 <:+ first := by
  induction first generalizing stop with
  | nil => exact suffix_rfl
  | cons f first ih =>
    rw [absorb]
    split_ifs
    · exact suffix_rfl
    · exact (ih _).trans (suffix_cons f first)

theorem absorb_le (hs : Sorted first) (hf : f ∈ (absorb stop first).2) :
    stop + (absorb stop first).1 ≤ f.originalOffset := by
  induction first generalizing stop with
  | nil => cases hf
  | cons g first ih =>
    rw [absorb] at hf ⊢
    split_ifs at hf ⊢ with hle
    · rcases mem_cons.mp hf with rfl | hf
      · exact hle
      · have := rel_of_pairwise_cons hs hf
        omega
    · have := ih hs.of_cons hf
      omega

theorem absorb_of_le (h : ∀ f ∈ first, stop ≤ f.originalOffset) :
    absorb stop first = (0, first) := by
  cases first with
  | nil => rfl
  | cons f first => exact if_pos (h f mem_cons_self)

section Absorb

variable (hs : Sorted first) (hc : Collapsing first)

include hs hc

theorem displacement_of_fits (h : Fits stop first) (ho : stop + (absorb stop first).1 ≤ o) :
    displacement o first =
      (displacement o (absorb stop first).2).map (((absorb stop first).1 : ℤ) + ·) := by
  induction first generalizing stop with
  | nil => rfl
  | cons f first ih =>
    have hf := collapse_add hc mem_cons_self
    rw [absorb] at ho ⊢
    split_ifs at ho ⊢ with hle
    · simp
    · obtain ⟨hout, h⟩ := h.resolve_left hle
      rw [displacement_cons (by omega) (by omega),
        ih hs.of_cons hc.of_cons h (by omega), Option.map_map]
      congr 1
      funext d
      simp only [comp_apply]
      omega

theorem sub_displacement_lt (h : Fits stop first) (ho : o < stop + (absorb stop first).1)
    (hd : displacement o first = some d) : o - d < stop := by
  induction first generalizing stop d with
  | nil =>
    cases hd
    simpa [absorb] using ho
  | cons f first ih =>
    have hf := collapse_add hc mem_cons_self
    rw [absorb] at ho
    rw [displacement] at hd
    split_ifs at ho hd with hle hlt
    · cases hd
      omega
    · dsimp only at ho
      omega
    · cases hd
      omega
    · obtain ⟨e, he, rfl⟩ := map_eq_some_iff.mp hd
      have := ih hs.of_cons hc.of_cons (h.resolve_left hle).2
        (by dsimp only at ho; omega) he
      omega

theorem displacement_of_not_fits (h : ¬ Fits stop first) :
    displacement (stop + (absorb stop first).1 : ℕ) first = none ∧ 0 < (absorb stop first).1 := by
  induction first generalizing stop with
  | nil => exact absurd trivial h
  | cons f first ih =>
    have hf := collapse_add hc mem_cons_self
    have hlt := hc f mem_cons_self
    rw [Fits, not_or, not_and] at h
    obtain ⟨hle, h⟩ := h
    rw [absorb, if_neg hle]
    by_cases hout : f.originalOffset + f.outputLength ≤ stop
    · obtain ⟨hnone, -⟩ := ih hs.of_cons hc.of_cons (h hout)
      rw [displacement_cons (by dsimp only; omega) (by dsimp only; omega), ← Nat.add_assoc, hnone]
      exact ⟨rfl, by dsimp only; omega⟩
    · have hzero : absorb (stop + f.collapse) first = (0, first) := absorb_of_le fun g hg => by
        have := rel_of_pairwise_cons hs hg
        omega
      rw [hzero]
      exact ⟨displacement_inside (by dsimp only; omega) (by dsimp only; omega),
        by dsimp only; omega⟩

end Absorb

theorem displacement_combine_eq_zero (h : ∀ f ∈ first, o ≤ f.originalOffset)
    (ha : ∀ a ∈ second, o ≤ a.originalOffset + shift) :
    displacement o (combine shift cur first second) = some 0 := by
  fun_induction combine shift cur first second with
  | case1 => exact displacement_eq_zero h
  | case2 _ _ a => exact if_pos (ha a mem_cons_self)
  | case3 _ _ f _ a => exact if_pos (ha a mem_cons_self)
  | case4 _ _ f => exact if_pos (h f mem_cons_self)
  | case5 _ _ _ _ a _ _ _ ih =>
    refine ih (fun g hg => h g (mem_cons_of_mem _ hg)) (forall_mem_cons.mpr ?_)
    exact forall_mem_cons.mp ha

/-- The merged adjustments give what the two lists give one after the other. -/
def Agree (shift : ℕ) (first second : List Adjustment) : Prop :=
  ∀ o : ℕ, displacement o (combine shift 0 first second) = displacementTwice shift o first second

theorem agree_of_le (h : ∀ f ∈ first, o ≤ f.originalOffset)
    (ha : ∀ a ∈ second, o ≤ a.originalOffset + shift) :
    displacement o (combine shift 0 first second) = displacementTwice shift o first second := by
  rw [displacement_combine_eq_zero h ha, displacementTwice, displacement_eq_zero h]
  have (a) (h : a ∈ second) : o - shift ≤ a.originalOffset := by
    have := ha a h
    omega
  simp [displacement_eq_zero this]

theorem add_injective (c : ℤ) : (Option.map (c + ·)).Injective :=
  map_injective fun x y h => by simpa using h

theorem displacementTwice_map {c : ℕ}
    (h : displacement o first = (displacement o l).map ((c : ℤ) + ·)) :
    displacementTwice shift o first second =
      (displacementTwice (shift + c : ℕ) o l second).map ((c : ℤ) + ·) := by
  rw [displacementTwice, h, displacementTwice]
  cases displacement o l with
  | none => rfl
  | some d =>
    simp only [Option.map_some, Option.bind_some, Option.map_map, comp_def]
    rw [show o - shift - (c + d) = o - (shift + c : ℕ) - d by omega]
    simp only [Int.add_assoc]

/-- A range of the first list before the next one of the second does not matter. -/
theorem agree_cons_iff (hs : Sorted (f :: first)) (hc : Collapsing (f :: first))
    (ha : Sorted (a :: second)) (hlt : f.originalOffset < a.originalOffset + shift)
    (hout : f.originalOffset + f.outputLength ≤ a.originalOffset + shift) :
    Agree shift (f :: first) (a :: second) ↔ Agree (shift + f.collapse) first (a :: second) := by
  have hf := collapse_add hc mem_cons_self
  have hpos := hc f mem_cons_self
  refine forall_congr' fun o => ?_
  rw [combine, if_neg (by omega), if_pos hlt]
  by_cases ho : o < f.originalOffset + f.originalLength
  · refine iff_of_true ?_ (agree_of_le (fun g hg => ?_) (forall_mem_cons.mpr ⟨?_, fun s h => ?_⟩))
    · rw [displacementTwice]
      by_cases hle : o ≤ f.originalOffset
      · rw [displacement, displacement, if_pos (by omega), if_pos (by omega), bind_some,
          displacement, if_pos (by omega)]
        rfl
      · rw [displacement_inside (by omega) (by omega), displacement_inside (by omega) (by omega)]
        rfl
    · have := rel_of_pairwise_cons hs hg
      omega
    · omega
    · have := rel_of_pairwise_cons ha h
      omega
  · have hcf : (f.originalLength : ℤ) - f.outputLength = f.collapse := by omega
    have hd (l : List Adjustment) :
        displacement o (f :: l) = (displacement o l).map ((f.collapse : ℤ) + ·) := by
      rw [displacement_cons (by omega) (by omega), hcf]
    rw [hd, displacementTwice_map (hd first), (add_injective _).eq_iff]

/-- The offsets behind `a` stay behind it. -/
def Clear (shift : ℕ) (a : Adjustment) (first : List Adjustment) : Prop :=
  a.originalLength = 0 ∧ a.outputLength = 0 ∨
    ∀ f ∈ first, a.originalOffset + shift < f.originalOffset + f.outputLength

theorem displacement_behind (ha : Sorted (a :: second))
    (hle : a.originalOffset + a.originalLength ≤ o)
    (h : a.originalOffset < o ∨ a.originalLength = 0 ∧ a.outputLength = 0) :
    displacement o (a :: second) =
      (displacement o second).map ((a.originalLength : ℤ) - a.outputLength + ·) := by
  by_cases hlt : a.originalOffset < o
  · exact displacement_cons hlt hle
  · obtain ⟨hlen, hout⟩ := h.resolve_left hlt
    have (s) (hmem : s ∈ second) : o ≤ s.originalOffset := by
      have := rel_of_pairwise_cons ha hmem
      omega
    rw [displacement, if_pos (by omega), hlen, hout, displacement_eq_zero this]
    rfl

section Range

variable (hs : Sorted first) (hc : Collapsing first) (ha : Sorted (a :: second))
  (h : ∀ f ∈ first, a.originalOffset + shift ≤ f.originalOffset)

include hs hc ha h

theorem fits_of_agree (hag : Agree shift first (a :: second)) :
    Fits (a.originalOffset + shift + a.originalLength) first := by
  by_contra hfit
  obtain ⟨hnone, hpos⟩ := displacement_of_not_fits hs hc hfit
  have := hag (a.originalOffset + shift + a.originalLength +
    (absorb (a.originalOffset + shift + a.originalLength) first).1)
  rw [displacementTwice, hnone, combine_absorb hs h,
    displacement_cons (by dsimp only; omega) (by dsimp only; omega),
    displacement_combine_eq_zero (fun f hf => by have := absorb_le hs hf; omega)
      (fun s hmem => by have := rel_of_pairwise_cons ha hmem; omega)] at this
  cases this

variable (hfit : Fits (a.originalOffset + shift + a.originalLength) first)
  (hclear : Clear shift a first) {r : ℕ × List Adjustment}
  (hr : absorb (a.originalOffset + shift + a.originalLength) first = r)

include hfit hclear hr

theorem displacement_absorb (hlt : a.originalOffset + shift < o)
    (ho : a.originalOffset + shift + a.originalLength + r.1 ≤ o) :
    displacementTwice shift o first (a :: second) =
      (displacementTwice (shift + r.1 : ℕ) o r.2 second).map
        (((a.originalLength + r.1 : ℕ) : ℤ) - a.outputLength + ·) := by
  have hsub := absorb_suffix (a.originalOffset + shift + a.originalLength) first
  have hge (f) (hf : f ∈ (absorb (a.originalOffset + shift + a.originalLength) first).2) :=
    absorb_le hs hf
  have hd := displacement_of_fits (o := o) hs hc hfit
  rw [hr] at hsub hge hd
  rw [displacementTwice_map (hd ho), displacementTwice, displacementTwice]
  cases hdo : displacement o r.2 with
  | none => rfl
  | some d =>
    have := lt_sub_displacement (b := a.originalOffset + shift + a.originalLength + r.1 - 1)
      (hs.sublist hsub.sublist) (fun f hf => hc f (hsub.subset hf))
      (fun f hf => by have := hge f hf; omega) (by omega) hdo
    rw [bind_some, bind_some, displacement_behind ha (by omega)]
    · simp only [Option.map_map, comp_def]
      congr 1
      funext e
      omega
    · refine or_iff_not_imp_right.mpr fun h0 => ?_
      by_cases hlen : a.originalLength = 0
      · rw [hlen, Nat.add_zero, absorb_of_le h] at hr
        subst hr
        have := lt_sub_displacement (b := a.originalOffset + shift) hs hc
          (fun f hf => by have := hclear.resolve_left h0 f hf; omega) hlt hdo
        omega
      · omega

/-- What a range takes in does not matter once it fits and stays clear of empty outputs. -/
theorem agree_absorb_iff : Agree shift first (a :: second) ↔ Agree (shift + r.1) r.2 second := by
  refine forall_congr' fun o => ?_
  rw [combine_absorb hs h, hr]
  by_cases ho : o ≤ a.originalOffset + shift ∨
      o < a.originalOffset + shift + a.originalLength + r.1
  · refine iff_of_true ?_ (agree_of_le (fun f hf => ?_) fun s hmem => ?_)
    · rw [displacementTwice]
      by_cases hole : o ≤ a.originalOffset + shift
      · rw [displacement, if_pos (by dsimp only; omega),
          displacement_eq_zero (fun f hf => by have := h f hf; omega), bind_some,
          displacement, if_pos (by omega)]
        rfl
      · rw [displacement_inside (by dsimp only; omega) (by dsimp only; omega)]
        cases hdo : displacement o first with
        | none => rfl
        | some d =>
          have hb := hclear.resolve_left fun h0 => by
            rw [h0.1, Nat.add_zero, absorb_of_le h] at hr
            subst hr
            omega
          have := lt_sub_displacement (b := a.originalOffset + shift) hs hc
            (fun f hf => by have := hb f hf; omega) (by omega) hdo
          have := sub_displacement_lt hs hc hfit (by rw [hr]; omega) hdo
          rw [bind_some, displacement_inside (by omega) (by omega)]
          rfl
    · have := absorb_le hs (hr ▸ hf)
      rw [hr] at this
      omega
    · have := rel_of_pairwise_cons ha hmem
      omega
  · rw [displacement_cons (by dsimp only; omega) (by dsimp only; omega), displacement_absorb hs hc
      ha h hfit hclear hr (by omega) (by omega), (add_injective _).eq_iff, Nat.add_zero]

end Range

theorem collapse_eq (hout : f.outputLength = 0) : f.collapse = f.originalLength := by
  simp [Adjustment.collapse, hout]

section Empty

variable (hs : Sorted (f :: first)) (hpos : 0 < f.originalLength) (hout : f.outputLength = 0)

include hs hpos hout

/-- Where the first pass has removed `f`, a range of the second pass that starts there takes all
of `f` in if it is not empty, and comes before it if it is. -/
theorem displacement_combine_empty (hoff : f.originalOffset = a.originalOffset + shift) :
    displacement (f.originalOffset + f.originalLength)
        (combine shift 0 (f :: first) (a :: second)) =
      if a.originalLength = 0 then
        (displacement (f.originalOffset + f.originalLength)
          (combine shift 0 (f :: first) second)).map (-(a.outputLength : ℤ) + ·)
      else none := by
  have hle : ∀ g ∈ f :: first, a.originalOffset + shift ≤ g.originalOffset := by
    refine forall_mem_cons.mpr ⟨hoff.ge, fun g hg => ?_⟩
    have := rel_of_pairwise_cons hs hg
    omega
  rw [combine_absorb hs hle]
  split_ifs with hlen
  · simp only [hlen, Nat.add_zero, absorb_of_le hle]
    rw [displacement_cons (by dsimp only; omega) (by dsimp only; omega)]
    simp
  · have hcol := collapse_eq hout
    rw [absorb, if_neg (by omega)]
    exact displacement_inside (by dsimp only; omega) (by dsimp only; omega)

theorem displacement_combine_le {m : ℤ}
    (hle : ∀ a ∈ second, f.originalOffset ≤ a.originalOffset + shift)
    (hm : displacement (f.originalOffset + f.originalLength)
      (combine shift 0 (f :: first) second) = some m) : m ≤ f.originalLength := by
  have hfirst (g) (hg : g ∈ first) := rel_of_pairwise_cons hs hg
  induction second generalizing m with
  | nil =>
    rw [combine, displacement_cons (by omega) (by omega),
      displacement_eq_zero fun g hg => by have := hfirst g hg; omega] at hm
    cases hm
    dsimp only
    omega
  | cons a second ih =>
    have hb := hle a mem_cons_self
    obtain hoff | hlt := Nat.eq_or_lt_of_le hb
    · rw [displacement_combine_empty hs hpos hout hoff] at hm
      split_ifs at hm
      obtain ⟨e, he, rfl⟩ := map_eq_some_iff.mp hm
      have := ih (fun s hmem => hle s (mem_cons_of_mem _ hmem)) he
      omega
    · have hcol := collapse_eq hout
      rw [combine, if_neg (by omega), if_pos hlt, displacement_cons (by omega) (by omega),
        displacement_combine_eq_zero (fun g hg => by have := hfirst g hg; omega)
          (fun s hmem => by have := hle s hmem; omega)] at hm
      cases hm
      dsimp only
      omega

end Empty

theorem clear_of_agree (hs : Sorted first) (hc : Collapsing first) (ha : Sorted (a :: second))
    (h : ∀ f ∈ first, a.originalOffset + shift ≤ f.originalOffset)
    (hag : Agree shift first (a :: second)) : Clear shift a first := by
  refine or_iff_not_imp_left.mpr fun h0 => ?_
  cases first with
  | nil => simp
  | cons f first =>
    have hpos := hc f mem_cons_self
    have hf := h f mem_cons_self
    refine forall_mem_cons.mpr ⟨?_, fun g hg => ?_⟩
    · by_contra hnot
      have hout : f.outputLength = 0 := by omega
      have hend := hag (f.originalOffset + f.originalLength)
      rw [displacementTwice, Int.natCast_add, displacement_cons (by omega) (by omega),
        displacement_eq_zero (l := first) fun g hg => by
          have := rel_of_pairwise_cons hs hg
          omega,
        displacement_combine_empty hs (by omega) hout (by omega), map_some,
        bind_some, displacement_eq_zero (l := a :: second) (forall_mem_cons.mpr
          ⟨by omega, fun s hmem => by have := rel_of_pairwise_cons ha hmem; omega⟩),
        map_some] at hend
      split_ifs at hend with hlen
      obtain ⟨e, he, heq⟩ := map_eq_some_iff.mp hend
      have := displacement_combine_le hs (by omega) hout (fun s hmem => by
        have := rel_of_pairwise_cons ha hmem
        omega) he
      omega
    · have := rel_of_pairwise_cons hs hg
      omega

theorem outputs_cons (hc : Collapsing (f :: first)) : outputs shift (f :: first) =
      ((f.originalOffset : ℤ) - shift, (f.outputLength : ℤ)) ::
        outputs (shift + f.collapse : ℕ) first := by
  have := collapse_add hc mem_cons_self
  rw [outputs, show (shift : ℤ) + (f.originalLength - f.outputLength) =
    (shift + f.collapse : ℕ) by omega]

section

variable (hs : Sorted first) (hc : Collapsing first)

include hs hc

theorem outputs_le {x : ℤ} {p : ℤ × ℤ}
    (h : ∀ f ∈ first, x + shift ≤ f.originalOffset) (hp : p ∈ outputs shift first) : x ≤ p.1 := by
  induction first generalizing shift with
  | nil => cases hp
  | cons f first ih =>
    have hf := h f mem_cons_self
    have := collapse_add hc mem_cons_self
    rw [outputs_cons hc] at hp
    rcases mem_cons.mp hp with rfl | hp
    · dsimp only
      omega
    · refine ih hs.of_cons hc.of_cons (fun g hg => ?_) hp
      have := rel_of_pairwise_cons hs hg
      omega

theorem fits_iff : Fits (stop + shift) first ↔
      ∀ p ∈ outputs shift first, ¬ (p.1 < stop ∧ stop < p.1 + p.2) := by
  induction first generalizing shift with
  | nil => simp [Fits, outputs]
  | cons f first ih =>
    have hf := collapse_add hc mem_cons_self
    rw [outputs_cons hc, forall_mem_cons, Fits, Nat.add_assoc, ih hs.of_cons hc.of_cons]
    by_cases hle : stop + shift ≤ f.originalOffset
    · refine iff_of_true (.inl hle) ⟨by dsimp only; omega, fun p hp => ?_⟩
      have := outputs_le (x := stop) hs.of_cons hc.of_cons (fun g hg => by
        have := rel_of_pairwise_cons hs hg
        omega) hp
      omega
    · rw [or_iff_right hle]
      refine and_congr_left fun _ => ?_
      omega

theorem clear_iff
    (h : ∀ f ∈ first, a.originalOffset + shift ≤ f.originalOffset) :
    Clear shift a first ↔ ∀ p ∈ outputs shift first,
      ¬ (p.2 = 0 ∧ a.originalOffset = p.1 ∧ (0 < a.originalLength ∨ 0 < a.outputLength)) := by
  by_cases h0 : a.originalLength = 0 ∧ a.outputLength = 0
  · exact iff_of_true (.inl h0) fun p _ => by omega
  rw [Clear, or_iff_right h0]
  cases first with
  | nil => simp [outputs]
  | cons f first =>
    have hf := h f mem_cons_self
    have hcol := collapse_add hc mem_cons_self
    rw [outputs_cons hc, forall_mem_cons, forall_mem_cons]
    refine ⟨fun ⟨hlt, _⟩ => ⟨by dsimp only; omega, fun p hp => ?_⟩,
      fun ⟨hlt, _⟩ => ⟨by dsimp only at hlt; omega, fun g hg => ?_⟩⟩
    · have := outputs_le (x := a.originalOffset + 1) hs.of_cons
        hc.of_cons
        (fun g hg => by have := rel_of_pairwise_cons hs hg; omega) hp
      omega
    · have := rel_of_pairwise_cons hs hg
      omega

theorem outputs_absorb (h : Fits (stop + shift) first) :
    ∃ taken, outputs shift first = taken ++ outputs
        (shift + (absorb (stop + shift) first).1 : ℕ) (absorb (stop + shift) first).2 ∧
      ∀ p ∈ taken, p.1 < stop ∧ p.1 + p.2 ≤ stop := by
  induction first generalizing shift with
  | nil => exact ⟨[], rfl, by simp⟩
  | cons f first ih =>
    rw [absorb]
    split_ifs with hle
    · exact ⟨[], rfl, by simp⟩
    · obtain ⟨hout, h⟩ := h.resolve_left hle
      rw [Nat.add_assoc] at h
      obtain ⟨taken, heq, ht⟩ := ih hs.of_cons hc.of_cons h
      refine ⟨((f.originalOffset : ℤ) - shift, (f.outputLength : ℤ)) :: taken, ?_,
        forall_mem_cons.mpr ⟨by dsimp only; omega, ht⟩⟩
      rw [outputs_cons hc, heq, cons_append, ← Nat.add_assoc, ← Nat.add_assoc]

theorem StartsAligned.absorb
    (hal : StartsAligned (outputs shift first) (a :: second))
    (h : Fits (a.originalOffset + shift + a.originalLength) first) :
    let r := OffsetAdjuster.absorb (a.originalOffset + shift + a.originalLength) first
    StartsAligned (outputs (shift + r.1 : ℕ) r.2) second := by
  rw [Nat.add_right_comm] at h ⊢
  obtain ⟨taken, heq, -⟩ := outputs_absorb hs hc h
  rw [heq] at hal
  exact fun s hmem p hp => hal s (mem_cons_of_mem _ hmem) p (mem_append_right _ hp)

end

theorem endsAligned_cons_iff (hc : Collapsing (f :: first)) (ha : Sorted (a :: second))
    (hlt : f.originalOffset < a.originalOffset + shift)
    (hout : f.originalOffset + f.outputLength ≤ a.originalOffset + shift) :
    EndsAligned (outputs shift (f :: first)) (a :: second) ↔
      EndsAligned (outputs (shift + f.collapse : ℕ) first) (a :: second) := by
  refine forall₂_congr fun s hmem => ?_
  have : a.originalOffset ≤ s.originalOffset := by
    rcases mem_cons.mp hmem with rfl | hmem
    · exact le_rfl
    · have := rel_of_pairwise_cons ha hmem
      omega
  rw [outputs_cons hc, forall_mem_cons]
  refine and_iff_right ?_
  omega

theorem endsAligned_absorb_iff (hs : Sorted first) (hc : Collapsing first)
    (ha : Sorted (a :: second)) (h : ∀ f ∈ first, a.originalOffset + shift ≤ f.originalOffset)
    {r : ℕ × List Adjustment}
    (hr : absorb (a.originalOffset + shift + a.originalLength) first = r) :
    EndsAligned (outputs shift first) (a :: second) ↔
      (Fits (a.originalOffset + shift + a.originalLength) first ∧ Clear shift a first) ∧
        EndsAligned (outputs (shift + r.1 : ℕ) r.2) second := by
  rw [Nat.add_right_comm] at hr ⊢
  rw [EndsAligned, forall_mem_cons, clear_iff hs hc h, fits_iff hs hc, ← forall₂_and,
    Int.natCast_add]
  refine and_congr_right fun hal => ?_
  obtain ⟨taken, heq, ht⟩ := outputs_absorb hs hc ((fits_iff hs hc).mpr fun p hp => (hal p hp).1)
  rw [hr] at heq
  refine forall₂_congr fun s hmem => ?_
  have := rel_of_pairwise_cons ha hmem
  rw [heq, forall_mem_append]
  refine and_iff_right fun p hp => ?_
  have := ht p hp
  omega

/-- By induction over the merged list: the two ways agree exactly if the ends are aligned. -/
theorem agree_iff (hs : Sorted first) (hc : Collapsing first) (ha : Sorted second)
    (hal : StartsAligned (outputs shift first) second) :
    Agree shift first second ↔ EndsAligned (outputs shift first) second := by
  induction second generalizing shift first with
  | nil =>
    refine iff_of_true (fun o => ?_) fun s hmem => nomatch hmem
    rw [combine, displacementTwice]
    cases displacement o first <;> simp [displacement]
  | cons a second iha =>
    have hrange {shift : ℕ} {first : List Adjustment} (hs : Sorted first) (hc : Collapsing first)
        (hal : StartsAligned (outputs shift first) (a :: second))
        (h : ∀ f ∈ first, a.originalOffset + shift ≤ f.originalOffset) :
        Agree shift first (a :: second) ↔ EndsAligned (outputs shift first) (a :: second) := by
      rw [endsAligned_absorb_iff hs hc ha h rfl]
      have hsub := absorb_suffix (a.originalOffset + shift + a.originalLength) first
      have htail (hfit) := iha (hs.sublist hsub.sublist) (fun f hf => hc f (hsub.subset hf))
        ha.of_cons (hal.absorb hs hc hfit)
      refine ⟨fun hag => ?_, fun ⟨⟨hfit, hclear⟩, hend⟩ =>
        (agree_absorb_iff hs hc ha h hfit hclear rfl).mpr ((htail hfit).mpr hend)⟩
      have hfit := fits_of_agree hs hc ha h hag
      have hclear := clear_of_agree hs hc ha h hag
      exact ⟨⟨hfit, hclear⟩, (htail hfit).mp ((agree_absorb_iff hs hc ha h hfit hclear rfl).mp hag)⟩
    induction first generalizing shift with
    | nil => exact hrange hs hc hal (by simp)
    | cons f first ihf =>
      by_cases hlt : f.originalOffset < a.originalOffset + shift
      · rw [outputs_cons hc] at hal
        have hout : f.originalOffset + f.outputLength ≤ a.originalOffset + shift := by
          have := hal a mem_cons_self _ mem_cons_self
          omega
        rw [agree_cons_iff hs hc ha hlt hout, endsAligned_cons_iff hc ha hlt hout]
        exact ihf hs.of_cons hc.of_cons
          fun s hmem p hp => hal s hmem p (mem_cons_of_mem _ hp)
      · refine hrange hs hc hal (forall_mem_cons.mpr ⟨Nat.le_of_not_lt hlt, fun g hg => ?_⟩)
        have := rel_of_pairwise_cons hs hg
        omega

/-- For two lists of ranges that do not overlap, the first of which collapses and none of the
second starting strictly inside of an output of the first, merging is adjusting twice if and only
if no range of the second ends strictly inside of an output or starts at an empty one. -/
theorem adjustOffset_merge_iff (hs : Sorted first) (hc : Collapsing first) (ha : Sorted second)
    (hal : StartsAligned (outputs 0 first) second) (hl : Short (first ++ second)) :
    (∀ o : ℕ, adjustOffset (mergeSequentialAdjustments first second) (some o) =
      adjustOffset second (adjustOffset first (some o))) ↔
      EndsAligned (outputs 0 first) second := by
  have hlen := hl.lengths
  have hout := hl.outputLengths
  rw [lengths_append] at hlen
  rw [outputLengths_append] at hout
  have hle : lengths (combine 0 0 first second) ≤ lengths first + lengths second ∧ _ :=
    combine_lengths_le
  have hmerged : Short (combine 0 0 first second) := ⟨by omega, by omega⟩
  refine Iff.trans (forall_congr' fun o => ?_) (agree_iff hs hc ha hal : Agree 0 _ _ ↔ _)
  rw [mergeSequentialAdjustments, mergeLoop_eq_combine hc (by omega), adjustOffset_eq hmerged,
    adjustOffset_eq ⟨by omega, by omega⟩, displacementTwice]
  cases displacement o first with
  | none => simp [adjustOffset]
  | some d =>
    have hmap : (displacement (o - d) second).map (o - d - ·) =
        ((displacement (o - d) second).map (d + ·)).map ((o : ℤ) - ·) := by
      simp only [Option.map_map, comp_def, Int.sub_sub]
    have hinj : (Option.map ((o : ℤ) - ·)).Injective := Option.map_injective fun x y h => by omega
    rw [map_some, adjustOffset_eq ⟨by omega, by omega⟩, bind_some, hmap, hinj.eq_iff]
    simp

theorem adjustOffset_merge_inside :
    adjustOffset (mergeSequentialAdjustments [⟨1, 3, 1⟩] [⟨0, 3, 1⟩]) (some 7) =
      adjustOffset [⟨0, 3, 1⟩] (adjustOffset [⟨1, 3, 1⟩] (some 7)) :=
  (adjustOffset_merge_iff (by simp [Sorted]) (by simp [Collapsing]) (by simp [Sorted])
    (by simp [StartsAligned, outputs]) ⟨by decide, by decide⟩).mpr
    (by simp [EndsAligned, outputs]) 7

/-- The lists of the unit test of `MergeSequentialAdjustments`, which asks for this merged range:
a range of the second pass starts where the first one has removed something.  The two passes
move the offset behind the removed text to the start of that range, but it lies inside of the
merged one. -/
theorem adjustOffset_merge_removed :
    (Sorted [⟨0, 1, 0⟩, ⟨1, 2, 1⟩] ∧ Collapsing [⟨0, 1, 0⟩, ⟨1, 2, 1⟩] ∧ Sorted [⟨0, 2, 1⟩] ∧
      StartsAligned (outputs 0 [⟨0, 1, 0⟩, ⟨1, 2, 1⟩]) [⟨0, 2, 1⟩] ∧
      Short ([⟨0, 1, 0⟩, ⟨1, 2, 1⟩] ++ [⟨0, 2, 1⟩])) ∧
    adjustOffset [⟨0, 2, 1⟩] (adjustOffset [⟨0, 1, 0⟩, ⟨1, 2, 1⟩] (some 1)) = some 0 ∧
      mergeSequentialAdjustments [⟨0, 1, 0⟩, ⟨1, 2, 1⟩] [⟨0, 2, 1⟩] = [⟨0, 4, 1⟩] ∧
      adjustOffset [⟨0, 4, 1⟩] (some 1) = none := by
  refine ⟨⟨by simp [Sorted], by simp [Collapsing], by simp [Sorted],
    by simp [StartsAligned, outputs], by decide, by decide⟩, by decide, ?_, by decide⟩
  simp [mergeSequentialAdjustments, mergeLoop, show toInt 2 = 2 by decide,
    show toInt 1 = 1 by decide, show toInt 0 = 0 by decide]

end ChromiumBase.OffsetAdjuster
