import Mathlib.Data.List.Pairwise
import Mathlib.Data.Set.Insert

/-!
# Looking up strings in a fixed set

`FixedSetIncrementalLookup` walks the bytes of a compiled DAFSA, one character at a time.

A pointer into the array is the list of the bytes from it to the end of the array, so
`end_` is the empty list; `nullptr` is `none`.  A read past the end of the array and a failed
`DCHECK` are a missing result.  A character is an integer, so that the comparisons are right
for a signed and for an unsigned `char`.

A state of the walk serves a set of words, each of them the rest of a key followed by its
return value.  After a character the state serves the words that the character leaves
(`Serves`).
-/

open List Option

namespace ChromiumBase.FixedSet

abbrev kDafsaNotFound : ℤ := -1

def readOffset : List ℕ → Option (ℕ × ℕ)
  | [] => none
  | b :: rest =>
    if b &&& 0x60 = 0x60 then
      match rest with
      | b₁ :: b₂ :: _ => some (((b &&& 0x1F) <<< 16) ||| (b₁ <<< 8) ||| b₂, 3)
      | _ => none
    else if b &&& 0x60 = 0x40 then
      match rest with
      | b₁ :: _ => some (((b &&& 0x1F) <<< 8) ||| b₁, 2)
      | [] => none
    else some (b &&& 0x3F, 1)

def isEOL (b : ℕ) : Bool :=
  b &&& 0x80 ≠ 0

def isMatch (b : ℕ) (key : ℤ) : Bool :=
  ((b &&& 0x7F : ℕ) : ℤ) = key

def getReturnValue (b : ℕ) : Option ℤ :=
  if b &&& 0xE0 = 0x80 then some ((b &&& 0x1F : ℕ) : ℤ) else none

/-- Reads a link: the next position in the links, and the child the link leads to. -/
def getNextOffset (pos offset : List ℕ) : Option (Option (List ℕ) × List ℕ) :=
  match pos with
  | [] => none
  | b :: _ => (readOffset pos).map fun (distance, bytesConsumed) =>
    (if isEOL b then none else some (pos.drop bytesConsumed), offset.drop distance)

/-- The loop over the links of a node: `test` looks at the first byte of a child, and the
loop ends with the first child that passes. -/
def scanChildren {β : Type} (test : ℕ → List ℕ → Option β) :
    ℕ → List ℕ → List ℕ → Option (Option β)
  | 0, _, _ => none
  | n + 1, pos, offset =>
    match getNextOffset pos offset with
    | none => none
    | some (_, []) => none
    | some (some [], _) => none
    | some (next, b :: rest) =>
      match test b rest, next with
      | some r, _ => some (some r)
      | none, none => some none
      | none, some pos => scanChildren test n pos (b :: rest)

structure Lookup where
  pos : Option (List ℕ)
  posIsLabelCharacter : Bool

namespace Lookup

def exhausted : Lookup :=
  ⟨none, false⟩

def enter (b : ℕ) (rest : List ℕ) : Option (Bool × Lookup) :=
  if rest = [] then none else some (true, ⟨some rest, !isEOL b⟩)

def advance (l : Lookup) (input : ℤ) : Option (Bool × Lookup) :=
  match l.pos with
  | none => some (false, l)
  | some pos =>
    if 0x20 ≤ input then
      if l.posIsLabelCharacter then
        match pos with
        | [] => none
        | b :: rest => if isMatch b input then enter b rest else some (false, exhausted)
      else
        match scanChildren (fun b rest => if isMatch b input then some (b, rest) else none)
            pos.length pos pos with
        | none => none
        | some none => some (false, exhausted)
        | some (some (b, rest)) => enter b rest
    else some (false, exhausted)

def getResultForCurrentSequence (l : Lookup) : Option ℤ :=
  match l.posIsLabelCharacter, l.pos with
  | true, some (b :: _) => some ((getReturnValue b).getD kDafsaNotFound)
  | true, _ => none
  | false, none => some kDafsaNotFound
  | false, some pos =>
    (scanChildren (fun b _ => getReturnValue b) pos.length pos pos).map (·.getD kDafsaNotFound)

def advanceAll (l : Lookup) : List ℤ → Option (Bool × Lookup)
  | [] => some (true, l)
  | c :: key => do
    let (found, l) ← l.advance c
    let (all, l) ← l.advanceAll key
    some (found && all, l)

end Lookup

def lookupFrom (l : Lookup) : List ℤ → Option ℤ
  | [] => l.getResultForCurrentSequence
  | c :: key => do
    let (found, l) ← l.advance c
    if found then lookupFrom l key else some kDafsaNotFound

def lookupStringInFixedSet (graph : List ℕ) (key : List ℤ) : Option ℤ :=
  lookupFrom ⟨some graph, false⟩ key

def Entry (w : List ℤ) : Prop :=
  ∃ key v, w = key ++ [v] ∧ (∀ c ∈ key, 0x20 ≤ c ∧ c < 0x80) ∧ 0 ≤ v ∧ v < 0x20

/-- The return value of the key in the set of words, `-1` if there is none. -/
def IsValue (W : Set (List ℤ)) (key : List ℤ) (r : ℤ) : Prop :=
  (0 ≤ r ∧ r < 0x20 ∧ key ++ [r] ∈ W) ∨
    (r = -1 ∧ ∀ v, 0 ≤ v → v < 0x20 → key ++ [v] ∉ W)

def derivative (W : Set (List ℤ)) (c : ℤ) : Set (List ℤ) :=
  {w | c :: w ∈ W}

def Answers : List ℤ → Lookup → Set (List ℤ) → Prop
  | [], l, W => ∃ r, l.getResultForCurrentSequence = some r ∧ IsValue W [] r
  | c :: key, l, W => ∃ found l', l.advance c = some (found, l') ∧
    (found = true ↔ ∃ w ∈ derivative W c, w ≠ []) ∧ Answers key l' (derivative W c)

/-- The state gives the right answers for the set of words, whatever the input is. -/
structure Serves (l : Lookup) (W : Set (List ℤ)) : Prop where
  nonempty : W.Nonempty
  entry : ∀ w ∈ W, Entry w
  answers : ∀ key, Answers key l W

variable {W : Set (List ℤ)} {w key : List ℤ} {c : ℤ} {l : Lookup} {pos offset : List ℕ}
  {children : List (ℕ × List ℕ)}

theorem answers_exhausted (h : ∀ w ∈ W, w = []) (key : List ℤ) : Answers key .exhausted W := by
  induction key generalizing W with
  | nil => exact ⟨-1, rfl, .inr ⟨rfl, fun v _ _ hv => by simpa using h _ hv⟩⟩
  | cons c key ih =>
    refine ⟨false, .exhausted, rfl, ?_, ih fun w hw => ?_⟩
    · simp only [Bool.false_eq_true, false_iff]
      rintro ⟨w, hw, -⟩
      simpa using h _ hw
    · simpa using h _ hw

theorem Entry.ne_nil (h : Entry w) : w ≠ [] := by
  obtain ⟨key, v, rfl, -⟩ := h
  simp

theorem Entry.cons (h : Entry (c :: w)) :
    (0x20 ≤ c ∧ c < 0x80 ∧ Entry w) ∨ (0 ≤ c ∧ c < 0x20 ∧ w = []) := by
  obtain ⟨_ | ⟨a, key⟩, v, hw, hk, hv⟩ := h
  · obtain ⟨rfl, rfl⟩ : c = v ∧ w = [] := by simpa using hw
    exact .inr ⟨hv.1, hv.2, rfl⟩
  · obtain ⟨rfl, rfl⟩ : c = a ∧ w = key ++ [v] := by simpa using hw
    have hc := hk c mem_cons_self
    exact .inl ⟨hc.1, hc.2, key, v, rfl, fun x hx => hk x (mem_cons_of_mem _ hx), hv⟩

theorem answers_cons_exhausted (ha : l.advance c = some (false, .exhausted))
    (h : ∀ w, c :: w ∈ W → w = []) : Answers (c :: key) l W := by
  refine ⟨false, .exhausted, ha, ?_, answers_exhausted h key⟩
  simp only [Bool.false_eq_true, false_iff]
  rintro ⟨w, hw, hne⟩
  exact hne (h w hw)

theorem Serves.ne_nil {bytes : List ℕ} {isLabel : Bool} (h : Serves ⟨some bytes, isLabel⟩ W) :
    bytes ≠ [] := by
  rintro rfl
  obtain ⟨r, hr, -⟩ := h.answers []
  cases isLabel <;> cases hr

theorem byte_facts : ∀ c < 0x80, c &&& 0x7F = c ∧ isEOL c = false ∧
    getReturnValue c = none ∧ (c ||| 1 <<< 7) &&& 0x7F = c ∧ isEOL (c ||| 1 <<< 7) = true ∧
    getReturnValue (c ||| 1 <<< 7) = if c < 0x20 then some (c : ℤ) else none := by
  decide

def consAll (c : ℕ) (W : Set (List ℤ)) : Set (List ℤ) :=
  {w | ∃ v ∈ W, w = (c : ℤ) :: v}

theorem derivative_consAll (c : ℕ) (W : Set (List ℤ)) : derivative (consAll c W) c = W := by
  simp [derivative, consAll]

/-- A state in front of a character of a label. -/
theorem serves_label {b c : ℕ} {rest : List ℕ} (hc : 0x20 ≤ c) (hc' : c < 0x80)
    (hb : b &&& 0x7F = c) (hv : getReturnValue b = none) (hr : rest ≠ [])
    (h : Serves ⟨some rest, !isEOL b⟩ W) : Serves ⟨some (b :: rest), true⟩ (consAll c W) := by
  refine ⟨?_, ?_, fun key => ?_⟩
  · obtain ⟨w, hw⟩ := h.nonempty
    exact ⟨(c : ℤ) :: w, w, hw, rfl⟩
  · rintro _ ⟨w, hw, rfl⟩
    obtain ⟨key, v, rfl, hk, hv⟩ := h.entry w hw
    refine ⟨(c : ℤ) :: key, v, rfl, fun x hx => ?_, hv⟩
    rcases mem_cons.1 hx with rfl | hx
    · omega
    · exact hk x hx
  · obtain _ | ⟨x, key⟩ := key
    · refine ⟨-1, by simp [Lookup.getResultForCurrentSequence, hv], .inr ⟨rfl, ?_⟩⟩
      rintro v - hv ⟨w, -, hw⟩
      obtain ⟨rfl, -⟩ : v = (c : ℤ) ∧ [] = w := by simpa using hw
      omega
    by_cases hx : x = (c : ℤ)
    · subst hx
      have hadv : Lookup.advance ⟨some (b :: rest), true⟩ (c : ℤ) =
          some (true, ⟨some rest, !isEOL b⟩) := by
        have hge : (0x20 : ℤ) ≤ c := by omega
        simp [Lookup.advance, Lookup.enter, isMatch, hb, hr, hge]
      refine ⟨true, _, hadv, ?_, ?_⟩
      · rw [derivative_consAll]
        obtain ⟨w, hw⟩ := h.nonempty
        exact ⟨fun _ => ⟨w, hw, (h.entry w hw).ne_nil⟩, fun _ => rfl⟩
      · rw [derivative_consAll]
        exact h.answers key
    · refine answers_cons_exhausted ?_ ?_
      · by_cases hge : (0x20 : ℤ) ≤ x
        · have hne : ¬ (c : ℤ) = x := fun h => hx h.symm
          simp [Lookup.advance, isMatch, hb, hne]
        · simp [Lookup.advance, hge]
      · rintro w ⟨v, -, hw⟩
        exact absurd (by simpa using hw : x = (c : ℤ) ∧ w = v).1 hx

theorem serves_value {b v : ℕ} (hv : v < 0x20) (hb : b &&& 0x7F = v)
    (hret : getReturnValue b = some (v : ℤ)) (rest : List ℕ) :
    Serves ⟨some (b :: rest), true⟩ {[(v : ℤ)]} := by
  refine ⟨Set.singleton_nonempty _, ?_, fun key => ?_⟩
  · rintro _ rfl
    exact ⟨[], v, rfl, by simp, by omega, by omega⟩
  · obtain _ | ⟨x, key⟩ := key
    · refine ⟨v, by simp [Lookup.getResultForCurrentSequence, hret], .inl ?_⟩
      exact ⟨by omega, by omega, rfl⟩
    refine answers_cons_exhausted ?_ ?_
    · by_cases hge : (0x20 : ℤ) ≤ x
      · have hne : ¬ (v : ℤ) = x := by omega
        simp [Lookup.advance, isMatch, hb, hne]
      · simp [Lookup.advance, hge]
    · intro w hw
      exact (List.cons.inj (Set.mem_singleton_iff.1 hw)).2

/-- The links at `pos`, relative to `offset`, lead to these children. -/
inductive Links : List ℕ → List ℕ → List (ℕ × List ℕ) → Prop
  | last {pos offset rest : List ℕ} {b : ℕ} :
      getNextOffset pos offset = some (none, b :: rest) → Links pos offset [(b, rest)]
  | more {pos pos' offset rest : List ℕ} {b : ℕ} {children : List (ℕ × List ℕ)} :
      getNextOffset pos offset = some (some pos', b :: rest) → Links pos' (b :: rest) children →
      Links pos offset ((b, rest) :: children)

theorem Links.ne_nil (h : Links pos offset children) : pos ≠ [] := by
  rintro rfl
  cases h with
  | last h => cases h
  | more h => cases h

theorem readOffset_pos {distance n : ℕ} (h : readOffset pos = some (distance, n)) : 0 < n := by
  unfold readOffset at h
  split at h
  · cases h
  · split at h
    · split at h
      · cases h
        decide
      · cases h
    · split at h
      · split at h
        · cases h
          decide
        · cases h
      · cases h
        decide

theorem length_of_getNextOffset {pos' child : List ℕ}
    (h : getNextOffset pos offset = some (some pos', child)) : pos'.length < pos.length := by
  obtain _ | ⟨b, bytes⟩ := pos
  · cases h
  obtain ⟨⟨distance, n⟩, hr, heq⟩ := map_eq_some_iff.1 h
  have hn := readOffset_pos hr
  simp only [Prod.mk.injEq] at heq
  by_cases hb : isEOL b
  · simp [hb] at heq
  · have hpos : (b :: bytes).drop n = pos' := by simpa [hb] using heq.1
    rw [← hpos, length_drop]
    simp only [length_cons]
    omega

theorem Links.length_le (h : Links pos offset children) : children.length ≤ pos.length := by
  induction h with
  | @last pos _ _ _ h => exact length_pos_iff.2 (Links.last h).ne_nil
  | more h _ ih =>
    have := length_of_getNextOffset h
    simp only [length_cons]
    omega

/-- The loop over links finds the first child that passes the test. -/
theorem scanChildren_links {β : Type} (test : ℕ → List ℕ → Option β) (h : Links pos offset children)
    {n : ℕ} (hn : children.length ≤ n) :
    scanChildren test n pos offset = some (children.findSome? fun c => test c.1 c.2) := by
  induction h generalizing n with
  | @last pos offset rest b h =>
    obtain ⟨n, rfl⟩ : ∃ m, n = m + 1 := ⟨n - 1, by simp at hn; omega⟩
    simp only [scanChildren, h, findSome?_cons]
    cases test b rest <;> rfl
  | @more pos pos' offset rest b children h hl ih =>
    obtain ⟨n, rfl⟩ : ∃ m, n = m + 1 := ⟨n - 1, by simp at hn; omega⟩
    obtain ⟨a, tail, rfl⟩ := exists_cons_of_ne_nil hl.ne_nil
    simp only [scanChildren, h, findSome?_cons]
    cases test b rest with
    | some r => rfl
    | none => exact ih (by simpa using hn)

theorem getReturnValue_nonneg {b : ℕ} {r : ℤ} (h : getReturnValue b = some r) : 0 ≤ r := by
  rw [getReturnValue] at h
  split at h
  · cases h
    exact Int.natCast_nonneg _
  · cases h

section Children

variable {ι : Type} {children : List ι} {bytes : ι → ℕ × List ℕ} {W : ι → Set (List ℤ)}

variable (hl : Links pos pos (children.map bytes))
  (hs : ∀ i ∈ children, Serves ⟨some ((bytes i).1 :: (bytes i).2), true⟩ (W i))

include hl hs

theorem result_links : Answers [] ⟨some pos, false⟩ {w | ∃ i ∈ children, w ∈ W i} := by
  have value : ∀ i ∈ children, IsValue (W i) [] ((getReturnValue (bytes i).1).getD (-1)) := by
    intro i hi
    obtain ⟨r, hr, hv⟩ := (hs i hi).answers []
    rwa [some.inj hr]
  have hsc := scanChildren_links (fun b _ => getReturnValue b) hl hl.length_le
  rw [findSome?_map] at hsc
  have hre : Lookup.getResultForCurrentSequence ⟨some pos, false⟩ = some ((children.findSome?
      ((fun c : ℕ × List ℕ => getReturnValue c.1) ∘ bytes)).getD (-1)) := by
    simp only [Lookup.getResultForCurrentSequence, hsc, map_some]
  refine ⟨_, hre, ?_⟩
  rcases eq_none_or_eq_some
    (children.findSome? ((fun c : ℕ × List ℕ => getReturnValue c.1) ∘ bytes)) with hf | ⟨r, hf⟩
  · rw [hf]
    refine .inr ⟨rfl, fun v hv hv' hw => ?_⟩
    obtain ⟨i, hi, hw⟩ := hw
    have hn : getReturnValue (bytes i).1 = none := findSome?_eq_none_iff.1 hf i hi
    have hval := value i hi
    rw [hn] at hval
    rcases hval with ⟨hneg, -⟩ | ⟨-, hno⟩
    · exact absurd hneg (by decide)
    · exact hno v hv hv' hw
  · obtain ⟨i, hi, hr⟩ := exists_of_findSome?_eq_some hf
    have hr : getReturnValue (bytes i).1 = some r := hr
    have hval := value i hi
    rw [hr] at hval
    rw [hf]
    rcases hval with ⟨h0, h1, hw⟩ | ⟨hneg, -⟩
    · exact .inl ⟨h0, h1, i, hi, hw⟩
    · have hnon := getReturnValue_nonneg hr
      have hneg : r = -1 := hneg
      omega

/-- A state in front of the links of a node, whose children start with different characters. -/
theorem serves_links
    (hfi : ∀ i ∈ children, ∀ c w, c :: w ∈ W i → c = (((bytes i).1 &&& 0x7F : ℕ) : ℤ))
    (hd : children.Pairwise fun i j => (bytes i).1 &&& 0x7F ≠ (bytes j).1 &&& 0x7F) :
    Serves ⟨some pos, false⟩ {w | ∃ i ∈ children, w ∈ W i} := by
  have hsa : ∀ i ∈ children, ∀ j ∈ children,
      (bytes i).1 &&& 0x7F = (bytes j).1 &&& 0x7F → i = j := by
    intro i hi j hj heq
    by_contra hne
    have : Std.Symm fun i j => (bytes i).1 &&& 0x7F ≠ (bytes j).1 &&& 0x7F :=
      ⟨fun _ _ h => h.symm⟩
    exact hd.forall hi hj hne heq
  have he : ∀ w, (∃ i ∈ children, w ∈ W i) → Entry w :=
    fun w ⟨i, hi, hw⟩ => (hs i hi).entry w hw
  refine ⟨?_, he, fun key => ?_⟩
  · obtain ⟨i, hi⟩ : ∃ i, i ∈ children := by
      refine exists_mem_of_ne_nil _ fun hnil => ?_
      rw [hnil] at hl
      cases hl
    obtain ⟨w, hw⟩ := (hs i hi).nonempty
    exact ⟨w, i, hi, hw⟩
  obtain _ | ⟨x, key⟩ := key
  · exact result_links hl hs
  by_cases hge : (0x20 : ℤ) ≤ x
  swap
  · refine answers_cons_exhausted (by simp [Lookup.advance, hge]) fun w hw => ?_
    rcases (he _ hw).cons with ⟨hx, -⟩ | ⟨-, -, hnil⟩
    · exact absurd hx hge
    · exact hnil
  have hsc := scanChildren_links
    (fun b rest => if isMatch b x then some (b, rest) else none) hl hl.length_le
  rw [findSome?_map] at hsc
  rcases eq_none_or_eq_some (children.findSome? ((fun c : ℕ × List ℕ =>
    if isMatch c.1 x then some (c.1, c.2) else none) ∘ bytes)) with hf | ⟨⟨b, rest⟩, hf⟩
  · rw [hf] at hsc
    refine answers_cons_exhausted (by simp [Lookup.advance, hsc]) fun w hw => ?_
    obtain ⟨i, hi, hw⟩ := hw
    have hno := findSome?_eq_none_iff.1 hf i hi
    have hx := hfi i hi x w hw
    simp [isMatch, ← hx] at hno
  · rw [hf] at hsc
    obtain ⟨i, hi, hm⟩ := exists_of_findSome?_eq_some hf
    obtain ⟨hma, heq⟩ := ite_none_right_eq_some.1 hm
    obtain ⟨rfl, rfl⟩ := Prod.mk.inj (some.inj heq)
    have hx : (((bytes i).1 &&& 0x7F : ℕ) : ℤ) = x := by
      simpa [isMatch] using hma
    have hder : derivative {w | ∃ i ∈ children, w ∈ W i} x = derivative (W i) x := by
      ext w
      constructor
      · rintro ⟨j, hj, hw⟩
        obtain rfl : i = j := by
          refine hsa i hi j hj ?_
          have hxj := hfi j hj x w hw
          omega
        exact hw
      · exact fun hw => ⟨i, hi, hw⟩
    obtain ⟨found, l', hadv, hfo, hans⟩ := (hs i hi).answers (x :: key)
    refine ⟨found, l', ?_, by rw [hder]; exact hfo, by rw [hder]; exact hans⟩
    rw [← hadv]
    simp [Lookup.advance, hsc, hma]

end Children

/-- The incremental lookup after any input: whether some word continues the input, and the
value of the input. -/
theorem advanceAll_of_answers (h : Answers key l W) :
    ∃ found l' r, l.advanceAll key = some (found, l') ∧
      (found = true ↔ key = [] ∨ ∃ w, w ≠ [] ∧ key ++ w ∈ W) ∧
      l'.getResultForCurrentSequence = some r ∧ IsValue W key r := by
  induction key generalizing l W with
  | nil =>
    obtain ⟨r, hr, hv⟩ := h
    exact ⟨true, l, r, rfl, by simp, hr, hv⟩
  | cons c key ih =>
    obtain ⟨found, l', hadv, hf, hans⟩ := h
    obtain ⟨all, l'', r, hall, hc, hr, hv⟩ := ih hans
    refine ⟨found && all, l'', r, by simp [Lookup.advanceAll, hadv, hall], ?_, hr,
      hv⟩
    rw [Bool.and_eq_true, hf, hc]
    constructor
    · rintro ⟨⟨v, hmem, hne⟩, rfl | ⟨w, hw, hmem⟩⟩
      · exact .inr ⟨v, hne, hmem⟩
      · exact .inr ⟨w, hw, hmem⟩
    · rintro (hnil | ⟨w, hw, hmem⟩)
      · cases hnil
      · exact ⟨⟨key ++ w, hmem, by simp [hw]⟩, .inr ⟨w, hw, hmem⟩⟩

theorem lookupFrom_of_answers (h : Answers key l W) :
    ∃ r, lookupFrom l key = some r ∧ IsValue W key r := by
  induction key generalizing l W with
  | nil => exact h
  | cons c key ih =>
    obtain ⟨found, l', hadv, hf, hans⟩ := h
    cases found with
    | true =>
      obtain ⟨r, hr, hv⟩ := ih hans
      exact ⟨r, by simp [lookupFrom, hadv, hr], hv⟩
    | false =>
      refine ⟨-1, by simp [lookupFrom, hadv], .inr ⟨rfl, fun v _ _ hw => ?_⟩⟩
      have hno := hf.not.1 Bool.false_ne_true
      exact hno ⟨key ++ [v], hw, by simp⟩

end ChromiumBase.FixedSet
