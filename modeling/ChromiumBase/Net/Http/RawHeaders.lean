import ChromiumBase.Lib.Tokens
import Mathlib.Algebra.Order.Ring.Nat
import Mathlib.Data.List.Chain

/-!
# Raw headers

`AssembleRawHeaders` and `ConvertHeadersBackToHTTPResponse` (`net/http/http_util.cc`).  The
assembled headers are lines that a NUL ends, with one more NUL behind the last.

Assembling again what was converted back gives the same exactly if, without its NULs, no line of
the input is empty, no line looks like a continuation of the one before, and there is nothing before
an `http` that then lies within the first bytes (`assembleRawHeaders_stable_iff`).  NULs are erased
only after the lines have been split and joined, so that each of these can fail.
-/

open List

namespace ChromiumBase.HttpUtil

open Tokens

abbrev Bytes := List UInt8

def nul : UInt8 := 0

def tab : UInt8 := 9

def lf : UInt8 := 10

def cr : UInt8 := 13

def space : UInt8 := 0x20

def colon : UInt8 := 0x3a

def toLowerASCII (c : UInt8) : UInt8 := if 0x41 ≤ c ∧ c ≤ 0x5a then c + 0x20 else c

def httpText : Bytes := [0x68, 0x74, 0x74, 0x70]

def isLWS (c : UInt8) : Bool := c = space ∨ c = tab

def isLineBreak (c : UInt8) : Bool := c = cr ∨ c = lf

def isNul (c : UInt8) : Bool := c = nul

/-- Nothing is `npos`. -/
def locateStartOfStatusLine (buf : Bytes) : Option ℕ :=
  if 4 ≤ buf.length then
    (List.range (min (buf.length - 4) 4 + 1)).find? fun i =>
      ((buf.drop i).take 4).map toLowerASCII = httpText
  else none

def isLineSegmentContinuable (line : Bytes) : Bool :=
  match line.findIdx? (· = colon) with
  | none => false
  | some colon =>
    match line.take colon with
    | [] => false
    | c :: _ => !isLWS c

def findStatusLineEnd (str : Bytes) : ℕ := (str.findIdx? isLineBreak).getD str.length

def removeLeadingNonLWS (str : Bytes) : Bytes := str.dropWhile isLWS

def startsWithLWS (line : Bytes) : Bool := line.head?.any isLWS

/-- What the loop of `AssembleRawHeaders` appends for the line segments left. -/
def assembleLines : Bool → List Bytes → Bytes
  | _, [] => []
  | prevLineContinuable, line :: lines =>
    if prevLineContinuable ∧ startsWithLWS line then
      space :: removeLeadingNonLWS line ++ assembleLines prevLineContinuable lines
    else lf :: line ++ assembleLines (isLineSegmentContinuable line) lines

def assembleRawHeaders (input : Bytes) : Bytes :=
  let input := match locateStartOfStatusLine input with
    | none => input
    | some statusBeginOffset => input.drop statusBeginOffset
  let statusLineEnd := findStatusLineEnd input
  let rawHeaders := input.take statusLineEnd ++
    assembleLines false (tokens isLineBreak (input.drop statusLineEnd)) ++ [lf, lf]
  (rawHeaders.filter (!isNul ·)).map fun c => if c = lf then nul else c

def convertHeadersBackToHTTPResponse (str : Bytes) : Bytes :=
  (tokens isNul str).flatMap (· ++ [cr, lf]) ++ [cr, lf]

variable {prev : Bool} {first line : Bytes} {lines rest : List Bytes} (text input : Bytes)

/-- The lines that line segments form: what continues the line before, and the lines behind it. -/
def joinSegments : Bool → List Bytes → Bytes × List Bytes
  | _, [] => ([], [])
  | prev, line :: lines =>
    if prev ∧ startsWithLWS line then
      let r := joinSegments prev lines
      (space :: removeLeadingNonLWS line ++ r.1, r.2)
    else
      let r := joinSegments (isLineSegmentContinuable line) lines
      ([], (line ++ r.1) :: r.2)

theorem assembleLines_eq (prev : Bool) (lines : List Bytes) : assembleLines prev lines =
      (joinSegments prev lines).1 ++ (joinSegments prev lines).2.flatMap (lf :: ·) := by
  induction lines generalizing prev with
  | nil => rfl
  | cons line lines ih =>
    rw [assembleLines, joinSegments]
    split
    · rw [ih]
      simp
    · rw [ih]
      simp

theorem joinSegments_false (lines : List Bytes) : (joinSegments false lines).1 = [] := by
  cases lines with
  | nil => rfl
  | cons line lines => rfl

theorem joinSegments_free {p : UInt8 → Bool} (hs : p space = false) (prev : Bool)
    (hli : ∀ line ∈ lines, Free p line) :
    Free p (joinSegments prev lines).1 ∧ ∀ line ∈ (joinSegments prev lines).2, Free p line := by
  induction lines generalizing prev with
  | nil => exact ⟨Free.nil, fun line h => absurd h not_mem_nil⟩
  | cons line lines ih =>
    have hlin := hli line mem_cons_self
    replace ih := fun prev : Bool => ih prev fun line h =>
      hli line (mem_cons_of_mem _ h)
    rw [joinSegments]
    split
    · refine ⟨?_, (ih prev).2⟩
      refine Free.append (a := space :: removeLeadingNonLWS line) ?_ (ih prev).1
      intro c hc
      rcases mem_cons.mp hc with rfl | hc
      · exact hs
      · exact hlin c ((dropWhile_sublist _).subset hc)
    · refine ⟨Free.nil, fun l hl => ?_⟩
      rcases mem_cons.mp hl with rfl | hl
      · exact hlin.append (ih _).1
      · exact (ih _).2 l hl

def NoContinuation : Bool → List Bytes → Prop
  | _, [] => True
  | prev, line :: lines =>
    ¬ (prev ∧ startsWithLWS line) ∧ NoContinuation (isLineSegmentContinuable line) lines

theorem joinSegments_of_noContinuation (h : NoContinuation prev lines) :
    joinSegments prev lines = ([], lines) := by
  induction lines generalizing prev with
  | nil => rfl
  | cons line lines ih =>
    rw [joinSegments, if_neg h.1, ih h.2]
    dsimp only
    rw [append_nil]

theorem length_joinSegments_le (prev : Bool) (lines : List Bytes) :
    (joinSegments prev lines).2.length ≤ lines.length := by
  induction lines generalizing prev with
  | nil => exact le_rfl
  | cons line lines ih =>
    rw [joinSegments]
    split
    · exact (ih prev).trans (Nat.le_succ _)
    · exact Nat.succ_le_succ (ih _)

theorem noContinuation_of_length (h : (joinSegments prev lines).2.length = lines.length) :
    NoContinuation prev lines := by
  induction lines generalizing prev with
  | nil => trivial
  | cons line lines ih =>
    rw [joinSegments] at h
    split at h
    · have hle := length_joinSegments_le prev lines
      rw [h, length_cons] at hle
      omega
    next hc => exact ⟨hc, ih (Nat.succ.inj h)⟩

theorem noContinuation_cons_iff (prev : Bool) (line : Bytes) (lines : List Bytes) :
    NoContinuation prev (line :: lines) ↔ ¬ (prev ∧ startsWithLWS line) ∧
      (line :: lines).IsChain fun a b => ¬ (isLineSegmentContinuable a ∧ startsWithLWS b) := by
  induction lines generalizing prev line with
  | nil => exact and_congr_right fun _ => iff_of_true trivial (.singleton _)
  | cons next lines ih =>
    rw [NoContinuation, ih, isChain_cons_cons]

theorem noContinuation_iff_isChain : NoContinuation false lines ↔
    lines.IsChain fun a b => ¬ (isLineSegmentContinuable a ∧ startsWithLWS b) := by
  cases lines with
  | nil => exact iff_of_true trivial .nil
  | cons line lines =>
    rw [noContinuation_cons_iff]
    exact and_iff_right fun h => Bool.false_ne_true h.1

theorem joinSegments_eq_iff : (joinSegments false lines).2 = lines ↔ NoContinuation false lines :=
  ⟨fun h => noContinuation_of_length (by rw [h]), fun h => by rw [joinSegments_of_noContinuation h]⟩

def eraseNul (line : Bytes) : Bytes := line.filter (!isNul ·)

/-- Lines with a NUL behind each, and another one behind all. -/
def joinNul (first : Bytes) (rest : List Bytes) : Bytes :=
  first ++ rest.flatMap (nul :: ·) ++ [nul, nul]

theorem joinNul_nil (first : Bytes) : joinNul first [] = first ++ [nul, nul] := by
  rw [joinNul, flatMap_nil, append_nil]

theorem joinNul_cons (first line : Bytes) (rest : List Bytes) :
    joinNul first (line :: rest) = first ++ nul :: joinNul line rest := by
  simp [joinNul]

theorem joinNul_eq_flatMap (first : Bytes) (rest : List Bytes) :
    joinNul first rest = (first :: rest).flatMap (· ++ [nul]) ++ [nul] := by
  induction rest generalizing first with
  | nil => simp [joinNul]
  | cons line rest ih => rw [joinNul_cons, ih, flatMap_cons]; simp

def fromStatusLine (input : Bytes) : Bytes :=
  match locateStartOfStatusLine input with
  | none => input
  | some statusBeginOffset => input.drop statusBeginOffset

def statusLine (text : Bytes) : Bytes := text.take (findStatusLineEnd text)

def segments (text : Bytes) : List Bytes :=
  tokens isLineBreak (text.drop (findStatusLineEnd text))

def headerLines (text : Bytes) : List Bytes := (joinSegments false (segments text)).2

theorem statusLine_free : Free isLineBreak (statusLine text) := by
  intro c hc
  rw [statusLine, findStatusLineEnd] at hc
  cases hf : text.findIdx? isLineBreak with
  | none =>
    rw [hf, Option.getD_none, take_length] at hc
    simpa using findIdx?_eq_none_iff.mp hf c hc
  | some n =>
    rw [hf, Option.getD_some] at hc
    obtain ⟨i, hi, rfl⟩ := mem_take_iff_getElem.mp hc
    have := (findIdx?_eq_some_iff_getElem.mp hf).2.2
    exact Bool.eq_false_of_not_eq_true (this i (by omega))

theorem headerLines_free : ∀ line ∈ headerLines text, Free isLineBreak line :=
  (joinSegments_free (by decide) false fun line hl => tokensFrom_spec Free.nil line hl).2

def normalize (raw : Bytes) : Bytes :=
  (raw.filter (!isNul ·)).map fun c => if c = lf then nul else c

theorem normalize_append (a b : Bytes) : normalize (a ++ b) = normalize a ++ normalize b := by
  rw [normalize, filter_append, map_append]
  rfl

theorem normalize_line (h : Free isLineBreak line) : normalize line = eraseNul line := by
  refine (map_congr_left fun c hc => if_neg ?_).trans (map_id _)
  rintro rfl
  have hb : isLineBreak lf = false := h lf (mem_filter.mp hc).1
  exact absurd hb (by decide)

theorem normalize_lines (h : ∀ line ∈ lines, Free isLineBreak line) :
    normalize (lines.flatMap (lf :: ·)) = (lines.map eraseNul).flatMap (nul :: ·) := by
  induction lines with
  | nil => rfl
  | cons line lines ih =>
    rw [flatMap_cons, normalize_append, ih fun l hl => h l (mem_cons_of_mem _ hl), ←
      singleton_append, normalize_append, normalize_line (h line mem_cons_self)]
    rfl

theorem assembleRawHeaders_eq :
    assembleRawHeaders input = joinNul (eraseNul (statusLine (fromStatusLine input)))
      ((headerLines (fromStatusLine input)).map eraseNul) := by
  have hraw : assembleRawHeaders input = normalize (statusLine (fromStatusLine input) ++
      assembleLines false (tokens isLineBreak ((fromStatusLine input).drop
        (findStatusLineEnd (fromStatusLine input)))) ++ [lf, lf]) := rfl
  rw [hraw, assembleLines_eq, joinSegments_false, nil_append, normalize_append,
    normalize_append, normalize_line (statusLine_free _)]
  have hl := normalize_lines (headerLines_free (fromStatusLine input))
  rw [headerLines, segments] at hl
  rw [hl]
  rfl

theorem eraseNul_eq_nil_iff : eraseNul line = [] ↔ ∀ c ∈ line, c = nul := by
  simp [eraseNul, isNul]

theorem eraseNul_ne_nil_iff : eraseNul line ≠ [] ↔ ∃ c ∈ line, c ≠ nul := by
  simp [eraseNul_eq_nil_iff]

theorem eraseNul_ne_nil_of_startsWithLWS (h : startsWithLWS line = true) : eraseNul line ≠ [] := by
  cases line with
  | nil => cases h
  | cons c line =>
    refine eraseNul_ne_nil_iff.mpr ⟨c, mem_cons_self, ?_⟩
    rintro rfl
    exact absurd h (by decide : ¬ isLWS nul = true)

theorem isLineSegmentContinuable_of_eraseNul (h : eraseNul line = []) :
    isLineSegmentContinuable line = false := by
  have hno : line.findIdx? (· = colon) = none := findIdx?_eq_none_iff.mpr fun c hc => by
    rw [eraseNul_eq_nil_iff.mp h c hc]
    rfl
  rw [isLineSegmentContinuable, hno]

/-- A line is of NULs only if its first segment is, which nothing continues then. -/
theorem forall_mem_joinSegments_iff (prev : Bool) (lines : List Bytes) :
    (∀ line ∈ (joinSegments prev lines).2, eraseNul line ≠ []) ↔
      ∀ line ∈ lines, eraseNul line ≠ [] := by
  induction lines generalizing prev with
  | nil => rfl
  | cons line lines ih =>
    rw [joinSegments, forall_mem_cons]
    split
    next hc => exact (ih prev).trans (and_iff_right (eraseNul_ne_nil_of_startsWithLWS hc.2)).symm
    · refine forall_mem_cons.trans (and_congr (not_congr ?_) (ih _))
      constructor
      · intro h
        rw [eraseNul, filter_append] at h
        exact (append_eq_nil_iff.mp h).1
      · intro h
        rw [isLineSegmentContinuable_of_eraseNul h, joinSegments_false, append_nil]
        exact h

theorem headerLines_eq_nil_iff : headerLines text = [] ↔ segments text = [] := by
  rw [headerLines]
  cases segments text with
  | nil => exact iff_of_true rfl rfl
  | cons line lines => exact iff_of_false (cons_ne_nil _ _) (cons_ne_nil _ _)

structure Clean (line : Bytes) : Prop where
  noBreak : Free isLineBreak line
  noNul : Free isNul line

theorem Clean.eraseNul (h : Free isLineBreak line) : Clean (eraseNul line) where
  noBreak c hc := h c (filter_sublist.subset hc)
  noNul c hc := by simpa using (mem_filter.mp hc).2

theorem Clean.eraseNul_eq (h : Clean line) : HttpUtil.eraseNul line = line :=
  filter_eq_self.mpr fun c hc => by simp [h.noNul c hc]

theorem Clean.nul_not_mem (h : Clean line) : nul ∉ line := fun hmem =>
  absurd (h.noNul nul hmem) (by decide)

theorem clean_headerLines : ∀ line ∈ (headerLines text).map eraseNul, Clean line := by
  intro line hl
  obtain ⟨joined, hj, rfl⟩ := mem_map.mp hl
  exact Clean.eraseNul (headerLines_free text joined hj)

def rawLines (raw : Bytes) : List Bytes := (raw.take (raw.length - 2)).splitOn nul

/-- Joined lines are found again. -/
theorem rawLines_joinNul (hf : Clean first) (hr : ∀ line ∈ rest, Clean line) :
    rawLines (joinNul first rest) = first :: rest := by
  have hj : first ++ rest.flatMap (nul :: ·) = [nul].intercalate (first :: rest) := by
    clear hf hr
    induction rest generalizing first with
    | nil => simp
    | cons line rest ih =>
      rw [intercalate_cons_cons, ← ih]
      simp
  have ht : (joinNul first rest).take ((joinNul first rest).length - 2) =
      [nul].intercalate (first :: rest) := by
    rw [← hj, joinNul, length_append]
    exact take_left' rfl
  rw [rawLines, ht]
  refine splitOn_intercalate nul (fun line hl => ?_) (cons_ne_nil _ _)
  rcases mem_cons.mp hl with rfl | hl
  · exact hf.nul_not_mem
  · exact (hr line hl).nul_not_mem

def DoubleNulAtEnd (raw : Bytes) : Prop := ∀ a b, raw = a ++ nul :: nul :: b → b = []

theorem joinNul_head (line : Bytes) (rest : List Bytes) :
    ∃ text, joinNul line rest = line ++ nul :: text ∧ text ≠ [] := by
  cases rest with
  | nil => exact ⟨[nul], joinNul_nil line, cons_ne_nil _ _⟩
  | cons next rest =>
    simp [joinNul]

theorem doubleNulAtEnd_cons (hf : Clean first) (hl : Clean line) :
    DoubleNulAtEnd (joinNul first (line :: rest)) ↔
      line ≠ [] ∧ DoubleNulAtEnd (joinNul line rest) := by
  rw [joinNul_cons]
  constructor
  · intro h
    refine ⟨?_, fun a b heq => h (first ++ nul :: a) b (by rw [heq]; simp)⟩
    rintro rfl
    obtain ⟨text, ht, hne⟩ := joinNul_head [] rest
    exact hne (h first text (by rw [ht, nil_append]))
  · rintro ⟨hne, h⟩ a b heq
    obtain ⟨a', hr⟩ := append_eq_append_cons hf.nul_not_mem heq
    cases a' with
    | nil =>
      obtain ⟨c, tail, rfl⟩ := exists_cons_of_ne_nil hne
      have hc : c = nul := (List.cons.inj (List.cons.inj hr).2).1
      exact absurd (hc ▸ mem_cons_self) hl.nul_not_mem
    | cons x a' => exact h a' b (List.cons.inj hr).2

theorem doubleNulAtEnd_joinNul (hf : Clean first) (hr : ∀ line ∈ rest, Clean line) :
    DoubleNulAtEnd (joinNul first rest) ↔ ∀ line ∈ rest, line ≠ [] := by
  induction rest generalizing first with
  | nil =>
    refine iff_of_true (fun a b heq => ?_) fun line h => absurd h not_mem_nil
    rw [joinNul_nil] at heq
    obtain ⟨a', hr⟩ := append_eq_append_cons hf.nul_not_mem heq
    have hle := congrArg List.length hr
    simp only [length_append, length_cons, length_nil] at hle
    exact length_eq_zero_iff.mp (by omega)
  | cons line rest ih =>
    rw [doubleNulAtEnd_cons hf (hr line mem_cons_self), ih (hr line mem_cons_self) fun l hl => hr l
      (mem_cons_of_mem _ hl), forall_mem_cons]

/-- Lines with line breaks behind them, and one more behind all. -/
def joinBreaks (lines : List Bytes) : Bytes := lines.flatMap (· ++ [cr, lf]) ++ [cr, lf]

theorem convertHeadersBackToHTTPResponse_joinNul (hf : Clean first)
    (hr : ∀ line ∈ rest, Clean line) : convertHeadersBackToHTTPResponse (joinNul first rest) =
      joinBreaks ((first :: rest).filter (· ≠ [])) := by
  have hl : ∀ line ∈ first :: rest, Free isNul line :=
    forall_mem_cons.mpr ⟨hf.noNul, fun line h => (hr line h).noNul⟩
  have hnul : ∀ c ∈ [nul], isNul c = true := by simp [isNul]
  have ht : tokens isNul (joinNul first rest) = (first :: rest).filter (· ≠ []) := by
    rw [joinNul_eq_flatMap, tokens_flatMap hl (cons_ne_nil _ _) hnul]
    exact append_nil _
  rw [convertHeadersBackToHTTPResponse, ht, joinBreaks]

theorem joinBreaks_cons (line : Bytes) (lines : List Bytes) :
    joinBreaks (line :: lines) = line ++ cr :: lf :: joinBreaks lines := by
  simp [joinBreaks]

theorem findStatusLineEnd_append (h : Free isLineBreak line) (rest : Bytes) :
    findStatusLineEnd (line ++ cr :: rest) = line.length := by
  have hcr : (cr :: rest).findIdx? isLineBreak = some 0 := by
    rfl
  rw [findStatusLineEnd, findIdx?_append, findIdx?_eq_none_iff.mpr fun c hc => h c hc, hcr]
  exact Nat.zero_add _

theorem statusLine_joinBreaks (h : Free isLineBreak line) (lines : List Bytes) :
    statusLine (joinBreaks (line :: lines)) = line := by
  rw [statusLine, joinBreaks_cons, findStatusLineEnd_append h, take_left' rfl]

theorem headerLines_joinBreaks (h : Free isLineBreak line)
    (hli : ∀ line ∈ lines, Free isLineBreak line ∧ line ≠ []) :
    headerLines (joinBreaks (line :: lines)) = (joinSegments false lines).2 := by
  have hf : lines.filter (· ≠ []) = lines :=
    filter_eq_self.mpr fun l hl => by simpa using (hli l hl).2
  have hb : ∀ c ∈ [cr, lf], isLineBreak c = true := by simp [isLineBreak]
  have ht : tokens isLineBreak (cr :: lf :: joinBreaks lines) = lines := by
    rw [tokens_cons_delim (by decide), tokens_cons_delim (by decide), joinBreaks,
      tokens_flatMap (fun l hl => (hli l hl).1) (cons_ne_nil _ _) hb, hf]
    exact append_nil _
  rw [headerLines, segments, joinBreaks_cons, findStatusLineEnd_append h, drop_left' rfl, ht]

/-- The number of bytes that are neither NULs nor line breaks. -/
def weight (text : Bytes) : ℕ := text.countP fun c => !isNul c && !isLineBreak c

theorem weight_cons_of_good (c : UInt8) (text : Bytes) (hc : (!isNul c && !isLineBreak c) = true) :
    weight (c :: text) = weight text + 1 :=
  countP_cons_of_pos hc

theorem weight_append (a b : Bytes) : weight (a ++ b) = weight a + weight b := countP_append

theorem weight_cons_nul : weight (nul :: text) = weight text :=
  countP_cons_of_neg (by decide)

theorem weight_eraseNul (line : Bytes) : weight (eraseNul line) = weight line := by
  rw [weight, eraseNul, countP_filter]
  refine countP_congr fun c _ => ?_
  cases isNul c <;> simp

theorem weight_filter_break : weight (text.filter (!isLineBreak ·)) = weight text := by
  rw [weight, countP_filter]
  refine countP_congr fun c _ => ?_
  cases isLineBreak c <;> simp

theorem weight_joinNul (first : Bytes) (rest : List Bytes) :
    weight (joinNul first rest) = weight first + weight rest.flatten := by
  induction rest generalizing first with
  | nil => rw [joinNul_nil, weight_append]; rfl
  | cons line rest ih =>
    rw [joinNul_cons, weight_append, weight_cons_nul, ih, flatten_cons, weight_append]

theorem weight_joinBreaks (lines : List Bytes) :
    weight (joinBreaks lines) = weight lines.flatten := by
  have hb : weight [cr, lf] = 0 := by decide
  induction lines with
  | nil => exact hb
  | cons line lines ih =>
    have hc : joinBreaks (line :: lines) = line ++ ([cr, lf] ++ joinBreaks lines) := by
      rw [joinBreaks_cons]
      rfl
    rw [hc, weight_append, weight_append, hb, ih, flatten_cons, weight_append, Nat.zero_add]

theorem weight_removeLeadingNonLWS (h : startsWithLWS line = true) :
    weight (removeLeadingNonLWS line) + 1 ≤ weight line := by
  cases line with
  | nil => cases h
  | cons c line =>
    have hc : isLWS c = true := h
    have hg : (!isNul c && !isLineBreak c) = true := by
      rcases of_decide_eq_true hc with rfl | rfl <;> rfl
    have hd : removeLeadingNonLWS (c :: line) = line.dropWhile isLWS := by
      rw [removeLeadingNonLWS, dropWhile_cons_of_pos hc]
    rw [hd, weight_cons_of_good c line hg]
    exact Nat.succ_le_succ ((dropWhile_sublist _).countP_le)

theorem weight_joinSegments_le (prev : Bool) (lines : List Bytes) :
    weight (joinSegments prev lines).1 + weight (joinSegments prev lines).2.flatten ≤
      weight lines.flatten := by
  induction lines generalizing prev with
  | nil => exact le_rfl
  | cons line lines ih =>
    rw [joinSegments, flatten_cons, weight_append]
    split
    next hc =>
      have hl := weight_removeLeadingNonLWS hc.2
      have hs : weight (space :: removeLeadingNonLWS line) =
          weight (removeLeadingNonLWS line) + 1 := weight_cons_of_good space _ (by decide)
      have := ih prev
      dsimp only
      rw [weight_append, hs]
      omega
    · have := ih (isLineSegmentContinuable line)
      dsimp only
      rw [flatten_cons, weight_append, weight_append]
      have hnil : weight [] = 0 := rfl
      omega

/-- Assembling adds nothing but NULs and line breaks. -/
theorem weight_assembleRawHeaders_le :
    weight (assembleRawHeaders input) ≤ weight (fromStatusLine input) := by
  have hl := weight_joinSegments_le false (tokens isLineBreak ((fromStatusLine input).drop
    (findStatusLineEnd (fromStatusLine input))))
  have he : ∀ lines : List Bytes, weight (lines.map eraseNul).flatten = weight lines.flatten := by
    intro lines
    induction lines with
    | nil => rfl
    | cons line lines ih =>
      rw [map_cons, flatten_cons, weight_append, weight_eraseNul, ih, flatten_cons, weight_append]
  rw [flatten_tokens, weight_filter_break] at hl
  rw [assembleRawHeaders_eq, weight_joinNul, weight_eraseNul, he]
  calc weight (statusLine (fromStatusLine input)) +
        weight (headerLines (fromStatusLine input)).flatten
      ≤ weight ((fromStatusLine input).take (findStatusLineEnd (fromStatusLine input))) +
        weight ((fromStatusLine input).drop (findStatusLineEnd (fromStatusLine input))) :=
        Nat.add_le_add_left (le_trans (Nat.le_add_left _ _) hl) _
    _ = weight (fromStatusLine input) := by rw [← weight_append, take_append_drop]

theorem fromStatusLine_of_locate {text : Bytes}
    (h : ∀ i, locateStartOfStatusLine text = some i → i = 0) : fromStatusLine text = text := by
  rw [fromStatusLine]
  cases hl : locateStartOfStatusLine text with
  | none => rfl
  | some i =>
    rw [h i hl]
    rfl

/-- `http` stands at an offset of the text, in any case. -/
def HttpAt (text : Bytes) (i : ℕ) : Prop := ((text.drop i).take 4).map toLowerASCII = httpText

instance (text : Bytes) (i : ℕ) : Decidable (HttpAt text i) :=
  inferInstanceAs (Decidable (_ = _))

theorem HttpAt.le {text : Bytes} {i : ℕ} (h : HttpAt text i) : i + 4 ≤ text.length := by
  have hlen := congrArg length h
  simp only [length_map, length_take, length_drop, httpText, length_cons, length_nil] at hlen
  omega

/-- The search ends at the first of five offsets. -/
theorem locateStartOfStatusLine_eq_zero_iff {text : Bytes} :
    (∀ i, locateStartOfStatusLine text = some i → i = 0) ↔
      HttpAt text 0 ∨ ∀ i ≤ 4, ¬ HttpAt text i := by
  rw [locateStartOfStatusLine]
  split
  next hle =>
    change (∀ i, (List.range (min (text.length - 4) 4 + 1)).find? (HttpAt text ·) = some i →
      i = 0) ↔ _
    by_cases h0 : HttpAt text 0
    · have hf : (List.range (min (text.length - 4) 4 + 1)).find? (HttpAt text ·) = some 0 := by
        rw [range_succ_eq_map]
        exact find?_cons_of_pos (decide_eq_true h0)
      refine iff_of_true (fun i h => ?_) (.inl h0)
      exact (Option.some.inj (hf.symm.trans h)).symm
    · rw [or_iff_right h0]
      constructor
      · intro h i hi hat
        have hr : i ∈ List.range (min (text.length - 4) 4 + 1) := by
          have := hat.le
          exact mem_range.mpr (by omega)
        have hs : ((List.range (min (text.length - 4) 4 + 1)).find? (HttpAt text ·)).isSome :=
          find?_isSome.mpr ⟨i, hr, decide_eq_true hat⟩
        obtain ⟨n, hn⟩ := Option.isSome_iff_exists.mp hs
        have hz : decide (HttpAt text n) = true := find?_some (p := (HttpAt text ·)) hn
        rw [h n hn] at hz
        exact h0 (of_decide_eq_true hz)
      · intro h i hf
        have hr := mem_range.mp (mem_of_find?_eq_some hf)
        have hat : decide (HttpAt text i) = true := find?_some (p := (HttpAt text ·)) hf
        exact absurd (of_decide_eq_true hat) (h i (by omega))
  next hlt =>
    refine iff_of_true (fun i h => nomatch h) (.inr fun i _ h => ?_)
    have := h.le
    omega

theorem map_eraseNul (h : ∀ line ∈ lines, Clean line) : lines.map eraseNul = lines :=
  (map_congr_left fun line hl => (h line hl).eraseNul_eq).trans (map_id _)

theorem joinSegments_clean (hli : ∀ line ∈ lines, Clean line) :
    ∀ line ∈ (joinSegments false lines).2, Clean line := fun line hlin =>
  ⟨(joinSegments_free (by decide) false fun l hl => (hli l hl).noBreak).2 line hlin,
    (joinSegments_free (by decide) false fun l hl => (hli l hl).noNul).2 line hlin⟩

theorem assembleRawHeaders_joinBreaks (hlin : Clean line)
    (hli : ∀ line ∈ lines, Clean line ∧ line ≠ [])
    (hlo : ∀ i, locateStartOfStatusLine (joinBreaks (line :: lines)) = some i → i = 0) :
    assembleRawHeaders (joinBreaks (line :: lines)) =
      joinNul line (joinSegments false lines).2 := by
  rw [assembleRawHeaders_eq, fromStatusLine_of_locate hlo, statusLine_joinBreaks hlin.noBreak,
    headerLines_joinBreaks hlin.noBreak fun l hl => ⟨(hli l hl).1.noBreak, (hli l hl).2⟩,
    hlin.eraseNul_eq, map_eraseNul (joinSegments_clean fun l hl => (hli l hl).1)]

theorem joinNul_inj {first' : Bytes} {rest' : List Bytes} (hf : Clean first)
    (hr : ∀ line ∈ rest, Clean line) (hf' : Clean first') (hr' : ∀ line ∈ rest', Clean line)
    (h : joinNul first rest = joinNul first' rest') : first = first' ∧ rest = rest' := by
  have hl := congrArg rawLines h
  rw [rawLines_joinNul hf hr, rawLines_joinNul hf' hr'] at hl
  exact List.cons.inj hl

/-- What stands before an `http` within the first bytes is lost for good. -/
theorem locate_eq_zero_of_weight (hl : Clean line) (hne : line ≠ [])
    (hw : weight (assembleRawHeaders (joinBreaks (line :: lines))) =
      weight (joinBreaks (line :: lines))) :
    ∀ i, locateStartOfStatusLine (joinBreaks (line :: lines)) = some i → i = 0 := by
  intro i hlo
  by_contra hi
  obtain ⟨c, tail, rfl⟩ := exists_cons_of_ne_nil hne
  obtain ⟨n, rfl⟩ := Nat.exists_eq_succ_of_ne_zero hi
  have hg : (!isNul c && !isLineBreak c) = true := by
    rw [hl.noNul c mem_cons_self, hl.noBreak c mem_cons_self]
    rfl
  have hle := weight_assembleRawHeaders_le (joinBreaks ((c :: tail) :: lines))
  have hd : fromStatusLine (joinBreaks ((c :: tail) :: lines)) =
      (tail ++ cr :: lf :: joinBreaks lines).drop n := by
    rw [fromStatusLine, hlo, joinBreaks_cons]
    rfl
  have hlt : weight ((tail ++ cr :: lf :: joinBreaks lines).drop n) ≤
      weight (tail ++ cr :: lf :: joinBreaks lines) := (drop_sublist _ _).countP_le
  rw [hw, hd, joinBreaks_cons, cons_append, weight_cons_of_good c _ hg] at hle
  omega

/-- Assembling again makes the first line left the status line, if it gives as many bytes. -/
theorem eq_joinNul_of_assembleRawHeaders_eq (hfi : Clean first) (hr : ∀ line ∈ rest, Clean line)
    (hli : Clean line) (hline_ne : line ≠ []) (hlin : ∀ line ∈ lines, Clean line ∧ line ≠ [])
    (hf : (first :: rest).filter (· ≠ []) = line :: lines)
    (heq : assembleRawHeaders (joinBreaks (line :: lines)) = joinNul first rest) :
    (∀ i, locateStartOfStatusLine (joinBreaks (line :: lines)) = some i → i = 0) ∧
      first = line ∧ rest = (joinSegments false lines).2 := by
  have hw : weight (assembleRawHeaders (joinBreaks (line :: lines))) =
      weight (joinBreaks (line :: lines)) := by
    rw [heq, weight_joinNul, weight_joinBreaks, ← hf, flatten_filter_ne_nil,
      flatten_cons, weight_append]
  have hlo := locate_eq_zero_of_weight hli hline_ne hw
  rw [assembleRawHeaders_joinBreaks hli hlin hlo] at heq
  exact ⟨hlo, joinNul_inj hfi hr hli
    (joinSegments_clean fun l hl => (hlin l hl).1) heq.symm⟩

/-- When lines come back that are joined, converted and assembled again. -/
theorem assembleRawHeaders_convert_iff (hf : Clean first) (hr : ∀ line ∈ rest, Clean line)
    (hne : ∀ line ∈ rest, line ≠ []) :
    assembleRawHeaders (convertHeadersBackToHTTPResponse (joinNul first rest)) =
        joinNul first rest ↔
      (rest ≠ [] → first ≠ []) ∧
      (∀ i, locateStartOfStatusLine (joinBreaks (first :: rest)) = some i → i = 0) ∧
      NoContinuation false rest := by
  have hfi : rest.filter (· ≠ []) = rest :=
    filter_eq_self.mpr fun line hli => by simpa using hne line hli
  have hlin : ∀ line ∈ rest, Clean line ∧ line ≠ [] := fun line hli =>
    ⟨hr line hli, hne line hli⟩
  rw [convertHeadersBackToHTTPResponse_joinNul hf hr]
  by_cases hnil : first = []
  · subst hnil
    have hlines_eq : ([] :: rest).filter (· ≠ []) = rest := by
      rw [filter_cons_of_neg (by simp), hfi]
    rw [hlines_eq]
    cases rest with
    | nil => exact iff_of_true (by decide) ⟨fun h => absurd rfl h, by decide, trivial⟩
    | cons line rest =>
      -- The first header line has become the status line.
      refine iff_of_false (fun heq => ?_) fun h => h.1 (cons_ne_nil _ _) rfl
      obtain ⟨hli, hline_ne⟩ := hlin line mem_cons_self
      exact hline_ne (eq_joinNul_of_assembleRawHeaders_eq hf hr hli hline_ne
        (fun l hl => hlin l (mem_cons_of_mem _ hl)) hlines_eq heq).2.1.symm
  · have hlines_eq : (first :: rest).filter (· ≠ []) = first :: rest := by
      rw [filter_cons_of_pos (by simp [hnil]), hfi]
    rw [hlines_eq]
    constructor
    · intro heq
      obtain ⟨hlo, -, hj⟩ :=
        eq_joinNul_of_assembleRawHeaders_eq hf hr hf hnil hlin hlines_eq heq
      exact ⟨fun _ => hnil, hlo, joinSegments_eq_iff.mp hj.symm⟩
    · rintro ⟨-, hlo, hc⟩
      rw [assembleRawHeaders_joinBreaks hf hlin hlo, joinSegments_eq_iff.mpr hc]

/-- The lines of a text without their NULs, as they are converted back. -/
def plainText (text : Bytes) : Bytes :=
  joinBreaks ((statusLine text :: headerLines text).map eraseNul)

/-- What lets the headers assembled from a text be converted back and assembled again. -/
structure Reassembles (text : Bytes) : Prop where
  /-- No line segment behind the status line consists of NULs only. -/
  segments : ∀ segment ∈ segments text, ∃ c ∈ segment, c ≠ nul
  status : HttpUtil.segments text ≠ [] → ∃ c ∈ statusLine text, c ≠ nul
  /-- Without the NULs nothing stands before an `http` within the first bytes. -/
  noSlop : HttpAt (plainText text) 0 ∨ ∀ i ≤ 4, ¬ HttpAt (plainText text) i
  /-- Without the NULs no header line looks like a continuation of the one before. -/
  noContinuation : (headerLines text).IsChain fun a b =>
    ¬ (isLineSegmentContinuable (eraseNul a) ∧ startsWithLWS (eraseNul b))

/-- Assembled headers come back from being converted and assembled again, with two NULs only at
their end, exactly if the lines of the input do not change their meaning without their NULs. -/
theorem assembleRawHeaders_stable_iff (input : Bytes) :
    (assembleRawHeaders (convertHeadersBackToHTTPResponse (assembleRawHeaders input)) =
        assembleRawHeaders input ∧ DoubleNulAtEnd (assembleRawHeaders input)) ↔
      Reassembles (fromStatusLine input) := by
  generalize htext : fromStatusLine input = text
  have hf : Clean (eraseNul (statusLine text)) := Clean.eraseNul (statusLine_free text)
  have hr := clean_headerLines text
  have hne : (∀ line ∈ (headerLines text).map eraseNul, line ≠ []) ↔
      ∀ segment ∈ segments text, ∃ c ∈ segment, c ≠ nul := by
    rw [forall_mem_map, headerLines, forall_mem_joinSegments_iff]
    exact forall₂_congr fun segment _ => eraseNul_ne_nil_iff
  have hnil : (headerLines text).map eraseNul ≠ [] ↔ segments text ≠ [] :=
    not_congr (map_eq_nil_iff.trans (headerLines_eq_nil_iff text))
  rw [assembleRawHeaders_eq input, htext, doubleNulAtEnd_joinNul hf hr]
  constructor
  · rintro ⟨heq, hlines⟩
    obtain ⟨hs, hsl, hc⟩ := (assembleRawHeaders_convert_iff hf hr hlines).mp heq
    exact
      { segments := hne.mp hlines
        status := fun h => eraseNul_ne_nil_iff.mp (hs (hnil.mpr h))
        noSlop := locateStartOfStatusLine_eq_zero_iff.mp hsl
        noContinuation := (isChain_map eraseNul).mp (noContinuation_iff_isChain.mp hc) }
  · intro h
    have hlines := hne.mpr h.segments
    refine ⟨(assembleRawHeaders_convert_iff hf hr hlines).mpr ⟨fun hrest => ?_, ?_, ?_⟩, hlines⟩
    · exact eraseNul_ne_nil_iff.mpr (h.status (hnil.mp hrest))
    · exact locateStartOfStatusLine_eq_zero_iff.mpr h.noSlop
    · exact noContinuation_iff_isChain.mpr ((isChain_map eraseNul).mpr h.noContinuation)

/-- A header line of one NUL is a line until the NULs are erased. -/
theorem assembleRawHeaders_drops_line : assembleRawHeaders (convertHeadersBackToHTTPResponse
        (assembleRawHeaders (httpText ++ [lf, nul, lf, colon]))) ≠
      assembleRawHeaders (httpText ++ [lf, nul, lf, colon]) ∧
    ¬ DoubleNulAtEnd (assembleRawHeaders (httpText ++ [lf, nul, lf, colon])) := by
  refine ⟨by decide, fun h => ?_⟩
  exact absurd (h httpText [colon, nul, nul] (by decide)) (by decide)

end ChromiumBase.HttpUtil
