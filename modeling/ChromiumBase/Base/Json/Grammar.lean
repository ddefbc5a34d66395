import ChromiumBase.Base.Strings.NumberConversions
import ChromiumBase.Base.Strings.Utf

/-!
# The language of the JSON parser

The grammar that `base/json/json_reader.h` describes: RFC 4627 with comments and a few more
escape sequences. A relation between two texts says that the second is what is left of the
first behind a phrase.

`clean` scans a text for what the grammar rules out between tokens and in the escape
sequences of strings: a slash that begins no comment, a comment that is not closed, and a
character where a hexadecimal digit has to be. Every sentence is clean.
-/

open List

namespace ChromiumBase.Json

namespace Grammar

open NumberConversions

def IsSpace (c : UInt8) : Prop := c = 0x20 ∨ c = 0x09 ∨ c = 0x0a ∨ c = 0x0d

def IsLineEnd (c : UInt8) : Prop := c = 0x0a ∨ c = 0x0d

/-- What may stand between two tokens. A line comment goes up to the end of its line, which
may be the end of the text, and a block comment to the first `*/`. -/
inductive Gap : List UInt8 → List UInt8 → Prop
  | nil (s : List UInt8) : Gap s s
  | space {c : UInt8} {s r : List UInt8} (hc : IsSpace c) (h : Gap s r) : Gap (c :: s) r
  | lineComment {body s r : List UInt8} {c : UInt8} (hbody : ∀ c ∈ body, ¬ IsLineEnd c)
      (hc : IsLineEnd c) (h : Gap (c :: s) r) : Gap (0x2f :: 0x2f :: (body ++ c :: s)) r
  | lastComment {body : List UInt8} (hbody : ∀ c ∈ body, ¬ IsLineEnd c) :
      Gap (0x2f :: 0x2f :: body) []
  | blockComment {body s r : List UInt8} (hbody : ¬ [0x2a, 0x2f] <:+: body) (h : Gap s r) :
      Gap (0x2f :: 0x2a :: (body ++ 0x2a :: 0x2f :: s)) r

def Digits (s r : List UInt8) : Prop :=
  ∃ d digits, s = d :: digits ++ r ∧ ∀ c ∈ d :: digits, isAsciiDigit c = true

def Integer (s r : List UInt8) : Prop :=
  ∃ d digits, s = d :: digits ++ r ∧ (∀ c ∈ d :: digits, isAsciiDigit c = true) ∧
    (digits = [] ∨ d ≠ 0x30)

def Minus (s r : List UInt8) : Prop := s = r ∨ s = 0x2d :: r

def Fraction (s r : List UInt8) : Prop := s = r ∨ ∃ t, s = 0x2e :: t ∧ Digits t r

def Exponent (s r : List UInt8) : Prop :=
  s = r ∨ ∃ e t u, s = e :: t ∧ (e = 0x65 ∨ e = 0x45) ∧
    (t = u ∨ t = 0x2d :: u ∨ t = 0x2b :: u) ∧ Digits u r

def Number (s r : List UInt8) : Prop :=
  ∃ t u v, Minus s t ∧ Integer t u ∧ Fraction u v ∧ Exponent v r

def Hex (count : ℕ) (s : List UInt8) (value : ℕ) (r : List UInt8) : Prop :=
  ∃ digits, s = digits ++ r ∧ digits.length = count ∧
    (∀ c ∈ digits, isHexDigit c = true) ∧ hexValue digits = value

/-- The escape sequences; surrogates come in pairs. -/
inductive Escape : List UInt8 → List UInt8 → Prop
  | simple {e : UInt8} {s : List UInt8}
      (he : e ∈ [0x22, 0x5c, 0x2f, 0x62, 0x66, 0x6e, 0x72, 0x74, 0x76]) :
      Escape (0x5c :: e :: s) s
  | byte {s r : List UInt8} {value : ℕ} (h : Hex 2 s value r) : Escape (0x5c :: 0x78 :: s) r
  | unit {s r : List UInt8} {value : ℕ} (h : Hex 4 s value r)
      (hvalue : value < 0xd800 ∨ 0xe000 ≤ value) : Escape (0x5c :: 0x75 :: s) r
  | pair {s t r : List UInt8} {high low : ℕ} (hhigh : Hex 4 s high (0x5c :: 0x75 :: t))
      (hlead : 0xd800 ≤ high ∧ high < 0xdc00) (hlow : Hex 4 t low r)
      (htrail : 0xdc00 ≤ low ∧ low < 0xe000) : Escape (0x5c :: 0x75 :: s) r

inductive Characters : List UInt8 → List UInt8 → Prop
  | close (s : List UInt8) : Characters (0x22 :: s) s
  | raw {c : ℕ} {s r : List UInt8} (hc : Utf.IsValidCharacter c) (hquote : c ≠ 0x22)
      (hescape : c ≠ 0x5c) (h : Characters s r) :
      Characters (Utf.writeUnicodeCharacter c ++ s) r
  | escape {s t r : List UInt8} (hs : Escape s t) (h : Characters t r) : Characters s r

def StringLiteral (s r : List UInt8) : Prop := ∃ t, s = 0x22 :: t ∧ Characters t r

/-- The symbols that refer to each other: values, the items of a list up to the closing
bracket, and the members of an object up to the closing brace. -/
inductive Symbol where
  | value
  | items
  | members

/-- Derivations with at most the given number of containers inside one another. -/
inductive Derives : Symbol → ℕ → List UInt8 → List UInt8 → Prop
  | null {n : ℕ} (s : List UInt8) : Derives .value n (0x6e :: 0x75 :: 0x6c :: 0x6c :: s) s
  | true {n : ℕ} (s : List UInt8) : Derives .value n (0x74 :: 0x72 :: 0x75 :: 0x65 :: s) s
  | false {n : ℕ} (s : List UInt8) :
      Derives .value n (0x66 :: 0x61 :: 0x6c :: 0x73 :: 0x65 :: s) s
  | number {n : ℕ} {s r : List UInt8} (h : Number s r) : Derives .value n s r
  | string {n : ℕ} {s r : List UInt8} (h : StringLiteral s r) : Derives .value n s r
  | emptyList {n : ℕ} {s r : List UInt8} (h : Gap s (0x5d :: r)) :
      Derives .value (n + 1) (0x5b :: s) r
  | list {n : ℕ} {s t r : List UInt8} (hs : Gap s t) (h : Derives .items n t r) :
      Derives .value (n + 1) (0x5b :: s) r
  | emptyObject {n : ℕ} {s r : List UInt8} (h : Gap s (0x7d :: r)) :
      Derives .value (n + 1) (0x7b :: s) r
  | object {n : ℕ} {s t r : List UInt8} (hs : Gap s t) (h : Derives .members n t r) :
      Derives .value (n + 1) (0x7b :: s) r
  | lastItem {n : ℕ} {s t r : List UInt8} (hs : Derives .value n s t)
      (ht : Gap t (0x5d :: r)) : Derives .items n s r
  | item {n : ℕ} {s t u v r : List UInt8} (hs : Derives .value n s t) (ht : Gap t (0x2c :: u))
      (hu : Gap u v) (h : Derives .items n v r) : Derives .items n s r
  | lastMember {n : ℕ} {s t u v x r : List UInt8} (hkey : StringLiteral s t)
      (ht : Gap t (0x3a :: u)) (hu : Gap u v) (hv : Derives .value n v x) (hx : Gap x (0x7d :: r)) :
      Derives .members n s r
  | member {n : ℕ} {s t u v x y z r : List UInt8} (hkey : StringLiteral s t)
      (ht : Gap t (0x3a :: u)) (hu : Gap u v) (hv : Derives .value n v x)
      (hx : Gap x (0x2c :: y)) (hy : Gap y z) (h : Derives .members n z r) : Derives .members n s r

def Sentence (nesting : ℕ) (input : List UInt8) : Prop :=
  ∃ s t u, (input = s ∨ input = 0xef :: 0xbb :: 0xbf :: s) ∧ Gap s t ∧
    Derives .value nesting t u ∧ Gap u []

/-- Where the scan is. In `hex k` there have to be `k + 1` more digits. -/
inductive ScanState where
  | outside
  | slash
  | line
  | block
  | star
  | inString
  | escape
  | hex (k : ℕ)
  deriving DecidableEq

namespace ScanState

/-- One character of the scan, which stops where no sentence goes on. -/
def step : ScanState → UInt8 → Option ScanState
  | outside, c =>
    if c = 0x22 then some inString else if c = 0x2f then some slash else some outside
  | slash, c => if c = 0x2f then some line else if c = 0x2a then some block else none
  | line, c => if c = 0x0a ∨ c = 0x0d then some outside else some line
  | block, c => if c = 0x2a then some star else some block
  | star, c =>
    if c = 0x2f then some outside else if c = 0x2a then some star else some block
  | inString, c =>
    if c = 0x22 then some outside else if c = 0x5c then some escape else some inString
  | escape, c =>
    if c = 0x78 then some (hex 1) else if c = 0x75 then some (hex 3) else some inString
  | hex 0, c => if isHexDigit c then some inString else none
  | hex (k + 1), c => if isHexDigit c then some (hex k) else none

end ScanState

/-- The scan reaches the end of the text, outside of strings and block comments. -/
def clean : ScanState → List UInt8 → Bool
  | q, [] => q = .outside ∨ q = .line
  | q, c :: s => (q.step c).elim false (clean · s)

variable {c : UInt8} {body r s digits : List UInt8} {q : ScanState}

theorem clean_cons {q' : ScanState} (h : q.step c = some q') (s : List UInt8) :
    clean q (c :: s) = clean q' s := by
  rw [clean, h, Option.elim_some]

theorem clean_cons_none (h : q.step c = none) (s : List UInt8) : clean q (c :: s) = false := by
  rw [clean, h, Option.elim_none]

theorem clean_outside_cons (s : List UInt8) (hq : c ≠ 0x22 := by decide)
    (hs : c ≠ 0x2f := by decide) :
    clean .outside (c :: s) = clean .outside s :=
  clean_cons (by rw [ScanState.step, if_neg hq, if_neg hs]) s

theorem clean_append (h : ∀ c ∈ body, q.step c = some q) (s : List UInt8) :
    clean q (body ++ s) = clean q s := by
  induction body with
  | nil => rfl
  | cons c body ih =>
    rw [cons_append, clean_cons (h c mem_cons_self), ih fun c hc => h c (mem_cons_of_mem _ hc)]

theorem clean_space (hc : IsSpace c) (s : List UInt8) :
    clean .outside (c :: s) = clean .outside s := by
  rcases hc with rfl | rfl | rfl | rfl
  all_goals exact clean_outside_cons s

theorem clean_lineEnd (hc : IsLineEnd c) (s : List UInt8) :
    clean .line (c :: s) = clean .outside (c :: s) := by
  rw [clean_space (hc.elim (fun h => .inr (.inr (.inl h))) fun h => .inr (.inr (.inr h)))]
  have hs : ScanState.step .line c = some .outside := if_pos hc
  exact clean_cons hs s

theorem clean_line_append (hb : ∀ c ∈ body, ¬ IsLineEnd c) (s : List UInt8) :
    clean .line (body ++ s) = clean .line s :=
  clean_append (q := .line) (fun c hc => if_neg (hb c hc)) s

/-- A block comment ends at the first `*/`, also if a star stands in front of the rest of
the comment. -/
theorem clean_block_star (body s : List UInt8) : (¬ [0x2a, 0x2f] <:+: body →
      clean .block (body ++ 0x2a :: 0x2f :: s) = clean .outside s) ∧
    (¬ [0x2a, 0x2f] <:+: 0x2a :: body →
      clean .star (body ++ 0x2a :: 0x2f :: s) = clean .outside s) := by
  induction body with
  | nil => exact ⟨fun _ => rfl, fun _ => rfl⟩
  | cons c body ih =>
    by_cases hs : c = 0x2a
    · subst hs
      refine ⟨fun h => ih.2 h, fun h => ?_⟩
      exact ih.2 fun hin => h (infix_cons hin)
    · refine ⟨fun h => ?_, fun h => ?_⟩
      · have hst : ScanState.step .block c = some .block := if_neg hs
        rw [cons_append, clean_cons hst]
        exact ih.1 fun hin => h (infix_cons hin)
      · have hsl : c ≠ 0x2f := by
          rintro rfl
          exact h ⟨[], body, rfl⟩
        rw [cons_append, clean_cons (by rw [ScanState.step, if_neg hsl, if_neg hs])]
        exact ih.1 fun hin => h (infix_cons (infix_cons hin))

theorem Gap.clean_eq (h : Gap s r) : clean .outside s = clean .outside r := by
  induction h with
  | nil => rfl
  | space hc _ ih => rw [clean_space hc, ih]
  | @lineComment body s r c hb hc _ ih =>
    rw [← ih, ← clean_lineEnd hc, ← clean_line_append hb]
    rfl
  | @lastComment body hb =>
    have hl := clean_line_append hb []
    rw [append_nil] at hl
    exact hl
  | @blockComment body s r hb _ ih =>
    exact ((clean_block_star body s).1 hb).trans ih

theorem clean_digits (h : ∀ c ∈ digits, isAsciiDigit c = true) (s : List UInt8) :
    clean .outside (digits ++ s) = clean .outside s := by
  refine clean_append (fun c hc => ?_) s
  have hd := h c hc
  rw [ScanState.step, if_neg, if_neg]
  · rintro rfl
    exact absurd hd (by decide)
  · rintro rfl
    exact absurd hd (by decide)

theorem Digits.clean_eq (h : Digits s r) : clean .outside s = clean .outside r := by
  obtain ⟨d, digits, rfl, hd⟩ := h
  exact clean_digits hd r

theorem Number.clean_eq (h : Number s r) : clean .outside s = clean .outside r := by
  obtain ⟨t, u, v, hm, ⟨d, digits, rfl, hd, -⟩, hf, hex⟩ := h
  have hs : clean .outside s = clean .outside u := by
    rcases hm with rfl | rfl
    · exact clean_digits hd u
    · rw [clean_outside_cons]
      exact clean_digits hd u
  have hu : clean .outside u = clean .outside v := by
    rcases hf with rfl | ⟨t, rfl, ht⟩
    · rfl
    · rw [clean_outside_cons, ht.clean_eq]
  have hv : clean .outside v = clean .outside r := by
    rcases hex with rfl | ⟨e, t, w, rfl, he, hsi, hw⟩
    · rfl
    · have ht : clean .outside t = clean .outside w := by
        rcases hsi with rfl | rfl | rfl
        · rfl
        · exact clean_outside_cons w
        · exact clean_outside_cons w
      rcases he with rfl | rfl
      all_goals
        rw [clean_outside_cons, ht, hw.clean_eq]
  rw [hs, hu, hv]

theorem clean_hex (h : ∀ c ∈ digits, isHexDigit c = true) {k : ℕ} (hlen : digits.length = k + 1)
    (s : List UInt8) : clean (.hex k) (digits ++ s) = clean .inString s := by
  induction k generalizing digits with
  | zero =>
    obtain ⟨c, rfl⟩ := length_eq_one_iff.mp hlen
    have hs : ScanState.step (.hex 0) c = some .inString :=
      if_pos (h c mem_cons_self)
    exact clean_cons hs s
  | succ k ih =>
    obtain ⟨c, digits, rfl⟩ := exists_cons_of_length_eq_add_one hlen
    have hs : ScanState.step (.hex (k + 1)) c = some (.hex k) :=
      if_pos (h c mem_cons_self)
    rw [cons_append, clean_cons hs]
    exact ih (fun c hc => h c (mem_cons_of_mem _ hc)) (by simpa using hlen)

/-- The scan comes out of an escape sequence where it went in. -/
theorem Escape.clean_eq (h : Escape s r) : clean .inString s = clean .inString r := by
  cases h with
  | @simple e s he =>
    have hs : ScanState.step .escape e = some .inString := by
      simp only [mem_cons, not_mem_nil, or_false] at he
      rcases he with rfl | rfl | rfl | rfl | rfl | rfl | rfl | rfl | rfl
      all_goals rfl
    exact clean_cons hs r
  | byte h | unit h hv =>
    obtain ⟨digits, rfl, hlen, hhex, -⟩ := h
    exact clean_hex hhex hlen r
  | pair hh hl hlow ht =>
    obtain ⟨digits, rfl, hlen, hhex, -⟩ := hh
    obtain ⟨digits', rfl, hlen', hhex', -⟩ := hlow
    exact (clean_hex hhex hlen _).trans (clean_hex hhex' hlen' r)

/-- The scan does not stop inside of a character of a string. -/
theorem clean_writeUnicodeCharacter {c : ℕ} (hc : Utf.IsValidCharacter c) (hq : c ≠ 0x22)
    (he : c ≠ 0x5c) (s : List UInt8) :
    clean .inString (Utf.writeUnicodeCharacter c ++ s) = clean .inString s := by
  refine clean_append (fun b hb => ?_) s
  have hne : b.toNat ≠ 0x22 ∧ b.toNat ≠ 0x5c := by
    by_cases hlo : c ≤ 0x7f
    · obtain ⟨b', hw, hb'⟩ := Utf.writeUnicodeCharacter_one hlo
      rw [hw, mem_singleton] at hb
      rw [hb, hb']
      exact ⟨hq, he⟩
    · have hh := Utf.toNat_of_mem_writeUnicodeCharacter hc.isValidCodepoint (by omega) hb
      omega
  rw [ScanState.step, if_neg, if_neg]
  · exact fun h => hne.2 (congrArg UInt8.toNat h)
  · exact fun h => hne.1 (congrArg UInt8.toNat h)

theorem Characters.clean_eq (h : Characters s r) : clean .inString s = clean .outside r := by
  induction h with
  | close s => rfl
  | raw hc hq he _ ih => rw [clean_writeUnicodeCharacter hc hq he, ih]
  | escape hs _ ih => rw [hs.clean_eq, ih]

theorem StringLiteral.clean_eq (h : StringLiteral s r) : clean .outside s = clean .outside r := by
  obtain ⟨t, rfl, ht⟩ := h
  exact ht.clean_eq

theorem Derives.clean_eq {symbol : Symbol} {n : ℕ} (h : Derives symbol n s r) :
    clean .outside s = clean .outside r := by
  induction h with
  | null s | true s | false s => rfl
  | number h | string h | emptyList h | emptyObject h => exact h.clean_eq
  | list hs _ ih | object hs _ ih => exact hs.clean_eq.trans ih
  | lastItem _ ht ih => exact ih.trans ht.clean_eq
  | item _ ht hu _ ihs ih => exact ihs.trans (ht.clean_eq.trans (hu.clean_eq.trans ih))
  | lastMember hkey ht hu _ hx ih =>
    exact hkey.clean_eq.trans (ht.clean_eq.trans (hu.clean_eq.trans (ih.trans hx.clean_eq)))
  | member hkey ht hu _ hx hy _ ihv ih =>
    exact hkey.clean_eq.trans (ht.clean_eq.trans (hu.clean_eq.trans
      (ihv.trans (hx.clean_eq.trans (hy.clean_eq.trans ih)))))

theorem Sentence.clean {nesting : ℕ} {input : List UInt8} (h : Sentence nesting input) :
    clean .outside input = true := by
  obtain ⟨s, t, u, hm, hs, ht, hu⟩ := h
  have hc : Grammar.clean .outside s = true := by
    rw [hs.clean_eq, ht.clean_eq, hu.clean_eq]
    rfl
  rcases hm with rfl | rfl
  · exact hc
  · exact hc

end Grammar

end ChromiumBase.Json
