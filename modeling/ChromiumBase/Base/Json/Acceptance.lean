import ChromiumBase.Base.Json.Grammar
import ChromiumBase.Base.Json.Parser

/-!
# What the parser accepts

With the options of the RFC the parser accepts more than the sentences of the grammar: a
slash is skipped together with the character behind it whatever that is, a block comment
at the end of the input need not be closed, and the hexadecimal digits of an escape
sequence may begin with a sign or with `0x`. These are all the ways: of the accepted inputs
exactly the clean ones are sentences.
-/

open Outcome List Prod Except Option

namespace ChromiumBase.Json

open Grammar NumberConversions JSONParser

theorem isJsonSpace_iff (c : UInt8) : isJsonSpace c = true ↔ IsSpace c := by
  rw [isJsonSpace, decide_eq_true_iff, IsSpace]
  constructor
  · rintro (h | h | h | h) <;> simp [h]
  · rintro (h | h | h | h) <;> simp [h]

theorem eatLineComment_eq (s : List UInt8) :
    (∃ body c t, s = body ++ c :: t ∧ (∀ c ∈ body, ¬ IsLineEnd c) ∧ IsLineEnd c ∧
      eatLineComment s = (true, c :: t)) ∨
    (∀ c ∈ s, ¬ IsLineEnd c) ∧ eatLineComment s = (false, []) := by
  induction s with
  | nil => exact .inr ⟨by simp, rfl⟩
  | cons c s ih =>
    rw [eatLineComment]
    by_cases hc : c = 0x0a ∨ c = 0x0d
    · rw [if_pos hc]
      exact .inl ⟨[], c, s, rfl, by simp, hc, rfl⟩
    · rw [if_neg hc]
      rcases ih with ⟨body, d, t, rfl, hb, hd, h⟩ | ⟨hs, h⟩
      · exact .inl ⟨c :: body, d, t, rfl, forall_mem_cons.mpr ⟨hc, hb⟩, hd, h⟩
      · exact .inr ⟨forall_mem_cons.mpr ⟨hc, hs⟩, h⟩

/-- Where the scan is in a block comment behind the given character. -/
def scanBehind (previous : UInt8) : ScanState := if previous = 0x2a then .star else .block

theorem step_scanBehind {previous c : UInt8} (h : ¬ (previous = 0x2a ∧ c = 0x2f)) :
    (scanBehind previous).step c = some (scanBehind c) := by
  unfold scanBehind
  by_cases hp : previous = 0x2a
  · have hc : c ≠ 0x2f := fun hc => h ⟨hp, hc⟩
    rw [if_pos hp, ScanState.step, if_neg hc]
    split <;> rfl
  · rw [if_neg hp, ScanState.step]
    split <;> rfl

/-- A block comment that ends has no `*/` before its end; one that does not end is not
clean. -/
theorem eatBlockComment_eq (previous : UInt8) (s : List UInt8) :
    (∃ body r, previous :: s = body ++ 0x2a :: 0x2f :: r ∧ ¬ [0x2a, 0x2f] <:+: body ∧
      eatBlockComment previous s = (true, r)) ∨
    clean (scanBehind previous) s = false ∧ eatBlockComment previous s = (false, []) := by
  induction s generalizing previous with
  | nil =>
    refine .inr ⟨?_, rfl⟩
    unfold scanBehind
    split <;> rfl
  | cons c s ih =>
    rw [eatBlockComment]
    by_cases hend : previous = 0x2a ∧ c = 0x2f
    · rw [if_pos hend, hend.1, hend.2]
      exact .inl ⟨[], s, rfl, by simp, rfl⟩
    · rw [if_neg hend]
      rcases ih c with ⟨body, r, hs, hb, h⟩ | ⟨hc, h⟩
      · refine .inl ⟨previous :: body, r, by rw [hs]; rfl, fun hin => ?_, h⟩
        rcases infix_cons_iff.mp hin with hpre | hin
        · obtain ⟨t, ht⟩ := hpre
          obtain ⟨rfl, hb'⟩ := List.cons.inj ht
          rw [← hb'] at hs
          exact hend ⟨rfl, (List.cons.inj hs).1⟩
        · exact hb hin
      · exact .inr ⟨by rw [clean_cons (step_scanBehind hend), hc], h⟩

theorem gap_lineComment (s : List UInt8) :
    ((eatLineComment s).1 = true ∧ ∀ r, Gap (eatLineComment s).2 r → Gap (0x2f :: 0x2f :: s) r) ∨
    (eatLineComment s).1 = false ∧ Gap (0x2f :: 0x2f :: s) (eatLineComment s).2 := by
  rcases eatLineComment_eq s with ⟨body, c, t, rfl, hb, hc, h⟩ | ⟨hs, h⟩
  · rw [h]
    exact .inl ⟨rfl, fun r hr => .lineComment hb hc hr⟩
  · rw [h]
    exact .inr ⟨rfl, .lastComment hs⟩

variable {s r text : List UInt8} {p : JSONParser} {v : Value} {n k : ℕ} {token : Token}

theorem gap_blockComment (hc : clean .block s = true) :
    (eatBlockComment 0 s).1 = true ∧ ∀ r, Gap (eatBlockComment 0 s).2 r →
      Gap (0x2f :: 0x2a :: s) r := by
  rcases eatBlockComment_eq 0 s with ⟨body, t, hs, hb, h⟩ | ⟨ho, -⟩
  · rw [h]
    cases body with
    | nil => exact absurd (List.cons.inj hs).1 (by decide)
    | cons c body =>
      rw [(List.cons.inj hs).2]
      exact ⟨rfl, fun r hr => .blockComment (fun hin => hb (infix_cons hin)) hr⟩
  · exact absurd (hc.symm.trans ho) (by decide)

/-- The comments of a clean text: what follows a comment that ends is left to the loop, and
nothing follows one that does not. -/
theorem gap_eatComment (hc : clean .slash s = true) :
    ((eatComment (0x2f :: s)).1 = true ∧ ∀ r, Gap (eatComment (0x2f :: s)).2 r →
      Gap (0x2f :: s) r) ∨
    (eatComment (0x2f :: s)).1 = false ∧ Gap (0x2f :: s) (eatComment (0x2f :: s)).2 := by
  cases s with
  | nil => exact absurd hc (by decide)
  | cons c s =>
    by_cases hl : c = 0x2f
    · subst hl
      exact gap_lineComment s
    by_cases hb : c = 0x2a
    · subst hb
      exact .inl (gap_blockComment hc)
    · have hs : ScanState.step .slash c = none := by
        rw [ScanState.step, if_neg hl, if_neg hb]
      rw [clean_cons_none hs] at hc
      exact absurd hc (by decide)

/-- In a clean text the parser skips a gap of the grammar. -/
theorem gap_eatWhitespaceAndComments (hcl : clean .outside s = true) :
    Gap s (eatWhitespaceAndComments s) := by
  suffices h : ∀ n, Gap s (eatLoop n s) from h _
  intro n
  induction n generalizing s with
  | zero => exact .nil s
  | succ n ih =>
    cases s with
    | nil => exact .nil []
    | cons c s =>
      rw [eatLoop]
      by_cases hs : isJsonSpace c = true
      · rw [if_pos hs]
        have hc := (isJsonSpace_iff c).mp hs
        rw [clean_space hc] at hcl
        exact .space hc (ih hcl)
      rw [if_neg hs]
      by_cases hsl : c = 0x2f
      · subst hsl
        rw [if_pos rfl]
        rcases gap_eatComment (s := s) hcl with ⟨hf, hgap⟩ | ⟨hend, hgap⟩
        · rw [if_pos hf]
          have hr := hgap _ (.nil _)
          exact hgap _ (ih (hr.clean_eq ▸ hcl))
        · rw [hend, if_neg (by decide)]
          exact hgap
      · rw [if_neg hsl]
        exact .nil _

theorem clean_eatWhitespaceAndComments (hc : clean .outside s = true) :
    clean .outside (eatWhitespaceAndComments s) = true := by
  rw [← (gap_eatWhitespaceAndComments hc).clean_eq, hc]

theorem hex_of_clean (h : clean (.hex k) s = true) :
    ∃ digits r, s = digits ++ r ∧ digits.length = k + 1 ∧ ∀ c ∈ digits, isHexDigit c = true := by
  induction k generalizing s with
  | zero =>
    cases s with
    | nil => exact absurd h (by decide)
    | cons c s =>
      by_cases hc : isHexDigit c = true
      · exact ⟨[c], s, rfl, rfl, forall_mem_singleton.mpr hc⟩
      · rw [clean_cons_none (q := .hex 0) (if_neg hc)] at h
        contradiction
  | succ k ih =>
    cases s with
    | nil => exact absurd h (by simp [clean])
    | cons c s =>
      by_cases hc : isHexDigit c = true
      · have hs : ScanState.step (.hex (k + 1)) c = some (.hex k) := if_pos hc
        rw [clean_cons hs] at h
        obtain ⟨digits, r, rfl, hlen, hd⟩ := ih h
        exact ⟨c :: digits, r, rfl, by rw [length_cons, hlen], forall_mem_cons.mpr ⟨hc, hd⟩⟩
      · rw [clean_cons_none (q := .hex (k + 1)) (if_neg hc)] at h
        contradiction

theorem hex_of_consumeHex {v : ℕ} (h : consumeHex (k + 1) s = some (v, r))
    (hc : clean (.hex k) s = true) (hk : k < 7 := by decide) :
    Hex (k + 1) s v r ∧ clean .inString r = true ∧ v < 2 ^ 32 := by
  obtain ⟨digits, t, rfl, hlen, hd⟩ := hex_of_clean hc
  obtain ⟨z, hz, rfl, rfl⟩ := consumeHex_eq_some h
  have hlt := hexValue_lt (show digits.length ≤ 7 by omega)
  rw [take_left' hlen, hexStringToInt_of_isHexDigit (by rintro rfl; simp at hlen)
    (by omega) hd] at hz
  have hv : asUInt32 z = hexValue digits := by
    rw [← some.inj hz, asUInt32]
    omega
  rw [drop_left' hlen, hv]
  rw [clean_hex hd hlen] at hc
  exact ⟨⟨digits, rfl, hlen, hd, rfl⟩, hc, by omega⟩

theorem mem_of_simpleEscape {e : UInt8} {c : ℕ} (h : simpleEscape e = some c) :
    e ∈ [0x22, 0x5c, 0x2f, 0x62, 0x66, 0x6e, 0x72, 0x74, 0x76] := by
  revert h
  fun_cases simpleEscape e
  all_goals first | exact fun _ => by decide | exact fun h => absurd h (by simp)

section

variable {c : ℕ}

theorem escape_of_decodeUTF16 (h : p.decodeUTF16 s = some (c, r)) (hc : clean (.hex 3) s = true) :
    Escape (0x5c :: 0x75 :: s) r ∧ clean .inString r = true := by
  rcases decodeUTF16_eq_some h with ⟨unit, hu, hsur, -⟩ |
    ⟨high, low, u, hh, hsur, hl, hlow, ht, -⟩
  · obtain ⟨hhex, hr, hlt⟩ := hex_of_consumeHex hu hc
    refine ⟨.unit hhex ?_, hr⟩
    have hnot := mt (Utf.isSurrogate_iff hlt).mpr (ne_true_of_eq_false hsur)
    omega
  · obtain ⟨hhex, hr, hlt⟩ := hex_of_consumeHex hh hc
    obtain ⟨hhex', hr', hlt'⟩ := hex_of_consumeHex hlow hr
    obtain ⟨hlo, hhi⟩ := (Utf.isSurrogate_iff hlt).mp hsur
    exact ⟨.pair hhex ⟨hlo, (Utf.isSurrogateLead_iff hlo hhi).mp hl⟩ hhex'
      ((Utf.isTrailUnit_iff hlt').mp ht), hr'⟩

theorem escape_of_consumeEscape (h : p.consumeEscape (0x5c :: s) = .ok (c, r))
    (hc : clean .inString (0x5c :: s) = true) :
    Escape (0x5c :: s) r ∧ clean .inString r = true := by
  cases s with
  | nil => exact absurd h (by simp [consumeEscape])
  | cons e s =>
    rw [consumeEscape] at h
    by_cases hx : e = 0x78
    · subst hx
      rw [if_pos rfl] at h
      split at h
      · rename_i v t hhex
        split_ifs at h
        cases h
        obtain ⟨hhex, hr, -⟩ := hex_of_consumeHex hhex hc
        exact ⟨.byte hhex, hr⟩
      · contradiction
    rw [if_neg hx] at h
    by_cases hu : e = 0x75
    · subst hu
      rw [if_pos rfl] at h
      split at h
      · rename_i v hd
        cases h
        exact escape_of_decodeUTF16 hd hc
      · contradiction
    rw [if_neg hu] at h
    split at h
    · rename_i v hs
      cases h
      have he : Escape (0x5c :: e :: r) r := .simple (mem_of_simpleEscape hs)
      exact ⟨he, he.clean_eq ▸ hc⟩
    · contradiction

theorem append_of_readUnicodeCharacter
    (h : (Utf.readUnicodeCharacter s).1.filter (Utf.IsValidCharacter ·) = some c) :
    Utf.IsValidCharacter c ∧
      Utf.writeUnicodeCharacter c ++ s.drop (Utf.readUnicodeCharacter s).2 = s := by
  obtain ⟨hr, hv⟩ := filter_eq_some_iff.mp h
  have ht := Utf.take_of_readUnicodeCharacter (Prod.ext hr rfl)
  exact ⟨of_decide_eq_true hv, by rw [← ht, take_append_drop]⟩

/-- A string that is accepted without replacements is one of the grammar. -/
theorem characters_of_stringLoop (hreplace : p.replaceInvalidCharacters = false)
    (h : p.stringLoop n s = .ok (text, r)) (hcl : clean .inString s = true) : Characters s r := by
  induction n generalizing s text with
  | zero => cases s <;> contradiction
  | succ n ih =>
    cases s with
    | nil => contradiction
    | cons b s =>
      rw [stringLoop] at h
      split at h
      · rw [hreplace, if_neg (by decide)] at h
        contradiction
      · rename_i c hr
        obtain ⟨hc, hs⟩ := append_of_readUnicodeCharacter hr
        split_ifs at h with hq he
        · subst hq
          obtain ⟨-, rfl⟩ := mk.inj (ok.inj h)
          rw [← hs]
          exact .close _
        · subst he
          obtain rfl : b = 0x5c := (List.cons.inj hs).1.symm
          obtain ⟨⟨c, t⟩, hco, h⟩ := exists_of_bind_eq_ok h
          obtain ⟨hseq, hre⟩ := escape_of_consumeEscape hco hcl
          obtain ⟨⟨_, _⟩, hl, ha⟩ := exists_of_map_eq_ok h
          obtain ⟨-, rfl⟩ := mk.inj ha
          exact .escape hseq (ih hl hre)
        · obtain ⟨⟨_, _⟩, hl, ha⟩ := exists_of_map_eq_ok h
          obtain ⟨-, rfl⟩ := mk.inj ha
          rw [← hs, clean_writeUnicodeCharacter hc hq he] at hcl
          rw [← hs]
          exact .raw hc hq he (ih hl hcl)

theorem stringLiteral_of_consumeStringRaw (hreplace : p.replaceInvalidCharacters = false)
    (h : p.consumeStringRaw s = .ok (text, r)) (hc : clean .outside s = true) :
    StringLiteral s r := by
  revert h
  fun_cases consumeStringRaw p s with
  | case1 s => exact fun h => ⟨s, rfl, characters_of_stringLoop hreplace h hc⟩
  | case2 => exact fun h => by contradiction

end

theorem digits_of_readInt {allow : Bool} (h : readInt allow s = some r) : Digits s r := by
  obtain ⟨d, digits, rfl, hd, -⟩ := readInt_eq_some h
  exact ⟨d, digits, rfl, hd⟩

theorem integer_of_readInt (h : readInt false s = some r) : Integer s r := by
  obtain ⟨d, digits, rfl, hd, hz⟩ := readInt_eq_some h
  exact ⟨d, digits, rfl, hd, hz.resolve_left Bool.false_ne_true⟩

theorem minus_skipMinus (s : List UInt8) : Minus s (skipMinus s) := by
  fun_cases skipMinus s
  · exact .inr rfl
  · exact .inl rfl

theorem fraction_of_readFraction (h : readFraction s = some r) : Fraction s r := by
  revert h
  fun_cases readFraction s with
  | case1 s => exact fun h => .inr ⟨s, rfl, digits_of_readInt h⟩
  | case2 => exact fun h => .inl (some.inj h)

theorem sign_skipSign (s : List UInt8) : s = skipSign s ∨ s = 0x2d :: skipSign s ∨
      s = 0x2b :: skipSign s := by
  fun_cases skipSign s
  · exact .inr (.inl rfl)
  · exact .inr (.inr rfl)
  · exact .inl rfl

theorem exponent_of_readExponent (h : readExponent s = some r) : Exponent s r := by
  revert h
  fun_cases readExponent s with
  | case1 s =>
    exact fun h => .inr ⟨_, s, _, rfl, .inl rfl, sign_skipSign s, digits_of_readInt h⟩
  | case2 s =>
    exact fun h => .inr ⟨_, s, _, rfl, .inr rfl, sign_skipSign s, digits_of_readInt h⟩
  | case3 => exact fun h => .inl (some.inj h)

theorem number_of_skipNumber (h : skipNumber s = some r) : Number s r := by
  obtain ⟨u, hint, h⟩ := bind_eq_some_iff.mp h
  obtain ⟨v, hf, h⟩ := bind_eq_some_iff.mp h
  exact ⟨_, u, v, minus_skipMinus s, integer_of_readInt hint,
    fraction_of_readFraction hf, exponent_of_readExponent h⟩

theorem number_of_consumeNumber (h : p.consumeNumber s = .ok (v, r)) : Number s r := by
  unfold consumeNumber at h
  split at h
  · contradiction
  · rename_i rest hs
    split_ifs at h
    obtain ⟨_, -, h⟩ := exists_of_bind_eq_ok h
    obtain ⟨-, rfl⟩ := mk.inj (ok.inj h)
    exact number_of_skipNumber hs

theorem derives_of_consumeLiteral (n : ℕ) (h : consumeLiteral s = .ok (v, r)) :
    Derives .value n s r := by
  revert h
  fun_cases consumeLiteral s with
  | case1 s => rintro ⟨⟩; exact .true _
  | case2 s => rintro ⟨⟩; exact .false _
  | case3 s => rintro ⟨⟩; exact .null _
  | case4 => exact fun h => by contradiction

def charOf : Token → Option UInt8
  | .objectBegin => some 0x7b
  | .objectEnd => some 0x7d
  | .arrayBegin => some 0x5b
  | .arrayEnd => some 0x5d
  | .listSeparator => some 0x2c
  | .objectPairSeparator => some 0x3a
  | _ => none

theorem eq_cons_of_tokenAt {c : UInt8} (h : charOf (tokenAt s) = some c) : s = c :: s.drop 1 := by
  cases s with
  | nil => contradiction
  | cons d s =>
    change charOf (tokenOf d) = some c at h
    revert h
    fun_cases tokenOf d
    all_goals rintro ⟨⟩
    all_goals
      rename_i hd
      rw [hd]
      rfl

/-- Behind an item stands the closing character, or a comma and another item. -/
theorem gap_of_consumeSeparator (hcommas : p.allowTrailingCommas = false) {closer : Token}
    (h : p.consumeSeparator closer s = .ok (token, r)) (hc : clean .outside s = true) :
    token = tokenAt r ∧ clean .outside r = true ∧
      (token = closer ∧ Gap s r ∨ token ≠ closer ∧ ∃ t, Gap s (0x2c :: t) ∧ Gap t r) := by
  have hgap := gap_eatWhitespaceAndComments hc
  have hr := clean_eatWhitespaceAndComments hc
  unfold consumeSeparator getNextToken at h
  dsimp only at h
  split_ifs at h with hco hclo hcl
  · obtain ⟨rfl, rfl⟩ := mk.inj (ok.inj h)
    have hcon : eatWhitespaceAndComments s =
        0x2c :: (eatWhitespaceAndComments s).drop 1 := eq_cons_of_tokenAt (by rw [hco]; rfl)
    rw [hcon] at hgap hr
    refine ⟨rfl, clean_eatWhitespaceAndComments hr, .inr ⟨fun heq => hclo ⟨heq, ?_⟩, _,
      hgap, gap_eatWhitespaceAndComments hr⟩⟩
    rw [hcommas]
    rfl
  · obtain ⟨rfl, rfl⟩ := mk.inj (ok.inj h)
    exact ⟨rfl, hr, .inl ⟨hcl, hgap⟩⟩

section

variable (hcommas : p.allowTrailingCommas = false)
  {parseItem : Token → List UInt8 → Except Failure (Parsed Value)} {room : ℕ}
  (hitem : ∀ s r v, parseItem (tokenAt s) s = .ok (v, r) → clean .outside s = true →
    Derives .value room s r)
include hcommas hitem

/-- The items that the loop has accepted derive from the grammar. -/
theorem derives_of_listLoop {items : List Value}
    (h : p.listLoop parseItem n (tokenAt s) s = .ok (items, r)) (hc : clean .outside s = true) :
    (tokenAt s = .arrayEnd ∧ s = 0x5d :: r) ∨
      (tokenAt s ≠ .arrayEnd ∧ Derives .items room s r) := by
  induction n generalizing s items with
  | zero => contradiction
  | succ n ih =>
    rw [listLoop] at h
    split_ifs at h with hend
    · obtain ⟨-, rfl⟩ := mk.inj (ok.inj h)
      exact .inl ⟨hend, eq_cons_of_tokenAt (by rw [hend]; rfl)⟩
    · obtain ⟨⟨v, t⟩, hv, h⟩ := exists_of_bind_eq_ok h
      obtain ⟨⟨token, u⟩, hsep, h⟩ := exists_of_bind_eq_ok h
      obtain ⟨⟨rest, r'⟩, hl, h⟩ := exists_of_bind_eq_ok h
      obtain ⟨-, rfl⟩ := mk.inj (ok.inj h)
      have hva := hitem s t v hv hc
      obtain ⟨rfl, hu, hgap⟩ := gap_of_consumeSeparator hcommas hsep
        (hva.clean_eq ▸ hc)
      refine .inr ⟨hend, ?_⟩
      rcases hgap with ⟨ht, hgap⟩ | ⟨ht, w, hco, hgap⟩
      · rcases ih hl hu with ⟨-, rfl⟩ | ⟨hne, -⟩
        · exact .lastItem hva hgap
        · exact absurd ht hne
      · rcases ih hl hu with ⟨ht', -⟩ | ⟨-, hi⟩
        · exact absurd ht' ht
        · exact .item hva hco hgap hi

/-- The members that the loop has accepted derive from the grammar. -/
theorem derives_of_dictionaryLoop (hreplace : p.replaceInvalidCharacters = false)
    {items : List (List UInt8 × Value)}
    (h : p.dictionaryLoop parseItem n (tokenAt s) s = .ok (items, r))
    (hcl : clean .outside s = true) : (tokenAt s = .objectEnd ∧ s = 0x7d :: r) ∨
      (tokenAt s ≠ .objectEnd ∧ Derives .members room s r) := by
  induction n generalizing s items with
  | zero => contradiction
  | succ n ih =>
    rw [dictionaryLoop] at h
    split_ifs at h with hend hkey
    · obtain ⟨-, rfl⟩ := mk.inj (ok.inj h)
      exact .inl ⟨hend, eq_cons_of_tokenAt (by rw [hend]; rfl)⟩
    · refine .inr ⟨hend, ?_⟩
      obtain ⟨⟨key, k⟩, hs, h⟩ := exists_of_bind_eq_ok h
      unfold getNextToken at h
      dsimp only at h
      split_ifs at h with hc
      obtain ⟨⟨v, t⟩, hv, h⟩ := exists_of_bind_eq_ok h
      obtain ⟨⟨token, u⟩, hsep, h⟩ := exists_of_bind_eq_ok h
      obtain ⟨⟨rest, r'⟩, hlo, h⟩ := exists_of_bind_eq_ok h
      obtain ⟨-, rfl⟩ := mk.inj (ok.inj h)
      have hl := stringLiteral_of_consumeStringRaw hreplace hs hcl
      have hk : clean .outside k = true := hl.clean_eq ▸ hcl
      have hg := gap_eatWhitespaceAndComments hk
      have hc' := clean_eatWhitespaceAndComments hk
      have hcon : eatWhitespaceAndComments k = 0x3a :: (eatWhitespaceAndComments k).drop 1 :=
        eq_cons_of_tokenAt (by rw [not_not.mp hc]; rfl)
      rw [hcon] at hg hc'
      rw [clean_outside_cons] at hc'
      have hga := gap_eatWhitespaceAndComments hc'
      have hva := hitem _ t v hv (clean_eatWhitespaceAndComments hc')
      obtain ⟨rfl, hu, hgap⟩ := gap_of_consumeSeparator hcommas hsep
        (hva.clean_eq ▸ clean_eatWhitespaceAndComments hc')
      rcases hgap with ⟨ht, hgap⟩ | ⟨ht, w, hco, hgap⟩
      · rcases ih hlo hu with ⟨-, rfl⟩ | ⟨hne, -⟩
        · exact .lastMember hl hg hga hva hgap
        · exact absurd ht hne
      · rcases ih hlo hu with ⟨ht', -⟩ | ⟨-, hm⟩
        · exact absurd ht' ht
        · exact .member hl hg hga hva hco hgap hm

end

theorem eq_nil_of_tokenAt (h : tokenAt s = .endOfInput) : s = [] := by
  cases s with
  | nil => rfl
  | cons c s =>
    revert h
    change tokenOf c = _ → _
    fun_cases tokenOf c
    all_goals exact fun h => Token.noConfusion h

theorem mark_skipByteOrderMark (input : List UInt8) : (input = skipByteOrderMark input ∨
      input = 0xef :: 0xbb :: 0xbf :: skipByteOrderMark input) ∧
      clean .outside (skipByteOrderMark input) = clean .outside input := by
  fun_cases skipByteOrderMark input
  · exact ⟨.inr rfl, rfl⟩
  · exact ⟨.inl rfl, rfl⟩

section

variable (hcommas : p.allowTrailingCommas = false) (hreplace : p.replaceInvalidCharacters = false)
include hcommas hreplace

/-- What the parser accepts of a clean text is a value of the grammar, by induction over the
nesting. -/
theorem derives_of_parseToken {room : ℕ} (ht : token = tokenAt s)
    (h : p.parseToken room token s = .ok (v, r)) (hc : clean .outside s = true) :
    Derives .value room s r := by
  induction room using Nat.strong_induction_on generalizing token s r v with
  | _ room ih =>
    revert h
    fun_cases parseToken p room token s with
    | case2 s room token t hn =>
      intro h
      obtain ⟨rfl, rfl⟩ := mk.inj hn
      obtain ⟨⟨items, u⟩, hl, h⟩ := exists_of_bind_eq_ok h
      obtain ⟨-, rfl⟩ := mk.inj (ok.inj h)
      have hgap := gap_eatWhitespaceAndComments (s := s) hc
      rcases derives_of_dictionaryLoop hcommas
        (fun s r v => ih room (Nat.lt_succ_self room) rfl) hreplace hl
        (clean_eatWhitespaceAndComments (s := s) hc) with ⟨-, hend⟩ | ⟨-, hm⟩
      · exact .emptyObject (hend ▸ hgap)
      · exact .object hgap hm
    | case4 s room token t hn =>
      intro h
      obtain ⟨rfl, rfl⟩ := mk.inj hn
      obtain ⟨⟨items, u⟩, hl, h⟩ := exists_of_bind_eq_ok h
      obtain ⟨-, rfl⟩ := mk.inj (ok.inj h)
      have hgap := gap_eatWhitespaceAndComments (s := s) hc
      rcases derives_of_listLoop hcommas
        (fun s r v => ih room (Nat.lt_succ_self room) rfl) hl
        (clean_eatWhitespaceAndComments (s := s) hc) with ⟨-, hend⟩ | ⟨-, hi⟩
      · exact .emptyList (hend ▸ hgap)
      · exact .list hgap hi
    | case5 =>
      intro h
      obtain ⟨⟨text, u⟩, hs, h⟩ := exists_of_bind_eq_ok h
      obtain ⟨-, rfl⟩ := mk.inj (ok.inj h)
      exact .string (stringLiteral_of_consumeStringRaw hreplace hs hc)
    | case6 => exact fun h => .number (number_of_consumeNumber h)
    | case7 | case8 | case9 => exact derives_of_consumeLiteral _
    | _ => exact fun h => by contradiction

/-- Of the inputs that the parser accepts exactly the clean ones are sentences. -/
theorem sentence_iff_clean {input : List UInt8} {v : Value} (h : p.parse input = .ok v) :
    Sentence (p.maxDepth - 1) input ↔ clean .outside input = true := by
  refine ⟨Sentence.clean, fun hc => ?_⟩
  obtain ⟨hm, hs⟩ := mark_skipByteOrderMark input
  rw [← hs] at hc
  unfold parse at h
  split_ifs at h
  obtain ⟨⟨root, u⟩, hr, h⟩ := exists_of_bind_eq_ok h
  dsimp only at h
  split_ifs at h with hend
  have hf := clean_eatWhitespaceAndComments hc
  have hv := derives_of_parseToken hcommas hreplace rfl hr hf
  have hl := gap_eatWhitespaceAndComments (hv.clean_eq ▸ hf)
  rw [eq_nil_of_tokenAt hend] at hl
  exact ⟨_, _, u, hm, gap_eatWhitespaceAndComments hc, hv, hl⟩

end

/-- A text with comments between its tokens and inside its strings. -/
theorem sentence_iff_clean_comment :
    Sentence 199 [0x5b, 0x2f, 0x2a, 0x2f, 0x2a, 0x2f, 0x22, 0x2f, 0x5c, 0x78, 0x34, 0x31, 0x22,
        0x5d] ↔
      clean .outside [0x5b, 0x2f, 0x2a, 0x2f, 0x2a, 0x2f, 0x22, 0x2f, 0x5c, 0x78, 0x34, 0x31,
        0x22, 0x5d] = true :=
  sentence_iff_clean (p := ⟨false, false, 200, by decide, default⟩) rfl rfl
    (v := .list [.string [0x2f, 0x41]]) rfl

/-- `[1,/x2]` is accepted although `/x` is no comment. -/
theorem parse_slash : ∃ (p : JSONParser) (v : Value) (input : List UInt8),
    p.allowTrailingCommas = false ∧ p.replaceInvalidCharacters = false ∧
      p.parse input = .ok v ∧ ∀ nesting, ¬ Sentence nesting input := by
  refine ⟨⟨false, false, 200, by decide, default⟩, .list [.integer 1, .integer 2],
    [0x5b, 0x31, 0x2c, 0x2f, 0x78, 0x32, 0x5d], rfl, rfl, rfl, fun nesting h => ?_⟩
  exact absurd h.clean (by decide)

end ChromiumBase.Json
