import ChromiumBase.Base.Json.Parser
import Mathlib.Algebra.BigOperators.Group.List.Basic
import Mathlib.Data.List.Nodup

/-!
# Written values are read back

Values without doubles and binary blobs whose strings are texts are written as JSON that
the parser reads as the same value, whatever the options of the two are, as long as they
have the same depth and the text is not too long for the parser.

The proof follows the writer: the text of a value is read as the value in front of
everything that may follow a value.
-/

open List Option Prod

namespace ChromiumBase.Json

open Utf NumberConversions JSONParser JSONWriter

/-- Valid UTF-8 without non-characters. -/
def IsText (s : List UInt8) : Prop :=
  ∃ codePoints : List ℕ, (∀ c ∈ codePoints, IsValidCharacter c) ∧
    s = codePoints.flatMap writeUnicodeCharacter

/-- Values built from null, booleans, integers, texts, lists and dictionaries. The entries
of a dictionary are in the order of their keys, as in every `flat_map`. -/
inductive Plain : Value → Prop
  | none : Plain .none
  | boolean (b : Bool) : Plain (.boolean b)
  | integer (i : Int32) : Plain (.integer i)
  | string {s : List UInt8} (h : IsText s) : Plain (.string s)
  | list {items : List Value} (h : ∀ v ∈ items, Plain v) : Plain (.list items)
  | dictionary {items : List (List UInt8 × Value)}
      (hsorted : items.Pairwise fun a b => a.1 < b.1) (hkeys : ∀ e ∈ items, IsText e.1)
      (hvalues : ∀ e ∈ items, Plain e.2) : Plain (.dictionary items)

variable {c n room stack depth : ℕ} {f : ℕ → List UInt8} {result : Bool} {s gap : List UInt8}
  {p : JSONParser} {w : JSONWriter} {z : ℤ}

theorem filter_isValidCharacter (h : IsValidCharacter c) :
    (some c).filter (IsValidCharacter ·) = some c :=
  filter_some_pos (decide_eq_true h)

variable {codePoints : List ℕ} {v : Value}

theorem escapeLoop_text (h : ∀ c ∈ codePoints, IsValidCharacter c) (hn : codePoints.length ≤ n) :
    escapeLoop n (codePoints.flatMap writeUnicodeCharacter) =
      (codePoints.flatMap escapeCodePoint, false) := by
  induction codePoints generalizing n with
  | nil => cases n <;> rfl
  | cons c codePoints ih =>
    have hc := h c mem_cons_self
    have hp := hc.isValidCodepoint
    rw [length_cons] at hn
    obtain _ | n := n
    · omega
    have hr := readUnicodeCharacter_writeUnicodeCharacter hp
    obtain ⟨b, t, hw⟩ := exists_cons_of_ne_nil (writeUnicodeCharacter_ne_nil hp)
    have hre := ih (fun c hc => h c (mem_cons_of_mem _ hc)) (n := n) (by omega)
    rw [flatMap_cons, hw, cons_append, escapeLoop, ← cons_append, ← hw, hr]
    dsimp only
    rw [filter_isValidCharacter hc, drop_left, hre, flatMap_cons]

theorem length_le_length_flatMap {l : List ℕ} (hf : ∀ c ∈ l, f c ≠ []) :
    l.length ≤ (l.flatMap f).length := by
  rw [length_flatMap, ← length_map (length ∘ f)]
  refine length_le_sum_of_one_le _ (forall_mem_map.mpr fun c hc => ?_)
  exact length_pos_iff.mpr (hf c hc)

variable {text : List UInt8}

theorem escapeJSONString_text (h : ∀ c ∈ codePoints, IsValidCharacter c)
    (he : escapeJSONString (codePoints.flatMap writeUnicodeCharacter) = some (text, result)) :
    text = 0x22 :: codePoints.flatMap escapeCodePoint ++ [0x22] := by
  have hlen := length_le_length_flatMap (f := writeUnicodeCharacter) (l := codePoints)
    fun c hc => writeUnicodeCharacter_ne_nil (h c hc).isValidCodepoint
  unfold escapeJSONString at he
  split at he
  · rw [escapeLoop_text h hlen] at he
    exact (congrArg fst (some.inj he)).symm
  · contradiction

theorem hexDigit_isHexDigit : ∀ d < 16, isHexDigit (hexDigit d) = true := by decide

theorem charToDigit_hexDigit : ∀ d < 16, charToDigit 16 (hexDigit d) = some d := by decide

theorem consumeHex_hexDigits (hc : c < 65536) (rest : List UInt8) :
    consumeHex 4 (hexDigit (c / 4096 % 16) :: hexDigit (c / 256 % 16) ::
      hexDigit (c / 16 % 16) :: hexDigit (c % 16) :: rest) = some (c, rest) := by
  have hmod (n : ℕ) : n % 16 < 16 := Nat.mod_lt _ (by decide)
  have hv : hexValue [hexDigit (c / 4096 % 16), hexDigit (c / 256 % 16),
      hexDigit (c / 16 % 16), hexDigit (c % 16)] = c := by
    rw [hexValue, hexValueFrom_cons (charToDigit_hexDigit _ (hmod _)), hexValueFrom_cons
      (charToDigit_hexDigit _ (hmod _)), hexValueFrom_cons (charToDigit_hexDigit _ (hmod _)),
      hexValueFrom_cons (charToDigit_hexDigit _ (hmod _))]
    change (((0 * 16 + c / 4096 % 16) * 16 + c / 256 % 16) * 16 + c / 16 % 16) * 16 + c % 16 = c
    omega
  have hhex := hexStringToInt_of_isHexDigit (s := [hexDigit (c / 4096 % 16),
      hexDigit (c / 256 % 16), hexDigit (c / 16 % 16), hexDigit (c % 16)]) (by simp) (by simp)
    (by simp [hexDigit_isHexDigit, hmod])
  have hca : asUInt32 (c : ℤ) = c := by
    unfold asUInt32
    omega
  simp [consumeHex, hhex, hv, hca]

theorem consumeEscape_u16Escape (p : JSONParser) (hc : c < 0xd800) (rest : List UInt8) :
    p.consumeEscape (u16Escape c ++ rest) = .ok (c, rest) := by
  have hsur : isSurrogate c = false := by
    rw [← Bool.not_eq_true, isSurrogate_iff (by omega)]
    omega
  have hd : p.decodeUTF16 (hexDigit (c / 4096 % 16) :: hexDigit (c / 256 % 16) ::
      hexDigit (c / 16 % 16) :: hexDigit (c % 16) :: rest) = some (c, rest) := by
    simp only [decodeUTF16, consumeHex_hexDigits (by omega : c < 65536)]
    simp [hsur, show IsValidCharacter c from .inl hc]
  simp [u16Escape, consumeEscape, hd]

theorem readUnicodeCharacter_ascii {b : UInt8} (hb : b.toNat ≤ 0x7f) (s : List UInt8) :
    readUnicodeCharacter (b :: s) = (some b.toNat, 1) := by
  rw [readUnicodeCharacter, cbu8Next_one hb]
  simp [show IsValidCodepoint b.toNat from .inl (by omega)]

variable {rest : List UInt8}

section

variable (p : JSONParser)

theorem stringLoop_escape (n : ℕ) (h : p.consumeEscape (0x5c :: s) = .ok (c, rest)) :
    p.stringLoop (n + 1) (0x5c :: s) = appendCodePoint c <$> p.stringLoop n rest := by
  rw [stringLoop, readUnicodeCharacter_ascii (by decide)]
  rw [filter_isValidCharacter (.inl (by decide))]
  dsimp only
  rw [if_neg (by decide), if_pos (by decide), h]
  rfl

theorem stringLoop_raw (n : ℕ) (hc : IsValidCharacter c) (hq : c ≠ 0x22)
    (he : c ≠ 0x5c) (rest : List UInt8) : p.stringLoop (n + 1) (writeUnicodeCharacter c ++ rest) =
      appendCodePoint c <$> p.stringLoop n rest := by
  have hp := hc.isValidCodepoint
  have hr := readUnicodeCharacter_writeUnicodeCharacter hp rest
  obtain ⟨b, t, hw⟩ := exists_cons_of_ne_nil (writeUnicodeCharacter_ne_nil hp)
  rw [hw, cons_append, stringLoop, ← cons_append, ← hw, hr]
  rw [filter_isValidCharacter hc]
  dsimp only
  rw [if_neg hq, if_neg he, drop_left]

theorem escapeSpecialCodePoint_eq_some (h : escapeSpecialCodePoint c = some text) :
    text = u16Escape c ∧ c < 0xd800 ∨
      ∃ e, text = [0x5c, e] ∧ e ≠ 0x78 ∧ e ≠ 0x75 ∧ simpleEscape e = some c := by
  revert h
  fun_cases escapeSpecialCodePoint c
  all_goals rintro ⟨⟩
  case case8 | case9 | case10 => exact .inl (by decide)
  all_goals exact .inr ⟨_, rfl, by decide⟩

theorem stringLoop_escapeCodePoint (n : ℕ) (hc : IsValidCharacter c) (rest : List UInt8) :
    p.stringLoop (n + 1) (escapeCodePoint c ++ rest) =
      appendCodePoint c <$> p.stringLoop n rest := by
  unfold escapeCodePoint
  cases hs : escapeSpecialCodePoint c with
  | some text =>
    rcases escapeSpecialCodePoint_eq_some hs with ⟨rfl, hlt⟩ | ⟨e, rfl, hx, hu, he⟩
    · exact stringLoop_escape p n (consumeEscape_u16Escape p hlt rest)
    · refine stringLoop_escape p n ?_
      simp [consumeEscape, hx, hu, he]
  | none =>
    split
    · exact stringLoop_escape p n (consumeEscape_u16Escape p (by omega) rest)
    · refine stringLoop_raw p n hc ?_ ?_ rest
      · rintro rfl
        exact absurd hs (by decide)
      · rintro rfl
        exact absurd hs (by decide)

theorem escapeCodePoint_ne_nil (hc : IsValidCharacter c) : escapeCodePoint c ≠ [] := by
  unfold escapeCodePoint
  cases hs : escapeSpecialCodePoint c with
  | some text =>
    rcases escapeSpecialCodePoint_eq_some hs with ⟨rfl, -⟩ | ⟨e, rfl, -⟩
    · exact cons_ne_nil _ _
    · exact cons_ne_nil _ _
  | none =>
    split
    · exact cons_ne_nil _ _
    · exact writeUnicodeCharacter_ne_nil hc.isValidCodepoint

/-- An escaped text is read back up to its closing quote. -/
theorem stringLoop_text (h : ∀ c ∈ codePoints, IsValidCharacter c)
    (hn : codePoints.length < n) (rest : List UInt8) :
    p.stringLoop n (codePoints.flatMap escapeCodePoint ++ 0x22 :: rest) =
      .ok (codePoints.flatMap writeUnicodeCharacter, rest) := by
  induction codePoints generalizing n with
  | nil =>
    obtain ⟨n, rfl⟩ := Nat.exists_eq_add_one.mpr hn
    rfl
  | cons c codePoints ih =>
    rw [length_cons] at hn
    obtain _ | n := n
    · omega
    rw [flatMap_cons, append_assoc, stringLoop_escapeCodePoint p n (h c mem_cons_self), ih (fun c hc
      => h c (mem_cons_of_mem _ hc)) (by omega)]
    rfl

theorem consumeStringRaw_escapeJSONString (hs : IsText s)
    (h : escapeJSONString s = some (text, result)) (rest : List UInt8) :
    p.consumeStringRaw (text ++ rest) = .ok (s, rest) := by
  obtain ⟨codePoints, hv, rfl⟩ := hs
  rw [escapeJSONString_text hv h, append_assoc, cons_append, consumeStringRaw]
  refine stringLoop_text p hv ?_ rest
  have hlen := length_le_length_flatMap (f := escapeCodePoint)
    fun c hc => escapeCodePoint_ne_nil (hv c hc)
  rw [length_append, length_append, length_singleton]
  omega

end

abbrev Spaces (g : List UInt8) : Prop := ∀ c ∈ g, isJsonSpace c = true

theorem spaces_nil : Spaces [] := fun _ h => absurd h not_mem_nil

def EndsGap (c : UInt8) : Prop := isJsonSpace c = false ∧ c ≠ 0x2f

instance (c : UInt8) : Decidable (EndsGap c) := inferInstanceAs (Decidable (_ ∧ _))

variable {g : List UInt8}

theorem eatWhitespaceAndComments_gap (hgap : Spaces g) (hs : ∀ c ∈ s.head?, EndsGap c) :
    eatWhitespaceAndComments (g ++ s) = s := by
  have hl : ∀ n, g.length ≤ n → eatLoop n (g ++ s) = s := by
    induction g with
    | nil =>
      intro n _
      cases s with
      | nil => cases n <;> rfl
      | cons c s =>
        obtain ⟨hsp, hsl⟩ := hs c rfl
        cases n with
        | zero => rfl
        | succ n => rw [nil_append, eatLoop, hsp, if_neg (by decide), if_neg hsl]
    | cons c g ih =>
      intro n hn
      rw [length_cons] at hn
      obtain _ | n := n
      · omega
      rw [cons_append, eatLoop, if_pos (hgap c mem_cons_self)]
      exact ih (fun c hc => hgap c (mem_cons_of_mem _ hc)) n (by omega)
  exact hl _ (by rw [length_append]; omega)

theorem getNextToken_gap (hgap : Spaces g) (hs : ∀ c ∈ s.head?, EndsGap c) :
    getNextToken (g ++ s) = (tokenAt s, s) := by
  rw [getNextToken, eatWhitespaceAndComments_gap hgap hs]

/-- What the writer puts behind a value: white space, then a comma, a closing bracket or
brace, or nothing. -/
def FollowsValue (rest : List UInt8) : Prop :=
  ∃ gap s, rest = gap ++ s ∧ Spaces gap ∧
    ∀ c ∈ s.head?, c = 0x2c ∨ c = 0x5d ∨ c = 0x7d

variable {c : UInt8}

theorem followsValue_append_cons (hgap : Spaces g) (hc : c = 0x2c ∨ c = 0x5d ∨ c = 0x7d)
    (s : List UInt8) : FollowsValue (g ++ c :: s) := by
  refine ⟨g, c :: s, rfl, hgap, ?_⟩
  rintro _ ⟨⟩
  exact hc

theorem FollowsValue.endsNumber (h : FollowsValue rest) :
    endsNumber (getNextToken rest).1 = true := by
  obtain ⟨gap, s, rfl, hgap, hs⟩ := h
  rw [getNextToken_gap hgap]
  · cases s with
    | nil => rfl
    | cons c s =>
      rcases hs c rfl with rfl | rfl | rfl
      · rfl
      · rfl
      · rfl
  · intro c hc
    rcases hs c hc with rfl | rfl | rfl
    all_goals exact by decide

theorem FollowsValue.head (h : FollowsValue rest) :
    ∀ c ∈ rest.head?, isAsciiDigit c = false ∧ c ≠ 0x2e ∧ c ≠ 0x65 ∧ c ≠ 0x45 := by
  obtain ⟨gap, s, rfl, hgap, hs⟩ := h
  intro c hc
  cases gap with
  | nil =>
    rcases hs c hc with rfl | rfl | rfl
    all_goals exact by decide
  | cons d gap =>
    obtain rfl : d = c := by simpa using hc
    have hd := hgap d mem_cons_self
    rw [isJsonSpace, decide_eq_true_iff] at hd
    rcases hd with rfl | rfl | rfl | rfl
    all_goals exact by decide

theorem readInt_digits {d : UInt8} {digits : List UInt8}
    (hdi : ∀ c ∈ d :: digits, isAsciiDigit c = true) (hz : digits = [] ∨ d ≠ 0x30)
    (hr : FollowsValue rest) : readInt false (d :: digits ++ rest) = some rest := by
  have hs : rest.takeWhile isAsciiDigit = [] ∧ rest.dropWhile isAsciiDigit = rest := by
    cases rest with
    | nil => exact ⟨rfl, rfl⟩
    | cons c rest =>
      have hc := (hr.head c rfl).1
      rw [takeWhile_cons, dropWhile_cons, hc]
      exact ⟨rfl, rfl⟩
  rw [readInt, takeWhile_append_of_pos hdi, dropWhile_append_of_pos hdi, hs.1, hs.2, append_nil]
  rw [if_neg (cons_ne_nil _ _), if_neg]
  rintro ⟨-, hlen, hh⟩
  rcases hz with rfl | hd
  · exact Nat.lt_irrefl 1 hlen
  · exact hd (some.inj hh)

theorem FollowsValue.readFraction (h : FollowsValue rest) : readFraction rest = some rest := by
  fun_cases JSONParser.readFraction rest with
  | case1 s => exact absurd rfl (h.head _ rfl).2.1
  | case2 => rfl

theorem FollowsValue.readExponent (h : FollowsValue rest) : readExponent rest = some rest := by
  fun_cases JSONParser.readExponent rest with
  | case1 s => exact absurd rfl (h.head _ rfl).2.2.1
  | case2 s => exact absurd rfl (h.head _ rfl).2.2.2
  | case3 => rfl

theorem writeDigits_eq_cons {res : ℕ} (hlt : res < 10 ^ (n + 1)) :
    ∃ d digits, writeDigits (n + 1) res [] = d :: digits ∧ (digits = [] ∨ d ≠ 0x30) := by
  by_cases hres : res = 0
  · exact ⟨0x30, [], by rw [hres]; rfl, .inl rfl⟩
  · obtain ⟨d, digits, hw, hd⟩ := writeDigits_head hres hlt
    exact ⟨d, digits, hw, .inr hd⟩

/-- The parser takes all the digits of an integer that the writer has put there. -/
theorem skipNumber_numberToString (hz : z.natAbs < 10 ^ 13) (hr : FollowsValue rest) :
    skipNumber (numberToString z ++ rest) = some rest := by
  obtain ⟨d, digits, hw, hze⟩ := writeDigits_eq_cons (n := 12) hz
  have hdi : ∀ c ∈ d :: digits, isAsciiDigit c = true := by
    rw [← hw]
    exact writeDigits_isAsciiDigit 13 z.natAbs
  have hm : skipMinus (numberToString z ++ rest) = d :: digits ++ rest := by
    unfold numberToString intToString
    rw [hw]
    split
    · rfl
    · have hd : d ≠ 0x2d := by
        rintro rfl
        exact absurd (hdi _ mem_cons_self) (by decide)
      rw [cons_append, skipMinus]
      simpa using hd
  rw [skipNumber, hm, readInt_digits hdi hze hr]
  change (readFraction rest).bind _ = _
  rw [hr.readFraction]
  exact hr.readExponent

theorem int32_natAbs_lt (i : Int32) : i.toInt.natAbs < 10 ^ 13 := by
  have hlo := i.le_toInt
  have hhi := i.toInt_lt
  omega

theorem consumeNumber_numberToString (p : JSONParser) (i : Int32) (hr : FollowsValue rest) :
    p.consumeNumber (numberToString i.toInt ++ rest) = .ok (.integer i, rest) := by
  have hlo : intMin ≤ i.toInt := i.le_toInt
  have hhi : i.toInt ≤ intMax := Int.le_of_lt_add_one i.toInt_lt
  rw [consumeNumber, skipNumber_numberToString (int32_natAbs_lt i) hr]
  dsimp only
  rw [if_pos hr.endsNumber, length_append, Nat.add_sub_cancel, take_left,
    numberValue, stringToInt_numberToString hlo hhi]
  dsimp only
  rw [Int32.ofInt_toInt]
  rfl

def StartsValue (c : UInt8) : Prop :=
  EndsGap c ∧ tokenOf c ≠ .arrayEnd ∧ tokenOf c ≠ .objectEnd ∧ tokenOf c ≠ .invalidToken

instance (c : UInt8) : Decidable (StartsValue c) := inferInstanceAs (Decidable (_ ∧ _))

/-- The parser reads the text as the value, in front of whatever may follow. -/
structure ReadsBack (p : JSONParser) (room : ℕ) (v : Value) (text : List UInt8) : Prop where
  starts : ∃ c s, text = c :: s ∧ StartsValue c
  parses : ∀ rest, FollowsValue rest →
    p.parseToken room (tokenAt text) (text ++ rest) = .ok (v, rest)

theorem ReadsBack.head (h : ReadsBack p room v text) (rest : List UInt8) :
    (∀ c ∈ (text ++ rest).head?, EndsGap c) ∧ tokenAt (text ++ rest) = tokenAt text ∧
      tokenAt text ≠ .arrayEnd ∧ tokenAt text ≠ .objectEnd ∧ 0 < text.length := by
  obtain ⟨c, s, rfl, hgap, ha, ho, -⟩ := h.starts
  exact ⟨fun d hd => some.inj hd ▸ hgap, rfl, ha, ho, Nat.succ_pos _⟩

theorem ReadsBack.skipByteOrderMark (h : ReadsBack p room v text) (rest : List UInt8) :
    skipByteOrderMark (text ++ rest) = text ++ rest := by
  obtain ⟨c, s, rfl, -, -, -, hi⟩ := h.starts
  have hc : c ≠ 0xef := by
    rintro rfl
    exact hi rfl
  rw [cons_append, skipByteOrderMark.eq_def]
  split
  · rename_i heq
    exact absurd (List.cons.inj heq).1 hc
  · rfl

theorem consumeSeparator_comma (p : JSONParser) (closer : Token) (hgap : Spaces gap)
    (hs : ∀ c ∈ s.head?, EndsGap c) (hne : tokenAt s ≠ closer) :
    p.consumeSeparator closer (0x2c :: (gap ++ s)) = .ok (tokenAt s, s) := by
  have hc : getNextToken (0x2c :: (gap ++ s)) = (.listSeparator, 0x2c :: (gap ++ s)) :=
    getNextToken_gap (g := []) spaces_nil (by simp [EndsGap, isJsonSpace])
  rw [consumeSeparator, hc]
  dsimp only
  rw [if_pos rfl, drop_one, tail_cons, getNextToken_gap hgap hs]
  rw [if_neg (fun h => hne h.1)]

theorem consumeSeparator_closer (p : JSONParser) (hgap : Spaces gap) (hc : EndsGap c)
    (hne : tokenOf c ≠ .listSeparator) :
    p.consumeSeparator (tokenOf c) (gap ++ c :: s) = .ok (tokenOf c, c :: s) := by
  have hcloser : getNextToken (gap ++ c :: s) = (tokenOf c, c :: s) := by
    refine getNextToken_gap hgap ?_
    rintro _ ⟨⟩
    exact hc
  rw [consumeSeparator, hcloser]
  dsimp only
  rw [if_neg hne, if_pos rfl]

theorem stack_lt_of_buildJSONString (h : w.buildJSONString stack depth v = some (text, true)) :
    stack + 1 < w.maxDepth := by
  by_contra hge
  rw [buildJSONString.eq_def, if_pos (Nat.le_of_not_lt hge)] at h
  exact Bool.false_ne_true (congrArg snd (some.inj h))

section Items

variable {α : Type} {p : JSONParser} {closer : UInt8}
  {loop : ℕ → Token → List UInt8 → Except Failure (Parsed (List α))} {gap last : List UInt8}

variable (p closer loop) in
/-- The text of an item of a container, which a loop of the parser reads in front of
whatever may follow an item. -/
structure ItemText (item : α) (text : List UInt8) : Prop where
  starts : ∃ c s, text = c :: s ∧ EndsGap c ∧ tokenOf c ≠ tokenOf closer
  step : ∀ {n : ℕ} {token : Token} {s t rest : List UInt8} {items : List α}, FollowsValue s →
    p.consumeSeparator (tokenOf closer) s = .ok (token, t) →
    loop n token t = .ok (items, rest) →
    loop (n + 1) (tokenAt text) (text ++ s) = .ok (item :: items, rest)

variable (p closer loop gap) in
/-- Items that stand behind another one, each behind a comma and a gap. -/
inductive ItemTexts : List α → List UInt8 → Prop
  | nil : ItemTexts [] []
  | cons {item : α} {items : List α} {text texts : List UInt8}
      (h : ItemText p closer loop item text) (hs : ItemTexts items texts) :
      ItemTexts (item :: items) (0x2c :: (gap ++ (text ++ texts)))

variable {items : List α}

theorem ItemText.next {item : α} (h : ItemText p closer loop item text)
    (hgap : Spaces gap) (rest : List UInt8) :
    getNextToken (gap ++ (text ++ rest)) = (tokenAt text, text ++ rest) ∧
      p.consumeSeparator (tokenOf closer) (0x2c :: (gap ++ (text ++ rest))) =
        .ok (tokenAt text, text ++ rest) ∧ 0 < text.length := by
  obtain ⟨c, s, rfl, hc, hne⟩ := h.starts
  have hh : ∀ d ∈ (c :: s ++ rest).head?, EndsGap d := by
    rintro _ ⟨⟩
    exact hc
  exact ⟨getNextToken_gap hgap hh, consumeSeparator_comma p _ hgap hh hne, Nat.succ_pos _⟩

theorem ItemTexts.of_or (h : items = [] ∧ text = [] ∨ ItemTexts p closer loop gap items text) :
    ItemTexts p closer loop gap items text := by
  rcases h with ⟨rfl, rfl⟩ | h
  · exact .nil
  · exact h

variable (hcloser : closer = 0x5d ∨ closer = 0x7d)
  (hclose : ∀ n s, loop (n + 1) (tokenOf closer) (closer :: s) = .ok ([], s))
  (hgap : Spaces gap) (hlast : Spaces last)
include hcloser hclose hgap hlast

/-- Behind an item the separator leads to the next item, or to the end of the container. -/
theorem ItemTexts.consume (h : ItemTexts p closer loop gap items text) (rest : List UInt8) :
    FollowsValue (text ++ (last ++ closer :: rest)) ∧ items.length ≤ text.length ∧
      ∃ token s, p.consumeSeparator (tokenOf closer) (text ++ (last ++ closer :: rest)) =
          .ok (token, s) ∧
        ∀ n, items.length < n → loop n token s = .ok (items, rest) := by
  have he : EndsGap closer ∧ tokenOf closer ≠ .listSeparator := by
    rcases hcloser with rfl | rfl
    all_goals decide
  induction h with
  | nil =>
    refine ⟨followsValue_append_cons hlast (.inr hcloser) _, le_rfl, _, _,
      consumeSeparator_closer p hlast he.1 he.2, fun n hn => ?_⟩
    obtain ⟨n, rfl⟩ := Nat.exists_eq_add_one.mpr hn
    exact hclose n rest
  | @cons item items text texts h _ ih =>
    obtain ⟨hf, hlen, token, s, hsep, hl⟩ := ih
    obtain ⟨-, hc, -⟩ := h.next hgap (texts ++ (last ++ closer :: rest))
    rw [cons_append, append_assoc, append_assoc]
    refine ⟨followsValue_append_cons (g := []) spaces_nil (.inl rfl) _, ?_, _, _, hc,
      fun n hn => ?_⟩
    · simp only [length_append, length_cons]
      omega
    · rw [length_cons] at hn
      obtain _ | n := n
      · omega
      exact h.step hf hsep (hl n (by omega))

theorem loop_first {first body : List UInt8} (hfi : Spaces first)
    (h : items = [] ∧ body = [] ∨ ItemTexts p closer loop gap items (0x2c :: (first ++ body)))
    (rest : List UInt8) :
    ∃ token s, getNextToken (first ++ (body ++ (last ++ closer :: rest))) = (token, s) ∧
      loop (s.length + 1) token s = .ok (items, rest) := by
  rcases h with ⟨rfl, rfl⟩ | h
  · have hn := getNextToken_gap (g := first ++ last) (s := closer :: rest)
      (forall_mem_append.mpr ⟨hfi, hlast⟩)
      (by rintro _ ⟨⟩; rcases hcloser with rfl | rfl <;> decide)
    rw [append_assoc] at hn
    exact ⟨_, _, hn, hclose _ rest⟩
  · generalize hs : first ++ body = s at h
    cases h with
    | @cons item items text texts h ht =>
      obtain ⟨hf, hlen, token, s, hsep, hl⟩ :=
        ht.consume hcloser hclose hgap hlast rest
      obtain ⟨hn, -, hpos⟩ := h.next hgap (texts ++ (last ++ closer :: rest))
      rw [← append_assoc first, hs, append_assoc, append_assoc]
      refine ⟨_, _, hn, h.step hf hsep (hl _ ?_)⟩
      simp only [length_append]
      omega

end Items

theorem pretty_space {g : List UInt8} (hgap : Spaces g) : Spaces (w.pretty g) := by
  unfold pretty
  split
  · exact hgap
  · exact spaces_nil

theorem space_isJsonSpace : Spaces [0x20] := forall_mem_singleton.mpr rfl

variable {items : List (List UInt8 × Value)}

theorem ReadsBack.itemText (hv : ReadsBack p room v text) :
    ItemText p 0x5d (p.listLoop (p.parseToken room)) v text := by
  obtain ⟨c, s, ht, hc, hne, -⟩ := hv.starts
  refine ⟨⟨c, s, ht, hc, hne⟩, fun hf hsep hl => ?_⟩
  rw [listLoop, if_neg (hv.head []).2.2.1, hv.parses _ hf]
  simp only [Outcome.ok_bind, show p.consumeSeparator .arrayEnd _ = _ from hsep, hl]

variable {first : Bool}

theorem itemTexts_buildList {items : List Value} (hi : ∀ v ∈ items, w.omits v = false ∧ ∀ t,
      w.buildJSONString stack depth v = some (t, true) → ReadsBack p room v t)
    (hb : w.buildList stack depth first items = some (text, true)) : items = [] ∧ text = [] ∨
      ItemTexts p 0x5d (p.listLoop (p.parseToken room)) (w.pretty [0x20]) items
        (if first then text else 0x2c :: (w.pretty [0x20] ++ text)) := by
  induction items generalizing first text with
  | nil => exact .inl ⟨rfl, (congrArg fst (some.inj hb)).symm⟩
  | cons v items ih =>
    obtain ⟨⟨ho, hre⟩, hi⟩ := forall_mem_cons.mp hi
    rw [buildList, ho, if_neg (by decide)] at hb
    obtain ⟨⟨t, result⟩, hv, h⟩ := bind_eq_some_iff.mp hb
    obtain ⟨⟨ts, results⟩, hres, h⟩ := bind_eq_some_iff.mp h
    obtain ⟨rfl, hr⟩ := mk.inj (some.inj h)
    rw [Bool.and_eq_true] at hr
    obtain ⟨rfl, rfl⟩ := hr
    refine .inr ?_
    have ht : (if first then w.listSeparator first ++ t ++ ts
        else 0x2c :: (w.pretty [0x20] ++ (w.listSeparator first ++ t ++ ts))) =
          0x2c :: (w.pretty [0x20] ++ (t ++ ts)) := by
      cases first <;> simp [listSeparator]
    rw [ht]
    exact .cons (hre t hv).itemText (.of_or (ih hi hres))

/-- A list is read back if its items are. -/
theorem readsBack_list {items : List Value} (hi : ∀ v ∈ items, w.omits v = false ∧ ∀ t,
      w.buildJSONString (stack + 1) depth v = some (t, true) → ReadsBack p room v t)
    (hb : w.buildJSONString stack depth (.list items) = some (text, true)) :
    ReadsBack p (room + 1) (.list items) text := by
  have hs : Spaces (w.pretty [0x20]) := pretty_space space_isJsonSpace
  have hlt := stack_lt_of_buildJSONString hb
  rw [buildJSONString, if_neg (Nat.not_le_of_lt hlt)] at hb
  obtain ⟨⟨body, result⟩, hbo, h⟩ := bind_eq_some_iff.mp hb
  obtain ⟨rfl, rfl⟩ := mk.inj (some.inj h)
  refine ⟨⟨_, _, rfl, by decide⟩, fun rest _ => ?_⟩
  obtain ⟨token, s, hn, hl⟩ := loop_first (.inl rfl) (fun _ _ => rfl) hs hs hs
    (itemTexts_buildList hi hbo) rest
  have ho : 0x5b :: w.pretty [0x20] ++ body ++ w.pretty [0x20] ++ [0x5d] ++ rest =
      0x5b :: (w.pretty [0x20] ++ (body ++ (w.pretty [0x20] ++ 0x5d :: rest))) := by
    simp
  rw [ho]
  change p.parseToken (room + 1) .arrayBegin _ = _
  rw [parseToken, hn]
  dsimp only
  rw [hl]
  rfl

theorem uniqueFrom_of_sorted {e : List UInt8 × Value}
    (h : (e :: items).Pairwise fun a b => a.1 < b.1) : uniqueFrom e items = e :: items := by
  induction items generalizing e with
  | nil => rfl
  | cons next items ih =>
    rw [pairwise_cons] at h
    rw [uniqueFrom, if_pos (h.1 next mem_cons_self), ih h.2]

theorem eq_of_key_eq (h : items.Pairwise fun a b => a.1 < b.1) :
    ∀ a ∈ items, ∀ b ∈ items, a.1 = b.1 → a = b := by
  have hn : (items.map fst).Nodup := by
    refine pairwise_map.mpr (h.imp fun {a b} hlt heq => ?_)
    rw [heq] at hlt
    exact List.lt_irrefl _ hlt
  exact fun a ha b hb heq => inj_on_of_nodup_map hn ha hb heq

/-- Entries in the order of their keys stay as they are, although the parser reverses
them first. -/
theorem dictStorage_reverse (h : items.Pairwise fun a b => a.1 < b.1) :
    dictStorage items.reverse = items := by
  have hp : (items.reverse.mergeSort fun a b => a.1 ≤ b.1).Perm items :=
    (mergeSort_perm _ _).trans (reverse_perm items)
  have hle : (items.reverse.mergeSort fun a b => a.1 ≤ b.1).Pairwise fun a b => a.1 ≤ b.1 := by
    refine (pairwise_mergeSort ?_ ?_ items.reverse).imp of_decide_eq_true
    · intro a b c hab hbc
      exact decide_eq_true (List.le_trans (of_decide_eq_true hab) (of_decide_eq_true hbc))
    · intro a b
      rw [Bool.or_eq_true, decide_eq_true_iff, decide_eq_true_iff]
      exact List.le_total a.1 b.1
  have hs : items.reverse.mergeSort (fun a b => a.1 ≤ b.1) = items := by
    refine List.Perm.eq_of_pairwise ?_ hle (h.imp List.le_of_lt) hp
    intro a b ha hb hab hba
    exact eq_of_key_eq h a (hp.mem_iff.mp ha) b hb (List.le_antisymm hab hba)
  rw [dictStorage, hs]
  cases items with
  | nil => rfl
  | cons e items => exact uniqueFrom_of_sorted h

theorem lineEnding_space : Spaces w.lineEnding := by
  unfold lineEnding
  cases w.platform with
  | windows => exact forall_mem_cons.mpr ⟨rfl, forall_mem_singleton.mpr rfl⟩
  | other => exact forall_mem_singleton.mpr rfl

theorem indentLine_space : Spaces (indentLine depth) := by
  intro c hc
  rw [eq_of_mem_replicate hc]
  decide

theorem ReadsBack.itemText_entry {key k : List UInt8} {result : Bool} (hv : ReadsBack p room v text)
    (hkey : IsText key) (hk : escapeJSONString key = some (k, result)) :
    ItemText p 0x7d (p.dictionaryLoop (p.parseToken room)) (key, v)
      (k ++ 0x3a :: (w.pretty [0x20] ++ text)) := by
  obtain ⟨codePoints, hva, rfl⟩ := hkey
  have hq := escapeJSONString_text hva hk
  refine ⟨⟨0x22, _, by rw [hq]; rfl, by decide, by decide⟩,
    fun {n token s t rest items} hf hsep hl => ?_⟩
  have hc : getNextToken (0x3a :: (w.pretty [0x20] ++ (text ++ s))) =
      (.objectPairSeparator, 0x3a :: (w.pretty [0x20] ++ (text ++ s))) :=
    getNextToken_gap (g := []) spaces_nil (by rintro _ ⟨⟩; decide)
  obtain ⟨hh, ht, -⟩ := hv.head s
  have hval := getNextToken_gap (pretty_space (w := w) space_isJsonSpace) hh
  rw [ht] at hval
  rw [show tokenAt (k ++ 0x3a :: (w.pretty [0x20] ++ text)) = .string by rw [hq]; rfl,
    dictionaryLoop, if_neg (by decide), if_neg (by decide), append_assoc,
    cons_append, append_assoc,
    consumeStringRaw_escapeJSONString p ⟨_, hva, rfl⟩ hk, Outcome.ok_bind]
  dsimp only
  rw [hc]
  dsimp only
  rw [if_neg (by decide), drop_one, tail_cons, hval]
  simp only [hv.parses s hf, Outcome.ok_bind,
    show p.consumeSeparator .objectEnd _ = _ from hsep, hl]

theorem itemTexts_buildDictionary (hke : ∀ e ∈ items, IsText e.1)
    (hi : ∀ e ∈ items, w.omits e.2 = false ∧ ∀ t,
      w.buildJSONString stack (depth + 1) e.2 = some (t, true) → ReadsBack p room e.2 t)
    (hb : w.buildDictionary stack depth first items = some (text, true)) : items = [] ∧ text = [] ∨
      ItemTexts p 0x7d (p.dictionaryLoop (p.parseToken room))
        (w.pretty w.lineEnding ++ w.pretty (indentLine (depth + 1))) items
        (if first then text else 0x2c :: (w.pretty w.lineEnding ++ text)) := by
  induction items generalizing first text with
  | nil => exact .inl ⟨rfl, (congrArg fst (some.inj hb)).symm⟩
  | cons e items ih =>
    obtain ⟨hkey, hke⟩ := forall_mem_cons.mp hke
    obtain ⟨⟨ho, hre⟩, hi⟩ := forall_mem_cons.mp hi
    rw [buildDictionary, ho, if_neg (by decide)] at hb
    obtain ⟨⟨k, didEscape⟩, hk, h⟩ := bind_eq_some_iff.mp hb
    obtain ⟨⟨t, result⟩, hv, h⟩ := bind_eq_some_iff.mp h
    obtain ⟨⟨ts, results⟩, hres, h⟩ := bind_eq_some_iff.mp h
    obtain ⟨rfl, hr⟩ := mk.inj (some.inj h)
    rw [Bool.and_eq_true] at hr
    obtain ⟨rfl, rfl⟩ := hr
    have he := (hre t hv).itemText_entry (w := w) hkey hk
    convert ItemTexts.cons he (.of_or (ih hke hi hres)) using 1
    cases first <;> simp [dictSeparator]

/-- A dictionary is read back if its values are; its keys are in order, so that none is dropped.
-/
theorem readsBack_dictionary (hs : items.Pairwise fun a b => a.1 < b.1)
    (hk : ∀ e ∈ items, IsText e.1) (hi : ∀ e ∈ items, w.omits e.2 = false ∧ ∀ t,
      w.buildJSONString (stack + 1) (depth + 1) e.2 = some (t, true) → ReadsBack p room e.2 t)
    (hb : w.buildJSONString stack depth (.dictionary items) = some (text, true)) :
    ReadsBack p (room + 1) (.dictionary items) text := by
  have hl : Spaces (w.pretty w.lineEnding) := pretty_space lineEnding_space
  have hlast : Spaces (w.pretty (w.lineEnding ++ indentLine depth)) :=
    pretty_space (forall_mem_append.mpr ⟨lineEnding_space, indentLine_space⟩)
  have hlt := stack_lt_of_buildJSONString hb
  rw [buildJSONString, if_neg (Nat.not_le_of_lt hlt)] at hb
  obtain ⟨⟨body, result⟩, hbo, h⟩ := bind_eq_some_iff.mp hb
  obtain ⟨rfl, rfl⟩ := mk.inj (some.inj h)
  refine ⟨⟨_, _, rfl, by decide⟩, fun rest _ => ?_⟩
  obtain ⟨token, s, hn, hlo⟩ := loop_first (.inr rfl) (fun _ _ => rfl)
    (forall_mem_append.mpr ⟨hl, pretty_space indentLine_space⟩) hlast hl
    (itemTexts_buildDictionary hk hi hbo) rest
  have ho : 0x7b :: w.pretty w.lineEnding ++ body ++
        w.pretty (w.lineEnding ++ indentLine depth) ++ [0x7d] ++ rest =
      0x7b :: (w.pretty w.lineEnding ++ (body ++
        (w.pretty (w.lineEnding ++ indentLine depth) ++ 0x7d :: rest))) := by
    simp
  rw [ho]
  change p.parseToken (room + 1) .objectBegin _ = _
  rw [parseToken, hn]
  dsimp only
  rw [hlo, Outcome.ok_bind, dictStorage_reverse hs]

theorem omits_of_plain (w : JSONWriter) (h : Plain v) : w.omits v = false := by
  cases h <;> exact Bool.and_false _

theorem startsValue_digit (hc : isAsciiDigit c = true) : StartsValue c ∧ tokenOf c = .number := by
  have hall : ∀ d < 10, StartsValue (d + 0x30).toUInt8 ∧ tokenOf (d + 0x30).toUInt8 = .number := by
    decide
  have hnat := (isAsciiDigit_iff c).mp hc
  have h := hall (c.toNat - 0x30) (by omega)
  rwa [Nat.sub_add_cancel hnat.1, Nat.toUInt8_eq, UInt8.ofNat_toNat] at h

theorem numberToString_eq_cons (hz : z.natAbs < 10 ^ 13) :
    ∃ c s, numberToString z = c :: s ∧ StartsValue c ∧ tokenOf c = .number := by
  obtain ⟨d, digits, hw, -⟩ := writeDigits_eq_cons (n := 12) hz
  have hd := writeDigits_isAsciiDigit 13 z.natAbs d (by rw [hw]; exact mem_cons_self)
  unfold numberToString intToString
  split
  · exact ⟨_, _, rfl, by decide⟩
  · exact ⟨_, _, hw, startsValue_digit hd⟩

theorem readsBack_integer (p : JSONParser) (room : ℕ) (i : Int32) :
    ReadsBack p room (.integer i) (numberToString i.toInt) := by
  obtain ⟨c, s, hw, hs, ht⟩ := numberToString_eq_cons (int32_natAbs_lt i)
  refine ⟨⟨c, s, hw, hs⟩, fun rest hr => ?_⟩
  rw [show tokenAt (numberToString i.toInt) = .number by rw [hw]; exact ht, parseToken]
  exact consumeNumber_numberToString p i hr

theorem readsBack_string (hs : IsText s) (h : escapeJSONString s = some (text, result)) :
    ReadsBack p room (.string s) text := by
  obtain ⟨codePoints, hv, rfl⟩ := hs
  have ht := escapeJSONString_text hv h
  refine ⟨⟨0x22, _, ht, by decide⟩, fun rest _ => ?_⟩
  rw [show tokenAt text = .string by rw [ht]; rfl, parseToken,
    consumeString, consumeStringRaw_escapeJSONString p ⟨_, hv, rfl⟩ h]
  rfl

/-- What the writer completes is read back, by induction over the value. -/
theorem readsBack_of_plain (hv : Plain v)
    (hb : w.buildJSONString stack depth v = some (text, true)) :
    ReadsBack p (w.maxDepth - 1 - stack) v text := by
  have hlt := stack_lt_of_buildJSONString hb
  induction hv generalizing stack depth text with
  | none =>
    rw [buildJSONString, if_neg (Nat.not_le_of_lt hlt)] at hb
    obtain ⟨rfl, -⟩ := mk.inj (some.inj hb)
    exact ⟨⟨_, _, rfl, by decide⟩, fun _ _ => parseToken.eq_def _ _ _ _⟩
  | boolean b =>
    cases b
    all_goals
      rw [buildJSONString, if_neg (Nat.not_le_of_lt hlt)] at hb
      obtain ⟨rfl, -⟩ := mk.inj (some.inj hb)
      exact ⟨⟨_, _, rfl, by decide⟩, fun _ _ => parseToken.eq_def _ _ _ _⟩
  | integer i =>
    rw [buildJSONString, if_neg (Nat.not_le_of_lt hlt)] at hb
    obtain ⟨rfl, -⟩ := mk.inj (some.inj hb)
    exact readsBack_integer _ _ i
  | string h =>
    rw [buildJSONString, if_neg (Nat.not_le_of_lt hlt)] at hb
    obtain ⟨⟨t, result⟩, hes, h'⟩ := bind_eq_some_iff.mp hb
    obtain ⟨rfl, -⟩ := mk.inj (some.inj h')
    exact readsBack_string h hes
  | list h ih =>
    rw [show w.maxDepth - 1 - stack = w.maxDepth - 1 - (stack + 1) + 1 by omega]
    exact readsBack_list (fun v hv => ⟨omits_of_plain w (h v hv), fun t ht =>
      ih v hv ht (stack_lt_of_buildJSONString ht)⟩) hb
  | dictionary hs hk hva ih =>
    rw [show w.maxDepth - 1 - stack = w.maxDepth - 1 - (stack + 1) + 1 by omega]
    exact readsBack_dictionary hs hk (fun e he => ⟨omits_of_plain w (hva e he),
      fun t ht => ih e he ht (stack_lt_of_buildJSONString ht)⟩) hb

/-- What the writer writes successfully, the parser reads as the same value, if both have
the same depth and the text has a length that the parser accepts. -/
theorem parse_writeWithOptions (w : JSONWriter) (p : JSONParser)
    (hdepth : p.maxDepth = w.maxDepth) {v : Value} (hv : Plain v) {text : List UInt8}
    (hwrite : w.writeWithOptions v = some (text, true)) (hlen : text.length ≤ int32Max) :
    p.parse text = .ok v := by
  obtain ⟨⟨body, result⟩, hbu, h⟩ := bind_eq_some_iff.mp hwrite
  obtain ⟨rfl, rfl⟩ := mk.inj (some.inj h)
  have hs : Spaces (w.pretty w.lineEnding) := pretty_space lineEnding_space
  have hb : ReadsBack p (p.maxDepth - 1) v body := by
    rw [hdepth]
    exact readsBack_of_plain hv hbu
  have hend : getNextToken (w.pretty w.lineEnding ++ []) = (.endOfInput, []) :=
    getNextToken_gap hs (by simp)
  have hfo : FollowsValue (w.pretty w.lineEnding) :=
    ⟨_, [], (append_nil _).symm, hs, by simp⟩
  obtain ⟨hh, ht, -⟩ := hb.head (w.pretty w.lineEnding)
  have hf := getNextToken_gap (g := []) spaces_nil hh
  rw [nil_append, ht] at hf
  rw [append_nil] at hend
  rw [parse, if_neg (Nat.not_lt_of_le hlen), hb.skipByteOrderMark, hf]
  dsimp only
  rw [hb.parses _ hfo, Outcome.ok_bind]
  rw [hend, if_pos rfl]

/-- A pretty-printed dictionary with a list in it. -/
theorem parse_writeWithOptions_nested : (mk false false 4 (by decide) default).parse
      [0x7b, 0x0a, 0x20, 0x20, 0x20, 0x22, 0x61, 0x22, 0x3a, 0x20, 0x5b, 0x20, 0x2d, 0x35, 0x2c,
        0x20, 0x22, 0x5c, 0x6e, 0x22, 0x20, 0x5d, 0x0a, 0x7d, 0x0a] =
      .ok (.dictionary [([0x61], .list [.integer (-5), .string [0x0a]])]) := by
  have hkey : IsText [0x61] := ⟨[0x61], by decide, by decide⟩
  have hs : IsText [0x0a] := ⟨[0x0a], by decide, by decide⟩
  have hl : Plain (.list [.integer (-5), .string [0x0a]]) := by
    refine .list fun v hv => ?_
    rw [mem_cons, mem_singleton] at hv
    rcases hv with rfl | rfl
    · exact .integer _
    · exact .string hs
  refine parse_writeWithOptions ⟨false, false, true, 4, by decide, .other, default⟩ _ rfl
    (.dictionary (pairwise_singleton _ _) ?_ ?_) (by decide) (by decide)
  · intro e he
    rwa [mem_singleton.mp he]
  · intro e he
    rwa [mem_singleton.mp he]

theorem flatMap_replicate (hf : f 0x61 = [0x61]) (n : ℕ) :
    (List.replicate n 0x61).flatMap f = List.replicate n 0x61 := by
  induction n with
  | zero => rfl
  | succ n ih =>
    rw [replicate_succ, flatMap_cons, hf, ih, singleton_append, replicate_succ]

theorem writeWithOptions_replicate (w : JSONWriter) (hp : w.prettyPrint = false)
    (hd : 1 < w.maxDepth) (hn : n ≤ int32Max) : Plain (.string (List.replicate n 0x61)) ∧
      w.writeWithOptions (.string (List.replicate n 0x61)) =
        some (0x22 :: List.replicate n 0x61 ++ [0x22], true) := by
  have hv : ∀ c ∈ List.replicate n 0x61, IsValidCharacter c := by
    intro c hc
    rw [eq_of_mem_replicate hc]
    decide
  have ht := flatMap_replicate (f := writeUnicodeCharacter) (by decide) n
  have hl := escapeLoop_text hv (n := n) (by rw [length_replicate])
  rw [ht, flatMap_replicate (by decide)] at hl
  refine ⟨.string ⟨_, hv, ht.symm⟩, ?_⟩
  rw [writeWithOptions, buildJSONString, if_neg (Nat.not_le_of_lt hd),
    escapeJSONString, length_replicate, if_pos hn, hl, pretty, hp]
  simp only [bind_eq_bind, bind_some, Bool.false_eq_true, if_false, append_nil]

/-- The depth and the options do not help a text that the parser finds too long. -/
theorem parse_longText : ∃ (w : JSONWriter) (p : JSONParser) (v : Value) (text : List UInt8),
    p.maxDepth = w.maxDepth ∧ Plain v ∧ w.writeWithOptions v = some (text, true) ∧
      p.parse text = .error (.reported .tooLarge) := by
  let w : JSONWriter := ⟨false, false, false, 200, le_rfl, .other, default⟩
  obtain ⟨hp, hw⟩ := writeWithOptions_replicate w rfl (by decide) (n := int32Max) le_rfl
  refine ⟨w, ⟨false, false, 200, le_rfl, default⟩, _, _, rfl, hp, hw, if_pos ?_⟩
  rw [length_append, length_cons, length_replicate]
  omega

end ChromiumBase.Json
