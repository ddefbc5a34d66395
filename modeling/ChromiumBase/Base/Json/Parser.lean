import ChromiumBase.Base.Json.Writer
import ChromiumBase.Base.Strings.StringToNumber
import ChromiumBase.Lib.Outcome
import Mathlib.Data.List.TakeWhile

/-!
# The JSON parser

`JSONParser` of `base/json/json_parser.cc`. The input from `index_` on is the state: a
function takes what is left of the input and returns what it leaves. Of the error
position only the error code is kept.

The nesting of containers is bounded by the depth, so that the recursion is on the number
of containers that may still be opened. The loops inside a container or a string are
bounded by the length of the input, and never reach that bound.
-/

open List Option

namespace ChromiumBase.Json

open NumberConversions

open Outcome

inductive JsonParseError where
  | noError
  | invalidEscape
  | syntaxError
  | unexpectedToken
  | trailingComma
  | tooMuchNesting
  | unexpectedDataAfterRoot
  | unsupportedEncoding
  | unquotedDictionaryKey
  | tooLarge
  deriving DecidableEq

/-- Why there is no value: the parser returns with an error code, or a loop of the model
has used up its bound. -/
inductive Failure where
  | reported (code : JsonParseError)
  | outOfRounds
  deriving DecidableEq

inductive Token where
  | objectBegin
  | objectEnd
  | arrayBegin
  | arrayEnd
  | string
  | number
  | boolTrue
  | boolFalse
  | null
  | listSeparator
  | objectPairSeparator
  | endOfInput
  | invalidToken
  deriving DecidableEq

/-- The options of `JSONParser`, and the depth that its constructor checks. -/
structure JSONParser where
  allowTrailingCommas : Bool
  replaceInvalidCharacters : Bool
  maxDepth : ℕ
  maxDepth_le : maxDepth ≤ kAbsoluteMaxDepth
  doubles : Doubles

abbrev Parsed (α : Type) := α × List UInt8

abbrev reportError {α : Type} (code : JsonParseError) : Except Failure α :=
  .error (.reported code)

/-- The loop over a line comment, which stops in front of the end of the line. -/
def eatLineComment : List UInt8 → Bool × List UInt8
  | [] => (false, [])
  | c :: s => if c = 0x0a ∨ c = 0x0d then (true, c :: s) else eatLineComment s

def eatBlockComment (previous : UInt8) : List UInt8 → Bool × List UInt8
  | [] => (false, [])
  | c :: s => if previous = 0x2a ∧ c = 0x2f then (true, s) else eatBlockComment c s

/-- `EatComment`, at a slash. The two characters at the front are consumed whatever the
second one is. -/
def eatComment : List UInt8 → Bool × List UInt8
  | 0x2f :: 0x2f :: s => eatLineComment s
  | 0x2f :: 0x2a :: s => eatBlockComment 0 s
  | _ :: _ :: s => (false, s)
  | s => (false, s)

def isJsonSpace (c : UInt8) : Bool := c = 0x0d ∨ c = 0x0a ∨ c = 0x20 ∨ c = 0x09

/-- A round takes a byte at least, so that more rounds than bytes change nothing
(`eatLoop_of_length_le`). -/
def eatLoop : ℕ → List UInt8 → List UInt8
  | 0, s => s
  | _, [] => []
  | n + 1, c :: s =>
    if isJsonSpace c then eatLoop n s
    else if c = 0x2f then
      if (eatComment (c :: s)).1 then eatLoop n (eatComment (c :: s)).2
      else (eatComment (c :: s)).2
    else c :: s

def eatWhitespaceAndComments (s : List UInt8) : List UInt8 := eatLoop s.length s

def tokenOf (c : UInt8) : Token :=
  if c = 0x7b then .objectBegin
  else if c = 0x7d then .objectEnd
  else if c = 0x5b then .arrayBegin
  else if c = 0x5d then .arrayEnd
  else if c = 0x22 then .string
  else if isAsciiDigit c ∨ c = 0x2d then .number
  else if c = 0x74 then .boolTrue
  else if c = 0x66 then .boolFalse
  else if c = 0x6e then .null
  else if c = 0x2c then .listSeparator
  else if c = 0x3a then .objectPairSeparator
  else .invalidToken

def tokenAt : List UInt8 → Token
  | [] => .endOfInput
  | c :: _ => tokenOf c

def getNextToken (s : List UInt8) : Token × List UInt8 :=
  (tokenAt (eatWhitespaceAndComments s), eatWhitespaceAndComments s)

def asUInt32 (z : ℤ) : ℕ := (z % 2 ^ 32).toNat

def consumeHex (count : ℕ) (s : List UInt8) : Option (ℕ × List UInt8) :=
  if s.length < count then none
  else (hexStringToInt (s.take count)).map fun z => (asUInt32 z, s.drop count)

namespace JSONParser

variable (p : JSONParser)

def decodeUTF16 (s : List UInt8) : Option (ℕ × List UInt8) := do
  let (high, s) ← consumeHex 4 s
  if Utf.isSurrogate high then
    if Utf.isSurrogateLead high then
      match s with
      | 0x5c :: 0x75 :: s =>
        let (low, s) ← consumeHex 4 s
        if Utf.isTrailUnit low ∧ Utf.IsValidCharacter (Utf.getSupplementary high low) then
          some (Utf.getSupplementary high low, s)
        else none
      | _ => none
    else none
  else if Utf.IsValidCharacter high then some (high, s)
  else if p.replaceInvalidCharacters then some (kReplacementCodePoint, s)
  else none

def simpleEscape : UInt8 → Option ℕ
  | 0x22 => some 0x22
  | 0x5c => some 0x5c
  | 0x2f => some 0x2f
  | 0x62 => some 0x08
  | 0x66 => some 0x0c
  | 0x6e => some 0x0a
  | 0x72 => some 0x0d
  | 0x74 => some 0x09
  | 0x76 => some 0x0b
  | _ => none

/-- An escape sequence in a string, from its backslash on. -/
def consumeEscape : List UInt8 → Except Failure (Parsed ℕ)
  | _ :: c :: s =>
    if c = 0x78 then
      match consumeHex 2 s with
      | some (hexDigit, s) =>
        if Utf.IsValidCharacter hexDigit then .ok (hexDigit, s)
        else reportError .invalidEscape
      | none => reportError .invalidEscape
    else if c = 0x75 then
      match p.decodeUTF16 s with
      | some r => .ok r
      | none => reportError .invalidEscape
    else
      match simpleEscape c with
      | some codePoint => .ok (codePoint, s)
      | none => reportError .invalidEscape
  | _ => reportError .invalidEscape

def appendCodePoint (c : ℕ) (r : List UInt8 × List UInt8) : List UInt8 × List UInt8 :=
  (Utf.writeUnicodeCharacter c ++ r.1, r.2)

/-- The loop of `ConsumeStringRaw`; a `StringBuilder` is the bytes that were appended. -/
def stringLoop : ℕ → List UInt8 → Except Failure (Parsed (List UInt8))
  | _, [] => reportError .syntaxError
  | 0, _ => .error .outOfRounds
  | n + 1, b :: s =>
    let read := Utf.readUnicodeCharacter (b :: s)
    match read.1.filter (Utf.IsValidCharacter ·) with
    | none =>
      if p.replaceInvalidCharacters then
        (appendCodePoint kReplacementCodePoint) <$> stringLoop n ((b :: s).drop read.2)
      else reportError .unsupportedEncoding
    | some c =>
      if c = 0x22 then .ok ([], (b :: s).drop read.2)
      else if c = 0x5c then do
        let (c, s) ← p.consumeEscape (b :: s)
        (appendCodePoint c) <$> stringLoop n s
      else (appendCodePoint c) <$> stringLoop n ((b :: s).drop read.2)

def consumeStringRaw : List UInt8 → Except Failure (Parsed (List UInt8))
  | 0x22 :: s => p.stringLoop s.length s
  | _ => reportError .unexpectedToken

def consumeString (s : List UInt8) : Except Failure (Parsed Value) := do
  let (string, s) ← p.consumeStringRaw s
  .ok (.string string, s)

def readInt (allowLeadingZeros : Bool) (s : List UInt8) : Option (List UInt8) :=
  let digits := s.takeWhile isAsciiDigit
  if digits = [] then none
  else if !allowLeadingZeros ∧ digits.length > 1 ∧ digits.head? = some 0x30 then none
  else some (s.dropWhile isAsciiDigit)

def skipMinus : List UInt8 → List UInt8
  | 0x2d :: s => s
  | s => s

def readFraction : List UInt8 → Option (List UInt8)
  | 0x2e :: s => readInt true s
  | s => some s

def skipSign : List UInt8 → List UInt8
  | 0x2d :: s => s
  | 0x2b :: s => s
  | s => s

def readExponent : List UInt8 → Option (List UInt8)
  | 0x65 :: s => readInt true (skipSign s)
  | 0x45 :: s => readInt true (skipSign s)
  | s => some s

def skipNumber (s : List UInt8) : Option (List UInt8) := do
  let s ← readInt false (skipMinus s)
  let s ← readFraction s
  readExponent s

def endsNumber : Token → Bool
  | .objectEnd | .arrayEnd | .listSeparator | .endOfInput => true
  | _ => false

/-- The value of the text of a number. A number that is too large for a double is not
reported. -/
def numberValue (text : List UInt8) : Except Failure Value :=
  match stringToInt text with
  | some i => .ok (.integer (Int32.ofInt i))
  | none =>
    match (p.doubles.stringToDouble text).filter p.doubles.isfinite with
    | some d => .ok (.double d)
    | none => reportError .noError

def consumeNumber (s : List UInt8) : Except Failure (Parsed Value) :=
  match skipNumber s with
  | none => reportError .syntaxError
  | some rest =>
    if endsNumber (getNextToken rest).1 then do
      let value ← p.numberValue (s.take (s.length - rest.length))
      .ok (value, rest)
    else reportError .syntaxError

def consumeLiteral : List UInt8 → Except Failure (Parsed Value)
  | 0x74 :: 0x72 :: 0x75 :: 0x65 :: s => .ok (.boolean true, s)
  | 0x66 :: 0x61 :: 0x6c :: 0x73 :: 0x65 :: s => .ok (.boolean false, s)
  | 0x6e :: 0x75 :: 0x6c :: 0x6c :: s => .ok (.none, s)
  | _ => reportError .syntaxError

/-- Behind an item: the token of the next item, or `closer`. -/
def consumeSeparator (closer : Token) (s : List UInt8) : Except Failure (Parsed Token) :=
  let (token, s) := getNextToken s
  if token = .listSeparator then
    let (token, s) := getNextToken (s.drop 1)
    if token = closer ∧ !p.allowTrailingCommas then reportError .trailingComma
    else .ok (token, s)
  else if token = closer then .ok (token, s)
  else reportError .syntaxError

/-- The loop of `ConsumeList`, from the first token behind the bracket to the closing
bracket. -/
def listLoop (parseItem : Token → List UInt8 → Except Failure (Parsed Value)) :
    ℕ → Token → List UInt8 → Except Failure (Parsed (List Value))
  | 0, _, _ => .error .outOfRounds
  | n + 1, token, s =>
    if token = .arrayEnd then .ok ([], s.drop 1)
    else do
      let (item, s) ← parseItem token s
      let (token, s) ← p.consumeSeparator .arrayEnd s
      let (items, s) ← listLoop parseItem n token s
      .ok (item :: items, s)

def dictionaryLoop (parseItem : Token → List UInt8 → Except Failure (Parsed Value)) :
    ℕ → Token → List UInt8 → Except Failure (Parsed (List (List UInt8 × Value)))
  | 0, _, _ => .error .outOfRounds
  | n + 1, token, s =>
    if token = .objectEnd then .ok ([], s.drop 1)
    else if token ≠ .string then reportError .unquotedDictionaryKey
    else do
      let (key, s) ← p.consumeStringRaw s
      let (token, s) := getNextToken s
      if token ≠ .objectPairSeparator then reportError .syntaxError
      else do
        let (token, s) := getNextToken (s.drop 1)
        let (value, s) ← parseItem token s
        let (token, s) ← p.consumeSeparator .objectEnd s
        let (items, s) ← dictionaryLoop parseItem n token s
        .ok ((key, value) :: items, s)

def uniqueFrom (kept : List UInt8 × Value) :
    List (List UInt8 × Value) → List (List UInt8 × Value)
  | [] => [kept]
  | next :: entries =>
    if kept.1 < next.1 then kept :: uniqueFrom next entries else uniqueFrom kept entries

/-- `std::unique` on the sorted entries: of neighbours with equal keys the first one
stays. -/
def uniqueByKey : List (List UInt8 × Value) → List (List UInt8 × Value)
  | [] => []
  | entry :: entries => uniqueFrom entry entries

def dictStorage (entries : List (List UInt8 × Value)) : List (List UInt8 × Value) :=
  uniqueByKey (entries.mergeSort fun a b => a.1 ≤ b.1)

/-- `ParseToken`, with `ConsumeDictionary` and `ConsumeList`. `room` is the number of
containers that may be opened inside one another from here on. -/
def parseToken : ℕ → Token → List UInt8 → Except Failure (Parsed Value)
  | room, .objectBegin, 0x7b :: s =>
    match room with
    | 0 => reportError .tooMuchNesting
    | room + 1 => do
        let (token, s) := getNextToken s
        let (items, s) ← p.dictionaryLoop (parseToken room) (s.length + 1) token s
        -- the last one of entries with equal keys is kept
        .ok (.dictionary (dictStorage items.reverse), s)
  | room, .arrayBegin, 0x5b :: s =>
    match room with
    | 0 => reportError .tooMuchNesting
    | room + 1 => do
        let (token, s) := getNextToken s
        let (items, s) ← p.listLoop (parseToken room) (s.length + 1) token s
        .ok (.list items, s)
  | _, .string, s => p.consumeString s
  | _, .number, s => p.consumeNumber s
  | _, .boolTrue, s => consumeLiteral s
  | _, .boolFalse, s => consumeLiteral s
  | _, .null, s => consumeLiteral s
  | _, _, _ => reportError .unexpectedToken

def skipByteOrderMark : List UInt8 → List UInt8
  | 0xef :: 0xbb :: 0xbf :: s => s
  | s => s

/-- The first container is at depth 1 and has to be below `max_depth`. -/
def parse (input : List UInt8) : Except Failure Value :=
  if int32Max < input.length then reportError .tooLarge
  else do
    let (token, s) := getNextToken (skipByteOrderMark input)
    let (root, s) ← p.parseToken (p.maxDepth - 1) token s
    if (getNextToken s).1 = .endOfInput then .ok root
    else reportError .unexpectedDataAfterRoot

end JSONParser

/-! ## Progress

Every function leaves a shorter input behind, so that the bounds on the loops are never
reached. -/

theorem eatLineComment_length_le (s : List UInt8) : (eatLineComment s).2.length ≤ s.length := by
  induction s with
  | nil => exact le_rfl
  | cons c s ih =>
    rw [eatLineComment]
    split
    · exact le_rfl
    · exact Nat.le_succ_of_le ih

theorem eatBlockComment_length_le (previous : UInt8) (s : List UInt8) :
    (eatBlockComment previous s).2.length ≤ s.length := by
  induction s generalizing previous with
  | nil => exact le_rfl
  | cons c s ih =>
    rw [eatBlockComment]
    split
    · exact Nat.le_succ _
    · exact Nat.le_succ_of_le (ih c)

theorem eatComment_length_le (s : List UInt8) : (eatComment s).2.length ≤ s.length := by
  fun_cases eatComment s with
  | case1 s => exact Nat.le_succ_of_le (Nat.le_succ_of_le (eatLineComment_length_le s))
  | case2 s => exact Nat.le_succ_of_le (Nat.le_succ_of_le (eatBlockComment_length_le 0 s))
  | case3 => exact Nat.le_add_right _ 2
  | case4 => exact le_rfl

theorem eatComment_length_lt {s : List UInt8} (h : (eatComment s).1 = true) :
    (eatComment s).2.length < s.length := by
  revert h
  fun_cases eatComment s with
  | case1 s => exact fun _ => Nat.lt_succ_of_le (Nat.le_succ_of_le (eatLineComment_length_le s))
  | case2 s =>
    exact fun _ => Nat.lt_succ_of_le (Nat.le_succ_of_le (eatBlockComment_length_le 0 s))
  | case3 | case4 => exact fun h => Bool.noConfusion h

/-- More rounds than there are bytes change nothing. -/
theorem eatLoop_of_length_le {n : ℕ} {s : List UInt8} (hn : s.length ≤ n) :
    eatLoop n s = eatWhitespaceAndComments s := by
  suffices h : ∀ n m s, s.length ≤ n → s.length ≤ m → eatLoop n s = eatLoop m s from
    h n s.length s hn le_rfl
  clear hn
  intro n
  induction n with
  | zero =>
    intro m s hn _
    rw [length_eq_zero_iff.mp (Nat.le_zero.mp hn)]
    cases m <;> rfl
  | succ n ih =>
    intro m s hn hm
    cases s with
    | nil => cases m <;> rfl
    | cons c s =>
      rw [length_cons] at hn hm
      obtain ⟨m, rfl⟩ := Nat.exists_eq_add_of_le' (Nat.zero_lt_of_lt hm)
      simp only [eatLoop]
      split_ifs with _ _ hc
      · exact ih m s (by omega) (by omega)
      · have hl := eatComment_length_lt hc
        rw [length_cons] at hl
        exact ih m _ (by omega) (by omega)
      · rfl
      · rfl

theorem eatLoop_length_le (n : ℕ) (s : List UInt8) : (eatLoop n s).length ≤ s.length := by
  fun_induction eatLoop n s with
  | case1 => exact le_rfl
  | case2 => exact le_rfl
  | case3 n c s _ ih => exact Nat.le_succ_of_le ih
  | case4 n s _ _ ih => exact le_trans ih (eatComment_length_le _)
  | case5 n s _ _ => exact eatComment_length_le _
  | case6 => exact le_rfl

theorem getNextToken_length_le (s : List UInt8) : (getNextToken s).2.length ≤ s.length :=
  eatLoop_length_le _ s

theorem consumeHex_eq_some {count v : ℕ} {s t : List UInt8} (h : consumeHex count s = some (v, t)) :
    ∃ z, hexStringToInt (s.take count) = some z ∧ asUInt32 z = v ∧ s.drop count = t := by
  unfold consumeHex at h
  split at h
  · contradiction
  · obtain ⟨z, hz, hr⟩ := map_eq_some_iff.mp h
    cases hr
    exact ⟨z, hz, rfl, rfl⟩

theorem consumeHex_length_le {count v : ℕ} {s t : List UInt8}
    (h : consumeHex count s = some (v, t)) : t.length ≤ s.length := by
  obtain ⟨z, -, -, rfl⟩ := consumeHex_eq_some h
  exact (drop_sublist count s).length_le

namespace JSONParser

variable {p : JSONParser} {n c : ℕ} {token : Token} {allow : Bool}

/-- A unit that is no surrogate, or a pair of them. -/
theorem decodeUTF16_eq_some {s t : List UInt8} (h : p.decodeUTF16 s = some (c, t)) :
    (∃ unit, consumeHex 4 s = some (unit, t) ∧ Utf.isSurrogate unit = false ∧
      (Utf.IsValidCharacter unit ∧ c = unit ∨
        p.replaceInvalidCharacters = true ∧ c = kReplacementCodePoint)) ∨
    ∃ high low u, consumeHex 4 s = some (high, 0x5c :: 0x75 :: u) ∧
      Utf.isSurrogate high = true ∧ Utf.isSurrogateLead high = true ∧
      consumeHex 4 u = some (low, t) ∧ Utf.isTrailUnit low = true ∧
      Utf.IsValidCharacter (Utf.getSupplementary high low) ∧ c = Utf.getSupplementary high low := by
  obtain ⟨⟨high, u⟩, hh, h⟩ := bind_eq_some_iff.mp h
  dsimp only at h
  split_ifs at h with hsur hl hv hr
  · split at h
    · obtain ⟨⟨low, t⟩, hlow, h⟩ := bind_eq_some_iff.mp h
      split_ifs at h with ht
      obtain ⟨rfl, rfl⟩ := Prod.mk.inj (some.inj h)
      exact .inr ⟨_, _, _, hh, hsur, hl, hlow, ht.1, ht.2, rfl⟩
    · contradiction
  · cases h
    exact .inl ⟨_, hh, eq_false_of_ne_true hsur, .inl ⟨hv, rfl⟩⟩
  · cases h
    exact .inl ⟨_, hh, eq_false_of_ne_true hsur, .inr ⟨hr, rfl⟩⟩

theorem decodeUTF16_length_le {s t : List UInt8} (h : p.decodeUTF16 s = some (c, t)) :
    t.length ≤ s.length := by
  rcases decodeUTF16_eq_some h with ⟨_, hun, -⟩ | ⟨_, _, u, hh, -, -, hlow, -⟩
  · exact consumeHex_length_le hun
  · have hu := consumeHex_length_le hh
    have ht := consumeHex_length_le hlow
    simp only [length_cons] at hu
    omega

/-- The result leaves less than `n` bytes, and no loop has run out of rounds. -/
def Leaves {α : Type} (n : ℕ) (m : Except Failure (Parsed α)) : Prop :=
  ReturnsUnless (· ≠ .outOfRounds) m fun r => r.2.length < n

theorem Leaves.reportError {α : Type} (n : ℕ) (code : JsonParseError) :
    Leaves n (reportError code : Except Failure (Parsed α)) :=
  fun h => Failure.noConfusion h

section

variable (s : List UInt8)

theorem consumeEscape_leaves : Leaves s.length (p.consumeEscape s) := by
  fun_cases consumeEscape p s with
  | case1 _ s v t hhex hv =>
    exact Nat.lt_succ_of_le (Nat.le_succ_of_le (consumeHex_length_le hhex))
  | case4 _ s r hd _ =>
    exact Nat.lt_succ_of_le (Nat.le_succ_of_le (decodeUTF16_length_le hd))
  | case6 _ c s hx hu codePoint hs =>
    exact Nat.lt_succ_of_le (Nat.le_succ _)
  | _ => exact Leaves.reportError _ _

theorem drop_readUnicodeCharacter_length (b : UInt8) (s : List UInt8) :
    ((b :: s).drop (Utf.readUnicodeCharacter (b :: s)).2).length ≤ s.length := by
  have hpos := Utf.readUnicodeCharacter_pos b s
  rw [length_drop, length_cons]
  omega

theorem Leaves.mono {α : Type} {k : ℕ} {m : Except Failure (Parsed α)} (h : Leaves n m)
    (hle : n ≤ k) : Leaves k m :=
  ReturnsUnless.mono h fun _ hr => lt_of_lt_of_le hr hle

theorem stringLoop_leaves {s : List UInt8} (hn : s.length ≤ n) :
    Leaves (s.length + 1) (p.stringLoop n s) := by
  fun_induction stringLoop p n s with
  | case1 | case4 => exact Leaves.reportError _ _
  | case2 s hs =>
    cases s with
    | nil => exact absurd rfl hs
    | cons c s => simp at hn
  | case3 n b s read hre hrep ih | case7 n b s read c hre hq he ih =>
    have hd : ((b :: s).drop read.2).length ≤ s.length :=
      drop_readUnicodeCharacter_length b s
    rw [length_cons] at hn
    exact ReturnsUnless.map ((ih (by omega)).mono (by rw [length_cons]; omega))
  | case5 n b s read hre =>
    have hd := drop_readUnicodeCharacter_length b s
    exact Nat.lt_succ_of_le (Nat.le_succ_of_le hd)
  | case6 n b s read hre hne ih =>
    refine ReturnsUnless.bind (consumeEscape_leaves (b :: s)) fun r hr => ?_
    rw [length_cons] at hn hr
    exact ReturnsUnless.map ((ih r.2 (by omega)).mono (by rw [length_cons]; omega))

theorem consumeStringRaw_leaves : Leaves s.length (p.consumeStringRaw s) := by
  fun_cases consumeStringRaw p s with
  | case1 s => exact stringLoop_leaves le_rfl
  | case2 => exact Leaves.reportError _ _

theorem readInt_eq_some {s t : List UInt8} (h : readInt allow s = some t) :
    ∃ d digits, s = d :: digits ++ t ∧ (∀ c ∈ d :: digits, isAsciiDigit c = true) ∧
      (allow = true ∨ digits = [] ∨ d ≠ 0x30) := by
  unfold readInt at h
  dsimp only at h
  split_ifs at h with hne hz
  cases h
  obtain ⟨d, digits, hd⟩ := exists_cons_of_ne_nil hne
  refine ⟨d, digits, ?_, ?_, ?_⟩
  · rw [← hd, takeWhile_append_dropWhile]
  · rw [← hd]
    exact fun c hc => mem_takeWhile_imp hc
  · rw [hd] at hz
    simp only [length_cons, head?_cons, some.injEq] at hz
    by_contra hcon
    push Not at hcon
    refine hz ⟨by simpa using hcon.1, ?_, hcon.2.2⟩
    have hpos := length_pos_iff.mpr hcon.2.1
    omega

theorem readInt_length_lt {s t : List UInt8} (h : readInt allow s = some t) :
    t.length < s.length := by
  obtain ⟨d, digits, rfl, -⟩ := readInt_eq_some h
  rw [cons_append, length_cons, length_append]
  omega

theorem readFraction_length_le {s t : List UInt8} (h : readFraction s = some t) :
    t.length ≤ s.length := by
  revert h
  fun_cases readFraction s with
  | case1 s => exact fun h => Nat.le_succ_of_le (readInt_length_lt h).le
  | case2 => rintro ⟨⟩; exact le_rfl

theorem skipSign_length_le : (skipSign s).length ≤ s.length := by
  fun_cases skipSign s
  · exact Nat.le_succ _
  · exact Nat.le_succ _
  · exact le_rfl

theorem readExponent_length_le {s t : List UInt8} (h : readExponent s = some t) :
    t.length ≤ s.length := by
  revert h
  fun_cases readExponent s with
  | case1 s | case2 s =>
    exact fun h => Nat.le_succ_of_le ((readInt_length_lt h).le.trans (skipSign_length_le s))
  | case3 => rintro ⟨⟩; exact le_rfl

theorem skipMinus_length_le : (skipMinus s).length ≤ s.length := by
  fun_cases skipMinus s
  · exact Nat.le_succ _
  · exact le_rfl

theorem skipNumber_length_lt {s t : List UInt8} (h : skipNumber s = some t) :
    t.length < s.length := by
  obtain ⟨u, hint, h⟩ := bind_eq_some_iff.mp h
  obtain ⟨v, hf, h⟩ := bind_eq_some_iff.mp h
  calc t.length ≤ v.length := readExponent_length_le h
    _ ≤ u.length := readFraction_length_le hf
    _ < (skipMinus s).length := readInt_length_lt hint
    _ ≤ s.length := skipMinus_length_le s

theorem consumeNumber_leaves : Leaves s.length (p.consumeNumber s) := by
  unfold consumeNumber
  split
  · exact Leaves.reportError _ _
  · rename_i rest hs
    split
    · refine ReturnsUnless.bind (P := fun _ => True) ?_ fun _ _ =>
        skipNumber_length_lt hs
      unfold numberValue
      split
      · trivial
      · split
        · trivial
        · exact fun h => Failure.noConfusion h
    · exact Leaves.reportError _ _

theorem consumeLiteral_leaves : Leaves s.length (consumeLiteral s) := by
  fun_cases consumeLiteral s with
  | case1 s | case3 s => exact Nat.lt_add_of_pos_right (k := 4) (by decide)
  | case2 s => exact Nat.lt_add_of_pos_right (k := 5) (by decide)
  | case4 => exact Leaves.reportError _ _

end

theorem consumeSeparator_leaves (closer : Token) (s : List UInt8) :
    Leaves (s.length + 1) (p.consumeSeparator closer s) := by
  have hf := getNextToken_length_le s
  have hs := getNextToken_length_le ((getNextToken s).2.drop 1)
  rw [length_drop] at hs
  unfold consumeSeparator
  dsimp only
  split_ifs
  · exact Leaves.reportError _ _
  · change (getNextToken ((getNextToken s).2.drop 1)).2.length < _
    omega
  · exact Nat.lt_succ_of_le hf
  · exact Leaves.reportError _ _

section Containers

variable {parseItem : Token → List UInt8 → Except Failure (Parsed Value)}

/-- The loop ends within its bound if every item takes a byte at least. -/
theorem listLoop_leaves (hit : ∀ token s, Leaves s.length (parseItem token s)) {s : List UInt8}
    (hn : s.length < n) : Leaves (s.length + 1) (p.listLoop parseItem n token s) := by
  induction n generalizing token s with
  | zero => exact absurd hn (Nat.not_lt_zero _)
  | succ n ih =>
    rw [listLoop]
    split_ifs
    · exact Nat.lt_succ_of_le (drop_sublist 1 s).length_le
    · refine ReturnsUnless.bind (hit token s) fun item hi => ?_
      refine ReturnsUnless.bind (consumeSeparator_leaves .arrayEnd item.2)
        fun next hs => ?_
      refine ReturnsUnless.bind (ih (by omega)) fun items hr => ?_
      change items.2.length < s.length + 1
      omega

theorem dictionaryLoop_leaves (hit : ∀ token s, Leaves s.length (parseItem token s))
    {s : List UInt8} (hn : s.length < n) :
    Leaves (s.length + 1) (p.dictionaryLoop parseItem n token s) := by
  induction n generalizing token s with
  | zero => exact absurd hn (Nat.not_lt_zero _)
  | succ n ih =>
    rw [dictionaryLoop]
    split_ifs
    · exact Nat.lt_succ_of_le (drop_sublist 1 s).length_le
    · exact Leaves.reportError _ _
    · refine ReturnsUnless.bind (consumeStringRaw_leaves s) fun key hk => ?_
      have hc := getNextToken_length_le key.2
      have hv := getNextToken_length_le ((getNextToken key.2).2.drop 1)
      rw [length_drop] at hv
      dsimp only
      split_ifs
      · exact Leaves.reportError _ _
      · refine ReturnsUnless.bind (hit _ _) fun item hi => ?_
        refine ReturnsUnless.bind (consumeSeparator_leaves .objectEnd item.2)
          fun next hs => ?_
        refine ReturnsUnless.bind (ih (by omega)) fun items hr => ?_
        change items.2.length < s.length + 1
        omega

end Containers

/-- A value takes a byte at least, by induction over the nesting. -/
theorem parseToken_leaves (room : ℕ) (token : Token) (s : List UInt8) :
    Leaves s.length (p.parseToken room token s) := by
  induction room using Nat.strong_induction_on generalizing token s with
  | _ room ih =>
    fun_cases parseToken p room token s with
    | case2 s room token t hn =>
      have hlen : t.length ≤ s.length := by
        simpa [hn] using getNextToken_length_le s
      exact ReturnsUnless.bind
        (dictionaryLoop_leaves (ih room (Nat.lt_succ_self room)) (Nat.lt_succ_self _))
        fun items hr => lt_of_lt_of_le hr (Nat.succ_le_succ hlen)
    | case4 s room token t hn =>
      have hlen : t.length ≤ s.length := by
        simpa [hn] using getNextToken_length_le s
      exact ReturnsUnless.bind
        (listLoop_leaves (ih room (Nat.lt_succ_self room)) (Nat.lt_succ_self _))
        fun items hr => lt_of_lt_of_le hr (Nat.succ_le_succ hlen)
    | case5 => exact ReturnsUnless.bind (consumeStringRaw_leaves _) fun _ hr => hr
    | case6 => exact consumeNumber_leaves _
    | case7 | case8 | case9 => exact consumeLiteral_leaves _
    | _ => exact Leaves.reportError _ _

theorem Leaves.ne_outOfRounds {α : Type} {m : Except Failure (Parsed α)} (h : Leaves n m) :
    m ≠ .error .outOfRounds := by
  rintro rfl
  exact h rfl

theorem Leaves.length_lt {α : Type} {m : Except Failure (Parsed α)} {r : Parsed α}
    (h : Leaves n m) (hr : m = .ok r) : r.2.length < n := by
  subst hr
  exact h

theorem parse_ne_outOfRounds (input : List UInt8) : p.parse input ≠ .error .outOfRounds := by
  have hp : ReturnsUnless (· ≠ .outOfRounds) (p.parse input) fun _ => True := by
    unfold parse
    split_ifs
    · exact fun h => Failure.noConfusion h
    · refine ReturnsUnless.bind (parseToken_leaves _ _ _) fun root _ => ?_
      dsimp only
      split_ifs
      · trivial
      · exact fun h => Failure.noConfusion h
  intro h
  rw [h] at hp
  exact hp rfl

end JSONParser

end ChromiumBase.Json
