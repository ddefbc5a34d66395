import ChromiumBase.Base.Strings.NumberConversions
import ChromiumBase.Base.Strings.Utf

/-!
# Values and the JSON writer

`base::Value`, the string escaping of `base/json/string_escape.cc` and `JSONWriter` of
`base/json/json_writer.cc`. The writer appends to one string; here each function returns
the text it appends, together with the result it returns. `none` is a failed `CHECK`.

The conversions between doubles and texts are those of a library, and are parameters.
-/

namespace ChromiumBase.Json

/-- A double is given by its bits. A dictionary is a `flat_map`: its entries in the order of the
keys. -/
inductive Value where
  | none
  | boolean (b : Bool)
  | integer (i : Int32)
  | double (bits : UInt64)
  | string (s : List UInt8)
  | binary (blob : List UInt8)
  | list (items : List Value)
  | dictionary (items : List (List UInt8 × Value))

structure Doubles where
  numberToString : UInt64 → List UInt8
  stringToDouble : List UInt8 → Option UInt64
  isfinite : UInt64 → Bool
  /-- The value as an `int64_t`, if it is an integer in that range. -/
  toInt64 : UInt64 → Option ℤ
  deriving Inhabited

def kAbsoluteMaxDepth : ℕ := 200

def int32Max : ℕ := 2 ^ 31 - 1

def escapeSpecialCodePoint : ℕ → Option (List UInt8)
  | 0x08 => some [0x5c, 0x62]
  | 0x0c => some [0x5c, 0x66]
  | 0x0a => some [0x5c, 0x6e]
  | 0x0d => some [0x5c, 0x72]
  | 0x09 => some [0x5c, 0x74]
  | 0x5c => some [0x5c, 0x5c]
  | 0x22 => some [0x5c, 0x22]
  | 0x3c => some [0x5c, 0x75, 0x30, 0x30, 0x33, 0x43]
  | 0x2028 => some [0x5c, 0x75, 0x32, 0x30, 0x32, 0x38]
  | 0x2029 => some [0x5c, 0x75, 0x32, 0x30, 0x32, 0x39]
  | _ => none

def hexDigit (d : ℕ) : UInt8 := if d < 10 then (d + 0x30).toUInt8 else (d - 10 + 0x41).toUInt8

/-- `kU16EscapeFormat`, that is `\u%04X`, for a 16-bit code unit. -/
def u16Escape (c : ℕ) : List UInt8 :=
  [0x5c, 0x75, hexDigit (c / 4096 % 16), hexDigit (c / 256 % 16), hexDigit (c / 16 % 16),
    hexDigit (c % 16)]

def kReplacementCodePoint : ℕ := 0xFFFD

def escapeCodePoint (c : ℕ) : List UInt8 :=
  (escapeSpecialCodePoint c).getD
    (if c < 32 then u16Escape c else Utf.writeUnicodeCharacter c)

/-- The loop of `EscapeJSONStringImpl`: the text and whether something was replaced. The
first argument bounds the number of rounds; the length of the string is enough. -/
def escapeLoop : ℕ → List UInt8 → List UInt8 × Bool
  | 0, _ => ([], false)
  | _, [] => ([], false)
  | n + 1, b :: s =>
    let (read, count) := Utf.readUnicodeCharacter (b :: s)
    let rest := escapeLoop n ((b :: s).drop count)
    match read.filter (Utf.IsValidCharacter ·) with
    | some c => (escapeCodePoint c ++ rest.1, rest.2)
    | none => (escapeCodePoint kReplacementCodePoint ++ rest.1, true)

/-- `EscapeJSONString` with the quotes that the writer asks for: the text it appends and
its result. -/
def escapeJSONString (str : List UInt8) : Option (List UInt8 × Bool) :=
  if str.length ≤ int32Max then
    let (text, didReplacement) := escapeLoop str.length str
    some (0x22 :: text ++ [0x22], !didReplacement)
  else none

/-- `kPrettyPrintLineEnding` is `\r\n` on one platform and `\n` on all others. -/
inductive Platform where
  | windows
  | other
  deriving DecidableEq

def kPrettyPrintLineEnding : Platform → List UInt8
  | .windows => [0x0d, 0x0a]
  | .other => [0x0a]

/-- `JSONWriter` without its output; `stack_depth_` is an argument below. The constructor
checks the depth. -/
structure JSONWriter where
  omitBinaryValues : Bool
  omitDoubleTypePreservation : Bool
  prettyPrint : Bool
  maxDepth : ℕ
  maxDepth_le : maxDepth ≤ kAbsoluteMaxDepth
  platform : Platform
  doubles : Doubles

namespace JSONWriter

variable (w : JSONWriter)

def pretty (text : List UInt8) : List UInt8 := if w.prettyPrint then text else []

def lineEnding : List UInt8 := kPrettyPrintLineEnding w.platform

def indentLine (depth : ℕ) : List UInt8 := List.replicate (depth * 3) 0x20

/-- The text of a double: with a decimal point or an exponent, and with a digit in front of
the point. -/
def doubleText (bits : UInt64) : List UInt8 :=
  match (if w.omitDoubleTypePreservation then w.doubles.toInt64 bits else none) with
  | some i => NumberConversions.intToString 8 i
  | none =>
    let real := w.doubles.numberToString bits
    let real :=
      if real.any (fun c => c = 0x2e ∨ c = 0x65 ∨ c = 0x45) then real
      else real ++ [0x2e, 0x30]
    match real with
    | 0x2e :: s => 0x30 :: 0x2e :: s
    | 0x2d :: 0x2e :: s => 0x2d :: 0x30 :: 0x2e :: s
    | s => s

def omits (v : Value) : Bool :=
  w.omitBinaryValues && match v with | .binary _ => true | _ => false

def listSeparator (firstValueHasBeenOutput : Bool) : List UInt8 :=
  if firstValueHasBeenOutput then 0x2c :: w.pretty [0x20] else []

def dictSeparator (firstValueHasBeenOutput : Bool) : List UInt8 :=
  if firstValueHasBeenOutput then 0x2c :: w.pretty w.lineEnding else []

mutual

/-- `BuildJSONString`. `stack` is `stack_depth_` before the call; the `StackMarker` adds
one to it for the time of the call. -/
def buildJSONString (stack depth : ℕ) (node : Value) : Option (List UInt8 × Bool) :=
  if w.maxDepth ≤ stack + 1 then some ([], false) else
  match node with
  | .none => some ([0x6e, 0x75, 0x6c, 0x6c], true)
  | .boolean true => some ([0x74, 0x72, 0x75, 0x65], true)
  | .boolean false => some ([0x66, 0x61, 0x6c, 0x73, 0x65], true)
  | .integer i => some (NumberConversions.numberToString i.toInt, true)
  | .double bits => some (w.doubleText bits, true)
  | .string s => do
      let (text, _) ← escapeJSONString s
      some (text, true)
  | .binary _ => some ([], w.omitBinaryValues)
  | .list items => do
      let (text, result) ← buildList (stack + 1) depth false items
      some (0x5b :: w.pretty [0x20] ++ text ++ w.pretty [0x20] ++ [0x5d], result)
  | .dictionary items => do
      let (text, result) ← buildDictionary (stack + 1) depth false items
      some (0x7b :: w.pretty w.lineEnding ++ text ++
        w.pretty (w.lineEnding ++ indentLine depth) ++ [0x7d], result)

def buildList (stack depth : ℕ) (firstValueHasBeenOutput : Bool) :
    List Value → Option (List UInt8 × Bool)
  | [] => some ([], true)
  | value :: items =>
    if w.omits value then buildList stack depth firstValueHasBeenOutput items else do
      let (text, result) ← buildJSONString stack depth value
      let (rest, results) ← buildList stack depth true items
      some (w.listSeparator firstValueHasBeenOutput ++ text ++ rest, result && results)

def buildDictionary (stack depth : ℕ) (firstValueHasBeenOutput : Bool) :
    List (List UInt8 × Value) → Option (List UInt8 × Bool)
  | [] => some ([], true)
  | (key, value) :: items =>
    if w.omits value then buildDictionary stack depth firstValueHasBeenOutput items else do
      let (keyText, _) ← escapeJSONString key
      let (text, result) ← buildJSONString stack (depth + 1) value
      let (rest, results) ← buildDictionary stack depth true items
      some (w.dictSeparator firstValueHasBeenOutput ++ w.pretty (indentLine (depth + 1)) ++
        keyText ++ 0x3a :: w.pretty [0x20] ++ text ++ rest, result && results)

end

def writeWithOptions (node : Value) : Option (List UInt8 × Bool) := do
  let (text, result) ← w.buildJSONString 0 0 node
  some (text ++ w.pretty w.lineEnding, result)

end JSONWriter

end ChromiumBase.Json
