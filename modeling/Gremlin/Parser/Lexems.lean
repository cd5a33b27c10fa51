import Gremlin.Parser.Buffer
import Mathlib.Algebra.Ring.Int.Defs
import Mathlib.Algebra.Ring.Nat

/-!
This module contains the parsers for identifiers, literals and types.
-/

namespace Gremlin

open Text Parser

/--
The one function of the C library that is not modelled: `strtod`, with whether it sets `ERANGE`. It
reads no further than a closing brace.
-/
class Libc where
  strtod : Span → Double × Bool
  strtod_brace : ∀ s t, strtod (s ++ '}' :: t) = strtod s

def isDigit (c : Char) : Bool :=
  '0' ≤ c && c ≤ '9'

def isOctalDigit (c : Char) : Bool :=
  '0' ≤ c && c ≤ '7'

def isHexDigit (c : Char) : Bool :=
  isDigit c || ('a' ≤ c && c ≤ 'f') || ('A' ≤ c && c ≤ 'F')

def isLetter (c : Char) : Bool :=
  ('a' ≤ c && c ≤ 'z') || ('A' ≤ c && c ≤ 'Z')

def isIdentifierStart (c : Char) : Bool :=
  c = '_' || isLetter c

def isIdentifierChar (c : Char) : Bool :=
  isDigit c || isLetter c || c = '_'

/-! Numbers. -/

def digitValue (c : Char) : Nat :=
  if isDigit c then c.toNat - 48
  else if 'a' ≤ c then c.toNat - 87
  else c.toNat - 55

def digitsValue (base : Nat) (digits : Span) : Nat :=
  digits.foldl (fun n c => n * base + digitValue c) 0

/--
What `strtoull` with base 0 reads from a text that starts with a digit, before any clamping.
-/
def magnitude : Span → Nat
  | '0' :: rest =>
    match rest with
    | x :: c :: rest' =>
      if (x = 'x' || x = 'X') && isHexDigit c then
        digitsValue 16 ((c :: rest').takeWhile isHexDigit)
      else
        digitsValue 8 (rest.takeWhile isOctalDigit)
    | _ => digitsValue 8 (rest.takeWhile isOctalDigit)
  | digits => digitsValue 10 (digits.takeWhile isDigit)

theorem magnitude_of_ne {c : Char} (hne : c ≠ '0') (rest : Span)
    : magnitude (c :: rest) = digitsValue 10 ((c :: rest).takeWhile isDigit) := by
  unfold magnitude
  split
  . next heq =>
    rw [List.cons.injEq] at heq
    exact absurd heq.1 hne
  . rfl

/--
What `strtoll` with base 0 reads, before any clamping.
-/
def strtoll : Span → Int
  | '-' :: rest => -(magnitude rest : Int)
  | rest => magnitude rest

def parseOctalOrHex : EntryParser Unit := do
  if ← shiftIf fun x => x = 'x' || x = 'X' then
    (looking isHexDigit).require .invalidIntegerLiteral
    shiftWhile isHexDigit
  else
    shiftWhile isOctalDigit

/--
The digits of an integer: decimal ones, or a zero with octal or hexadecimal ones.
-/
def parseDigits : EntryParser Unit := do
  if ← shiftIf fun c => '1' ≤ c && c ≤ '9' then
    shiftWhile isDigit
  else if ← checkAndShift '0' then
    parseOctalOrHex
  else
    fail .invalidIntegerLiteral

def intValue (text : Span) : Except ParsingError Int :=
  if -(2 ^ 63) ≤ strtoll text ∧ strtoll text < 2 ^ 63 then .ok (strtoll text) else .error .overflow

def uintValue (text : Span) : Except ParsingError Nat :=
  if magnitude text < 2 ^ 64 then .ok (magnitude text) else .error .overflow

def parseIntegerLiteral : EntryParser Int :=
  restoring (valued (do
    let _ ← checkAndShift '-'
    parseDigits) fun _ => intValue)

def parseUintLiteral : EntryParser Nat :=
  restoring (valued parseDigits fun _ => uintValue)

def parseExponent : EntryParser Unit := do
  if ← shiftIf fun c => c = 'e' || c = 'E' then
    let _ ← shiftIf fun sign => sign = '+' || sign = '-'
    shiftWhile isDigit
  else
    pure ()

def posInfinity : Double := 0x7FF0000000000000
def negInfinity : Double := 0xFFF0000000000000
def quietNan : Double := 0x7FF8000000000000

def parseFloatDigits : EntryParser Unit := do
  if ← checkAndShift '.' then
    shiftWhile isDigit
    parseExponent
  else
    (looking isDigit).require .invalidFloat
    shiftWhile isDigit
    if ← checkAndShift '.' then
      shiftWhile isDigit
      parseExponent
    else
      parseExponent

/--
What a float is spelled as: one of the words, or digits that the C library reads.
-/
inductive FloatForm where
  | infinity (negative : Bool)
  | nan
  | digits
  deriving DecidableEq, Repr

def floatForm : EntryParser FloatForm := do
  let negative ← checkAndShift '-'
  if ← checkStrAndShift "inf" then
    pure (.infinity negative)
  else if ← checkStrAndShift "nan" then
    pure .nan
  else
    parseFloatDigits
    pure .digits

def floatValue [Libc] (form : FloatForm) (text : Span) : Except ParsingError Double :=
  match form with
  | .infinity negative => .ok (if negative then negInfinity else posInfinity)
  | .nan => .ok quietNan
  | .digits => if (Libc.strtod text).2 then .error .overflow else .ok (Libc.strtod text).1

def parseFloatLiteral [Libc] : EntryParser Double :=
  restoring (valued floatForm floatValue)

def parseFieldNumber : EntryParser Int := do
  let n ← parseIntegerLiteral
  if n < 1 ∨ n > 2 ^ 31 - 1 then fail .invalidFieldValue else pure n

def parseEnumValueNumber : EntryParser Int := do
  let n ← parseIntegerLiteral
  if n < -(2 ^ 31) ∨ n > 2 ^ 31 - 1 then fail .overflow else pure n

/-! Identifiers. -/

def identifierChars : EntryParser Unit := do
  (shiftIf isIdentifierStart).require .identifierShouldStartWithLetter
  shiftWhile isIdentifierChar

def parseIdentifier : EntryParser Span :=
  spanned identifierChars

/--
One more segment of a dotted name. A dot that no identifier follows is left.
-/
def segmentStep (_ : Unit) : EntryParser (Step Unit Unit) :=
  (restoring do
    expect '.' .unexpectedToken
    identifierChars
    pure (.again ())).orElse (succeed (.done ()))

def parseFullIdentifier : EntryParser Span :=
  restoring (spanned do
    let _ ← checkAndShift '.'
    identifierChars
    loop segmentStep ())

/-! String literals. -/

def parseUnicodeEscape : (count : Nat) → EntryParser Unit
  | 0 => pure ()
  | count + 1 => do
    match ← next with
    | none => fail .invalidUnicodeEscape
    | some c => if isHexDigit c then parseUnicodeEscape count else fail .invalidUnicodeEscape

def parseExtendedUnicodeEscape : EntryParser Unit := do
  expect '0' .invalidUnicodeEscape
  expect '0' .invalidUnicodeEscape
  match ← next with
  | some '0' => parseUnicodeEscape 5
  | some '1' =>
    expect '0' .invalidUnicodeEscape
    parseUnicodeEscape 4
  | _ => fail .invalidUnicodeEscape

def parseHexEscape : EntryParser Unit := do
  (looking isHexDigit).require .invalidEscape
  shiftWhile isHexDigit

def isSimpleEscape (c : Char) : Bool :=
  ['a', 'b', 'f', 'n', 'r', 't', 'v', '\\', '\x27', '"', '?'].contains c

def parseEscapeSequence : EntryParser Unit := do
  match ← next with
  | none => fail .unexpectedEof
  | some c =>
    if c = 'x' || c = 'X' then parseHexEscape
    else if isOctalDigit c then shiftWhile isOctalDigit
    else if c = 'u' then parseUnicodeEscape 4
    else if c = 'U' then parseExtendedUnicodeEscape
    else if isSimpleEscape c then pure ()
    else fail .invalidEscape

def strLitStep (close : Char) (_ : Unit) : EntryParser (Step Unit Unit) := do
  match ← next with
  | none => fail .invalidStringLiteral
  | some c =>
    if c = close then
      pure (.done ())
    else if c = '\\' then
      parseEscapeSequence
      pure (.again ())
    else if c = '\n' then
      fail .invalidStringLiteral
    else
      pure (.again ())

def strLitSingle (close : Char) : EntryParser Unit :=
  loop (strLitStep close) ()

def quoted : EntryParser Unit := do
  if ← checkAndShift '"' then
    strLitSingle '"'
  else if ← checkAndShift '\x27' then
    strLitSingle '\x27'
  else
    fail .invalidStringLiteral

def parseStringLiteral : EntryParser Span :=
  restoring do
    let literal ← spanned quoted
    pure (literal.drop 1).dropLast

/-! Constants, types and ranges. -/

/--
What an attempt at a number yields, if it succeeds: a constant, and where it ends.
-/
def attempt {α : Type} (p : EntryParser α) (const : α → Const) (buf : Buffer)
    : Option (Const × Buffer) :=
  match p.run buf with
  | (.ok a, buf') => some (const a, buf')
  | (.error _, _) => none

def attemptEnd (start : Buffer) : Option (Const × Buffer) → Nat
  | some (_, buf') => buf'.offset
  | none => start.offset

/--
The longest of three attempts at a number, and of those the first.
-/
def longest (start : Buffer) (int uint float : Option (Const × Buffer)) : Option (Const × Buffer) :=
  let intEnd := attemptEnd start int
  let uintEnd := attemptEnd start uint
  let floatEnd := attemptEnd start float
  if uintEnd ≤ intEnd ∧ floatEnd ≤ intEnd ∧ int.isSome then int
  else if floatEnd ≤ uintEnd ∧ uint.isSome then uint
  else float

theorem longest_eq (start : Buffer) (int uint float : Option (Const × Buffer))
    : longest start int uint float = int ∨ longest start int uint float = uint
        ∨ longest start int uint float = float := by
  unfold longest
  grind

theorem attempt_advances {α : Type} {p : EntryParser α} {const : α → Const} {buf buf' : Buffer}
    {c : Const} (h : attempt p const buf = some (c, buf')) : Buffer.Advances buf buf' := by
  unfold attempt at h
  split at h
  . next a buf'' hp =>
    simp only [Option.some.injEq, Prod.mk.injEq] at h
    exact h.2 ▸ advances hp
  . simp at h

def parseNumber [Libc] : EntryParser Const where
  run buf :=
    match longest buf (attempt parseIntegerLiteral .int buf) (attempt parseUintLiteral .uint buf)
        (attempt parseFloatLiteral .float buf) with
    | some (c, buf') => (.ok c, buf')
    | none => (.error .invalidConst, buf)
  forward buf := by
    split
    . next c buf' h =>
      rcases longest_eq buf (attempt parseIntegerLiteral .int buf)
        (attempt parseUintLiteral .uint buf) (attempt parseFloatLiteral .float buf) with heq | heq | heq
      all_goals exact attempt_advances (heq.symm.trans h)
    . exact Buffer.Advances.refl buf

def parseConstValue [Libc] : EntryParser Const :=
  parseNumber.orElse
    ((Const.identifier <$> parseFullIdentifier).orElse
      ((Const.string <$> parseStringLiteral).orElse (fail .invalidConst)))

def parseMapType : EntryParser FieldType :=
  restoring do
    keyword "map" .invalidFieldValue
    expect '<' .invalidFieldValue
    skipSpacesUnchecked
    let key ← parseFullIdentifier.orElse (fail .invalidFieldValue)
    skipSpacesUnchecked
    expect ',' .invalidFieldValue
    skipSpacesUnchecked
    let value ← parseFullIdentifier.orElse (fail .invalidFieldValue)
    skipSpacesUnchecked
    expect '>' .invalidFieldValue
    pure (.map key value)

/--
`gremlinp_field_type_parse`.
-/
def parseFieldType : EntryParser FieldType :=
  parseMapType.orElse ((FieldType.named <$> parseFullIdentifier).orElse (fail .invalidFieldName))

/--
`gremlinp_lexems_parse_range`. Its bounds are only checked.
-/
def parseRange : EntryParser Unit :=
  restoring do
    let start ← parseIntegerLiteral
    if start < 0 ∨ start > 2 ^ 31 - 1 then
      fail .invalidExtensionsRange
    else
      let found ← orElse (restoring do
        skipSpacesUnchecked
        (checkStrWithSpaceAndShift "to").require .unexpectedToken
        pure true) (succeed false)
      if found then
        if ← checkStrAndShift "max" then
          pure ()
        else
          let stop ← parseIntegerLiteral
          if stop < 0 ∨ stop > 2 ^ 31 - 1 ∨ stop < start then
            fail .invalidExtensionsRange
          else
            pure ()
      else
        pure ()

end Gremlin
