import Gremlin.Parser.Results
import Gremlin.Text.Parser

/-!
This module contains the operations of the parser buffer: spaces, comments and single tokens.
-/

namespace Gremlin

open Text

instance : Inhabited ParsingError :=
  ⟨.bufferOverflow⟩

abbrev EntryParser (α : Type) : Type :=
  Parser ParsingError α

def isWhitespace (c : Char) : Bool :=
  c = ' ' || c = '\t' || c = '\n' || c = '\r'

/--
Where `skip_spaces` is: between tokens, in a line comment or in a block comment.
-/
inductive SkipMode where
  | code
  | line
  | block
  deriving DecidableEq, Repr

/--
`gremlinp_parser_buffer_skip_spaces`, on what is left of the text.
-/
def skip : SkipMode → List Char → Option ParsingError × List Char
  | .code, [] => (none, [])
  | .code, c :: rest =>
    if isWhitespace c then
      skip .code rest
    else if c = '/' then
      match rest with
      | [] => (some .unexpectedEof, c :: rest)
      | d :: rest' =>
        if d = '/' then skip .line rest'
        else if d = '*' then skip .block rest'
        else (none, c :: rest)
    else
      (none, c :: rest)
  | .line, [] => (none, [])
  | .line, c :: rest => if c = '\n' then skip .code rest else skip .line rest
  | .block, [] => (some .unexpectedEof, [])
  | .block, c :: rest =>
    match rest with
    | [] => (some .unexpectedEof, [])
    | d :: rest' => if c = '*' ∧ d = '/' then skip .code rest' else skip .block (d :: rest')

theorem skip_suffix (mode : SkipMode) (text : List Char) : (skip mode text).2 <:+ text := by
  fun_induction skip mode text with
  | case1 | case3 | case6 | case7 | case8 | case11 => exact List.suffix_rfl
  | case12 => exact List.nil_suffix
  | case2 _ _ _ ih | case9 _ ih | case10 _ _ _ ih | case14 _ _ _ _ ih =>
    exact ih.trans (List.suffix_cons ..)
  | case4 _ _ ih | case5 _ _ _ ih | case13 _ _ _ _ ih =>
    exact ih.trans ((List.suffix_cons ..).trans (List.suffix_cons ..))

def skipSpaces : EntryParser Unit where
  run buf :=
    let (e, rest) := skip .code buf.rest
    let buf' : Buffer := ⟨buf.offset + (buf.rest.length - rest.length), rest⟩
    match e with
    | none => (.ok (), buf')
    | some e => (.error e, buf')
  forward b := by
    obtain ⟨pre, hpre⟩ := skip_suffix .code b.rest
    have : Buffer.Advances b
        ⟨b.offset + (b.rest.length - (skip .code b.rest).2.length), (skip .code b.rest).2⟩ := by
      refine ⟨pre, hpre.symm, ?_⟩
      have := congrArg List.length hpre
      rw [List.length_append] at this
      dsimp only
      omega
    dsimp only
    split <;> exact this

/--
The calls of `skip_spaces` whose result is not looked at.
-/
def skipSpacesUnchecked : EntryParser Unit :=
  skipSpaces.ignoring

theorem skipSpacesUnchecked_of_ok {b b' : Buffer} {a : Unit} (h : skipSpaces.run b = (.ok a, b'))
    : skipSpacesUnchecked.run b = (.ok (), b') := by
  simp only [skipSpacesUnchecked, Parser.ignoring, h]

def checkAndShift (expected : Char) : EntryParser Bool :=
  Parser.shiftIf (· = expected)

def checkStrAndShift (word : String) : EntryParser Bool :=
  Parser.literal word.toList

/--
The word and the space behind it, if both come next.
-/
def checkStrWithSpaceAndShift (word : String) : EntryParser Bool :=
  ((checkStrAndShift word).require .unexpectedToken
    |>.andThen fun _ => (Parser.shiftIf isWhitespace).require .unexpectedToken
    |>.andThen fun _ => Parser.succeed true).restoring.orElse (Parser.succeed false)

def expect (expected : Char) (e : ParsingError) : EntryParser Unit :=
  (checkAndShift expected).require e

def keyword (word : String) (e : ParsingError) : EntryParser Unit :=
  (checkStrAndShift word).require e

end Gremlin
