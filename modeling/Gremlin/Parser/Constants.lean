import Gremlin.Parser.Strings

/-!
This module contains the tokens that constants are spelled with and what the parser of constants makes of
them.
-/

namespace Gremlin

open Text Parser Buffer

/-! Integer literals. -/

inductive IsIntegerLiteral : Span → Int → Prop where
  | positive {digits : Span} {n : Nat} (h : IsInteger digits n) : IsIntegerLiteral digits n
  | negative {digits : Span} {n : Nat} (h : IsInteger digits n) : IsIntegerLiteral ('-' :: digits) (-n)

theorem isInteger_head {digits : Span} {n : Nat} (h : IsInteger digits n)
    : ∃ c rest, digits = c :: rest ∧ isDigit c = true := by
  cases h with
  | decimal hc _ => exact ⟨_, _, rfl, isDigit_of_nonzero hc⟩
  | octal _ => exact ⟨_, _, rfl, rfl⟩
  | hex _ _ => exact ⟨_, _, rfl, rfl⟩

theorem splitSign_integer {digits : Span} {n : Nat} (h : IsInteger digits n) (rest : Span)
    : splitSign (digits ++ rest) = ([], digits ++ rest) := by
  obtain ⟨c, digits, rfl, hc⟩ := isInteger_head h
  rw [List.cons_append]
  unfold splitSign
  split
  . next heq =>
    rw [List.cons.injEq] at heq
    rw [heq.1] at hc
    simp [isDigit] at hc
  . rfl

/--
The float that an integer literal begins with is no longer than the literal.
-/
theorem scanFloat_integer {digits rest : Span} {n : Nat} (h : IsInteger digits n)
    (hrest : ∀ c ∈ rest.head?, canContinueNumber c = false)
    : ∃ taken rest', scanFloat (digits ++ rest) = some (taken, rest') ∧ taken.length ≤ digits.length := by
  have hfraction : scanFraction rest = ([], rest) := by
    cases rest with
    | nil => rfl
    | cons c rest =>
      have hc := hrest c rfl
      have hpoint : c ≠ '.' := by
        rintro rfl
        simp [canContinueNumber] at hc
      have hexponent : (c = 'e' || c = 'E') = false := by
        rw [Bool.or_eq_false_iff, decide_eq_false_iff_not, decide_eq_false_iff_not]
        constructor <;> rintro rfl <;> simp [canContinueNumber, isHexDigit] at hc
      simp [scanFraction, scanExponent, hpoint, hexponent]
  have hdecimal (digits : Span) (hne : digits ≠ []) (hdigits : ∀ d ∈ digits, isDigit d = true)
      : scanFloat (digits ++ rest) = some (digits, rest) := by
    obtain ⟨htake, hdrop⟩ := takeWhile_run hdigits fun c hc => (canContinueNumber_digit (hrest c hc)).2.1
    have hhead : ((digits ++ rest).head?.any fun c => isDigit c || c = '.') = true := by
      cases digits with
      | nil => exact absurd rfl hne
      | cons d digits => simp [hdigits d List.mem_cons_self]
    unfold scanFloat
    rw [if_pos hhead, htake, hdrop, hfraction]
    dsimp only
    rw [List.append_nil]
  cases h with
  | @decimal c digits hc hdigits =>
    refine ⟨_, _, hdecimal (c :: digits) (by simp) ?_, le_refl _⟩
    rw [List.forall_mem_cons]
    exact ⟨isDigit_of_nonzero hc, hdigits⟩
  | @octal digits hdigits =>
    refine ⟨_, _, hdecimal ('0' :: digits) (by simp) ?_, le_refl _⟩
    rw [List.forall_mem_cons]
    refine ⟨rfl, fun d hd => ?_⟩
    exact isDigit_of_octal (hdigits d hd)
  | @hex x c digits hx hdigits =>
    refine ⟨['0'], x :: c :: digits ++ rest, ?_, by simp⟩
    have hzero : isDigit '0' = true := rfl
    rcases hx with rfl | rfl <;> simp [scanFloat, isDigit, scanFraction, scanExponent]

theorem floatReading_integer [Libc] {digits rest : Span} {n : Nat} (h : IsInteger digits n)
    (hrest : ∀ c ∈ rest.head?, canContinueNumber c = false) {text : Span} {sign : Span}
    (hsign : splitSign text = (sign, digits ++ rest))
    : Reading.length (floatReading text) ≤ (sign ++ digits).length
        ∧ ∀ c taken rest', floatReading text = some (c, taken, rest') → ∃ d, c = .float d := by
  obtain ⟨taken, rest', hscan, hlength⟩ := scanFloat_integer h hrest
  have hword : ∀ word : String, word.toList.head?.any isDigit = false → word.toList ≠ []
      → word.toList.isPrefixOf (digits ++ rest) = false := by
    intro word hword hne
    obtain ⟨c, digits, rfl, hc⟩ := isInteger_head h
    cases hcons : word.toList with
    | nil => exact absurd hcons hne
    | cons d word' =>
      rw [hcons] at hword
      have : d ≠ c := by
        rintro rfl
        simp [hc] at hword
      rw [List.cons_append, List.isPrefixOf_cons_cons, beq_false_of_ne this, Bool.false_and]
  unfold floatReading
  rw [hsign]
  dsimp only
  rw [hword "inf" rfl (by decide), hword "nan" rfl (by decide), hscan]
  simp only [Bool.false_eq_true, if_false]
  by_cases hrange : (Libc.strtod text).2 = true
  . simp [hrange, Reading.length]
  . simp [hrange, Reading.length, hlength]

/--
A constant that is the integer `v`, held in 64 bits.
-/
inductive Const.IsInt : Const → Int → Prop where
  | int {v : Int} (hlower : -(2 ^ 63) ≤ v) (hupper : v < 2 ^ 63) : Const.IsInt (.int v) v
  | uint {n : Nat} (h : n < 2 ^ 64) : Const.IsInt (.uint n) n

theorem strtoll_positive {text : Span} (h : splitSign text = ([], text)) : strtoll text = magnitude text := by
  cases text with
  | nil => rfl
  | cons c rest =>
    unfold strtoll
    split
    . next heq =>
      rw [heq] at h
      simp [splitSign] at h
    . rfl

theorem intReading_positive {digits rest : Span} {n : Nat} (h : IsInteger digits n)
    (hrest : ∀ c ∈ rest.head?, canContinueNumber c = false)
    : intReading (digits ++ rest) = if n < 2 ^ 63 then some (.int n, digits, rest) else none := by
  have ⟨hscan, hvalue⟩ := scanDigits_append h hrest
  have hsign := splitSign_integer h rest
  simp only [intReading, hsign, hscan, intValue, strtoll_positive hsign, hvalue]
  by_cases hn : n < 2 ^ 63
  . rw [if_pos hn, if_pos (by omega)]
    rfl
  . rw [if_neg hn, if_neg (by omega)]

theorem uintReading_positive {digits rest : Span} {n : Nat} (h : IsInteger digits n)
    (hrest : ∀ c ∈ rest.head?, canContinueNumber c = false)
    : uintReading (digits ++ rest) = if n < 2 ^ 64 then some (.uint n, digits, rest) else none := by
  have ⟨hscan, hvalue⟩ := scanDigits_append h hrest
  simp only [uintReading, hscan, uintValue, hvalue]
  by_cases hn : n < 2 ^ 64
  . rw [if_pos hn, if_pos hn]
  . rw [if_neg hn, if_neg hn]

theorem intReading_negative {digits rest : Span} {n : Nat} (h : IsInteger digits n)
    (hrest : ∀ c ∈ rest.head?, canContinueNumber c = false)
    : intReading ('-' :: digits ++ rest) = if n ≤ 2 ^ 63 then some (.int (-n), '-' :: digits, rest) else none := by
  have ⟨hscan, hvalue⟩ := scanDigits_append h hrest
  simp only [List.cons_append, intReading, splitSign, hscan, intValue, strtoll, hvalue]
  by_cases hn : n ≤ 2 ^ 63
  . rw [if_pos hn, if_pos (by omega)]
    rfl
  . rw [if_neg hn, if_neg (by omega)]

/--
A literal that 64 bits hold is read as its value, any other as a float if it is read at all.
-/
theorem numberReading_integer [Libc] {literal rest : Span} {v : Int} (h : IsIntegerLiteral literal v)
    (hrest : ∀ c ∈ rest.head?, canContinueNumber c = false)
    : (-(2 ^ 63) ≤ v → v < 2 ^ 64
        → ∃ c, numberReading (literal ++ rest) = some (c, literal, rest) ∧ Const.IsInt c v)
      ∧ (v < -(2 ^ 63) ∨ 2 ^ 64 ≤ v
        → ∀ c taken rest', numberReading (literal ++ rest) = some (c, taken, rest') → ∃ d, c = .float d) := by
  cases h with
  | @positive _ n h =>
    have ⟨hlength, hfloat⟩ := floatReading_integer h hrest (splitSign_integer h rest)
    rw [List.nil_append] at hlength
    have hint := intReading_positive h hrest
    have huint := uintReading_positive h hrest
    constructor
    . intro _ hupper
      rw [if_pos (by omega)] at huint
      by_cases hn : n < 2 ^ 63
      . rw [if_pos hn] at hint
        exact ⟨_, numberReading_int hint (by rw [huint]; exact le_refl _) hlength, .int (by omega) (by omega)⟩
      . rw [if_neg hn] at hint
        exact ⟨_, numberReading_uint hint huint hlength, .uint (by omega)⟩
    . intro hv
      rw [if_neg (by omega)] at hint huint
      rw [numberReading_float hint huint]
      exact hfloat
  | @negative digits n h =>
    have hsign : splitSign ('-' :: digits ++ rest) = (['-'], digits ++ rest) := rfl
    have ⟨hlength, hfloat⟩ := floatReading_integer h hrest hsign
    have hint := intReading_negative h hrest
    have huint : uintReading ('-' :: digits ++ rest) = none := rfl
    constructor
    . intro hlower _
      rw [if_pos (by omega)] at hint
      exact ⟨_, numberReading_int hint (by rw [huint]; exact Nat.zero_le _) hlength, .int (by omega) (by omega)⟩
    . intro hv
      rw [if_neg (by omega)] at hint
      rw [numberReading_float hint huint]
      exact hfloat

/-! Full identifiers. -/

def NameEnds (rest : Span) : Prop :=
  ∀ c ∈ rest.head?, isIdentifierChar c = false

/--
No full identifier goes on here: not with a character and not with a segment.
-/
def WordEnds (rest : Span) : Prop :=
  NameEnds rest ∧ ∀ c rest', rest = '.' :: c :: rest' → isIdentifierStart c = false

def IsFullIdentifier (span : Span) : Prop :=
  ∃ (absolute : Bool) (segments : List Span), segments ≠ [] ∧ (∀ segment ∈ segments, IsIdentifier segment)
    ∧ span = (if absolute then ['.'] else []) ++ List.intercalate ['.'] segments

theorem identifierChars_iff {b b' : Buffer} {a : Unit}
    : identifierChars.run b = (.ok a, b')
        ↔ ∃ segment, IsIdentifier segment ∧ NameEnds b'.rest ∧ Covers b segment b' := by
  simp only [identifierChars, bind_eq, andThen_ok, require_ok]
  constructor
  . rintro ⟨_, b₁, hstart, h⟩
    obtain ⟨c, hc, hrest, hoffset⟩ := shiftIf_true.mp hstart
    obtain ⟨chars, hchars, hends, hcovers⟩ := shiftWhile_ok.mp h
    have hfirst : Covers b [c] b₁ := ⟨hrest, hoffset⟩
    refine ⟨c :: chars, ⟨⟨c, chars, rfl, hc⟩, ?_⟩, hends, hfirst.trans hcovers⟩
    rw [List.forall_mem_cons]
    exact ⟨isIdentifierChar_of_start hc, hchars⟩
  . rintro ⟨segment, ⟨⟨c, chars, rfl, hc⟩, hchars⟩, hends, hcovers⟩
    rw [List.forall_mem_cons] at hchars
    obtain ⟨b₁, ⟨hrest, hoffset⟩, hcovers⟩ := covers_cons.mp hcovers
    exact ⟨(), b₁, shiftIf_true.mpr ⟨c, hc, hrest, hoffset⟩, shiftWhile_ok.mpr ⟨chars, hchars.2, hends, hcovers⟩⟩

theorem segment_iff {b b' : Buffer} {u : Unit}
    : ((expect '.' .unexpectedToken).andThen fun _ => identifierChars.andThen fun _ =>
        (succeed (.again ()) : EntryParser (Step Unit Unit))).run b = (.ok (.again u), b')
      ↔ ∃ segment, IsIdentifier segment ∧ NameEnds b'.rest ∧ Covers b ('.' :: segment) b' := by
  simp only [andThen_ok, expect_iff, identifierChars_iff, succeed_run, Prod.mk.injEq]
  constructor
  . rintro ⟨_, b₁, hdot, _, b₂, ⟨segment, hsegment, hends, hcovers⟩, -, rfl⟩
    exact ⟨segment, hsegment, hends, hdot.trans hcovers⟩
  . rintro ⟨segment, hsegment, hends, hcovers⟩
    obtain ⟨b₁, hdot, hcovers⟩ := covers_cons.mp hcovers
    exact ⟨(), b₁, hdot, (), b', ⟨segment, hsegment, hends, hcovers⟩, trivial, rfl⟩

theorem segmentStep_run {b b' : Buffer} (u : Unit) {segment : Span} (hsegment : IsIdentifier segment)
    (hends : NameEnds b'.rest) (h : Covers b ('.' :: segment) b')
    : (segmentStep u).run b = (.ok (.again ()), b') := by
  apply orElse_of_ok
  rw [restoring_ok]
  exact segment_iff.mpr ⟨segment, hsegment, hends, h⟩

theorem segmentStep_end {b : Buffer} (u : Unit) (h : WordEnds b.rest)
    : (segmentStep u).run b = (.ok (.done ()), b) := by
  unfold segmentStep
  rcases hrun : ((restoring do
    expect '.' .unexpectedToken
    identifierChars
    pure (.again ()) : EntryParser (Step Unit Unit))).run b with ⟨e | s, b'⟩
  . rw [orElse_of_error hrun, (restoring_error hrun).1]
    rfl
  . cases s with
    | done a =>
      obtain ⟨_, b₁, -, hrun⟩ := andThen_ok.mp (restoring_ok.mp hrun)
      obtain ⟨_, b₂, -, hrun⟩ := andThen_ok.mp hrun
      simp at hrun
    | again a =>
      obtain ⟨segment, ⟨⟨c, chars, rfl, hc⟩, -⟩, -, hcovers⟩ := segment_iff.mp (restoring_ok.mp hrun)
      have := h.2 c (chars ++ b'.rest) hcovers.1
      simp [hc] at this

theorem segmentStep_word {b b' : Buffer} {u u' : Unit} (h : (segmentStep u).run b = (.ok (.done u'), b'))
    (hends : NameEnds b.rest) : WordEnds b'.rest := by
  rw [segmentStep_done h]
  refine ⟨hends, ?_⟩
  intro c rest hrest
  by_contra hstart
  rw [Bool.not_eq_false] at hstart
  -- A segment begins here, so the step would have taken it.
  have hsegment : IsIdentifier (c :: rest.takeWhile isIdentifierChar) := by
    refine ⟨⟨c, _, rfl, hstart⟩, ?_⟩
    rw [List.forall_mem_cons]
    exact ⟨isIdentifierChar_of_start hstart, fun d hd => List.mem_takeWhile_imp hd⟩
  let b₁ : Buffer := ⟨b.offset + ((rest.takeWhile isIdentifierChar).length + 2), rest.dropWhile isIdentifierChar⟩
  have hcovers : Covers b ('.' :: c :: rest.takeWhile isIdentifierChar) b₁ := by
    refine ⟨?_, rfl⟩
    rw [hrest, List.cons_append, List.cons_append, List.takeWhile_append_dropWhile]
  have hends₁ : NameEnds b₁.rest := head_dropWhile rest
  have hrun := segmentStep_run u hsegment hends₁ hcovers
  rw [hrun] at h
  simp at h

theorem segments_iff {b b' : Buffer} (hends : NameEnds b.rest) {a : Unit}
    : (loop segmentStep ()).run b = (.ok a, b')
        ↔ ∃ segments : List Span, (∀ segment ∈ segments, IsIdentifier segment) ∧ WordEnds b'.rest
            ∧ Covers b (segments.flatMap ('.' :: ·)) b' := by
  constructor
  . intro h
    refine loop_ok (Q := fun b _ b' => NameEnds b.rest → ∃ segments : List Span,
      (∀ segment ∈ segments, IsIdentifier segment) ∧ WordEnds b'.rest
        ∧ Covers b (segments.flatMap ('.' :: ·)) b') ?_ ?_ h hends
    . intro _ b _ b' hdone hends
      refine ⟨[], by simp, segmentStep_word hdone hends, ?_⟩
      rw [segmentStep_done hdone]
      exact .refl b
    . intro _ b _ b' _ b'' hagain ih _
      rcases orElse_ok hagain with hagain | ⟨_, _, -, hagain⟩
      . obtain ⟨segment, hsegment, hends', hcovers⟩ := segment_iff.mp (restoring_ok.mp hagain)
        obtain ⟨segments, hsegments, hword, hcovers'⟩ := ih hends'
        refine ⟨segment :: segments, ?_, hword, hcovers.trans hcovers'⟩
        rw [List.forall_mem_cons]
        exact ⟨hsegment, hsegments⟩
      . simp at hagain
  . rintro ⟨segments, hsegments, hword, hcovers⟩
    induction segments generalizing b with
    | nil =>
      obtain ⟨offset, rest⟩ := b
      obtain ⟨offset', rest'⟩ := b'
      obtain ⟨rfl, rfl⟩ : rest = rest' ∧ offset' = offset := by simpa [Covers] using hcovers
      rw [loop_run progress_segmentStep, andThen_of_ok (segmentStep_end () hword)]
      rfl
    | cons segment segments ih =>
      rw [List.forall_mem_cons] at hsegments
      rw [List.flatMap_cons] at hcovers
      obtain ⟨b₁, hsegment, hcovers⟩ := covers_append.mp hcovers
      have hends₁ : NameEnds b₁.rest := by
        rw [hcovers.1]
        cases segments with
        | nil => exact hword.1
        | cons segment' segments =>
          intro c hc
          obtain rfl : '.' = c := by simpa using hc
          rfl
      rw [loop_run progress_segmentStep, andThen_of_ok (segmentStep_run () hsegments.1 hends₁ hsegment)]
      exact ih hends₁ hsegments.2 hcovers

theorem parseFullIdentifier_iff {b b' : Buffer} {span : Span}
    : parseFullIdentifier.run b = (.ok span, b')
        ↔ IsFullIdentifier span ∧ WordEnds b'.rest ∧ Covers b span b' := by
  constructor
  . intro h
    have ⟨hcovers, hidentifier⟩ := parseFullIdentifier_ok h
    refine ⟨hidentifier, ?_, hcovers⟩
    obtain ⟨hparts, -⟩ := spanned_ok (restoring_ok.mp h)
    obtain ⟨_, b₁, -, hparts⟩ := andThen_ok.mp hparts
    obtain ⟨_, b₂, hchars, hloop⟩ := andThen_ok.mp hparts
    obtain ⟨_, -, hends, -⟩ := identifierChars_iff.mp hchars
    obtain ⟨_, -, hword, -⟩ := (segments_iff hends).mp hloop
    exact hword
  . rintro ⟨⟨absolute, segments, hne, hsegments, rfl⟩, hword, hcovers⟩
    cases segments with
    | nil => exact absurd rfl hne
    | cons segment segments =>
      rw [intercalate_cons] at hcovers ⊢
      rw [List.forall_mem_cons] at hsegments
      obtain ⟨b₁, hdot, hcovers₁⟩ := covers_append.mp hcovers
      obtain ⟨b₂, hsegment, hcovers₂⟩ := covers_append.mp hcovers₁
      -- A segment is followed by the next point, or by what follows the whole name.
      have hends : NameEnds b₂.rest := by
        rw [hcovers₂.1]
        cases segments with
        | nil => exact hword.1
        | cons segment' segments =>
          intro c hc
          obtain rfl : '.' = c := by simpa using hc
          rfl
      have hchars : identifierChars.run b₁ = (.ok (), b₂) :=
        identifierChars_iff.mpr ⟨segment, hsegments.1, hends, hsegment⟩
      have hloop : (loop segmentStep ()).run b₂ = (.ok (), b') :=
        (segments_iff hends).mpr ⟨segments, hsegments.2, hword, hcovers₂⟩
      have habsolute : (checkAndShift '.').run b = (.ok absolute, b₁) := by
        cases absolute with
        | true => exact shiftIf_true.mpr ⟨'.', by simp, hdot.1, hdot.2⟩
        | false =>
          obtain ⟨offset, rest⟩ := b
          obtain ⟨offset₁, rest₁⟩ := b₁
          obtain ⟨rfl, rfl⟩ : rest = rest₁ ∧ offset₁ = offset := by simpa [Covers] using hdot
          obtain ⟨⟨c, chars, rfl, hc⟩, -⟩ := hsegments.1
          obtain rfl : rest = c :: (chars ++ b₂.rest) := hsegment.1
          rw [checkAndShift_cons, if_neg]
          rintro rfl
          simp [isIdentifierStart, isLetter] at hc
      have hrun : (do
          let _ ← checkAndShift '.'
          identifierChars
          loop segmentStep () : EntryParser Unit).run b = (.ok (), b') := by
        rw [bind_eq, andThen_of_ok habsolute, bind_eq, andThen_of_ok hchars, hloop]
      rw [parseFullIdentifier, restoring_ok]
      simp only [spanned, hrun, hcovers.take_eq]

/-! Tokens. -/

inductive ConstKind where
  | integer
  | float
  | identifier
  | string
  deriving DecidableEq, Repr

def Const.kind : Const → ConstKind
  | .int _ | .uint _ => .integer
  | .float _ => .float
  | .identifier _ => .identifier
  | .string _ => .string

def NumberEnds (rest : Span) : Prop :=
  ∀ c ∈ rest.head?, isIdentifierChar c = false ∧ c ≠ '.'

/--
A token, what comes behind it and its kind. Whether a float is in range is told by the C library, which
reads it where it stands.
-/
inductive IsConstToken [Libc] : Span → Span → ConstKind → Prop where
  | integer {literal rest : Span} {v : Int} (h : IsIntegerLiteral literal v) (hlower : -(2 ^ 63) ≤ v)
    (hupper : v < 2 ^ 64) (hends : NumberEnds rest) : IsConstToken literal rest .integer
  | float {sign body rest : Span} (hsign : sign = [] ∨ sign = ['-']) (h : IsFloat body)
    (hrange : (Libc.strtod (sign ++ body ++ rest)).2 = false) (hends : NumberEnds rest)
    : IsConstToken (sign ++ body) rest .float
  | special {sign word rest : Span} (hsign : sign = [] ∨ sign = ['-'])
    (hword : word = "inf".toList ∨ word = "nan".toList) (hends : WordEnds rest)
    : IsConstToken (sign ++ word) rest .float
  | identifier {span rest : Span} (h : IsFullIdentifier span) (hinf : span ≠ "inf".toList)
    (hnan : span ≠ "nan".toList) (hends : WordEnds rest) : IsConstToken span rest .identifier
  | string {literal span rest : Span} {close : Char} {items : List Item}
    (h : IsStringLiteral literal span close items) : IsConstToken literal rest .string

/--
A token is taken where the text begins with one, and nothing else is.
-/
structure TakesToken [Libc] (b : Buffer) : Prop where
  sound : ∀ c b', parseConstValue.run b = (.ok c, b')
    → ∃ token, Covers b token b' ∧ IsConstToken token b'.rest c.kind
  complete : ∀ token b' kind, Covers b token b' → IsConstToken token b'.rest kind
    → ∃ c, c.kind = kind ∧ parseConstValue.run b = (.ok c, b')

/--
Behind its sign the text goes on with `inf` or `nan`, with a digit or a point where the C library does not
report a range error, or with an integer that 64 bits hold.
-/
def BeginsNumber [Libc] (text : Span) : Prop :=
  "inf".toList <+: (splitSign text).2 ∨ "nan".toList <+: (splitSign text).2
    ∨ (∃ c ∈ (splitSign text).2.head?, isDigit c = true ∨ c = '.') ∧ (Libc.strtod text).2 = false
    ∨ (scanDigits (splitSign text).2).isSome = true ∧ -(2 ^ 63) ≤ strtoll text ∧ strtoll text < 2 ^ 64

/--
The number that the text begins with is a whole token.
-/
def WholeNumber [Libc] (text : Span) : Prop :=
  ∃ token rest kind, text = token ++ rest ∧ IsConstToken token rest kind ∧ (kind = .integer ∨ kind = .float)

theorem isIdentifierChar_of_hex {c : Char} (h : isHexDigit c = true) : isIdentifierChar c = true := by
  simp only [isHexDigit, isIdentifierChar, isLetter, Bool.or_eq_true, Bool.and_eq_true, decide_eq_true_eq] at h ⊢
  rcases h with (hdigit | hlower) | hupper
  . exact .inl (.inl hdigit)
  . exact .inl (.inr (.inl ⟨hlower.1, Char.le_trans hlower.2 (by decide)⟩))
  . exact .inl (.inr (.inr ⟨hupper.1, Char.le_trans hupper.2 (by decide)⟩))

theorem numberEnds_digit {rest : Span} (h : NumberEnds rest) : ∀ c ∈ rest.head?, canContinueNumber c = false := by
  intro c hc
  have ⟨hchar, hpoint⟩ := h c hc
  have hhex : isHexDigit c = false := by
    by_contra hhex
    rw [Bool.not_eq_false] at hhex
    simp [isIdentifierChar_of_hex hhex] at hchar
  have hx : c ≠ 'x' ∧ c ≠ 'X' := by
    constructor <;> rintro rfl <;> simp [isIdentifierChar, isLetter] at hchar
  simp [canContinueNumber, hhex, hx, hpoint]

theorem splitSign_sign {sign text : Span} (hsign : sign = [] ∨ sign = ['-']) (htext : ∀ c ∈ text.head?, c ≠ '-')
    : splitSign (sign ++ text) = (sign, text) := by
  rcases hsign with rfl | rfl
  . cases text with
    | nil => rfl
    | cons c rest =>
      have := htext c rfl
      rw [List.nil_append]
      unfold splitSign
      split
      . next heq =>
        rw [List.cons.injEq] at heq
        exact absurd heq.1 this
      . rfl
  . rfl

/-! Floats. -/

def IsFloatChar (c : Char) : Prop :=
  isDigit c = true ∨ c ∈ ['.', 'e', 'E', '+', '-']

theorem isExponent_chars {exponent : Span} (h : IsExponent exponent) : ∀ c ∈ exponent, IsFloatChar c := by
  cases h with
  | @mk e sign digits he hsign _ hdigits =>
    intro c hc
    rw [List.mem_cons, List.mem_append] at hc
    rcases hc with rfl | hc | hc
    . rcases he with rfl | rfl <;> exact .inr (by decide)
    . rcases hsign with rfl | rfl | rfl
      . simp at hc
      . obtain rfl : c = '+' := by simpa using hc
        exact .inr (by decide)
      . obtain rfl : c = '-' := by simpa using hc
        exact .inr (by decide)
    . exact .inl (hdigits c hc)

theorem isFloat_chars {body : Span} (h : IsFloat body)
    : (∀ c ∈ body, IsFloatChar c) ∧ (∃ c ∈ body, isDigit c = false) ∧ 2 ≤ body.length := by
  cases h with
  | @point whole fraction exponent hne hwhole hfraction hexponent =>
    refine ⟨?_, ⟨'.', by simp, rfl⟩, ?_⟩
    . intro c hc
      rw [List.mem_append, List.mem_cons, List.mem_append] at hc
      rcases hc with hc | rfl | hc | hc
      . exact .inl (hwhole c hc)
      . exact .inr (by decide)
      . exact .inl (hfraction c hc)
      . rcases hexponent with rfl | hexponent
        . simp at hc
        . exact isExponent_chars hexponent c hc
    . have : 0 < whole.length + fraction.length := by
        rcases hne with hne | hne
        . exact Nat.add_pos_left (List.length_pos_iff.mpr hne) _
        . exact Nat.add_pos_right _ (List.length_pos_iff.mpr hne)
      simp only [List.length_append, List.length_cons]
      omega
  | @exponent whole exponent hne hwhole hexponent =>
    obtain ⟨e, digits, rfl, he⟩ := isExponent_head hexponent
    refine ⟨?_, ⟨e, by simp, ?_⟩, ?_⟩
    . intro c hc
      rcases List.mem_append.mp hc with hc | hc
      . exact .inl (hwhole c hc)
      . exact isExponent_chars hexponent c hc
    . rcases he with rfl | rfl <;> rfl
    . have := List.length_pos_iff.mpr hne
      simp only [List.length_append, List.length_cons]
      omega

theorem isFloat_head {body : Span} (h : IsFloat body)
    : ∃ c rest, body = c :: rest ∧ (isDigit c = true ∨ c = '.' ∧ ∃ d rest', rest = d :: rest' ∧ isDigit d = true) := by
  cases h with
  | @point whole fraction exponent hne hwhole hfraction _ =>
    cases whole with
    | cons c whole => exact ⟨c, _, rfl, .inl (hwhole c List.mem_cons_self)⟩
    | nil =>
      cases fraction with
      | nil => simp at hne
      | cons d fraction => exact ⟨'.', _, rfl, .inr ⟨rfl, d, _, rfl, hfraction d List.mem_cons_self⟩⟩
  | @exponent whole exponent hne hwhole _ =>
    cases whole with
    | nil => exact absurd rfl hne
    | cons c whole => exact ⟨c, _, rfl, .inl (hwhole c List.mem_cons_self)⟩

theorem scanDigits_float {body rest taken rest' : Span} (h : IsFloat body)
    (hscan : scanDigits (body ++ rest) = some (taken, rest')) : taken.length < body.length := by
  obtain ⟨hchars, ⟨c, hc, hdigit⟩, hlength⟩ := isFloat_chars h
  have ⟨htext, hinteger⟩ := scanDigits_some hscan
  by_contra hlong
  have hprefix : body <+: taken := by
    apply List.prefix_of_prefix_length_le (List.prefix_append body rest)
    . rw [htext]
      exact List.prefix_append _ _
    . omega
  have hmem := hprefix.subset hc
  generalize magnitude (body ++ rest) = n at hinteger
  cases hinteger with
  | @decimal d digits hd hdigits =>
    rcases List.mem_cons.mp hmem with rfl | hmem
    . simp [isDigit_of_nonzero hd] at hdigit
    . simp [hdigits c hmem] at hdigit
  | @octal digits hdigits =>
    rcases List.mem_cons.mp hmem with rfl | hmem
    . simp [isDigit] at hdigit
    . simp [isDigit_of_octal (hdigits c hmem)] at hdigit
  | @hex x d digits hx hdigits =>
    -- The second character would be the `x`.
    have hx' : x ∈ body := by
      obtain ⟨suffix, hsuffix⟩ := hprefix
      rcases body with _ | ⟨c₁, _ | ⟨c₂, body⟩⟩
      . simp at hlength
      . simp at hlength
      . obtain ⟨-, rfl, -⟩ : c₁ = '0' ∧ c₂ = x ∧ body ++ suffix = d :: digits := by simpa using hsuffix
        simp
    have := hchars x hx'
    rcases hx with rfl | rfl <;> simp [IsFloatChar, isDigit] at this

theorem numberReading_longer [Libc] {text : Span} {reading : Reading} (h : floatReading text = some reading)
    (hint : Reading.length (intReading text) < reading.2.1.length)
    (huint : Reading.length (uintReading text) < reading.2.1.length) : numberReading text = some reading := by
  have hlength : Reading.length (floatReading text) = reading.2.1.length := by
    rw [h]
    rfl
  simp only [numberReading]
  rw [if_neg (by omega), if_neg (by omega), h]

theorem scanDigits_sign {text : Span} (h : (scanDigits text).isSome = true) : splitSign text = ([], text) := by
  unfold splitSign
  split
  . next rest =>
    have : scanDigits ('-' :: rest) = none := rfl
    rw [this] at h
    simp at h
  . rfl

theorem intReading_length {text : Span} {n : Nat} (hn : 0 < n)
    (h : ∀ taken rest, scanDigits (splitSign text).2 = some (taken, rest) → taken.length < n)
    : Reading.length (intReading text) < (splitSign text).1.length + n := by
  unfold intReading
  split
  . next taken rest _ hscan _ =>
    have := h taken rest hscan
    simp only [Reading.length, List.length_append]
    omega
  . exact Nat.add_pos_right _ hn

theorem uintReading_length {text : Span} {n : Nat} (hn : 0 < n)
    (h : ∀ taken rest, scanDigits (splitSign text).2 = some (taken, rest) → taken.length < n)
    : Reading.length (uintReading text) < (splitSign text).1.length + n := by
  unfold uintReading
  split
  . next taken rest _ hscan _ =>
    have hsign := scanDigits_sign (Option.isSome_of_eq_some hscan)
    rw [hsign] at h ⊢
    exact (h taken rest hscan).trans_le (Nat.le_add_left _ _)
  . exact Nat.add_pos_right _ hn

/-! What a text that begins with a number is read as. -/

theorem word_not_prefix {word text : Span} {c d : Char} (hword : word.head? = some c) (htext : text.head? = some d)
    (hne : c ≠ d) : word.isPrefixOf text = false := by
  cases word with
  | nil => simp at hword
  | cons c' word =>
    cases text with
    | nil => simp at htext
    | cons d' text =>
      obtain rfl : c' = c := by simpa using hword
      obtain rfl : d' = d := by simpa using htext
      rw [List.isPrefixOf_cons_cons, beq_false_of_ne hne, Bool.false_and]

theorem numberReading_float_token [Libc] {sign body rest : Span} (hsign : sign = [] ∨ sign = ['-'])
    (h : IsFloat body) (hrange : (Libc.strtod (sign ++ body ++ rest)).2 = false) (hends : NumberEnds rest)
    : ∃ v, numberReading (sign ++ body ++ rest) = some (.float v, sign ++ body, rest) := by
  obtain ⟨c, body', hbody, hc⟩ := isFloat_head h
  have hhead : (body ++ rest).head? = some c := by
    rw [hbody]
    rfl
  have hne : c ≠ '-' ∧ c ≠ 'i' ∧ c ≠ 'n' := by
    rcases hc with hc | ⟨rfl, -⟩
    . refine ⟨?_, ?_, ?_⟩ <;> rintro rfl <;> simp [isDigit] at hc
    . decide
  have hsplit : splitSign (sign ++ body ++ rest) = (sign, body ++ rest) := by
    rw [List.append_assoc]
    apply splitSign_sign hsign
    intro d hd
    obtain rfl : c = d := by simpa [hhead] using hd
    exact hne.1
  have hscan := scanFloat_append h fun d hd => (hends d hd).1
  have hinf : "inf".toList.isPrefixOf (body ++ rest) = false := word_not_prefix rfl hhead hne.2.1.symm
  have hnan : "nan".toList.isPrefixOf (body ++ rest) = false := word_not_prefix rfl hhead hne.2.2.symm
  have hreading : floatReading (sign ++ body ++ rest)
      = some (.float (Libc.strtod (sign ++ body ++ rest)).1, sign ++ body, rest) := by
    unfold floatReading
    rw [hsplit]
    dsimp only
    rw [hinf, hnan, hscan, hrange]
    rfl
  -- No integer is as long as the float, so the float wins.
  have hn : 0 < body.length := by
    rw [hbody]
    exact Nat.succ_pos _
  have hdigits : ∀ taken rest', scanDigits (splitSign (sign ++ body ++ rest)).2 = some (taken, rest')
      → taken.length < body.length := by
    intro taken rest' hscan
    rw [hsplit] at hscan
    exact scanDigits_float h hscan
  have hint := intReading_length hn hdigits
  have huint := uintReading_length hn hdigits
  rw [hsplit, ← List.length_append] at hint huint
  exact ⟨_, numberReading_longer hreading hint huint⟩

theorem scanDigits_word {word rest : Span} (hword : word = "inf".toList ∨ word = "nan".toList)
    : scanDigits (word ++ rest) = none := by
  rcases hword with rfl | rfl <;> rfl

theorem numberReading_special [Libc] {sign word rest : Span} (hsign : sign = [] ∨ sign = ['-'])
    (hword : word = "inf".toList ∨ word = "nan".toList)
    : ∃ v, numberReading (sign ++ word ++ rest) = some (.float v, sign ++ word, rest) := by
  have hsplit : splitSign (sign ++ word ++ rest) = (sign, word ++ rest) := by
    rw [List.append_assoc]
    apply splitSign_sign hsign
    intro d hd
    rcases hword with rfl | rfl
    . obtain rfl : 'i' = d := by simpa using hd
      decide
    . obtain rfl : 'n' = d := by simpa using hd
      decide
  have hscan := @scanDigits_word word rest hword
  have hint : intReading (sign ++ word ++ rest) = none := by
    unfold intReading
    rw [hsplit, hscan]
  have huint : uintReading (sign ++ word ++ rest) = none := by
    rcases hsign with rfl | rfl
    . simp [uintReading, hscan]
    . rfl
  rw [numberReading_float hint huint]
  unfold floatReading
  rw [hsplit]
  rcases hword with rfl | rfl
  . exact ⟨_, rfl⟩
  . exact ⟨_, rfl⟩

theorem numberReading_token [Libc] {token rest : Span} {kind : ConstKind} (h : IsConstToken token rest kind)
    (hkind : kind = .integer ∨ kind = .float)
    : ∃ c, c.kind = kind ∧ numberReading (token ++ rest) = some (c, token, rest) := by
  cases h with
  | integer h hlower hupper hends =>
    obtain ⟨c, hreading, hc⟩ := (numberReading_integer h (numberEnds_digit hends)).1 hlower hupper
    refine ⟨c, ?_, hreading⟩
    cases hc <;> rfl
  | float hsign h hrange hends =>
    obtain ⟨v, hreading⟩ := numberReading_float_token hsign h hrange hends
    exact ⟨_, rfl, hreading⟩
  | special hsign hword hends =>
    obtain ⟨v, hreading⟩ := numberReading_special hsign hword
    exact ⟨_, rfl, hreading⟩
  | identifier | string => simp at hkind

theorem intReading_kind {text taken rest : Span} {c : Const} (h : intReading text = some (c, taken, rest))
    : c.kind = .integer := by
  unfold intReading at h
  split at h
  . simp only [Option.some.injEq, Prod.mk.injEq] at h
    rw [← h.1]
    rfl
  . simp at h

theorem uintReading_kind {text taken rest : Span} {c : Const} (h : uintReading text = some (c, taken, rest))
    : c.kind = .integer := by
  unfold uintReading at h
  split at h
  . simp only [Option.some.injEq, Prod.mk.injEq] at h
    rw [← h.1]
    rfl
  . simp at h

theorem floatReading_kind [Libc] {text taken rest : Span} {c : Const} (h : floatReading text = some (c, taken, rest))
    : c.kind = .float := by
  have hfloat (v : Double) (taken' rest' : Span) (h : some (Const.float v, taken', rest') = some (c, taken, rest))
      : c.kind = .float := by
    simp only [Option.some.injEq, Prod.mk.injEq] at h
    rw [← h.1]
    rfl
  unfold floatReading at h
  dsimp only at h
  split at h
  . exact hfloat _ _ _ h
  . split at h
    . exact hfloat _ _ _ h
    . split at h
      . split at h
        . simp at h
        . exact hfloat _ _ _ h
      . simp at h

theorem numberReading_kind [Libc] {text taken rest : Span} {c : Const}
    (h : numberReading text = some (c, taken, rest)) : c.kind = .integer ∨ c.kind = .float := by
  simp only [numberReading] at h
  split at h
  . exact .inl (intReading_kind h)
  . split at h
    . exact .inl (uintReading_kind h)
    . exact .inr (floatReading_kind h)

theorem numberReading_eq_none [Libc] {text : Span}
    : numberReading text = none ↔ intReading text = none ∧ uintReading text = none ∧ floatReading text = none := by
  constructor
  . intro h
    simp only [numberReading] at h
    split at h
    . next hint => simp [h] at hint
    . next hint =>
      split at h
      . next huint => simp [h] at huint
      . next huint =>
        have hnone : uintReading text = none := by
          by_contra hne
          exact huint ⟨h ▸ Nat.zero_le _, Option.isSome_iff_ne_none.mpr hne⟩
        refine ⟨?_, hnone, h⟩
        by_contra hne
        exact hint ⟨hnone ▸ Nat.zero_le _, h ▸ Nat.zero_le _, Option.isSome_iff_ne_none.mpr hne⟩
  . rintro ⟨hint, huint, hfloat⟩
    rw [numberReading_float hint huint, hfloat]

theorem integer_eq_none {text : Span}
    : (intReading text = none ∧ uintReading text = none)
        ↔ ¬((scanDigits (splitSign text).2).isSome = true ∧ -(2 ^ 63) ≤ strtoll text ∧ strtoll text < 2 ^ 64) := by
  rcases hscan : scanDigits (splitSign text).2 with _ | ⟨taken, rest⟩
  . have huint : scanDigits text = none := by
      by_contra hsome
      have hsign := scanDigits_sign (Option.isSome_iff_ne_none.mpr hsome)
      rw [hsign] at hscan
      exact hsome hscan
    simp [intReading, uintReading, hscan, huint]
  . by_cases hsign : splitSign text = ([], text)
    . rw [hsign] at hscan
      have hvalue := strtoll_positive hsign
      simp only [intReading, uintReading, hsign, hscan, intValue, uintValue, hvalue]
      by_cases hsmall : magnitude text < 2 ^ 63
      . rw [if_pos (by omega), if_pos (by omega)]
        simp
        omega
      . rw [if_neg (by omega)]
        by_cases hlarge : magnitude text < 2 ^ 64
        . rw [if_pos hlarge]
          simp
          omega
        . rw [if_neg hlarge]
          simp
          omega
    . have huint : scanDigits text = none := by
        by_contra hsome
        exact hsign (scanDigits_sign (Option.isSome_iff_ne_none.mpr hsome))
      have hneg : strtoll text ≤ 0 := by
        cases text with
        | nil => exact absurd rfl hsign
        | cons c text =>
          by_cases hc : c = '-'
          . subst hc
            simp [strtoll]
          . apply absurd _ hsign
            apply @splitSign_sign [] (c :: text) (.inl rfl)
            simp [hc]
      simp only [intReading, uintReading, hscan, huint, intValue]
      by_cases hrange : -(2 ^ 63) ≤ strtoll text
      . rw [if_pos (by omega)]
        simp
        omega
      . rw [if_neg (by omega)]
        simp
        omega

theorem floatReading_eq_none [Libc] {text : Span}
    : floatReading text = none ↔ ¬("inf".toList <+: (splitSign text).2 ∨ "nan".toList <+: (splitSign text).2
        ∨ (∃ c ∈ (splitSign text).2.head?, isDigit c = true ∨ c = '.') ∧ (Libc.strtod text).2 = false) := by
  unfold floatReading
  dsimp only
  rw [← List.isPrefixOf_iff_prefix, ← List.isPrefixOf_iff_prefix]
  by_cases hinf : "inf".toList.isPrefixOf (splitSign text).2 = true
  . rw [if_pos hinf]
    exact iff_of_false (Option.some_ne_none _) (not_not_intro (.inl hinf))
  . rw [if_neg hinf]
    by_cases hnan : "nan".toList.isPrefixOf (splitSign text).2 = true
    . rw [if_pos hnan]
      exact iff_of_false (Option.some_ne_none _) (not_not_intro (.inr (.inl hnan)))
    . rw [if_neg hnan]
      have hhead : ((splitSign text).2.head?.any fun c => isDigit c || c = '.') = true
          ↔ ∃ c ∈ (splitSign text).2.head?, isDigit c = true ∨ c = '.' := by
        rw [Option.any_eq_true]
        simp
      rw [← hhead]
      unfold scanFloat
      by_cases hdigit : ((splitSign text).2.head?.any fun c => isDigit c || c = '.') = true
      . rw [if_pos hdigit]
        cases hrange : (Libc.strtod text).2 <;> simp_all
      . rw [if_neg hdigit]
        simp_all

theorem numberReading_none [Libc] {text : Span} : numberReading text = none ↔ ¬BeginsNumber text := by
  rw [numberReading_eq_none, ← and_assoc, integer_eq_none, floatReading_eq_none, ← not_or, or_comm, or_assoc,
    or_assoc]
  rfl

/-! What a text that begins with no number is read as. -/

theorem isFullIdentifier_head {span : Span} (h : IsFullIdentifier span)
    : ∃ c rest, span = c :: rest ∧ (isIdentifierStart c = true
        ∨ c = '.' ∧ ∃ d rest', rest = d :: rest' ∧ isIdentifierStart d = true) := by
  obtain ⟨absolute, segments, hne, hsegments, rfl⟩ := h
  cases segments with
  | nil => exact absurd rfl hne
  | cons segment segments =>
    obtain ⟨⟨d, chars, rfl, hd⟩, -⟩ := hsegments segment List.mem_cons_self
    rw [intercalate_cons]
    cases absolute with
    | false => exact ⟨d, _, rfl, .inl hd⟩
    | true => exact ⟨'.', _, rfl, .inr ⟨rfl, d, _, rfl, hd⟩⟩

theorem isDigit_of_start {c : Char} (h : isIdentifierStart c = true) : isDigit c = false := by
  simp only [isIdentifierStart, isLetter, Bool.or_eq_true, Bool.and_eq_true, decide_eq_true_eq] at h
  by_contra hdigit
  simp only [isDigit, Bool.not_eq_false, Bool.and_eq_true, decide_eq_true_eq] at hdigit
  rcases h with rfl | h | h
  . exact absurd hdigit.2 (by decide)
  . exact absurd (Char.le_trans h.1 hdigit.2) (by decide)
  . exact absurd (Char.le_trans h.1 hdigit.2) (by decide)

theorem identifier_of_number [Libc] {token rest span rest' : Span} {kind : ConstKind}
    (h : IsConstToken token rest kind) (hkind : kind = .integer ∨ kind = .float) (hspan : IsFullIdentifier span)
    (hends : WordEnds rest') (htext : span ++ rest' = token ++ rest) : span = "inf".toList ∨ span = "nan".toList := by
  obtain ⟨c, chars, rfl, hc⟩ := isFullIdentifier_head hspan
  have hminus {text : Span} (htext : c :: chars ++ rest' = '-' :: text) : False := by
    obtain ⟨rfl, -⟩ := List.cons.inj htext
    simp [isIdentifierStart, isLetter] at hc
  have hdigit {d : Char} {text : Span} (hd : isDigit d = true) (htext : c :: chars ++ rest' = d :: text) : False := by
    obtain ⟨rfl, -⟩ := List.cons.inj htext
    rcases hc with hc | ⟨rfl, -⟩
    . simp [isDigit_of_start hc] at hd
    . simp [isDigit] at hd
  cases h with
  | integer h _ _ _ =>
    exfalso
    cases h with
    | positive h =>
      obtain ⟨d, digits, rfl, hd⟩ := isInteger_head h
      exact hdigit hd htext
    | negative h => exact hminus htext
  | float hsign h _ _ =>
    exfalso
    rcases hsign with rfl | rfl
    . obtain ⟨d, body, rfl, hd⟩ := isFloat_head h
      rcases hd with hd | ⟨rfl, e, body', rfl, he⟩
      . exact hdigit hd htext
      . -- Behind the point one of them has a digit and the other one a letter.
        rcases hc with hc | ⟨rfl, f, chars', rfl, hf⟩
        . obtain ⟨rfl, -⟩ := List.cons.inj htext
          simp [isIdentifierStart, isLetter] at hc
        . obtain ⟨-, htext⟩ := List.cons.inj htext
          obtain ⟨rfl, -⟩ := List.cons.inj htext
          simp [isDigit_of_start hf] at he
    . exact hminus htext
  | @special sign word _ hsign hword hends' =>
    rcases hsign with rfl | rfl
    . have hidentifier : IsFullIdentifier word := by
        refine ⟨false, [word], by simp, ?_, by simp [List.intercalate]⟩
        intro segment hsegment
        obtain rfl : segment = word := by simpa using hsegment
        rcases hword with rfl | rfl
        . exact isIdentifier_of_all (by decide) (by decide)
        . exact isIdentifier_of_all (by decide) (by decide)
      -- Both are what the parser of full identifiers takes.
      have hrun : parseFullIdentifier.run ⟨0, word ++ rest⟩ = (.ok word, ⟨word.length, rest⟩) :=
        parseFullIdentifier_iff.mpr ⟨hidentifier, hends', rfl, by simp⟩
      have hrun' : parseFullIdentifier.run ⟨0, word ++ rest⟩ = (.ok (c :: chars), ⟨(c :: chars).length, rest'⟩) :=
        parseFullIdentifier_iff.mpr ⟨hspan, hends, htext.symm, by simp⟩
      rw [hrun, Prod.mk.injEq, Except.ok.injEq] at hrun'
      exact hrun'.1 ▸ hword
    . exact (hminus htext).elim
  | identifier | string => simp at hkind

theorem parseConstValue_other [Libc] {b : Buffer} (h : numberReading b.rest = none)
    : parseConstValue.run b = ((Const.identifier <$> parseFullIdentifier).orElse
        ((Const.string <$> parseStringLiteral).orElse (fail .invalidConst))).run b := by
  have hrun := parseNumber_run b.offset b.rest
  rw [h] at hrun
  exact orElse_of_error hrun

theorem parseFullIdentifier_quote {b : Buffer} {close : Char} {rest : Span} (hclose : close = '"' ∨ close = '\x27')
    (h : b.rest = close :: rest) : ∃ e, parseFullIdentifier.run b = (.error e, b) := by
  rcases hrun : parseFullIdentifier.run b with ⟨e | span, b'⟩
  . rw [(restoring_error hrun).1]
    exact ⟨e, rfl⟩
  . obtain ⟨hspan, -, hcovers, -⟩ := parseFullIdentifier_iff.mp hrun
    obtain ⟨c, chars, rfl, hc⟩ := isFullIdentifier_head hspan
    rw [h] at hcovers
    obtain ⟨rfl, -⟩ := List.cons.inj hcovers
    rcases hclose with rfl | rfl <;> simp [isIdentifierStart, isLetter] at hc

theorem takesToken_other [Libc] {b : Buffer} (h : numberReading b.rest = none) : TakesToken b where
  sound := by
    intro c b' hrun
    rw [parseConstValue_other h] at hrun
    rcases orElse_ok hrun with hword | ⟨_, b₁, herror, hstring⟩
    . obtain ⟨span, hparse, rfl⟩ := map_ok.mp hword
      obtain ⟨hspan, hends, hcovers⟩ := parseFullIdentifier_iff.mp hparse
      -- The words that spell floats are read as numbers.
      have hword {word : Span} (hword : word = "inf".toList ∨ word = "nan".toList) : span ≠ word := by
        rintro rfl
        obtain ⟨v, hreading⟩ := @numberReading_special _ [] _ b'.rest (.inl rfl) hword
        rw [hcovers.1] at h
        rw [List.nil_append, h] at hreading
        simp at hreading
      exact ⟨span, hcovers, .identifier hspan (hword (.inl rfl)) (hword (.inr rfl)) hends⟩
    . obtain rfl : b₁ = b := (restoring_error (map_error.mp herror)).1
      obtain ⟨span, hparse, rfl⟩ := map_ok.mp (orElse_fail_ok.mp hstring)
      obtain ⟨literal, close, items, hliteral, hcovers⟩ := parseStringLiteral_ok.mp hparse
      exact ⟨literal, hcovers, .string hliteral⟩
  complete := by
    intro token b' kind hcovers htoken
    rw [parseConstValue_other h]
    have hnumber (hkind : kind = .integer ∨ kind = .float) : False := by
      obtain ⟨c, -, hreading⟩ := numberReading_token htoken hkind
      rw [← hcovers.1, h] at hreading
      simp at hreading
    cases kind with
    | integer => exact (hnumber (.inl rfl)).elim
    | float => exact (hnumber (.inr rfl)).elim
    | identifier =>
      cases htoken with
      | identifier hspan hinf hnan hends =>
        have hrun := parseFullIdentifier_iff.mpr ⟨hspan, hends, hcovers⟩
        exact ⟨.identifier token, rfl, orElse_of_ok (map_ok.mpr ⟨token, hrun, rfl⟩)⟩
    | string =>
      cases htoken with
      | @string _ span _ close items hliteral =>
        have hrest : b.rest = close :: (span ++ [close] ++ b'.rest) := by
          rw [hcovers.1, hliteral.literal_eq, List.cons_append]
        obtain ⟨e, herror⟩ := parseFullIdentifier_quote hliteral.quote hrest
        have hrun := parseStringLiteral_ok.mpr ⟨token, close, items, hliteral, hcovers⟩
        refine ⟨.string span, rfl, ?_⟩
        rw [orElse_of_error (map_error.mpr herror)]
        exact orElse_of_ok (map_ok.mpr ⟨span, hrun, rfl⟩)

theorem takesToken_whole [Libc] {b : Buffer} (h : WholeNumber b.rest) : TakesToken b := by
  obtain ⟨token, rest, kind, htext, htoken, hkind⟩ := h
  obtain ⟨c, hc, hreading⟩ := numberReading_token htoken hkind
  rw [← htext] at hreading
  have hrun := parseConstValue_number hreading b.offset
  constructor
  . intro c' b' hrun'
    simp only [hrun, Prod.mk.injEq, Except.ok.injEq] at hrun'
    obtain ⟨rfl, rfl⟩ := hrun'
    exact ⟨token, ⟨htext, rfl⟩, hc ▸ htoken⟩
  . intro token' b' kind' hcovers htoken'
    have hnumber (hkind' : kind' = .integer ∨ kind' = .float)
        : ∃ c, c.kind = kind' ∧ parseConstValue.run b = (.ok c, b') := by
      obtain ⟨c', hc', hreading'⟩ := numberReading_token htoken' hkind'
      rw [← hcovers.1] at hreading'
      refine ⟨c', hc', ?_⟩
      rw [parseConstValue_number hreading' b.offset, ← hcovers.2]
    cases htoken' with
    | integer => exact hnumber (.inl rfl)
    | float | special => exact hnumber (.inr rfl)
    | identifier hspan hinf hnan hends =>
      rcases identifier_of_number htoken hkind hspan hends (hcovers.1.symm.trans htext) with hword | hword
      . exact absurd hword hinf
      . exact absurd hword hnan
    | @string _ span _ close items hliteral =>
      -- No number begins with a quote.
      exfalso
      have hhead : b.rest = close :: (span ++ [close] ++ b'.rest) := by
        rw [hcovers.1, hliteral.literal_eq, List.cons_append]
      have hsplit : splitSign (close :: (span ++ [close] ++ b'.rest))
          = ([], close :: (span ++ [close] ++ b'.rest)) := by
        rcases hliteral.quote with rfl | rfl <;> rfl
      have hnone : numberReading b.rest = none := by
        rw [numberReading_none]
        unfold BeginsNumber
        rw [hhead, hsplit]
        rcases hliteral.quote with rfl | rfl <;> simp [isDigit, scanDigits]
      rw [hnone] at hreading
      simp at hreading

/--
Constants are whole tokens of the right kind exactly where a number, if one begins, is a whole token.
-/
theorem takesToken_iff [Libc] (b : Buffer) : TakesToken b ↔ (BeginsNumber b.rest → WholeNumber b.rest) := by
  constructor
  . intro h hbegins
    rcases hreading : numberReading b.rest with _ | ⟨c, taken, rest⟩
    . exact absurd hbegins (numberReading_none.mp hreading)
    . obtain ⟨token, hcovers, htoken⟩ := h.sound c _ (parseConstValue_number hreading b.offset)
      exact ⟨token, rest, c.kind, hcovers.1, htoken, numberReading_kind hreading⟩
  . intro h
    by_cases hbegins : BeginsNumber b.rest
    . exact takesToken_whole (h hbegins)
    . exact takesToken_other (numberReading_none.mpr hbegins)

theorem info_not_takesToken : ¬@TakesToken ⟨fun _ => (0, false), fun _ _ => rfl⟩ ⟨0, "info".toList⟩ := by
  let _ : Libc := ⟨fun _ => (0, false), fun _ _ => rfl⟩
  intro h
  obtain ⟨token, -, htoken⟩ := h.sound (.float posInfinity) ⟨3, ['o']⟩ rfl
  have hchar : isIdentifierChar 'o' = true := rfl
  cases htoken with
  | float _ _ _ hends => simp [(hends 'o' rfl).1] at hchar
  | special _ _ hends => simp [hends.1 'o' rfl] at hchar

end Gremlin
