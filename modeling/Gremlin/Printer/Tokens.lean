import Gremlin.Parser.Constants
import Gremlin.Parser.Made
import Gremlin.Text.Constants
import Gremlin.Text.Takes

/-!
This module contains what the parsers take of a text whose tokens have one space between them.
-/

namespace Gremlin

open Text Parser Buffer

variable {α β : Type}

def spaced (tokens : List Span) : Span :=
  List.intercalate [' '] tokens

/--
The tokens with a space before each of them.
-/
def behind (tokens : List Span) : Span :=
  tokens.flatMap (' ' :: ·)

@[simp]
theorem behind_nil : behind [] = [] :=
  rfl

@[simp]
theorem behind_cons (token : Span) (tokens : List Span) : behind (token :: tokens) = ' ' :: token ++ behind tokens :=
  rfl

@[simp]
theorem behind_append (tokens tokens' : List Span) : behind (tokens ++ tokens') = behind tokens ++ behind tokens' :=
  List.flatMap_append

theorem spaced_cons (token : Span) (tokens : List Span) : spaced (token :: tokens) = token ++ behind tokens := by
  induction tokens generalizing token with
  | nil => simp [spaced]
  | cons token' tokens ih =>
    have hstep : spaced (token :: token' :: tokens) = token ++ ' ' :: spaced (token' :: tokens) := by
      simp [spaced, List.intercalate, List.intersperse]
    rw [hstep, ih, behind_cons, List.cons_append]

theorem spaced_append {tokens : List Span} (hne : tokens ≠ []) (tokens' : List Span)
    : spaced (tokens ++ tokens') = spaced tokens ++ behind tokens' := by
  cases tokens with
  | nil => exact absurd rfl hne
  | cons token tokens => rw [List.cons_append, spaced_cons, spaced_cons, behind_append, List.append_assoc]

theorem space_spaced {tokens : List Span} (hne : tokens ≠ []) : ' ' :: spaced tokens = behind tokens := by
  cases tokens with
  | nil => exact absurd rfl hne
  | cons token tokens =>
    rw [spaced_cons, behind_cons]
    rfl

/--
A text that no space and no comment begins.
-/
def IsTokenHead (text : Span) : Prop :=
  ∃ c rest, text = c :: rest ∧ isWhitespace c = false ∧ c ≠ '/'

theorem isTokenHead_cons {c : Char} {rest : Span} (h : isWhitespace c = false ∧ c ≠ '/') : IsTokenHead (c :: rest) :=
  ⟨c, rest, rfl, h⟩

theorem IsTokenHead.append {text : Span} (h : IsTokenHead text) (rest : Span) : IsTokenHead (text ++ rest) := by
  obtain ⟨c, tail, rfl, hc⟩ := h
  exact ⟨c, tail ++ rest, rfl, hc⟩

theorem isTokenHead_start {c : Char} (h : isIdentifierStart c = true) : isWhitespace c = false ∧ c ≠ '/' := by
  constructor
  . by_contra hwhite
    simp only [isWhitespace, Bool.not_eq_false, Bool.or_eq_true, decide_eq_true_eq] at hwhite
    rcases hwhite with ((rfl | rfl) | rfl) | rfl <;> exact absurd h (by decide)
  . rintro rfl
    exact absurd h (by decide)

theorem isTokenHead_digit {c : Char} (h : isDigit c = true) : isWhitespace c = false ∧ c ≠ '/' := by
  constructor
  . by_contra hwhite
    simp only [isWhitespace, Bool.not_eq_false, Bool.or_eq_true, decide_eq_true_eq] at hwhite
    rcases hwhite with ((rfl | rfl) | rfl) | rfl <;> exact absurd h (by decide)
  . rintro rfl
    exact absurd h (by decide)

theorem isTokenHead_char {c : Char} (h : isIdentifierChar c = true) : isWhitespace c = false ∧ c ≠ '/' := by
  simp only [isIdentifierChar, Bool.or_eq_true, decide_eq_true_eq] at h
  rcases h with (h | h) | rfl
  . exact isTokenHead_digit h
  . exact isTokenHead_start (by simp [isIdentifierStart, h])
  . decide

theorem IsInteger.isTokenHead {digits : Span} {n : Nat} (h : IsInteger digits n) : IsTokenHead digits := by
  obtain ⟨c, rest, rfl, hc⟩ := isInteger_head h
  exact isTokenHead_cons (isTokenHead_digit hc)

theorem IsIntegerLiteral.isTokenHead {literal : Span} {v : Int} (h : IsIntegerLiteral literal v)
    : IsTokenHead literal := by
  cases h with
  | positive h => exact h.isTokenHead
  | negative _ => exact isTokenHead_cons (by decide)

theorem IsConstToken.isTokenHead [Libc] {token rest : Span} {kind : ConstKind} (h : IsConstToken token rest kind)
    (hkind : kind = .integer ∨ kind = .float) : IsTokenHead token := by
  have hsigned {sign text : Span} (hsign : sign = [] ∨ sign = ['-']) (htext : IsTokenHead text)
      : IsTokenHead (sign ++ text) := by
    rcases hsign with rfl | rfl
    . exact htext
    . exact isTokenHead_cons (by decide)
  cases h with
  | integer h => exact h.isTokenHead
  | float hsign h =>
    apply hsigned hsign
    obtain ⟨c, rest, rfl, hc⟩ := isFloat_head h
    rcases hc with hc | ⟨rfl, -⟩
    . exact isTokenHead_cons (isTokenHead_digit hc)
    . exact isTokenHead_cons (by decide)
  | special hsign hword =>
    apply hsigned hsign
    rcases hword with rfl | rfl
    . exact isTokenHead_cons (by decide)
    . exact isTokenHead_cons (by decide)
  | identifier | string => simp at hkind

theorem IsIdentifier.isTokenHead {span : Span} (h : IsIdentifier span) : IsTokenHead span := by
  obtain ⟨c, rest, rfl, hc⟩ := h.start
  exact isTokenHead_cons (isTokenHead_start hc)

theorem IsFullIdentifier.isTokenHead {span : Span} (h : IsFullIdentifier span) : IsTokenHead span := by
  obtain ⟨c, rest, rfl, hc⟩ := isFullIdentifier_head h
  rcases hc with hc | ⟨rfl, -⟩
  . exact isTokenHead_cons (isTokenHead_start hc)
  . exact isTokenHead_cons (by decide)

theorem IsIdentifier.isFullIdentifier {span : Span} (h : IsIdentifier span) : IsFullIdentifier span :=
  ⟨false, [span], by simp, by simpa using h, by simp⟩

theorem isFullIdentifier_chars {span : Span} (h : IsFullIdentifier span)
    : ∀ c ∈ span, isIdentifierChar c = true ∨ c = '.' := by
  obtain ⟨absolute, segments, hne, hsegments, rfl⟩ := h
  obtain ⟨segment, segments, rfl⟩ := List.exists_cons_of_ne_nil hne
  rw [List.forall_mem_cons] at hsegments
  intro c hc
  rw [intercalate_cons, List.mem_append, List.mem_append, List.mem_flatMap] at hc
  rcases hc with hc | hc | ⟨segment', hmem, hc⟩
  . cases absolute with
    | true => exact .inr (by simpa using hc)
    | false => simp at hc
  . exact .inl (hsegments.1.chars c hc)
  . rw [List.mem_cons] at hc
    rcases hc with rfl | hc
    . exact .inr rfl
    . exact .inl ((hsegments.2 segment' hmem).chars c hc)

theorem skipSpaces_space {b b' : Buffer} (h : Covers b [' '] b') (hhead : IsTokenHead b'.rest)
    : skipSpaces.run b = (.ok (), b') := by
  obtain ⟨c, rest, hrest, hc⟩ := hhead
  rw [skipSpaces_ok, h.1, h.2, List.singleton_append, skip_white (by decide), hrest, skip_other hc.1 hc.2]
  refine ⟨rfl, ?_⟩
  simp only [List.length_cons, List.length_nil]
  omega

theorem skipSpaces_token {b : Buffer} (hhead : IsTokenHead b.rest) : skipSpaces.run b = (.ok (), b) := by
  obtain ⟨c, rest, hrest, hc⟩ := hhead
  rw [skipSpaces_ok, hrest, skip_other hc.1 hc.2]
  exact ⟨rfl, rfl⟩

/-! The steps of an entry. -/

def Anything (_ : Span) : Prop :=
  True

def BeforeSpace (rest : Span) : Prop :=
  rest.head? = some ' '

/--
The parser takes exactly this text, whatever is behind it.
-/
abbrev Reads (p : EntryParser α) (text : Span) (P : α → Prop) : Prop :=
  Takes Anything p text P

/--
The parser takes exactly this text if a space is behind it.
-/
abbrev ReadsToken (p : EntryParser α) (text : Span) (P : α → Prop) : Prop :=
  Takes BeforeSpace p text P

variable {F : Span → Prop} {P : α → Prop} {Q : β → Prop}

theorem takes_skip {f : Unit → EntryParser α} {text : Span} (hhead : IsTokenHead text)
    (hf : Takes F (f ()) text P) : Takes F (skipSpaces.andThen f) (' ' :: text) P := by
  intro b b' h hend
  obtain ⟨b₁, h, h'⟩ := covers_cons.mp h
  rw [andThen_of_ok (skipSpaces_space h (h'.1 ▸ hhead.append _))]
  exact hf b₁ b' h' hend

theorem takes_skipUnchecked {f : Unit → EntryParser α} {text : Span} (hhead : IsTokenHead text)
    (hf : Takes F (f ()) text P) : Takes F (skipSpacesUnchecked.andThen f) (' ' :: text) P := by
  intro b b' h hend
  obtain ⟨b₁, h, h'⟩ := covers_cons.mp h
  rw [andThen_of_ok (skipSpacesUnchecked_of_ok (skipSpaces_space h (h'.1 ▸ hhead.append _)))]
  exact hf b₁ b' h' hend

theorem takes_noSkip {f : Unit → EntryParser α} {text : Span} (hhead : IsTokenHead text)
    (hf : Takes F (f ()) text P) : Takes F (skipSpaces.andThen f) text P := by
  intro b b' h hend
  rw [andThen_of_ok (skipSpaces_token (h.1 ▸ hhead.append _))]
  exact hf b b' h hend

theorem takes_gap {f : Unit → EntryParser α} {gap text : Span} (hgap : gap = [] ∨ gap = [' '])
    (hhead : IsTokenHead text) (hf : Takes F (f ()) text P) : Takes F (skipSpaces.andThen f) (gap ++ text) P := by
  rcases hgap with rfl | rfl
  . exact takes_noSkip hhead hf
  . exact takes_skip hhead hf

theorem takes_check (c : Char) : Takes F (checkAndShift c) [c] (· = true) :=
  takes_shiftIf (by simp)

theorem takes_checkStr (word : String) : Takes F (checkStrAndShift word) word.toList (· = true) :=
  takes_literal word.toList

theorem takes_expect {c : Char} {e : ParsingError} {f : Unit → EntryParser α} {text : Span}
    (hf : Takes F (f ()) text P) : Takes F ((expect c e).andThen f) (c :: text) P :=
  ((takes_check (F := Anything) c).require e).andThen (fun _ _ => hf) fun _ _ => trivial

theorem takes_keyword {word : String} {e : ParsingError} {f : Unit → EntryParser α} {text : Span}
    (hf : Takes F (f ()) text P) : Takes F ((keyword word e).andThen f) (word.toList ++ text) P :=
  ((takes_checkStr (F := Anything) word).require e).andThen (fun _ _ => hf) fun _ _ => trivial

/--
A token, and behind the space what is read next.
-/
theorem Text.Parser.Takes.spaced {p : EntryParser α} {f : α → EntryParser β} {text text' : Span}
    (hp : ReadsToken p text P) (hf : ∀ a, P a → Takes F (f a) (' ' :: text') Q)
    : Takes F (p.andThen f) (text ++ ' ' :: text') Q :=
  hp.andThen hf fun _ _ => rfl

/-! The steps of an entry that fails. -/

theorem refuses_skip {f : Unit → EntryParser α} {text : Span} (hhead : IsTokenHead text) (hf : Refuses (f ()) text)
    : Refuses (skipSpaces.andThen f) (' ' :: text) := by
  intro b b' h y c hrun
  obtain ⟨b₁, h, h'⟩ := covers_cons.mp h
  rw [andThen_of_ok (skipSpaces_space h (h'.1 ▸ hhead.append _))] at hrun
  exact hf b₁ b' h' y c hrun

theorem refuses_noSkip {f : Unit → EntryParser α} {text : Span} (hhead : IsTokenHead text) (hf : Refuses (f ()) text)
    : Refuses (skipSpaces.andThen f) text := by
  intro b b' h y c hrun
  rw [andThen_of_ok (skipSpaces_token (h.1 ▸ hhead.append _))] at hrun
  exact hf b b' h y c hrun

theorem refuses_expect {c : Char} {e : ParsingError} {f : Unit → EntryParser α} {text : Span}
    (hf : Refuses (f ()) text) : Refuses ((expect c e).andThen f) (c :: text) :=
  ((takes_check (F := Anything) c).require e).refuses (fun _ _ => hf) fun _ => trivial

theorem refuses_expect_other {c d : Char} (hne : d ≠ c) (e : ParsingError) (f : Unit → EntryParser α) (text : Span)
    : Refuses ((expect c e).andThen f) (d :: text) :=
  (refuses_shiftIf (decide_eq_false hne) e text).andThen f

theorem refuses_keyword {word : String} {e : ParsingError} {f : Unit → EntryParser α} {text : Span}
    (hf : Refuses (f ()) text) : Refuses ((keyword word e).andThen f) (word.toList ++ text) :=
  ((takes_checkStr (F := Anything) word).require e).refuses (fun _ _ => hf) fun _ => trivial

theorem refuses_keyword_other {word : List Char} {word' : String} (hword : Differs word word'.toList)
    (e : ParsingError) (f : Unit → EntryParser α) (text : Span)
    : Refuses ((keyword word' e).andThen f) (word ++ text) := by
  intro b b' hcovers y c hrun
  obtain ⟨b₁, hcovers, -⟩ := covers_append.mp hcovers
  exact opening_ne_ok hword ⟨b₁.rest, hcovers.1.symm⟩ e f y c (restoring_ok.mpr hrun)

theorem Text.Parser.Takes.refusesSpaced {p : EntryParser α} {f : α → EntryParser β} {text t : Span}
    (hp : ReadsToken p text P) (hf : ∀ a, P a → Refuses (f a) (' ' :: t)) : Refuses (p.andThen f) (text ++ ' ' :: t) :=
  hp.refuses hf fun _ => rfl

/-! Single tokens. -/

theorem ends_of_space {rest : Span} (h : BeforeSpace rest) : NameEnds rest ∧ WordEnds rest ∧ NumberEnds rest := by
  obtain ⟨rest, rfl⟩ := List.head?_eq_some_iff.mp h
  have hname : NameEnds (' ' :: rest) := by
    rintro c ⟨⟩
    decide
  refine ⟨hname, ⟨hname, ?_⟩, ?_⟩
  . rintro c rest' ⟨⟩
  . rintro c ⟨⟩
    decide

theorem takes_identifierChars {span : Span} (h : IsIdentifier span)
    : Takes NameEnds identifierChars span fun _ => True :=
  fun _ _ hcovers hend => ⟨(), trivial, identifierChars_iff.mpr ⟨span, h, hend, hcovers⟩⟩

theorem takes_fullIdentifier {span : Span} (h : IsFullIdentifier span)
    : Takes WordEnds parseFullIdentifier span (· = span) :=
  fun _ _ hcovers hend => ⟨span, rfl, parseFullIdentifier_iff.mpr ⟨h, hend, hcovers⟩⟩

theorem readsToken_identifier {span : Span} (h : IsIdentifier span) : ReadsToken parseIdentifier span (· = span) :=
  (takes_identifierChars h).spanned.mono fun _ hend => (ends_of_space hend).1

theorem readsToken_fullIdentifier {span : Span} (h : IsFullIdentifier span)
    : ReadsToken parseFullIdentifier span (· = span) :=
  (takes_fullIdentifier h).mono fun _ hend => (ends_of_space hend).2.1

theorem takes_string {literal span : Span} {close : Char} {items : List Item}
    (h : IsStringLiteral literal span close items) : Takes F parseStringLiteral literal (· = span) :=
  fun _ _ hcovers _ => ⟨span, rfl, parseStringLiteral_ok.mpr ⟨literal, close, items, h, hcovers⟩⟩

/-! Numbers. -/

theorem isDigit_of_isDigit {c : Char} (h : c.isDigit = true) : isDigit c = true := by
  simp only [Char.isDigit, Bool.and_eq_true, decide_eq_true_eq] at h
  simp only [isDigit, Bool.and_eq_true, decide_eq_true_eq]
  exact h

theorem digitsValue_ten {digits : Span} (h : ∀ d ∈ digits, isDigit d = true) (n : Nat)
    : digits.foldl (fun n c => n * 10 + digitValue c) n = Nat.ofDigitChars 10 digits n := by
  induction digits generalizing n with
  | nil => rfl
  | cons d digits ih =>
    rw [List.forall_mem_cons] at h
    rw [List.foldl_cons, ih h.2, Nat.ofDigitChars_cons, digitValue, if_pos h.1, Nat.mul_comm]
    rfl

theorem isInteger_unsigned (n : Nat) : IsInteger (Printf.unsigned n) n := by
  have hdigits : ∀ d ∈ Printf.unsigned n, isDigit d = true :=
    fun d hd => isDigit_of_isDigit (Printf.isDigit_of_mem_unsigned hd)
  have hvalue : digitsValue 10 (Printf.unsigned n) = n := by
    unfold digitsValue
    rw [digitsValue_ten hdigits]
    exact Nat.ofDigitChars_ten_toDigits
  rcases Nat.eq_zero_or_pos n with rfl | hpos
  . exact @IsInteger.octal [] (by simp)
  . have hzero := Constants.head_unsigned hpos.ne'
    cases htext : Printf.unsigned n with
    | nil => exact absurd htext Nat.toDigits_ne_nil
    | cons c digits =>
      rw [htext] at hdigits hvalue hzero
      rw [List.forall_mem_cons] at hdigits
      have hc : ('1' ≤ c && c ≤ '9') = true := by
        have hne : c ≠ '0' := by
          rintro rfl
          exact hzero rfl
        have hrange := hdigits.1
        simp only [isDigit, Bool.and_eq_true, decide_eq_true_eq, Char.le_def, UInt32.le_iff_toNat_le] at hrange ⊢
        have hne' : c.val.toNat ≠ '0'.val.toNat := fun heq => hne (Char.ext (UInt32.toNat_inj.mp heq))
        have hzero : '0'.val.toNat = 48 := rfl
        have hone : '1'.val.toNat = 49 := rfl
        omega
      have := IsInteger.decimal hc hdigits.2
      rwa [hvalue] at this

theorem isIntegerLiteral_signed (n : Int) : IsIntegerLiteral (Printf.signed n) n := by
  have h := isInteger_unsigned n.natAbs
  unfold Printf.signed
  split
  . have := IsIntegerLiteral.negative h
    rwa [show -(n.natAbs : Int) = n by omega] at this
  . have := IsIntegerLiteral.positive h
    rwa [show (n.natAbs : Int) = n by omega] at this

theorem readsToken_integer {literal : Span} {v : Int} (h : IsIntegerLiteral literal v) (hlower : -(2 ^ 63) ≤ v)
    (hupper : v < 2 ^ 63) : ReadsToken parseIntegerLiteral literal (· = v) := by
  rintro ⟨offset, text⟩ ⟨offset', rest⟩ ⟨htext, hoffset⟩ hend
  dsimp only at htext hoffset hend
  have hends := numberEnds_digit (ends_of_space hend).2.2
  have hreading : intReading text = some (.int v, literal, rest) := by
    rw [htext]
    cases h with
    | positive h => rw [intReading_positive h hends, if_pos (by omega)]
    | negative h => rw [intReading_negative h hends, if_pos (by omega)]
  have hattempt := attempt_int offset text
  rw [hreading] at hattempt
  unfold attempt at hattempt
  split at hattempt
  . next a b hrun =>
    simp only [Option.map_some, Reading.placed, Option.some.injEq, Prod.mk.injEq, Const.int.injEq] at hattempt
    rw [hrun, hattempt.1, hattempt.2, hoffset]
    exact ⟨v, rfl, rfl⟩
  . simp at hattempt

/--
An integer that passes a check.
-/
theorem readsToken_checked {v : Int} (hlower : -(2 ^ 63) ≤ v) (hupper : v < 2 ^ 63) {d : Int → Prop}
    [DecidablePred d] (hv : ¬d v) (e : ParsingError) {literal : Span} (h : IsIntegerLiteral literal v)
    : ReadsToken (parseIntegerLiteral.andThen fun n => if d n then fail e else succeed n) literal (· = v) := by
  have := (readsToken_integer h hlower hupper).andThen (G := BeforeSpace) (t := []) (Q := (· = v))
    (f := fun n => if d n then fail e else succeed n) ?_ fun _ hend => hend
  . rwa [List.append_nil] at this
  . rintro _ rfl
    rw [if_neg hv]
    exact takes_succeed rfl

theorem readsToken_fieldNumber {n : Nat} (hn : 1 ≤ n) (hn' : n < 2 ^ 31)
    : ReadsToken parseFieldNumber (Printf.unsigned n) (· = (n : Int)) :=
  readsToken_checked (by omega) (by omega) (d := fun v => v < 1 ∨ v > 2 ^ 31 - 1) (by omega) _
    (.positive (isInteger_unsigned n))

theorem readsToken_enumValueNumber {n : Int} (hlower : -(2 ^ 31) ≤ n) (hupper : n < 2 ^ 31)
    : ReadsToken parseEnumValueNumber (Printf.signed n) (· = n) :=
  readsToken_checked (by omega) (by omega) (d := fun v => v < -(2 ^ 31) ∨ v > 2 ^ 31 - 1) (by omega) _
    (isIntegerLiteral_signed n)

end Gremlin
