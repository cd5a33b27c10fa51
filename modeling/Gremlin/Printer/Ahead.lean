import Gremlin.Printer.Tokens

/-!
This module contains the parsers that do not get behind a delimiter, and the entries that they are no
part of for that reason.
-/

namespace Gremlin

open Text Parser Buffer

/--
A character that ends every name, number and type in front of it.
-/
def IsDelimiter (c : Char) : Prop :=
  isIdentifierChar c = false ∧ c ∉ ['.', '-', '(', ')', ',']

instance (c : Char) : Decidable (IsDelimiter c) :=
  inferInstanceAs (Decidable (_ ∧ _))

section Delimiter

variable {bad rest : List Char} {stop : Char}

theorem stays_skipSpaces (hslash : '/' ∈ bad) (hstop : isWhitespace stop = false ∧ stop ≠ '/')
    : Stays (Ahead bad (stop :: rest)) skipSpaces := by
  have hskip : ∀ pre : Span, (∀ c ∈ pre, c ∉ bad)
      → ∃ pre', skip .code (pre ++ stop :: rest) = (none, pre' ++ stop :: rest) ∧ ∀ c ∈ pre', c ∉ bad := by
    intro pre
    induction pre with
    | nil => exact fun h => ⟨[], skip_other hstop.1 hstop.2 rest, h⟩
    | cons c pre ih =>
      intro h
      have hboth := List.forall_mem_cons.mp h
      by_cases hwhite : isWhitespace c = true
      . obtain ⟨pre', heq, hpre'⟩ := ih hboth.2
        exact ⟨pre', by rw [List.cons_append, skip_white hwhite, heq], hpre'⟩
      . have hne : c ≠ '/' := by
          rintro rfl
          exact hboth.1 hslash
        exact ⟨c :: pre, skip_other (by simpa using hwhite) hne _, h⟩
  rintro ⟨offset, _⟩ ⟨pre, rfl, hpre⟩
  obtain ⟨pre', heq, hpre'⟩ := hskip pre hpre
  refine ⟨pre', ?_, hpre'⟩
  simp only [skipSpaces, heq]

theorem stays_checkAndShift {c : Char} (h : stop ≠ c) : Stays (Ahead bad (stop :: rest)) (checkAndShift c) :=
  stays_shiftIf (decide_eq_false h)

theorem stays_expect {c : Char} (h : stop ≠ c) (e : ParsingError) : Stays (Ahead bad (stop :: rest)) (expect c e) :=
  (stays_checkAndShift h).require e

theorem stays_keyword {word : String} (h : stop ∉ word.toList) (e : ParsingError)
    : Stays (Ahead bad (stop :: rest)) (keyword word e) :=
  (stays_literal h).require e

variable (hstop : IsDelimiter stop)

include hstop

theorem IsDelimiter.start : isIdentifierStart stop = false := by
  by_contra hstart
  have := isIdentifierChar_of_start (by simpa using hstart)
  rw [hstop.1] at this
  exact Bool.false_ne_true this

theorem IsDelimiter.digit : isDigit stop = false := by
  have := hstop.1
  simp only [isIdentifierChar, Bool.or_eq_false_iff] at this
  exact this.1.1

theorem IsDelimiter.ne {c : Char} (h : c ∈ ['.', '-', '(', ')', ',']) : stop ≠ c := by
  rintro rfl
  exact hstop.2 h

theorem IsDelimiter.not_mem {word : List Char} (h : word.all isIdentifierChar = true) : stop ∉ word := by
  intro hmem
  have := List.all_eq_true.mp h stop hmem
  rw [hstop.1] at this
  exact Bool.false_ne_true this

theorem stays_identifierChars : Stays (Ahead bad (stop :: rest)) identifierChars :=
  ((stays_shiftIf hstop.start).require _).andThen fun _ => stays_shiftWhile hstop.1

theorem stays_parseIdentifier : Stays (Ahead bad (stop :: rest)) parseIdentifier :=
  (stays_identifierChars hstop).spanned

theorem stays_segmentStep (u : Unit) : Stays (Ahead bad (stop :: rest)) (segmentStep u) :=
  ((stays_expect (hstop.ne (by decide)) _).andThen fun _ => (stays_identifierChars hstop).andThen fun _ =>
    stays_succeed _).restoring.orElse (stays_succeed _)

theorem stays_parseFullIdentifier : Stays (Ahead bad (stop :: rest)) parseFullIdentifier :=
  ((stays_checkAndShift (hstop.ne (by decide))).andThen fun _ => (stays_identifierChars hstop).andThen fun _ =>
    Stays.loop (stays_segmentStep hstop) ()).spanned.restoring

theorem stays_optionName : Stays (Ahead bad (stop :: rest)) optionName := by
  have hpart : Stays (Ahead bad (stop :: rest)) optionNamePart := by
    apply Stays.restoring
    apply (stays_checkAndShift (hstop.ne (by decide))).andThen
    intro opened
    apply Stays.ite
    . exact (stays_checkAndShift (hstop.ne (by decide))).andThen fun _ =>
        ((stays_parseFullIdentifier hstop).orElse (stays_fail _)).andThen fun _ =>
        stays_expect (hstop.ne (by decide)) _
    . exact (stays_identifierChars hstop).orElse (stays_fail _)
  apply hpart.andThen
  intro _
  apply Stays.loop
  intro _
  apply (stays_checkAndShift (hstop.ne (by decide))).andThen
  intro dot
  exact (hpart.andThen fun _ => stays_succeed _).ite (stays_succeed _)

theorem stays_parseIntegerLiteral : Stays (Ahead bad (stop :: rest)) parseIntegerLiteral := by
  have hdecimal : (('1' : Char) ≤ stop && stop ≤ '9') = false := by
    by_contra h
    have := isDigit_of_nonzero (by simpa using h)
    rw [hstop.digit] at this
    exact Bool.false_ne_true this
  have hoctal : isOctalDigit stop = false := by
    by_contra h
    have := isDigit_of_octal (by simpa using h)
    rw [hstop.digit] at this
    exact Bool.false_ne_true this
  have hhex : isHexDigit stop = false := by
    by_contra h
    have := isIdentifierChar_of_hex (by simpa using h)
    rw [hstop.1] at this
    exact Bool.false_ne_true this
  apply Stays.restoring
  apply Stays.valued
  apply (stays_checkAndShift (hstop.ne (by decide))).andThen
  intro _
  apply (stays_shiftIf hdecimal).andThen
  intro decimal
  refine Stays.ite (stays_shiftWhile hstop.digit) ?_
  have hzero : stop ≠ '0' := by
    rintro rfl
    exact absurd hstop (by decide)
  apply (stays_checkAndShift hzero).andThen
  intro zero
  refine Stays.ite ?_ (stays_fail _)
  have hpre : (stop = 'x' || stop = 'X') = false := by
    by_contra h
    simp only [Bool.not_eq_false, Bool.or_eq_true, decide_eq_true_eq] at h
    rcases h with rfl | rfl <;> exact absurd hstop (by decide)
  apply (stays_shiftIf hpre).andThen
  intro hexadecimal
  exact (((stays_looking _).require _).andThen fun _ => stays_shiftWhile hhex).ite (stays_shiftWhile hoctal)

variable (hslash : '/' ∈ bad) (hspace : isWhitespace stop = false ∧ stop ≠ '/')

include hslash hspace

theorem stays_parseRange : Stays (Ahead bad (stop :: rest)) parseRange := by
  have hspaces : Stays (Ahead bad (stop :: rest)) skipSpacesUnchecked := (stays_skipSpaces hslash hspace).ignoring
  have hto : Stays (Ahead bad (stop :: rest)) (checkStrWithSpaceAndShift "to") :=
    (((stays_literal (hstop.not_mem (by decide))).require _).andThen fun _ =>
      ((stays_shiftIf hspace.1).require _).andThen fun _ => stays_succeed _).restoring.orElse (stays_succeed _)
  have hmax : Stays (Ahead bad (stop :: rest)) (checkStrAndShift "max") :=
    stays_literal (hstop.not_mem (by decide))
  apply Stays.restoring
  apply (stays_parseIntegerLiteral hstop).andThen
  intro start
  refine Stays.ite (stays_fail _) (Stays.andThen ?_ ?_)
  . exact (hspaces.andThen fun _ => (hto.require _).andThen fun _ => stays_succeed _).restoring.orElse (stays_succeed _)
  . intro found
    refine Stays.ite ?_ (stays_succeed _)
    apply hmax.andThen
    intro highest
    refine Stays.ite (stays_succeed _) ?_
    apply (stays_parseIntegerLiteral hstop).andThen
    intro last
    exact (stays_fail _).ite (stays_succeed _)

theorem stays_ranges : Stays (Ahead bad (stop :: rest)) (commaList parseRange) := by
  have hspaces : Stays (Ahead bad (stop :: rest)) skipSpaces := stays_skipSpaces hslash hspace
  have hrange : Stays (Ahead bad (stop :: rest)) parseRange := stays_parseRange hstop hslash hspace
  apply hrange.andThen
  intro _
  apply hspaces.andThen
  intro _
  apply Stays.loop
  intro count
  apply (stays_checkAndShift (hstop.ne (by decide))).andThen
  intro comma
  refine Stays.ite ?_ (stays_succeed _)
  exact hspaces.andThen fun _ => hrange.andThen fun _ => hspaces.andThen fun _ => stays_succeed _

end Delimiter

/-! Entries that need a character behind the delimiter. -/

/--
None of these characters is in the text before the delimiter.
-/
def Clear (bad : List Char) (stop : Char) (text : Span) : Prop :=
  ∃ pre tail, text = pre ++ stop :: tail ∧ ∀ c ∈ pre, c ∉ bad

theorem Clear.ahead {bad : List Char} {stop : Char} {text : Span} (h : Clear bad stop text) {b b' : Buffer}
    (hcovers : Covers b text b') : ∃ rest, Ahead bad (stop :: rest) b := by
  obtain ⟨pre, tail, rfl, hpre⟩ := h
  refine ⟨tail ++ b'.rest, pre, ?_, hpre⟩
  rw [hcovers.1, List.append_assoc, List.cons_append]

theorem not_expect_ahead {bad rest : List Char} {c stop : Char} (hc : c ∈ bad) (hne : c ≠ stop) {b b' : Buffer}
    (hb : Ahead bad (stop :: rest) b) {e : ParsingError} {a : Unit} : (expect c e).run b ≠ (.ok a, b') :=
  fun hrun => hne (ahead_head hb (expect_ok hrun).1 hc).1

section Blocks

variable {text : Span} (h : Clear ['\x7b', '/'] ';' text)

include h

theorem refuses_blockHead {word : String} (hword : word.toList.all isIdentifierChar = true)
    {parseName : EntryParser Span} (hname : ∀ bad rest, Stays (Ahead bad (';' :: rest)) parseName)
    : Refuses (blockHead word parseName) text := by
  intro b b' hcovers a c hrun
  obtain ⟨rest, hahead⟩ := h.ahead hcovers
  have hspaces : Stays (Ahead ['\x7b', '/'] (';' :: rest)) skipSpaces := stays_skipSpaces (by decide) (by decide)
  have hstop : IsDelimiter ';' := by decide
  obtain ⟨_, b₁, h₁, hrun⟩ := andThen_ok.mp hrun
  obtain ⟨_, b₂, h₂, hrun⟩ := andThen_ok.mp hrun
  obtain ⟨_, b₃, h₃, hrun⟩ := andThen_ok.mp hrun
  obtain ⟨_, b₄, h₄, hrun⟩ := andThen_ok.mp hrun
  obtain ⟨_, b₅, hbracket, -⟩ := andThen_ok.mp hrun
  have h₁ := (stays_keyword (hstop.not_mem hword) _).run hahead h₁
  have h₄ := hspaces.run ((hname _ _).run (hspaces.run h₁ h₂) h₃) h₄
  exact not_expect_ahead (by decide) (by decide) h₄ hbracket

theorem refuses_block {word : String} (hword : word.toList.all isIdentifierChar = true)
    {parseName : EntryParser Span} (hname : ∀ bad rest, Stays (Ahead bad (';' :: rest)) parseName)
    (entry : EntryParser Unit) : Refuses (block word parseName entry) text := by
  rw [block_eq]
  exact ((refuses_blockHead h hword hname).andThen _).restoring

theorem refuses_messageHead : Refuses messageHead text := by
  rw [messageHead_eq]
  exact (refuses_blockHead h (by decide) fun _ _ => stays_parseIdentifier (by decide)).restoring

theorem refuses_groupParse : Refuses groupParse text := by
  apply Refuses.restoring
  intro b b' hcovers a c hrun
  obtain ⟨rest, hahead⟩ := h.ahead hcovers
  have hspaces : Stays (Ahead ['\x7b', '/'] (';' :: rest)) skipSpaces := stays_skipSpaces (by decide) (by decide)
  obtain ⟨_, b₁, h₁, hrun⟩ := andThen_ok.mp hrun
  obtain ⟨_, b₂, h₂, hrun⟩ := andThen_ok.mp hrun
  obtain ⟨_, b₃, h₃, hrun⟩ := andThen_ok.mp hrun
  obtain ⟨_, b₄, h₄, hrun⟩ := andThen_ok.mp hrun
  obtain ⟨_, b₅, h₅, hrun⟩ := andThen_ok.mp hrun
  obtain ⟨_, b₆, h₆, hrun⟩ := andThen_ok.mp hrun
  obtain ⟨_, b₇, h₇, hrun⟩ := andThen_ok.mp hrun
  obtain ⟨_, b₈, h₈, hrun⟩ := andThen_ok.mp hrun
  obtain ⟨_, b₉, h₉, hrun⟩ := andThen_ok.mp hrun
  obtain ⟨_, b₁₀, h₁₀, hrun⟩ := andThen_ok.mp hrun
  obtain ⟨_, b₁₁, h₁₁, hrun⟩ := andThen_ok.mp hrun
  obtain ⟨_, b₁₂, h₁₂, hrun⟩ := andThen_ok.mp hrun
  obtain ⟨_, b₁₃, hbracket, -⟩ := andThen_ok.mp hrun
  have h₁ := Stays.run (stays_literal (by decide)) hahead h₁
  have h₂ := Stays.run (stays_literal (by decide)) h₁ h₂
  have h₃ := Stays.run (stays_literal (by decide)) h₂ h₃
  have h₅ := (stays_keyword (by decide) _).run (hspaces.run h₃ h₄) h₅
  have h₇ := (stays_parseIdentifier (by decide)).run (hspaces.run h₅ h₆) h₇
  have h₉ := (stays_expect (by decide) _).run (hspaces.run h₇ h₈) h₉
  have h₁₁ := (stays_parseIntegerLiteral (by decide)).run (hspaces.run h₉ h₁₀) h₁₁
  exact not_expect_ahead (by decide) (by decide) (hspaces.run h₁₁ h₁₂) hbracket

end Blocks

section Ranges

variable {text : Span} (h : Clear [';', '/', '"', '\x27'] '=' text)

include h

theorem refuses_extensionsParse : Refuses extensionsParse text := by
  apply Refuses.restoring
  intro b b' hcovers a c hrun
  obtain ⟨rest, hahead⟩ := h.ahead hcovers
  obtain ⟨_, b₁, h₁, hrun⟩ := andThen_ok.mp hrun
  obtain ⟨_, b₂, h₂, hrun⟩ := andThen_ok.mp hrun
  obtain ⟨_, b₃, h₃, hrun⟩ := andThen_ok.mp hrun
  obtain ⟨_, b₄, hsemicolon, -⟩ := andThen_ok.mp hrun
  have h₁ := (stays_keyword (by decide) _).run hahead h₁
  have h₂ := (stays_skipSpaces (by decide) (by decide)).run h₁ h₂
  have h₃ := (stays_ranges (by decide) (by decide) (by decide)).run h₂ h₃
  exact not_expect_ahead (by decide) (by decide) h₃ hsemicolon

theorem refuses_reservedParse : Refuses reservedParse text := by
  apply Refuses.restoring
  intro b b' hcovers a c hrun
  obtain ⟨rest, hahead⟩ := h.ahead hcovers
  obtain ⟨_, b₁, h₁, hrun⟩ := andThen_ok.mp hrun
  obtain ⟨_, b₂, h₂, hrun⟩ := andThen_ok.mp hrun
  obtain ⟨names, b₃, hnames, hrun⟩ := andThen_ok.mp hrun
  have h₁ := (stays_keyword (by decide) _).run hahead h₁
  have h₂ := (stays_skipSpaces (by decide) (by decide)).run h₁ h₂
  simp only [looking, Prod.mk.injEq, Except.ok.injEq] at hnames
  obtain ⟨hnames, rfl⟩ := hnames
  cases names with
  | true =>
    -- A quote would be one of the characters that are not before the delimiter.
    rw [Option.any_eq_true] at hnames
    obtain ⟨d, hd, hquote⟩ := hnames
    obtain ⟨tail, htail⟩ := List.head?_eq_some_iff.mp hd
    simp only [Bool.or_eq_true, decide_eq_true_eq] at hquote
    have hbad : d ∈ [';', '/', '"', '\x27'] := by
      rcases hquote with rfl | rfl <;> decide
    have heq := (ahead_head h₂ htail hbad).1
    rcases hquote with rfl | rfl <;> exact absurd heq (by decide)
  | false =>
    obtain ⟨_, b₄, h₄, hrun⟩ := andThen_ok.mp hrun
    obtain ⟨_, b₅, hsemicolon, -⟩ := andThen_ok.mp hrun
    have h₄ := (stays_ranges (by decide) (by decide) (by decide)).run h₂ h₄
    exact not_expect_ahead (by decide) (by decide) h₄ hsemicolon

end Ranges

end Gremlin
