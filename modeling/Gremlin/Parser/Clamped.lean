import Gremlin.Parser.Identifiers
import Gremlin.Parser.Progress
import Gremlin.Text.Clamped

/-!
This module contains the comparison of the parsers on a body and on the text that goes on behind its
closing bracket.
-/

namespace Gremlin

open Text Parser Buffer

variable {after : List Char}

/-! Spaces. -/

theorem skip_white {c : Char} (hc : isWhitespace c = true) (rest : List Char)
    : skip .code (c :: rest) = skip .code rest := by
  rw [skip.eq_def]
  simp only [hc, if_true]

theorem skip_other {c : Char} (hc : isWhitespace c = false) (hslash : c ≠ '/') (rest : List Char)
    : skip .code (c :: rest) = (none, c :: rest) := by
  rw [skip.eq_def]
  simp only [hc, hslash, Bool.false_eq_true, if_false]

theorem skip_slash {c : Char} (hslash : c ≠ '/') (hstar : c ≠ '*') (rest : List Char)
    : skip .code ('/' :: c :: rest) = (none, '/' :: c :: rest) := by
  rw [skip.eq_def]
  simp [isWhitespace, hslash, hstar]

theorem skip_append_of_ne_nil (mode : SkipMode) (s : List Char) (h : (skip mode s).2 ≠ [])
    : (skip mode (s ++ '}' :: after)).2 = (skip mode s).2 ++ '}' :: after
        ∧ ((skip mode s).1 = none → (skip mode (s ++ '}' :: after)).1 = none) := by
  fun_induction skip mode s with
  | case1 | case8 | case11 | case12 => simp at h
  | case2 c rest hc ih =>
    rw [List.cons_append, skip_white hc]
    exact ih h
  | case3 => simp [skip, isWhitespace]
  | case4 rest _ ih | case5 rest _ _ ih => simpa [skip, isWhitespace] using ih h
  | case6 => simp [skip, *]
  | case7 c rest hc hslash =>
    rw [List.cons_append, skip_other (by simpa using hc) hslash]
    simp
  | case9 rest ih => simpa [skip] using ih h
  | case10 c rest hc ih => simpa [skip, hc] using ih h
  | case13 c d rest hclose ih =>
    rw [List.cons_append, List.cons_append, skip, if_pos hclose]
    exact ih h
  | case14 c d rest hclose ih =>
    rw [List.cons_append, List.cons_append, skip, if_neg hclose]
    exact ih h

theorem skip_of_append (mode : SkipMode) (s u : List Char) (hu : u ≠ ['/'])
    (h : skip mode (s ++ '}' :: after) = (none, u ++ '}' :: after)) : skip mode s = (none, u) := by
  -- What is left would be longer than the text behind the bracket.
  have hlonger (mode : SkipMode) : skip mode after ≠ (none, u ++ '}' :: after) := by
    intro heq
    have hle := (skip_suffix mode after).length_le
    rw [heq, List.length_append, List.length_cons] at hle
    omega
  have hblock : skip .block ('}' :: after) ≠ (none, u ++ '}' :: after) := by
    intro heq
    cases hafter : after with
    | nil => simp [skip, hafter] at heq
    | cons d rest =>
      rw [hafter, skip, if_neg (by simp), ← hafter] at heq
      exact hlonger .block heq
  fun_induction skip mode s with
  | case1 =>
    rw [List.nil_append, skip_other (by decide) (by decide), Prod.mk.injEq] at h
    rw [List.append_left_eq_self.mp h.2.symm]
  | case2 c rest hc ih =>
    rw [List.cons_append, skip_white hc] at h
    exact ih h
  -- A slash at the end of the body may open a comment together with what is behind it.
  | case3 =>
    rw [List.cons_append, List.nil_append] at h
    rw [skip_slash (by decide) (by decide), Prod.mk.injEq] at h
    have heq : ['/'] ++ '}' :: after = u ++ '}' :: after := h.2
    exact absurd (List.append_cancel_right heq).symm hu
  | case4 rest _ ih =>
    apply ih
    simpa [skip, isWhitespace] using h
  | case5 rest _ _ ih =>
    apply ih
    simpa [skip, isWhitespace] using h
  | case6 d rest hslash hstar =>
    rw [List.cons_append, List.cons_append, skip_slash hslash hstar, Prod.mk.injEq] at h
    have heq : '/' :: d :: rest ++ '}' :: after = u ++ '}' :: after := h.2
    rw [List.append_cancel_right heq]
  | case7 c rest hc hslash =>
    rw [List.cons_append, skip_other (by simpa using hc) hslash, Prod.mk.injEq, ← List.cons_append] at h
    rw [List.append_cancel_right h.2]
  -- The comment would take the bracket.
  | case8 =>
    simp [skip] at h
    exact absurd h (hlonger .line)
  | case9 rest ih =>
    apply ih
    simpa [skip] using h
  | case10 c rest hc ih =>
    apply ih
    simpa [skip, hc] using h
  | case11 => exact absurd h hblock
  | case12 c =>
    rw [List.cons_append, List.nil_append, skip, if_neg (by simp)] at h
    exact absurd h hblock
  | case13 c d rest hclose ih =>
    rw [List.cons_append, List.cons_append, skip, if_pos hclose] at h
    exact ih h
  | case14 c d rest hclose ih =>
    rw [List.cons_append, List.cons_append, skip, if_neg hclose] at h
    exact ih h

theorem skip_error {mode : SkipMode} {s : List Char} {e : ParsingError} (h : (skip mode s).1 = some e)
    : (skip mode s).2 = [] ∨ (skip mode s).2 = ['/'] := by
  fun_induction skip mode s with
  | case1 | case6 | case7 | case8 => simp at h
  | case3 => exact .inr rfl
  | case11 | case12 => exact .inl rfl
  | case2 _ _ _ ih | case4 _ _ ih | case5 _ _ _ ih | case9 _ ih | case10 _ _ _ ih | case13 _ _ _ _ ih
  | case14 _ _ _ _ ih => exact ih h

theorem skipSpaces_ok {b b' : Buffer} {a : Unit}
    : skipSpaces.run b = (.ok a, b')
        ↔ skip .code b.rest = (none, b'.rest) ∧ b'.offset + b'.rest.length = b.offset + b.rest.length := by
  obtain ⟨offset', rest'⟩ := b'
  have hle := (skip_suffix .code b.rest).length_le
  simp only [skipSpaces]
  rcases hskip : skip .code b.rest with ⟨_ | e, rest⟩
  . rw [hskip] at hle
    dsimp only at hle ⊢
    simp only [Prod.mk.injEq, true_and, Buffer.mk.injEq]
    constructor
    . rintro ⟨hoffset, rfl⟩
      exact ⟨rfl, by omega⟩
    . rintro ⟨rfl, hoffset⟩
      exact ⟨by omega, rfl⟩
  . simp

theorem skipSpacesUnchecked_ok {b b' : Buffer} {a : Unit}
    : skipSpacesUnchecked.run b = (.ok a, b')
        ↔ (skip .code b.rest).2 = b'.rest ∧ b'.offset + b'.rest.length = b.offset + b.rest.length := by
  obtain ⟨offset', rest'⟩ := b'
  have hle := (skip_suffix .code b.rest).length_le
  simp only [skipSpacesUnchecked, ignoring, skipSpaces]
  rcases hskip : skip .code b.rest with ⟨e, rest⟩
  rw [hskip] at hle
  dsimp only at hle
  have hiff : b.offset + (b.rest.length - rest.length) = offset' ∧ rest = rest'
      ↔ rest = rest' ∧ offset' + rest'.length = b.offset + b.rest.length := by
    constructor
    . rintro ⟨hoffset, rfl⟩
      exact ⟨rfl, by omega⟩
    . rintro ⟨rfl, hoffset⟩
      exact ⟨by omega, rfl⟩
  cases e with
  | none => simpa using hiff
  | some e => simpa using hiff

theorem skipSpaces_of_before {b b' : Buffer} {a : Unit} (hrest : b'.rest ≠ ['/'])
    (h : skipSpaces.run (b.before ('}' :: after)) = (.ok a, b'.before ('}' :: after)))
    : skipSpaces.run b = (.ok a, b') := by
  rw [skipSpaces_ok] at h ⊢
  simp only [Buffer.before, List.length_append] at h
  exact ⟨skip_of_append .code b.rest b'.rest hrest h.1, by omega⟩

theorem narrow_skipSpaces : Narrow ('}' :: after) '/' skipSpaces := by
  intro b a b' hapart h
  exact skipSpaces_of_before (hapart.rest_ne (advances h).of_before) h

theorem narrow_skipSpacesUnchecked : Narrow ('}' :: after) '/' skipSpacesUnchecked := by
  intro b a b' hapart h
  have hrest := hapart.rest_ne (advances h).of_before
  rw [skipSpacesUnchecked_ok] at h ⊢
  simp only [Buffer.before, List.length_append] at h
  have hnone : (skip .code (b.rest ++ '}' :: after)).1 = none := by
    rw [Option.eq_none_iff_forall_ne_some]
    intro e herror
    rcases skip_error herror with hnil | hslash
    . rw [h.1] at hnil
      simp at hnil
    . rw [h.1, List.append_eq_singleton_iff] at hslash
      simp at hslash
  rw [skip_of_append .code b.rest b'.rest hrest (Prod.ext hnone h.1)]
  exact ⟨rfl, by omega⟩

theorem wide_skipSpaces : Wide ('}' :: after) skipSpaces := by
  intro b a b' hrest h
  rw [skipSpaces_ok] at h ⊢
  simp only [Buffer.before, List.length_append]
  obtain ⟨hskip, hnone⟩ := @skip_append_of_ne_nil after .code b.rest (by rwa [h.1])
  rw [h.1] at hskip hnone
  exact ⟨Prod.ext (hnone rfl) hskip, by omega⟩

theorem wide_skipSpacesUnchecked : Wide ('}' :: after) skipSpacesUnchecked := by
  intro b a b' hrest h
  rw [skipSpacesUnchecked_ok] at h ⊢
  simp only [Buffer.before, List.length_append]
  obtain ⟨hskip, -⟩ := @skip_append_of_ne_nil after .code b.rest (by rwa [h.1])
  rw [h.1] at hskip
  exact ⟨hskip, by omega⟩

/-! Tokens. -/

theorem exact_checkAndShift {c : Char} (hc : c ≠ '}') : Exact ('}' :: after) (checkAndShift c) :=
  exact_shiftIf (by simpa using Ne.symm hc)

theorem exact_expect {c : Char} (hc : c ≠ '}') (e : ParsingError) : Exact ('}' :: after) (expect c e) :=
  (exact_checkAndShift hc).require

theorem exact_checkStrAndShift {word : String} (hword : '}' ∉ word.toList)
    : Exact ('}' :: after) (checkStrAndShift word) :=
  exact_literal hword

theorem exact_keyword {word : String} (hword : '}' ∉ word.toList) (e : ParsingError)
    : Exact ('}' :: after) (keyword word e) :=
  (exact_checkStrAndShift hword).require

theorem exact_checkStrWithSpaceAndShift {word : String} (hword : '}' ∉ word.toList)
    : Exact ('}' :: after) (checkStrWithSpaceAndShift word) := by
  apply Exact.orElse
  . apply Exact.restoring
    exact (exact_checkStrAndShift hword).require.andThen fun _ =>
      (exact_shiftIf (by decide)).require.andThen fun _ => exact_succeed true
  . exact exact_succeed false

theorem exact_parseOctalOrHex : Exact ('}' :: after) parseOctalOrHex :=
  (exact_shiftIf (by decide)).andThen fun _ => exact_ite
    ((exact_looking (by decide)).require.andThen fun _ => exact_shiftWhile (by decide))
    (exact_shiftWhile (by decide))

theorem exact_parseDigits : Exact ('}' :: after) parseDigits :=
  (exact_shiftIf (by decide)).andThen fun _ => exact_ite
    (exact_shiftWhile (by decide))
    ((exact_checkAndShift (by decide)).andThen fun _ => exact_ite exact_parseOctalOrHex (exact_fail _))

theorem strtoll_of_ne {c : Char} (hne : c ≠ '-') (rest : Span)
    : strtoll (c :: rest) = magnitude (c :: rest) := by
  unfold strtoll
  split
  . next heq =>
    rw [List.cons.injEq] at heq
    exact absurd heq.1 hne
  . rfl

theorem magnitude_append (s : Span) : magnitude (s ++ '}' :: after) = magnitude s := by
  have hoctal (s : Span) : (s ++ '}' :: after).takeWhile isOctalDigit = s.takeWhile isOctalDigit :=
    takeWhile_append_stop (by decide) s
  have hhex (s : Span) : (s ++ '}' :: after).takeWhile isHexDigit = s.takeWhile isHexDigit :=
    takeWhile_append_stop (by decide) s
  have hdigits (s : Span) : (s ++ '}' :: after).takeWhile isDigit = s.takeWhile isDigit :=
    takeWhile_append_stop (by decide) s
  by_cases hzero : ∃ rest, s = '0' :: rest
  . obtain ⟨rest, rfl⟩ := hzero
    rcases rest with _ | ⟨x, _ | ⟨c, rest⟩⟩
    . have := hoctal []
      cases after <;> simp_all [magnitude]
    . have := hoctal [x]
      have hbrace : isHexDigit '}' = false := by decide
      simp_all [magnitude]
    . have h₁ := hoctal (x :: c :: rest)
      have h₂ := hhex (c :: rest)
      simp only [List.cons_append] at h₁ h₂ ⊢
      simp only [magnitude, h₁, h₂]
  . cases s with
    | nil => simp [magnitude, isDigit]
    | cons c rest =>
      have hne : c ≠ '0' := by
        rintro rfl
        exact hzero ⟨rest, rfl⟩
      have h := hdigits (c :: rest)
      rw [List.cons_append] at h ⊢
      rw [magnitude_of_ne hne, magnitude_of_ne hne, h]

theorem strtoll_append (s : Span) : strtoll (s ++ '}' :: after) = strtoll s := by
  by_cases hminus : ∃ rest, s = '-' :: rest
  . obtain ⟨rest, rfl⟩ := hminus
    simp only [List.cons_append, strtoll, magnitude_append]
  . cases s with
    | nil => simp [strtoll, magnitude, isDigit]
    | cons c rest =>
      have h := @magnitude_append after (c :: rest)
      rw [List.cons_append] at h ⊢
      have hne : c ≠ '-' := by
        rintro rfl
        exact hminus ⟨rest, rfl⟩
      rw [strtoll_of_ne hne, strtoll_of_ne hne, h]

theorem exact_parseIntegerLiteral : Exact ('}' :: after) parseIntegerLiteral := by
  apply Exact.restoring
  apply Exact.valued
  . exact (exact_checkAndShift (by decide)).andThen fun _ => exact_parseDigits
  . intro _ s
    simp only [intValue, strtoll_append]

theorem exact_parseUintLiteral : Exact ('}' :: after) parseUintLiteral := by
  apply Exact.restoring
  apply Exact.valued exact_parseDigits
  intro _ s
  simp only [uintValue, magnitude_append]

theorem exact_parseExponent : Exact ('}' :: after) parseExponent :=
  (exact_shiftIf (by decide)).andThen fun _ => exact_ite
    ((exact_shiftIf (by decide)).andThen fun _ => exact_shiftWhile (by decide))
    (exact_succeed ())

theorem exact_parseFloatDigits : Exact ('}' :: after) parseFloatDigits :=
  (exact_checkAndShift (by decide)).andThen fun _ => exact_ite
    ((exact_shiftWhile (by decide)).andThen fun _ => exact_parseExponent)
    ((exact_looking (by decide)).require.andThen fun _ => (exact_shiftWhile (by decide)).andThen fun _ =>
      (exact_checkAndShift (by decide)).andThen fun _ => exact_ite
        ((exact_shiftWhile (by decide)).andThen fun _ => exact_parseExponent)
        exact_parseExponent)

theorem exact_floatForm : Exact ('}' :: after) floatForm :=
  (exact_checkAndShift (by decide)).andThen fun _ =>
    (exact_checkStrAndShift (by decide)).andThen fun _ => exact_ite (exact_succeed _)
      ((exact_checkStrAndShift (by decide)).andThen fun _ => exact_ite (exact_succeed _)
        (exact_parseFloatDigits.andThen fun _ => exact_succeed _))

theorem exact_parseFloatLiteral [Libc] : Exact ('}' :: after) parseFloatLiteral := by
  apply Exact.restoring
  apply Exact.valued exact_floatForm
  intro form s
  cases form with
  | digits => simp only [floatValue, Libc.strtod_brace]
  | infinity negative => rfl
  | nan => rfl

theorem exact_parseFieldNumber : Exact ('}' :: after) parseFieldNumber :=
  exact_parseIntegerLiteral.andThen fun _ => exact_ite (exact_fail _) (exact_succeed _)

theorem exact_parseEnumValueNumber : Exact ('}' :: after) parseEnumValueNumber :=
  exact_parseIntegerLiteral.andThen fun _ => exact_ite (exact_fail _) (exact_succeed _)

theorem exact_identifierChars : Exact ('}' :: after) identifierChars :=
  (exact_shiftIf (by decide)).require.andThen fun _ => exact_shiftWhile (by decide)

theorem exact_parseIdentifier : Exact ('}' :: after) parseIdentifier :=
  exact_identifierChars.spanned

theorem exact_segmentStep (u : Unit) : Exact ('}' :: after) (segmentStep u) := by
  apply Exact.orElse
  . apply Exact.restoring
    exact (exact_expect (by decide) _).andThen fun _ => exact_identifierChars.andThen fun _ =>
      exact_succeed _
  . exact exact_succeed _

theorem progress_segmentStep : Progress segmentStep := by
  intro u b u' b' h
  obtain ⟨span, -, hcovers⟩ := segmentStep_again h
  rw [hcovers.1, List.length_append, List.length_cons]
  omega

theorem exact_parseFullIdentifier : Exact ('}' :: after) parseFullIdentifier := by
  apply Exact.restoring
  apply Exact.spanned
  exact (exact_checkAndShift (by decide)).andThen fun _ => exact_identifierChars.andThen fun _ =>
    Exact.loop progress_segmentStep exact_segmentStep ()

theorem attempt_before {α : Type} {t : List Char} {p : EntryParser α} (hp : Exact t p) (const : α → Const)
    (b : Buffer)
    : attempt p const (b.before t) = (attempt p const b).map fun (c, b') => (c, b'.before t) := by
  unfold attempt
  rw [hp b]
  rcases p.run b with ⟨e | a, b'⟩ <;> rfl

theorem exact_parseNumber [Libc] : Exact ('}' :: after) parseNumber := by
  intro b
  have hend (r : Option (Const × Buffer))
      : attemptEnd (b.before ('}' :: after)) (r.map fun (c, b') => (c, b'.before ('}' :: after)))
          = attemptEnd b r := by
    cases r <;> rfl
  have hlongest (int uint float : Option (Const × Buffer))
      : longest (b.before ('}' :: after)) (int.map fun (c, b') => (c, b'.before ('}' :: after)))
          (uint.map fun (c, b') => (c, b'.before ('}' :: after)))
          (float.map fun (c, b') => (c, b'.before ('}' :: after)))
        = (longest b int uint float).map fun (c, b') => (c, b'.before ('}' :: after)) := by
    unfold longest
    simp only [hend, Option.isSome_map]
    split
    . rfl
    . split <;> rfl
  simp only [parseNumber, attempt_before exact_parseIntegerLiteral, attempt_before exact_parseUintLiteral,
    attempt_before exact_parseFloatLiteral, hlongest]
  cases longest b (attempt parseIntegerLiteral .int b) (attempt parseUintLiteral .uint b)
    (attempt parseFloatLiteral .float b) <;> rfl

/-! String literals. -/

theorem soft_skipSpaces : Soft ('}' :: after) '/' skipSpaces :=
  ⟨narrow_skipSpaces, wide_skipSpaces⟩

theorem soft_skipSpacesUnchecked : Soft ('}' :: after) '/' skipSpacesUnchecked :=
  ⟨narrow_skipSpacesUnchecked, wide_skipSpacesUnchecked⟩

theorem solid_parseUnicodeEscape (count : Nat) : Solid ('}' :: after) '/' (parseUnicodeEscape count) := by
  induction count with
  | zero => exact (exact_succeed ()).solid
  | succ count ih =>
    apply solid_next
    . intro b a b' h
      simp at h
    . exact fun d => solid_ite ih (exact_fail _).solid

theorem solid_parseExtendedUnicodeEscape : Solid ('}' :: after) '/' parseExtendedUnicodeEscape := by
  apply Solid.andThen (exact_expect (by decide) _).solid
  intro _
  apply Solid.andThen (exact_expect (by decide) _).solid
  intro _
  apply solid_next
  . intro b a b' h
    simp at h
  . intro d
    split
    . exact solid_parseUnicodeEscape 5
    . exact (exact_expect (by decide) _).solid.andThen fun _ => solid_parseUnicodeEscape 4
    . exact (exact_fail _).solid

theorem exact_parseHexEscape : Exact ('}' :: after) parseHexEscape :=
  (exact_looking (by decide)).require.andThen fun _ => exact_shiftWhile (by decide)

theorem solid_parseEscapeSequence : Solid ('}' :: after) '/' parseEscapeSequence := by
  apply solid_next
  . intro b a b' h
    simp at h
  . intro d
    exact solid_ite exact_parseHexEscape.solid <|
      solid_ite (exact_shiftWhile (by decide)).solid <|
      solid_ite (solid_parseUnicodeEscape 4) <|
      solid_ite solid_parseExtendedUnicodeEscape <|
      solid_ite (exact_succeed ()).solid (exact_fail _).solid

theorem progress_strLitStep (close : Char) : Progress (strLitStep close) :=
  fun _ => goes_next (goes_fail _)

theorem solid_strLitStep (close : Char) (u : Unit) : Solid ('}' :: after) '/' (strLitStep close u) := by
  apply solid_next
  . intro b a b' h
    simp at h
  . intro d
    exact solid_ite (exact_succeed _).solid <|
      solid_ite (solid_parseEscapeSequence.andThen fun _ => (exact_succeed _).solid) <|
      solid_ite (exact_fail _).solid (exact_succeed _).solid

theorem solid_strLitSingle (close : Char) : Solid ('}' :: after) '/' (strLitSingle close) :=
  Solid.loop (progress_strLitStep close) (solid_strLitStep close) ()

theorem solid_quoted : Solid ('}' :: after) '/' quoted :=
  (exact_checkAndShift (by decide)).solid.andThen fun _ => solid_ite (solid_strLitSingle _) <|
    (exact_checkAndShift (by decide)).solid.andThen fun _ => solid_ite (solid_strLitSingle _)
      (exact_fail _).solid

theorem solid_parseStringLiteral : Solid ('}' :: after) '/' parseStringLiteral := by
  apply Solid.restoring
  exact solid_quoted.spanned.andThen fun _ => (exact_succeed _).solid

theorem solid_parseConstValue [Libc] : Solid ('}' :: after) '/' parseConstValue :=
  exact_parseNumber.orElse_solid <| exact_parseFullIdentifier.map.orElse_solid <|
    solid_parseStringLiteral.map.orElse_fail

/-! Options. -/

theorem exact_optionNamePart : Exact ('}' :: after) optionNamePart := by
  apply Exact.restoring
  exact (exact_checkAndShift (by decide)).andThen fun _ => exact_ite
    ((exact_checkAndShift (by decide)).andThen fun _ =>
      (exact_parseFullIdentifier.orElse (exact_fail _)).andThen fun _ => exact_expect (by decide) _)
    (exact_identifierChars.orElse (exact_fail _))

theorem progress_optionNameStep : Progress optionNameStep :=
  fun _ => goes_test shiftIf_length (goes_done _)

theorem exact_optionName : Exact ('}' :: after) optionName := by
  apply exact_optionNamePart.andThen
  intro _
  apply Exact.loop progress_optionNameStep
  intro _
  exact (exact_checkAndShift (by decide)).andThen fun _ => exact_ite
    (exact_optionNamePart.andThen fun _ => exact_succeed _) (exact_succeed _)

theorem eager_expect (c : Char) (e : ParsingError) : Eager (expect c e) :=
  eager_shiftIf _ e

theorem sure_expect {c : Char} (hc : c ≠ '}') (e : ParsingError) : Sure ('}' :: after) '/' (expect c e) :=
  (exact_expect hc e).sure (eager_expect c e)

theorem sure_semicolon {α : Type} (a : α)
    : Sure ('}' :: after) '/' ((expect ';' .semicolonExpected).andThen fun _ => succeed a) :=
  (sure_expect (by decide) _).andThen fun _ => (exact_succeed a).solid

theorem sure_optionParse [Libc] : Sure ('}' :: after) '/' optionParse := by
  apply Sure.restoring
  exact (exact_keyword (by decide) _).soft.andThen_sure fun _ =>
    soft_skipSpaces.andThen_sure fun _ => exact_optionName.spanned.soft.andThen_sure fun _ =>
    soft_skipSpaces.andThen_sure fun _ => (exact_expect (by decide) _).soft.andThen_sure fun _ =>
    soft_skipSpaces.andThen_sure fun _ => solid_parseConstValue.soft.andThen_sure fun _ =>
    soft_skipSpaces.andThen_sure fun _ => sure_semicolon _

theorem soft_optionItemParse [Libc] : Soft ('}' :: after) '/' optionItemParse := by
  apply Soft.restoring
  exact (exact_parseFullIdentifier.orElse (exact_fail _)).soft.andThen fun _ =>
    soft_skipSpaces.andThen fun _ => (exact_expect (by decide) _).soft.andThen fun _ =>
    soft_skipSpaces.andThen fun _ => solid_parseConstValue.soft.andThen fun _ =>
    (exact_succeed _).soft

theorem eager_optionItemParse [Libc] : Eager optionItemParse :=
  ((eager_parseFullIdentifier.orElse (eager_fail _)).andThen _).restoring

theorem progress_optionListStep [Libc] : Progress optionListStep :=
  fun _ => (eager_optionItemParse.andThen _).goes

theorem narrow_optionListConsume [Libc] : Narrow ('}' :: after) '/' optionListConsume := by
  have hstep (count : Nat) : Narrow ('}' :: after) '/' (optionListStep count) :=
    soft_optionItemParse.narrow.andThen fun _ => narrow_skipSpaces.andThen fun _ =>
      (exact_checkAndShift (by decide)).narrow.andThen fun _ => narrow_ite (exact_succeed _).narrow <|
        (exact_expect (by decide) _).narrow.andThen fun _ => narrow_skipSpaces.andThen fun _ =>
        (exact_succeed _).narrow
  apply Narrow.restoring
  exact exact_position.narrow.andThen fun _ => (exact_expect (by decide) _).narrow.andThen fun _ =>
    narrow_skipSpaces.andThen fun _ => (exact_checkAndShift (by decide)).narrow.andThen fun _ => narrow_ite
      (exact_position.narrow.andThen fun _ => (exact_succeed _).narrow)
      ((Narrow.loop progress_optionListStep hstep 0).andThen fun _ =>
        exact_position.narrow.andThen fun _ => (exact_succeed _).narrow)

theorem narrow_optionalOptions [Libc] : Narrow ('}' :: after) '/' optionalOptions := by
  unfold optionalOptions
  apply Narrow.andThen
  . apply Exact.narrow
    exact exact_looking (by decide)
  . intro _
    exact narrow_ite
      (narrow_optionListConsume.andThen fun _ => narrow_skipSpaces.andThen fun _ => (exact_succeed _).narrow)
      (exact_succeed _).narrow

/-! Fields. -/

theorem narrow_fieldLabel : Narrow ('}' :: after) '/' fieldLabel :=
  (exact_checkStrAndShift (by decide)).narrow.andThen fun _ => narrow_ite
    (narrow_skipSpaces.andThen fun _ => (exact_succeed _).narrow) <|
    (exact_checkStrAndShift (by decide)).narrow.andThen fun _ => narrow_ite
      (narrow_skipSpaces.andThen fun _ => (exact_succeed _).narrow) <|
      (exact_checkStrAndShift (by decide)).narrow.andThen fun _ => narrow_ite
        (narrow_skipSpaces.andThen fun _ => (exact_succeed _).narrow) (exact_succeed _).narrow

theorem sure_parseMapType : Sure ('}' :: after) '/' parseMapType := by
  have hname := (@exact_parseFullIdentifier after).orElse (exact_fail .invalidFieldValue)
  apply Sure.restoring
  exact (exact_keyword (by decide) _).soft.andThen_sure fun _ =>
    (exact_expect (by decide) _).soft.andThen_sure fun _ =>
    soft_skipSpacesUnchecked.andThen_sure fun _ => hname.soft.andThen_sure fun _ =>
    soft_skipSpacesUnchecked.andThen_sure fun _ => (exact_expect (by decide) _).soft.andThen_sure fun _ =>
    soft_skipSpacesUnchecked.andThen_sure fun _ => hname.soft.andThen_sure fun _ =>
    soft_skipSpacesUnchecked.andThen_sure fun _ => (sure_expect (by decide) _).andThen fun _ =>
    (exact_succeed _).solid

theorem narrow_parseFieldType : Narrow ('}' :: after) '/' parseFieldType :=
  sure_parseMapType.narrow.orElse exact_parseFullIdentifier.map.narrow.orElse_fail
    (restores_restoring _) (sure_parseMapType.firm.excludes _)

theorem narrow_fieldParse [Libc] : Narrow ('}' :: after) '/' fieldParse := by
  apply Narrow.restoring
  exact narrow_fieldLabel.andThen fun _ => narrow_parseFieldType.andThen fun _ =>
    narrow_skipSpaces.andThen fun _ => exact_parseIdentifier.narrow.andThen fun _ =>
    narrow_skipSpaces.andThen fun _ => (exact_expect (by decide) _).narrow.andThen fun _ =>
    narrow_skipSpaces.andThen fun _ => exact_parseFieldNumber.narrow.andThen fun _ =>
    narrow_skipSpaces.andThen fun _ => narrow_optionalOptions.andThen fun _ => (sure_semicolon _).narrow

theorem narrow_oneofFieldParse [Libc] : Narrow ('}' :: after) '/' oneofFieldParse := by
  apply Narrow.restoring
  exact exact_parseFullIdentifier.narrow.andThen fun _ =>
    narrow_skipSpaces.andThen fun _ => exact_parseIdentifier.narrow.andThen fun _ =>
    narrow_skipSpaces.andThen fun _ => (exact_expect (by decide) _).narrow.andThen fun _ =>
    narrow_skipSpaces.andThen fun _ => exact_parseFieldNumber.narrow.andThen fun _ =>
    narrow_skipSpaces.andThen fun _ => narrow_optionalOptions.andThen fun _ => (sure_semicolon _).narrow

theorem narrow_enumFieldParse [Libc] : Narrow ('}' :: after) '/' enumFieldParse := by
  apply Narrow.restoring
  exact exact_parseIdentifier.narrow.andThen fun _ =>
    narrow_skipSpaces.andThen fun _ => (exact_expect (by decide) _).narrow.andThen fun _ =>
    narrow_skipSpaces.andThen fun _ => exact_parseEnumValueNumber.narrow.andThen fun _ =>
    narrow_skipSpaces.andThen fun _ => narrow_optionalOptions.andThen fun _ => (sure_semicolon _).narrow

/-! Reserved names and numbers, and extensions. -/

def rangeTo : EntryParser Bool :=
  restoring do
    skipSpacesUnchecked
    (checkStrWithSpaceAndShift "to").require .unexpectedToken
    pure true

def rangeEnd (start : Int) (found : Bool) : EntryParser Unit := do
  if found then
    if ← checkStrAndShift "max" then
      pure ()
    else
      let stop ← parseIntegerLiteral
      if stop < 0 ∨ stop > 2 ^ 31 - 1 ∨ stop < start then
        fail .invalidExtensionsRange
      else
        pure ()
  else
    pure ()

theorem parseRange_eq
    : parseRange = restoring (parseIntegerLiteral.andThen fun start =>
        if start < 0 ∨ start > 2 ^ 31 - 1 then
          fail .invalidExtensionsRange
        else
          (rangeTo.orElse (succeed false)).andThen (rangeEnd start)) :=
  rfl

theorem exact_rangeEnd (start : Int) (found : Bool) : Exact ('}' :: after) (rangeEnd start found) :=
  exact_ite
    ((exact_checkStrAndShift (by decide)).andThen fun _ => exact_ite (exact_succeed ())
      (exact_parseIntegerLiteral.andThen fun _ => exact_ite (exact_fail _) (exact_succeed ())))
    (exact_succeed ())

theorem exact_toKeyword
    : Exact ('}' :: after) ((checkStrWithSpaceAndShift "to").require .unexpectedToken) :=
  (exact_checkStrWithSpaceAndShift (by decide)).require

theorem eager_toKeyword : Eager ((checkStrWithSpaceAndShift "to").require .unexpectedToken) := by
  intro b a b' h
  have h := require_ok.mp h
  rcases orElse_ok h with h | ⟨_, _, -, h⟩
  . obtain ⟨_, b₁, hword, hrest⟩ := andThen_ok.mp (restoring_ok.mp h)
    have hword := eager_keyword (by decide) _ _ _ _ hword
    have := (advances hrest).length_le
    omega
  . simp at h

theorem sure_rangeTo : Sure ('}' :: after) '/' rangeTo := by
  apply Sure.restoring
  exact soft_skipSpacesUnchecked.andThen_sure fun _ => (exact_toKeyword.sure eager_toKeyword).andThen fun _ =>
    (exact_succeed _).solid

theorem narrow_parseRange : Narrow ('}' :: after) '/' parseRange := by
  rw [parseRange_eq]
  apply Narrow.restoring
  apply Narrow.andThen exact_parseIntegerLiteral.narrow
  intro start
  apply narrow_ite (exact_fail _).narrow
  apply Narrow.andThen
  . exact sure_rangeTo.narrow.orElse (exact_succeed false).narrow (restores_restoring _)
      (sure_rangeTo.firm.excludes _)
  . exact fun found => (exact_rangeEnd start found).narrow

/--
The word of a range is looked for in vain, where something else comes behind the spaces.
-/
theorem rangeTo_before {b b₁ b₂ b' : Buffer} {found : Bool} {start : Int}
    (hto : (rangeTo.orElse (succeed false)).run b = (.ok found, b₁))
    (hend : (rangeEnd start found).run b₁ = (.ok (), b₂)) (hspaces : skipSpaces.run b₂ = (.ok (), b'))
    (hrest : b'.rest ≠ [])
    : (rangeTo.orElse (succeed false)).run (b.before ('}' :: after)) = (.ok found, b₁.before ('}' :: after)) := by
  rcases hrun : rangeTo.run b with ⟨e | x, c⟩
  . rw [orElse_of_error hrun, (restoring_error hrun).1] at hto
    simp only [succeed_run, Prod.mk.injEq, Except.ok.injEq] at hto
    obtain ⟨rfl, rfl⟩ := hto
    simp only [rangeEnd, Bool.false_eq_true, if_false, pure_eq, succeed_run, Prod.mk.injEq, true_and] at hend
    subst hend
    have hunchecked : skipSpacesUnchecked.run b = (.ok (), b') := by
      obtain ⟨hskip, hoffset⟩ := skipSpaces_ok.mp hspaces
      exact skipSpacesUnchecked_ok.mpr ⟨by rw [hskip], hoffset⟩
    have hfull := @wide_skipSpacesUnchecked after _ _ _ hrest hunchecked
    rcases hrun' : rangeTo.run (b.before ('}' :: after)) with ⟨e' | x, c'⟩
    . rw [orElse_of_error hrun', (restoring_error hrun').1]
      rfl
    . -- the word would also be found in the clamped buffer
      obtain ⟨_, c₁, hskip, hword⟩ := andThen_ok.mp (restoring_ok.mp hrun')
      obtain ⟨_, c₂, hword, -⟩ := andThen_ok.mp hword
      rw [hfull, Prod.mk.injEq] at hskip
      rw [← hskip.2, exact_toKeyword, Prod.mk.injEq] at hword
      have hclamped : rangeTo.run b = (.ok true, _) :=
        restoring_ok.mpr (andThen_ok.mpr ⟨(), b', hunchecked, andThen_ok.mpr ⟨_, _, Prod.ext hword.1 rfl, rfl⟩⟩)
      rw [hclamped] at hrun
      simp at hrun
  . rw [orElse_of_ok hrun, Prod.mk.injEq, Except.ok.injEq] at hto
    obtain ⟨rfl, rfl⟩ := hto
    exact orElse_of_ok (sure_rangeTo.firm _ _ _ hrun)

theorem soft_parseRange : Soft ('}' :: after) '/' (parseRange.andThen fun _ => skipSpaces) where
  narrow := narrow_parseRange.andThen fun _ => narrow_skipSpaces
  wide := by
    intro b a b' hrest h
    obtain ⟨_, b₂, hrange, hspaces⟩ := andThen_ok.mp h
    rw [parseRange_eq] at hrange ⊢
    obtain ⟨start, b₀, hstart, hrange⟩ := andThen_ok.mp (restoring_ok.mp hrange)
    have hstart := exact_parseIntegerLiteral.firm (t := '}' :: after) _ _ _ hstart
    split at hrange
    . simp at hrange
    . next hbounds =>
      obtain ⟨found, b₁, hto, hend⟩ := andThen_ok.mp hrange
      apply andThen_ok.mpr
      refine ⟨(), b₂.before _, ?_, wide_skipSpaces _ _ _ hrest hspaces⟩
      apply restoring_ok.mpr
      apply andThen_ok.mpr
      refine ⟨start, _, hstart, ?_⟩
      rw [if_neg hbounds]
      apply andThen_ok.mpr
      exact ⟨found, _, rangeTo_before hto hend hspaces hrest, (exact_rangeEnd start found).firm _ _ _ hend⟩

theorem progress_listStep (item : EntryParser Unit) : Progress (listStep item) :=
  fun _ => goes_test shiftIf_length (goes_done _)

theorem soft_commaList {item : EntryParser Unit}
    (hitem : Soft ('}' :: after) '/' (item.andThen fun _ => skipSpaces))
    : Soft ('}' :: after) '/' (commaList item) := by
  have hstep (count : Nat) : Soft ('}' :: after) '/' (listStep item count) :=
    (exact_checkAndShift (by decide)).soft.andThen fun _ => soft_ite
      (soft_skipSpaces.andThen fun _ => hitem.pair fun _ => (exact_succeed _).soft) (exact_succeed _).soft
  exact hitem.pair fun _ => Soft.loop (progress_listStep item) hstep 1

theorem sure_extensionsParse : Sure ('}' :: after) '/' extensionsParse := by
  apply Sure.restoring
  exact (exact_keyword (by decide) _).soft.andThen_sure fun _ => soft_skipSpaces.andThen_sure fun _ =>
    (soft_commaList soft_parseRange).andThen_sure fun _ => sure_semicolon _

theorem sure_reservedParse : Sure ('}' :: after) '/' reservedParse := by
  have hstring : Soft ('}' :: after) '/'
      ((parseStringLiteral *> pure () : EntryParser Unit).andThen fun _ => skipSpaces) :=
    (solid_parseStringLiteral.andThen fun _ => (exact_succeed ()).solid).soft.andThen fun _ => soft_skipSpaces
  apply Sure.restoring
  apply Soft.andThen_sure (exact_keyword (by decide) _).soft
  intro _
  apply soft_skipSpaces.andThen_sure
  intro _
  apply Soft.andThen_sure
  . exact (exact_looking (by decide)).soft
  . intro names
    dsimp only
    split
    . exact (soft_commaList hstring).andThen_sure fun _ => sure_semicolon _
    . exact (soft_commaList soft_parseRange).andThen_sure fun _ => sure_semicolon _

/-! Bodies that are skipped. -/

theorem progress_skipStringStep (quote : Char) : Progress (skipStringStep quote) :=
  fun _ => goes_next (goes_fail _)

theorem progress_skipBodyStep : Progress skipBodyStep :=
  fun _ => goes_next (goes_fail _)

/--
A string in a body that is skipped. What comes behind a backslash is not looked at.
-/
theorem solid_skipString (quote : Char) : Solid ('}' :: after) '/' (loop (skipStringStep quote) ()) where
  narrow := by
    apply Narrow.loop (progress_skipStringStep quote)
    intro _
    apply narrow_next.andThen
    intro x
    cases x with
    | none => exact (exact_fail _).narrow
    | some c =>
      exact narrow_ite (exact_succeed _).narrow <| narrow_ite
        (narrow_next.andThen fun _ => (exact_succeed _).narrow) (exact_succeed _).narrow
  firm := by
    apply firm_loop (progress_skipStringStep quote)
    . intro _
      apply wide_next.andThen
      intro x
      cases x with
      | none => exact (exact_fail _).wide
      | some c =>
        exact wide_ite (exact_succeed _).wide <| wide_ite
          (wide_next.andThen fun _ => (exact_succeed _).wide) (exact_succeed _).wide
    . rintro _ ⟨offset, rest⟩ _ b' h
      obtain ⟨x, b₁, hnext, h⟩ := andThen_ok.mp h
      cases rest with
      | nil =>
        simp only [next, Prod.mk.injEq, Except.ok.injEq] at hnext
        obtain ⟨rfl, rfl⟩ := hnext
        simp at h
      | cons c rest =>
        simp only [next, Prod.mk.injEq, Except.ok.injEq] at hnext
        obtain ⟨rfl, rfl⟩ := hnext
        apply andThen_ok.mpr
        refine ⟨some c, ⟨offset + 1, rest ++ '}' :: after⟩, rfl, ?_⟩
        dsimp only at h ⊢
        split at h
        . next hquote =>
          rw [if_pos hquote]
          exact (exact_succeed _).firm _ _ _ h
        . split at h
          . obtain ⟨_, _, -, h⟩ := andThen_ok.mp h
            simp at h
          . simp at h
    . intro _ b a b' h
      obtain ⟨x, b₁, hnext, h⟩ := andThen_ok.mp h
      obtain ⟨offset, rest⟩ := b
      cases rest with
      | nil =>
        simp only [next, Prod.mk.injEq, Except.ok.injEq] at hnext
        obtain ⟨rfl, rfl⟩ := hnext
        simp at h
      | cons c rest =>
        simp only [next, Prod.mk.injEq, Except.ok.injEq] at hnext
        obtain ⟨rfl, rfl⟩ := hnext
        have := (advances h).length_le
        simp only [List.length_cons] at this ⊢
        omega

theorem solid_skipBodyStep (depth : Nat) : Solid ('}' :: after) '/' (skipBodyStep depth) := by
  apply solid_next
  . intro b a b' h
    simp at h
  . intro d
    apply solid_ite (exact_succeed _).solid
    apply solid_ite
    . cases depth <;> exact (exact_succeed _).solid
    . apply solid_ite
      . exact (solid_skipString d).andThen fun _ => (exact_succeed _).solid
      . exact (exact_succeed _).solid

theorem solid_skipBody : Solid ('}' :: after) '/' skipBody :=
  Solid.loop progress_skipBodyStep solid_skipBodyStep 0

theorem sure_groupParse : Sure ('}' :: after) '/' groupParse := by
  apply Sure.restoring
  exact (exact_checkStrAndShift (by decide)).soft.andThen_sure fun _ =>
    (exact_checkStrAndShift (by decide)).soft.andThen_sure fun _ =>
    (exact_checkStrAndShift (by decide)).soft.andThen_sure fun _ => soft_skipSpaces.andThen_sure fun _ =>
    (exact_keyword (by decide) _).soft.andThen_sure fun _ => soft_skipSpaces.andThen_sure fun _ =>
    exact_parseIdentifier.soft.andThen_sure fun _ => soft_skipSpaces.andThen_sure fun _ =>
    (exact_expect (by decide) _).soft.andThen_sure fun _ => soft_skipSpaces.andThen_sure fun _ =>
    exact_parseIntegerLiteral.soft.andThen_sure fun _ => soft_skipSpaces.andThen_sure fun _ =>
    (sure_expect (by decide) _).andThen fun _ => solid_skipBody

end Gremlin
