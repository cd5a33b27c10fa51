import Gremlin.Parser.Identifiers

/-!
This module contains what the parsers of numbers take of a text: the longest literal of their kind that
it begins with.
-/

namespace Gremlin

open Text Parser Buffer

/-! Runs of characters. -/

theorem takeWhile_run {test : Char → Bool} {digits rest : Span} (hdigits : ∀ c ∈ digits, test c = true)
    (hrest : ∀ c ∈ rest.head?, test c = false)
    : (digits ++ rest).takeWhile test = digits ∧ (digits ++ rest).dropWhile test = rest := by
  rw [List.takeWhile_append_of_pos hdigits, List.dropWhile_append_of_pos hdigits]
  cases rest with
  | nil => simp
  | cons c rest =>
    have : test c = false := hrest c rfl
    simp [this]

theorem head_dropWhile {test : Char → Bool} (text : Span)
    : ∀ c ∈ (text.dropWhile test).head?, test c = false := by
  intro c hc
  have hne : text.dropWhile test ≠ [] := by
    rintro h
    simp [h] at hc
  have := List.head_dropWhile_not test hne
  rw [List.head?_eq_some_head hne, Option.mem_some_iff] at hc
  rwa [hc] at this

/-! Integers. -/

/--
A decimal, an octal or a hexadecimal literal and its value.
-/
inductive IsInteger : Span → Nat → Prop where
  | decimal {c : Char} {digits : Span} (hc : ('1' ≤ c && c ≤ '9') = true) (h : ∀ d ∈ digits, isDigit d = true)
    : IsInteger (c :: digits) (digitsValue 10 (c :: digits))
  | octal {digits : Span} (h : ∀ d ∈ digits, isOctalDigit d = true)
    : IsInteger ('0' :: digits) (digitsValue 8 digits)
  | hex {x c : Char} {digits : Span} (hx : x = 'x' ∨ x = 'X') (h : ∀ d ∈ c :: digits, isHexDigit d = true)
    : IsInteger ('0' :: x :: c :: digits) (digitsValue 16 (c :: digits))

/--
The characters that numbers are made of, their signs apart.
-/
def canContinueNumber (c : Char) : Bool :=
  isHexDigit c || c = 'x' || c = 'X' || c = '.'

/--
What `parseDigits` goes over and what it leaves.
-/
def scanDigits (text : Span) : Option (Span × Span) :=
  match text with
  | [] => none
  | c :: rest =>
    if '1' ≤ c && c ≤ '9' then
      some (c :: rest.takeWhile isDigit, rest.dropWhile isDigit)
    else if c = '0' then
      match rest with
      | [] => some ([c], [])
      | x :: rest' =>
        if x = 'x' || x = 'X' then
          if rest'.head?.any isHexDigit then
            some (c :: x :: rest'.takeWhile isHexDigit, rest'.dropWhile isHexDigit)
          else
            none
        else
          some (c :: rest.takeWhile isOctalDigit, rest.dropWhile isOctalDigit)
    else
      none

theorem shiftIf_cons {test : Char → Bool} (offset : Nat) (c : Char) (rest : Span)
    : (shiftIf test : EntryParser Bool).run ⟨offset, c :: rest⟩
        = if test c then (.ok true, ⟨offset + 1, rest⟩) else (.ok false, ⟨offset, c :: rest⟩) :=
  rfl

theorem parseOctalOrHex_cons (offset : Nat) (x : Char) (rest : Span)
    : parseOctalOrHex.run ⟨offset, x :: rest⟩
        = if x = 'x' || x = 'X' then
            if rest.head?.any isHexDigit then
              (.ok (), ⟨offset + 1 + (rest.takeWhile isHexDigit).length, rest.dropWhile isHexDigit⟩)
            else
              (.error .invalidIntegerLiteral, ⟨offset + 1, rest⟩)
          else
            (.ok (), ⟨offset + ((x :: rest).takeWhile isOctalDigit).length, (x :: rest).dropWhile isOctalDigit⟩) := by
  simp only [parseOctalOrHex, bind_eq, andThen, shiftIf_cons]
  by_cases hx : (x = 'x' || x = 'X') = true
  . simp only [hx, if_true]
    simp only [require, looking, andThen]
    by_cases hhex : rest.head?.any isHexDigit = true
    . simp [hhex, shiftWhile]
    . simp [hhex]
  . simp only [hx]
    rfl

theorem checkAndShift_cons (expected : Char) (offset : Nat) (c : Char) (rest : Span)
    : (checkAndShift expected).run ⟨offset, c :: rest⟩
        = if c = expected then (.ok true, ⟨offset + 1, rest⟩) else (.ok false, ⟨offset, c :: rest⟩) := by
  unfold checkAndShift
  rw [shiftIf_cons]
  simp

theorem parseDigits_run (offset : Nat) (text : Span)
    : match scanDigits text with
      | some (taken, rest) => parseDigits.run ⟨offset, text⟩ = (.ok (), ⟨offset + taken.length, rest⟩)
      | none => ∃ b, parseDigits.run ⟨offset, text⟩ = (.error .invalidIntegerLiteral, b) := by
  cases text with
  | nil => exact ⟨_, rfl⟩
  | cons c rest =>
    simp only [scanDigits, parseDigits, bind_eq, andThen, shiftIf_cons]
    by_cases hc : ('1' ≤ c && c ≤ '9') = true
    . simp only [hc, if_true, shiftWhile, List.length_cons]
      rw [Nat.add_assoc, Nat.add_comm 1]
    . simp only [hc, checkAndShift_cons, Bool.false_eq_true, if_false]
      by_cases h0 : c = '0'
      . simp only [h0, if_true]
        cases rest with
        | nil => rfl
        | cons x rest =>
          rw [parseOctalOrHex_cons]
          by_cases hx : (x = 'x' || x = 'X') = true
          . simp only [hx, if_true]
            by_cases hhex : rest.head?.any isHexDigit = true
            . simp only [hhex, if_true, List.length_cons]
              congr 2
              omega
            . simp only [hhex]
              exact ⟨_, rfl⟩
          . simp only [hx, Bool.false_eq_true, if_false, List.length_cons]
            congr 2
            omega
      . simp only [h0, if_false]
        exact ⟨_, rfl⟩

theorem isDigit_of_octal {c : Char} (h : isOctalDigit c = true) : isDigit c = true := by
  simp only [isOctalDigit, isDigit, Bool.and_eq_true, decide_eq_true_eq] at h ⊢
  exact ⟨h.1, Char.le_trans h.2 (by decide)⟩

theorem canContinueNumber_digit {c : Char} (h : canContinueNumber c = false)
    : isHexDigit c = false ∧ isDigit c = false ∧ isOctalDigit c = false ∧ c ≠ 'x' ∧ c ≠ 'X' := by
  simp only [canContinueNumber, Bool.or_eq_false_iff, decide_eq_false_iff_not] at h
  obtain ⟨⟨⟨hhex, hx⟩, hX⟩, -⟩ := h
  have hdigit : isDigit c = false := by
    simp only [isHexDigit, Bool.or_eq_false_iff] at hhex
    exact hhex.1.1
  refine ⟨hhex, hdigit, ?_, hx, hX⟩
  by_contra hoctal
  rw [Bool.not_eq_false] at hoctal
  rw [isDigit_of_octal hoctal] at hdigit
  simp at hdigit

theorem isDigit_of_nonzero {c : Char} (h : ('1' ≤ c && c ≤ '9') = true) : isDigit c = true := by
  simp only [isDigit, Bool.and_eq_true, decide_eq_true_eq] at h ⊢
  exact ⟨Char.le_trans (by decide) h.1, h.2⟩

theorem isOctalDigit_ne_x {c : Char} (h : isOctalDigit c = true) : c ≠ 'x' ∧ c ≠ 'X' := by
  constructor <;> rintro rfl <;> simp [isOctalDigit] at h

theorem magnitude_decimal {c : Char} (hc : ('1' ≤ c && c ≤ '9') = true) (rest : Span)
    : magnitude (c :: rest) = digitsValue 10 ((c :: rest).takeWhile isDigit) := by
  apply magnitude_of_ne
  rintro rfl
  simp at hc

theorem magnitude_hex {x : Char} (hx : x = 'x' ∨ x = 'X') {c : Char} (hc : isHexDigit c = true) (rest : Span)
    : magnitude ('0' :: x :: c :: rest) = digitsValue 16 ((c :: rest).takeWhile isHexDigit) := by
  unfold magnitude
  simp [hx, hc]

theorem magnitude_octal {rest : Span} (h : ∀ x ∈ rest.head?, x ≠ 'x' ∧ x ≠ 'X')
    : magnitude ('0' :: rest) = digitsValue 8 (rest.takeWhile isOctalDigit) := by
  rcases rest with _ | ⟨x, _ | ⟨c, rest⟩⟩
  . rfl
  . rfl
  . have := h x rfl
    unfold magnitude
    simp [this]

theorem scanDigits_append {digits rest : Span} {n : Nat} (h : IsInteger digits n)
    (hrest : ∀ c ∈ rest.head?, canContinueNumber c = false)
    : scanDigits (digits ++ rest) = some (digits, rest) ∧ magnitude (digits ++ rest) = n := by
  cases h with
  | @decimal c digits hc hdigits =>
    have hhead : ∀ d ∈ rest.head?, isDigit d = false := fun d hd => (canContinueNumber_digit (hrest d hd)).2.1
    have hcdigit : isDigit c = true := isDigit_of_nonzero hc
    obtain ⟨htake, hdrop⟩ := takeWhile_run hdigits hhead
    rw [List.cons_append, magnitude_decimal hc, List.takeWhile_cons, if_pos hcdigit, htake]
    simp only [scanDigits, hc, if_true, htake, hdrop, and_self]
  | @octal digits hdigits =>
    have hhead : ∀ d ∈ rest.head?, isOctalDigit d = false :=
      fun d hd => (canContinueNumber_digit (hrest d hd)).2.2.1
    obtain ⟨htake, hdrop⟩ := takeWhile_run hdigits hhead
    have hx : ∀ x ∈ (digits ++ rest).head?, x ≠ 'x' ∧ x ≠ 'X' := by
      intro x hx
      cases digits with
      | nil => exact (canContinueNumber_digit (hrest x hx)).2.2.2
      | cons d digits =>
        obtain rfl : d = x := by simpa using hx
        exact isOctalDigit_ne_x (hdigits d List.mem_cons_self)
    rw [List.cons_append, magnitude_octal hx, htake]
    refine ⟨?_, rfl⟩
    cases htext : digits ++ rest with
    | nil =>
      obtain ⟨rfl, rfl⟩ := List.append_eq_nil_iff.mp htext
      rfl
    | cons x text =>
      rw [htext] at hx htake hdrop
      have := hx x rfl
      simp [scanDigits, this, htake, hdrop]
  | @hex x c digits hx hdigits =>
    have hhead : ∀ d ∈ rest.head?, isHexDigit d = false := fun d hd => (canContinueNumber_digit (hrest d hd)).1
    obtain ⟨htake, hdrop⟩ := takeWhile_run hdigits hhead
    have hc : isHexDigit c = true := hdigits c List.mem_cons_self
    rw [List.cons_append] at htake hdrop
    rw [List.cons_append, List.cons_append, List.cons_append, magnitude_hex hx hc, htake]
    refine ⟨?_, rfl⟩
    simp [scanDigits, hx, hc, htake, hdrop]

theorem scanDigits_some {text taken rest : Span} (h : scanDigits text = some (taken, rest))
    : text = taken ++ rest ∧ IsInteger taken (magnitude text) := by
  cases text with
  | nil => simp [scanDigits] at h
  | cons c text =>
    unfold scanDigits at h
    dsimp only at h
    split at h
    . next hc =>
      simp only [Option.some.injEq, Prod.mk.injEq] at h
      obtain ⟨rfl, rfl⟩ := h
      have hcdigit : isDigit c = true := isDigit_of_nonzero hc
      rw [magnitude_decimal hc, List.takeWhile_cons, if_pos hcdigit, List.cons_append,
        List.takeWhile_append_dropWhile]
      exact ⟨rfl, .decimal hc fun d hd => List.mem_takeWhile_imp hd⟩
    . split at h
      . next h0 =>
        subst h0
        split at h
        . simp only [Option.some.injEq, Prod.mk.injEq] at h
          obtain ⟨rfl, rfl⟩ := h
          exact ⟨rfl, .octal (by simp)⟩
        . next x text =>
          split at h
          . next hx =>
            rw [Bool.or_eq_true, decide_eq_true_eq, decide_eq_true_eq] at hx
            split at h
            . next hhex =>
              cases text with
              | nil => simp at hhex
              | cons c text =>
                have hc : isHexDigit c = true := by simpa using hhex
                simp only [Option.some.injEq, Prod.mk.injEq] at h
                obtain ⟨rfl, rfl⟩ := h
                rw [magnitude_hex hx hc, List.cons_append, List.cons_append,
                  List.takeWhile_append_dropWhile, List.takeWhile_cons, if_pos hc]
                refine ⟨rfl, .hex hx ?_⟩
                rw [List.forall_mem_cons]
                exact ⟨hc, fun d hd => List.mem_takeWhile_imp hd⟩
            . simp at h
          . next hx =>
            rw [Bool.or_eq_true, decide_eq_true_eq, decide_eq_true_eq, not_or] at hx
            simp only [Option.some.injEq, Prod.mk.injEq] at h
            obtain ⟨rfl, rfl⟩ := h
            have hhead : ∀ d ∈ (x :: text).head?, d ≠ 'x' ∧ d ≠ 'X' := by
              intro d hd
              obtain rfl : x = d := by simpa using hd
              exact hx
            rw [magnitude_octal hhead, List.cons_append, List.takeWhile_append_dropWhile]
            exact ⟨rfl, .octal fun d hd => List.mem_takeWhile_imp hd⟩
      . simp at h

/-! Floats. -/

/--
What `parseExponent` goes over and what it leaves.
-/
def scanExponent (text : Span) : Span × Span :=
  match text with
  | [] => ([], [])
  | e :: rest =>
    if e = 'e' || e = 'E' then
      match rest with
      | [] => ([e], [])
      | sign :: rest' =>
        if sign = '+' || sign = '-' then
          (e :: sign :: rest'.takeWhile isDigit, rest'.dropWhile isDigit)
        else
          (e :: rest.takeWhile isDigit, rest.dropWhile isDigit)
    else
      ([], text)

/--
What follows the whole part: a fraction and an exponent, if they are there.
-/
def scanFraction (text : Span) : Span × Span :=
  match text with
  | [] => ([], [])
  | c :: rest =>
    if c = '.' then
      let (taken, rest') := scanExponent (rest.dropWhile isDigit)
      (c :: (rest.takeWhile isDigit ++ taken), rest')
    else
      scanExponent text

/--
What `parseFloatDigits` goes over and what it leaves.
-/
def scanFloat (text : Span) : Option (Span × Span) :=
  if text.head?.any fun c => isDigit c || c = '.' then
    let (taken, rest) := scanFraction (text.dropWhile isDigit)
    some (text.takeWhile isDigit ++ taken, rest)
  else
    none

theorem parseExponent_run (offset : Nat) (text : Span)
    : parseExponent.run ⟨offset, text⟩
        = (.ok (), ⟨offset + (scanExponent text).1.length, (scanExponent text).2⟩) := by
  cases text with
  | nil => rfl
  | cons e rest =>
    simp only [parseExponent, scanExponent, bind_eq, andThen, shiftIf_cons]
    by_cases he : (e = 'e' || e = 'E') = true
    . simp only [he, if_true]
      cases rest with
      | nil => rfl
      | cons sign rest =>
        rw [shiftIf_cons]
        by_cases hsign : (sign = '+' || sign = '-') = true
        . simp only [hsign, if_true, shiftWhile, List.length_cons]
          congr 2
          omega
        . simp only [hsign, Bool.false_eq_true, if_false, shiftWhile, List.length_cons]
          congr 2
          omega
    . simp only [he]
      rfl

theorem scanFraction_run (offset : Nat) (text : Span)
    : ((checkAndShift '.').andThen fun point =>
        if point then (shiftWhile isDigit).andThen fun _ => parseExponent else parseExponent).run ⟨offset, text⟩
        = (.ok (), ⟨offset + (scanFraction text).1.length, (scanFraction text).2⟩) := by
  cases text with
  | nil => rfl
  | cons c rest =>
    simp only [andThen, checkAndShift_cons, scanFraction]
    by_cases hpoint : c = '.'
    . simp only [hpoint, if_true, shiftWhile, parseExponent_run, List.length_cons, List.length_append]
      congr 2
      omega
    . simp only [hpoint, Bool.false_eq_true, if_false, parseExponent_run]

theorem parseFloatDigits_run (offset : Nat) (text : Span)
    : match scanFloat text with
      | some (taken, rest) => parseFloatDigits.run ⟨offset, text⟩ = (.ok (), ⟨offset + taken.length, rest⟩)
      | none => ∃ b, parseFloatDigits.run ⟨offset, text⟩ = (.error .invalidFloat, b) := by
  cases text with
  | nil => exact ⟨_, rfl⟩
  | cons c rest =>
    by_cases hpoint : c = '.'
    . subst hpoint
      have hdigit : isDigit '.' = false := by decide
      have hscan : scanFloat ('.' :: rest) = some (scanFraction ('.' :: rest)) := by
        simp [scanFloat, hdigit]
      have hrun := scanFraction_run offset ('.' :: rest)
      rw [hscan]
      simp only [parseFloatDigits, bind_eq, andThen, checkAndShift_cons, if_true] at hrun ⊢
      exact hrun
    . by_cases hdigit : isDigit c = true
      . have hscan : scanFloat (c :: rest) = some ((c :: rest).takeWhile isDigit
            ++ (scanFraction ((c :: rest).dropWhile isDigit)).1,
            (scanFraction ((c :: rest).dropWhile isDigit)).2) := by
          simp [scanFloat, hdigit]
        have hrun := scanFraction_run (offset + ((c :: rest).takeWhile isDigit).length)
          ((c :: rest).dropWhile isDigit)
        rw [hscan]
        have hskip : ((looking isDigit : EntryParser Bool).require ParsingError.invalidFloat).run ⟨offset, c :: rest⟩
            = (.ok (), ⟨offset, c :: rest⟩) := by
          simp [require, andThen, looking, hdigit]
        have hdot : (checkAndShift '.').run ⟨offset, c :: rest⟩ = (.ok false, ⟨offset, c :: rest⟩) := by
          rw [checkAndShift_cons, if_neg hpoint]
        have hdigits : (shiftWhile isDigit : EntryParser Unit).run ⟨offset, c :: rest⟩
            = (.ok (), ⟨offset + ((c :: rest).takeWhile isDigit).length, (c :: rest).dropWhile isDigit⟩) :=
          rfl
        simp only [parseFloatDigits, bind_eq]
        rw [andThen_of_ok hdot, if_neg Bool.false_ne_true, andThen_of_ok hskip, andThen_of_ok hdigits]
        refine hrun.trans ?_
        rw [List.length_append, Nat.add_assoc]
      . have hscan : scanFloat (c :: rest) = none := by simp [scanFloat, hdigit, hpoint]
        rw [hscan]
        simp only [parseFloatDigits, bind_eq, andThen, checkAndShift_cons, hpoint, require, looking]
        simp [hdigit]

inductive IsExponent : Span → Prop where
  | mk {e : Char} {sign digits : Span} (he : e = 'e' ∨ e = 'E') (hsign : sign = [] ∨ sign = ['+'] ∨ sign = ['-'])
    (hne : digits ≠ []) (h : ∀ d ∈ digits, isDigit d = true) : IsExponent (e :: (sign ++ digits))

/--
A float with a point, an exponent or both, and with digits in each of its parts that needs them.
-/
inductive IsFloat : Span → Prop where
  | point {whole fraction exponent : Span} (hne : whole ≠ [] ∨ fraction ≠ [])
    (hwhole : ∀ d ∈ whole, isDigit d = true) (hfraction : ∀ d ∈ fraction, isDigit d = true)
    (hexponent : exponent = [] ∨ IsExponent exponent) : IsFloat (whole ++ '.' :: (fraction ++ exponent))
  | exponent {whole exponent : Span} (hne : whole ≠ []) (hwhole : ∀ d ∈ whole, isDigit d = true)
    (hexponent : IsExponent exponent) : IsFloat (whole ++ exponent)

theorem scanExponent_append {exponent rest : Span} (h : exponent = [] ∨ IsExponent exponent)
    (hrest : ∀ c ∈ rest.head?, isIdentifierChar c = false) : scanExponent (exponent ++ rest) = (exponent, rest) := by
  have hdigit : ∀ c ∈ rest.head?, isDigit c = false := by
    intro c hc
    have := hrest c hc
    simp only [isIdentifierChar, Bool.or_eq_false_iff] at this
    exact this.1.1
  rcases h with rfl | h
  . cases rest with
    | nil => rfl
    | cons c rest =>
      have := hrest c rfl
      have hne : (c = 'e' || c = 'E') = false := by
        rw [Bool.or_eq_false_iff, decide_eq_false_iff_not, decide_eq_false_iff_not]
        constructor <;> rintro rfl <;> simp [isIdentifierChar, isLetter] at this
      simp only [List.nil_append, scanExponent, hne, Bool.false_eq_true, if_false]
  . cases h with
    | @mk e sign digits he hsign hne hdigits =>
      obtain ⟨htake, hdrop⟩ := takeWhile_run hdigits hdigit
      cases hcons : digits with
      | nil => exact absurd hcons hne
      | cons d digits' =>
        have hd : isDigit d = true := hdigits d (hcons ▸ List.mem_cons_self)
        have hdsign : (d = '+' || d = '-') = false := by
          rw [Bool.or_eq_false_iff, decide_eq_false_iff_not, decide_eq_false_iff_not]
          constructor <;> rintro rfl <;> simp [isDigit] at hd
        rw [hcons] at htake hdrop
        rw [List.cons_append] at htake hdrop
        rcases hsign with rfl | rfl | rfl
        . simp [scanExponent, he, hdsign, htake, hdrop]
        . simp [scanExponent, he, htake, hdrop]
        . simp [scanExponent, he, htake, hdrop]

theorem isExponent_head {exponent : Span} (h : IsExponent exponent)
    : ∃ e rest, exponent = e :: rest ∧ (e = 'e' ∨ e = 'E') := by
  cases h with
  | mk he _ _ _ => exact ⟨_, _, rfl, he⟩

theorem scanFloat_append {body rest : Span} (h : IsFloat body)
    (hrest : ∀ c ∈ rest.head?, isIdentifierChar c = false) : scanFloat (body ++ rest) = some (body, rest) := by
  have hdigit : ∀ c ∈ rest.head?, isDigit c = false := by
    intro c hc
    have := hrest c hc
    simp only [isIdentifierChar, Bool.or_eq_false_iff] at this
    exact this.1.1
  cases h with
  | @point whole fraction exponent hne hwhole hfraction hexponent =>
    have hscan := scanExponent_append hexponent hrest
    -- The digits end at the point, and those behind it at the exponent or where the number ends.
    obtain ⟨htake, hdrop⟩ := @takeWhile_run isDigit whole ('.' :: (fraction ++ exponent ++ rest)) hwhole (by
      intro c hc
      obtain rfl : '.' = c := by simpa using hc
      rfl)
    have ⟨htake', hdrop'⟩ := @takeWhile_run isDigit fraction (exponent ++ rest) hfraction (by
      intro c hc
      rcases hexponent with rfl | hexponent
      . exact hdigit c hc
      . obtain ⟨e, digits, rfl, he⟩ := isExponent_head hexponent
        obtain rfl : e = c := by simpa using hc
        rcases he with rfl | rfl <;> rfl)
    have htext : whole ++ '.' :: (fraction ++ exponent) ++ rest = whole ++ '.' :: (fraction ++ exponent ++ rest) := by
      simp
    have hhead : ((whole ++ '.' :: (fraction ++ exponent ++ rest)).head?.any fun c => isDigit c || c = '.') = true := by
      cases whole with
      | nil => rfl
      | cons d whole => simp [hwhole d List.mem_cons_self]
    rw [htext]
    unfold scanFloat
    rw [if_pos hhead, htake, hdrop]
    simp only [scanFraction, if_true]
    rw [List.append_assoc, htake', hdrop', hscan]
  | @exponent whole exponent hne hwhole hexponent =>
    have hscan := scanExponent_append (.inr hexponent) hrest
    obtain ⟨e, digits, rfl, he⟩ := isExponent_head hexponent
    obtain ⟨htake, hdrop⟩ := @takeWhile_run isDigit whole (e :: digits ++ rest) hwhole (by
      intro c hc
      obtain rfl : e = c := by simpa using hc
      rcases he with rfl | rfl <;> rfl)
    have hhead : ((whole ++ (e :: digits ++ rest)).head?.any fun c => isDigit c || c = '.') = true := by
      cases whole with
      | nil => exact absurd rfl hne
      | cons d whole => simp [hwhole d List.mem_cons_self]
    have hpoint : e ≠ '.' := by
      rintro rfl
      simp at he
    rw [List.append_assoc]
    unfold scanFloat
    rw [if_pos hhead, htake, hdrop]
    rw [List.cons_append] at hscan ⊢
    simp only [scanFraction, hpoint, if_false, hscan]

/-! What the attempts at a number read: a constant, the text it is spelled with and the rest. -/

def splitSign : Span → Span × Span
  | '-' :: rest => (['-'], rest)
  | text => ([], text)

abbrev Reading : Type :=
  Const × Span × Span

def Reading.placed (offset : Nat) : Reading → Const × Buffer
  | (c, taken, rest) => (c, ⟨offset + taken.length, rest⟩)

def intReading (text : Span) : Option Reading :=
  match scanDigits (splitSign text).2, intValue text with
  | some (taken, rest), .ok n => some (.int n, (splitSign text).1 ++ taken, rest)
  | _, _ => none

def uintReading (text : Span) : Option Reading :=
  match scanDigits text, uintValue text with
  | some (taken, rest), .ok n => some (.uint n, taken, rest)
  | _, _ => none

def floatReading [Libc] (text : Span) : Option Reading :=
  let (sign, body) := splitSign text
  if "inf".toList.isPrefixOf body then
    some (.float (if sign = ['-'] then negInfinity else posInfinity), sign ++ "inf".toList, body.drop 3)
  else if "nan".toList.isPrefixOf body then
    some (.float quietNan, sign ++ "nan".toList, body.drop 3)
  else
    match scanFloat body with
    | some (taken, rest) =>
      if (Libc.strtod text).2 then none else some (.float (Libc.strtod text).1, sign ++ taken, rest)
    | none => none

theorem checkMinus_run (offset : Nat) (text : Span)
    : ∃ negative : Bool, (checkAndShift '-').run ⟨offset, text⟩
        = (.ok negative, ⟨offset + (splitSign text).1.length, (splitSign text).2⟩)
      ∧ (negative = true ↔ (splitSign text).1 = ['-']) := by
  cases text with
  | nil => exact ⟨false, rfl, by simp [splitSign]⟩
  | cons c rest =>
    by_cases hc : c = '-'
    . subst hc
      exact ⟨true, rfl, by simp [splitSign]⟩
    . have hsplit : splitSign (c :: rest) = ([], c :: rest) := by
        unfold splitSign
        split
        . next heq =>
          rw [List.cons.injEq] at heq
          exact absurd heq.1 hc
        . rfl
      refine ⟨false, ?_, by simp [hsplit]⟩
      rw [checkAndShift_cons, if_neg hc, hsplit]
      rfl

theorem attempt_int (offset : Nat) (text : Span)
    : attempt parseIntegerLiteral .int ⟨offset, text⟩ = (intReading text).map (Reading.placed offset) := by
  obtain ⟨negative, hminus, -⟩ := checkMinus_run offset text
  have hdigits := parseDigits_run (offset + (splitSign text).1.length) (splitSign text).2
  unfold intReading
  simp only [attempt, parseIntegerLiteral, restoring, valued, bind_eq, andThen_of_ok hminus]
  cases hscan : scanDigits (splitSign text).2 with
  | none =>
    rw [hscan] at hdigits
    obtain ⟨b, hb⟩ := hdigits
    rw [hb]
    rfl
  | some scanned =>
    rw [hscan] at hdigits
    dsimp only at hdigits
    rw [hdigits]
    dsimp only
    cases hvalue : intValue text with
    | error e => rfl
    | ok n => simp [Reading.placed, Nat.add_assoc]

theorem attempt_uint (offset : Nat) (text : Span)
    : attempt parseUintLiteral .uint ⟨offset, text⟩ = (uintReading text).map (Reading.placed offset) := by
  have hdigits := parseDigits_run offset text
  unfold uintReading
  simp only [attempt, parseUintLiteral, restoring, valued]
  cases hscan : scanDigits text with
  | none =>
    rw [hscan] at hdigits
    obtain ⟨b, hb⟩ := hdigits
    rw [hb]
    rfl
  | some scanned =>
    rw [hscan] at hdigits
    dsimp only at hdigits
    rw [hdigits]
    dsimp only
    cases hvalue : uintValue text with
    | error e => rfl
    | ok n => rfl

theorem checkStr_run (word : String) (offset : Nat) (text : Span)
    : (checkStrAndShift word).run ⟨offset, text⟩ = if word.toList.isPrefixOf text then
        (.ok true, ⟨offset + word.toList.length, text.drop word.toList.length⟩) else (.ok false, ⟨offset, text⟩) :=
  rfl

theorem attempt_float [Libc] (offset : Nat) (text : Span)
    : attempt parseFloatLiteral .float ⟨offset, text⟩ = (floatReading text).map (Reading.placed offset) := by
  obtain ⟨negative, hminus, hnegative⟩ := checkMinus_run offset text
  have hdigits := parseFloatDigits_run (offset + (splitSign text).1.length) (splitSign text).2
  unfold floatReading
  simp only [attempt, parseFloatLiteral, restoring, valued, floatForm, bind_eq, andThen_of_ok hminus]
  by_cases hinf : "inf".toList.isPrefixOf (splitSign text).2 = true
  . have hrun := checkStr_run "inf" (offset + (splitSign text).1.length) (splitSign text).2
    rw [if_pos hinf] at hrun
    rw [andThen_of_ok hrun]
    have hsign : (if (splitSign text).1 = ['-'] then negInfinity else posInfinity)
        = if negative then negInfinity else posInfinity := by
      cases negative <;> simp_all
    rw [if_pos rfl, if_pos hinf, hsign]
    simp [floatValue, Reading.placed, Nat.add_assoc]
  . have hrun := checkStr_run "inf" (offset + (splitSign text).1.length) (splitSign text).2
    rw [if_neg hinf] at hrun
    rw [andThen_of_ok hrun, if_neg Bool.false_ne_true]
    have hrun := checkStr_run "nan" (offset + (splitSign text).1.length) (splitSign text).2
    by_cases hnan : "nan".toList.isPrefixOf (splitSign text).2 = true
    . rw [if_pos hnan] at hrun
      rw [andThen_of_ok hrun]
      rw [if_pos rfl, if_neg hinf, if_pos hnan]
      simp [floatValue, Reading.placed, Nat.add_assoc]
    . rw [if_neg hnan] at hrun
      rw [andThen_of_ok hrun, if_neg Bool.false_ne_true, if_neg hinf, if_neg hnan]
      cases hscan : scanFloat (splitSign text).2 with
      | none =>
        rw [hscan] at hdigits
        obtain ⟨b, hb⟩ := hdigits
        rw [andThen_of_error hb]
        rfl
      | some scanned =>
        rw [hscan] at hdigits
        dsimp only at hdigits
        rw [andThen_of_ok hdigits]
        by_cases hrange : (Libc.strtod text).2 = true
        . simp [floatValue, hrange]
        . simp [floatValue, hrange, Reading.placed, Nat.add_assoc]

def Reading.length : Option Reading → Nat
  | some (_, taken, _) => taken.length
  | none => 0

/--
The longest of the three readings, and of those the first.
-/
def numberReading [Libc] (text : Span) : Option Reading :=
  let int := intReading text
  let uint := uintReading text
  let float := floatReading text
  if Reading.length uint ≤ Reading.length int ∧ Reading.length float ≤ Reading.length int ∧ int.isSome then int
  else if Reading.length float ≤ Reading.length uint ∧ uint.isSome then uint
  else float

theorem attemptEnd_placed (offset : Nat) (text : Span) (reading : Option Reading)
    : attemptEnd ⟨offset, text⟩ (reading.map (Reading.placed offset)) = offset + Reading.length reading := by
  cases reading with
  | none => rfl
  | some reading => rfl

theorem parseNumber_run [Libc] (offset : Nat) (text : Span)
    : parseNumber.run ⟨offset, text⟩
        = match numberReading text with
          | some (c, taken, rest) => (.ok c, ⟨offset + taken.length, rest⟩)
          | none => (.error .invalidConst, ⟨offset, text⟩) := by
  have hlongest : longest ⟨offset, text⟩ (attempt parseIntegerLiteral .int ⟨offset, text⟩)
      (attempt parseUintLiteral .uint ⟨offset, text⟩) (attempt parseFloatLiteral .float ⟨offset, text⟩)
      = (numberReading text).map (Reading.placed offset) := by
    simp only [longest, attempt_int, attempt_uint, attempt_float, attemptEnd_placed, Option.isSome_map,
      Nat.add_le_add_iff_left, numberReading]
    split
    . rfl
    . split <;> rfl
  simp only [parseNumber, hlongest]
  cases numberReading text <;> rfl

theorem numberReading_int [Libc] {text : Span} {reading : Reading} (h : intReading text = some reading)
    (huint : Reading.length (uintReading text) ≤ reading.2.1.length)
    (hfloat : Reading.length (floatReading text) ≤ reading.2.1.length) : numberReading text = some reading := by
  simp only [numberReading, h]
  exact if_pos ⟨huint, hfloat, rfl⟩

theorem numberReading_uint [Libc] {text : Span} {reading : Reading} (hint : intReading text = none)
    (h : uintReading text = some reading) (hfloat : Reading.length (floatReading text) ≤ reading.2.1.length)
    : numberReading text = some reading := by
  simp only [numberReading, hint, h]
  rw [if_neg (by simp), if_pos ⟨hfloat, rfl⟩]

theorem numberReading_float [Libc] {text : Span} (hint : intReading text = none) (huint : uintReading text = none)
    : numberReading text = floatReading text := by
  simp only [numberReading, hint, huint]
  rw [if_neg (by simp), if_neg (by simp)]

theorem parseConstValue_number [Libc] {text taken rest : Span} {c : Const}
    (h : numberReading text = some (c, taken, rest)) (offset : Nat)
    : parseConstValue.run ⟨offset, text⟩ = (.ok c, ⟨offset + taken.length, rest⟩) := by
  have hrun := parseNumber_run offset text
  rw [h] at hrun
  exact orElse_of_ok hrun

theorem parseConstValue_ok [Libc] {offset : Nat} {text : Span} {c : Const} {b : Buffer}
    (h : parseConstValue.run ⟨offset, text⟩ = (.ok c, b))
    : (∃ taken rest, numberReading text = some (c, taken, rest) ∧ b = ⟨offset + taken.length, rest⟩)
      ∨ numberReading text = none ∧ ((∃ span, c = .identifier span) ∨ ∃ span, c = .string span) := by
  have hrun := parseNumber_run offset text
  cases hreading : numberReading text with
  | some reading =>
    obtain ⟨c', taken, rest⟩ := reading
    rw [parseConstValue_number hreading] at h
    simp only [Prod.mk.injEq, Except.ok.injEq] at h
    obtain ⟨rfl, rfl⟩ := h
    exact .inl ⟨taken, rest, rfl, rfl⟩
  | none =>
    rw [hreading] at hrun
    unfold parseConstValue at h
    rw [orElse_of_error hrun] at h
    refine .inr ⟨rfl, ?_⟩
    rcases orElse_ok h with h | ⟨_, _, -, h⟩
    . obtain ⟨span, -, rfl⟩ := map_ok.mp h
      exact .inl ⟨span, rfl⟩
    . rcases orElse_ok h with h | ⟨_, _, -, h⟩
      . obtain ⟨span, -, rfl⟩ := map_ok.mp h
        exact .inr ⟨span, rfl⟩
      . simp at h

end Gremlin
