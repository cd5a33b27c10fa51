import Gremlin.Parser.Clamped
import Gremlin.Parser.Numbers

/-!
This module contains what the parser of string literals takes: characters and escapes between quotes.
-/

namespace Gremlin

open Text Parser Buffer

/--
One character of a string literal, or one escape with all the digits that belong to it.
-/
inductive Item where
  | plain (c : Char)
  | simple (c : Char)
  | octal (digits : Span)
  | hex (x : Char) (digits : Span)
  | unicode (digits : Span)
  | unicodeLong (digits : Span)
  deriving DecidableEq, Repr

namespace Item

def text : Item → Span
  | plain c => [c]
  | simple c => ['\\', c]
  | octal digits => '\\' :: digits
  | hex x digits => '\\' :: x :: digits
  | unicode digits => '\\' :: 'u' :: digits
  | unicodeLong digits => '\\' :: 'U' :: digits

/--
Eight digits of a code point, which is at most `10FFFF`.
-/
def IsLong (digits : Span) : Prop :=
  (∃ hex, digits = '0' :: '0' :: '0' :: hex ∧ hex.length = 5 ∧ ∀ d ∈ hex, isHexDigit d = true)
    ∨ ∃ hex, digits = '0' :: '0' :: '1' :: '0' :: hex ∧ hex.length = 4 ∧ ∀ d ∈ hex, isHexDigit d = true

/--
An item of a literal that ends with `close`, behind which `next` comes.
-/
def Valid (close : Char) (next : Option Char) : Item → Prop
  | plain c => c ≠ close ∧ c ≠ '\\' ∧ c ≠ '\n'
  | simple c => isSimpleEscape c = true
  | octal digits =>
    digits ≠ [] ∧ (∀ d ∈ digits, isOctalDigit d = true) ∧ ∀ c ∈ next, isOctalDigit c = false
  | hex x digits =>
    (x = 'x' ∨ x = 'X') ∧ digits ≠ [] ∧ (∀ d ∈ digits, isHexDigit d = true) ∧ ∀ c ∈ next, isHexDigit c = false
  | unicode digits => digits.length = 4 ∧ ∀ d ∈ digits, isHexDigit d = true
  | unicodeLong digits => IsLong digits

end Item

def itemsText (items : List Item) : Span :=
  items.flatMap Item.text

def IsQuoted (close : Char) : List Item → Prop
  | [] => True
  | item :: items => item.Valid close (itemsText items ++ [close]).head? ∧ IsQuoted close items

/-! The parts of an escape. -/

theorem next_some {c : Char} {b b' : Buffer}
    : (next : EntryParser (Option Char)).run b = (.ok (some c), b') ↔ Covers b [c] b' := by
  obtain ⟨offset, rest⟩ := b
  obtain ⟨offset', rest'⟩ := b'
  cases rest with
  | nil => simp [next, Covers]
  | cons d rest =>
    simp only [next, Covers, Prod.mk.injEq, Except.ok.injEq, Option.some.injEq, Buffer.mk.injEq,
      List.cons_append, List.nil_append, List.cons.injEq, List.length_cons, List.length_nil]
    grind

theorem expect_iff {c : Char} {e : ParsingError} {b b' : Buffer} {a : Unit}
    : (expect c e).run b = (.ok a, b') ↔ Covers b [c] b' := by
  constructor
  . exact expect_ok
  . rintro ⟨hrest, hoffset⟩
    apply require_ok.mpr
    apply shiftIf_true.mpr
    exact ⟨c, by simp, hrest, hoffset⟩

theorem shiftWhile_ok {test : Char → Bool} {b b' : Buffer} {a : Unit}
    : (shiftWhile test : EntryParser Unit).run b = (.ok a, b')
        ↔ ∃ digits, (∀ d ∈ digits, test d = true) ∧ (∀ c ∈ b'.rest.head?, test c = false)
            ∧ Covers b digits b' := by
  obtain ⟨offset, rest⟩ := b
  obtain ⟨offset', rest'⟩ := b'
  simp only [shiftWhile, Prod.mk.injEq, Buffer.mk.injEq, true_and, Covers]
  constructor
  . rintro ⟨rfl, rfl⟩
    refine ⟨rest.takeWhile test, fun d hd => List.mem_takeWhile_imp hd, head_dropWhile rest, ?_, rfl⟩
    exact List.takeWhile_append_dropWhile.symm
  . rintro ⟨digits, hdigits, hhead, rfl, rfl⟩
    rw [(takeWhile_run hdigits hhead).1, (takeWhile_run hdigits hhead).2]
    exact ⟨rfl, rfl⟩

theorem parseUnicodeEscape_ok {count : Nat} {b b' : Buffer} {a : Unit}
    : (parseUnicodeEscape count).run b = (.ok a, b')
        ↔ ∃ digits, digits.length = count ∧ (∀ d ∈ digits, isHexDigit d = true) ∧ Covers b digits b' := by
  induction count generalizing b with
  | zero =>
    simp only [parseUnicodeEscape, pure_eq, succeed_run, Prod.mk.injEq, true_and, List.length_eq_zero_iff]
    constructor
    . rintro rfl
      exact ⟨[], rfl, by simp, .refl b⟩
    . rintro ⟨_, rfl, -, hcovers⟩
      obtain ⟨offset, rest⟩ := b
      obtain ⟨offset', rest'⟩ := b'
      simpa [Covers, and_comm, eq_comm] using hcovers
  | succ count ih =>
    simp only [parseUnicodeEscape, bind_eq, andThen_ok]
    constructor
    . rintro ⟨found, b₁, hnext, h⟩
      cases found with
      | none => simp at h
      | some c =>
        dsimp only at h
        by_cases hc : isHexDigit c = true
        . rw [if_pos hc] at h
          obtain ⟨digits, hlength, hdigits, hcovers⟩ := ih.mp h
          refine ⟨c :: digits, by simp [hlength], ?_, covers_cons.mpr ⟨b₁, next_some.mp hnext, hcovers⟩⟩
          rw [List.forall_mem_cons]
          exact ⟨hc, hdigits⟩
        . simp [hc] at h
    . rintro ⟨digits, hlength, hdigits, hcovers⟩
      cases digits with
      | nil => simp at hlength
      | cons c digits =>
        rw [List.forall_mem_cons] at hdigits
        obtain ⟨b₁, hc, hcovers⟩ := covers_cons.mp hcovers
        refine ⟨some c, b₁, next_some.mpr hc, ?_⟩
        dsimp only
        rw [if_pos hdigits.1]
        exact ih.mpr ⟨digits, by simpa using hlength, hdigits.2, hcovers⟩

theorem parseExtendedUnicodeEscape_ok {b b' : Buffer} {a : Unit}
    : parseExtendedUnicodeEscape.run b = (.ok a, b') ↔ ∃ digits, Item.IsLong digits ∧ Covers b digits b' := by
  simp only [parseExtendedUnicodeEscape, bind_eq, andThen_ok, expect_iff]
  constructor
  . rintro ⟨_, b₁, h₁, _, b₂, h₂, found, b₃, h₃, h⟩
    -- The third digit tells which of the two forms it is.
    split at h
    . obtain ⟨hex, hlength, hhex, hcovers⟩ := parseUnicodeEscape_ok.mp h
      refine ⟨'0' :: '0' :: '0' :: hex, .inl ⟨hex, rfl, hlength, hhex⟩, ?_⟩
      exact h₁.trans (h₂.trans ((next_some.mp h₃).trans hcovers))
    . obtain ⟨_, b₄, h₄, h⟩ := andThen_ok.mp h
      obtain ⟨hex, hlength, hhex, hcovers⟩ := parseUnicodeEscape_ok.mp h
      refine ⟨'0' :: '0' :: '1' :: '0' :: hex, .inr ⟨hex, rfl, hlength, hhex⟩, ?_⟩
      exact h₁.trans (h₂.trans ((next_some.mp h₃).trans ((expect_ok h₄).trans hcovers)))
    . simp at h
  . rintro ⟨digits, ⟨hex, rfl, hlength, hhex⟩ | ⟨hex, rfl, hlength, hhex⟩, hcovers⟩
    . obtain ⟨b₁, h₁, hcovers⟩ := covers_cons.mp hcovers
      obtain ⟨b₂, h₂, hcovers⟩ := covers_cons.mp hcovers
      obtain ⟨b₃, h₃, hcovers⟩ := covers_cons.mp hcovers
      exact ⟨(), b₁, h₁, (), b₂, h₂, some '0', b₃, next_some.mpr h₃,
        parseUnicodeEscape_ok.mpr ⟨hex, hlength, hhex, hcovers⟩⟩
    . obtain ⟨b₁, h₁, hcovers⟩ := covers_cons.mp hcovers
      obtain ⟨b₂, h₂, hcovers⟩ := covers_cons.mp hcovers
      obtain ⟨b₃, h₃, hcovers⟩ := covers_cons.mp hcovers
      obtain ⟨b₄, h₄, hcovers⟩ := covers_cons.mp hcovers
      refine ⟨(), b₁, h₁, (), b₂, h₂, some '1', b₃, next_some.mpr h₃, ?_⟩
      exact (andThen_of_ok ((expect_iff (a := ())).mpr h₄)).trans
        (parseUnicodeEscape_ok.mpr ⟨hex, hlength, hhex, hcovers⟩)

theorem parseHexEscape_ok {b b' : Buffer} {a : Unit}
    : parseHexEscape.run b = (.ok a, b')
        ↔ ∃ digits, digits ≠ [] ∧ (∀ d ∈ digits, isHexDigit d = true)
            ∧ (∀ c ∈ b'.rest.head?, isHexDigit c = false) ∧ Covers b digits b' := by
  simp only [parseHexEscape, bind_eq, andThen_ok, require_ok, looking, Prod.mk.injEq, Except.ok.injEq]
  constructor
  . rintro ⟨_, _, ⟨hhead, rfl⟩, h⟩
    obtain ⟨digits, hdigits, hrest, hcovers⟩ := shiftWhile_ok.mp h
    refine ⟨digits, ?_, hdigits, hrest, hcovers⟩
    rintro rfl
    rw [hcovers.1, List.nil_append, Option.any_eq_true] at hhead
    obtain ⟨c, hc, hhex⟩ := hhead
    simp [hrest c hc] at hhex
  . rintro ⟨digits, hne, hdigits, hrest, hcovers⟩
    refine ⟨(), b, ⟨?_, rfl⟩, shiftWhile_ok.mpr ⟨digits, hdigits, hrest, hcovers⟩⟩
    rw [hcovers.1]
    cases digits with
    | nil => exact absurd rfl hne
    | cons c digits => simpa using hdigits c List.mem_cons_self

/-! Items. -/

theorem simpleEscape_kind {c : Char} (h : isSimpleEscape c = true)
    : c ≠ 'x' ∧ c ≠ 'X' ∧ isOctalDigit c = false ∧ c ≠ 'u' ∧ c ≠ 'U' := by
  simp only [isSimpleEscape, List.contains_eq_mem, List.mem_cons, List.not_mem_nil, or_false,
    decide_eq_true_eq] at h
  rcases h with rfl | rfl | rfl | rfl | rfl | rfl | rfl | rfl | rfl | rfl | rfl <;> decide

theorem octalDigit_kind {c : Char} (h : isOctalDigit c = true) : c ≠ 'x' ∧ c ≠ 'X' ∧ c ≠ 'u' ∧ c ≠ 'U' := by
  refine ⟨?_, ?_, ?_, ?_⟩ <;> rintro rfl <;> simp [isOctalDigit] at h

theorem parseEscapeSequence_ok {close : Char} {b b' : Buffer} {a : Unit}
    : parseEscapeSequence.run b = (.ok a, b')
        ↔ ∃ (item : Item) (tail : Span), item.text = '\\' :: tail ∧ item.Valid close b'.rest.head?
            ∧ Covers b tail b' := by
  simp only [parseEscapeSequence, bind_eq, andThen_ok]
  constructor
  . rintro ⟨found, b₁, hnext, h⟩
    cases found with
    | none => simp at h
    | some c =>
      rw [next_some] at hnext
      dsimp only at h
      -- The tests of the character behind the backslash, in the order of the source.
      by_cases hx : (c = 'x' || c = 'X') = true
      . rw [if_pos hx] at h
        obtain ⟨digits, hne, hdigits, hrest, hcovers⟩ := parseHexEscape_ok.mp h
        rw [Bool.or_eq_true, decide_eq_true_eq, decide_eq_true_eq] at hx
        exact ⟨.hex c digits, c :: digits, rfl, ⟨hx, hne, hdigits, hrest⟩, hnext.trans hcovers⟩
      . rw [if_neg hx] at h
        by_cases hoctal : isOctalDigit c = true
        . rw [if_pos hoctal] at h
          obtain ⟨digits, hdigits, hrest, hcovers⟩ := shiftWhile_ok.mp h
          refine ⟨.octal (c :: digits), c :: digits, rfl, ⟨by simp, ?_, hrest⟩, hnext.trans hcovers⟩
          rw [List.forall_mem_cons]
          exact ⟨hoctal, hdigits⟩
        . rw [if_neg hoctal] at h
          by_cases hu : c = 'u'
          . rw [if_pos hu] at h
            obtain ⟨digits, hlength, hdigits, hcovers⟩ := parseUnicodeEscape_ok.mp h
            exact ⟨.unicode digits, c :: digits, by rw [hu]; rfl, ⟨hlength, hdigits⟩, hnext.trans hcovers⟩
          . rw [if_neg hu] at h
            by_cases hU : c = 'U'
            . rw [if_pos hU] at h
              obtain ⟨digits, hdigits, hcovers⟩ := parseExtendedUnicodeEscape_ok.mp h
              exact ⟨.unicodeLong digits, c :: digits, by rw [hU]; rfl, hdigits, hnext.trans hcovers⟩
            . rw [if_neg hU] at h
              by_cases hsimple : isSimpleEscape c = true
              . rw [if_pos hsimple] at h
                simp only [pure_eq, succeed_run, Prod.mk.injEq, true_and] at h
                exact ⟨.simple c, [c], rfl, hsimple, h ▸ hnext⟩
              . rw [if_neg hsimple] at h
                simp at h
  . -- The kinds of items exclude each other, so the tests before the right one fail.
    rintro ⟨item, tail, htext, hvalid, hcovers⟩
    cases item with
    | plain c =>
      rw [Item.text, List.cons.injEq] at htext
      exact absurd htext.1 hvalid.2.1
    | simple c =>
      obtain rfl : tail = [c] := by simpa [Item.text] using htext.symm
      obtain ⟨hx, hX, hoctal, hu, hU⟩ := simpleEscape_kind hvalid
      refine ⟨some c, b', next_some.mpr hcovers, ?_⟩
      have hsimple : isSimpleEscape c = true := hvalid
      simp [hx, hX, hoctal, hu, hU, hsimple]
    | octal digits =>
      obtain rfl : tail = digits := by simpa [Item.text] using htext.symm
      obtain ⟨hne, hdigits, hrest⟩ := hvalid
      cases tail with
      | nil => exact absurd rfl hne
      | cons c digits =>
        rw [List.forall_mem_cons] at hdigits
        obtain ⟨b₁, hc, hcovers⟩ := covers_cons.mp hcovers
        have := octalDigit_kind hdigits.1
        refine ⟨some c, b₁, next_some.mpr hc, ?_⟩
        simp only [this, hdigits.1]
        exact shiftWhile_ok.mpr ⟨digits, hdigits.2, hrest, hcovers⟩
    | hex x digits =>
      obtain rfl : tail = x :: digits := by simpa [Item.text] using htext.symm
      obtain ⟨hx, hvalid⟩ := hvalid
      obtain ⟨b₁, hc, hcovers⟩ := covers_cons.mp hcovers
      refine ⟨some x, b₁, next_some.mpr hc, ?_⟩
      have hx : (x = 'x' || x = 'X') = true := by simpa using hx
      dsimp only
      rw [if_pos hx]
      exact parseHexEscape_ok.mpr ⟨digits, hvalid.1, hvalid.2.1, hvalid.2.2, hcovers⟩
    | unicode digits =>
      obtain rfl : tail = 'u' :: digits := by simpa [Item.text] using htext.symm
      obtain ⟨b₁, hc, hcovers⟩ := covers_cons.mp hcovers
      exact ⟨some 'u', b₁, next_some.mpr hc, parseUnicodeEscape_ok.mpr ⟨digits, hvalid.1, hvalid.2, hcovers⟩⟩
    | unicodeLong digits =>
      obtain rfl : tail = 'U' :: digits := by simpa [Item.text] using htext.symm
      obtain ⟨b₁, hc, hcovers⟩ := covers_cons.mp hcovers
      exact ⟨some 'U', b₁, next_some.mpr hc, parseExtendedUnicodeEscape_ok.mpr ⟨digits, hvalid, hcovers⟩⟩

theorem strLitStep_again {close : Char} (hclose : close ≠ '\\') {u u' : Unit} {b b' : Buffer}
    : (strLitStep close u).run b = (.ok (.again u'), b')
        ↔ ∃ item : Item, item.Valid close b'.rest.head? ∧ Covers b item.text b' := by
  simp only [strLitStep, bind_eq, andThen_ok]
  constructor
  . rintro ⟨found, b₁, hnext, h⟩
    cases found with
    | none => simp at h
    | some c =>
      rw [next_some] at hnext
      dsimp only at h
      by_cases hc : c = close
      . rw [if_pos hc] at h
        simp at h
      . rw [if_neg hc] at h
        by_cases hescape : c = '\\'
        . rw [if_pos hescape] at h
          obtain ⟨_, b₂, hrun, h⟩ := andThen_ok.mp h
          simp only [pure_eq, succeed_run, Prod.mk.injEq, true_and] at h
          obtain ⟨item, tail, htext, hvalid, hcovers⟩ := parseEscapeSequence_ok.mp hrun
          refine ⟨item, h ▸ hvalid, ?_⟩
          rw [htext, ← hescape]
          exact h ▸ hnext.trans hcovers
        . rw [if_neg hescape] at h
          by_cases hline : c = '\n'
          . rw [if_pos hline] at h
            simp at h
          . rw [if_neg hline] at h
            simp only [pure_eq, succeed_run, Prod.mk.injEq, true_and] at h
            exact ⟨.plain c, ⟨hc, hescape, hline⟩, h ▸ hnext⟩
  . rintro ⟨item, hvalid, hcovers⟩
    by_cases hplain : ∃ c, item = .plain c
    . obtain ⟨c, rfl⟩ := hplain
      refine ⟨some c, b', next_some.mpr hcovers, ?_⟩
      dsimp only
      rw [if_neg hvalid.1, if_neg hvalid.2.1, if_neg hvalid.2.2]
      rfl
    . obtain ⟨tail, htext⟩ : ∃ tail, item.text = '\\' :: tail := by
        cases item with
        | plain c => exact absurd ⟨c, rfl⟩ hplain
        | _ => exact ⟨_, rfl⟩
      rw [htext] at hcovers
      obtain ⟨b₁, hc, hcovers⟩ := covers_cons.mp hcovers
      refine ⟨some '\\', b₁, next_some.mpr hc, ?_⟩
      dsimp only
      rw [if_neg hclose.symm, if_pos rfl]
      exact andThen_of_ok ((parseEscapeSequence_ok (a := ())).mpr ⟨item, tail, htext, hvalid, hcovers⟩)

theorem strLitStep_done {close : Char} {u u' : Unit} {b b' : Buffer}
    : (strLitStep close u).run b = (.ok (.done u'), b') ↔ Covers b [close] b' := by
  simp only [strLitStep, bind_eq, andThen_ok]
  constructor
  . rintro ⟨found, b₁, hnext, h⟩
    cases found with
    | none => simp at h
    | some c =>
      dsimp only at h
      by_cases hc : c = close
      . rw [if_pos hc] at h
        simp only [pure_eq, succeed_run, Prod.mk.injEq, true_and] at h
        exact hc ▸ h ▸ next_some.mp hnext
      . rw [if_neg hc] at h
        split at h
        . obtain ⟨_, b₂, hrun, h⟩ := andThen_ok.mp h
          simp at h
        . split at h <;> simp at h
  . intro hcovers
    refine ⟨some close, b', next_some.mpr hcovers, ?_⟩
    dsimp only
    rw [if_pos rfl]
    rfl

theorem head_itemsText {items : List Item} {close : Char} (rest : Span)
    : (itemsText items ++ close :: rest).head? = (itemsText items ++ [close]).head? := by
  cases itemsText items <;> rfl

theorem strLitSingle_ok {close : Char} (hclose : close ≠ '\\') {b b' : Buffer} {a : Unit}
    : (strLitSingle close).run b = (.ok a, b')
        ↔ ∃ items, IsQuoted close items ∧ Covers b (itemsText items ++ [close]) b' := by
  constructor
  . intro h
    refine loop_ok (Q := fun b _ b' => ∃ items, IsQuoted close items ∧ Covers b (itemsText items ++ [close]) b')
      ?_ ?_ h
    . intro _ b _ b' hdone
      exact ⟨[], trivial, strLitStep_done.mp hdone⟩
    . rintro _ b _ b' _ b'' hagain ⟨items, hitems, hcovers⟩
      obtain ⟨item, hvalid, hcovers'⟩ := (strLitStep_again hclose).mp hagain
      refine ⟨item :: items, ⟨?_, hitems⟩, ?_⟩
      . rwa [hcovers.1, List.append_assoc, List.singleton_append, head_itemsText] at hvalid
      . rw [itemsText, List.flatMap_cons, List.append_assoc]
        exact hcovers'.trans hcovers
  . rintro ⟨items, hitems, hcovers⟩
    unfold strLitSingle
    induction items generalizing b with
    | nil =>
      rw [loop_run (progress_strLitStep close)]
      exact andThen_of_ok (strLitStep_done.mpr hcovers)
    | cons item items ih =>
      rw [itemsText, List.flatMap_cons, List.append_assoc] at hcovers
      obtain ⟨b₁, hitem, hcovers⟩ := covers_append.mp hcovers
      have hvalid : item.Valid close b₁.rest.head? := by
        have hhead := hitems.1
        rw [hcovers.1, List.append_assoc, List.singleton_append]
        rwa [← head_itemsText b'.rest] at hhead
      rw [loop_run (progress_strLitStep close)]
      exact (andThen_of_ok ((strLitStep_again hclose).mpr ⟨item, hvalid, hitem⟩)).trans (ih hitems.2 hcovers)

/--
A literal between two quotes of one kind, which are not part of its span.
-/
structure IsStringLiteral (literal span : Span) (close : Char) (items : List Item) : Prop where
  quote : close = '"' ∨ close = '\x27'
  valid : IsQuoted close items
  span_eq : span = itemsText items
  literal_eq : literal = close :: (span ++ [close])

theorem quoted_ok {b b' : Buffer} {a : Unit}
    : quoted.run b = (.ok a, b')
        ↔ ∃ literal span close items, IsStringLiteral literal span close items ∧ Covers b literal b' := by
  have hsingle {close : Char} (hclose : close = '"' ∨ close = '\x27') {b₁ : Buffer} (hopen : Covers b [close] b₁)
      (h : (strLitSingle close).run b₁ = (.ok a, b'))
      : ∃ literal span close items, IsStringLiteral literal span close items ∧ Covers b literal b' := by
    have hne : close ≠ '\\' := by
      rcases hclose with rfl | rfl <;> decide
    obtain ⟨items, hitems, hcovers⟩ := (strLitSingle_ok hne).mp h
    exact ⟨_, _, close, items, ⟨hclose, hitems, rfl, rfl⟩, hopen.trans hcovers⟩
  simp only [quoted, bind_eq, andThen_ok]
  constructor
  . rintro ⟨double, b₁, hopen, h⟩
    cases double with
    | true => exact hsingle (.inl rfl) (checkAndShift_true hopen) h
    | false =>
      rw [if_neg Bool.false_ne_true] at h
      obtain ⟨single, b₂, hopen', h⟩ := andThen_ok.mp h
      cases single with
      | true =>
        rw [shiftIf_false hopen] at hopen'
        exact hsingle (.inr rfl) (checkAndShift_true hopen') h
      | false => simp at h
  . rintro ⟨literal, span, close, items, hliteral, hcovers⟩
    obtain ⟨hclose, hitems, rfl, rfl⟩ := hliteral
    obtain ⟨b₁, hopen, hcovers⟩ := covers_cons.mp hcovers
    have hrun (hne : close ≠ '\\') : (strLitSingle close).run b₁ = (.ok a, b') :=
      (strLitSingle_ok hne).mpr ⟨items, hitems, hcovers⟩
    have hshift : (checkAndShift close).run b = (.ok true, b₁) :=
      shiftIf_true.mpr ⟨close, by simp, hopen.1, hopen.2⟩
    rcases hclose with rfl | rfl
    . exact ⟨true, b₁, hshift, hrun (by decide)⟩
    . refine ⟨false, b, ?_, ?_⟩
      . obtain ⟨offset, rest⟩ := b
        obtain rfl : rest = '\x27' :: b₁.rest := hopen.1
        rw [checkAndShift_cons, if_neg (by decide)]
      . exact (andThen_of_ok hshift).trans (hrun (by decide))

theorem parseStringLiteral_ok {b b' : Buffer} {span : Span}
    : parseStringLiteral.run b = (.ok span, b')
        ↔ ∃ literal close items, IsStringLiteral literal span close items ∧ Covers b literal b' := by
  have hspan {literal span : Span} {close : Char} (h : literal = close :: (span ++ [close]))
      : (literal.drop 1).dropLast = span := by
    rw [h, List.drop_one, List.tail_cons, List.dropLast_concat]
  simp only [parseStringLiteral, restoring_ok, bind_eq, andThen_ok, pure_eq, succeed_run, Prod.mk.injEq,
    Except.ok.injEq]
  constructor
  . rintro ⟨literal, b₁, hquoted, rfl, rfl⟩
    obtain ⟨hrun, rfl⟩ := spanned_ok hquoted
    obtain ⟨literal, span, close, items, hliteral, hcovers⟩ := quoted_ok.mp hrun
    rw [hcovers.take_eq, hspan hliteral.literal_eq]
    exact ⟨literal, close, items, hliteral, hcovers⟩
  . rintro ⟨literal, close, items, hliteral, hcovers⟩
    refine ⟨literal, b', ?_, hspan hliteral.literal_eq, rfl⟩
    have hrun : quoted.run b = (.ok (), b') := quoted_ok.mpr ⟨literal, span, close, items, hliteral, hcovers⟩
    simp only [spanned, hrun, hcovers.take_eq]

end Gremlin
