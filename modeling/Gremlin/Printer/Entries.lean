import Mathlib.Data.Bool.AllAny
import Gremlin.Printer.Reserved

/-!
This module contains what the parsers of the entries of enums and oneofs take where they are printed.
-/

namespace Gremlin.Printer

open Text Parser Buffer

/-! Alternatives. -/

section Alternatives

variable {α : Type} {F : Span → Prop} {P : α → Prop} {p q : EntryParser α} {text : Span}

theorem takes_other (hp : Refuses p text) (hrestores : Restores p) (hq : Takes F q text P)
    : Takes F (p.orElse q) text P := by
  intro b b' hcovers hend
  obtain ⟨a, ha, hrun⟩ := hq b b' hcovers hend
  refine ⟨a, ha, ?_⟩
  rcases hfirst : p.run b with ⟨e | a', b₁⟩
  . rw [orElse_of_error hfirst, hrestores b e b₁ hfirst]
    exact hrun
  . exact absurd hfirst (hp b b' hcovers a' b₁)

theorem refuses_orElse (hp : Refuses p text) (hrestores : Restores p) (hq : Refuses q text)
    : Refuses (p.orElse q) text :=
  fun b b' hcovers => Never.orElse (hp b b' hcovers) hrestores (hq b b' hcovers)

theorem refuses_opening {word : List Char} {word' : String} (hword : Differs word word'.toList) (e : ParsingError)
    (f : Unit → EntryParser α) (text : Span) : Refuses ((keyword word' e).andThen f).restoring (word ++ text) :=
  (refuses_keyword_other hword e f text).restoring

end Alternatives

/-! Assignments. -/

section Assignments

variable {β : Type}

/--
The number of a field or a value, and what is behind it.
-/
def assignment [Libc] (number : EntryParser Int) (make : Int → OptionListResult → β) : EntryParser β := do
  skipSpaces
  expect '=' .assignmentExpected
  skipSpaces
  let index ← number
  skipSpaces
  let options ← optionalOptions
  expect ';' .semicolonExpected
  pure (make index options)

def namedAssignment [Libc] (make : Span → Int → OptionListResult → β) : EntryParser β := do
  skipSpaces
  let name ← parseIdentifier
  assignment parseFieldNumber (make name)

variable [Libc]

theorem enumFieldParse_eq
    : enumFieldParse = (parseIdentifier.andThen fun name => assignment parseEnumValueNumber fun index options =>
        ⟨name, index, options⟩).restoring :=
  rfl

theorem oneofFieldParse_eq
    : oneofFieldParse = (parseFullIdentifier.andThen fun type => namedAssignment fun name index options =>
        ⟨type, name, index, options⟩).restoring :=
  rfl

theorem fieldParse_eq
    : fieldParse = (fieldLabel.andThen fun label => parseFieldType.andThen fun type =>
        namedAssignment fun name index options => ⟨label, type, name, index, options⟩).restoring :=
  rfl

theorem takes_noOptions {f : OptionListResult → EntryParser β} {F : Span → Prop} {P : β → Prop} {text : Span}
    (hf : Takes F (f .empty) (';' :: text) P) : Takes F (optionalOptions.andThen f) (';' :: text) P := by
  unfold optionalOptions
  simp only [bind_eq, andThen_assoc]
  exact takes_looking hf

def assigned (number : Span) : Span :=
  behind [['='], number, [';']]

theorem reads_assignment {number : EntryParser Int} {literal : Span} {n : Int} (h : ReadsToken number literal (· = n))
    (hhead : IsTokenHead literal) (make : Int → OptionListResult → β)
    : Reads (assignment number make) (assigned literal) (· = make n .empty) := by
  simp only [assigned, behind_cons, behind_nil, List.append_nil, List.cons_append, List.nil_append]
  apply takes_skip (isTokenHead_cons (by decide))
  apply takes_expect
  apply takes_skip (hhead.append _)
  apply h.spaced
  rintro _ rfl
  apply takes_skip (isTokenHead_cons (by decide))
  apply takes_noOptions
  apply takes_expect
  exact takes_succeed rfl

theorem refuses_assignment {d : Char} (hd : isWhitespace d = false ∧ d ≠ '/') (hne : d ≠ '=') (number : EntryParser Int)
    (make : Int → OptionListResult → β) (text : Span) : Refuses (assignment number make) (' ' :: d :: text) :=
  refuses_skip (isTokenHead_cons hd) (refuses_expect_other hne _ _ _)

theorem reads_namedAssignment (name : Name) (number : FieldNumber) (make : Span → Int → OptionListResult → β)
    : Reads (namedAssignment make) (' ' :: (name.val ++ assigned (Printf.unsigned number.val)))
        (· = make name.val number.val .empty) := by
  apply takes_skip (name.2.isTokenHead.append _)
  apply (readsToken_identifier name.2).spaced
  rintro _ rfl
  exact reads_assignment (readsToken_fieldNumber number.2.1 number.2.2) (isInteger_unsigned _).isTokenHead _

omit [Libc] in
/--
No name begins here.
-/
theorem refuses_identifier {d : Char} (hd : isIdentifierStart d = false) (f : Span → EntryParser β) (text : Span)
    : Refuses (parseIdentifier.andThen f) (d :: text) := by
  intro b b' hcovers y c hrun
  obtain ⟨_, b₁, hname, -⟩ := andThen_ok.mp hrun
  obtain ⟨_, b₂, hstart, -⟩ := andThen_ok.mp (spanned_ok hname).1
  exact refuses_shiftIf hd _ text b b' hcovers _ _ hstart

theorem refuses_namedAssignment {d : Char} (hd : isWhitespace d = false ∧ d ≠ '/')
    (hstart : isIdentifierStart d = false) (make : Span → Int → OptionListResult → β) (text : Span)
    : Refuses (namedAssignment make) (' ' :: d :: text) :=
  refuses_skip (isTokenHead_cons hd) (refuses_identifier hstart _ _)

end Assignments

/-! Names of values that are read as options. -/

/--
The word of an option and the beginning of a name.
-/
def ReadAsOption (name : Span) : Prop :=
  ∃ c rest, name = "option".toList ++ c :: rest ∧ isIdentifierStart c = true

variable [Libc]

/--
The constant that a printed number is.
-/
def numberConstant (n : Int32) : Constant :=
  .number (Printf.signed n.val) .integer (.inl rfl) fun _ hend =>
    .integer (isIntegerLiteral_signed n.val) (by have := n.2.1; omega) (by have := n.2.2; omega)
      (ends_of_space hend).2.2

/--
The option that has this name and a number.
-/
theorem reads_numberOption {name : Span} (hname : IsIdentifier name) (n : Int32) {gap : Span}
    (hgap : gap = [] ∨ gap = [' '])
    : Reads optionParse ("option".toList ++ (gap ++ (name ++ assigned (Printf.signed n.val)))) fun _ => True := by
  have h := reads_optionText ⟨.simple ⟨name, hname⟩, [], numberConstant n⟩ trivial hgap
  simpa only [OptionDecl.name, NamePart.text, List.flatMap_nil, List.append_nil, Constant.token, numberConstant,
    assigned] using h

omit [Libc] in
theorem refuses_optionName {d : Char} (hstart : isIdentifierStart d = false) (hd : d ≠ '(') (text : Span)
    : Refuses optionName (d :: text) := by
  apply Refuses.andThen
  apply Refuses.restoring
  intro b b' hcovers a c hrun
  have hparenthesis : (checkAndShift '(').run b = (.ok false, b) := by
    apply checkAndShift_of_head
    rw [hcovers.1]
    rintro ⟨⟩
    exact hd rfl
  simp only [bind_eq] at hrun
  rw [andThen_of_ok hparenthesis] at hrun
  obtain ⟨_, b₁, hchar, -⟩ := andThen_ok.mp (orElse_fail_ok.mp hrun)
  exact refuses_shiftIf hstart _ text b b' hcovers _ _ hchar

omit [Libc] in
theorem refuses_keyword_of_space {β : Type} {word : String} {token : Span} (hword : ' ' ∉ word.toList)
    (hnot : ¬word.toList <+: token) (e : ParsingError) (f : Unit → EntryParser β) (text : Span)
    : Refuses ((keyword word e).andThen f) (token ++ ' ' :: text) := by
  intro b b' hcovers a c hrun
  obtain ⟨_, b₁, hkeyword, -⟩ := andThen_ok.mp hrun
  have hpre : word.toList <+: token ++ (' ' :: (text ++ b'.rest)) := by
    refine ⟨b₁.rest, ?_⟩
    rw [← (literal_true.mp (require_ok.mp hkeyword)).1, hcovers.1]
    simp
  have hspace : BeforeSpace (' ' :: (text ++ b'.rest)) := rfl
  exact hnot (prefix_of_space hword hspace hpre)

theorem reads_valueOption {name : Name} (h : ReadAsOption name.val) (n : Int32)
    : Reads optionParse (name.val ++ assigned (Printf.signed n.val)) fun _ => True := by
  obtain ⟨c, rest, hname, hc⟩ := h
  have hrest : IsIdentifier (c :: rest) := by
    refine ⟨⟨c, rest, rfl, hc⟩, fun d hd => name.2.chars d ?_⟩
    rw [hname]
    exact List.mem_append_right _ hd
  have := reads_numberOption hrest n (.inl rfl)
  rwa [List.nil_append, ← List.append_assoc, ← hname] at this

theorem refuses_valueOption {name : Name} (h : ¬ReadAsOption name.val) (number : Span)
    : Refuses optionParse (name.val ++ assigned number) := by
  apply Refuses.restoring
  by_cases hpre : "option".toList <+: name.val
  . obtain ⟨tail, hname⟩ := hpre
    rw [← hname, List.append_assoc]
    apply refuses_keyword
    cases tail with
    | nil =>
      rw [List.nil_append, assigned, behind_cons]
      apply refuses_skip (isTokenHead_cons (by decide))
      exact (refuses_optionName (by decide) (by decide) _).spanned.andThen _
    | cons c tail =>
      have hstart : isIdentifierStart c = false := by
        by_contra hstart
        exact h ⟨c, tail, hname.symm, by simpa using hstart⟩
      have hchar : isIdentifierChar c = true := name.2.chars c (by simp [← hname])
      have hparenthesis : c ≠ '(' := by
        rintro rfl
        exact absurd hchar (by decide)
      apply refuses_noSkip (isTokenHead_cons (isTokenHead_char hchar))
      exact (refuses_optionName hstart hparenthesis _).spanned.andThen _
  . exact refuses_keyword_of_space (by decide) hpre _ _ _

/-! Plain texts. -/

/--
A character of names, types and numbers, or between them.
-/
def IsPlain (c : Char) : Prop :=
  isIdentifierChar c = true ∨ c ∈ [' ', '.', '-', '<', '>', ',']

omit [Libc] in
theorem IsPlain.not_mem {c : Char} (h : IsPlain c) : c ∉ [';', '/', '"', '\x27', '\x7b'] := by
  intro hmem
  have hall : ∀ c ∈ [';', '/', '"', '\x27', '\x7b'], isIdentifierChar c = false
      ∧ c ∉ [' ', '.', '-', '<', '>', ','] := List.all_iff_forall_prop.mp (by decide)
  obtain ⟨hchar, hother⟩ := hall c hmem
  rcases h with h | h
  . rw [hchar] at h
    exact Bool.false_ne_true h
  . exact hother h

def Plain (text : Span) : Prop :=
  ∀ c ∈ text, IsPlain c

instance : DecidablePred IsPlain :=
  fun c => inferInstanceAs (Decidable (isIdentifierChar c = true ∨ c ∈ [' ', '.', '-', '<', '>', ',']))

instance (text : Span) : Decidable (Plain text) :=
  List.decidableBAll IsPlain text

section Plain

omit [Libc]

theorem Plain.append {text text' : Span} (h : Plain text) (h' : Plain text') : Plain (text ++ text') := by
  intro c hc
  rcases List.mem_append.mp hc with hc | hc
  . exact h c hc
  . exact h' c hc

theorem Plain.space {text : Span} (h : Plain text) : Plain (' ' :: text) := by
  intro c hc
  rcases List.mem_cons.mp hc with rfl | hc
  . exact .inr (by decide)
  . exact h c hc

theorem plain_behind {tokens : List Span} (h : ∀ token ∈ tokens, Plain token) : Plain (behind tokens) := by
  induction tokens with
  | nil => exact fun c hc => absurd hc List.not_mem_nil
  | cons token tokens ih =>
    rw [List.forall_mem_cons] at h
    rw [behind_cons]
    exact h.1.space.append (ih h.2)

theorem plain_spaced {tokens : List Span} (h : ∀ token ∈ tokens, Plain token) : Plain (spaced tokens) := by
  cases tokens with
  | nil => exact fun c hc => absurd hc List.not_mem_nil
  | cons token tokens =>
    rw [List.forall_mem_cons] at h
    rw [spaced_cons]
    exact h.1.append (plain_behind h.2)

theorem plain_name (name : Name) : Plain name.val :=
  fun c hc => .inl (name.2.chars c hc)

theorem plain_path (name : Path) : Plain name.val := by
  intro c hc
  rcases isFullIdentifier_chars name.2 c hc with hchar | rfl
  . exact .inl hchar
  . exact .inr (by decide)

theorem plain_unsigned (n : Nat) : Plain (Printf.unsigned n) := by
  intro c hc
  left
  simp only [isIdentifierChar, isDigit_of_isDigit (Printf.isDigit_of_mem_unsigned hc), Bool.true_or]

variable {text number : Span}

theorem clear_assign (h : Plain text) (number : Span)
    : Clear [';', '/', '"', '\x27'] '=' (text ++ assigned number) := by
  refine ⟨text ++ [' '], ' ' :: (number ++ [' ', ';']), by simp [assigned], ?_⟩
  intro c hc hmem
  rcases List.mem_append.mp hc with hc | hc
  . exact (h c hc).not_mem (by simp at hmem ⊢; grind)
  . rw [List.mem_singleton.mp hc] at hmem
    exact absurd hmem (by decide)

theorem clear_semicolon (h : Plain text) (hnumber : Plain number)
    : Clear ['\x7b', '/'] ';' (text ++ assigned number) := by
  refine ⟨text ++ (' ' :: '=' :: ' ' :: (number ++ [' '])), [], by simp [assigned], ?_⟩
  intro c hc hmem
  have hplain : IsPlain c ∨ c = '=' := by
    simp only [List.mem_append, List.mem_cons, List.not_mem_nil, or_false] at hc
    rcases hc with hc | rfl | rfl | rfl | hc | rfl
    . exact .inl (h c hc)
    . exact .inl (.inr (by decide))
    . exact .inr rfl
    . exact .inl (.inr (by decide))
    . exact .inl (hnumber c hc)
    . exact .inl (.inr (by decide))
  rcases hplain with hplain | rfl
  . exact hplain.not_mem (by simp at hmem ⊢; grind)
  . exact absurd hmem (by decide)

end Plain

/-! The entries of an enum. -/

def EnumItem.Kept : EnumItem → Prop
  | .value name _ => ¬ReadAsOption name.val
  | .option opt => opt.value.Whole
  | .reserved res => res.Kept

/--
What is read of an item where it is read at all.
-/
def EnumItem.ReadAs : EnumItem → EnumEntry → Prop
  | .value name n, e =>
    (¬ReadAsOption name.val ∧ e = .field ⟨name.val, n.val, .empty⟩)
      ∨ (ReadAsOption name.val ∧ ∃ parsed, e = .option parsed)
  | .option opt, e => opt.value.Whole ∧ ∃ parsed, e = .option parsed
  | .reserved res, e => res.Kept ∧ ∃ parsed, e = .reserved parsed

theorem spaced_value (name : Name) (n : Int32)
    : spaced (EnumItem.value name n).tokens = name.val ++ assigned (Printf.signed n.val) := by
  rw [EnumItem.tokens, spaced_cons]
  rfl

theorem reads_enumValue (name : Name) (n : Int32)
    : Reads enumFieldParse (name.val ++ assigned (Printf.signed n.val)) (· = ⟨name.val, n.val, .empty⟩) := by
  rw [enumFieldParse_eq]
  apply Takes.restoring
  apply (readsToken_identifier name.2).spaced
  rintro _ rfl
  exact reads_assignment (readsToken_enumValueNumber n.2.1 n.2.2) (isIntegerLiteral_signed _).isTokenHead _

/--
A keyword and what can be no assignment behind it are no value.
-/
theorem refuses_keywordValue {word : Span} (hword : IsIdentifier word) {d : Char}
    (hd : isWhitespace d = false ∧ d ≠ '/') (hne : d ≠ '=') (text : Span)
    : Refuses enumFieldParse (word ++ ' ' :: d :: text) := by
  rw [enumFieldParse_eq]
  apply Refuses.restoring
  apply (readsToken_identifier hword).refusesSpaced
  rintro _ rfl
  exact refuses_assignment hd hne _ _ text

theorem optionName_head (opt : OptionDecl)
    : ∃ d rest, opt.name = d :: rest ∧ (isIdentifierStart d = true ∨ d = '(') := by
  unfold OptionDecl.name
  cases opt.first with
  | simple name =>
    obtain ⟨d, rest, hname, hd⟩ := name.2.start
    exact ⟨d, _, by rw [NamePart.text, hname]; rfl, .inl hd⟩
  | extension name => exact ⟨'(', _, rfl, .inr rfl⟩

theorem optionText_head (opt : OptionDecl)
    : ∃ d rest, spaced opt.tokens = "option".toList ++ ' ' :: d :: rest ∧ (isIdentifierStart d = true ∨ d = '(') := by
  obtain ⟨d, rest, hname, hd⟩ := optionName_head opt
  refine ⟨d, rest ++ behind [['='], opt.value.token, [';']], ?_, hd⟩
  rw [opt.spaced_eq, hname]
  simp only [List.cons_append, List.nil_append]

omit [Libc] in
theorem reservedText_head (res : ReservedDecl)
    : ∃ d rest, spaced res.tokens = "reserved".toList ++ ' ' :: d :: rest
        ∧ (isDigit d = true ∨ d ∈ ['-', '"', '\x27']) := by
  cases res with
  | names first more =>
    obtain ⟨d, rest, hfirst, hd⟩ := string_quote first
    rw [ReservedDecl.spaced_names, hfirst]
    simp only [Bool.or_eq_true, decide_eq_true_eq] at hd
    exact ⟨d, _, rfl, .inr (by rcases hd with rfl | rfl <;> decide)⟩
  | ranges first more =>
    obtain ⟨d, rest, hfirst, hd⟩ := range_head first
    rw [ReservedDecl.spaced_ranges, hfirst]
    refine ⟨d, _, rfl, hd.imp_right ?_⟩
    rintro rfl
    decide

omit [Libc] in
/--
What is behind the word of reserved numbers or names begins no name and no assignment.
-/
theorem reserved_head {d : Char} (h : isDigit d = true ∨ d ∈ ['-', '"', '\x27'])
    : (isWhitespace d = false ∧ d ≠ '/') ∧ d ≠ '=' ∧ isIdentifierStart d = false := by
  rcases h with h | h
  . refine ⟨isTokenHead_digit h, ?_, ?_⟩
    . rintro rfl
      exact absurd h (by decide)
    . by_contra hstart
      rw [Bool.not_eq_false] at hstart
      rw [isDigit_of_start hstart] at h
      exact Bool.false_ne_true h
  . have hall : ∀ d ∈ ['-', '"', '\x27'], (isWhitespace d = false ∧ d ≠ '/') ∧ d ≠ '='
        ∧ isIdentifierStart d = false := List.all_iff_forall_prop.mp (by decide)
    exact hall d h

omit [Libc] in
theorem isIdentifier_option : IsIdentifier "option".toList :=
  isIdentifier_of_all (by decide) (by decide)

omit [Libc] in
theorem isIdentifier_reserved : IsIdentifier "reserved".toList :=
  isIdentifier_of_all (by decide) (by decide)

omit [Libc] in
theorem option_head {d : Char} (h : isIdentifierStart d = true ∨ d = '(')
    : (isWhitespace d = false ∧ d ≠ '/') ∧ d ≠ '=' := by
  rcases h with h | rfl
  . refine ⟨isTokenHead_start h, ?_⟩
    rintro rfl
    exact absurd h (by decide)
  . decide

theorem enumItem_outcome (item : EnumItem)
    : Reads enumEntry (spaced item.tokens) item.ReadAs ∨ (¬item.Kept ∧ Refuses enumEntry (spaced item.tokens)) := by
  cases item with
  | value name n =>
    left
    rw [spaced_value]
    by_cases h : ReadAsOption name.val
    . apply Takes.orElse
      exact (reads_valueOption h n).map fun parsed _ => .inr ⟨h, parsed, rfl⟩
    . apply takes_other ((refuses_valueOption h _).map _) (restores_restoring _).map
      apply takes_other ((refuses_reservedParse (clear_assign (plain_name name) _)).map _) (restores_restoring _).map
      apply (reads_enumValue name n).map
      rintro _ rfl
      exact .inl ⟨h, rfl⟩
  | option opt =>
    by_cases h : opt.value.Whole
    . left
      apply Takes.orElse
      exact (reads_option opt h).map fun parsed _ => ⟨h, parsed, rfl⟩
    . refine .inr ⟨h, ?_⟩
      apply refuses_orElse ((refuses_option opt h).map _) (restores_restoring _).map
      obtain ⟨d, rest, htext, hd⟩ := optionText_head opt
      rw [htext]
      apply refuses_orElse ((refuses_opening (by decide) _ _ _).map _) (restores_restoring _).map
      exact (refuses_keywordValue isIdentifier_option (option_head hd).1 (option_head hd).2 _).map _
  | reserved res =>
    obtain ⟨d, rest, htext, hd⟩ := reservedText_head res
    have hoption : Refuses optionParse (spaced res.tokens) := by
      rw [htext]
      exact refuses_opening (by decide) _ _ _
    by_cases h : res.Kept
    . left
      apply takes_other (hoption.map _) (restores_restoring _).map
      apply Takes.orElse
      exact (reads_reserved res h).map fun parsed _ => ⟨h, parsed, rfl⟩
    . refine .inr ⟨h, ?_⟩
      apply refuses_orElse (hoption.map _) (restores_restoring _).map
      apply refuses_orElse ((refuses_reserved res h).map _) (restores_restoring _).map
      obtain ⟨hhead, hassign, -⟩ := reserved_head hd
      rw [htext]
      exact (refuses_keywordValue isIdentifier_reserved hhead hassign _).map _

/-! The entries of a oneof. -/

def OneofItem.Kept : OneofItem → Prop
  | .field type _ _ => type.val ≠ "option".toList
  | .option opt => opt.value.Whole

/--
What is read of an item where it is read at all.
-/
def OneofItem.ReadAs : OneofItem → OneofEntry → Prop
  | .field type name number, e =>
    (type.val ≠ "option".toList ∧ e = .field ⟨type.val, name.val, number.val, .empty⟩)
      ∨ (type.val = "option".toList ∧ ∃ parsed, e = .option parsed)
  | .option opt, e => opt.value.Whole ∧ ∃ parsed, e = .option parsed

omit [Libc] in
theorem refuses_integer {d : Char} (hstart : isIdentifierStart d = true) (text : Span)
    : Refuses parseIntegerLiteral (d :: text) := by
  have hminus : d ≠ '-' := by
    rintro rfl
    exact absurd hstart (by decide)
  have hzero : d ≠ '0' := by
    rintro rfl
    exact absurd hstart (by decide)
  have hdecimal : ('1' ≤ d && d ≤ '9') = false := by
    by_contra h
    have := isDigit_of_nonzero (by simpa using h)
    rw [isDigit_of_start hstart] at this
    exact Bool.false_ne_true this
  apply Refuses.restoring
  rintro ⟨offset, _⟩ b' ⟨rfl, -⟩ a c hrun
  have herror : parseDigits.run ⟨offset, d :: (text ++ b'.rest)⟩
      = (.error .invalidIntegerLiteral, ⟨offset, d :: (text ++ b'.rest)⟩) := by
    have hfirst : (shiftIf fun c => '1' ≤ c && c ≤ '9' : EntryParser Bool).run ⟨offset, d :: (text ++ b'.rest)⟩
        = (.ok false, ⟨offset, d :: (text ++ b'.rest)⟩) := by
      simp only [shiftIf, hdecimal, Bool.false_eq_true, if_false]
    simp only [parseDigits, bind_eq]
    rw [andThen_of_ok hfirst, if_neg (by simp), andThen_of_ok (checkAndShift_of_head (by simpa using hzero))]
    rfl
  simp only [valued, bind_eq, List.cons_append] at hrun
  rw [andThen_of_ok (checkAndShift_of_head (by simpa using hminus)), herror] at hrun
  simp at hrun

theorem exists_word_of_not_whole {c : Constant} (h : ¬c.Whole)
    : ∃ d rest, c.token = d :: rest ∧ isIdentifierStart d = true := by
  cases c with
  | number token kind hkind htoken => exact absurd trivial h
  | string literal => exact absurd trivial h
  | word name hdot => exact exists_start hdot

/--
An option whose value is no number is no field with a type that the word of the option is.
-/
theorem refuses_optionField {β : Type} (opt : OptionDecl) (h : ¬opt.value.Whole)
    (make : Span → Int → OptionListResult → β)
    : Refuses (namedAssignment make) (' ' :: (opt.name ++ behind [['='], opt.value.token, [';']])) := by
  unfold OptionDecl.name
  cases opt.first with
  | extension name => exact refuses_namedAssignment (by decide) (by decide) _ _
  | simple name =>
    apply refuses_skip (((name.2.isTokenHead).append _).append _)
    cases opt.more with
    | nil =>
      obtain ⟨d, rest, hvalue, hd⟩ := exists_word_of_not_whole h
      rw [List.flatMap_nil, List.append_nil, hvalue]
      simp only [behind_cons, behind_nil, List.append_nil, List.cons_append, List.nil_append]
      apply (readsToken_identifier name.2).refusesSpaced
      rintro _ -
      apply refuses_skip (isTokenHead_cons (by decide))
      apply refuses_expect
      apply refuses_skip (isTokenHead_cons (isTokenHead_start hd))
      exact ((refuses_integer hd _).andThen _).andThen _
    | cons part more =>
      have hname : Takes NameStops parseIdentifier name.val (· = name.val) :=
        (takes_identifierChars name.2).spanned.mono fun _ => nameEnds_of_stops
      rw [List.append_assoc]
      refine hname.refuses ?_ fun _ => .inr rfl
      rintro _ -
      exact refuses_noSkip (isTokenHead_cons (by decide)) (refuses_expect_other (by decide) _ _ _)

omit [Libc] in
theorem head_of_name (name : Name) : ∃ d rest, name.val = d :: rest ∧ (isWhitespace d = false ∧ d ≠ '/') ∧ d ≠ '=' := by
  obtain ⟨d, rest, hname, hd⟩ := name.2.start
  exact ⟨d, rest, hname, option_head (.inl hd)⟩

omit [Libc] in
theorem clean_path (name : Path) : ∀ c ∈ name.val, c ∉ [' ', '\t', '\n', '\r', '=', '/'] := by
  have hall : ∀ c ∈ [' ', '\t', '\n', '\r', '=', '/'], isIdentifierChar c = false ∧ c ≠ '.' :=
    List.all_iff_forall_prop.mp (by decide)
  intro c hc hmem
  obtain ⟨hchar, hdot⟩ := hall c hmem
  rcases isFullIdentifier_chars name.2 c hc with h | h
  . rw [hchar] at h
    exact Bool.false_ne_true h
  . exact hdot h

omit [Libc] in
theorem signed_natCast (n : Nat) : Printf.signed (n : Int) = Printf.unsigned n := by
  unfold Printf.signed
  rw [if_neg (by omega), Int.natAbs_natCast]

/--
A field whose type is the word of an option.
-/
theorem reads_fieldOption (name : Name) (number : FieldNumber)
    : Reads optionParse ("option".toList ++ ' ' :: (name.val ++ assigned (Printf.unsigned number.val)))
        fun _ => True := by
  have hlower : -(2 ^ 31) ≤ (number.val : Int) := by omega
  have hupper : (number.val : Int) < 2 ^ 31 := by
    have := number.2.2
    omega
  have h := reads_numberOption name.2 ⟨number.val, hlower, hupper⟩ (.inr rfl)
  rwa [signed_natCast] at h

theorem refuses_typeOption {token : Span} (htoken : ∀ c ∈ token, c ∉ [' ', '\t', '\n', '\r', '=', '/'])
    (hne : token ≠ "option".toList) {d : Char} (hd : (isWhitespace d = false ∧ d ≠ '/') ∧ d ≠ '=') (text : Span)
    : Refuses optionParse (token ++ ' ' :: d :: text) :=
  refuses_optionToken hne htoken hd.1 hd.2

theorem spaced_oneofField (type : Path) (name : Name) (number : FieldNumber)
    : spaced (OneofItem.field type name number).tokens
        = type.val ++ ' ' :: (name.val ++ assigned (Printf.unsigned number.val)) := by
  rw [OneofItem.tokens, spaced_cons, behind_cons]
  rfl

theorem reads_oneofField (type : Path) (name : Name) (number : FieldNumber)
    : Reads oneofFieldParse (type.val ++ ' ' :: (name.val ++ assigned (Printf.unsigned number.val)))
        (· = ⟨type.val, name.val, number.val, .empty⟩) := by
  rw [oneofFieldParse_eq]
  apply Takes.restoring
  apply (readsToken_fullIdentifier type.2).spaced
  rintro _ rfl
  exact reads_namedAssignment name number _

theorem oneofItem_outcome (item : OneofItem)
    : Reads oneofEntry (spaced item.tokens) item.ReadAs ∨ (¬item.Kept ∧ Refuses oneofEntry (spaced item.tokens)) := by
  cases item with
  | field type name number =>
    left
    rw [spaced_oneofField]
    by_cases h : type.val = "option".toList
    . apply Takes.orElse
      rw [h]
      exact (reads_fieldOption name number).map fun parsed _ => .inr ⟨h, parsed, rfl⟩
    . obtain ⟨d, rest, hname, hd⟩ := head_of_name name
      have hoption := refuses_typeOption (clean_path type) h hd (rest ++ assigned (Printf.unsigned number.val))
      rw [← List.cons_append, ← hname] at hoption
      apply takes_other (hoption.map _) (restores_restoring _).map
      apply (reads_oneofField type name number).map
      rintro _ rfl
      exact .inl ⟨h, rfl⟩
  | option opt =>
    by_cases h : opt.value.Whole
    . left
      apply Takes.orElse
      exact (reads_option opt h).map fun parsed _ => ⟨h, parsed, rfl⟩
    . refine .inr ⟨h, ?_⟩
      apply refuses_orElse ((refuses_option opt h).map _) (restores_restoring _).map
      apply Refuses.map
      rw [oneofFieldParse_eq, opt.spaced_eq]
      apply Refuses.restoring
      apply (readsToken_fullIdentifier isIdentifier_option.isFullIdentifier).refusesSpaced
      rintro _ rfl
      exact refuses_optionField opt h _

end Gremlin.Printer
