import Gremlin.Printer.Ahead
import Gremlin.Printer.Source

/-!
This module contains what the parsers take of a printed option.
-/

namespace Gremlin.Printer

open Text Parser Buffer

variable {F : Span → Prop}

/-! Names of options. -/

def NameStops (rest : Span) : Prop :=
  rest.head? = some ' ' ∨ rest.head? = some '.'

theorem nameEnds_of_stops {rest : Span} (h : NameStops rest) : NameEnds rest := by
  rcases h with h | h <;> obtain ⟨rest, rfl⟩ := List.head?_eq_some_iff.mp h <;> rintro c ⟨⟩ <;> decide

theorem wordEnds_bracket (rest : Span) : WordEnds (')' :: rest) := by
  refine ⟨?_, ?_⟩
  . rintro c ⟨⟩
    decide
  . rintro c rest' ⟨⟩

theorem checkAndShift_of_head {c : Char} {b : Buffer} (h : b.rest.head? ≠ some c)
    : (checkAndShift c).run b = (.ok false, b) := by
  obtain ⟨offset, rest⟩ := b
  cases rest with
  | nil => rfl
  | cons d rest =>
    rw [checkAndShift_cons, if_neg]
    rintro rfl
    exact h rfl

theorem head_of_start {span : Span} (h : IsIdentifier span) {c : Char} (hc : isIdentifierStart c = false)
    (rest : Span) : (span ++ rest).head? ≠ some c := by
  obtain ⟨d, tail, rfl, hd⟩ := h.start
  rintro ⟨⟩
  rw [hc] at hd
  exact Bool.false_ne_true hd

/--
The dot before a name is taken apart from it.
-/
theorem takes_dotted {span text : Span} (h : IsFullIdentifier span) {e : ParsingError} {q : EntryParser Unit}
    {P : Unit → Prop} (hends : ∀ rest, F rest → WordEnds (text ++ rest)) (hq : Takes F q text P)
    : Takes F ((checkAndShift '.').andThen fun _ => (parseFullIdentifier.orElse (fail e)).andThen fun _ => q)
        (span ++ text) P := by
  have hname {span : Span} (h : IsFullIdentifier span)
      : Takes F ((parseFullIdentifier.orElse (fail e)).andThen fun _ => q) (span ++ text) P :=
    ((takes_fullIdentifier h).orElse (fail e)).andThen (fun _ _ => hq) hends
  obtain ⟨absolute, segments, hne, hsegments, hspan⟩ := h
  cases absolute with
  | true =>
    have htail : IsFullIdentifier (List.intercalate ['.'] segments) := ⟨false, segments, hne, hsegments, rfl⟩
    rw [hspan, List.append_assoc]
    exact (takes_check (F := Anything) '.').andThen (fun _ _ => hname htail) fun _ _ => trivial
  | false =>
    intro b b' hcovers hend
    have hstart : b.rest.head? ≠ some '.' := by
      obtain ⟨segment, segments, rfl⟩ := List.exists_cons_of_ne_nil hne
      rw [hcovers.1, hspan, intercalate_cons]
      simp only [Bool.false_eq_true, if_false, List.nil_append, List.append_assoc]
      exact head_of_start (hsegments segment List.mem_cons_self) (by decide) _
    rw [andThen_of_ok (checkAndShift_of_head hstart)]
    exact hname ⟨false, segments, hne, hsegments, hspan⟩ b b' hcovers hend

theorem takes_namePart (part : NamePart) : Takes NameStops optionNamePart part.text fun _ => True := by
  apply Takes.restoring
  cases part with
  | simple name =>
    intro b b' hcovers hend
    have hstart : b.rest.head? ≠ some '(' := by
      rw [hcovers.1]
      exact head_of_start name.2 (by decide) _
    rw [bind_eq, andThen_of_ok (checkAndShift_of_head hstart)]
    exact (takes_identifierChars name.2).orElse _ b b' hcovers (nameEnds_of_stops hend)
  | extension name =>
    have hclose : Takes NameStops (expect ')' .invalidOptionName) [')'] fun _ => True := (takes_check ')').require _
    have hdotted := @takes_dotted _ _ _ name.2 .invalidOptionName _ _ (fun rest _ => wordEnds_bracket rest) hclose
    apply (takes_check (F := Anything) '(').andThen _ fun _ _ => trivial
    rintro _ rfl
    exact hdotted

theorem readsToken_optionName (first : NamePart) (more : List NamePart)
    : ReadsToken optionName (first.text ++ more.flatMap fun part => '.' :: part.text) fun _ => True := by
  have hloop : ∀ more : List NamePart, ReadsToken (loop optionNameStep ())
      (more.flatMap fun part => '.' :: part.text) fun _ => True := by
    intro more
    induction more with
    | nil =>
      intro b b' hcovers hend
      obtain rfl := eq_of_covers_nil hcovers
      refine ⟨(), trivial, ?_⟩
      rw [loop_ok_iff progress_optionNameStep]
      left
      have hdot : b'.rest.head? ≠ some '.' := by
        rw [hend]
        simp
      simp only [optionNameStep, bind_eq]
      rw [andThen_of_ok (checkAndShift_of_head hdot)]
      rfl
    | cons part more ih =>
      intro b b' hcovers hend
      rw [List.flatMap_cons, List.cons_append] at hcovers
      obtain ⟨b₁, hdot, hcovers⟩ := covers_cons.mp hcovers
      obtain ⟨b₂, hpart, hcovers⟩ := covers_append.mp hcovers
      have hstops : NameStops b₂.rest := by
        rw [hcovers.1]
        cases more with
        | nil => exact .inl hend
        | cons part' more => exact .inr rfl
      obtain ⟨_, -, hrun⟩ := takes_namePart part b₁ b₂ hpart hstops
      obtain ⟨_, -, hloop⟩ := ih b₂ b' hcovers hend
      refine ⟨(), trivial, ?_⟩
      rw [loop_ok_iff progress_optionNameStep]
      right
      refine ⟨(), b₂, ?_, hloop⟩
      simp only [optionNameStep, bind_eq]
      rw [andThen_of_ok ((takes_check (F := Anything) '.').run hdot trivial), if_pos rfl, andThen_of_ok hrun]
      rfl
  apply (takes_namePart first).andThen fun _ _ => hloop more
  intro rest hend
  cases more with
  | nil => exact .inl hend
  | cons part more => exact .inr rfl

/-! Constants. -/

section Constants

variable [Libc]

def specials : List Span :=
  ["inf".toList, "nan".toList]

/--
The constant is taken as a whole: a word that begins with the name of a special number is that name.
-/
def Constant.Whole : Constant → Prop
  | .word name _ => ∀ special ∈ specials, special <+: name.val → name.val = special
  | .number .. | .string _ => True

theorem numberReading_of_head {c : Char} {rest : Span} (hsign : c ≠ '-') (hdot : c ≠ '.') (hdigit : isDigit c = false)
    (hspecials : ∀ special ∈ specials, ¬special <+: c :: rest) : numberReading (c :: rest) = none := by
  have hsplit : splitSign (c :: rest) = ([], c :: rest) := by
    unfold splitSign
    split
    . next heq =>
      rw [List.cons.injEq] at heq
      exact absurd heq.1 hsign
    . rfl
  have hdigits : scanDigits (c :: rest) = none := by
    rw [scanDigits.eq_def]
    dsimp only
    rw [if_neg, if_neg]
    . rintro rfl
      exact absurd hdigit (by decide)
    . intro hnonzero
      rw [isDigit_of_nonzero hnonzero] at hdigit
      exact Bool.false_ne_true hdigit.symm
  rw [numberReading_none]
  unfold BeginsNumber
  rw [hsplit, hdigits]
  rintro (hinf | hnan | ⟨⟨d, hd, hd'⟩, -⟩ | ⟨hsome, -⟩)
  . exact hspecials _ (by decide) hinf
  . exact hspecials _ (by decide) hnan
  . obtain rfl := Option.mem_some_iff.mp hd
    rcases hd' with hd' | hd'
    . rw [hd'] at hdigit
      exact Bool.false_ne_true hdigit.symm
    . exact hdot hd'
  . simp at hsome

theorem readsToken_number {token : Span} {kind : ConstKind} (hkind : kind = .integer ∨ kind = .float)
    (h : ∀ rest, BeforeSpace rest → IsConstToken token rest kind)
    : ReadsToken parseConstValue token fun _ => True := by
  rintro ⟨offset, text⟩ ⟨offset', rest⟩ ⟨htext, hoffset⟩ hend
  obtain ⟨c, -, hreading⟩ := numberReading_token (h rest hend) hkind
  dsimp only at htext hoffset
  rw [htext, hoffset]
  exact ⟨c, trivial, parseConstValue_number hreading offset⟩

theorem isConstToken_special {word : Span} (h : word ∈ specials) {rest : Span} (hend : BeforeSpace rest)
    : IsConstToken word rest .float := by
  have hword : word = "inf".toList ∨ word = "nan".toList := by simpa [specials] using h
  exact @IsConstToken.special _ [] word rest (.inl rfl) hword (ends_of_space hend).2.1

omit [Libc] in
theorem prefix_of_space {special text rest : Span} (hspecial : ' ' ∉ special) (hend : BeforeSpace rest)
    (h : special <+: text ++ rest) : special <+: text := by
  rcases List.prefix_or_prefix_of_prefix h (List.prefix_append text rest) with hle | ⟨tail, rfl⟩
  . exact hle
  . rw [List.prefix_append_right_inj] at h
    cases tail with
    | nil => simp
    | cons c tail =>
      obtain ⟨rest, rfl⟩ := List.head?_eq_some_iff.mp hend
      rw [List.cons_prefix_cons] at h
      rw [h.1] at hspecial
      simp at hspecial

omit [Libc] in
theorem exists_start {name : Path} (h : name.val.head? ≠ some '.')
    : ∃ c rest, name.val = c :: rest ∧ isIdentifierStart c = true := by
  obtain ⟨c, rest, hname, hc⟩ := isFullIdentifier_head name.2
  refine ⟨c, rest, hname, ?_⟩
  rcases hc with hc | ⟨rfl, -⟩
  . exact hc
  . rw [hname] at h
    exact absurd rfl h

omit [Libc] in
theorem not_special_of_head {c : Char} (hc : isIdentifierStart c = false) (rest : Span)
    : ∀ special ∈ specials, ¬special <+: c :: rest := by
  have hheads : ∀ special ∈ specials, ∃ d tail, special = d :: tail ∧ isIdentifierStart d = true := by
    simp only [specials, List.forall_mem_cons]
    exact ⟨⟨'i', _, rfl, rfl⟩, ⟨'n', _, rfl, rfl⟩, by simp⟩
  intro special hmem hpre
  obtain ⟨d, tail, rfl, hd⟩ := hheads special hmem
  rw [List.cons_prefix_cons] at hpre
  rw [hpre.1, hc] at hd
  exact Bool.false_ne_true hd

theorem readsToken_constant (c : Constant) (hwhole : c.Whole) : ReadsToken parseConstValue c.token fun _ => True := by
  intro b b' hcovers hend
  -- What is read as no number is read as a token of another kind.
  have hother {kind : ConstKind} (hnone : numberReading b.rest = none) (htoken : IsConstToken c.token b'.rest kind)
      : ∃ v, True ∧ parseConstValue.run b = (.ok v, b') := by
    obtain ⟨v, -, hrun⟩ := (takesToken_other hnone).complete _ b' kind hcovers htoken
    exact ⟨v, trivial, hrun⟩
  cases c with
  | number token kind hkind h => exact readsToken_number hkind h b b' hcovers hend
  | word name hdot =>
    have hspaces : ∀ special ∈ specials, ' ' ∉ special := by decide
    by_cases hspecial : ∃ special ∈ specials, special <+: name.val
    . obtain ⟨special, hmem, hpre⟩ := hspecial
      have heq := hwhole special hmem hpre
      rw [Constant.token, heq] at hcovers
      exact readsToken_number (.inr rfl) (fun rest hend => isConstToken_special hmem hend) b b' hcovers hend
    . obtain ⟨d, tail, hname, hd⟩ := exists_start hdot
      have hnot : ∀ special ∈ specials, ¬special <+: b.rest := by
        intro special hmem hpre
        rw [hcovers.1] at hpre
        exact hspecial ⟨special, hmem, prefix_of_space (hspaces special hmem) hend hpre⟩
      have hrest : b.rest = d :: (tail ++ b'.rest) := by
        rw [hcovers.1, Constant.token, hname, List.cons_append]
      have hword {special : Span} (hmem : special ∈ specials) : name.val ≠ special := by
        rintro rfl
        exact hspecial ⟨_, hmem, List.prefix_rfl⟩
      apply hother _ (.identifier name.2 (hword (by decide)) (hword (by decide)) (ends_of_space hend).2.1)
      rw [hrest] at hnot ⊢
      apply numberReading_of_head _ _ (isDigit_of_start hd) hnot
      . rintro rfl
        exact absurd hd (by decide)
      . rintro rfl
        exact absurd hd (by decide)
  | string literal =>
    obtain ⟨span, close, items, h⟩ := literal.2
    have hrest : b.rest = close :: (span ++ [close] ++ b'.rest) := by
      rw [hcovers.1, Constant.token, h.literal_eq, List.cons_append]
    apply hother _ (.string h)
    rw [hrest]
    rcases h.quote with rfl | rfl
    . exact numberReading_of_head (by decide) (by decide) (by decide) (not_special_of_head (by decide) _)
    . exact numberReading_of_head (by decide) (by decide) (by decide) (not_special_of_head (by decide) _)

/--
Of a word that goes on behind the name of a special number, that name is all that is taken.
-/
theorem constant_not_whole {c : Constant} (hnot : ¬c.Whole) {b b' : Buffer} (hcovers : Covers b c.token b')
    {v : Const} {b₁ : Buffer} (hrun : parseConstValue.run b = (.ok v, b₁))
    : ∃ d rest, b₁.rest = d :: rest ∧ (isIdentifierChar d = true ∨ d = '.') := by
  cases c with
  | number token kind hkind h => exact absurd trivial hnot
  | string literal => exact absurd trivial hnot
  | word name hdot =>
    simp only [Constant.Whole, not_forall] at hnot
    obtain ⟨special, hmem, ⟨tail, htail⟩, hne⟩ := hnot
    have hword : special = "inf".toList ∨ special = "nan".toList := by simpa [specials] using hmem
    obtain ⟨offset, text⟩ := b
    obtain ⟨htext, -⟩ := hcovers
    dsimp only [Constant.token] at htext
    obtain ⟨w, hreading⟩ := @numberReading_special _ [] special (tail ++ b'.rest) (.inl rfl) hword
    rw [List.nil_append, ← List.append_assoc, htail, ← htext] at hreading
    rw [parseConstValue_number hreading, Prod.mk.injEq] at hrun
    rw [← hrun.2]
    cases tail with
    | nil =>
      rw [List.append_nil] at htail
      exact absurd htail.symm hne
    | cons d tail =>
      have hd : d ∈ name.val := by
        rw [← htail]
        simp
      exact ⟨d, tail ++ b'.rest, rfl, isFullIdentifier_chars name.2 d hd⟩

/-! Options. -/

theorem isTokenHead_optionName (opt : OptionDecl) : IsTokenHead opt.name := by
  apply IsTokenHead.append
  cases opt.first with
  | simple name => exact name.2.isTokenHead
  | extension name => exact isTokenHead_cons (by decide)

theorem isTokenHead_constant (c : Constant) : IsTokenHead c.token := by
  cases c with
  | number token kind hkind h => exact (h [' '] rfl).isTokenHead hkind
  | word name _ => exact name.2.isTokenHead
  | string literal =>
    obtain ⟨span, close, items, h⟩ := literal.2
    rw [Constant.token, h.literal_eq]
    rcases h.quote with rfl | rfl <;> exact isTokenHead_cons (by decide)

/--
The word of an option may have no space behind it.
-/
theorem reads_optionText (opt : OptionDecl) (hwhole : opt.value.Whole) {gap : Span} (hgap : gap = [] ∨ gap = [' '])
    : Reads optionParse ("option".toList ++ (gap ++ (opt.name ++ behind [['='], opt.value.token, [';']])))
        fun _ => True := by
  simp only [behind_cons, behind_nil, List.append_nil, List.cons_append, List.nil_append]
  apply Takes.restoring
  apply takes_keyword
  apply takes_gap hgap ((isTokenHead_optionName opt).append _)
  apply (readsToken_optionName opt.first opt.more).spanned.spaced
  rintro _ rfl
  apply takes_skip (isTokenHead_cons (by decide))
  apply takes_expect
  apply takes_skip ((isTokenHead_constant opt.value).append _)
  apply (readsToken_constant opt.value hwhole).spaced
  rintro v -
  apply takes_skip (isTokenHead_cons (by decide))
  apply takes_expect
  exact takes_succeed trivial

theorem OptionDecl.spaced_eq (opt : OptionDecl)
    : spaced opt.tokens = "option".toList ++ ([' '] ++ (opt.name ++ behind [['='], opt.value.token, [';']])) := by
  rw [OptionDecl.tokens, spaced_cons, behind_cons]
  simp only [List.cons_append, List.nil_append]

theorem reads_option (opt : OptionDecl) (hwhole : opt.value.Whole)
    : Reads optionParse (spaced opt.tokens) fun _ => True := by
  rw [opt.spaced_eq]
  exact reads_optionText opt hwhole (.inr rfl)

theorem refuses_option (opt : OptionDecl) (hnot : ¬opt.value.Whole) : Refuses optionParse (spaced opt.tokens) := by
  rw [OptionDecl.tokens, spaced_cons]
  simp only [behind_cons, behind_nil, List.append_nil, List.cons_append, List.nil_append]
  apply Refuses.restoring
  apply refuses_keyword
  apply refuses_skip ((isTokenHead_optionName opt).append _)
  apply (readsToken_optionName opt.first opt.more).spanned.refusesSpaced
  rintro _ rfl
  apply refuses_skip (isTokenHead_cons (by decide))
  apply refuses_expect
  apply refuses_skip ((isTokenHead_constant opt.value).append _)
  intro b b' hcovers y c hrun
  obtain ⟨v, b₁, hconst, hrun⟩ := andThen_ok.mp hrun
  obtain ⟨b₂, hcovers, -⟩ := covers_append.mp hcovers
  obtain ⟨d, rest, hrest, hd⟩ := constant_not_whole hnot hcovers hconst
  have hhead : isWhitespace d = false ∧ d ≠ '/' := by
    rcases hd with hd | rfl
    . exact isTokenHead_char hd
    . decide
  obtain ⟨_, b₃, hskip, hrun⟩ := andThen_ok.mp hrun
  rw [skipSpaces_token (hrest ▸ isTokenHead_cons hhead), Prod.mk.injEq] at hskip
  obtain ⟨_, _, hexpect, -⟩ := andThen_ok.mp hrun
  have hsemicolon := (expect_ok hexpect).1
  rw [← hskip.2, hrest, List.singleton_append, List.cons.injEq] at hsemicolon
  rw [hsemicolon.1] at hd
  exact absurd hd (by decide)

/--
A word that has no option's name and an assignment behind it is not the one of an option.
-/
theorem refuses_optionToken {token text : Span} {d : Char} (hne : token ≠ "option".toList)
    (htoken : ∀ c ∈ token, c ∉ [' ', '\t', '\n', '\r', '=', '/']) (hd : isWhitespace d = false ∧ d ≠ '/')
    (hassign : d ≠ '=') : Refuses optionParse (token ++ ' ' :: d :: text) := by
  apply Refuses.restoring
  intro b b' hcovers a c hrun
  obtain ⟨_, b₁, hkeyword, hrun⟩ := andThen_ok.mp hrun
  obtain ⟨_, b₂, hskip, hrun⟩ := andThen_ok.mp hrun
  obtain ⟨_, b₃, hname, hrun⟩ := andThen_ok.mp hrun
  obtain ⟨_, b₄, hskip', hrun⟩ := andThen_ok.mp hrun
  obtain ⟨_, b₅, hexpect, -⟩ := andThen_ok.mp hrun
  have hword := literal_true.mp (require_ok.mp hkeyword)
  have hrest : b.rest = token ++ (' ' :: d :: (text ++ b'.rest)) := by
    rw [hcovers.1]
    simp
  have hpre : "option".toList <+: token ++ (' ' :: d :: (text ++ b'.rest)) := by
    rw [← hrest]
    exact ⟨b₁.rest, hword.1.symm⟩
  have hspace : BeforeSpace (' ' :: d :: (text ++ b'.rest)) := rfl
  obtain ⟨tail, rfl⟩ := prefix_of_space (by decide) hspace hpre
  rw [hrest, List.append_assoc] at hword
  have hrest₁ := (List.append_cancel_left hword.1).symm
  -- what the word is without the keyword, up to the space
  have hahead : Ahead [' ', '\t', '\n', '\r', '=', '/'] (' ' :: d :: (text ++ b'.rest)) b₁ :=
    ⟨tail, hrest₁, fun c hc => htoken c (List.mem_append_right _ hc)⟩
  have htail : ∃ c tail', tail = c :: tail' := by
    cases tail with
    | nil => exact absurd (List.append_nil _) hne
    | cons c tail' => exact ⟨c, tail', rfl⟩
  have hhead {c : Char} (hc : c ∉ [' ', '\t', '\n', '\r', '=', '/']) : isWhitespace c = false ∧ c ≠ '/' := by
    simp only [List.mem_cons, List.not_mem_nil, or_false, not_or] at hc
    simp [isWhitespace, hc]
  obtain ⟨c₁, tail', rfl⟩ := htail
  have hc₁ := htoken c₁ (by simp)
  rw [skipSpaces_token (hrest₁ ▸ isTokenHead_cons (hhead hc₁)), Prod.mk.injEq] at hskip
  rw [← hskip.2] at hname
  obtain ⟨pre, hpre, hbad⟩ := (stays_optionName (by decide)).spanned.run hahead hname
  have hassign' := (expect_ok hexpect).1
  cases pre with
  | nil =>
    have hcovers₃ : Covers b₃ [' '] ⟨b₃.offset + 1, d :: (text ++ b'.rest)⟩ := ⟨hpre, rfl⟩
    rw [skipSpaces_space hcovers₃ (isTokenHead_cons hd), Prod.mk.injEq] at hskip'
    rw [← hskip'.2, List.singleton_append, List.cons.injEq] at hassign'
    exact hassign hassign'.1
  | cons c₃ pre =>
    have hc₃ := hbad c₃ List.mem_cons_self
    rw [skipSpaces_token (hpre ▸ isTokenHead_cons (hhead hc₃)), Prod.mk.injEq] at hskip'
    rw [← hskip'.2, hpre, List.cons_append, List.singleton_append, List.cons.injEq] at hassign'
    rw [hassign'.1] at hc₃
    exact hc₃ (by decide)

end Constants

end Gremlin.Printer
