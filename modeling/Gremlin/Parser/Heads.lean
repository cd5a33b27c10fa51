import Gremlin.Parser.Clamped

/-!
This module contains what tells the entries of a message apart: the words that they open with, and the
bracket behind the name of a block.
-/

namespace Gremlin

open Text Parser Buffer

variable {after : List Char}

/-! Words. -/

def Differs (word word' : List Char) : Prop :=
  ¬word <+: word' ∧ ¬word' <+: word

instance (word word' : List Char) : Decidable (Differs word word') :=
  inferInstanceAs (Decidable (_ ∧ _))

theorem checkStr_of_differs {word : List Char} {word' : String} (hword : Differs word word'.toList)
    {b : Buffer} (h : word <+: b.rest) : (checkStrAndShift word').run b = (.ok false, b) := by
  have hnot : ¬word'.toList.isPrefixOf b.rest = true := by
    rw [List.isPrefixOf_iff_prefix]
    intro hpre
    rcases List.prefix_or_prefix_of_prefix h hpre with hpre | hpre
    . exact hword.1 hpre
    . exact hword.2 hpre
  simp only [checkStrAndShift, literal, if_neg hnot]

theorem keyword_of_differs {word : List Char} {word' : String} (hword : Differs word word'.toList)
    {b : Buffer} (h : word <+: b.rest) (e : ParsingError) : (keyword word' e).run b = (.error e, b) := by
  unfold keyword require
  rw [andThen_of_ok (checkStr_of_differs hword h)]
  rfl

theorem opening_ne_ok {α : Type} {word : List Char} {word' : String} (hword : Differs word word'.toList)
    {b : Buffer} (h : word <+: b.rest) (e : ParsingError) (f : Unit → EntryParser α) (a : α) (b' : Buffer)
    : ((keyword word' e).andThen f).restoring.run b ≠ (.ok a, b') := by
  intro hrun
  obtain ⟨_, _, hkeyword, -⟩ := andThen_ok.mp (restoring_ok.mp hrun)
  rw [keyword_of_differs hword h] at hkeyword
  simp at hkeyword

/--
The beginning of a block, up to its opening bracket.
-/
def blockHead (word : String) (parseName : EntryParser Span) : EntryParser Span := do
  keyword word .unexpectedToken
  skipSpaces
  let name ← parseName
  skipSpaces
  expect '{' .bracketExpected
  pure name

theorem messageHead_eq : messageHead = (blockHead "message" parseIdentifier).restoring :=
  rfl

theorem block_eq (word : String) (parseName : EntryParser Span) (entry : EntryParser Unit)
    : block word parseName entry = ((blockHead word parseName).andThen fun name =>
        position.andThen fun bodyStart => (loop (bodyStep entry) ()).andThen fun bodyEnd =>
          succeed ⟨name, bodyStart, bodyEnd⟩).restoring := by
  simp only [block, blockHead, bind_eq, pure_eq, andThen_assoc]
  rfl

theorem sure_blockHead {word : String} (hword : '}' ∉ word.toList) {parseName : EntryParser Span}
    (hname : Exact ('}' :: after) parseName) : Sure ('}' :: after) '/' (blockHead word parseName) :=
  (exact_keyword hword _).soft.andThen_sure fun _ => soft_skipSpaces.andThen_sure fun _ =>
    hname.soft.andThen_sure fun _ => soft_skipSpaces.andThen_sure fun _ =>
    (sure_expect (by decide) _).andThen fun _ => (exact_succeed _).solid

/-! Names behind a word. -/

/--
The characters of a dotted name from inside a segment on.
-/
def identifierTail : EntryParser Unit :=
  (shiftWhile isIdentifierChar).andThen fun _ => loop segmentStep ()

def Stops (b : Buffer) : Prop :=
  ∀ c ∈ b.rest.head?, isIdentifierChar c = false ∧ c ≠ '.'

theorem shiftWhile_run {test : Char → Bool} (b : Buffer)
    : (shiftWhile test : EntryParser Unit).run b
        = (.ok (), ⟨b.offset + (b.rest.takeWhile test).length, b.rest.dropWhile test⟩) :=
  rfl

theorem shiftWhile_of_head {test : Char → Bool} {b : Buffer} (h : ∀ c ∈ b.rest.head?, test c = false)
    : (shiftWhile test : EntryParser Unit).run b = (.ok (), b) := by
  obtain ⟨offset, rest⟩ := b
  cases rest with
  | nil => rfl
  | cons c rest =>
    have hc : test c = false := h c rfl
    simp [shiftWhile, hc]

theorem loop_segmentStep_of_head {b : Buffer} (h : ∀ c ∈ b.rest.head?, c ≠ '.')
    : (loop segmentStep ()).run b = (.ok (), b) := by
  rw [loop_ok_iff progress_segmentStep]
  left
  have hdot : (checkAndShift '.').run b = (.ok false, b) := by
    obtain ⟨offset, rest⟩ := b
    cases rest with
    | nil => rfl
    | cons c rest =>
      have hc : c ≠ '.' := h c rfl
      simp [checkAndShift, shiftIf, hc]
  unfold segmentStep
  apply orElse_of_error
  simp only [restoring, expect, require, bind_eq]
  rw [andThen_of_error]
  rw [andThen_of_ok hdot]
  rfl

theorem identifierTail_of_stops {b : Buffer} (h : Stops b) : identifierTail.run b = (.ok (), b) := by
  unfold identifierTail
  rw [andThen_of_ok (shiftWhile_of_head fun c hc => (h c hc).1)]
  exact loop_segmentStep_of_head fun c hc => (h c hc).2

theorem identifierTail_of_chars {b b' : Buffer} {a : Unit} (h : identifierChars.run b = (.ok a, b'))
    : identifierTail.run b = (loop segmentStep ()).run b' := by
  obtain ⟨_, b₁, hstart, h⟩ := andThen_ok.mp h
  obtain ⟨c, hc, hrest, hoffset⟩ := shiftIf_true.mp (require_ok.mp hstart)
  rw [shiftWhile_run, Prod.mk.injEq] at h
  unfold identifierTail
  rw [andThen_of_ok (shiftWhile_run b), ← h.2, hrest]
  rw [List.takeWhile_cons_of_pos (isIdentifierChar_of_start hc)]
  rw [List.dropWhile_cons_of_pos (isIdentifierChar_of_start hc)]
  rw [hoffset, List.length_cons, Nat.add_assoc, Nat.add_comm 1]

theorem identifierTail_of_fullIdentifier {b b' : Buffer} {span : Span}
    (h : parseFullIdentifier.run b = (.ok span, b')) : identifierTail.run b = (.ok (), b') := by
  obtain ⟨hparts, -⟩ := spanned_ok (restoring_ok.mp h)
  obtain ⟨absolute, b₁, hdot, hparts⟩ := andThen_ok.mp hparts
  obtain ⟨_, b₂, hchars, hloop⟩ := andThen_ok.mp hparts
  cases absolute with
  | false =>
    rw [shiftIf_false hdot] at hchars
    rw [identifierTail_of_chars hchars]
    exact hloop
  | true =>
    obtain ⟨c, hc, hrest, -⟩ := shiftIf_true.mp hdot
    have hstart : (shiftWhile isIdentifierChar : EntryParser Unit).run b = (.ok (), b) := by
      apply shiftWhile_of_head
      intro d hd
      rw [hrest, List.head?_cons, Option.mem_some_iff] at hd
      rw [← hd, of_decide_eq_true hc]
      decide
    unfold identifierTail
    rw [andThen_of_ok hstart, loop_ok_iff progress_segmentStep]
    right
    refine ⟨(), b₂, ?_, hloop⟩
    apply orElse_of_ok
    apply restoring_ok.mpr
    apply andThen_ok.mpr
    exact ⟨(), b₁, require_ok.mpr hdot, andThen_ok.mpr ⟨(), b₂, hchars, rfl⟩⟩

theorem identifierTail_of_word {word : List Char} (hword : IsIdentifier word) {b b₁ b' : Buffer} {span : Span}
    (hcovers : Covers b word b₁) (h : parseFullIdentifier.run b = (.ok span, b'))
    : identifierTail.run b₁ = (.ok (), b') := by
  rw [← identifierTail_of_fullIdentifier h]
  unfold identifierTail
  rw [andThen_of_ok (shiftWhile_run b), andThen_of_ok (shiftWhile_run b₁), hcovers.1, hcovers.2]
  rw [List.takeWhile_append_of_pos hword.chars, List.dropWhile_append_of_pos hword.chars]
  rw [List.length_append, Nat.add_assoc]

/--
A parser of the name of a block: of an identifier, or of a dotted name.
-/
structure Names (parseName : EntryParser Span) : Prop where
  tail : ∀ b span b', parseName.run b = (.ok span, b') → Stops b' → identifierTail.run b = (.ok (), b')
  first : ∀ b span b' segment c, parseName.run b = (.ok span, b') → parseIdentifier.run b = (.ok segment, c)
    → c = b' ∨ c.rest.head? = some '.'

theorem names_parseIdentifier : Names parseIdentifier where
  tail := by
    intro b span b' h hstops
    rw [identifierTail_of_chars (spanned_ok h).1]
    exact loop_segmentStep_of_head fun c hc => (hstops c hc).2
  first := by
    intro b span b' segment c h h'
    rw [h, Prod.mk.injEq] at h'
    exact .inl h'.2.symm

theorem names_parseFullIdentifier : Names parseFullIdentifier where
  tail := by
    intro b span b' h _
    exact identifierTail_of_fullIdentifier h
  first := by
    intro b span b' segment c h h'
    obtain ⟨hparts, -⟩ := spanned_ok (restoring_ok.mp h)
    obtain ⟨absolute, b₁, hdot, hparts⟩ := andThen_ok.mp hparts
    obtain ⟨_, b₂, hchars, hloop⟩ := andThen_ok.mp hparts
    obtain ⟨hchars', -⟩ := spanned_ok h'
    cases absolute with
    | true =>
      -- a dot is the beginning of no identifier
      obtain ⟨d, hd, hrest, -⟩ := shiftIf_true.mp hdot
      obtain ⟨_, _, hstart, -⟩ := andThen_ok.mp hchars'
      obtain ⟨d', hd', hrest', -⟩ := shiftIf_true.mp (require_ok.mp hstart)
      rw [hrest, List.cons.injEq] at hrest'
      rw [← hrest'.1, of_decide_eq_true hd] at hd'
      exact absurd hd' (by decide)
    | false =>
      rw [shiftIf_false hdot, hchars', Prod.mk.injEq] at hchars
      rw [← hchars.2, loop_ok_iff progress_segmentStep] at hloop
      rcases hloop with hdone | ⟨_, _, hagain, -⟩
      . exact .inl (segmentStep_done hdone).symm
      . right
        obtain ⟨_, -, hcovers⟩ := segmentStep_again hagain
        rw [hcovers.1]
        rfl

/-! Blocks. -/

/--
A word that blocks open with. It is told from the words of the entries that come behind blocks.
-/
structure IsBlockWord (word : String) : Prop where
  identifier : IsIdentifier word.toList
  optional : Differs word.toList "optional".toList
  required : Differs word.toList "required".toList
  repeated : Differs word.toList "repeated".toList
  group : Differs word.toList "group".toList
  map : Differs word.toList "map".toList

theorem skipSpaces_of_head {b : Buffer} (h : ∃ c rest, b.rest = c :: rest ∧ isIdentifierStart c = true)
    : skipSpaces.run b = (.ok (), b) := by
  obtain ⟨c, rest, hrest, hc⟩ := h
  rw [skipSpaces_ok, hrest]
  refine ⟨?_, rfl⟩
  apply skip_other
  . by_contra hwhite
    simp only [isWhitespace, Bool.not_eq_false, Bool.or_eq_true, decide_eq_true_eq] at hwhite
    rcases hwhite with ((rfl | rfl) | rfl) | rfl <;> exact absurd hc (by decide)
  . rintro rfl
    exact absurd hc (by decide)

theorem stops_of_skipSpaces {b b' : Buffer} {a : Unit} (hskip : skipSpaces.run b = (.ok a, b'))
    (h : b' = b → Stops b) : Stops b := by
  intro c hc
  obtain ⟨rest, hb⟩ := List.head?_eq_some_iff.mp hc
  have hspaced := (skipSpaces_ok.mp hskip).1
  rw [hb] at hspaced
  by_cases hwhite : isWhitespace c = true
  . simp only [isWhitespace, Bool.or_eq_true, decide_eq_true_eq] at hwhite
    rcases hwhite with ((rfl | rfl) | rfl) | rfl <;> decide
  . by_cases hslash : c = '/'
    . rw [hslash]
      decide
    . rw [skip_other (by simpa using hwhite) hslash, Prod.mk.injEq] at hspaced
      have hlength : b'.rest.length = b.rest.length := by rw [hb, ← hspaced.2]
      exact h ((advances hskip).eq hlength) c hc

theorem stops_of_bracket {b b₁ b₂ : Buffer} {a a' : Unit} (hskip : skipSpaces.run b = (.ok a, b₁))
    (hbracket : (expect '{' .bracketExpected).run b₁ = (.ok a', b₂)) : Stops b := by
  apply stops_of_skipSpaces hskip
  intro heq c hc
  rw [← heq, (expect_ok hbracket).1] at hc
  rw [← Option.mem_some_iff.mp hc]
  decide

theorem fieldLabel_of_differs {word : List Char} (hoptional : Differs word "optional".toList)
    (hrequired : Differs word "required".toList) (hrepeated : Differs word "repeated".toList) {b : Buffer}
    (h : word <+: b.rest) : fieldLabel.run b = (.ok .none, b) := by
  simp only [fieldLabel, bind_eq]
  rw [andThen_of_ok (checkStr_of_differs hoptional h)]
  simp only [Bool.false_eq_true, if_false]
  rw [andThen_of_ok (checkStr_of_differs hrequired h)]
  simp only [Bool.false_eq_true, if_false]
  rw [andThen_of_ok (checkStr_of_differs hrepeated h)]
  rfl

theorem parseFieldType_of_differs {word : List Char} (hmap : Differs word "map".toList) {b b' : Buffer}
    {type : FieldType} (h : word <+: b.rest) (htype : parseFieldType.run b = (.ok type, b'))
    : ∃ span, parseFullIdentifier.run b = (.ok span, b') := by
  rcases orElse_ok htype with hrun | ⟨_, c, hrun, htype⟩
  . exact absurd hrun (opening_ne_ok hmap h _ _ _ _)
  . rw [(restoring_error hrun).1] at htype
    obtain ⟨span, hspan, -⟩ := map_ok.mp (orElse_fail_ok.mp htype)
    exact ⟨span, hspan⟩

variable {word : String} (hword : IsBlockWord word) {parseName : EntryParser Span} (hname : Names parseName)

include hword hname

/--
What opens a block is no field: the name of its type takes the word, and maybe the name of the block.
-/
theorem fieldParse_ne_ok [Libc] {b b' : Buffer} {name : Span} (h : (blockHead word parseName).run b = (.ok name, b'))
    (x : FieldParseResult) (c : Buffer) : fieldParse.run b ≠ (.ok x, c) := by
  intro hfield
  obtain ⟨_, b₁, hkeyword, h⟩ := andThen_ok.mp h
  obtain ⟨_, b₂, hskip, h⟩ := andThen_ok.mp h
  obtain ⟨name', b₃, hparse, h⟩ := andThen_ok.mp h
  obtain ⟨_, b₄, hskip', h⟩ := andThen_ok.mp h
  obtain ⟨_, b₅, hbracket, -⟩ := andThen_ok.mp h
  have hcovers : Covers b word.toList b₁ := literal_true.mp (require_ok.mp hkeyword)
  have hpre : word.toList <+: b.rest := ⟨b₁.rest, hcovers.1.symm⟩
  have hstops := stops_of_bracket hskip' hbracket
  -- the field: no label, no map
  obtain ⟨label, c₁, hlabel, hfield⟩ := andThen_ok.mp (restoring_ok.mp hfield)
  obtain ⟨type, c₂, htype, hfield⟩ := andThen_ok.mp hfield
  obtain ⟨_, c₃, hspaces, hfield⟩ := andThen_ok.mp hfield
  obtain ⟨segment, c₄, hsegment, hfield⟩ := andThen_ok.mp hfield
  obtain ⟨_, c₅, hspaces', hfield⟩ := andThen_ok.mp hfield
  obtain ⟨_, c₆, hassign, -⟩ := andThen_ok.mp hfield
  have hnolabel := fieldLabel_of_differs hword.optional hword.required hword.repeated hpre
  rw [hnolabel, Prod.mk.injEq] at hlabel
  rw [← hlabel.2] at htype
  obtain ⟨span, hspan⟩ := parseFieldType_of_differs hword.map hpre htype
  have htail := identifierTail_of_word hword.identifier hcovers hspan
  have hbracket := (expect_ok hbracket).1
  have hassign := (expect_ok hassign).1
  have htail' := hname.tail b₂ name' b₃ hparse hstops
  by_cases hsame : b₂ = b₁
  . -- nothing but the name is between the word and the bracket: it belongs to the type
    rw [hsame, htail, Prod.mk.injEq] at htail'
    rw [htail'.2, hskip', Prod.mk.injEq] at hspaces
    obtain ⟨_, d, hstart, -⟩ := andThen_ok.mp (spanned_ok hsegment).1
    obtain ⟨d', hd', hrest, -⟩ := shiftIf_true.mp (require_ok.mp hstart)
    rw [← hspaces.2, hbracket] at hrest
    rw [← (List.cons.inj hrest).1] at hd'
    exact absurd hd' (by decide)
  . have hstops' : Stops b₁ := stops_of_skipSpaces hskip fun heq => absurd heq hsame
    rw [identifierTail_of_stops hstops', Prod.mk.injEq] at htail
    rw [← htail.2, hskip, Prod.mk.injEq] at hspaces
    rw [← hspaces.2] at hsegment
    rcases hname.first _ _ _ _ _ hparse hsegment with hend | hdot
    . rw [hend, hskip', Prod.mk.injEq] at hspaces'
      rw [← hspaces'.2, hbracket] at hassign
      exact absurd (List.cons.inj hassign).1 (by decide)
    . obtain ⟨rest, hdot⟩ := List.head?_eq_some_iff.mp hdot
      have hspaced := (skipSpaces_ok.mp hspaces').1
      rw [hdot, skip_other (by decide) (by decide), hassign, Prod.mk.injEq] at hspaced
      exact absurd (List.cons.inj hspaced.2).1 (by decide)

omit hname in
theorem groupParse_ne_ok {b : Buffer} (hpre : word.toList <+: b.rest) (x : Unit) (c : Buffer)
    : groupParse.run b ≠ (.ok x, c) := by
  intro hgroup
  have hspaces : skipSpaces.run b = (.ok (), b) := by
    obtain ⟨d, rest, hd, hstart⟩ := hword.identifier.start
    obtain ⟨rest', hrest⟩ := hpre
    rw [hd, List.cons_append] at hrest
    exact skipSpaces_of_head ⟨d, rest ++ rest', hrest.symm, hstart⟩
  simp only [groupParse, bind_eq] at hgroup
  rw [restoring_ok] at hgroup
  rw [andThen_of_ok (checkStr_of_differs hword.optional hpre)] at hgroup
  rw [andThen_of_ok (checkStr_of_differs hword.required hpre)] at hgroup
  rw [andThen_of_ok (checkStr_of_differs hword.repeated hpre)] at hgroup
  rw [andThen_of_ok hspaces] at hgroup
  rw [andThen_of_error (keyword_of_differs hword.group hpre _)] at hgroup
  simp at hgroup

end Gremlin
