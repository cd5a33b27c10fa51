import Gremlin.Printer.Entries

/-!
This module contains what the parser of the entries of a message takes where a field is printed.
-/

namespace Gremlin.Printer

open Text Parser Buffer

/-! A field among the entries of a message. -/

section Alternatives

variable [Libc] {head number : Span} (hhead : Plain head) (hnumber : Plain number)

include hhead hnumber

theorem refuses_blocks
    : Refuses enumParse (head ++ assigned number) ∧ Refuses messageParse (head ++ assigned number)
        ∧ Refuses oneofParse (head ++ assigned number) ∧ Refuses extendParse (head ++ assigned number) := by
  have hclear := clear_semicolon hhead hnumber
  have hname (bad rest : Span) : Stays (Ahead bad (';' :: rest)) parseIdentifier := stays_parseIdentifier (by decide)
  have hpath (bad rest : Span) : Stays (Ahead bad (';' :: rest)) parseFullIdentifier :=
    stays_parseFullIdentifier (by decide)
  refine ⟨?_, ?_, ?_, ?_⟩
  . exact refuses_block hclear (by decide) hname _
  . exact ((refuses_messageHead hclear).andThen _).restoring
  . exact refuses_block hclear (by decide) hname _
  . exact (refuses_block hclear (by decide) hpath _).andThen _

variable {text : Span} (htext : text = head ++ assigned number)

include htext

theorem takes_messageOption {F : Span → Prop} {P : OptionParseResult → Prop} (h : Takes F optionParse text P)
    : Takes F messageEntry text fun e => ∃ parsed, e = .option parsed := by
  obtain ⟨henum, hmessage, honeof, -⟩ := refuses_blocks hhead hnumber
  rw [htext] at h ⊢
  apply takes_other (henum.map _) (restores_restoring _).map
  apply takes_other (hmessage.map _) (restores_restoring _).map
  apply takes_other (honeof.map _) (restores_restoring _).map
  apply Takes.orElse
  exact h.map fun parsed _ => ⟨parsed, rfl⟩

theorem takes_messageField {F : Span → Prop} {P : FieldParseResult → Prop} (hoption : Refuses optionParse text)
    (h : Takes F fieldParse text P) : Takes F messageEntry text fun e => ∃ parsed, e = .field parsed ∧ P parsed := by
  obtain ⟨henum, hmessage, honeof, hextend⟩ := refuses_blocks hhead hnumber
  rw [htext] at h hoption ⊢
  apply takes_other (henum.map _) (restores_restoring _).map
  apply takes_other (hmessage.map _) (restores_restoring _).map
  apply takes_other (honeof.map _) (restores_restoring _).map
  apply takes_other (hoption.map _) (restores_restoring _).map
  apply takes_other ((refuses_extensionsParse (clear_assign hhead number)).map _) (restores_restoring _).map
  apply takes_other ((refuses_reservedParse (clear_assign hhead number)).map _) (restores_restoring _).map
  apply takes_other (hextend.map _) restores_extendParse.map
  apply takes_other ((refuses_groupParse (clear_semicolon hhead hnumber)).map _) (restores_restoring _).map
  apply Takes.orElse
  exact h.map fun parsed hparsed => ⟨parsed, rfl, hparsed⟩

theorem refuses_messageField (hoption : Refuses optionParse text) (h : Refuses fieldParse text)
    : Refuses messageEntry text := by
  obtain ⟨henum, hmessage, honeof, hextend⟩ := refuses_blocks hhead hnumber
  rw [htext] at h hoption ⊢
  apply refuses_orElse (henum.map _) (restores_restoring _).map
  apply refuses_orElse (hmessage.map _) (restores_restoring _).map
  apply refuses_orElse (honeof.map _) (restores_restoring _).map
  apply refuses_orElse (hoption.map _) (restores_restoring _).map
  apply refuses_orElse ((refuses_extensionsParse (clear_assign hhead number)).map _) (restores_restoring _).map
  apply refuses_orElse ((refuses_reservedParse (clear_assign hhead number)).map _) (restores_restoring _).map
  apply refuses_orElse (hextend.map _) restores_extendParse.map
  apply refuses_orElse ((refuses_groupParse (clear_semicolon hhead hnumber)).map _) (restores_restoring _).map
  apply refuses_orElse (h.map _) (restores_restoring _).map
  exact refuses_fail _ _

end Alternatives

/-! Labels. -/

def labelWords : List Span :=
  ["optional".toList, "required".toList, "repeated".toList]

def labelWord : FieldLabel → Span
  | .none => []
  | .optional => "optional".toList
  | .required => "required".toList
  | .repeated => "repeated".toList

theorem labelWord_mem {label : FieldLabel} (h : label ≠ .none) : labelWord label ∈ labelWords := by
  cases label with
  | none => exact absurd rfl h
  | optional | required | repeated => decide

theorem exists_label {word : Span} (h : word ∈ labelWords) : ∃ label, label ≠ .none ∧ labelWord label = word := by
  simp only [labelWords, List.mem_cons, List.not_mem_nil, or_false] at h
  rcases h with rfl | rfl | rfl
  . exact ⟨.optional, by decide, rfl⟩
  . exact ⟨.required, by decide, rfl⟩
  . exact ⟨.repeated, by decide, rfl⟩

theorem takes_label {label : FieldLabel} (h : label ≠ .none) {gap : Span} (hgap : gap = [] ∨ gap = [' '])
    : Takes IsTokenHead fieldLabel (labelWord label ++ gap) (· = label) := by
  intro b b' hcovers hend
  obtain ⟨b₁, hword, hcovers⟩ := covers_append.mp hcovers
  have hspaces : skipSpaces.run b₁ = (.ok (), b') := by
    rcases hgap with rfl | rfl
    . obtain rfl := eq_of_covers_nil hcovers
      exact skipSpaces_token hend
    . exact skipSpaces_space hcovers hend
  have hpre : labelWord label <+: b.rest := ⟨b₁.rest, hword.1.symm⟩
  refine ⟨label, rfl, ?_⟩
  simp only [fieldLabel, bind_eq]
  cases label with
  | none => exact absurd rfl h
  | optional =>
    have hfound : (checkStrAndShift "optional").run b = (.ok true, b₁) := literal_true.mpr hword
    rw [andThen_of_ok hfound, if_pos rfl, andThen_of_ok hspaces]
    rfl
  | required =>
    have hfound : (checkStrAndShift "required").run b = (.ok true, b₁) := literal_true.mpr hword
    rw [andThen_of_ok (checkStr_of_differs (by decide) hpre), if_neg (by decide), andThen_of_ok hfound, if_pos rfl,
      andThen_of_ok hspaces]
    rfl
  | repeated =>
    have hfound : (checkStrAndShift "repeated").run b = (.ok true, b₁) := literal_true.mpr hword
    rw [andThen_of_ok (checkStr_of_differs (by decide) hpre), if_neg (by decide),
      andThen_of_ok (checkStr_of_differs (by decide) hpre), if_neg (by decide), andThen_of_ok hfound, if_pos rfl,
      andThen_of_ok hspaces]
    rfl

theorem checkStr_of_not_ahead {word : String} {b : Buffer} (h : ¬word.toList <+: b.rest)
    : (checkStrAndShift word).run b = (.ok false, b) := by
  simp only [checkStrAndShift, literal, List.isPrefixOf_iff_prefix, if_neg h]

theorem fieldLabel_none {b : Buffer} (h : ∀ word ∈ labelWords, ¬word <+: b.rest)
    : fieldLabel.run b = (.ok .none, b) := by
  simp only [labelWords, List.forall_mem_cons] at h
  obtain ⟨hoptional, hrequired, hrepeated, -⟩ := h
  simp only [fieldLabel, bind_eq]
  rw [andThen_of_ok (checkStr_of_not_ahead hoptional), if_neg (by decide),
    andThen_of_ok (checkStr_of_not_ahead hrequired), if_neg (by decide),
    andThen_of_ok (checkStr_of_not_ahead hrepeated)]
  rfl

/-! Types. -/

/--
A bracket behind the word of a map is a token of its own, and then the word is no map.
-/
theorem never_mapType {b : Buffer} (h : ∀ rest, b.rest ≠ "map<".toList ++ rest) : Never b parseMapType := by
  intro a c hrun
  obtain ⟨_, b₁, hkeyword, hrun⟩ := andThen_ok.mp (restoring_ok.mp hrun)
  obtain ⟨_, b₂, hexpect, -⟩ := andThen_ok.mp hrun
  have hword := literal_true.mp (require_ok.mp hkeyword)
  have hbracket := expect_ok hexpect
  apply h b₂.rest
  rw [hword.1, hbracket.1]
  rfl

theorem ne_map_of_path {name : Path} {rest : Span} (hrest : BeforeSpace rest) (tail : Span)
    : name.val ++ rest ≠ "map<".toList ++ tail := by
  intro heq
  have hpre : "map<".toList <+: name.val := prefix_of_space (by decide) hrest ⟨tail, heq.symm⟩
  have hmem : '<' ∈ name.val := hpre.subset (by decide)
  rcases isFullIdentifier_chars name.2 '<' hmem with h | h
  . exact absurd h (by decide)
  . exact absurd h (by decide)

theorem readsToken_named (name : Path) : ReadsToken parseFieldType name.val (· = .named name.val) := by
  intro b b' hcovers hend
  have hmap : Never b parseMapType := never_mapType fun tail => hcovers.1 ▸ ne_map_of_path hend tail
  obtain ⟨_, rfl, hrun⟩ := readsToken_fullIdentifier name.2 b b' hcovers hend
  refine ⟨_, rfl, ?_⟩
  unfold parseFieldType
  rcases hfirst : parseMapType.run b with ⟨e | a, b₁⟩
  . rw [orElse_of_error hfirst, (restoring_error hfirst).1]
    exact orElse_of_ok (map_ok.mpr ⟨_, hrun, rfl⟩)
  . exact absurd hfirst (hmap a b₁)

theorem takes_mapType (key value : Path)
    : ReadsToken parseFieldType (spaced ((TypeDecl.map key value).tokens .tight)) (· = .map key.val value.val) := by
  apply Takes.orElse
  apply Takes.restoring
  have hword : spaced ((TypeDecl.map key value).tokens .tight)
      = "map".toList ++ ('<' :: ' ' :: (key.val ++ ' ' :: ',' :: ' ' :: (value.val ++ ' ' :: ['>']))) := by
    rw [TypeDecl.tokens, MapStyle.tokens, List.singleton_append, spaced_cons]
    simp
  rw [hword]
  apply takes_keyword
  apply takes_expect
  apply takes_skipUnchecked (key.2.isTokenHead.append _)
  apply ((readsToken_fullIdentifier key.2).orElse _).spaced
  rintro _ rfl
  apply takes_skipUnchecked (isTokenHead_cons (by decide))
  apply takes_expect
  apply takes_skipUnchecked (value.2.isTokenHead.append _)
  apply ((readsToken_fullIdentifier value.2).orElse _).spaced
  rintro _ rfl
  apply takes_skipUnchecked (isTokenHead_cons (by decide))
  apply takes_expect
  exact takes_succeed rfl

/-! Fields. -/

def FieldDecl.Kept (style : MapStyle) (fld : FieldDecl) : Prop :=
  match fld.type with
  | .map _ _ => style = .tight
  | .named name => fld.label = .none → name.val ≠ "option".toList ∧ ∀ word ∈ labelWords, ¬word <+: name.val

def parsedContents (parsed : FieldParseResult) : FieldContents :=
  ⟨parsed.label, parsed.type, parsed.name, parsed.index⟩

/--
What is read of a field where it is read at all.
-/
def FieldDecl.ReadAs (style : MapStyle) (fld : FieldDecl) (e : MessageEntry) : Prop :=
  (fld.Kept style ∧ ∃ parsed, e = .field parsed ∧ parsedContents parsed = fld.contents)
    ∨ (¬fld.Kept style ∧ fld.label = .none
      ∧ ((∃ parsed, e = .option parsed) ∨ ∃ parsed, e = .field parsed ∧ parsed.label ≠ .none))

/--
A label and the space behind it.
-/
def labelText : FieldLabel → Span
  | .none => []
  | label => labelWord label ++ [' ']

theorem labelTokens_eq {label : FieldLabel} (h : label ≠ .none) : labelTokens label = [labelWord label] := by
  cases label with
  | none => exact absurd rfl h
  | optional | required | repeated => rfl

theorem labelText_eq {label : FieldLabel} (h : label ≠ .none) : labelText label = labelWord label ++ [' '] := by
  cases label with
  | none => exact absurd rfl h
  | optional | required | repeated => rfl

theorem spaced_field (style : MapStyle) (fld : FieldDecl)
    : spaced (fld.tokens style) = labelText fld.label ++ (spaced (fld.type.tokens style)
        ++ ' ' :: (fld.name.val ++ assigned (Printf.unsigned fld.number.val))) := by
  have hne : fld.type.tokens style ≠ [] := by
    cases fld.type with
    | named name => simp [TypeDecl.tokens]
    | map key value => simp [TypeDecl.tokens]
  have hend : behind [fld.name.val, ['='], Printf.unsigned fld.number.val, [';']]
      = ' ' :: (fld.name.val ++ assigned (Printf.unsigned fld.number.val)) := by
    rw [behind_cons]
    rfl
  have hrest := spaced_append hne [fld.name.val, ['='], Printf.unsigned fld.number.val, [';']]
  have hbehind := space_spaced (List.append_ne_nil_of_left_ne_nil hne
    [fld.name.val, ['='], Printf.unsigned fld.number.val, [';']])
  rw [hrest, hend] at hbehind
  unfold FieldDecl.tokens
  rw [List.append_assoc]
  by_cases hlabel : fld.label = .none
  . rw [hlabel, labelTokens, List.nil_append, hrest, hend, labelText, List.nil_append]
  . rw [labelTokens_eq hlabel, List.singleton_append, spaced_cons, ← hbehind, labelText_eq hlabel, List.append_assoc,
      List.singleton_append]

theorem takes_fieldRest {label : FieldLabel} {type : FieldType} {typeText : Span} (name : Name)
    (number : FieldNumber) [Libc] (htype : ReadsToken parseFieldType typeText (· = type))
    : Reads (parseFieldType.andThen fun type => namedAssignment fun name index options =>
          (⟨label, type, name, index, options⟩ : FieldParseResult))
        (typeText ++ ' ' :: (name.val ++ assigned (Printf.unsigned number.val)))
        (parsedContents · = ⟨label, type, name.val, number.val⟩) := by
  apply htype.spaced
  rintro type' rfl
  intro b b' hcovers hend
  obtain ⟨_, rfl, hrun⟩ := reads_namedAssignment name number
    (fun name index options => (⟨label, type', name, index, options⟩ : FieldParseResult)) b b' hcovers hend
  exact ⟨_, rfl, hrun⟩

theorem takes_labelledField [Libc] {label : FieldLabel} (hlabel : label ≠ .none) {gap : Span}
    (hgap : gap = [] ∨ gap = [' ']) {type : FieldType} {typeText : Span} (hhead : IsTokenHead typeText)
    (htype : ReadsToken parseFieldType typeText (· = type)) (name : Name) (number : FieldNumber)
    : Reads fieldParse
        (labelWord label ++ gap ++ (typeText ++ ' ' :: (name.val ++ assigned (Printf.unsigned number.val))))
        (parsedContents · = ⟨label, type, name.val, number.val⟩) := by
  rw [fieldParse_eq]
  apply Takes.restoring
  refine (takes_label hlabel hgap).andThen ?_ fun rest _ => (hhead.append _).append rest
  rintro _ rfl
  exact takes_fieldRest name number htype

theorem takes_plainField [Libc] {type : FieldType} {typeText : Span}
    (hnone : ∀ word ∈ labelWords, ∀ rest, BeforeSpace rest → ¬word <+: typeText ++ rest)
    (htype : ReadsToken parseFieldType typeText (· = type)) (name : Name) (number : FieldNumber)
    : Reads fieldParse (typeText ++ ' ' :: (name.val ++ assigned (Printf.unsigned number.val)))
        (parsedContents · = ⟨.none, type, name.val, number.val⟩) := by
  rw [fieldParse_eq]
  apply Takes.restoring
  intro b b' hcovers hend
  have hlabel : fieldLabel.run b = (.ok .none, b) := by
    apply fieldLabel_none
    intro word hmem
    rw [hcovers.1, List.append_assoc]
    exact hnone word hmem _ rfl
  rw [andThen_of_ok hlabel]
  exact takes_fieldRest name number htype b b' hcovers hend

theorem type_head (style : MapStyle) (type : TypeDecl)
    : ∃ d rest, spaced (type.tokens style) = d :: rest ∧ (isWhitespace d = false ∧ d ≠ '/') ∧ d ≠ '=' := by
  cases type with
  | named name =>
    obtain ⟨d, rest, hname, hd⟩ := isFullIdentifier_head name.2
    refine ⟨d, rest, by rw [TypeDecl.tokens, spaced_cons, hname, behind_nil, List.append_nil], ?_⟩
    rcases hd with hd | ⟨rfl, -⟩
    . exact option_head (.inl hd)
    . decide
  | map key value => cases style <;> exact ⟨'m', _, rfl, by decide, by decide⟩

theorem plain_type (style : MapStyle) (type : TypeDecl) : Plain (spaced (type.tokens style)) := by
  apply plain_spaced
  cases type with
  | named name =>
    rw [TypeDecl.tokens, List.forall_mem_singleton]
    exact plain_path name
  | map key value =>
    have hbrackets : Plain [','] ∧ Plain ['>'] := by decide
    have hword : ∀ token ∈ style.tokens, Plain token := by
      cases style <;> exact List.all_iff_forall_prop.mp (by decide)
    simp only [TypeDecl.tokens, List.forall_mem_append, List.forall_mem_cons]
    exact ⟨hword, plain_path key, hbrackets.1, plain_path value, hbrackets.2, by simp⟩

theorem plain_label (label : FieldLabel) : Plain (labelText label) := by
  cases label <;> decide

theorem clean_label (label : FieldLabel) : ∀ c ∈ labelWord label, c ∉ [' ', '\t', '\n', '\r', '=', '/'] := by
  cases label <;> exact List.all_iff_forall_prop.mp (by decide)

/--
A field is no option, unless its type is the word of one.
-/
theorem refuses_fieldOption [Libc] (style : MapStyle) (fld : FieldDecl)
    (h : ∀ name, fld.label = .none → fld.type = .named name → name.val ≠ "option".toList)
    : Refuses optionParse (spaced (fld.tokens style)) := by
  obtain ⟨d, rest, hname, hd⟩ := head_of_name fld.name
  have hnone (hlabel : fld.label = .none) : Refuses optionParse (spaced (fld.type.tokens style)
      ++ ' ' :: (fld.name.val ++ assigned (Printf.unsigned fld.number.val))) := by
    cases htype : fld.type with
    | named name =>
      rw [TypeDecl.tokens, spaced_cons, behind_nil, List.append_nil, hname, List.cons_append]
      exact refuses_typeOption (clean_path name) (h name hlabel htype) hd _
    | map key value =>
      obtain ⟨d, rest, hkey, hd⟩ := isFullIdentifier_head key.2
      cases style with
      | tight =>
        have hhead : (isWhitespace d = false ∧ d ≠ '/') ∧ d ≠ '=' := by
          rcases hd with hd | ⟨rfl, -⟩
          . exact option_head (.inl hd)
          . decide
        rw [TypeDecl.tokens, MapStyle.tokens, List.singleton_append, spaced_cons, behind_cons, hkey]
        simp only [List.cons_append, List.append_assoc]
        exact refuses_typeOption (List.all_iff_forall_prop.mp (by decide)) (by decide) hhead _
      | spaced =>
        rw [TypeDecl.tokens, MapStyle.tokens, List.cons_append, List.cons_append, spaced_cons, behind_cons]
        simp only [List.cons_append, List.append_assoc]
        exact refuses_typeOption (List.all_iff_forall_prop.mp (by decide)) (by decide) (by decide) _
  rw [spaced_field]
  obtain ⟨d, rest, htype, hd⟩ := type_head style fld.type
  have hlabelled {word : Span} (hclean : ∀ c ∈ word, c ∉ [' ', '\t', '\n', '\r', '=', '/'])
      (hne : word ≠ "option".toList) (tail : Span)
      : Refuses optionParse (word ++ [' '] ++ (spaced (fld.type.tokens style) ++ tail)) := by
    rw [htype, List.append_assoc]
    exact refuses_typeOption hclean hne hd _
  by_cases hlabel : fld.label = .none
  . rw [hlabel]
    exact hnone hlabel
  . rw [labelText_eq hlabel]
    have hne : labelWord fld.label ≠ "option".toList := by
      cases fld.label <;> decide
    exact hlabelled (clean_label _) hne _

/-! Types that begin with a label. -/

theorem labelWords_start {word : Span} (h : word ∈ labelWords)
    : '.' ∉ word ∧ ∃ c rest, word = c :: rest ∧ isIdentifierStart c = true ∧ c ≠ '.' := by
  simp only [labelWords, List.mem_cons, List.not_mem_nil, or_false] at h
  rcases h with rfl | rfl | rfl
  . exact ⟨by decide, 'o', _, rfl, by decide, by decide⟩
  . exact ⟨by decide, 'r', _, rfl, by decide, by decide⟩
  . exact ⟨by decide, 'r', _, rfl, by decide, by decide⟩

/--
What is behind the label in a type is nothing, a type, or begins with a digit.
-/
theorem split_label {word tail : Span} (hword : word ∈ labelWords) (h : IsFullIdentifier (word ++ tail))
    : tail = [] ∨ IsFullIdentifier tail ∨ ∃ c rest, tail = c :: rest ∧ isDigit c = true := by
  obtain ⟨hdot, d, rest, hcons, -, hd⟩ := labelWords_start hword
  obtain ⟨absolute, segments, hne, hsegments, heq⟩ := h
  obtain ⟨segment, segments, rfl⟩ := List.exists_cons_of_ne_nil hne
  rw [List.forall_mem_cons] at hsegments
  cases absolute with
  | true =>
    rw [hcons, if_pos rfl, List.cons_append, List.singleton_append, List.cons.injEq] at heq
    exact absurd heq.1 hd
  | false =>
    rw [if_neg (by decide), List.nil_append, intercalate_cons] at heq
    -- The label has no dot in it and is in the first segment.
    obtain ⟨tail', rfl⟩ : word <+: segment := by
      have hpre : word <+: segment ++ segments.flatMap ('.' :: ·) := ⟨tail, heq⟩
      rcases List.prefix_or_prefix_of_prefix hpre (List.prefix_append _ _) with hle | ⟨rest', rfl⟩
      . exact hle
      . rw [List.prefix_append_right_inj] at hpre
        cases rest' with
        | nil => simp
        | cons c rest' =>
          cases segments with
          | nil => simp at hpre
          | cons segment' segments =>
            rw [List.flatMap_cons, List.cons_append, List.cons_prefix_cons] at hpre
            exact absurd (by simp [hpre.1]) hdot
    rw [List.append_assoc] at heq
    have htail := List.append_cancel_left heq
    cases tail' with
    | nil =>
      rw [List.nil_append] at htail
      cases segments with
      | nil => exact .inl htail
      | cons segment' segments =>
        right
        left
        refine ⟨true, segment' :: segments, by simp, hsegments.2, ?_⟩
        rw [htail, List.flatMap_cons, if_pos rfl, intercalate_cons]
        rfl
    | cons c tail' =>
      right
      have hchar := hsegments.1.chars c (by simp)
      by_cases hstart : isIdentifierStart c = true
      . left
        refine ⟨false, (c :: tail') :: segments, by simp, ?_, ?_⟩
        . rw [List.forall_mem_cons]
          exact ⟨⟨⟨c, tail', rfl, hstart⟩, fun d hd => hsegments.1.chars d (List.mem_append_right _ hd)⟩, hsegments.2⟩
        . rw [htail, if_neg (by decide), List.nil_append, intercalate_cons]
      . right
        refine ⟨c, tail' ++ segments.flatMap ('.' :: ·), htail, ?_⟩
        simp only [isIdentifierStart, Bool.not_eq_true, Bool.or_eq_false_iff, decide_eq_false_iff_not] at hstart
        simpa [isIdentifierChar, hstart] using hchar

theorem refuses_digitType {β : Type} {d : Char} (hd : isDigit d = true) (f : FieldType → EntryParser β) (text : Span)
    : Refuses (parseFieldType.andThen f) (d :: text) := by
  apply Refuses.andThen
  apply refuses_orElse
  . intro b b' hcovers
    apply never_mapType
    intro rest heq
    rw [hcovers.1, List.cons_append] at heq
    have : d = 'm' := (List.cons.inj heq).1
    rw [this] at hd
    exact absurd hd (by decide)
  . exact restores_restoring _
  . apply refuses_orElse _ (restores_restoring _).map (refuses_fail _ _)
    apply Refuses.map
    intro b b' hcovers a c hrun
    obtain ⟨hname, hparts⟩ := parseFullIdentifier_ok hrun
    have hfull : IsFullIdentifier a := hparts
    obtain ⟨d', rest, rfl, hd'⟩ := isFullIdentifier_head hfull
    have heq := hname.1
    rw [hcovers.1, List.cons_append, List.cons_append, List.cons.injEq] at heq
    rw [← heq.1] at hd'
    rcases hd' with hd' | ⟨rfl, -⟩
    . rw [isDigit_of_start hd'] at hd
      exact Bool.false_ne_true hd
    . exact absurd hd (by decide)

variable [Libc]

/--
A type that begins with a label is no type of an unlabelled field.
-/
theorem labelledType_outcome {word : Span} (hword : word ∈ labelWords) {type : Path} (htype : word <+: type.val)
    (name : Name) (number : FieldNumber)
    : Reads fieldParse (type.val ++ ' ' :: (name.val ++ assigned (Printf.unsigned number.val)))
          (fun parsed => parsed.label ≠ .none)
        ∨ Refuses fieldParse (type.val ++ ' ' :: (name.val ++ assigned (Printf.unsigned number.val))) := by
  obtain ⟨label, hlabel, rfl⟩ := exists_label hword
  obtain ⟨tail, htail⟩ := htype
  have htypeName : IsFullIdentifier (labelWord label ++ tail) := htail ▸ type.2
  rw [← htail]
  rcases split_label hword htypeName with rfl | hfull | ⟨d, rest, rfl, hd⟩
  . -- the name of the field is its type, and no name is left
    right
    rw [fieldParse_eq, List.append_nil, List.append_cons]
    apply Refuses.restoring
    refine (takes_label hlabel (.inr rfl)).refuses ?_ fun rest => (name.2.isTokenHead.append _).append rest
    rintro _ rfl
    apply (readsToken_named ⟨name.val, name.2.isFullIdentifier⟩).refusesSpaced
    rintro _ rfl
    exact refuses_namedAssignment (by decide) (by decide) _ _
  . left
    have hfield := takes_labelledField hlabel (.inl rfl) hfull.isTokenHead (readsToken_named ⟨tail, hfull⟩) name number
    rw [List.append_nil, ← List.append_assoc] at hfield
    apply hfield.imp
    intro parsed hparsed hnone
    exact hlabel ((congrArg FieldContents.label hparsed).symm.trans hnone)
  . right
    have hhead : IsTokenHead (d :: rest) := isTokenHead_cons (isTokenHead_digit hd)
    have hlabelled : Takes IsTokenHead fieldLabel (labelWord label ++ []) (· = label) := takes_label hlabel (.inl rfl)
    rw [List.append_nil] at hlabelled
    rw [fieldParse_eq, List.append_assoc]
    apply Refuses.restoring
    refine hlabelled.refuses ?_ fun rest' => (hhead.append _).append rest'
    rintro _ rfl
    exact refuses_digitType hd _ _

/-! The outcome. -/

omit [Libc] in
theorem label_ne_map {word : Span} (h : word ∈ labelWords) (text : Span) : ¬word <+: 'm' :: text := by
  obtain ⟨-, c, rest, rfl, -, -⟩ := labelWords_start h
  rw [List.cons_prefix_cons]
  rintro ⟨rfl, -⟩
  have hheads : ∀ word ∈ labelWords, word.head? ≠ some 'm' := by decide
  exact hheads _ h rfl

omit [Libc] in
theorem spaced_mapType (style : MapStyle) (key value : Path)
    : ∃ rest, spaced ((TypeDecl.map key value).tokens style) = 'm' :: rest := by
  cases style <;> exact ⟨_, rfl⟩

/--
With a space in front of the bracket the word is the type, and no name is behind it.
-/
theorem refuses_spacedMap (label : FieldLabel) (key value : Path) (name : Name) (number : FieldNumber)
    : Refuses fieldParse (spaced (FieldDecl.tokens .spaced ⟨label, .map key value, name, number⟩)) := by
  have hmap : IsFullIdentifier "map".toList := (isIdentifier_of_all (by decide) (by decide)).isFullIdentifier
  have htext : spaced ((TypeDecl.map key value).tokens .spaced)
      = "map".toList ++ ' ' :: '<' :: behind [key.val, [','], value.val, ['>']] := by
    rw [TypeDecl.tokens, MapStyle.tokens, List.cons_append, List.singleton_append, spaced_cons, behind_cons]
    rfl
  have htype (label : FieldLabel) (text : Span) : Refuses (parseFieldType.andThen fun type =>
      namedAssignment fun name index options => (⟨label, type, name, index, options⟩ : FieldParseResult))
      (spaced ((TypeDecl.map key value).tokens .spaced) ++ text) := by
    rw [htext, List.append_assoc]
    apply (readsToken_named ⟨"map".toList, hmap⟩).refusesSpaced
    rintro _ rfl
    exact refuses_namedAssignment (by decide) (by decide) _ _
  obtain ⟨rest, hm⟩ := spaced_mapType .spaced key value
  rw [spaced_field, fieldParse_eq]
  apply Refuses.restoring
  by_cases hlabel : label = .none
  . subst hlabel
    rw [labelText, List.nil_append]
    intro b b' hcovers a c hrun
    have hnone : fieldLabel.run b = (.ok .none, b) := by
      apply fieldLabel_none
      intro word hmem
      rw [hcovers.1, hm]
      exact label_ne_map hmem _
    rw [andThen_of_ok hnone] at hrun
    exact htype _ _ b b' hcovers a c hrun
  . dsimp only
    rw [labelText_eq hlabel]
    have hhead (text : Span) : IsTokenHead (spaced ((TypeDecl.map key value).tokens .spaced) ++ text) := by
      rw [hm]
      exact isTokenHead_cons (by decide)
    refine (takes_label hlabel (.inr rfl)).refuses ?_ fun text => (hhead _).append text
    rintro _ rfl
    exact htype _ _

omit [Libc] in
theorem plain_field (style : MapStyle) (fld : FieldDecl)
    : Plain (labelText fld.label ++ (spaced (fld.type.tokens style) ++ ' ' :: fld.name.val)) :=
  (plain_label _).append ((plain_type style _).append (plain_name _).space)

omit [Libc] in
theorem fieldText_eq (style : MapStyle) (fld : FieldDecl)
    : spaced (fld.tokens style) = (labelText fld.label ++ (spaced (fld.type.tokens style) ++ ' ' :: fld.name.val))
        ++ assigned (Printf.unsigned fld.number.val) := by
  rw [spaced_field]
  simp only [List.append_assoc, List.cons_append]

theorem field_outcome (style : MapStyle) (fld : FieldDecl)
    : Reads messageEntry (spaced (fld.tokens style)) (fld.ReadAs style)
        ∨ (¬fld.Kept style ∧ Refuses messageEntry (spaced (fld.tokens style))) := by
  have hplain := plain_field style fld
  have htext := fieldText_eq style fld
  have hkept (hfield : fld.Kept style) (hoption : Refuses optionParse (spaced (fld.tokens style)))
      (h : Reads fieldParse (spaced (fld.tokens style)) (parsedContents · = fld.contents))
      : Reads messageEntry (spaced (fld.tokens style)) (fld.ReadAs style) :=
    (takes_messageField hplain (plain_unsigned _) htext hoption h).imp fun e he => .inl ⟨hfield, he⟩
  obtain ⟨label, type, name, number⟩ := fld
  have hspaced := spaced_field style ⟨label, type, name, number⟩
  by_cases hlabel : label = .none
  . subst hlabel
    rw [labelText, List.nil_append] at hspaced
    cases type with
    | named type =>
      have htype : spaced ((TypeDecl.named type).tokens style) = type.val := by
        rw [TypeDecl.tokens, spaced_cons, behind_nil, List.append_nil]
      rw [htype] at hspaced
      dsimp only at hspaced
      by_cases hword : type.val = "option".toList
      . left
        have hnot : ¬FieldDecl.Kept style ⟨.none, .named type, name, number⟩ := fun h => (h rfl).1 hword
        have hreads := reads_fieldOption name number
        rw [← hword, ← hspaced] at hreads
        exact (takes_messageOption hplain (plain_unsigned _) htext hreads).imp fun e he =>
          .inr ⟨hnot, rfl, .inl he⟩
      . have hoption := refuses_fieldOption style ⟨.none, .named type, name, number⟩ fun name _ hname => by
          cases hname
          exact hword
        by_cases hlabels : ∃ word ∈ labelWords, word <+: type.val
        . obtain ⟨word, hmem, hpre⟩ := hlabels
          have hnot : ¬FieldDecl.Kept style ⟨.none, .named type, name, number⟩ := fun h => (h rfl).2 word hmem hpre
          have houtcome := labelledType_outcome hmem hpre name number
          rw [← hspaced] at houtcome
          rcases houtcome with h | h
          . left
            exact (takes_messageField hplain (plain_unsigned _) htext hoption h).imp fun e he =>
              .inr ⟨hnot, rfl, .inr he⟩
          . exact .inr ⟨hnot, refuses_messageField hplain (plain_unsigned _) htext hoption h⟩
        . left
          have hnone : ∀ word ∈ labelWords, ¬word <+: type.val :=
            fun word hmem hpre => hlabels ⟨word, hmem, hpre⟩
          apply hkept (fun _ => ⟨hword, hnone⟩) hoption
          rw [hspaced]
          apply takes_plainField _ (readsToken_named type) name number
          intro word hmem rest hrest hpre
          have hspace : ∀ word ∈ labelWords, ' ' ∉ word := by decide
          exact hnone word hmem (prefix_of_space (hspace word hmem) hrest hpre)
    | map key value =>
      have hoption := refuses_fieldOption style ⟨.none, .map key value, name, number⟩ fun name _ hname => by
        cases hname
      cases style with
      | tight =>
        left
        apply hkept rfl hoption
        rw [hspaced]
        apply takes_plainField _ (takes_mapType key value) name number
        intro word hmem rest _
        obtain ⟨rest', hm⟩ := spaced_mapType .tight key value
        rw [hm]
        exact label_ne_map hmem _
      | spaced =>
        right
        have hnot : ¬FieldDecl.Kept .spaced ⟨.none, .map key value, name, number⟩ := MapStyle.noConfusion
        exact ⟨hnot, refuses_messageField hplain (plain_unsigned _) htext hoption (refuses_spacedMap _ _ _ _ _)⟩
  . have hoption := refuses_fieldOption style ⟨label, type, name, number⟩ fun _ h _ => absurd h hlabel
    have hlabelled (hfield : FieldDecl.Kept style ⟨label, type, name, number⟩)
        (h : ReadsToken parseFieldType (spaced (type.tokens style)) (· = type.contents))
        : Reads messageEntry (spaced (FieldDecl.tokens style ⟨label, type, name, number⟩))
            (FieldDecl.ReadAs style ⟨label, type, name, number⟩) := by
      apply hkept hfield hoption
      obtain ⟨d, rest, htype, hd⟩ := type_head style type
      rw [hspaced]
      dsimp only
      rw [labelText_eq hlabel]
      exact takes_labelledField hlabel (.inr rfl) (htype ▸ isTokenHead_cons hd.1) h name number
    cases type with
    | named type =>
      left
      apply hlabelled fun h => absurd h hlabel
      rw [TypeDecl.tokens, spaced_cons, behind_nil, List.append_nil]
      exact readsToken_named type
    | map key value =>
      cases style with
      | tight => exact .inl (hlabelled rfl (takes_mapType key value))
      | spaced =>
        right
        have hnot : ¬FieldDecl.Kept .spaced ⟨label, .map key value, name, number⟩ := MapStyle.noConfusion
        exact ⟨hnot, refuses_messageField hplain (plain_unsigned _) htext hoption (refuses_spacedMap _ _ _ _ _)⟩

end Gremlin.Printer
