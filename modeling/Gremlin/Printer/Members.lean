import Gremlin.Printer.Fields

/-!
This module contains what the parser of the entries of a message takes where options and reserved names
and numbers are printed.
-/

namespace Gremlin.Printer

open Text Parser Buffer

/-! Entries that begin with a keyword. -/

/--
What the other entries of a message begin with.
-/
def otherWords : List Span :=
  ["enum".toList, "message".toList, "oneof".toList, "extensions".toList, "extend".toList, "group".toList,
    "optional".toList, "required".toList, "repeated".toList]

/--
A keyword that is told from what the other entries begin with, maybe by the space behind it.
-/
structure IsEntryWord (word : Span) : Prop where
  identifier : IsIdentifier word
  differs : ∀ other ∈ otherWords, Differs (word ++ [' ']) other

theorem isEntryWord_option : IsEntryWord "option".toList where
  identifier := isIdentifier_option
  differs := by decide

theorem isEntryWord_reserved : IsEntryWord "reserved".toList where
  identifier := isIdentifier_reserved
  differs := by decide

section Word

variable {word : Span} (hword : IsEntryWord word) (text : Span)

include hword

theorem IsEntryWord.refuses_opening {α : Type} {word' : String} (hmem : word'.toList ∈ otherWords) (e : ParsingError)
    (f : Unit → EntryParser α)
    : Refuses ((keyword word' e).andThen f).restoring (word ++ ' ' :: text) := by
  rw [List.append_cons]
  exact Printer.refuses_opening (hword.differs _ hmem) e f text

theorem IsEntryWord.checkStr {word' : String} (hmem : word'.toList ∈ otherWords) {b b' : Buffer}
    (hcovers : Covers b (word ++ ' ' :: text) b')
    : (checkStrAndShift word').run b = (.ok false, b) := by
  apply checkStr_of_differs (hword.differs _ hmem)
  rw [hcovers.1]
  exact ⟨text ++ b'.rest, by simp⟩

theorem IsEntryWord.refuses_groupParse : Refuses groupParse (word ++ ' ' :: text) := by
  intro b b' hcovers a c hrun
  have hhead : IsTokenHead b.rest := hcovers.1 ▸ (hword.identifier.isTokenHead.append _).append _
  simp only [groupParse, bind_eq] at hrun
  rw [restoring_ok] at hrun
  rw [andThen_of_ok (hword.checkStr text (by decide) hcovers)] at hrun
  rw [andThen_of_ok (hword.checkStr text (by decide) hcovers)] at hrun
  rw [andThen_of_ok (hword.checkStr text (by decide) hcovers)] at hrun
  rw [andThen_of_ok (skipSpaces_token hhead)] at hrun
  obtain ⟨_, b₁, hkeyword, -⟩ := andThen_ok.mp hrun
  have hgroup := require_ok.mp hkeyword
  rw [hword.checkStr text (by decide) hcovers] at hgroup
  simp at hgroup

variable [Libc]

theorem IsEntryWord.refuses_fieldParse
    (hname : ∀ make : Span → Int → OptionListResult → FieldParseResult, Refuses (namedAssignment make) (' ' :: text))
    : Refuses fieldParse (word ++ ' ' :: text) := by
  rw [fieldParse_eq]
  apply Refuses.restoring
  intro b b' hcovers a c hrun
  have hnone : fieldLabel.run b = (.ok .none, b) := by
    simp only [fieldLabel, bind_eq]
    rw [andThen_of_ok (hword.checkStr text (by decide) hcovers), if_neg (by decide),
      andThen_of_ok (hword.checkStr text (by decide) hcovers), if_neg (by decide),
      andThen_of_ok (hword.checkStr text (by decide) hcovers)]
    rfl
  rw [andThen_of_ok hnone] at hrun
  have htype := (readsToken_named ⟨word, hword.identifier.isFullIdentifier⟩).refusesSpaced
    (f := fun type => namedAssignment fun name index options => FieldParseResult.mk .none type name index options)
    (t := text) fun _ _ => hname _
  exact htype b b' hcovers a c hrun

theorem IsEntryWord.refuses_blocks
    : Refuses enumParse (word ++ ' ' :: text) ∧ Refuses messageParse (word ++ ' ' :: text)
        ∧ Refuses oneofParse (word ++ ' ' :: text) ∧ Refuses extendParse (word ++ ' ' :: text) := by
  refine ⟨?_, ?_, ?_, ?_⟩
  . exact hword.refuses_opening text (by decide) _ _
  . have hhead : Refuses messageHead (word ++ ' ' :: text) := hword.refuses_opening text (by decide) _ _
    exact (hhead.andThen _).restoring
  . exact hword.refuses_opening text (by decide) _ _
  . have hblock : Refuses (block "extend" parseFullIdentifier (discard fieldParse)) (word ++ ' ' :: text) :=
      hword.refuses_opening text (by decide) _ _
    exact hblock.andThen _

end Word

/-! Options and reserved names and numbers. -/

variable [Libc]

theorem option_outcome (opt : OptionDecl)
    : Reads messageEntry (spaced opt.tokens) (fun e => opt.value.Whole ∧ ∃ parsed, e = .option parsed)
        ∨ (¬opt.value.Whole ∧ Refuses messageEntry (spaced opt.tokens)) := by
  have htext : spaced opt.tokens
      = "option".toList ++ ' ' :: (opt.name ++ behind [['='], opt.value.token, [';']]) := opt.spaced_eq
  obtain ⟨henum, hmessage, honeof, hextend⟩ :=
    isEntryWord_option.refuses_blocks (opt.name ++ behind [['='], opt.value.token, [';']])
  rw [← htext] at henum hmessage honeof hextend
  by_cases h : opt.value.Whole
  . left
    apply takes_other (henum.map _) (restores_restoring _).map
    apply takes_other (hmessage.map _) (restores_restoring _).map
    apply takes_other (honeof.map _) (restores_restoring _).map
    apply Takes.orElse
    exact (reads_option opt h).map fun parsed _ => ⟨h, parsed, rfl⟩
  . refine .inr ⟨h, ?_⟩
    apply refuses_orElse (henum.map _) (restores_restoring _).map
    apply refuses_orElse (hmessage.map _) (restores_restoring _).map
    apply refuses_orElse (honeof.map _) (restores_restoring _).map
    apply refuses_orElse ((refuses_option opt h).map _) (restores_restoring _).map
    rw [htext] at hextend ⊢
    apply refuses_orElse (Refuses.map (isEntryWord_option.refuses_opening _ (by decide) _ _) _)
      (restores_restoring _).map
    apply refuses_orElse (Refuses.map (refuses_opening (by decide) _ _ _) _) (restores_restoring _).map
    apply refuses_orElse (hextend.map _) restores_extendParse.map
    apply refuses_orElse ((isEntryWord_option.refuses_groupParse _).map _) (restores_restoring _).map
    have hfield := isEntryWord_option.refuses_fieldParse _ fun make => refuses_optionField opt h make
    apply refuses_orElse (hfield.map _) (restores_restoring _).map
    exact refuses_fail _ _

theorem reserved_outcome (res : ReservedDecl)
    : Reads messageEntry (spaced res.tokens) (fun e => res.Kept ∧ ∃ parsed, e = .reserved parsed)
        ∨ (¬res.Kept ∧ Refuses messageEntry (spaced res.tokens)) := by
  obtain ⟨d, rest, htext, hd⟩ := reservedText_head res
  obtain ⟨henum, hmessage, honeof, hextend⟩ := isEntryWord_reserved.refuses_blocks (d :: rest)
  have hoption : Refuses optionParse ("reserved".toList ++ ' ' :: d :: rest) := refuses_opening (by decide) _ _ _
  have hextensions : Refuses extensionsParse ("reserved".toList ++ ' ' :: d :: rest) :=
    isEntryWord_reserved.refuses_opening _ (by decide) _ _
  rw [← htext] at henum hmessage honeof hextend hoption hextensions
  by_cases h : res.Kept
  . left
    apply takes_other (henum.map _) (restores_restoring _).map
    apply takes_other (hmessage.map _) (restores_restoring _).map
    apply takes_other (honeof.map _) (restores_restoring _).map
    apply takes_other (hoption.map _) (restores_restoring _).map
    apply takes_other (hextensions.map _) (restores_restoring _).map
    apply Takes.orElse
    exact (reads_reserved res h).map fun parsed _ => ⟨h, parsed, rfl⟩
  . refine .inr ⟨h, ?_⟩
    apply refuses_orElse (henum.map _) (restores_restoring _).map
    apply refuses_orElse (hmessage.map _) (restores_restoring _).map
    apply refuses_orElse (honeof.map _) (restores_restoring _).map
    apply refuses_orElse (hoption.map _) (restores_restoring _).map
    apply refuses_orElse (hextensions.map _) (restores_restoring _).map
    apply refuses_orElse ((refuses_reserved res h).map _) (restores_restoring _).map
    rw [htext] at hextend ⊢
    apply refuses_orElse (hextend.map _) restores_extendParse.map
    apply refuses_orElse ((isEntryWord_reserved.refuses_groupParse _).map _) (restores_restoring _).map
    obtain ⟨hhead, -, hstart⟩ := reserved_head hd
    have hfield := isEntryWord_reserved.refuses_fieldParse _ fun make => refuses_namedAssignment hhead hstart make rest
    apply refuses_orElse (hfield.map _) (restores_restoring _).map
    exact refuses_fail _ _

end Gremlin.Printer
