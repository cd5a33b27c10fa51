import Gremlin.Parser.Entries

/-!
This module contains what the parsers of entries go over: each at least one character, and one of a
block its body.
-/

namespace Gremlin

open Text Parser

theorem eager_keyword {word : String} (hword : word.toList ≠ []) (e : ParsingError)
    : Eager (keyword word e) :=
  eager_literal hword e

theorem eager_identifierChars : Eager identifierChars :=
  (eager_shiftIf _ _).andThen _

theorem eager_parseIdentifier : Eager parseIdentifier :=
  eager_identifierChars.spanned

theorem eager_parseFullIdentifier : Eager parseFullIdentifier := by
  apply Eager.restoring
  apply Eager.spanned
  exact eager_andThen _ fun _ => eager_identifierChars.andThen _

theorem eager_parseFieldType : Eager parseFieldType := by
  apply Eager.orElse
  . exact ((eager_keyword (by decide) _).andThen _).restoring
  . exact (eager_parseFullIdentifier.andThen _).orElse (eager_fail _)

theorem eager_reservedParse : Eager reservedParse :=
  ((eager_keyword (by decide) _).andThen _).restoring

theorem eager_extensionsParse : Eager extensionsParse :=
  ((eager_keyword (by decide) _).andThen _).restoring

theorem eager_block {word : String} (hword : word.toList ≠ []) (parseName : EntryParser Span)
    (entry : EntryParser Unit) : Eager (block word parseName entry) :=
  ((eager_keyword hword _).andThen _).restoring

theorem eager_groupParse : Eager groupParse := by
  apply Eager.restoring
  refine eager_andThen _ fun _ => eager_andThen _ fun _ => eager_andThen _ fun _ =>
    eager_andThen _ fun _ => ?_
  exact (eager_keyword (by decide) _).andThen _

theorem eager_serviceParse : Eager serviceParse :=
  ((eager_keyword (by decide) _).andThen _).restoring

theorem eager_messageHead : Eager messageHead :=
  ((eager_keyword (by decide) _).andThen _).restoring

theorem eager_syntaxParse : Eager syntaxParse :=
  ((eager_keyword (by decide) _).andThen _).restoring

theorem eager_editionParse : Eager editionParse :=
  ((eager_keyword (by decide) _).andThen _).restoring

theorem eager_packageParse : Eager packageParse :=
  ((eager_keyword (by decide) _).andThen _).restoring

theorem eager_importParse : Eager importParse :=
  ((eager_keyword (by decide) _).andThen _).restoring

section Entries

variable [Libc]

theorem eager_optionParse : Eager optionParse :=
  ((eager_keyword (by decide) _).andThen _).restoring

theorem eager_fieldParse : Eager fieldParse := by
  apply Eager.restoring
  exact eager_andThen _ fun _ => eager_parseFieldType.andThen _

theorem eager_oneofFieldParse : Eager oneofFieldParse :=
  (eager_parseFullIdentifier.andThen _).restoring

theorem eager_enumFieldParse : Eager enumFieldParse :=
  (eager_parseIdentifier.andThen _).restoring

theorem eager_enumParse : Eager enumParse :=
  eager_block (by decide) _ _

theorem eager_oneofParse : Eager oneofParse :=
  eager_block (by decide) _ _

theorem eager_extendParse : Eager extendParse :=
  (eager_block (by decide) _ _).andThen _

theorem eager_messageParse : Eager messageParse :=
  (eager_messageHead.andThen _).restoring

/-! The next entry of a body. -/

theorem eager_enumNextEntry : Eager enumNextEntry := by
  apply Eager.restoring
  refine eager_andThen _ fun _ => ?_
  exact (eager_optionParse.andThen _).orElse <|
    (eager_reservedParse.andThen _).orElse <|
    eager_enumFieldParse.andThen _

theorem eager_oneofNextEntry : Eager oneofNextEntry := by
  apply Eager.restoring
  refine eager_andThen _ fun _ => ?_
  exact (eager_optionParse.andThen _).orElse <| eager_oneofFieldParse.andThen _

theorem eager_messageNextEntry : Eager messageNextEntry := by
  apply Eager.restoring
  refine eager_andThen _ fun _ => ?_
  exact (eager_enumParse.andThen _).orElse <|
    (eager_messageParse.andThen _).orElse <|
    (eager_oneofParse.andThen _).orElse <|
    (eager_optionParse.andThen _).orElse <|
    (eager_extensionsParse.andThen _).orElse <|
    (eager_reservedParse.andThen _).orElse <|
    (eager_extendParse.andThen _).orElse <|
    (eager_groupParse.andThen _).orElse <|
    (eager_fieldParse.andThen _).orElse <|
    eager_fail _

theorem eager_fileNextEntry : Eager fileNextEntry := by
  apply Eager.restoring
  refine eager_andThen _ fun _ => ?_
  exact (eager_syntaxParse.andThen _).orElse <|
    (eager_editionParse.andThen _).orElse <|
    (eager_packageParse.andThen _).orElse <|
    (eager_importParse.andThen _).orElse <|
    (eager_optionParse.andThen _).orElse <|
    (eager_messageParse.andThen _).orElse <|
    (eager_enumParse.andThen _).orElse <|
    (eager_serviceParse.andThen _).orElse <|
    (eager_extendParse.andThen _).orElse <|
    eager_fail _

end Entries

/-! The body of a message. -/

def Inside (b : Buffer) (parsed : BodyParseResult) : Prop :=
  b.offset < parsed.bodyStart ∧ parsed.bodyStart ≤ parsed.bodyEnd
    ∧ parsed.bodyEnd ≤ b.offset + b.rest.length

theorem position_ok {b b' : Buffer} {n : Nat}
    (h : (position : EntryParser Nat).run b = (.ok n, b')) : n = b.offset ∧ b' = b := by
  simp only [position, Prod.mk.injEq, Except.ok.injEq] at h
  exact ⟨h.1.symm, h.2.symm⟩

theorem closing_true {b b' : Buffer} (h : closing.run b = (.ok true, b'))
    : b.rest = '}' :: b'.rest ∧ b'.offset = b.offset + 1 := by
  simp only [closing] at h
  split at h
  . simp at h
  . next c rest heq =>
    split at h
    . next hc =>
      rw [Prod.mk.injEq] at h
      rw [← h.2, heq, hc]
      exact ⟨rfl, rfl⟩
    . simp at h

theorem messageStep_done [Libc] {depth : Nat} {b b' : Buffer} {bodyEnd : Nat}
    (h : (messageStep depth).run b = (.ok (.done bodyEnd), b'))
    : ∃ b'', skipSpaces.run b = (.ok (), b'') ∧ b''.rest = '}' :: b'.rest
        ∧ bodyEnd = b''.offset ∧ b'.offset = b''.offset + 1 := by
  obtain ⟨_, b₁, hskip, h⟩ := andThen_ok.mp h
  obtain ⟨n, b₂, hposition, h⟩ := andThen_ok.mp h
  obtain ⟨rfl, rfl⟩ := position_ok hposition
  obtain ⟨found, b₃, hclosing, h⟩ := andThen_ok.mp h
  cases found with
  | true =>
    cases depth with
    | zero =>
      simp only [if_true, pure_eq, succeed_run, Prod.mk.injEq, Except.ok.injEq, Step.done.injEq] at h
      obtain ⟨rfl, rfl⟩ := h
      obtain ⟨hrest, hoffset⟩ := closing_true hclosing
      exact ⟨b₂, hskip, hrest, rfl, hoffset⟩
    | succ depth => simp at h
  | false =>
    obtain ⟨semicolon, b₄, hsemicolon, h⟩ := andThen_ok.mp h
    cases semicolon with
    | true => simp at h
    | false =>
      have hback : Backward fun (_ : Buffer) (next : Step Nat Nat) => next ≠ .done bodyEnd :=
        fun _ _ _ _ h => h
      have hnever {α : Type} (p : EntryParser α) (d : Nat) := ensures_andThen hback p
        fun _ => ensures_succeed (ε := ParsingError) (a := Step.again d) (by simp)
      have hentry := (hnever enumParse depth).orElse hback <|
        (hnever messageHead (depth + 1)).orElse hback <| (hnever oneofParse depth).orElse hback <|
        (hnever optionParse depth).orElse hback <| (hnever extensionsParse depth).orElse hback <|
        (hnever reservedParse depth).orElse hback <| (hnever extendParse depth).orElse hback <|
        (hnever groupParse depth).orElse hback <| (hnever fieldParse depth).orElse hback <|
        ensures_fail _ .invalidCharacter
      exact absurd rfl (hentry _ _ _ h)

theorem messageParse_inside [Libc] {b b' : Buffer} {parsed : BodyParseResult}
    (h : messageParse.run b = (.ok parsed, b')) : Inside b parsed := by
  obtain ⟨name, b₁, hhead, h⟩ := andThen_ok.mp (restoring_ok.mp h)
  obtain ⟨n, b₂, hposition, h⟩ := andThen_ok.mp h
  obtain ⟨rfl, rfl⟩ := position_ok hposition
  obtain ⟨bodyEnd, b₃, hloop, h⟩ := andThen_ok.mp h
  simp only [pure_eq, succeed_run, Prod.mk.injEq, Except.ok.injEq] at h
  obtain ⟨rfl, rfl⟩ := h
  have hbounds : b₂.offset ≤ bodyEnd ∧ bodyEnd ≤ b₂.offset + b₂.rest.length := by
    refine loop_ok (Q := fun b bodyEnd _ => b.offset ≤ bodyEnd
      ∧ bodyEnd ≤ b.offset + b.rest.length) ?_ ?_ hloop
    . intro _ b bodyEnd b' hdone
      obtain ⟨b'', hskip, -, rfl, -⟩ := messageStep_done hdone
      obtain ⟨pre, hrest, hoffset⟩ := advances hskip
      rw [hrest, List.length_append]
      omega
    . intro _ b _ b' bodyEnd _ hagain hbounds
      obtain ⟨pre, hrest, hoffset⟩ := advances hagain
      rw [hrest, List.length_append]
      omega
  obtain ⟨pre, hrest, hoffset⟩ := advances hhead
  have := eager_messageHead _ _ _ hhead
  simp only [Inside, hrest, List.length_append] at this ⊢
  omega

theorem Inside.back {b b' : Buffer} {parsed : BodyParseResult} (h : Buffer.Advances b b')
    (hinside : Inside b' parsed) : Inside b parsed := by
  obtain ⟨pre, hrest, hoffset⟩ := h
  simp only [Inside, hrest, List.length_append] at hinside ⊢
  omega

section Bodies

variable [Libc]

theorem messageNextEntry_ensures {Q : Buffer → MessageEntry → Prop} (hQ : Backward Q)
    (henum : Ensures enumParse fun b parsed => Q b (.enumeration parsed))
    (hmessage : Ensures messageParse fun b parsed => Q b (.message parsed))
    (honeof : Ensures oneofParse fun b parsed => Q b (.oneof parsed))
    (hoption : Ensures optionParse fun b parsed => Q b (.option parsed))
    (hextensions : Ensures extensionsParse fun b parsed => Q b (.extensions parsed))
    (hreserved : Ensures reservedParse fun b parsed => Q b (.reserved parsed))
    (hextend : Ensures extendParse fun b parsed => Q b (.extend parsed))
    (hgroup : Ensures groupParse fun b _ => Q b .group)
    (hfield : Ensures fieldParse fun b parsed => Q b (.field parsed))
    : Ensures messageNextEntry Q := by
  intro b e b' h
  refine ensures_andThen hQ _ (fun _ => ?_) _ _ _ (restoring_ok.mp h)
  exact (henum.map fun _ _ h => h).orElse hQ <|
    (hmessage.map fun _ _ h => h).orElse hQ <|
    (honeof.map fun _ _ h => h).orElse hQ <|
    (hoption.map fun _ _ h => h).orElse hQ <|
    (hextensions.map fun _ _ h => h).orElse hQ <|
    (hreserved.map fun _ _ h => h).orElse hQ <|
    (hextend.map fun _ _ h => h).orElse hQ <|
    (hgroup.map fun _ _ h => h).orElse hQ <|
    (hfield.map fun _ _ h => h).orElse hQ <|
    ensures_fail _ _

theorem fileNextEntry_ensures {Q : Buffer → FileEntry → Prop} (hQ : Backward Q)
    (hdef : Ensures syntaxParse fun b parsed => Q b (.syntaxDef parsed))
    (hedition : Ensures editionParse fun b parsed => Q b (.edition parsed))
    (hpackage : Ensures packageParse fun b parsed => Q b (.package parsed))
    (himport : Ensures importParse fun b parsed => Q b (.importDef parsed))
    (hoption : Ensures optionParse fun b parsed => Q b (.option parsed))
    (hmessage : Ensures messageParse fun b parsed => Q b (.message parsed))
    (henum : Ensures enumParse fun b parsed => Q b (.enumeration parsed))
    (hservice : Ensures serviceParse fun b _ => Q b .service)
    (hextend : Ensures extendParse fun b parsed => Q b (.extend parsed))
    : Ensures fileNextEntry Q := by
  intro b e b' h
  refine ensures_andThen hQ _ (fun _ => ?_) _ _ _ (restoring_ok.mp h)
  exact (hdef.map fun _ _ h => h).orElse hQ <|
    (hedition.map fun _ _ h => h).orElse hQ <|
    (hpackage.map fun _ _ h => h).orElse hQ <|
    (himport.map fun _ _ h => h).orElse hQ <|
    (hoption.map fun _ _ h => h).orElse hQ <|
    (hmessage.map fun _ _ h => h).orElse hQ <|
    (henum.map fun _ _ h => h).orElse hQ <|
    (hservice.map fun _ _ h => h).orElse hQ <|
    (hextend.map fun _ _ h => h).orElse hQ <|
    ensures_fail _ _

theorem messageNextEntry_inside
    : Ensures messageNextEntry fun b e => ∀ parsed, e = .message parsed → Inside b parsed := by
  apply messageNextEntry_ensures
  case hQ => exact fun _ _ _ hadvances h parsed heq => (h parsed heq).back hadvances
  case hmessage =>
    rintro b parsed b' h _ ⟨rfl⟩
    exact messageParse_inside h
  all_goals simp [Ensures]

theorem fileNextEntry_inside
    : Ensures fileNextEntry fun b e => ∀ parsed, e = .message parsed → Inside b parsed := by
  apply fileNextEntry_ensures
  case hQ => exact fun _ _ _ hadvances h parsed heq => (h parsed heq).back hadvances
  case hmessage =>
    rintro b parsed b' h _ ⟨rfl⟩
    exact messageParse_inside h
  all_goals simp [Ensures]

end Bodies

end Gremlin
