import Gremlin.Descriptors.Covered
import Gremlin.Printer.Messages

/-!
This module contains the walk over a printed file and those over the bodies in it.
-/

namespace Gremlin.Printer

open Text Parser Buffer

variable [Libc]

/-! Declarations of a file. -/

def FileDecl.Kept (style : MapStyle) : FileDecl → Prop
  | .enumeration _ items => ∀ item ∈ items, item.Kept
  | .message _ body => body.Kept style

def declText (style : MapStyle) (decl : FileDecl) : Span :=
  spaced (decl.tokens style)

/--
What the entries of a file begin with that are tried before messages.
-/
def fileWords : List Span :=
  ["syntax".toList, "edition".toList, "package".toList, "import".toList, "option".toList]

section Head

variable {word : String} {b b' : Buffer} {name : Span} (h : (blockHead word parseIdentifier).run b = (.ok name, b'))

include h

theorem fileEntry_run (hdiffers : ∀ other ∈ fileWords, Differs word.toList other)
    : fileEntry.run b = ((FileEntry.message <$> messageParse).orElse <|
        (FileEntry.enumeration <$> enumParse).orElse <|
        ((fun _ => FileEntry.service) <$> serviceParse).orElse <|
        (FileEntry.extend <$> extendParse).orElse <|
        fail .unexpectedToken).run b := by
  have hpre := word_of_blockHead h
  have hversion : Never b syntaxParse := opening_ne_ok (hdiffers _ (by decide)) hpre _ _
  have hedition : Never b editionParse := opening_ne_ok (hdiffers _ (by decide)) hpre _ _
  have hpackage : Never b packageParse := opening_ne_ok (hdiffers _ (by decide)) hpre _ _
  have himport : Never b importParse := opening_ne_ok (hdiffers _ (by decide)) hpre _ _
  have hoption : Never b optionParse := opening_ne_ok (hdiffers _ (by decide)) hpre _ _
  unfold fileEntry
  rw [Never.orElse_run (hversion.map _) (restores_restoring _).map]
  rw [Never.orElse_run (hedition.map _) (restores_restoring _).map]
  rw [Never.orElse_run (hpackage.map _) (restores_restoring _).map]
  rw [Never.orElse_run (himport.map _) (restores_restoring _).map]
  rw [Never.orElse_run (hoption.map _) (restores_restoring _).map]

theorem never_fileEnd (hservice : Differs word.toList "service".toList) (hextend : Differs word.toList "extend".toList)
    : Never b (((fun _ => FileEntry.service) <$> serviceParse).orElse <|
        (FileEntry.extend <$> extendParse).orElse <| fail .unexpectedToken) := by
  have hpre := word_of_blockHead h
  apply Never.orElse (Never.map (opening_ne_ok hservice hpre _ _) _) (restores_restoring _).map
  apply Never.orElse (Never.map ((never_block h hextend).map _) _) restores_extendParse.map
  exact never_fail b _

end Head

/--
The entry of a file is what its parser takes of this declaration.
-/
def FileDecl.TakenAs (style : MapStyle) (b b' : Buffer) : FileDecl → FileEntry → Prop
  | .enumeration name items, e => ∃ parsed, e = .enumeration parsed ∧ enumParse.run b = (.ok parsed, b')
      ∧ Taken enumEntry (fun item : EnumItem => spaced item.tokens) name items b b' parsed
  | .message name body, e => ∃ parsed, e = .message parsed ∧ messageParse.run b = (.ok parsed, b')
      ∧ Taken messageEntry (memberText style) name body.members b b' parsed

theorem fileDecl_outcome (style : MapStyle) (decl : FileDecl) {b b' : Buffer}
    (hcovers : Covers b (declText style decl) b')
    : (∃ e, fileEntry.run b = (.ok e, b') ∧ decl.TakenAs style b b' e)
        ∨ (¬decl.Kept style ∧ Never b fileEntry) := by
  cases decl with
  | enumeration name items =>
    have htext : declText style (.enumeration name items) = headText "enum" name
        ++ bodyText (fun item => spaced item.tokens) items := spaced_enum name items
    obtain ⟨c, hhead⟩ := blockHead_run (htext ▸ hcovers)
    have hentry := fileEntry_run hhead (by decide)
    rw [Never.orElse_run ((never_messageParse (by decide) hhead).map _) (restores_restoring _).map] at hentry
    rcases enum_outcome hcovers with ⟨parsed, hrun, htaken⟩ | ⟨⟨item, hmem, hnot⟩, hnever⟩
    . refine .inl ⟨.enumeration parsed, ?_, parsed, rfl, hrun, htaken⟩
      rw [hentry]
      exact orElse_of_ok (map_ok.mpr ⟨parsed, hrun, rfl⟩)
    . refine .inr ⟨fun hkept => hnot (hkept item hmem), ?_⟩
      intro a d
      rw [hentry]
      exact Never.orElse (hnever.map _) (restores_restoring _).map (never_fileEnd hhead (by decide) (by decide)) a d
  | message name body =>
    have htext : declText style (.message name body) = headText "message" name
        ++ bodyText (memberText style) body.members := spaced_message style name body
    obtain ⟨c, hhead⟩ := blockHead_run (htext ▸ hcovers)
    have hentry := fileEntry_run hhead (by decide)
    rcases message_outcome (settled_members style body) hcovers with ⟨parsed, hrun, htaken⟩ | ⟨hnot, hnever⟩
    . refine .inl ⟨.message parsed, ?_, parsed, rfl, hrun, htaken⟩
      rw [hentry]
      exact orElse_of_ok (map_ok.mpr ⟨parsed, hrun, rfl⟩)
    . refine .inr ⟨hnot, ?_⟩
      intro a d
      rw [hentry]
      apply Never.orElse (hnever.map _) (restores_restoring _).map
      apply Never.orElse ((never_enumParse (by decide) hhead).map _) (restores_restoring _).map
      exact never_fileEnd hhead (by decide) (by decide)

theorem declText_head (style : MapStyle) (decl : FileDecl) : IsItemHead (declText style decl) := by
  cases decl with
  | enumeration name items => exact (settled_enum style name items).head
  | message name body => exact (settled_message name (settled_members style body)).head

/-! The walk over the file. -/

/--
The declarations with spaces between them, and maybe one in front of them.
-/
def declsText (style : MapStyle) (gap : Span) : List FileDecl → Span
  | [] => []
  | decl :: decls => gap ++ (declText style decl ++ declsText style [' '] decls)

theorem decl_ne_nil (style : MapStyle) (decl : FileDecl) : decl.tokens style ≠ [] := by
  cases decl <;> exact List.cons_ne_nil _ _

theorem behind_file (style : MapStyle) (decls : List FileDecl)
    : behind (decls.flatMap (FileDecl.tokens style)) = declsText style [' '] decls := by
  rw [behind_flatMap (decl_ne_nil style)]
  induction decls with
  | nil => rfl
  | cons decl decls ih =>
    rw [List.flatMap_cons, ih]
    rfl

theorem print_eq (style : MapStyle) (decls : List FileDecl) : print style decls = declsText style [] decls := by
  cases decls with
  | nil => rfl
  | cons decl decls =>
    rw [print, List.flatMap_cons, spaced_append (decl_ne_nil style decl), behind_file]
    rfl

def TakenIn (style : MapStyle) (b : Buffer) (decl : FileDecl) (e : FileEntry) : Prop :=
  ∃ b₁ b₂, Advances b b₁ ∧ decl.TakenAs style b₁ b₂ e

theorem entries_outcome (style : MapStyle) {decls : List FileDecl} {gap : Span} (hgap : gap = [] ∨ gap = [' '])
    {b b' : Buffer} (hcovers : Covers b (declsText style gap decls) b') (hend : b'.rest = [])
    : (∃ es, entries fileNextEntry b = (es, none) ∧ List.Forall₂ (TakenIn style b) decls es)
        ∨ ((∃ decl ∈ decls, ¬decl.Kept style) ∧ (entries fileNextEntry b).2 ≠ none) := by
  induction decls generalizing gap b with
  | nil =>
    obtain rfl := eq_of_covers_nil hcovers
    have hspaces : skipSpaces.run b' = (.ok (), b') := by
      rw [skipSpaces_ok, hend]
      exact ⟨rfl, rfl⟩
    obtain ⟨e, herror⟩ := next_at_end eager_fileEntry fileNextEntry_eq hspaces hend
    rw [entries_of_error herror]
    refine .inl ⟨[], ?_, .nil⟩
    simp [atEof, hspaces, hend]
  | cons decl decls ih =>
    obtain ⟨b₁, hgapped, hcovers⟩ := covers_append.mp hcovers
    obtain ⟨b₂, hdecl, hcovers⟩ := covers_append.mp hcovers
    obtain ⟨d, rest, hhead, hd, hother⟩ := declText_head style decl
    have hrest : b₁.rest = d :: (rest ++ b₂.rest) := by
      rw [hdecl.1, hhead, List.cons_append]
    have hspaces : skipSpaces.run b = (.ok (), b₁) := by
      rcases hgap with rfl | rfl
      . obtain rfl := eq_of_covers_nil hgapped
        exact skipSpaces_token (hrest ▸ isTokenHead_cons hd)
      . exact skipSpaces_space hgapped (hrest ▸ isTokenHead_cons hd)
    have hsemicolon : (checkAndShift ';').run b₁ = (.ok false, b₁) := by
      apply checkAndShift_of_head
      rw [hrest]
      simp only [List.mem_cons, List.not_mem_nil, or_false, not_or] at hother
      simpa using hother.2
    rcases fileDecl_outcome style decl hdecl with ⟨e, hrun, htaken⟩ | ⟨hnot, hnever⟩
    . have hnext := next_of_item fileNextEntry_eq hspaces hsemicolon hrun
      rw [entries_of_ok eager_fileNextEntry hnext]
      rcases ih (.inr rfl) hcovers with ⟨es, hes, htakens⟩ | ⟨⟨other, hmem, hnot⟩, herror⟩
      . rw [hes]
        refine .inl ⟨e :: es, rfl, .cons ⟨b₁, b₂, Parser.advances hspaces, htaken⟩ (htakens.imp ?_)⟩
        rintro other e' ⟨c₁, c₂, hforward, htaken⟩
        exact ⟨c₁, c₂, (Parser.advances hspaces).trans ((Parser.advances hrun).trans hforward), htaken⟩
      . exact .inr ⟨⟨other, List.mem_cons_of_mem _ hmem, hnot⟩, herror⟩
    . refine .inr ⟨⟨decl, List.mem_cons_self, hnot⟩, ?_⟩
      rcases hnext : fileNextEntry.run b with ⟨e | a, c⟩
      . rw [fileNextEntry_eq] at hnext
        obtain rfl := (restoring_error hnext).1
        rw [← fileNextEntry_eq] at hnext
        rw [entries_of_error hnext]
        simp [atEof, hspaces, hrest]
      . rw [fileNextEntry_eq] at hnext
        obtain ⟨_, c', hskip, hentry⟩ := andThen_ok.mp (restoring_ok.mp hnext)
        rw [skipSemicolons_done hspaces hsemicolon, Prod.mk.injEq] at hskip
        rw [← hskip.2] at hentry
        exact absurd hentry (hnever a c)

end Gremlin.Printer
