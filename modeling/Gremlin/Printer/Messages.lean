import Gremlin.Printer.Bodies

/-!
This module contains what the parser of the entries of a message takes where these are printed, blocks and
messages among them.
-/

namespace Gremlin.Printer

open Text Parser Buffer

/-! Members. -/

section Members

variable [Libc]

/--
An entry of the body of a message.
-/
inductive Member where
  | field (fld : FieldDecl)
  | oneof (name : Name) (items : List OneofItem)
  | enumeration (name : Name) (items : List EnumItem)
  | option (opt : OptionDecl)
  | reserved (res : ReservedDecl)
  | message (name : Name) (body : Decls)

def Decls.members : Decls → List Member
  | .nil => []
  | .field fld rest => .field fld :: rest.members
  | .oneof name items rest => .oneof name items :: rest.members
  | .enumeration name items rest => .enumeration name items :: rest.members
  | .option opt rest => .option opt :: rest.members
  | .reserved res rest => .reserved res :: rest.members
  | .message name body rest => .message name body :: rest.members

def Member.tokens (style : MapStyle) : Member → List Span
  | .field fld => fld.tokens style
  | .oneof name items => oneofTokens name items
  | .enumeration name items => enumTokens name items
  | .option opt => opt.tokens
  | .reserved res => res.tokens
  | .message name body => blockTokens "message" name (body.tokens style)

theorem Decls.tokens_eq (style : MapStyle) (decls : Decls)
    : decls.tokens style = decls.members.flatMap (Member.tokens style) := by
  induction decls with
  | nil => rfl
  | field _ _ ih | oneof _ _ _ ih | enumeration _ _ _ ih | option _ _ ih | reserved _ _ ih | message _ _ _ _ ih =>
    rw [tokens, members, List.flatMap_cons, ih]
    rfl

/--
What the printed declarations have to be for their descriptors to be read back.
-/
def Decls.Kept (style : MapStyle) : Decls → Prop
  | .nil => True
  | .field fld rest => fld.Kept style ∧ rest.Kept style
  | .oneof _ items rest => (∀ item ∈ items, item.Kept) ∧ rest.Kept style
  | .enumeration _ items rest => (∀ item ∈ items, item.Kept) ∧ rest.Kept style
  | .option opt rest => opt.value.Whole ∧ rest.Kept style
  | .reserved res rest => res.Kept ∧ rest.Kept style
  | .message _ body rest => body.Kept style ∧ rest.Kept style

def Member.Kept (style : MapStyle) : Member → Prop
  | .field fld => fld.Kept style
  | .oneof _ items => ∀ item ∈ items, item.Kept
  | .enumeration _ items => ∀ item ∈ items, item.Kept
  | .option opt => opt.value.Whole
  | .reserved res => res.Kept
  | .message _ body => body.Kept style

theorem Decls.kept_iff (style : MapStyle) (decls : Decls)
    : decls.Kept style ↔ ∀ m ∈ decls.members, m.Kept style := by
  induction decls with
  | nil => simp [Kept, members]
  | field _ _ ih | oneof _ _ _ ih | enumeration _ _ _ ih | option _ _ ih | reserved _ _ ih | message _ _ _ _ ih =>
    rw [Kept, members, List.forall_mem_cons, ih]
    rfl

end Members

/-! What items begin with. -/

theorem isItemHead_start {c : Char} (h : isIdentifierStart c = true) (rest : Span) : IsItemHead (c :: rest) := by
  refine ⟨c, rest, rfl, isTokenHead_start h, ?_⟩
  have hall : ∀ c ∈ ['\x7d', ';'], isIdentifierStart c = false := List.all_iff_forall_prop.mp (by decide)
  intro hmem
  rw [hall c hmem] at h
  exact Bool.false_ne_true h

theorem IsItemHead.append {text : Span} (h : IsItemHead text) (rest : Span) : IsItemHead (text ++ rest) := by
  obtain ⟨c, tail, rfl, hc⟩ := h
  exact ⟨c, tail ++ rest, rfl, hc⟩

theorem isItemHead_name (name : Name) (rest : Span) : IsItemHead (name.val ++ rest) := by
  obtain ⟨c, tail, hname, hc⟩ := name.2.start
  rw [hname]
  exact isItemHead_start hc _

theorem isItemHead_path (name : Path) (rest : Span) : IsItemHead (name.val ++ rest) := by
  obtain ⟨c, tail, hname, hc⟩ := isFullIdentifier_head name.2
  rw [hname]
  rcases hc with hc | ⟨rfl, -⟩
  . exact isItemHead_start hc _
  . exact ⟨'.', _, rfl, by decide⟩

theorem isItemHead_word {word : Span} (h : IsIdentifier word) (rest : Span) : IsItemHead (word ++ rest) :=
  isItemHead_name ⟨word, h⟩ rest

theorem isItemHead_reserved (res : ReservedDecl) : IsItemHead (spaced res.tokens) := by
  obtain ⟨d, rest, htext, -⟩ := reservedText_head res
  rw [htext]
  exact isItemHead_word isIdentifier_reserved _

theorem isItemHead_field (style : MapStyle) (fld : FieldDecl) : IsItemHead (spaced (fld.tokens style)) := by
  rw [spaced_field]
  by_cases hlabel : fld.label = .none
  . rw [hlabel, labelText, List.nil_append]
    apply IsItemHead.append
    cases fld.type with
    | named name =>
      rw [TypeDecl.tokens, spaced_cons, behind_nil]
      exact isItemHead_path name _
    | map key value =>
      obtain ⟨rest, hm⟩ := spaced_mapType style key value
      rw [hm]
      exact isItemHead_start (by decide) _
  . rw [labelText_eq hlabel, List.append_assoc]
    apply IsItemHead.append
    obtain ⟨-, c, rest, hword, hc, -⟩ := labelWords_start (labelWord_mem hlabel)
    rw [hword]
    exact isItemHead_start hc _

section Settled

variable [Libc]

theorem isItemHead_option (opt : OptionDecl) : IsItemHead (spaced opt.tokens) := by
  rw [opt.spaced_eq]
  exact isItemHead_word isIdentifier_option _

theorem settled_enumItem (item : EnumItem) : Settled enumEntry (spaced item.tokens) item.Kept := by
  apply settled_of_reads _ (enumItem_outcome item)
  cases item with
  | value name n =>
    rw [spaced_value]
    exact isItemHead_name name _
  | option opt => exact isItemHead_option opt
  | reserved res => exact isItemHead_reserved res

theorem settled_oneofItem (item : OneofItem) : Settled oneofEntry (spaced item.tokens) item.Kept := by
  apply settled_of_reads _ (oneofItem_outcome item)
  cases item with
  | field type name number =>
    rw [spaced_oneofField]
    exact isItemHead_path type _
  | option opt => exact isItemHead_option opt

/-! Blocks among the entries. -/

omit [Libc] in
theorem Never.orElse_run {α : Type} {b : Buffer} {p q : EntryParser α} (hp : Never b p) (hrestores : Restores p)
    : (p.orElse q).run b = q.run b := by
  rcases hrun : p.run b with ⟨e | a, b'⟩
  . rw [orElse_of_error hrun, hrestores b e b' hrun]
  . exact absurd hrun (hp a b')

theorem enumParse_eq
    : enumParse = block "enum" parseIdentifier (discard (enumEntry.orElse (fail .invalidEnumDef))) := by
  unfold enumParse
  rw [enumBody_eq]

theorem oneofParse_eq
    : oneofParse = block "oneof" parseIdentifier (discard (oneofEntry.orElse (fail .invalidOneofElement))) := by
  unfold oneofParse
  rw [oneofBody_eq]

theorem enum_run {b b' : Buffer} {parsed : BodyParseResult} (h : enumParse.run b = (.ok parsed, b'))
    : messageEntry.run b = (.ok (.enumeration parsed), b') :=
  orElse_of_ok (map_ok.mpr ⟨parsed, h, rfl⟩)

section Head

variable {word : String} {b b' : Buffer} {name : Span}

theorem never_messageParse (hdiffers : Differs word.toList "message".toList)
    (h : (blockHead word parseIdentifier).run b = (.ok name, b')) : Never b messageParse := by
  intro a c hrun
  obtain ⟨_, c', hhead⟩ := messageHead_of_messageParse hrun
  exact never_messageHead h hdiffers _ _ hhead

theorem never_enumParse (hdiffers : Differs word.toList "enum".toList)
    (h : (blockHead word parseIdentifier).run b = (.ok name, b')) : Never b enumParse :=
  never_block h hdiffers

theorem never_enum (h : (blockHead "enum" parseIdentifier).run b = (.ok name, b')) (henum : Never b enumParse)
    : Never b messageEntry := by
  apply Never.orElse (henum.map _) (restores_restoring _).map
  apply Never.orElse ((never_messageParse (by decide) h).map _) (restores_restoring _).map
  exact never_messageTail isBlockWord_enum names_parseIdentifier h (by decide) (by decide) (by decide) (by decide)
    (by decide)

theorem oneof_run (h : (blockHead "oneof" parseIdentifier).run b = (.ok name, b')) {parsed : BodyParseResult}
    {c : Buffer} (hrun : oneofParse.run b = (.ok parsed, c)) : messageEntry.run b = (.ok (.oneof parsed), c) := by
  unfold messageEntry
  rw [Never.orElse_run ((never_enumParse (by decide) h).map _) (restores_restoring _).map]
  rw [Never.orElse_run ((never_messageParse (by decide) h).map _) (restores_restoring _).map]
  exact orElse_of_ok (map_ok.mpr ⟨parsed, hrun, rfl⟩)

theorem never_oneof (h : (blockHead "oneof" parseIdentifier).run b = (.ok name, b')) (honeof : Never b oneofParse)
    : Never b messageEntry := by
  have hpre := word_of_blockHead h
  apply Never.orElse ((never_enumParse (by decide) h).map _) (restores_restoring _).map
  apply Never.orElse ((never_messageParse (by decide) h).map _) (restores_restoring _).map
  apply Never.orElse (honeof.map _) (restores_restoring _).map
  apply Never.orElse (Never.map (opening_ne_ok (by decide) hpre _ _) _) (restores_restoring _).map
  apply Never.orElse (Never.map (opening_ne_ok (by decide) hpre _ _) _) (restores_restoring _).map
  apply Never.orElse (Never.map (opening_ne_ok (by decide) hpre _ _) _) (restores_restoring _).map
  apply Never.orElse (Never.map ((never_block h (by decide)).map _) _) restores_extendParse.map
  exact never_groupEnd isBlockWord_oneof names_parseIdentifier h

theorem message_run (h : (blockHead "message" parseIdentifier).run b = (.ok name, b')) {parsed : BodyParseResult}
    {c : Buffer} (hrun : messageParse.run b = (.ok parsed, c)) : messageEntry.run b = (.ok (.message parsed), c) := by
  unfold messageEntry
  rw [Never.orElse_run ((never_enumParse (by decide) h).map _) (restores_restoring _).map]
  exact orElse_of_ok (map_ok.mpr ⟨parsed, hrun, rfl⟩)

theorem never_message (h : (blockHead "message" parseIdentifier).run b = (.ok name, b'))
    (hmessage : Never b messageParse) : Never b messageEntry := by
  apply Never.orElse ((never_enumParse (by decide) h).map _) (restores_restoring _).map
  apply Never.orElse (hmessage.map _) (restores_restoring _).map
  exact never_messageTail isBlockWord_message names_parseIdentifier h (by decide) (by decide) (by decide) (by decide)
    (by decide)

end Head

/-! The texts of blocks. -/

theorem enumItem_ne_nil (item : EnumItem) : item.tokens ≠ [] := by
  cases item with
  | value name n => exact List.cons_ne_nil _ _
  | option opt => exact List.cons_ne_nil _ _
  | reserved res => cases res <;> exact List.cons_ne_nil _ _

theorem oneofItem_ne_nil (item : OneofItem) : item.tokens ≠ [] := by
  cases item <;> exact List.cons_ne_nil _ _

theorem member_ne_nil (style : MapStyle) (m : Member) : m.tokens style ≠ [] := by
  cases m with
  | field fld => exact List.append_ne_nil_of_right_ne_nil _ (List.cons_ne_nil _ _)
  | oneof name items => exact List.cons_ne_nil _ _
  | enumeration name items => exact List.cons_ne_nil _ _
  | option opt => exact List.cons_ne_nil _ _
  | reserved res => cases res <;> exact List.cons_ne_nil _ _
  | message name body => exact List.cons_ne_nil _ _

theorem spaced_enum (name : Name) (items : List EnumItem)
    : spaced (enumTokens name items) = headText "enum" name ++ bodyText (fun item => spaced item.tokens) items :=
  spaced_block enumItem_ne_nil _ _ _

theorem spaced_oneof (name : Name) (items : List OneofItem)
    : spaced (oneofTokens name items) = headText "oneof" name ++ bodyText (fun item => spaced item.tokens) items :=
  spaced_block oneofItem_ne_nil _ _ _

theorem spaced_message (style : MapStyle) (name : Name) (body : Decls)
    : spaced (blockTokens "message" name (body.tokens style))
        = headText "message" name ++ bodyText (fun m => spaced (Member.tokens style m)) body.members := by
  rw [Decls.tokens_eq]
  exact spaced_block (member_ne_nil style) _ _ _

/-! Outcomes. -/

def memberText (style : MapStyle) (m : Member) : Span :=
  spaced (m.tokens style)

section Enum

variable {name : Name} {b b' : Buffer}

theorem enum_outcome {items : List EnumItem} (hcovers : Covers b (spaced (enumTokens name items)) b')
    : (∃ parsed, enumParse.run b = (.ok parsed, b')
          ∧ Taken enumEntry (fun item : EnumItem => spaced item.tokens) name items b b' parsed)
        ∨ ((∃ item ∈ items, ¬item.Kept) ∧ Never b enumParse) := by
  rw [spaced_enum] at hcovers
  rw [enumParse_eq]
  exact block_outcome (fun item _ => settled_enumItem item) eager_enumEntry _ "enum" name hcovers

theorem oneof_outcome {items : List OneofItem} (hcovers : Covers b (spaced (oneofTokens name items)) b')
    : (∃ parsed, oneofParse.run b = (.ok parsed, b')
          ∧ Taken oneofEntry (fun item : OneofItem => spaced item.tokens) name items b b' parsed)
        ∨ ((∃ item ∈ items, ¬item.Kept) ∧ Never b oneofParse) := by
  rw [spaced_oneof] at hcovers
  rw [oneofParse_eq]
  exact block_outcome (fun item _ => settled_oneofItem item) eager_oneofEntry _ "oneof" name hcovers

theorem message_outcome {style : MapStyle} {body : Decls}
    (hbody : ∀ m ∈ body.members, Settled messageEntry (memberText style m) (m.Kept style))
    (hcovers : Covers b (spaced (blockTokens "message" name (body.tokens style))) b')
    : (∃ parsed, messageParse.run b = (.ok parsed, b')
          ∧ Taken messageEntry (memberText style) name body.members b b' parsed)
        ∨ (¬body.Kept style ∧ Never b messageParse) := by
  rw [spaced_message] at hcovers
  obtain ⟨b₁, hhead, hcovers⟩ := covers_append.mp hcovers
  have hrun : messageHead.run b = (.ok name.val, b₁) :=
    restoring_ok.mpr ((reads_blockHead "message" name).run hhead trivial)
  rcases body_outcome hbody hcovers with ⟨es, bodyEnd, hbody, hread⟩ | ⟨⟨m, hmem, hnot⟩, hnone⟩
  . refine .inl ⟨⟨name.val, b₁.offset, bodyEnd⟩, ?_, rfl, b₁, es, Parser.advances hrun, rfl, hbody, hread⟩
    apply restoring_ok.mpr
    simp only [bind_eq]
    rw [andThen_of_ok hrun, andThen_of_ok (position_run _), andThen_of_ok hbody.messageLoop]
    rfl
  . refine .inr ⟨fun hkept => hnot ((body.kept_iff style).mp hkept m hmem), ?_⟩
    intro parsed c hmessage
    have hmessage := restoring_ok.mp hmessage
    simp only [bind_eq] at hmessage
    rw [andThen_of_ok hrun, andThen_of_ok (position_run _)] at hmessage
    obtain ⟨bodyEnd, c', hloop, -⟩ := andThen_ok.mp hmessage
    obtain ⟨es, k, hbody⟩ := exists_body_of_loop hloop
    exact hnone es k bodyEnd c' hbody

end Enum

omit [Libc] in
theorem blockHead_run {word : String} {name : Name} {text : Span} {b b' : Buffer}
    (hcovers : Covers b (headText word name ++ text) b')
    : ∃ c, (blockHead word parseIdentifier).run b = (.ok name.val, c) := by
  obtain ⟨c, hhead, -⟩ := covers_append.mp hcovers
  exact ⟨c, (reads_blockHead word name).run hhead trivial⟩

omit [Libc] in
theorem isItemHead_block {word : String} (hword : IsIdentifier word.toList) (name : Name) (text : Span)
    : IsItemHead (headText word name ++ text) := by
  rw [headText, List.append_assoc]
  exact isItemHead_word hword _

theorem settled_enum (style : MapStyle) (name : Name) (items : List EnumItem)
    : Settled messageEntry (memberText style (.enumeration name items))
        (Member.Kept style (.enumeration name items)) := by
  have htext : memberText style (.enumeration name items) = headText "enum" name
      ++ bodyText (fun item => spaced item.tokens) items := spaced_enum name items
  constructor
  . rw [htext]
    exact isItemHead_block (isIdentifier_of_all (by decide) (by decide)) _ _
  . intro b b' hcovers
    rcases enum_outcome hcovers with ⟨parsed, hrun, -⟩ | ⟨⟨item, hmem, hnot⟩, hnever⟩
    . exact .inl ⟨_, enum_run hrun⟩
    . obtain ⟨c, hhead⟩ := blockHead_run (htext ▸ hcovers)
      exact .inr ⟨fun hkept => hnot (hkept item hmem), never_enum hhead hnever⟩

theorem settled_oneof (style : MapStyle) (name : Name) (items : List OneofItem)
    : Settled messageEntry (memberText style (.oneof name items)) (Member.Kept style (.oneof name items)) := by
  have htext : memberText style (.oneof name items) = headText "oneof" name
      ++ bodyText (fun item => spaced item.tokens) items := spaced_oneof name items
  constructor
  . rw [htext]
    exact isItemHead_block (isIdentifier_of_all (by decide) (by decide)) _ _
  . intro b b' hcovers
    obtain ⟨c, hhead⟩ := blockHead_run (htext ▸ hcovers)
    rcases oneof_outcome hcovers with ⟨parsed, hrun, -⟩ | ⟨⟨item, hmem, hnot⟩, hnever⟩
    . exact .inl ⟨_, oneof_run hhead hrun⟩
    . exact .inr ⟨fun hkept => hnot (hkept item hmem), never_oneof hhead hnever⟩

theorem settled_message {style : MapStyle} (name : Name) {body : Decls}
    (hbody : ∀ m ∈ body.members, Settled messageEntry (memberText style m) (m.Kept style))
    : Settled messageEntry (memberText style (.message name body)) (Member.Kept style (.message name body)) := by
  have htext : memberText style (.message name body) = headText "message" name
      ++ bodyText (memberText style) body.members := spaced_message style name body
  constructor
  . rw [htext]
    exact isItemHead_block (isIdentifier_of_all (by decide) (by decide)) _ _
  . intro b b' hcovers
    obtain ⟨c, hhead⟩ := blockHead_run (htext ▸ hcovers)
    rcases message_outcome hbody hcovers with ⟨parsed, hrun, -⟩ | ⟨hnot, hnever⟩
    . exact .inl ⟨_, message_run hhead hrun⟩
    . exact .inr ⟨hnot, never_message hhead hnever⟩

theorem settled_members (style : MapStyle) (decls : Decls)
    : ∀ m ∈ decls.members, Settled messageEntry (memberText style m) (m.Kept style) := by
  induction decls with
  | nil => exact fun m hmem => absurd hmem List.not_mem_nil
  | field fld rest ih =>
    rw [Decls.members, List.forall_mem_cons]
    exact ⟨settled_of_reads (isItemHead_field style fld) (field_outcome style fld), ih⟩
  | oneof name items rest ih =>
    rw [Decls.members, List.forall_mem_cons]
    exact ⟨settled_oneof style name items, ih⟩
  | enumeration name items rest ih =>
    rw [Decls.members, List.forall_mem_cons]
    exact ⟨settled_enum style name items, ih⟩
  | option opt rest ih =>
    rw [Decls.members, List.forall_mem_cons]
    exact ⟨settled_of_reads (isItemHead_option opt) (option_outcome opt), ih⟩
  | reserved res rest ih =>
    rw [Decls.members, List.forall_mem_cons]
    exact ⟨settled_of_reads (isItemHead_reserved res) (reserved_outcome res), ih⟩
  | message name body rest ihbody ih =>
    rw [Decls.members, List.forall_mem_cons]
    exact ⟨settled_message name ihbody, ih⟩

end Settled

end Gremlin.Printer
