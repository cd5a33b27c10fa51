import Gremlin.Printer.Mirrors

/-!
This module contains when the builder makes of a printed file what was printed.
-/

namespace Gremlin.Printer

open Text Parser Buffer

/-! What the contents of a file weigh. -/

/--
A field without a label weighs more, since what is read in its place is no field or has a label.
-/
def FieldContents.weight (fld : FieldContents) : Nat :=
  if fld.label = .none then 2 else 1

def fieldsWeight (fields : List FieldContents) : Nat :=
  (fields.map FieldContents.weight).sum

def messagesWeight (messages : List MessageContents) : Nat :=
  (messages.map fun m => fieldsWeight m.fields).sum

def enumsWeight (enums : List EnumContents) : Nat :=
  (enums.map fun en => en.values.length).sum

section Weights

@[simp]
theorem fieldsWeight_nil : fieldsWeight [] = 0 :=
  rfl

@[simp]
theorem fieldsWeight_cons (fld : FieldContents) (fields : List FieldContents)
    : fieldsWeight (fld :: fields) = fld.weight + fieldsWeight fields :=
  rfl

@[simp]
theorem fieldsWeight_append (fields fields' : List FieldContents)
    : fieldsWeight (fields ++ fields') = fieldsWeight fields + fieldsWeight fields' := by
  simp [fieldsWeight]

@[simp]
theorem messagesWeight_nil : messagesWeight [] = 0 :=
  rfl

@[simp]
theorem messagesWeight_cons (m : MessageContents) (messages : List MessageContents)
    : messagesWeight (m :: messages) = fieldsWeight m.fields + messagesWeight messages :=
  rfl

@[simp]
theorem messagesWeight_append (messages messages' : List MessageContents)
    : messagesWeight (messages ++ messages') = messagesWeight messages + messagesWeight messages' := by
  simp [messagesWeight]

@[simp]
theorem enumsWeight_nil : enumsWeight [] = 0 :=
  rfl

@[simp]
theorem enumsWeight_cons (en : EnumContents) (enums : List EnumContents)
    : enumsWeight (en :: enums) = en.values.length + enumsWeight enums :=
  rfl

@[simp]
theorem enumsWeight_append (enums enums' : List EnumContents)
    : enumsWeight (enums ++ enums') = enumsWeight enums + enumsWeight enums' := by
  simp [enumsWeight]

end Weights

/--
What was printed is read back the same where it is kept, and weighs less where it is not.
-/
structure Weighs (Kept Same : Prop) (weight weight' : Nat) : Prop where
  same : Kept → Same
  le : weight ≤ weight'
  lt : ¬Kept → weight < weight'

section Weighs

variable {Kept Same Kept' Same' : Prop} {m n m' n' : Nat}

theorem Weighs.of_same (hsame : Same) (heq : m = n) : Weighs True Same m n where
  same := fun _ => hsame
  le := heq.le
  lt := fun h => absurd trivial h

theorem Weighs.and (h : Weighs Kept Same m n) (h' : Weighs Kept' Same' m' n')
    : Weighs (Kept ∧ Kept') (Same ∧ Same') (m + m') (n + n') where
  same := fun ⟨hkept, hkept'⟩ => ⟨h.same hkept, h'.same hkept'⟩
  le := Nat.add_le_add h.le h'.le
  lt := by
    intro hnot
    have hle := h.le
    have hle' := h'.le
    by_cases hkept : Kept
    . have := h'.lt fun hkept' => hnot ⟨hkept, hkept'⟩
      omega
    . have := h.lt hkept
      omega

theorem Weighs.congr (h : Weighs Kept Same m n) (hkept : Kept' ↔ Kept) (hsame : Same → Same') (hm : m' = m)
    (hn : n' = n) : Weighs Kept' Same' m' n' where
  same := fun h' => hsame (h.same (hkept.mp h'))
  le := by
    rw [hm, hn]
    exact h.le
  lt := by
    rw [hm, hn, hkept]
    exact h.lt

theorem Weighs.of_lt (h : m < n) (hkept : ¬Kept) : Weighs Kept Same m n where
  same := fun h' => absurd h' hkept
  le := h.le
  lt := fun _ => h

end Weighs

/-! Items. -/

theorem filterMap_cons_toList {α β : Type} (f : α → Option β) (a : α) (as : List α)
    : (a :: as).filterMap f = (f a).toList ++ as.filterMap f := by
  cases hf : f a <;> simp [hf]

theorem Weighs.items {ι α β γ : Type} {R : ι → α → Prop} {Kept : ι → Prop} {read : α → Option β} {f : β → γ}
    {contents : ι → Option γ} {weight : List γ → Nat}
    (hweight : ∀ l l', weight (l ++ l') = weight l + weight l')
    (hitem : ∀ i a, R i a → Weighs (Kept i) ((read a).toList.map f = (contents i).toList)
      (weight ((read a).toList.map f)) (weight (contents i).toList))
    {is : List ι} {as : List α} (h : List.Forall₂ R is as)
    : Weighs (∀ i ∈ is, Kept i) ((as.filterMap read).map f = is.filterMap contents)
        (weight ((as.filterMap read).map f)) (weight (is.filterMap contents)) := by
  induction h with
  | nil => exact ⟨fun _ => rfl, le_refl _, fun h => absurd (List.forall_mem_nil _) h⟩
  | @cons i a is as hread _ ih =>
    rw [filterMap_cons_toList, filterMap_cons_toList, List.map_append]
    refine ((hitem i a hread).and ih).congr List.forall_mem_cons ?_ (hweight _ _) (hweight _ _)
    rintro ⟨hsame, hsame'⟩
    rw [hsame, hsame']

section Items

variable [Libc]

def valueContents (value : EnumFieldParseResult) : Span × Int :=
  (value.name, value.index)

theorem enumItems_weigh {items : List EnumItem} {es : List EnumEntry} (h : List.Forall₂ EnumItem.ReadAs items es)
    : Weighs (∀ item ∈ items, item.Kept)
        ((es.filterMap enumValue).map valueContents = items.filterMap EnumItem.contents)
        ((es.filterMap enumValue).map valueContents).length (items.filterMap EnumItem.contents).length := by
  refine Weighs.items (fun _ _ => List.length_append) ?_ h
  intro item e hread
  cases item with
  | value name n =>
    rcases hread with ⟨hnot, rfl⟩ | ⟨hoption, parsed, rfl⟩
    . exact ⟨fun _ => rfl, le_refl 1, fun h => absurd hnot h⟩
    . exact .of_lt Nat.zero_lt_one fun h => h hoption
  | option opt =>
    obtain ⟨hkept, parsed, rfl⟩ := hread
    exact ⟨fun _ => rfl, le_refl 0, fun h => absurd hkept h⟩
  | reserved res =>
    obtain ⟨hkept, parsed, rfl⟩ := hread
    exact ⟨fun _ => rfl, le_refl 0, fun h => absurd hkept h⟩

theorem oneofItems_weigh (text : Span) (stop : Nat) {items : List OneofItem} {es : List OneofEntry}
    (h : List.Forall₂ OneofItem.ReadAs items es)
    : Weighs (∀ item ∈ items, item.Kept)
        ((es.filterMap oneofMember).map (fun fld => fieldContents (fieldNode text stop fld))
          = items.filterMap OneofItem.contents)
        (fieldsWeight ((es.filterMap oneofMember).map fun fld => fieldContents (fieldNode text stop fld)))
        (fieldsWeight (items.filterMap OneofItem.contents)) := by
  refine Weighs.items fieldsWeight_append ?_ h
  intro item e hread
  cases item with
  | field type name number =>
    rcases hread with ⟨hnot, rfl⟩ | ⟨hoption, parsed, rfl⟩
    . exact ⟨fun _ => rfl, le_refl 1, fun h => absurd hnot h⟩
    . exact .of_lt Nat.zero_lt_one fun h => h hoption
  | option opt =>
    obtain ⟨hkept, parsed, rfl⟩ := hread
    exact ⟨fun _ => rfl, le_refl 0, fun h => absurd hkept h⟩

theorem field_weighs (text : Span) (stop : Nat) {style : MapStyle} {fld : FieldDecl} {e : MessageEntry}
    (h : fld.ReadAs style e)
    : Weighs (fld.Kept style) ((entryFields text stop (.inr e)).map fieldContents = [fld.contents])
        (fieldsWeight ((entryFields text stop (.inr e)).map fieldContents)) (fieldsWeight [fld.contents]) := by
  rcases h with ⟨hkept, parsed, rfl, heq⟩ | ⟨hnot, hlabel, hother⟩
  . have hsame : (entryFields text stop (.inr (.field parsed))).map fieldContents = [fld.contents] := by
      rw [← heq]
      rfl
    exact ⟨fun _ => hsame, by rw [hsame], fun h => absurd hkept h⟩
  . refine .of_lt ?_ hnot
    have hweight : fieldsWeight [fld.contents] = 2 := by
      simp [FieldContents.weight, FieldDecl.contents, hlabel]
    rw [hweight]
    rcases hother with ⟨parsed, rfl⟩ | ⟨parsed, rfl, hread⟩
    . exact Nat.zero_lt_two
    . simp [entryFields, FieldContents.weight, fieldContents, fieldNode, hread]

end Items

/-! Bodies. -/

section Bodies

variable [Libc] {text : Span} {style : MapStyle} {decls : Decls} {o : Outline}

theorem Mirrors.size (h : Mirrors text style decls o) : o.size = decls.size := by
  induction h with
  | nil => rfl
  | field _ _ ih | oneof _ _ _ ih | enumeration _ _ _ _ _ ih | option _ _ ih | reserved _ _ ih => exact ih
  | message _ _ _ ihbody ih => rw [Outline.size, Decls.size, ihbody, ih]

theorem FieldDecl.ReadAs.complete {fld : FieldDecl} {e : MessageEntry} (h : fld.ReadAs style e)
    : EntryComplete text (.inr e) := by
  rcases h with ⟨-, parsed, rfl, -⟩ | ⟨-, -, ⟨parsed, rfl⟩ | ⟨parsed, rfl, -⟩⟩ <;> simp [EntryComplete, enumOf]

omit [Libc] in
theorem FieldDecl.ReadAs.enumOf_eq {fld : FieldDecl} {e : MessageEntry} (h : fld.ReadAs style e)
    : enumOf (.inr e) = none := by
  rcases h with ⟨-, parsed, rfl, -⟩ | ⟨-, -, ⟨parsed, rfl⟩ | ⟨parsed, rfl, -⟩⟩ <;> rfl

theorem entryFields_of_enum {e : FileEntry ⊕ MessageEntry} {parsed : BodyParseResult} (h : enumOf e = some parsed)
    {stop : Nat} : entryFields text stop e = [] := by
  rcases e with e | e <;> cases e <;> simp [enumOf] at h <;> rfl

theorem Mirrors.complete (h : Mirrors text style decls o) : o.Complete text := by
  induction h with
  | nil => trivial
  | field hfield _ ih => exact ⟨hfield.complete, ih⟩
  | oneof hes _ _ ih => exact ⟨by simp [EntryComplete, enumOf, hes], ih⟩
  | @enumeration _ _ _ e parsed _ _ he _ hes _ _ ih =>
    refine ⟨⟨?_, ?_⟩, ih⟩
    . intro parsed' heq
      rw [he, Option.some_inj] at heq
      rw [← heq, hes]
    . rintro parsed' rfl
      simp [enumOf] at he
  | option _ _ ih | reserved _ _ ih => exact ⟨by simp [EntryComplete, enumOf], ih⟩
  | message _ _ _ ihbody ih => exact ⟨ihbody, ih⟩

variable (text) in
/--
The fields, the messages and the enums of a body are those of the declarations.
-/
def Same (stop : Nat) (parent : Option Nat) (next : Nat) (decls : Decls) (o : Outline) : Prop :=
  (o.fields text stop).map fieldContents = decls.fields
    ∧ (o.messages text parent next).map messageContents = decls.messages parent next
    ∧ (o.enums text parent next).map enumContents = decls.enums parent next

variable (text) in
def outlineWeight (stop : Nat) (parent : Option Nat) (next : Nat) (o : Outline) : Nat :=
  fieldsWeight ((o.fields text stop).map fieldContents)
    + (messagesWeight ((o.messages text parent next).map messageContents)
      + enumsWeight ((o.enums text parent next).map enumContents))

def declsWeight (parent : Option Nat) (next : Nat) (decls : Decls) : Nat :=
  fieldsWeight decls.fields + (messagesWeight (decls.messages parent next) + enumsWeight (decls.enums parent next))

theorem Mirrors.weighs (h : Mirrors text style decls o) (stop : Nat) (parent : Option Nat) (next : Nat)
    : Weighs (decls.Kept style) (Same text stop parent next decls o) (outlineWeight text stop parent next o)
        (declsWeight parent next decls) := by
  induction h generalizing stop parent next with
  | nil => exact .of_same ⟨rfl, rfl, rfl⟩ rfl
  | @field fld rest e o hfield hrest ih =>
    have henum : enumOf (.inr e) = none := hfield.enumOf_eq
    refine ((field_weighs text stop hfield).and (ih stop parent next)).congr Iff.rfl ?_ ?_ ?_
    . rintro ⟨hsame, hfields, hmessages, henums⟩
      refine ⟨?_, hmessages, ?_⟩
      . rw [Outline.fields, List.map_append, hsame, hfields]
        rfl
      . rw [Outline.enums, henum]
        exact henums
    . simp [outlineWeight, Outline.fields, Outline.messages, Outline.enums, henum]
      omega
    . simp [declsWeight, Decls.fields, Decls.messages, Decls.enums]
      omega
  | @oneof name items rest parsed es o hes hitems hrest ih =>
    have hmembers : membersOf text parsed = es.filterMap oneofMember := by
      rw [membersOf, hes]
    have honeof := oneofItems_weigh text parsed.bodyEnd hitems
    refine (honeof.and (ih stop parent next)).congr Iff.rfl ?_ ?_ ?_
    . rintro ⟨hsame, hfields, hmessages, henums⟩
      refine ⟨?_, hmessages, henums⟩
      rw [Outline.fields, entryFields, hmembers, List.map_append, List.map_map, hfields]
      exact congrArg (· ++ rest.fields) hsame
    . simp [outlineWeight, Outline.fields, Outline.messages, Outline.enums, entryFields, hmembers, enumOf,
        Function.comp_def]
      omega
    . simp [declsWeight, Decls.fields, Decls.messages, Decls.enums]
      omega
  | @enumeration name items rest e parsed es o he hname hes hitems hrest ih =>
    have hvalues : valuesOf text parsed = es.filterMap enumValue := by
      rw [valuesOf, hes]
    have hfields : entryFields text stop e = [] := entryFields_of_enum he
    have hentry : (Outline.entry e o).enums text parent next
        = ⟨parsed, es.filterMap enumValue, parent, .unset⟩ :: o.enums text parent next := by
      rw [Outline.enums, he, Option.map_some, hvalues]
      rfl
    refine ((enumItems_weigh hitems).and (ih stop parent next)).congr Iff.rfl ?_ ?_ ?_
    . rintro ⟨hsame, hrest, hmessages, henums⟩
      refine ⟨?_, hmessages, ?_⟩
      . rw [Outline.fields, hfields]
        exact hrest
      . have hcontents : enumContents ⟨parsed, es.filterMap enumValue, parent, .unset⟩
            = ⟨name.val, parent, items.filterMap EnumItem.contents⟩ := by
          rw [← hsame, ← hname]
          rfl
        rw [hentry, List.map_cons, hcontents, henums]
        rfl
    . simp [outlineWeight, Outline.fields, Outline.messages, hentry, hfields, enumContents]
      omega
    . simp [declsWeight, Decls.fields, Decls.messages, Decls.enums]
      omega
  | option hkept _ ih =>
    refine (ih stop parent next).congr ?_ id rfl rfl
    exact and_iff_right hkept
  | reserved hkept _ ih =>
    refine (ih stop parent next).congr ?_ id rfl rfl
    exact and_iff_right hkept
  | @message name body rest parsed inner o hname hbody hrest ihbody ih =>
    have hsize := hbody.size
    have hboth := (ihbody parsed.bodyEnd (some next) (next + 1)).and (ih stop parent (next + 1 + body.size))
    refine hboth.congr Iff.rfl ?_ ?_ ?_
    . rintro ⟨⟨hfields, hmessages, henums⟩, hfields', hmessages', henums'⟩
      refine ⟨hfields', ?_, ?_⟩
      . have hcontents : messageContents ⟨parsed, inner.fields text parsed.bodyEnd, parent, .unset⟩
            = ⟨name.val, parent, body.fields⟩ := by
          rw [← hfields, ← hname]
          rfl
        rw [Outline.messages, List.map_cons, List.map_append, hcontents, hmessages, hsize, hmessages']
        rfl
      . rw [Outline.enums, List.map_append, henums, hsize, henums']
        rfl
    . simp [outlineWeight, Outline.fields, Outline.messages, Outline.enums, hsize, messageContents]
      omega
    . simp [declsWeight, Decls.fields, Decls.messages, Decls.enums]
      omega

end Bodies

/-! Files. -/

section Files

variable [Libc]

theorem ofFile_kept (style : MapStyle) (decls : List FileDecl)
    : (ofFile decls).Kept style ↔ ∀ decl ∈ decls, decl.Kept style := by
  induction decls with
  | nil => simp [ofFile, Decls.Kept]
  | cons decl decls ih =>
    rw [List.forall_mem_cons, ← ih]
    cases decl <;> rfl

theorem ofFile_fields (decls : List FileDecl) : (ofFile decls).fields = [] := by
  induction decls with
  | nil => rfl
  | cons decl decls ih => cases decl <;> exact ih

theorem fileContents_file (text : Span) (o : Outline)
    : fileContents (o.file text)
        = ⟨(o.messages text none 0).map messageContents, (o.enums text none 0).map enumContents⟩ := by
  have hmessage (m : MessageNode) (field : FieldNode → FieldNode)
      (h : ∀ fld, fieldContents (field fld) = fieldContents fld)
      : messageContents { m with fields := m.fields.map field } = messageContents m := by
    simp [messageContents, h]
  simp only [fileContents, Outline.file, resolvePacking, List.map_map, Contents.mk.injEq, and_true]
  apply List.map_congr_left
  intro m _
  exact hmessage m _ fun _ => rfl

omit [Libc] in
theorem covers_self (text : Span) : Covers (between text 0 text.length) text ⟨text.length, []⟩ := by
  simp [Covers, between]

/--
The builder accepts the printed declarations and makes of them what was printed.
-/
def ReadsAsPrinted (style : MapStyle) (decls : List FileDecl) : Prop :=
  ∃ file, buildFile (print style decls) 0 = .ok file ∧ fileContents file = contents decls

/--
Either a declaration that is not kept is refused, or the file is built and weighs more for each of these.
-/
theorem print_outcome (style : MapStyle) (decls : List FileDecl)
    : (∃ file, buildFile (print style decls) 0 = .ok file
          ∧ (fileContents file = contents decls ↔ ∀ decl ∈ decls, decl.Kept style))
        ∨ (∃ decl ∈ decls, ¬decl.Kept style) ∧ ∀ file, buildFile (print style decls) 0 ≠ .ok file := by
  generalize htext : print style decls = text
  have hcovers : Covers (between text 0 text.length) (declsText style [] decls) ⟨text.length, []⟩ := by
    rw [← print_eq, htext]
    exact covers_self text
  rcases entries_outcome style (.inl rfl) hcovers rfl with ⟨es, hes, htaken⟩ | ⟨hnot, herror⟩
  . left
    obtain ⟨o, ho, hmirrors⟩ := exists_mirrors_file htaken
    have hfile : buildFile text 0 = .ok (o.file text) :=
      (buildFile_ok_iff text 0 _).mpr ⟨o, ⟨es, hes, ho⟩, hmirrors.complete, rfl⟩
    have hweighs := hmirrors.weighs text.length none 0
    refine ⟨_, hfile, ?_⟩
    rw [fileContents_file]
    constructor
    . intro hcontents
      rw [contents, Contents.mk.injEq] at hcontents
      by_contra hnot
      rw [← ofFile_kept] at hnot
      have hlt := hweighs.lt hnot
      rw [outlineWeight, declsWeight, ofFile_fields, hcontents.1, hcontents.2] at hlt
      simp at hlt
    . intro hkept
      obtain ⟨-, hmessages, henums⟩ := hweighs.same ((ofFile_kept style decls).mpr hkept)
      rw [hmessages, henums]
      rfl
  . refine .inr ⟨hnot, ?_⟩
    intro file hok
    obtain ⟨o, ⟨es, hes, -⟩, -⟩ := (buildFile_ok_iff text 0 file).mp hok
    rw [fileEntries] at hes
    rw [hes] at herror
    exact absurd rfl herror

theorem ReadsAsPrinted.kept {style : MapStyle} {decls : List FileDecl} (h : ReadsAsPrinted style decls)
    : ∀ decl ∈ decls, decl.Kept style := by
  obtain ⟨file, hok, hcontents⟩ := h
  rcases print_outcome style decls with ⟨file', hok', hiff⟩ | ⟨-, hrefused⟩
  . rw [hok, Except.ok.injEq] at hok'
    exact hiff.mp (hok' ▸ hcontents)
  . exact absurd hok (hrefused file)

theorem readsAsPrinted_of_kept {style : MapStyle} {decls : List FileDecl} (h : ∀ decl ∈ decls, decl.Kept style)
    : ReadsAsPrinted style decls := by
  rcases print_outcome style decls with ⟨file, hok, hiff⟩ | ⟨⟨decl, hmem, hnot⟩, -⟩
  . exact ⟨file, hok, hiff.mpr h⟩
  . exact absurd (h decl hmem) hnot

/--
The builder makes of a printed file what was printed, if and only if every declaration of it is kept.
-/
theorem print_builds_iff (style : MapStyle) (decls : List FileDecl)
    : (∃ file, buildFile (print style decls) 0 = .ok file ∧ fileContents file = contents decls)
        ↔ ∀ decl ∈ decls, decl.Kept style :=
  ⟨fun h => ReadsAsPrinted.kept h, readsAsPrinted_of_kept⟩

end Files

end Gremlin.Printer
