import Gremlin.Printer.RoundTrip

/-!
This module contains which declarations are read back as printed where no name that stands first in an entry
is a keyword. The names may begin like one.
-/

namespace Gremlin.Printer

open Text

def keywords : List Span :=
  ["option", "optional", "repeated", "required", "reserved", "message", "enum", "oneof", "map", "group",
    "extend"].map String.toList

section Declarations

variable [Libc]

/--
A field without a label whose type is a keyword.
-/
def FieldDecl.Bare (fld : FieldDecl) : Prop :=
  fld.label = .none ∧ ∃ name, fld.type = .named name ∧ name.val ∈ keywords

def OneofItem.Bare : OneofItem → Prop
  | .field type _ _ => type.val ∈ keywords
  | .option _ => False

def EnumItem.Bare : EnumItem → Prop
  | .value name _ => name.val ∈ keywords
  | .option _ | .reserved _ => False

def Decls.AvoidsKeywords : Decls → Prop
  | .nil => True
  | .field fld rest => ¬fld.Bare ∧ rest.AvoidsKeywords
  | .oneof _ items rest => (∀ item ∈ items, ¬item.Bare) ∧ rest.AvoidsKeywords
  | .enumeration _ items rest => (∀ item ∈ items, ¬item.Bare) ∧ rest.AvoidsKeywords
  | .option _ rest | .reserved _ rest => rest.AvoidsKeywords
  | .message _ body rest => body.AvoidsKeywords ∧ rest.AvoidsKeywords

/--
Declarations without bare keywords are read back exactly if every one of them is kept.
-/
theorem readsAsPrinted_iff (style : MapStyle) (decls : List FileDecl)
    : ((ofFile decls).AvoidsKeywords → ReadsAsPrinted style decls)
        ↔ ((ofFile decls).AvoidsKeywords → ∀ decl ∈ decls, decl.Kept style) :=
  imp_congr_right fun _ => ⟨ReadsAsPrinted.kept, readsAsPrinted_of_kept⟩

end Declarations

def nameOf (name : String) (hstart : name.toList.head?.any isIdentifierStart = true)
    (hchars : name.toList.all isIdentifierChar = true) : Name :=
  ⟨name.toList, isIdentifier_of_all hstart hchars⟩

def pathOf (name : String) (hstart : name.toList.head?.any isIdentifierStart = true)
    (hchars : name.toList.all isIdentifierChar = true) : Path :=
  ⟨name.toList, (isIdentifier_of_all hstart hchars).isFullIdentifier⟩

section Samples

variable [Libc]

/--
A message with a field whose type begins like a label.
-/
def labelledType : List FileDecl :=
  [.message (nameOf "M" (by decide) (by decide)) <|
    .field ⟨.none, .named (pathOf "optionalFoo" (by decide) (by decide)), nameOf "x" (by decide) (by decide),
      ⟨1, by decide⟩⟩ .nil]

/--
Names that begin like keywords, or are keywords behind other words.
-/
def wordyNames : List FileDecl :=
  [.message (nameOf "messages" (by decide) (by decide)) <|
    .field ⟨.none, .named (pathOf "mapping" (by decide) (by decide)), nameOf "map" (by decide) (by decide),
      ⟨1, by decide⟩⟩ <|
    .field ⟨.repeated, .named (pathOf "repeated_word" (by decide) (by decide)),
      nameOf "option" (by decide) (by decide), ⟨2, by decide⟩⟩ <|
    .field ⟨.none, .map (pathOf "string" (by decide) (by decide)) (pathOf "groups" (by decide) (by decide)),
      nameOf "m" (by decide) (by decide), ⟨3, by decide⟩⟩ <|
    .oneof (nameOf "oneof" (by decide) (by decide))
      [.field (pathOf "extended" (by decide) (by decide)) (nameOf "enum" (by decide) (by decide)) ⟨4, by decide⟩] <|
    .message (nameOf "enumerated" (by decide) (by decide)) .nil .nil,
    .enumeration (nameOf "option" (by decide) (by decide))
      [.value (nameOf "reserved_0" (by decide) (by decide)) ⟨0, by decide⟩]]

end Samples

example : (@buildFile Pool.constLibc (@print Pool.constLibc .tight (@wordyNames Pool.constLibc)) 0).toOption.map
    fileContents = some (@contents Pool.constLibc (@wordyNames Pool.constLibc)) := by
  decide +kernel

/--
The field is read as an optional one of the type that is left of the name.
-/
theorem labelledType_not_readsAsPrinted
    : @Decls.AvoidsKeywords Pool.constLibc (@ofFile Pool.constLibc (@labelledType Pool.constLibc))
        ∧ @print Pool.constLibc .tight (@labelledType Pool.constLibc)
          = "message M \x7b optionalFoo x = 1 ; \x7d".toList
        ∧ (@buildFile Pool.constLibc "message M \x7b optionalFoo x = 1 ; \x7d".toList 0).toOption.map fileContents
          = some ⟨[⟨"M".toList, none, [⟨.optional, .named "Foo".toList, "x".toList, 1⟩]⟩], []⟩
        ∧ ¬@ReadsAsPrinted Pool.constLibc .tight (@labelledType Pool.constLibc) := by
  have hprint : @print Pool.constLibc .tight (@labelledType Pool.constLibc)
      = "message M \x7b optionalFoo x = 1 ; \x7d".toList := by
    decide +kernel
  have hbuilt : (@buildFile Pool.constLibc "message M \x7b optionalFoo x = 1 ; \x7d".toList 0).toOption.map
      fileContents = some ⟨[⟨"M".toList, none, [⟨.optional, .named "Foo".toList, "x".toList, 1⟩]⟩], []⟩ := by
    decide +kernel
  refine ⟨⟨⟨?_, trivial⟩, trivial⟩, hprint, hbuilt, ?_⟩
  . rintro ⟨-, name, hname, hkeyword⟩
    cases hname
    exact absurd hkeyword (by decide +kernel)
  . rintro ⟨file, hok, hcontents⟩
    rw [hprint] at hok
    rw [hok, Except.toOption, Option.map_some, hcontents] at hbuilt
    exact absurd hbuilt (by decide +kernel)

end Gremlin.Printer
