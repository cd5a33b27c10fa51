import Gremlin.Descriptors.Build

/-!
This module contains outlines: the entries of a file as a tree, and the descriptors that the tree
stands for.
-/

namespace Gremlin

open Text Parser Memory

/--
The entries of a file or of a body in the order of the source, with those of the messages in it.
-/
inductive Outline where
  | nil
  | entry (e : FileEntry ⊕ MessageEntry) (rest : Outline)
  | message (parsed : BodyParseResult) (body rest : Outline)

def enumValue : EnumEntry → Option EnumFieldParseResult
  | .field value => some value
  | _ => none

def oneofMember : OneofEntry → Option FieldParseResult
  | .field fld => some (oneofField fld)
  | _ => none

section Source

variable [Libc] (text : Span)

def bodyEntries (parsed : BodyParseResult) : List MessageEntry × Option ParsingError :=
  entries messageNextEntry (bodyOf text parsed)

def fileEntries (offset : Nat) : List FileEntry × Option ParsingError :=
  entries fileNextEntry (Buffer.between text offset text.length)

inductive Outline.OfBody : List MessageEntry → Outline → Prop where
  | nil : OfBody [] .nil
  | entry {e : MessageEntry} {es : List MessageEntry} {rest : Outline}
      (he : ∀ parsed, e ≠ .message parsed) (hrest : OfBody es rest)
      : OfBody (e :: es) (.entry (.inr e) rest)
  | message {parsed : BodyParseResult} {inner es : List MessageEntry} {body rest : Outline}
      (hinner : bodyEntries text parsed = (inner, none)) (hbody : OfBody inner body)
      (hrest : OfBody es rest) : OfBody (.message parsed :: es) (.message parsed body rest)

inductive Outline.OfFile : List FileEntry → Outline → Prop where
  | nil : OfFile [] .nil
  | entry {e : FileEntry} {es : List FileEntry} {rest : Outline}
      (he : ∀ parsed, e ≠ .message parsed) (hrest : OfFile es rest)
      : OfFile (e :: es) (.entry (.inl e) rest)
  | message {parsed : BodyParseResult} {inner : List MessageEntry} {es : List FileEntry}
      {body rest : Outline} (hinner : bodyEntries text parsed = (inner, none))
      (hbody : OfBody text inner body) (hrest : OfFile es rest)
      : OfFile (.message parsed :: es) (.message parsed body rest)

def Outline.Of (offset : Nat) (o : Outline) : Prop :=
  ∃ es, fileEntries text offset = (es, none) ∧ o.OfFile text es

def valuesOf (parsed : BodyParseResult) : List EnumFieldParseResult :=
  (entries enumNextEntry (bodyOf text parsed)).1.filterMap enumValue

def membersOf (parsed : BodyParseResult) : List FieldParseResult :=
  (entries oneofNextEntry (bodyOf text parsed)).1.filterMap oneofMember

/--
The fields of an entry of a message whose body ends at `stop`.
-/
def entryFields (stop : Nat) : FileEntry ⊕ MessageEntry → List FieldNode
  | .inr (.field fld) => [fieldNode text stop fld]
  | .inr (.oneof parsed) => (membersOf text parsed).map (fieldNode text parsed.bodyEnd)
  | _ => []

def enumOf : FileEntry ⊕ MessageEntry → Option BodyParseResult
  | .inl (.enumeration parsed) => some parsed
  | .inr (.enumeration parsed) => some parsed
  | _ => none

def importOf : FileEntry ⊕ MessageEntry → Option ImportParseResult
  | .inl (.importDef parsed) => some parsed
  | _ => none

def EntryComplete (e : FileEntry ⊕ MessageEntry) : Prop :=
  (∀ parsed, enumOf e = some parsed → (entries enumNextEntry (bodyOf text parsed)).2 = none)
    ∧ ∀ parsed, e = .inr (.oneof parsed)
      → (entries oneofNextEntry (bodyOf text parsed)).2 = none

namespace Outline

def size : Outline → Nat
  | .nil => 0
  | .entry _ rest => rest.size
  | .message _ body rest => body.size + rest.size + 1

def enumSize : Outline → Nat
  | .nil => 0
  | .entry e rest => (enumOf e).toList.length + rest.enumSize
  | .message _ body rest => body.enumSize + rest.enumSize

/--
The bodies of all enums and oneofs are entries to their end.
-/
def Complete : Outline → Prop
  | .nil => True
  | .entry e rest => EntryComplete text e ∧ rest.Complete
  | .message _ body rest => body.Complete ∧ rest.Complete

/--
The fields that a message with this body has itself.
-/
def fields (stop : Nat) : Outline → List FieldNode
  | .nil => []
  | .entry e rest => entryFields text stop e ++ rest.fields stop
  | .message _ _ rest => rest.fields stop

/--
The messages in pre-order, where the first one gets the slot `next`.
-/
def messages (parent : Option Nat) (next : Nat) : Outline → List MessageNode
  | .nil => []
  | .entry _ rest => rest.messages parent next
  | .message parsed body rest =>
    ⟨parsed, body.fields text parsed.bodyEnd, parent, .unset⟩
      :: (body.messages (some next) (next + 1) ++ rest.messages parent (next + 1 + body.size))

def enums (parent : Option Nat) (next : Nat) : Outline → List EnumNode
  | .nil => []
  | .entry e rest =>
    ((enumOf e).map fun parsed => ⟨parsed, valuesOf text parsed, parent, .unset⟩).toList
      ++ rest.enums parent next
  | .message _ body rest =>
    body.enums (some next) (next + 1) ++ rest.enums parent (next + 1 + body.size)

def imports : Outline → List ImportNode
  | .nil => []
  | .entry e rest => ((importOf e).map fun parsed => ⟨parsed, none⟩).toList ++ rest.imports
  | .message _ _ rest => rest.imports

def counts (o : Outline) : Counts :=
  ⟨o.imports.length, o.enumSize, o.size⟩

/--
What an entry says about the file, and the hints of the fields in it.
-/
def head (stop : Nat) (file : FileNode) : Outline → FileNode
  | .nil => file
  | .entry e rest =>
    let file := match e with
      | .inl (.syntaxDef parsed) => { file with syntaxDef := some parsed }
      | .inl (.edition parsed) => { file with edition := some parsed }
      | .inl (.package parsed) => { file with package := some parsed }
      | _ => file
    rest.head stop ((entryFields text stop e).foldl hoistCodegenHints file)
  | .message parsed body rest => rest.head stop (body.head parsed.bodyEnd file)

/--
The file that the builder makes of a text with this outline.
-/
def file (o : Outline) : FileNode :=
  resolvePacking text {
    o.head text text.length .empty with
    imports := o.imports
    enums := o.enums text none 0
    messages := o.messages text none 0
  }

theorem length_messages (o : Outline) (parent : Option Nat) (next : Nat)
    : (o.messages text parent next).length = o.size := by
  induction o generalizing parent next with
  | nil => rfl
  | entry _ _ ih => exact ih parent next
  | message _ _ _ ihbody ihrest =>
    rw [messages, size, List.length_cons, List.length_append, ihbody, ihrest]

theorem length_enums (o : Outline) (parent : Option Nat) (next : Nat)
    : (o.enums text parent next).length = o.enumSize := by
  induction o generalizing parent next with
  | nil => rfl
  | entry e _ ih =>
    rw [enums, enumSize, List.length_append, ih, Option.length_toList, Option.length_toList,
      Option.isSome_map]
  | message _ _ _ ihbody ihrest => rw [enums, enumSize, List.length_append, ihbody, ihrest]

end Outline

end Source

end Gremlin
