import Gremlin.Descriptors.Nodes
import Gremlin.Printer.Tokens

/-!
This module contains the abstract declarations of a file and how they are printed, with one space between
the tokens, and what their descriptors have to say.
-/

namespace Gremlin.Printer

open Text

/-! The declarations. -/

abbrev Name : Type :=
  {span : Span // IsIdentifier span}

/--
A name that may have dots in it and one before it.
-/
abbrev Path : Type :=
  {span : Span // IsFullIdentifier span}

abbrev StringToken : Type :=
  {literal : Span // ∃ span close items, IsStringLiteral literal span close items}

abbrev FieldNumber : Type :=
  {n : Nat // 1 ≤ n ∧ n < 2 ^ 31}

abbrev Int32 : Type :=
  {n : Int // -(2 ^ 31) ≤ n ∧ n < 2 ^ 31}

inductive TypeDecl where
  | named (name : Path)
  | map (key value : Path)

structure FieldDecl where
  label : FieldLabel
  type : TypeDecl
  name : Name
  number : FieldNumber

/--
A constant: a number that is in range where it stands, a dotted name or a string.
-/
inductive Constant [Libc] where
  | number (token : Span) (kind : ConstKind) (hkind : kind = .integer ∨ kind = .float)
    (h : ∀ rest, BeforeSpace rest → IsConstToken token rest kind)
  | word (name : Path) (h : name.val.head? ≠ some '.')
  | string (literal : StringToken)

inductive NamePart where
  | simple (name : Name)
  | extension (name : Path)

structure OptionDecl [Libc] where
  first : NamePart
  more : List NamePart
  value : Constant

/--
How far a range goes: it is a single number, or it goes up to another one or up to the highest.
-/
inductive RangeEnd where
  | single
  | upTo (stop : Int32)
  | max

structure RangeDecl where
  start : Int32
  stop : RangeEnd
  ordered : ∀ n, stop = .upTo n → start.val ≤ n.val

inductive ReservedDecl where
  | names (first : StringToken) (more : List StringToken)
  | ranges (first : RangeDecl) (more : List RangeDecl)

inductive OneofItem [Libc] where
  | field (type : Path) (name : Name) (number : FieldNumber)
  | option (opt : OptionDecl)

inductive EnumItem [Libc] where
  | value (name : Name) (number : Int32)
  | option (opt : OptionDecl)
  | reserved (res : ReservedDecl)

/--
The body of a message.
-/
inductive Decls [Libc] where
  | nil
  | field (fld : FieldDecl) (rest : Decls)
  | oneof (name : Name) (items : List OneofItem) (rest : Decls)
  | enumeration (name : Name) (items : List EnumItem) (rest : Decls)
  | option (opt : OptionDecl) (rest : Decls)
  | reserved (res : ReservedDecl) (rest : Decls)
  | message (name : Name) (body rest : Decls)

inductive FileDecl [Libc] where
  | enumeration (name : Name) (items : List EnumItem)
  | message (name : Name) (body : Decls)

/-! Their tokens. -/

/--
Whether there is a space between `map` and the bracket behind it, or the two are one token.
-/
inductive MapStyle where
  | spaced
  | tight
  deriving DecidableEq, Repr

def labelTokens : FieldLabel → List Span
  | .none => []
  | .optional => ["optional".toList]
  | .required => ["required".toList]
  | .repeated => ["repeated".toList]

def MapStyle.tokens : MapStyle → List Span
  | .spaced => ["map".toList, ['<']]
  | .tight => ["map<".toList]

def TypeDecl.tokens (style : MapStyle) : TypeDecl → List Span
  | .named name => [name.val]
  | .map key value => style.tokens ++ [key.val, [','], value.val, ['>']]

def FieldDecl.tokens (style : MapStyle) (fld : FieldDecl) : List Span :=
  labelTokens fld.label ++ fld.type.tokens style
    ++ [fld.name.val, ['='], Printf.unsigned fld.number.val, [';']]

def NamePart.text : NamePart → Span
  | .simple name => name.val
  | .extension name => '(' :: (name.val ++ [')'])

def RangeDecl.tokens (range : RangeDecl) : List Span :=
  Printf.signed range.start.val :: match range.stop with
    | .single => []
    | .upTo n => ["to".toList, Printf.signed n.val]
    | .max => ["to".toList, "max".toList]

/--
Items with commas between them.
-/
def commaTokens {α : Type} (tokens : α → List Span) (first : α) (more : List α) : List Span :=
  tokens first ++ more.flatMap fun item => [','] :: tokens item

def ReservedDecl.tokens : ReservedDecl → List Span
  | .names first more => "reserved".toList :: commaTokens (fun literal => [literal.val]) first more ++ [[';']]
  | .ranges first more => "reserved".toList :: commaTokens RangeDecl.tokens first more ++ [[';']]

def blockTokens (word : String) (name : Name) (body : List Span) : List Span :=
  [word.toList, name.val, ['\x7b']] ++ body ++ [['\x7d']]

section Tokens

variable [Libc]

def Constant.token : Constant → Span
  | .number token _ _ _ => token
  | .word name _ => name.val
  | .string literal => literal.val

def OptionDecl.name (opt : OptionDecl) : Span :=
  opt.first.text ++ opt.more.flatMap fun part => '.' :: part.text

def OptionDecl.tokens (opt : OptionDecl) : List Span :=
  ["option".toList, opt.name, ['='], opt.value.token, [';']]

def OneofItem.tokens : OneofItem → List Span
  | .field type name number => [type.val, name.val, ['='], Printf.unsigned number.val, [';']]
  | .option opt => opt.tokens

def EnumItem.tokens : EnumItem → List Span
  | .value name number => [name.val, ['='], Printf.signed number.val, [';']]
  | .option opt => opt.tokens
  | .reserved res => res.tokens

def enumTokens (name : Name) (items : List EnumItem) : List Span :=
  blockTokens "enum" name (items.flatMap EnumItem.tokens)

def oneofTokens (name : Name) (items : List OneofItem) : List Span :=
  blockTokens "oneof" name (items.flatMap OneofItem.tokens)

def Decls.tokens (style : MapStyle) : Decls → List Span
  | .nil => []
  | .field fld rest => fld.tokens style ++ rest.tokens style
  | .oneof name items rest => oneofTokens name items ++ rest.tokens style
  | .enumeration name items rest => enumTokens name items ++ rest.tokens style
  | .option opt rest => opt.tokens ++ rest.tokens style
  | .reserved res rest => res.tokens ++ rest.tokens style
  | .message name body rest => blockTokens "message" name (body.tokens style) ++ rest.tokens style

def FileDecl.tokens (style : MapStyle) : FileDecl → List Span
  | .enumeration name items => enumTokens name items
  | .message name body => blockTokens "message" name (body.tokens style)

def print (style : MapStyle) (decls : List FileDecl) : Span :=
  spaced (decls.flatMap (FileDecl.tokens style))

end Tokens

/-! What their descriptors have to say. -/

structure FieldContents where
  label : FieldLabel
  type : FieldType
  name : Span
  number : Int
  deriving DecidableEq, Repr

structure EnumContents where
  name : Span
  parent : Option Nat
  values : List (Span × Int)
  deriving DecidableEq, Repr

structure MessageContents where
  name : Span
  parent : Option Nat
  fields : List FieldContents
  deriving DecidableEq, Repr

/--
The messages and the enums of a file, each in the order of the source.
-/
structure Contents where
  messages : List MessageContents
  enums : List EnumContents
  deriving DecidableEq, Repr

def TypeDecl.contents : TypeDecl → FieldType
  | .named name => .named name.val
  | .map key value => .map key.val value.val

def FieldDecl.contents (fld : FieldDecl) : FieldContents :=
  ⟨fld.label, fld.type.contents, fld.name.val, fld.number.val⟩

section Contents

variable [Libc]

/--
The field of a oneof is an optional one.
-/
def OneofItem.contents : OneofItem → Option FieldContents
  | .field type name number => some ⟨.optional, .named type.val, name.val, number.val⟩
  | .option _ => none

def EnumItem.contents : EnumItem → Option (Span × Int)
  | .value name number => some (name.val, number.val)
  | .option _ | .reserved _ => none

namespace Decls

def size : Decls → Nat
  | .nil => 0
  | .field _ rest | .oneof _ _ rest | .enumeration _ _ rest | .option _ rest | .reserved _ rest => rest.size
  | .message _ body rest => body.size + rest.size + 1

def fields : Decls → List FieldContents
  | .nil => []
  | .field fld rest => fld.contents :: rest.fields
  | .oneof _ items rest => items.filterMap OneofItem.contents ++ rest.fields
  | .enumeration _ _ rest | .option _ rest | .reserved _ rest | .message _ _ rest => rest.fields

/--
The messages in pre-order, where the first one gets the index `next`.
-/
def messages (parent : Option Nat) (next : Nat) : Decls → List MessageContents
  | .nil => []
  | .field _ rest | .oneof _ _ rest | .enumeration _ _ rest | .option _ rest | .reserved _ rest =>
    rest.messages parent next
  | .message name body rest =>
    ⟨name.val, parent, body.fields⟩
      :: (body.messages (some next) (next + 1) ++ rest.messages parent (next + 1 + body.size))

def enums (parent : Option Nat) (next : Nat) : Decls → List EnumContents
  | .nil => []
  | .field _ rest | .oneof _ _ rest | .option _ rest | .reserved _ rest => rest.enums parent next
  | .enumeration name items rest =>
    ⟨name.val, parent, items.filterMap EnumItem.contents⟩ :: rest.enums parent next
  | .message _ body rest =>
    body.enums (some next) (next + 1) ++ rest.enums parent (next + 1 + body.size)

end Decls

/--
The declarations of a file as those of a body.
-/
def ofFile : List FileDecl → Decls
  | [] => .nil
  | .enumeration name items :: rest => .enumeration name items (ofFile rest)
  | .message name body :: rest => .message name body (ofFile rest)

def contents (decls : List FileDecl) : Contents :=
  ⟨(ofFile decls).messages none 0, (ofFile decls).enums none 0⟩

end Contents

/-! What the descriptors say. -/

def fieldContents (fld : FieldNode) : FieldContents :=
  ⟨fld.parsed.label, fld.parsed.type, fld.parsed.name, fld.parsed.index⟩

def messageContents (m : MessageNode) : MessageContents :=
  ⟨m.parsed.name, m.parent, m.fields.map fieldContents⟩

def enumContents (en : EnumNode) : EnumContents :=
  ⟨en.parsed.name, en.parent, en.values.map fun value => (value.name, value.index)⟩

def fileContents (file : FileNode) : Contents :=
  ⟨file.messages.map messageContents, file.enums.map enumContents⟩

end Gremlin.Printer
