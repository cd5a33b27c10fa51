import Gremlin.Parser.Errors

/-!
This module contains what the parser returns for the entries of a file. A span is the list of its
characters; the start and the end of an entry are left out, those of a body are kept.
-/

namespace Gremlin

abbrev Span := List Char

/--
The bits of a `double`.
-/
abbrev Double := BitVec 64

inductive Const where
  | int (value : Int)
  | uint (value : Nat)
  | float (value : Double)
  | identifier (span : Span)
  | string (span : Span)
  deriving DecidableEq, Repr

structure SyntaxParseResult where
  version : Span
  deriving DecidableEq, Repr

structure EditionParseResult where
  edition : Span
  deriving DecidableEq, Repr

structure PackageParseResult where
  name : Span
  deriving DecidableEq, Repr

inductive ImportType where
  | typeRegular
  | typeWeak
  | typePublic
  deriving DecidableEq, Repr

structure ImportParseResult where
  path : Span
  type : ImportType
  deriving DecidableEq, Repr

structure OptionParseResult where
  name : Span
  value : Const
  deriving DecidableEq, Repr

/--
Where a list of options starts and ends, and how many there are. All are zero without a list.
-/
structure OptionListResult where
  start : Nat
  stop : Nat
  count : Nat
  deriving DecidableEq, Repr

def OptionListResult.empty : OptionListResult :=
  ⟨0, 0, 0⟩

inductive FieldType where
  | named (name : Span)
  | map (key value : Span)
  deriving DecidableEq, Repr

inductive FieldLabel where
  | none
  | optional
  | required
  | repeated
  deriving DecidableEq, Repr

structure FieldParseResult where
  label : FieldLabel
  type : FieldType
  name : Span
  index : Int
  options : OptionListResult
  deriving DecidableEq, Repr

structure OneofFieldParseResult where
  type : Span
  name : Span
  index : Int
  options : OptionListResult
  deriving DecidableEq, Repr

structure EnumFieldParseResult where
  name : Span
  index : Int
  options : OptionListResult
  deriving DecidableEq, Repr

/--
A message, an enum or a oneof, whose body is re-read between two offsets.
-/
structure BodyParseResult where
  name : Span
  bodyStart : Nat
  bodyEnd : Nat
  deriving DecidableEq, Repr

structure ExtendParseResult where
  baseType : Span
  bodyStart : Nat
  bodyEnd : Nat
  deriving DecidableEq, Repr

inductive ReservedKind where
  | ranges
  | names
  deriving DecidableEq, Repr

structure ReservedParseResult where
  kind : ReservedKind
  count : Nat
  deriving DecidableEq, Repr

structure ExtensionsParseResult where
  count : Nat
  deriving DecidableEq, Repr

end Gremlin
