import Gremlin.Parser.Results
import Gremlin.Schema
import Mathlib.Logic.Function.Basic

/-!
This module contains the descriptors: what the builder makes of a file and what the passes over a
set of files add to it.
-/

namespace Gremlin

/--
A dotted name. A reference with a leading dot is absolute, and so is the name of a descriptor.
-/
structure ScopedName where
  segments : List Span
  absolute : Bool
  deriving DecidableEq, Repr

abbrev FileId := Nat

/--
The address of a message or of an enum: a slot of an array of a file.
-/
structure NodeId where
  file : FileId
  index : Nat
  deriving DecidableEq, Repr

inductive TypeRef where
  | unresolved
  | builtin (name : Span)
  | message (target : NodeId)
  | enumeration (target : NodeId)
  | map (key value : TypeRef)
  deriving DecidableEq, Repr

structure FieldNode where
  parsed : FieldParseResult
  type : TypeRef
  default : Option Const
  packing : Packing
  originFile : Option FileId
  originScope : Option ScopedName
  deriving DecidableEq, Repr

structure MessageNode where
  parsed : BodyParseResult
  fields : List FieldNode
  parent : Option Nat
  scopedName : ScopedName
  deriving DecidableEq, Repr

structure EnumNode where
  parsed : BodyParseResult
  values : List EnumFieldParseResult
  parent : Option Nat
  scopedName : ScopedName
  deriving DecidableEq, Repr

structure ImportNode where
  parsed : ImportParseResult
  resolved : Option FileId
  deriving DecidableEq, Repr

structure FileNode where
  syntaxDef : Option SyntaxParseResult
  edition : Option EditionParseResult
  package : Option PackageParseResult
  imports : List ImportNode
  enums : List EnumNode
  messages : List MessageNode
  visible : List FileId
  needsMathH : Bool
  needsStringH : Bool
  deriving DecidableEq, Repr

def FileNode.empty : FileNode where
  syntaxDef := none
  edition := none
  package := none
  imports := []
  enums := []
  messages := []
  visible := []
  needsMathH := false
  needsStringH := false

/--
The files of a resolve context. The builder allocates a file for each source, so that no two are at
one address.
-/
@[ext]
structure Pool where
  files : List FileId
  nodup : files.Nodup
  heap : FileId → FileNode

theorem nodup_single : [(0 : FileId)].Nodup := by
  decide

theorem nodup_pair : [(0 : FileId), 1].Nodup := by
  decide

def Pool.update (p : Pool) (f : FileId) (g : FileNode → FileNode) : Pool :=
  { p with heap := Function.update p.heap f (g (p.heap f)) }

@[simp]
theorem Pool.update_files (p : Pool) (f : FileId) (g : FileNode → FileNode)
    : (p.update f g).files = p.files :=
  rfl

@[simp]
theorem Pool.update_heap_self (p : Pool) (f : FileId) (g : FileNode → FileNode)
    : (p.update f g).heap f = g (p.heap f) :=
  Function.update_self ..

theorem Pool.update_heap_of_ne {p : Pool} {f f' : FileId} {g : FileNode → FileNode} (h : f' ≠ f)
    : (p.update f g).heap f' = p.heap f' :=
  Function.update_of_ne h ..

/--
The error state of a resolve context.
-/
structure Failure where
  error : ParsingError
  failedSourceIdx : Nat
  deriving DecidableEq, Repr

end Gremlin
