import Gremlin.Codegen.Claims

/-!
This module contains the headers that the emitter writes: what each of them defines, and the
identifiers of messages and enums that it names there.
-/

namespace Gremlin

open Naming

/--
A place that names an identifier, as it is spelled there.
-/
structure Use where
  ident : Ident
  spelling : Spelling
  deriving DecidableEq, Repr

/--
A definition at file scope, with what it names.
-/
structure Decl where
  ident : Ident
  spelling : Spelling
  uses : List Use
  deriving DecidableEq, Repr

structure Header where
  guard : Spelling
  includes : List Span
  forwards : List Use
  decls : List Decl
  deriving DecidableEq, Repr

namespace Header

def uses (h : Header) : List Use :=
  h.forwards ++ h.decls.flatMap Decl.uses

end Header

section Message

variable (l : Ledger Ident)

/--
An identifier under the name that was claimed for it.
-/
def claimedUse (ident : Ident) : Use :=
  ⟨ident, l.nameOf ident⟩

def typeUse (owner : Entity) : Use :=
  claimedUse l ⟨owner, .type⟩

/--
An identifier of a message that is spelled by the name of the message and a suffix.
-/
def joinedUse (owner : Entity) (role : Role) (suffix : String) : Use :=
  ⟨⟨owner, role⟩, l.raw (typeStem owner suffix)⟩

def sizeUse (owner : Entity) : Use :=
  joinedUse l owner .size "_size"

def cachedSizeUse (owner : Entity) : Use :=
  joinedUse l owner .cachedSize "_cached_size"

def encodeUse (owner : Entity) : Use :=
  joinedUse l owner .encode "_encode"

def encodeAtUse (owner : Entity) : Use :=
  joinedUse l owner .encodeAt "_encode_at"

def readerUse (owner : Entity) : Use :=
  joinedUse l owner .reader "_reader"

def readerInitUse (owner : Entity) : Use :=
  joinedUse l owner .readerInit "_reader_init"

/--
`gremlinc_emit_message_forward`.
-/
def forwardUses (owner : Entity) : List Use :=
  [typeUse l owner, readerUse l owner, sizeUse l owner, cachedSizeUse l owner, encodeAtUse l owner,
    encodeUse l owner, readerInitUse l owner]

def typeUses (type : TypeRef) : List Use :=
  type.named.map (typeUse l)

/-! The keys and the values of maps. -/

def slotSizeUses : TypeRef → List Use
  | .message target => [sizeUse l (.message target)]
  | _ => []

def slotEncodeUses : TypeRef → List Use
  | .message target => [cachedSizeUse l (.message target), encodeAtUse l (.message target)]
  | _ => []

def slotOutUses : TypeRef → List Use
  | .message target => [readerUse l (.message target), readerInitUse l (.message target)]
  | .enumeration target => [typeUse l (.enumeration target)]
  | _ => []

variable (owner : Entity)

def writerUses (mem : Member) : List Use :=
  match mem.shape with
  | .map .. => [claimedUse l ⟨owner, .entry mem.index⟩]
  | .repeatedMsg target => [typeUse l (.message target)]
  | .repeatedScalar element => typeUses l element
  | .msgRef target => [typeUse l (.message target)]
  | .enumRef target => [typeUse l (.enumeration target)]
  | _ => []

/--
`dispatch_size_field`.
-/
def sizeFieldUses (mem : Member) : List Use :=
  match mem.shape with
  | .map key value => slotSizeUses l key ++ slotSizeUses l value
  | .repeatedMsg target => [typeUse l (.message target), sizeUse l (.message target)]
  | .msgRef target => [sizeUse l (.message target)]
  | _ => []

/--
`dispatch_encode_field`, whether or not the field has a function of its own.
-/
def encodeFieldUses (mem : Member) : List Use :=
  match mem.shape with
  | .map key value => slotEncodeUses l key ++ slotEncodeUses l value
  | .repeatedMsg target =>
    [typeUse l (.message target), cachedSizeUse l (.message target), encodeAtUse l (.message target)]
  | .msgRef target => [cachedSizeUse l (.message target), encodeAtUse l (.message target)]
  | _ => []

/--
A member of the reader, and `dispatch_reader_arm`, which casts to its type.
-/
def readerFieldUses (mem : Member) : List Use :=
  match mem.shape with
  | .enumRef target => [typeUse l (.enumeration target)]
  | _ => []

def getterUses (mem : Member) : List Use :=
  claimedUse l ⟨owner, .reader⟩ :: match mem.shape with
    | .msgRef target => [readerUse l (.message target), readerInitUse l (.message target)]
    | .enumRef target => [typeUse l (.enumeration target)]
    | _ => []

def nextUses (mem : Member) : List Use :=
  match mem.shape with
  | .map key value => slotOutUses l key ++ slotOutUses l value
  | .repeatedMsg target => [readerUse l (.message target), readerInitUse l (.message target)]
  | .repeatedScalar element => typeUses l element
  | _ => []

/--
`gremlinc_map_emit_entry_typedef`.
-/
def entryDecls (mem : Member) : List Decl :=
  match mem.shape with
  | .map key value =>
    [⟨⟨owner, .entry mem.index⟩, l.nameOf ⟨owner, .entry mem.index⟩, typeUses l key ++ typeUses l value⟩]
  | _ => []

/--
The getter of a field, or its iterator with what counts, begins and advances it.
-/
def accessorDecls (mem : Member) : List Decl :=
  if mem.shape.hasCount then
    let iter : Use := ⟨⟨owner, .iter mem.index⟩, l.raw (iterStem owner mem.fname "_iter")⟩
    let reader := claimedUse l ⟨owner, .reader⟩
    [⟨iter.ident, iter.spelling, []⟩,
      ⟨⟨owner, .count mem.index⟩, l.raw (iterStem owner mem.fname "_count"), [reader]⟩,
      ⟨⟨owner, .begin mem.index⟩, l.raw (iterStem owner mem.fname "_begin"), [iter, reader]⟩,
      ⟨⟨owner, .next mem.index⟩, l.raw (iterStem owner mem.fname "_next"), iter :: nextUses l mem⟩]
  else
    [⟨⟨owner, .getter mem.index⟩, l.nameOf ⟨owner, .getter mem.index⟩, getterUses l owner mem⟩]

/--
What `gremlinc_emit_message_marked` defines.
-/
def messageDecls (members : List Member) : List Decl :=
  members.flatMap (entryDecls l owner)
    ++ [⟨⟨owner, .type⟩, l.nameOf ⟨owner, .type⟩, members.flatMap (writerUses l owner)⟩,
        ⟨⟨owner, .cachedSize⟩, l.raw (typeStem owner "_cached_size"), [typeUse l owner]⟩,
        ⟨⟨owner, .size⟩, l.nameOf ⟨owner, .size⟩, typeUse l owner :: members.flatMap (sizeFieldUses l)⟩,
        ⟨⟨owner, .encodeAt⟩, l.raw (typeStem owner "_encode_at"),
          typeUse l owner :: members.flatMap (encodeFieldUses l)⟩,
        ⟨⟨owner, .encode⟩, l.nameOf ⟨owner, .encode⟩, [typeUse l owner, encodeAtUse l owner]⟩,
        ⟨⟨owner, .reader⟩, l.nameOf ⟨owner, .reader⟩, members.flatMap (readerFieldUses l)⟩,
        ⟨⟨owner, .readerInit⟩, l.nameOf ⟨owner, .readerInit⟩,
          claimedUse l ⟨owner, .reader⟩ :: members.flatMap (readerFieldUses l)⟩]
    ++ members.flatMap (accessorDecls l owner)

/--
What `gremlinc_emit_enum` defines.
-/
def enumDecls (en : EnumNode) : List Decl :=
  ⟨⟨owner, .type⟩, l.nameOf ⟨owner, .type⟩, []⟩
    :: en.values.mapIdx fun j _ => ⟨⟨owner, .constant j⟩, l.nameOf ⟨owner, .constant j⟩, []⟩

end Message

def deriveGuard (path : Span) : Spelling :=
  '_' :: path.map (fun c => if c.isUpper || c.isDigit then c else if c.isLower then c.toUpper else '_')
    ++ "_PB_H_".toList

/--
A path without the suffix of its sources. A path that is nothing else keeps it.
-/
def stripProto (path : Span) : Span :=
  if path.length > 6 && ".proto".toList.isSuffixOf path then path.take (path.length - 6) else path

def includeName (path : Span) : Span :=
  stripProto path ++ ".pb.h".toList

/--
`derive_output_path`, below the directory of the output.
-/
def outputName (path : Span) : Span :=
  stripProto path ++ ".pb.h".toList

namespace Pool

variable (p : Pool) (path : FileId → Span)

def fileDecls (l : Ledger Ident) (f : FileId) : Option (List Decl) := do
  let messages ← p.orderedMessages f
  let blocks ← messages.mapM fun (i, m) =>
    (members m.fields).map (messageDecls l (.message ⟨f, i⟩))
  some (((p.heap f).enums.mapIdx fun i en => enumDecls l (.enumeration ⟨f, i⟩) en).flatten
    ++ blocks.flatten)

def fileForwards (l : Ledger Ident) (f : FileId) : Option (List Use) :=
  (topoSortMessages f (p.heap f).messages).map fun order =>
    order.predeclare.flatMap fun i : Fin _ => forwardUses l (.message ⟨f, i.val⟩)

/--
`emit_file`. The readers that are written ahead of their messages stay where they are here.
-/
def emitFile (l : Ledger Ident) (f : FileId) : Option Header := do
  let forwards ← p.fileForwards l f
  let decls ← p.fileDecls l f
  some {
    guard := deriveGuard (path f)
    includes := (p.heap f).imports.map fun imp => includeName imp.parsed.path
    forwards
    decls
  }

/--
The headers of all files, in the order in which they are written.
-/
def emitFiles (plan : Plan) : Option (List Header) := do
  let agenda ← p.agenda plan
  let l ← agenda.run
  p.files.mapM (p.emitFile path l)

end Pool

end Gremlin
