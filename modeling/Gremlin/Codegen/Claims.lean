import Gremlin.Codegen.Scope
import Gremlin.Descriptors.Described

/-!
This module contains the names that the emitter claims and those that it writes, in the order in
which it goes through the files.
-/

namespace Gremlin

open Naming

/--
What an identifier at file scope is of its message or enum. Fields and values are numbered.
-/
inductive Role where
  | type
  | size
  | cachedSize
  | encode
  | encodeAt
  | reader
  | readerInit
  | getter (field : Nat)
  | entry (field : Nat)
  | iter (field : Nat)
  | count (field : Nat)
  | begin (field : Nat)
  | next (field : Nat)
  | constant (value : Nat)
  deriving DecidableEq, Repr

structure Ident where
  owner : Entity
  role : Role
  deriving DecidableEq, Repr

inductive Shape where
  | map (key value : TypeRef)
  | repeatedBytes
  | repeatedMsg (target : NodeId)
  | repeatedScalar (element : TypeRef)
  | msgRef (target : NodeId)
  | enumRef (target : NodeId)
  | bytes
  | scalar
  deriving DecidableEq, Repr

def builtinIsBytes (name : Span) : Bool :=
  name = "string".toList || name = "bytes".toList

def FieldNode.shape (fld : FieldNode) : Shape :=
  let repeated := fld.parsed.label = .repeated
  match fld.type with
  | .map key value => .map key value
  | .message target => if repeated then .repeatedMsg target else .msgRef target
  | .enumeration target => if repeated then .repeatedScalar fld.type else .enumRef target
  | .builtin name =>
    if builtinIsBytes name then
      if repeated then .repeatedBytes else .bytes
    else
      if repeated then .repeatedScalar fld.type else .scalar
  | .unresolved => .scalar

namespace Shape

def hasCount : Shape → Bool
  | map .. => true
  | repeatedBytes => true
  | repeatedMsg _ => true
  | repeatedScalar _ => true
  | _ => false

def hasSpan : Shape → Bool
  | bytes => true
  | msgRef _ => true
  | _ => false

def entities : Shape → List Entity
  | map key value => key.named ++ value.named
  | repeatedMsg target => [.message target]
  | repeatedScalar element => element.named
  | msgRef target => [.message target]
  | enumRef target => [.enumeration target]
  | _ => []

def isMap : Shape → Bool
  | map .. => true
  | _ => false

def isRepeatedScalar : Shape → Bool
  | repeatedScalar _ => true
  | _ => false

end Shape

structure Slotted where
  shape : Shape
  fname : Spelling
  packedName : Option Spelling
  deriving DecidableEq, Repr

def memberScope : List Spelling :=
  ["src", "src_len", "_has", "_size"].map String.toList

/--
The claims of `gremlinc_emit_message_marked` in the scope of the members.
-/
def claimMembers (used : List Spelling) : List FieldNode → Option (List Slotted)
  | [] => some []
  | fld :: rest => do
    let fname ← mangle used (toSnakeCase fld.parsed.name)
    if fld.shape.isRepeatedScalar then
      let packed ← mangle (fname :: used) (fname ++ "_packed".toList)
      let rest ← claimMembers (packed :: fname :: used) rest
      some (⟨fld.shape, fname, some packed⟩ :: rest)
    else
      let rest ← claimMembers (fname :: used) rest
      some (⟨fld.shape, fname, none⟩ :: rest)

def memberNames (fields : List FieldNode) : Option (List Spelling) :=
  (claimMembers memberScope fields).map fun fs => fs.map Slotted.fname

structure Member where
  index : Nat
  shape : Shape
  fname : Spelling
  deriving DecidableEq, Repr

def members (fields : List FieldNode) : Option (List Member) :=
  (memberNames fields).map fun names =>
    (fields.zip names).mapIdx fun i (fld, fname) => ⟨i, fld.shape, fname⟩

/--
What the encode plan says of a message that gets contracts: whether it is the element of a repeated
field of another one that does, and which of its own fields have a sum.
-/
structure Contract where
  elem : Bool
  hasSum : List Bool
  deriving DecidableEq, Repr

abbrev Plan := NodeId → Option Contract

section Message

variable (owner : Entity)

def typeStem (suffix : String) : Stem Ident :=
  ⟨⟨owner, .type⟩, suffix.toList⟩

def readerStem (suffix : String) : Stem Ident :=
  ⟨⟨owner, .reader⟩, suffix.toList⟩

def getterStem (fname : Spelling) : Stem Ident :=
  ⟨⟨owner, .reader⟩, "_get_".toList ++ fname⟩

def entryStem (fname : Spelling) : Stem Ident :=
  ⟨⟨owner, .type⟩, '_' :: fname ++ "_entry".toList⟩

def iterStem (fname : Spelling) (suffix : String) : Stem Ident :=
  ⟨⟨owner, .reader⟩, '_' :: fname ++ suffix.toList⟩

def valueStem (name : Span) : Stem Ident :=
  ⟨⟨owner, .type⟩, '_' :: name⟩

/--
The predicates over the spans of a reader, eight spans each.
-/
def spansActs (members : List Member) : List (Act Ident) :=
  let nspans := members.countP fun mem => mem.shape.hasSpan
  let ngroups := (nspans + 7) / 8
  if ngroups = 1 then
    [.avoid (readerStem owner "_spans")]
  else
    (List.range ngroups).map fun g =>
      .avoid ⟨⟨owner, .reader⟩, "_spans_".toList ++ Nat.toDigits 10 g⟩

def memberActs (mem : Member) : List (Act Ident) :=
  -- The getter of a field that is read through an iterator is not emitted.
  (if mem.shape.hasCount then
      Act.hold (getterStem owner mem.fname)
    else
      .claim ⟨owner, .getter mem.index⟩ (getterStem owner mem.fname))
    :: if mem.shape.isMap then
        [.fit (entryStem owner mem.fname) 512,
          .claim ⟨owner, .entry mem.index⟩ (entryStem owner mem.fname)]
      else
        []

def iterOkActs (mem : Member) : List (Act Ident) :=
  if mem.shape.hasCount then [.avoid (iterStem owner mem.fname "_iter_ok")] else []

/--
What `gremlinc_espec_begin` claims in the scope of the C names.
-/
def contractActs (members : List Member) (contract : Contract) : List (Act Ident) :=
  .avoid (typeStem owner "_tsize_nonneg")
    :: (if contract.elem then [Act.avoid (typeStem owner "_tsize_pos")] else [])
    ++ members.flatMap fun mem =>
      .avoid ⟨⟨owner, .type⟩, "_encode_".toList ++ mem.fname ++ "_at".toList⟩
        :: if contract.hasSum[mem.index]?.getD false then
            [Act.avoid ⟨⟨owner, .type⟩, '_' :: mem.fname ++ "_mono".toList⟩]
          else
            []

def spelledActs (mem : Member) : List (Act Ident) :=
  if mem.shape.hasCount then
    [.spell ⟨owner, .iter mem.index⟩ (iterStem owner mem.fname "_iter"),
      .spell ⟨owner, .count mem.index⟩ (iterStem owner mem.fname "_count"),
      .spell ⟨owner, .begin mem.index⟩ (iterStem owner mem.fname "_begin"),
      .spell ⟨owner, .next mem.index⟩ (iterStem owner mem.fname "_next")]
  else
    []

def headActs : List (Act Ident) :=
  [.claim ⟨owner, .size⟩ (typeStem owner "_size"),
    .claim ⟨owner, .encode⟩ (typeStem owner "_encode"),
    .claim ⟨owner, .reader⟩ (typeStem owner "_reader")]

def tailActs (members : List Member) (contract : Option Contract) : List (Act Ident) :=
  .claim ⟨owner, .readerInit⟩ (readerStem owner "_init")
    :: .avoid (readerStem owner "_ok")
    :: spansActs owner members
    ++ members.flatMap (memberActs owner)
    ++ members.flatMap (iterOkActs owner)
    ++ contract.elim [] (contractActs owner members)
    ++ .spell ⟨owner, .cachedSize⟩ (typeStem owner "_cached_size")
    :: .spell ⟨owner, .encodeAt⟩ (typeStem owner "_encode_at")
    :: members.flatMap (spelledActs owner)

def messageActs (contract : Option Contract) (m : MessageNode) : Option (List (Act Ident)) :=
  if m.fields.length > 1024 then
    none
  else
    (members m.fields).map fun members => headActs owner ++ tailActs owner members contract

def enumActs (en : EnumNode) : List (Act Ident) :=
  en.values.mapIdx fun j value => .claim ⟨owner, .constant j⟩ (valueStem owner value.name)

/--
What `gremlinc_reserve_public_names` claims for a message.
-/
def reservedActs (m : MessageNode) : Option (List (Act Ident)) :=
  (members m.fields).map fun members =>
    [.hold (typeStem owner "_size"), .hold (typeStem owner "_cached_size"),
        .hold (typeStem owner "_encode"), .hold (typeStem owner "_encode_at"),
        .claim ⟨owner, .reader⟩ (typeStem owner "_reader"), .hold (readerStem owner "_init")]
      ++ members.flatMap fun mem =>
        .hold (getterStem owner mem.fname)
          :: if mem.shape.isMap then [Act.hold (entryStem owner mem.fname)] else []

end Message

def itemsOf {α : Type} (l : List α) (order : List (Fin l.length)) : List (Nat × α) :=
  order.map fun i : Fin l.length => (i.val, l[i])

namespace Pool

variable (p : Pool)

/--
`gremlinc_assign_c_names`, for the descriptors of a file in order.
-/
def nameTypes : List (Entity × ScopedName) → Ledger Ident → Option (Ledger Ident)
  | [], l => some l
  | (owner, name) :: rest, l =>
    (cnameForType l.used name).bind fun (c, used) =>
      nameTypes rest ⟨used, (⟨owner, .type⟩, c) :: l.defs⟩

def entitiesOf (f : FileId) : List (Entity × ScopedName) :=
  (p.heap f).enums.mapIdx (fun i en => (.enumeration ⟨f, i⟩, en.scopedName))
    ++ (p.heap f).messages.mapIdx fun i m => (.message ⟨f, i⟩, m.scopedName)

def typeLedger : Option (Ledger Ident) :=
  nameTypes (p.files.flatMap p.entitiesOf) ⟨reserveLogic, []⟩

def enumsActs (f : FileId) : List (Act Ident) :=
  ((p.heap f).enums.mapIdx fun i en => enumActs (.enumeration ⟨f, i⟩) en).flatten

def orderedMessages (f : FileId) : Option (List (Nat × MessageNode)) :=
  (topoSortMessages f (p.heap f).messages).map fun order =>
    itemsOf (p.heap f).messages order.items

def actsOf (acts : NodeId → MessageNode → Option (List (Act Ident))) (f : FileId)
    : Option (List (Act Ident)) := do
  let messages ← p.orderedMessages f
  let blocks ← messages.mapM fun (i, m) => acts ⟨f, i⟩ m
  some (p.enumsActs f ++ blocks.flatten)

/--
The scope that `gremlinc_reserve_public_names` leaves, which the names of the contracts avoid.
-/
def reservedNames (types : Ledger Ident) : Option (List Spelling) := do
  let acts ← p.files.mapM (p.actsOf fun id m => reservedActs (.message id) m)
  let l ← types.run (namePolicy []) acts.flatten
  some l.used

/--
What the emitter does about names when it goes through the files. A first pass before this one only
learns names of the contracts; the scope it leaves is thrown away.
-/
def acts (plan : Plan) : Option (List (Act Ident)) :=
  (p.files.mapM (p.actsOf fun id m => messageActs (.message id) (plan id) m)).map List.flatten

structure Agenda where
  types : Ledger Ident
  reserved : List Spelling
  acts : List (Act Ident)

def agenda (plan : Plan) : Option Agenda := do
  let types ← p.typeLedger
  let reserved ← p.reservedNames types
  let acts ← p.acts plan
  some ⟨types, reserved, acts⟩

def Agenda.run (a : Agenda) : Option (Ledger Ident) :=
  a.types.run (namePolicy a.reserved) a.acts

end Pool

end Gremlin
