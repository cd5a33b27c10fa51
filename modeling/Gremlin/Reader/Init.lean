import Gremlin.Wire

/-!
This module contains the generated reader of a message: the struct, the loop of `reader_init` with
one arm for each field, and the getters of singular fields.
-/

namespace Gremlin

open Codec

namespace Elem

/--
The value that a 64-bit varint stands for. A fixed-width scalar has none.
-/
def ofVarint : (e : Elem) → BitVec 64 → e.Value
  | .enum, d => d.setWidth 32
  | .scalar .int32, d => d.setWidth 32
  | .scalar .int64, d => d
  | .scalar .uint32, d => d.setWidth 32
  | .scalar .uint64, d => d
  | .scalar .sint32, d => unzigzag32 (d.setWidth 32)
  | .scalar .sint64, d => unzigzag64 d
  | .scalar .bool, d => if d ≠ 0 then 1#1 else 0#1
  | .scalar .fixed32, _ | .scalar .sfixed32, _ | .scalar .float, _ => 0#32
  | .scalar .fixed64, _ | .scalar .sfixed64, _ | .scalar .double, _ => 0#64

/--
`emit_elem_decode` and `emit_slot_decode`, which read every varint with the 64-bit decoder.
-/
def decode (e : Elem) : Decoder UInt8 Error e.Value :=
  match e.wireType with
  | .fixed32 => fixed32Decode.map fun v => v.setWidth e.width
  | .fixed64 => fixed64Decode.map fun v => v.setWidth e.width
  | _ => varintDecode.map e.ofVarint

def decodeSingular : (e : Elem) → Decoder UInt8 Error e.Value
  | .scalar .uint32 => varint32Decode
  | .scalar .sint32 => varint32Decode.map unzigzag32
  | .scalar .bool => varint32Decode.map fun d => if d ≠ 0 then 1#1 else 0#1
  | e => e.decode

def usesVarint32 : Elem → Bool
  | .scalar kind => kind.usesVarint32
  | .enum => false

/--
The number of elements of a packed block as `reader_init` counts them: by the length, or by the
bytes without a continuation bit.
-/
def blockCount (e : Elem) (block : List UInt8) : Nat :=
  match e.wireType with
  | .fixed32 => block.length / 4
  | .fixed64 => block.length / 8
  | _ => block.countP fun b => b &&& 0x80 = 0

end Elem

structure RepState where
  count : Nat
  firstOffset : Nat
  deriving DecidableEq, Repr

structure RepScalarState where
  count : Nat
  firstOffset : Nat
  packed : Bool
  deriving DecidableEq, Repr

/--
The members of a field. That of a singular field is there when its `_has` bit is set; a span is the
list of its bytes.
-/
abbrev Family.State : Family → Type
  | .scalar e _ => Option e.Value
  | .bytes _ => Option (List UInt8)
  | .msgRef _ => Option (List UInt8)
  | .repScalar _ _ => RepScalarState
  | .repBytes => RepState
  | .repMsg _ => RepState
  | .map _ _ => RepState

def Family.initial : (f : Family) → f.State
  | .scalar _ _ => none
  | .bytes _ => none
  | .msgRef _ => none
  | .repScalar _ _ => ⟨0, 0, false⟩
  | .repBytes => ⟨0, 0⟩
  | .repMsg _ => ⟨0, 0⟩
  | .map _ _ => ⟨0, 0⟩

def Field.hasTag (f : Field) (tag : BitVec 32) : Bool :=
  match f.family with
  | .scalar e _ => tag == packTag f.index e.wireType
  | .repScalar e _ => tag == packTag f.index .lenPrefix || tag == packTag f.index e.wireType
  | _ => tag == packTag f.index .lenPrefix

section Arms

variable (tagOffset offset : Nat)

def repArm (st : RepState) : Decoder UInt8 Error RepState :=
  bytesDecode.map fun _ =>
    { count := st.count + 1
      firstOffset := if st.count = 0 then offset else st.firstOffset }

def packedArm (e : Elem) (st : RepScalarState) : Decoder UInt8 Error RepScalarState :=
  if st.count > 0 ∧ st.packed = false then
    Decoder.fail .invalidWireType
  else
    bytesDecode.map fun block =>
      { count := st.count + e.blockCount block
        firstOffset := if st.count = 0 then tagOffset else st.firstOffset
        packed := if st.count = 0 then true else st.packed }

/--
The unpacked arm of a repeated scalar or enum field. It does not touch the packed flag.
-/
def unpackedArm (e : Elem) (st : RepScalarState) : Decoder UInt8 Error RepScalarState :=
  if st.count > 0 ∧ st.packed = true then
    Decoder.fail .invalidWireType
  else
    (skipFlat e.wireType).map fun _ =>
      { count := st.count + 1
        firstOffset := if st.count = 0 then tagOffset else st.firstOffset
        packed := st.packed }

/--
The arm of a field for a tag of this field. `tagOffset` is where the tag starts and `offset` is
where its data starts.
-/
def Family.arm (index : Nat) (tag : BitVec 32) : (f : Family) → f.State →
    Decoder UInt8 Error f.State
  | .scalar e _, _ => e.decodeSingular.map some
  | .bytes _, _ => bytesDecode.map some
  | .msgRef _, _ => bytesDecode.map some
  | .repScalar e _, st =>
    if tag = packTag index .lenPrefix then packedArm tagOffset e st else unpackedArm tagOffset e st
  | .repBytes, st => repArm offset st
  | .repMsg _, st => repArm offset st
  | .map _ _, st => repArm offset st

end Arms

abbrev Fields (S : Schema) (t : MsgId) : Type :=
  (i : Fin (S t).length) → (S.field t i).family.State

structure Reader (S : Schema) (t : MsgId) where
  src : List UInt8
  fields : Fields S t

/--
The field whose arm is the first to match a tag.
-/
def owner (S : Schema) (t : MsgId) (tag : BitVec 32) : Option (Fin (S t).length) :=
  (List.finRange (S t).length).find? fun i => (S.field t i).hasTag tag

variable (S : Schema) (t : MsgId)

/--
The loop of `reader_init`. Every round reads a tag, so `fuel` only has to reach the number of bytes
left.
-/
def readerInitLoop : (fuel : Nat) → (offset : Nat) → Fields S t → (buf : List UInt8) →
    Except Error (Fields S t)
  | 0, _, fields, _ => .ok fields
  | fuel + 1, offset, fields, buf =>
    if buf = [] then
      .ok fields
    else
      match varint32Decode buf with
      | .error e => .error e
      | .ok (tag, n) =>
        match owner S t tag with
        | some i =>
          let f := S.field t i
          match f.family.arm offset (offset + n) f.index tag (fields i) (buf.drop n) with
          | .error e => .error e
          | .ok (st, m) =>
            readerInitLoop fuel (offset + n + m) (Function.update fields i st) (buf.drop (n + m))
        | none =>
          match WireType.ofNat? (tag.toNat % 8) with
          | none => .error .invalidWireType
          | some wt =>
            if tag.toNat / 8 = 0 then
              .error .invalidFieldNum
            else
              match skipData wt (buf.drop n) with
              | .error e => .error e
              | .ok (_, m) => readerInitLoop fuel (offset + n + m) fields (buf.drop (n + m))

def readerInit (src : List UInt8) : Except Error (Reader S t) :=
  match readerInitLoop S t src.length 0 (fun i => (S.field t i).family.initial) src with
  | .error e => .error e
  | .ok fields => .ok ⟨src, fields⟩

def getter {α : Type} (default : α) (st : Option α) : α :=
  st.getD default

def messageGetter (target : MsgId) (st : Option (List UInt8)) : Except Error (Reader S target) :=
  readerInit S target (st.getD [])

end Gremlin
