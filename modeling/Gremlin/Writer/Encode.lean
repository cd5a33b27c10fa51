import Gremlin.Schema

/-!
This module contains the generated size and encode functions of a message. Both walk the fields in
descriptor order. The size function leaves its result in the `_size` member of the message it has
measured; the encode function writes the length of a child from there.
-/

namespace Gremlin

open Codec

abbrev SizeT := BitVec 64

abbrev Cache := MsgId → Addr → SizeT

def Cache.set (cache : Cache) (t : MsgId) (a : Addr) (size : SizeT) : Cache :=
  fun t' a' => if t' = t ∧ a' = a then size else cache t' a'

namespace Elem

/--
The byte count of a value, as `emit_elem_wire_size_expr` and its siblings emit it.
-/
def wireSize : (e : Elem) → e.Value → Nat
  | .enum, v => varintSize (v.signExtend 64)
  | .scalar .int32, v => varintSize (v.signExtend 64)
  | .scalar .int64, v => varintSize v
  | .scalar .uint32, v => varint32Size v
  | .scalar .uint64, v => varintSize v
  | .scalar .sint32, v => varint32Size (zigzag32 v)
  | .scalar .sint64, v => varintSize (zigzag64 v)
  | .scalar .fixed32, _ | .scalar .sfixed32, _ | .scalar .float, _ => 4
  | .scalar .fixed64, _ | .scalar .sfixed64, _ | .scalar .double, _ => 8
  | .scalar .bool, _ => 1

/--
The write of a value, as `emit_elem_encode` and its siblings emit it.
-/
def encodeAt : (e : Elem) → e.Value → (buf : Mem) → (off : Nat) → Mem × Nat
  | .enum, v, buf, off => varintEncodeAt buf off (v.signExtend 64)
  | .scalar .int32, v, buf, off => varintEncodeAt buf off (v.signExtend 64)
  | .scalar .int64, v, buf, off => varintEncodeAt buf off v
  | .scalar .uint32, v, buf, off => varint32EncodeAt buf off v
  | .scalar .uint64, v, buf, off => varintEncodeAt buf off v
  | .scalar .sint32, v, buf, off => varint32EncodeAt buf off (zigzag32 v)
  | .scalar .sint64, v, buf, off => varintEncodeAt buf off (zigzag64 v)
  | .scalar .fixed32, v, buf, off => fixed32EncodeAt buf off v
  | .scalar .sfixed32, v, buf, off => fixed32EncodeAt buf off v
  | .scalar .float, v, buf, off => fixed32EncodeAt buf off v
  | .scalar .fixed64, v, buf, off => fixed64EncodeAt buf off v
  | .scalar .sfixed64, v, buf, off => fixed64EncodeAt buf off v
  | .scalar .double, v, buf, off => fixed64EncodeAt buf off v
  | .scalar .bool, v, buf, off => varint32EncodeAt buf off (if v.toNat ≠ 0 then 1 else 0)

end Elem

def tagBytes (index : Nat) (wt : WireType) : Nat :=
  varintSize ((packTag index wt).setWidth 64)

section Size

/--
A computation that may change `_size` members, or does not return.
-/
abbrev SizeM := StateT Cache Option

/--
`m->count * 4`, `m->count * 8`, or the sum over the elements.
-/
def payloadSize (e : Elem) (vs : List e.Value) : SizeT :=
  match e.wireType with
  | .fixed32 => BitVec.ofNat 64 vs.length * 4
  | .fixed64 => BitVec.ofNat 64 vs.length * 8
  | _ => vs.foldl (fun payload v => payload + BitVec.ofNat 64 (e.wireSize v)) 0

/--
`emit_slot_size_contrib` for a slot that is not a message.
-/
def slotSize (num : Nat) : (s : Slot) → s.Value → (inner : SizeT) → SizeT
  | .elem e, v, inner => inner + BitVec.ofNat 64 (tagBytes num e.wireType + e.wireSize v)
  | .bytes, v, inner =>
    let len := BitVec.ofNat 64 v.length
    inner + (BitVec.ofNat 64 (tagBytes num .lenPrefix) + BitVec.ofNat 64 (varintSize len) + len)

variable (messageSize : MsgId → Addr → SizeM SizeT)

def sizeOrZero (target : MsgId) : Option Addr → SizeM SizeT
  | some p => messageSize target p
  | none => pure 0

/--
`emit_slot_size_contrib` for the value of an entry. It measures a message once for the length
prefix and once for the payload.
-/
def mapValueSize (num : Nat) : (value : MapValue) → value.Value → (inner : SizeT) → SizeM SizeT
  | .slot s, v, inner => pure (slotSize num s v inner)
  | .message target, p, inner => do
    let forPrefix ← sizeOrZero messageSize target p
    let forPayload ← sizeOrZero messageSize target p
    return inner
      + (BitVec.ofNat 64 (tagBytes num .lenPrefix) + BitVec.ofNat 64 (varintSize forPrefix)
          + forPayload)

/--
The size `_inner` of a map entry, which the size and the encode function both compute.
-/
def entrySize (key : Slot) (value : MapValue) (e : key.Value × value.Value) : SizeM SizeT :=
  mapValueSize messageSize 2 value e.2 (slotSize 1 key e.1 0)

/--
The statements that add a field to the accumulator `s` of the size function. `v` is what the references of
the template stand for: the value of the field if they fit their buffers, see `Family.seen`.
-/
def sizeField (index : Nat) : (f : Family) → f.Value → (s : SizeT) → SizeM SizeT
  | .scalar e default, v, s =>
    if e.differs v default then
      pure (s + BitVec.ofNat 64 (tagBytes index e.wireType + e.wireSize v))
    else
      pure s
  | .bytes default, v, s =>
    if v ≠ default then
      let len := BitVec.ofNat 64 v.length
      pure
        (s + (BitVec.ofNat 64 (tagBytes index .lenPrefix) + BitVec.ofNat 64 (varintSize len) + len))
    else
      pure s
  | .msgRef target, p, s =>
    match p with
    | none => pure s
    | some p => do
      let childSize ← messageSize target p
      return s
        + (BitVec.ofNat 64 (tagBytes index .lenPrefix) + BitVec.ofNat 64 (varintSize childSize)
            + childSize)
  | .repScalar e packing, vs, s =>
    let unpackedTagBytes := BitVec.ofNat 64 (tagBytes index e.wireType)
    let packedTagBytes := BitVec.ofNat 64 (tagBytes index .lenPrefix)
    let payload := payloadSize e vs
    match packing, vs with
    -- A single element is packed only if the option asks for it.
    | _, [] => pure s
    | .auto, [v] => pure (s + (unpackedTagBytes + BitVec.ofNat 64 (e.wireSize v)))
    | .expanded, vs => pure (s + (BitVec.ofNat 64 vs.length * unpackedTagBytes + payload))
    | _, _ => pure (s + (packedTagBytes + BitVec.ofNat 64 (varintSize payload) + payload))
  | .repBytes, vs, s =>
    vs.foldlM
      (fun s v =>
        let len := BitVec.ofNat 64 v.length
        pure
          (s
            + (BitVec.ofNat 64 (tagBytes index .lenPrefix) + BitVec.ofNat 64 (varintSize len)
                + len)))
      s
  | .repMsg target, ps, s =>
    ps.foldlM
      (fun s p =>
        match p with
        | some p => do
          let childSize ← messageSize target p
          return s
            + (BitVec.ofNat 64 (tagBytes index .lenPrefix) + BitVec.ofNat 64 (varintSize childSize)
                + childSize)
        | none => pure (s + BitVec.ofNat 64 (tagBytes index .lenPrefix + 1)))
      s
  | .map key value, es, s =>
    es.foldlM
      (fun s e => do
        let inner ← entrySize messageSize key value e
        return s
          + (BitVec.ofNat 64 (tagBytes index .lenPrefix) + BitVec.ofNat 64 (varintSize inner)
              + inner))
      s

end Size

/--
The generated size function, where all references fit. `fuel` bounds the depth of the recursion.
-/
def messageSize {S : Schema} (store : Store S) : (fuel : Nat) → MsgId → Addr → SizeM SizeT
  | 0, _, _ => failure
  | fuel + 1, t, a => do
    let s ← (List.finRange (S t).length).foldlM
      (fun s i =>
        sizeField (messageSize store fuel) (S.field t i).index (S.field t i).family (store t a i) s)
      0
    modify fun cache => cache.set t a s
    return s

section Encode

/--
The memory an encoder works on: the output buffer and the `_size` members.
-/
structure Encoder where
  buf : Mem
  cache : Cache

abbrev EncodeM := StateT Encoder Option

def writeAt (write : Mem → Nat → Mem × Nat) : Emitter Encoder :=
  fun off st =>
    let (buf, off) := write st.buf off
    some (off, { st with buf })

def onCache {α : Type} (m : SizeM α) : EncodeM α :=
  fun st =>
    match m st.cache with
    | none => none
    | some (a, cache) => some (a, { st with cache })

def cachedSize (target : MsgId) (p : Addr) : EncodeM SizeT :=
  fun st => some (st.cache target p, st)

def encodeTag (index : Nat) (wt : WireType) : Emitter Encoder :=
  writeAt fun buf off => varint32EncodeAt buf off (packTag index wt)

def encodeLength (len : SizeT) : Emitter Encoder :=
  writeAt fun buf off => varintEncodeAt buf off len

def encodeElem (e : Elem) (v : e.Value) : Emitter Encoder :=
  writeAt (e.encodeAt v)

def encodeBytes (v : List UInt8) : Emitter Encoder := fun off => do
  let off ← encodeLength (BitVec.ofNat 64 v.length) off
  writeAt (fun buf off => writeBytesAt buf off v) off

/--
`emit_slot_encode` for a slot that is not a message.
-/
def encodeSlot (num : Nat) : (s : Slot) → s.Value → Emitter Encoder
  | .elem e, v => fun off => do
    let off ← encodeTag num e.wireType off
    encodeElem e v off
  | .bytes, v => fun off => do
    let off ← encodeTag num .lenPrefix off
    encodeBytes v off

variable (messageSize : MsgId → Addr → SizeM SizeT)
variable (encodeMessage : MsgId → Addr → Emitter Encoder)

def encodeChild (target : MsgId) (p : Addr) : Emitter Encoder := fun off => do
  let size ← cachedSize target p
  let off ← encodeLength size off
  encodeMessage target p off

/--
`emit_slot_encode` for the value of an entry.
-/
def encodeMapValue (num : Nat) : (value : MapValue) → value.Value → Emitter Encoder
  | .slot s, v => encodeSlot num s v
  | .message target, p => fun off => do
    let off ← encodeTag num .lenPrefix off
    match p with
    | some p => encodeChild encodeMessage target p off
    | none => encodeLength 0 off

/--
The statements that write a field. `v` is what the references of the template stand for here, too.
-/
def encodeField (index : Nat) : (f : Family) → f.Value → Emitter Encoder
  | .scalar e default, v => fun off =>
    if e.differs v default then do
      let off ← encodeTag index e.wireType off
      encodeElem e v off
    else
      pure off
  | .bytes default, v => fun off =>
    if v ≠ default then do
      let off ← encodeTag index .lenPrefix off
      encodeBytes v off
    else
      pure off
  | .msgRef target, p => fun off =>
    match p with
    | none => pure off
    | some p => do
      let off ← encodeTag index .lenPrefix off
      encodeChild encodeMessage target p off
  | .repScalar e packing, vs => fun off =>
    let encodeUnpacked (v : e.Value) : Emitter Encoder := fun off => do
      let off ← encodeTag index e.wireType off
      encodeElem e v off
    match packing, vs with
    | _, [] => pure off
    | .auto, [v] => encodeUnpacked v off
    | .expanded, vs => vs.foldlM (fun off v => encodeUnpacked v off) off
    | _, vs => do
      let off ← encodeTag index .lenPrefix off
      let off ← encodeLength (payloadSize e vs) off
      vs.foldlM (fun off v => encodeElem e v off) off
  | .repBytes, vs => fun off =>
    vs.foldlM
      (fun off v => do
        let off ← encodeTag index .lenPrefix off
        encodeBytes v off)
      off
  | .repMsg target, ps => fun off =>
    ps.foldlM
      (fun off p => do
        let off ← encodeTag index .lenPrefix off
        match p with
        | some p => encodeChild encodeMessage target p off
        | none => encodeLength 0 off)
      off
  | .map key value, es => fun off =>
    es.foldlM
      (fun off e => do
        let inner ← onCache (entrySize messageSize key value e)
        let off ← encodeTag index .lenPrefix off
        let off ← encodeLength inner off
        let off ← encodeSlot 1 key e.1 off
        encodeMapValue encodeMessage 2 value e.2 off)
      off

end Encode

/--
The generated encode function `<message>_encode_at`, where all references fit.
-/
def encodeAt {S : Schema} (store : Store S) : (fuel : Nat) → MsgId → Addr → Emitter Encoder
  | 0, _, _ => fun _ => failure
  | fuel + 1, t, a => fun off =>
    (List.finRange (S t).length).foldlM
      (fun off i =>
        encodeField (messageSize store fuel) (encodeAt store fuel) (S.field t i).index
          (S.field t i).family (store t a i) off)
      off

/--
The bytes that are written at `off` when the size function is run and then the encode function.
-/
def writtenBytes {S : Schema} (store : Store S) (fuel : Nat) (t : MsgId) (a : Addr) (cache : Cache)
    (buf : Mem) (off : Nat) : Option (List UInt8) := do
  let (_, cache) ← messageSize store fuel t a cache
  let (stop, st) ← encodeAt store fuel t a off ⟨buf, cache⟩
  return st.buf.read off (stop - off)

end Gremlin
