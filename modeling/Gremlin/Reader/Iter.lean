import Gremlin.Reader.Init

/-!
This module contains the generated iterators of repeated and map fields. They keep no elements:
`next` decodes one at the cursor and rescans the buffer for the next tag of the field.
-/

namespace Gremlin

open Codec

abbrev Step (σ α : Type) := Except Error α × σ

/--
The loop that looks for the next occurrence of a tag, from `offset` on. It stops behind the tag,
returning `true`, or at the end of the buffer.
-/
def scanTag (tag : BitVec 32) (src : List UInt8) : (fuel : Nat) → (offset : Nat) → Step Nat Bool
  | 0, offset => (.ok false, offset)
  | fuel + 1, offset =>
    if offset < src.length then
      match varint32Decode (src.drop offset) with
      | .error e => (.error e, offset)
      | .ok (t, n) =>
        if t = tag then
          (.ok true, offset + n)
        else
          match WireType.ofNat? (t.toNat % 8) with
          | none => (.error .invalidWireType, offset + n)
          | some wt =>
            match skipData wt (src.drop (offset + n)) with
            | .error e => (.error e, offset + n)
            | .ok (_, m) => scanTag tag src fuel (offset + n + m)
    else
      (.ok false, offset)

/-! Length-delimited elements. -/

structure Iter where
  src : List UInt8
  offset : Nat
  countRemaining : Nat
  deriving DecidableEq, Repr

def Iter.begin (src : List UInt8) (st : RepState) : Iter :=
  if st.count = 0 then ⟨[], 0, 0⟩ else ⟨src, st.firstOffset, st.count⟩

def Iter.advance (it : Iter) (tag : BitVec 32) : Step Iter Unit :=
  if it.countRemaining > 0 then
    match scanTag tag it.src it.src.length it.offset with
    | (.error e, offset) => (.error e, { it with offset })
    | (.ok _, offset) => (.ok (), { it with offset })
  else
    (.ok (), it)

def Iter.element (it : Iter) : Step Iter (List UInt8) :=
  match bytesDecode (it.src.drop it.offset) with
  | .error e => (.error e, it)
  | .ok (bytes, consumed) =>
    (.ok bytes,
      { it with
        offset := it.offset + consumed
        countRemaining := it.countRemaining - 1 })

def nextBytes (index : Nat) (it : Iter) : Step Iter (List UInt8) :=
  if it.countRemaining = 0 then
    (.ok [], it)
  else
    match it.element with
    | (.error e, it) => (.error e, it)
    | (.ok bytes, it) =>
      match it.advance (packTag index .lenPrefix) with
      | (.error e, it) => (.error e, it)
      | (.ok _, it) => (.ok bytes, it)

variable (S : Schema)

/--
`next` of a repeated message field. The child reader is initialised last.
-/
def nextMessage (index : Nat) (target : MsgId) (it : Iter) : Step Iter (Reader S target) :=
  if it.countRemaining = 0 then
    (readerInit S target [], it)
  else
    match it.element with
    | (.error e, it) => (.error e, it)
    | (.ok bytes, it) =>
      match it.advance (packTag index .lenPrefix) with
      | (.error e, it) => (.error e, it)
      | (.ok _, it) => (readerInit S target bytes, it)

section Map

/--
`emit_slot_decode` for a slot that is not a message.
-/
def Slot.decode : (s : Slot) → Decoder UInt8 Error s.Value
  | .elem e => e.decode
  | .bytes => bytesDecode

/--
What the walk over an entry keeps of the value: the value, or the span of a message.
-/
abbrev MapValue.Kept : MapValue → Type
  | .slot s => s.Value
  | .message _ => List UInt8

def MapValue.keptDefault : (value : MapValue) → value.Kept
  | .slot s => s.default
  | .message _ => []

abbrev MapValue.Out : MapValue → Type
  | .slot s => s.Value
  | .message target => Reader S target

/--
`emit_slot_decode` for the value of an entry. A message that comes again is still checked.
-/
def MapValue.decode : (value : MapValue) → value.Kept → Decoder UInt8 Error value.Kept
  | .slot s, _ => s.decode
  | .message target, kept =>
    bytesDecode.bind fun bytes =>
      if kept.length > 0 then
        match readerInit S target kept with
        | .error e => Decoder.fail e
        | .ok _ => Decoder.pure bytes
      else
        Decoder.pure bytes

def entryLoop (key : Slot) (value : MapValue) : (fuel : Nat) → key.Value → value.Kept →
    (buf : List UInt8) → Except Error (key.Value × value.Kept)
  | 0, k, v, _ => .ok (k, v)
  | fuel + 1, k, v, buf =>
    if buf = [] then
      .ok (k, v)
    else
      match varint32Decode buf with
      | .error e => .error e
      | .ok (tag, n) =>
        if tag = packTag 1 key.wireType then
          match key.decode (buf.drop n) with
          | .error e => .error e
          | .ok (k, m) => entryLoop key value fuel k v (buf.drop (n + m))
        else if tag = packTag 2 value.wireType then
          match value.decode S v (buf.drop n) with
          | .error e => .error e
          | .ok (v, m) => entryLoop key value fuel k v (buf.drop (n + m))
        else
          match WireType.ofNat? (tag.toNat % 8) with
          | none => .error .invalidWireType
          | some wt =>
            match skipData wt (buf.drop n) with
            | .error e => .error e
            | .ok (_, m) => entryLoop key value fuel k v (buf.drop (n + m))

/--
The reader of a message value is initialised once the entry is read.
-/
def MapValue.finish : (value : MapValue) → value.Kept → Except Error (value.Out S)
  | .slot _, v => .ok v
  | .message target, kept => readerInit S target kept

def decodeEntry (key : Slot) (value : MapValue) (entry : List UInt8)
    : Except Error (key.Value × value.Out S) :=
  match entryLoop S key value entry.length key.default value.keptDefault entry with
  | .error e => .error e
  | .ok (k, v) =>
    match value.finish S v with
    | .error e => .error e
    | .ok v => .ok (k, v)

/--
`next` of a map field. An entry that cannot be decoded ends the call before the cursor is moved to
the next tag.
-/
def nextEntry (index : Nat) (key : Slot) (value : MapValue) (it : Iter)
    : Step Iter (key.Value × value.Out S) :=
  if it.countRemaining = 0 then
    (decodeEntry S key value [], it)
  else
    match it.element with
    | (.error e, it) => (.error e, it)
    | (.ok entry, it) =>
      match decodeEntry S key value entry with
      | .error e => (.error e, it)
      | .ok out =>
        match it.advance (packTag index .lenPrefix) with
        | (.error e, it) => (.error e, it)
        | (.ok _, it) => (.ok out, it)

end Map

/-! Scalar elements. -/

structure ScalarIter where
  src : List UInt8
  offset : Nat
  blockEnd : Nat
  countRemaining : Nat
  isPacked : Bool
  deriving DecidableEq, Repr

def ScalarIter.begin (src : List UInt8) (st : RepScalarState) : ScalarIter :=
  if st.count = 0 then
    ⟨[], 0, 0, 0, false⟩
  else
    ⟨src, st.firstOffset, 0, st.count, st.packed⟩

/--
The loop that looks for the next packed record with elements, from the cursor on.
-/
def scanBlock (tag : BitVec 32) : (fuel : Nat) → ScalarIter → Step ScalarIter Unit
  | 0, it => (.ok (), it)
  | fuel + 1, it =>
    if it.offset < it.src.length then
      match varint32Decode (it.src.drop it.offset) with
      | .error e => (.error e, it)
      | .ok (t, n) =>
        let it := { it with offset := it.offset + n }
        if t = tag then
          match varintDecode (it.src.drop it.offset) with
          | .error e => (.error e, it)
          | .ok (len, m) =>
            let it := { it with offset := it.offset + m }
            if len.toNat > it.src.length - it.offset then
              (.error .truncated, it)
            else
              let it := { it with blockEnd := it.offset + len.toNat }
              if it.blockEnd > it.offset then (.ok (), it) else scanBlock tag fuel it
        else
          match WireType.ofNat? (t.toNat % 8) with
          | none => (.error .invalidWireType, it)
          | some wt =>
            match skipData wt (it.src.drop it.offset) with
            | .error e => (.error e, it)
            | .ok (_, m) => scanBlock tag fuel { it with offset := it.offset + m }
    else
      (.ok (), it)

/--
The packed branch of `next` once the cursor is inside a block.
-/
def nextInBlock (e : Elem) (it : ScalarIter) : Step ScalarIter e.Value :=
  match e.decode ((it.src.take it.blockEnd).drop it.offset) with
  | .error err => (.error err, it)
  | .ok (v, n) =>
    let offset := it.offset + n
    (.ok v,
      { it with
        offset
        countRemaining := it.countRemaining - 1
        blockEnd := if offset ≥ it.blockEnd then 0 else it.blockEnd })

def nextPacked (index : Nat) (e : Elem) (it : ScalarIter) : Step ScalarIter e.Value :=
  if it.blockEnd ≤ it.offset then
    match scanBlock (packTag index .lenPrefix) it.src.length it with
    | (.error err, it) => (.error err, it)
    | (.ok _, it) => if it.blockEnd ≤ it.offset then (.error .truncated, it) else nextInBlock e it
  else
    nextInBlock e it

def nextUnpacked (index : Nat) (e : Elem) (it : ScalarIter) : Step ScalarIter e.Value :=
  match scanTag (packTag index e.wireType) it.src it.src.length it.offset with
  | (.error err, offset) => (.error err, { it with offset })
  | (.ok false, offset) => (.error .truncated, { it with offset })
  | (.ok true, offset) =>
    match e.decode (it.src.drop offset) with
    | .error err => (.error err, { it with offset })
    | .ok (v, n) =>
      (.ok v, { it with offset := offset + n, countRemaining := it.countRemaining - 1 })

def nextScalar (index : Nat) (e : Elem) (it : ScalarIter) : Step ScalarIter e.Value :=
  if it.countRemaining = 0 then
    (.ok 0, it)
  else if it.isPacked then
    nextPacked index e it
  else
    nextUnpacked index e it

/-! Sequences of calls. -/

/--
The result of call number `k` of `next`, the first being number 0.
-/
def result {σ α : Type} (next : σ → Step σ α) : (k : Nat) → σ → Except Error α
  | 0, it => (next it).1
  | k + 1, it => result next k (next it).2

end Gremlin
