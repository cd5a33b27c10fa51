import Gremlin.Writer.Encode
import Gremlin.Naming.Ledger
import Gremlin.Parser.Lexems
import Mathlib.Data.List.TakeDrop

/-!
This module contains the size and encode functions of a message whose members have names. The templates of
repeated scalars and of maps print the expression for an element to a buffer of 128 characters, which keeps
the first 127 of them. What is left of a long one stands for something else, or is no expression.
-/

namespace Gremlin

open Codec Naming

/--
`snprintf(ref, sizeof ref, "m->%s<suffix>", fname)`.
-/
def reference (fname suffix : Spelling) : Spelling :=
  ("m->".toList ++ fname ++ suffix).take 127

/--
What C reads in a reference.
-/
inductive Reference where
  /-- The element or the part of the entry that it is for. -/
  | whole
  /-- A member of the message, `m->name`. -/
  | member (name : Spelling)
  /-- An open bracket, a whole entry, or a member that no entry has. -/
  | malformed
  deriving DecidableEq, Repr

def readReference (fname suffix : Spelling) : Reference :=
  let text := reference fname suffix
  if text = "m->".toList ++ fname ++ suffix then .whole
  else if (text.drop 3).all isIdentifierChar then .member (text.drop 3)
  else .malformed

inductive Operand where
  | integer (v : Int)
  | float (bits : BitVec 32)
  | double (bits : BitVec 64)
  /-- A pointer to the elements of an array. -/
  | array (address : BitVec 64)
  | message (target : MsgId) (p : Option Addr)
  | bytes (v : List UInt8)

/--
What C leaves to the machine: where arrays and messages are, and the conversions from and to
floating-point types.
-/
structure Abi where
  arrayAt : MsgId → Addr → Nat → BitVec 64
  messageAt : MsgId → Addr → BitVec 64
  convert : Operand → (e : Elem) → BitVec e.width

namespace Elem

/--
The type of an enum is taken for `int`.
-/
def operand : (e : Elem) → e.Value → Operand
  | .enum, v => .integer v.toInt
  | .scalar .int32, v | .scalar .int64, v | .scalar .sint32, v | .scalar .sint64, v
  | .scalar .sfixed32, v | .scalar .sfixed64, v => .integer v.toInt
  | .scalar .uint32, v | .scalar .uint64, v | .scalar .fixed32, v | .scalar .fixed64, v
  | .scalar .bool, v => .integer v.toNat
  | .scalar .float, v => .float v
  | .scalar .double, v => .double v

/--
The template of an `int32` casts to 64 bits at once. It writes a wider operand as that of an `int64`
does.
-/
def widened : Elem → Elem
  | .scalar .int32 => .scalar .int64
  | e => e

def isReal : Elem → Bool
  | .scalar .float | .scalar .double => true
  | _ => false

/--
The template casts its operand, so that it may be a pointer.
-/
def casts : Elem → Bool
  | .enum | .scalar .int32 | .scalar .int64 | .scalar .sfixed32 | .scalar .sfixed64 => true
  | _ => false

/--
`<operand> ? 1u : 0u`.
-/
def truth (e : Elem) (b : Bool) : e.widened.Value :=
  BitVec.ofNat _ b.toNat

def ofPointer (e : Elem) (v : BitVec 64) : Option e.widened.Value :=
  if e = .scalar .bool then some (e.truth (v ≠ 0))
  else if e.casts then some (v.setWidth _)
  else none

/--
The number that the template of an element writes for an operand, if C lets it stand there.
-/
def ofOperand (abi : Abi) (e : Elem) : Operand → Option e.widened.Value
  | .integer v =>
    if e.isReal then some (abi.convert (.integer v) e.widened)
    else if e = .scalar .bool then some (e.truth (v ≠ 0))
    else some (BitVec.ofInt _ v)
  | .float v =>
    if e = .scalar .float then some (v.setWidth _)
    else if e = .scalar .bool then some (e.truth (v <<< 1 ≠ 0))
    else some (abi.convert (.float v) e.widened)
  | .double v =>
    if e = .scalar .double then some (v.setWidth _)
    else if e = .scalar .bool then some (e.truth (v <<< 1 ≠ 0))
    else some (abi.convert (.double v) e.widened)
  | .array address => e.ofPointer address
  | .message target p => e.ofPointer (p.elim 0 (abi.messageAt target))
  | .bytes _ => none

end Elem

section Seen

variable (abi : Abi) (lookup : Spelling → Option Operand)

/--
What the template of an element sees where its own one is `v`.
-/
def Elem.seen (e : Elem) : Reference → Option ((e' : Elem) × (e.Value → e'.Value))
  | .whole => some ⟨e, id⟩
  | .member name => ((lookup name).bind (e.ofOperand abi)).map fun v => ⟨e.widened, fun _ => v⟩
  | .malformed => none

/--
The template of bytes joins the reference with `.len` and with `.data`.
-/
def Slot.seen : (s : Slot) → Reference → Option ((s' : Slot) × (s.Value → s'.Value))
  | .elem e, ref => (e.seen abi lookup ref).map fun seen => ⟨.elem seen.1, seen.2⟩
  | .bytes, .whole => some ⟨.bytes, id⟩
  | .bytes, .member name =>
    match lookup name with
    | some (.bytes v) => some ⟨.bytes, fun _ => v⟩
    | _ => none
  | .bytes, .malformed => none

/--
The template of a message calls the functions of its type, which take no other pointer.
-/
def MapValue.seen : (value : MapValue) → Reference → Option ((value' : MapValue) × (value.Value → value'.Value))
  | .slot s, ref => (s.seen abi lookup ref).map fun seen => ⟨.slot seen.1, seen.2⟩
  | .message target, .whole => some ⟨.message target, id⟩
  | .message target, .member name =>
    match lookup name with
    | some (.message target' p) => if target' = target then some ⟨.message target, fun _ => p⟩ else none
    | _ => none
  | .message _, .malformed => none

/--
What the templates of a field see where its value is `v`. `m->f[0]`, which stands for the only element of an
array, is read like `m->f[_i]`, as `readReference_first` states.
-/
def Family.seen (fname : Spelling) : (f : Family) → f.Value → Option ((f' : Family) × f'.Value)
  | .repScalar e packing, vs =>
    (e.seen abi lookup (readReference fname "[_i]".toList)).map fun seen =>
      ⟨.repScalar seen.1 packing, vs.map seen.2⟩
  | .map key value, es =>
    (key.seen abi lookup (readReference fname "[_i].key".toList)).bind fun seenKey =>
      (value.seen abi lookup (readReference fname "[_i].value".toList)).map fun seenValue =>
        ⟨.map seenKey.1 seenValue.1, es.map (Prod.map seenKey.2 seenValue.2)⟩
  | f, v => some ⟨f, v⟩

end Seen

/-! The members of the writer struct. -/

def Family.count : (f : Family) → f.Value → Option Nat
  | .repScalar _ _, vs => some vs.length
  | .repBytes, vs => some vs.length
  | .repMsg _, ps => some ps.length
  | .map _ _, es => some es.length
  | _, _ => none

def Family.operand (address : BitVec 64) : (f : Family) → f.Value → Operand
  | .scalar e _, v => e.operand v
  | .bytes _, v => .bytes v
  | .msgRef target, p => .message target p
  | _, _ => .array address

/--
The members of a field: its value, and the count of an array.
-/
def Family.members (fname : Spelling) (address : BitVec 64) (f : Family) (v : f.Value)
    : List (Spelling × Operand) :=
  (fname, f.operand address v)
    :: (f.count v).toList.map fun n => (fname ++ "_count".toList, .integer (BitVec.ofNat 64 n).toNat)

variable {S : Schema}

abbrev FieldNames (S : Schema) := (t : MsgId) → Fin (S t).length → Spelling

/--
The members of a message. `_size` is not among them: no reference is cut to a name that is that short.
-/
def Struct.members (abi : Abi) (names : FieldNames S) (t : MsgId) (a : Addr) (m : Struct S t)
    : List (Spelling × Operand) :=
  (List.finRange (S t).length).flatMap fun i =>
    (S.field t i).family.members (names t i) (abi.arrayAt t a i) (m i)

/--
What the templates see of all messages, unless C accepts no code that sees it.
-/
abbrev Seen (S : Schema) := (t : MsgId) → Addr → Fin (S t).length → Option ((f : Family) × f.Value)

def Store.seen (abi : Abi) (names : FieldNames S) (store : Store S) : Seen S := fun t a i =>
  (S.field t i).family.seen abi (fun name => (Struct.members abi names t a (store t a)).lookup name) (names t i)
    (store t a i)

/-! The functions. -/

def messageSizeOf (seen : Seen S) : (fuel : Nat) → MsgId → Addr → SizeM SizeT
  | 0, _, _ => failure
  | fuel + 1, t, a => do
    let s ← (List.finRange (S t).length).foldlM
      (fun s i =>
        match seen t a i with
        | some ⟨f, v⟩ => sizeField (messageSizeOf seen fuel) (S.field t i).index f v s
        | none => failure)
      0
    modify fun cache => cache.set t a s
    return s

def encodeAtOf (seen : Seen S) : (fuel : Nat) → MsgId → Addr → Emitter Encoder
  | 0, _, _ => fun _ => failure
  | fuel + 1, t, a => fun off =>
    (List.finRange (S t).length).foldlM
      (fun off i =>
        match seen t a i with
        | some ⟨f, v⟩ =>
          encodeField (messageSizeOf seen fuel) (encodeAtOf seen fuel) (S.field t i).index f v off
        | none => failure)
      off

def writtenBytesOf (seen : Seen S) (fuel : Nat) (t : MsgId) (a : Addr) (cache : Cache) (buf : Mem) (off : Nat)
    : Option (List UInt8) := do
  let (_, cache) ← messageSizeOf seen fuel t a cache
  let (stop, st) ← encodeAtOf seen fuel t a off ⟨buf, cache⟩
  return st.buf.read off (stop - off)

/-! Names that leave room for the references. -/

def Family.Fits (fname : Spelling) : Family → Prop
  | .repScalar _ _ => fname.length ≤ 120
  | .map _ _ => fname.length ≤ 114
  | _ => True

def NamesFit (names : FieldNames S) : Prop :=
  ∀ t i, (S.field t i).family.Fits (names t i)

theorem readReference_eq_whole_iff {fname suffix : Spelling}
    : readReference fname suffix = .whole ↔ fname.length + suffix.length ≤ 124 := by
  have hiff : reference fname suffix = "m->".toList ++ fname ++ suffix ↔ fname.length + suffix.length ≤ 124 := by
    rw [reference, List.take_eq_self_iff]
    simp only [List.length_append, String.length_toList]
    have : "m->".length = 3 := rfl
    omega
  rw [← hiff]
  unfold readReference
  dsimp only
  split
  . next hwhole => simp [hwhole]
  . next hcut =>
    simp only [hcut, iff_false]
    split <;> simp

/--
A reference that is cut behind the name has an open bracket, or names an entry or no part of it.
-/
theorem readReference_of_bracket {fname suffix : Spelling} (hfname : fname.length < 124)
    (hlong : 124 < fname.length + suffix.length) (hsuffix : suffix.head? = some '[')
    : readReference fname suffix = .malformed := by
  have hcut : reference fname suffix ≠ "m->".toList ++ fname ++ suffix := by
    rw [reference, ne_eq, List.take_eq_self_iff]
    simp only [List.length_append, String.length_toList]
    have : "m->".length = 3 := rfl
    omega
  have hmem : '[' ∈ (reference fname suffix).drop 3 := by
    obtain ⟨rest, rfl⟩ := List.head?_eq_some_iff.mp hsuffix
    obtain ⟨k, hk⟩ : ∃ k, 124 = fname.length + (k + 1) := ⟨123 - fname.length, by omega⟩
    have heq : (reference fname ('[' :: rest)).drop 3 = fname ++ '[' :: rest.take k := by
      rw [reference, List.append_assoc, List.drop_take]
      show List.take 124 (fname ++ '[' :: rest) = _
      rw [hk, List.take_length_add_append, List.take_succ_cons]
    rw [heq]
    simp
  unfold readReference
  dsimp only
  rw [if_neg hcut, if_neg]
  intro hall
  rw [List.all_eq_true] at hall
  exact absurd (hall '[' hmem) (by decide)

theorem reference_of_long {fname : Spelling} (hfname : 124 ≤ fname.length) (suffix : Spelling)
    : reference fname suffix = "m->".toList ++ fname.take 124 := by
  rw [reference, List.append_assoc, List.take_append]
  show "m->".toList ++ List.take 124 (fname ++ suffix) = _
  rw [List.take_append_of_le_length hfname]

/--
What stands for the only element is read like what stands for each one, where this is an expression.
-/
theorem readReference_first {fname : Spelling} (h : readReference fname "[_i]".toList ≠ .malformed)
    : readReference fname "[0]".toList = readReference fname "[_i]".toList := by
  by_cases hfits : fname.length ≤ 120
  . rw [readReference_eq_whole_iff.mpr (by simpa using by omega),
      readReference_eq_whole_iff.mpr (by simpa using by omega)]
  . by_cases hlong : fname.length < 124
    . exact absurd (readReference_of_bracket hlong (by simpa using by omega) rfl) h
    . have hcut (suffix : Spelling) (hsuffix : suffix ≠ [])
          : "m->".toList ++ fname.take 124 ≠ "m->".toList ++ fname ++ suffix := by
        intro heq
        have := congrArg List.length heq
        have := List.length_pos_of_ne_nil hsuffix
        simp only [List.length_append, List.length_take] at *
        omega
      unfold readReference
      dsimp only
      rw [reference_of_long (by omega), reference_of_long (by omega), if_neg (hcut _ (by decide)),
        if_neg (hcut _ (by decide))]

theorem Family.seen_of_fits {abi : Abi} {lookup : Spelling → Option Operand} {fname : Spelling} {f : Family}
    (h : f.Fits fname) (v : f.Value) : f.seen abi lookup fname v = some ⟨f, v⟩ := by
  have hslot (s : Slot) : s.seen abi lookup .whole = some ⟨s, id⟩ := by cases s <;> rfl
  have hvalue (value : MapValue) : value.seen abi lookup .whole = some ⟨value, id⟩ := by
    cases value with
    | slot s => rw [MapValue.seen, hslot, Option.map_some]
    | message target => rfl
  cases f with
  | repScalar e packing =>
    have hwhole : readReference fname "[_i]".toList = .whole :=
      readReference_eq_whole_iff.mpr (Nat.add_le_add_right h 4)
    rw [Family.seen, hwhole, Elem.seen, Option.map_some, List.map_id]
  | map key value =>
    have hkey : readReference fname "[_i].key".toList = .whole :=
      readReference_eq_whole_iff.mpr (Nat.le_trans (Nat.add_le_add_right h 8) (by decide))
    have hvalue' : readReference fname "[_i].value".toList = .whole :=
      readReference_eq_whole_iff.mpr (Nat.add_le_add_right h 10)
    rw [Family.seen, hkey, hvalue', hslot, hvalue, Option.bind_some, Option.map_some, Prod.map_id, List.map_id]
  | scalar | bytes | msgRef | repBytes | repMsg => rfl

section Fits

variable {store : Store S} {seen : Seen S} (h : ∀ t a i, seen t a i = some ⟨(S.field t i).family, store t a i⟩)

include h

theorem messageSizeOf_of_fits (fuel : Nat) : messageSizeOf seen fuel = messageSize store fuel := by
  induction fuel with
  | zero => rfl
  | succ fuel ih =>
    funext t a
    simp only [messageSizeOf, messageSize, h, ih]

theorem encodeAtOf_of_fits (fuel : Nat) : encodeAtOf seen fuel = encodeAt store fuel := by
  induction fuel with
  | zero => rfl
  | succ fuel ih =>
    funext t a off
    simp only [encodeAtOf, encodeAt, h, ih, messageSizeOf_of_fits h]

theorem writtenBytesOf_of_fits (fuel : Nat) (t : MsgId) (a : Addr) (cache : Cache) (buf : Mem) (off : Nat)
    : writtenBytesOf seen fuel t a cache buf off = writtenBytes store fuel t a cache buf off := by
  rw [writtenBytesOf, writtenBytes, messageSizeOf_of_fits h, encodeAtOf_of_fits h]

end Fits

theorem seen_of_namesFit {names : FieldNames S} (h : NamesFit names) (abi : Abi) (store : Store S) (t : MsgId)
    (a : Addr) (i : Fin (S t).length) : store.seen abi names t a i = some ⟨(S.field t i).family, store t a i⟩ :=
  Family.seen_of_fits (h t i) _

end Gremlin
