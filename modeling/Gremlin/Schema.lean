import Gremlin.Runtime.Skip

/-!
This module contains the resolved descriptors that code is generated from: the scalar kinds, the
families of fields, messages, and the tag constants the generator computes from them.
-/

namespace Gremlin

open Codec

/--
The built-in numeric types, `enum scalar_kind`.
-/
inductive ScalarKind where
  | int32
  | int64
  | uint32
  | uint64
  | sint32
  | sint64
  | fixed32
  | fixed64
  | sfixed32
  | sfixed64
  | double
  | float
  | bool
  deriving DecidableEq, Repr

namespace ScalarKind

/--
The column `wire_type` of the table `SCALARS`.
-/
def wireType : ScalarKind → WireType
  | .int32 | .int64 | .uint32 | .uint64 | .sint32 | .sint64 | .bool => .varint
  | .fixed32 | .sfixed32 | .float => .fixed32
  | .fixed64 | .sfixed64 | .double => .fixed64

/--
The number of bits of the C type. A `float` or a `double` is its bit pattern.
-/
@[reducible]
def width : ScalarKind → Nat
  | .int32 | .uint32 | .sint32 | .fixed32 | .sfixed32 | .float => 32
  | .int64 | .uint64 | .sint64 | .fixed64 | .sfixed64 | .double => 64
  | .bool => 1

/--
`gremlinc_kind_uses_varint32`.
-/
def usesVarint32 : ScalarKind → Bool
  | .uint32 | .sint32 | .bool => true
  | _ => false

end ScalarKind

/--
What a field, an element of a repeated field or a slot of a map entry holds when it is not
length-delimited: a scalar or the number of an enum.
-/
inductive Elem where
  | scalar (kind : ScalarKind)
  | enum
  deriving DecidableEq, Repr

/--
A NaN is unequal to everything and the two zeros are equal.
-/
def f32Eq (a b : BitVec 32) : Bool :=
  let isNaN (x : BitVec 32) : Bool := x &&& 0x7FFFFFFF#32 > 0x7F800000#32
  !isNaN a && !isNaN b && (a == b || (a <<< 1 == 0#32 && b <<< 1 == 0#32))

def f64Eq (a b : BitVec 64) : Bool :=
  let isNaN (x : BitVec 64) : Bool := x &&& 0x7FFFFFFFFFFFFFFF#64 > 0x7FF0000000000000#64
  !isNaN a && !isNaN b && (a == b || (a <<< 1 == 0#64 && b <<< 1 == 0#64))

namespace Elem

def wireType : Elem → WireType
  | .scalar kind => kind.wireType
  | .enum => .varint

@[reducible]
def width : Elem → Nat
  | .scalar kind => kind.width
  | .enum => 32

abbrev Value (e : Elem) : Type :=
  BitVec e.width

/--
The guard `m->field != default` of a singular field.
-/
def differs : (e : Elem) → (v default : e.Value) → Bool
  | .scalar .float, v, default => !f32Eq v default
  | .scalar .double, v, default => !f64Eq v default
  | _, v, default => v != default

theorem wireType_cases (e : Elem)
    : e.wireType = .varint ∨ e.wireType = .fixed32 ∨ e.wireType = .fixed64 := by
  cases e with
  | enum => exact .inl rfl
  | scalar kind => cases kind <;> simp [wireType, ScalarKind.wireType]

theorem wireType_ne_lenPrefix (e : Elem) : e.wireType ≠ .lenPrefix := by
  rcases e.wireType_cases with h | h | h <;> simp [h]

theorem width_eq_32_of_fixed32 {e : Elem} (h : e.wireType = .fixed32) : e.width = 32 := by
  cases e with
  | enum => simp [wireType] at h
  | scalar kind => cases kind <;> simp [wireType, ScalarKind.wireType] at h <;> rfl

theorem width_eq_64_of_fixed64 {e : Elem} (h : e.wireType = .fixed64) : e.width = 64 := by
  cases e with
  | enum => simp [wireType] at h
  | scalar kind => cases kind <;> simp [wireType, ScalarKind.wireType] at h <;> rfl

end Elem

/--
A key of a map entry, or a value of one that is not a message.
-/
inductive Slot where
  | elem (e : Elem)
  | bytes
  deriving DecidableEq, Repr

namespace Slot

abbrev Value : Slot → Type
  | .elem e => e.Value
  | .bytes => List UInt8

def wireType : Slot → WireType
  | .elem e => e.wireType
  | .bytes => .lenPrefix

/--
`slot_default_literal`.
-/
def default : (s : Slot) → s.Value
  | .elem _ => 0
  | .bytes => []

end Slot

abbrev MsgId := Nat

abbrev Addr := Nat

/--
The value of a map entry.
-/
inductive MapValue where
  | slot (s : Slot)
  | message (target : MsgId)
  deriving DecidableEq, Repr

namespace MapValue

/--
How the writer holds a value: a message by its address, or `NULL`.
-/
abbrev Value : MapValue → Type
  | .slot s => s.Value
  | .message _ => Option Addr

def wireType : MapValue → WireType
  | .slot s => s.wireType
  | .message _ => .lenPrefix

end MapValue

/--
How the elements of a repeated scalar or enum field are written.
-/
inductive Packing where
  | auto
  | packed
  | expanded
  deriving DecidableEq, Repr

/--
The emission families the generator dispatches a field to. A singular scalar, enum or bytes field
carries its default, which is the zero of its type where none is declared.
-/
inductive Family where
  | scalar (e : Elem) (default : e.Value)
  | bytes (default : List UInt8)
  | msgRef (target : MsgId)
  | repScalar (e : Elem) (packing : Packing)
  | repBytes
  | repMsg (target : MsgId)
  | map (key : Slot) (value : MapValue)

/--
How the writer struct holds a field. An array and its count are a list.
-/
abbrev Family.Value : Family → Type
  | .scalar e _ => e.Value
  | .bytes _ => List UInt8
  | .msgRef _ => Option Addr
  | .repScalar e _ => List e.Value
  | .repBytes => List (List UInt8)
  | .repMsg _ => List (Option Addr)
  | .map key value => List (key.Value × value.Value)

/--
A field with its number, `parsed.index`.
-/
structure Field where
  index : Nat
  family : Family

abbrev Message := List Field

abbrev Schema := MsgId → Message

def Schema.field (S : Schema) (t : MsgId) (i : Fin (S t).length) : Field :=
  (S t).get i

/--
A tag constant as the generator computes it, in 32 bits.
-/
def packTag (index : Nat) (wt : WireType) : BitVec 32 :=
  (BitVec.ofNat 32 index <<< 3) ||| BitVec.ofNat 32 wt.toNat

theorem packTag_toNat (index : Nat) (wt : WireType)
    : (packTag index wt).toNat = 8 * (index % 2 ^ 29) + wt.toNat := by
  have hwt := wt.toNat_lt
  unfold packTag
  simp only [BitVec.toNat_or, BitVec.toNat_shiftLeft, BitVec.toNat_ofNat]
  have hshift : (index % 2 ^ 32) <<< 3 % 2 ^ 32 = 2 ^ 3 * (index % 2 ^ 29) := by
    rw [Nat.shiftLeft_eq]
    omega
  rw [hshift, Nat.mod_eq_of_lt (a := wt.toNat) (by omega), ← Nat.two_pow_add_eq_or_of_lt (by omega)]

theorem packTag_mod (index : Nat) (wt : WireType) : (packTag index wt).toNat % 8 = wt.toNat := by
  rw [packTag_toNat]
  have := wt.toNat_lt
  omega

theorem packTag_div (index : Nat) (wt : WireType)
    : (packTag index wt).toNat / 8 = index % 2 ^ 29 := by
  rw [packTag_toNat]
  have := wt.toNat_lt
  omega

theorem packTag_wireType (index : Nat) (wt : WireType)
    : WireType.ofNat? ((packTag index wt).toNat % 8) = some wt := by
  rw [packTag_mod, WireType.ofNat?_toNat]

theorem packTag_inj {index index' : Nat} {wt wt' : WireType} (h : index < 2 ^ 29)
    (h' : index' < 2 ^ 29) (heq : packTag index wt = packTag index' wt')
    : index = index' ∧ wt = wt' := by
  have hdiv := packTag_div index wt
  have hwt := packTag_wireType index wt
  rw [heq, packTag_div] at hdiv
  rw [heq, packTag_wireType] at hwt
  refine ⟨?_, ?_⟩
  . omega
  . simpa using hwt.symm

/-! The values of all the messages a program has built. -/

/--
The fields of a message of type `t`, by their position in the descriptor.
-/
abbrev Struct (S : Schema) (t : MsgId) : Type :=
  (i : Fin (S t).length) → (S.field t i).family.Value

/--
The contents of every message value, by type and address.
-/
abbrev Store (S : Schema) : Type :=
  (t : MsgId) → Addr → Struct S t

def Family.children : (f : Family) → f.Value → List (MsgId × Addr)
  | .msgRef target, p => p.toList.map (target, ·)
  | .repMsg target, ps => ps.filterMap (·.map (target, ·))
  | .map _ (.message target), es => es.filterMap (·.2.map (target, ·))
  | _, _ => []

def children {S : Schema} (store : Store S) (t : MsgId) (a : Addr) : List (MsgId × Addr) :=
  (List.finRange (S t).length).flatMap fun i => (S.field t i).family.children (store t a i)

/--
No pointer path from the message ever comes back to where it has been: every such path ends.
-/
inductive Acyclic {S : Schema} (store : Store S) : MsgId → Addr → Prop where
  | intro {t : MsgId} {a : Addr}
      (h : ∀ target b, (target, b) ∈ children store t a → Acyclic store target b)
      : Acyclic store t a

/--
Every pointer path from the message has fewer than `n` steps.
-/
def Height {S : Schema} (store : Store S) : Nat → MsgId → Addr → Prop
  | 0, _, _ => False
  | n + 1, t, a => ∀ target b, (target, b) ∈ children store t a → Height store n target b

variable {S : Schema} {store : Store S}

theorem Height.mono {m n : Nat} {t : MsgId} {a : Addr} (h : Height store m t a) (hle : m ≤ n)
    : Height store n t a := by
  induction m generalizing n t a with
  | zero => exact h.elim
  | succ m ih =>
    cases n with
    | zero => omega
    | succ n =>
      intro target b hmem
      exact ih (h target b hmem) (by omega)

theorem exists_height_list {cs : List (MsgId × Addr)}
    (h : ∀ target b, (target, b) ∈ cs → ∃ n, Height store n target b)
    : ∃ n, ∀ target b, (target, b) ∈ cs → Height store n target b := by
  induction cs with
  | nil => exact ⟨0, by simp⟩
  | cons c cs ih =>
    obtain ⟨m, hm⟩ := h c.1 c.2 (by simp)
    obtain ⟨n, hn⟩ := ih (fun target b hmem => h target b (by simp [hmem]))
    refine ⟨max m n, ?_⟩
    intro target b hmem
    rw [List.mem_cons] at hmem
    rcases hmem with heq | hmem
    . subst heq
      exact hm.mono (by omega)
    . exact (hn target b hmem).mono (by omega)

theorem Acyclic.exists_height {t : MsgId} {a : Addr} (h : Acyclic store t a)
    : ∃ n, Height store n t a := by
  induction h with
  | intro _ ih =>
    obtain ⟨n, hn⟩ := exists_height_list ih
    exact ⟨n + 1, hn⟩

/--
A bound on the pointer paths of a message all of whose pointer paths end.
-/
noncomputable def Acyclic.height {t : MsgId} {a : Addr} (h : Acyclic store t a) : Nat :=
  h.exists_height.choose

theorem Acyclic.height_spec {t : MsgId} {a : Addr} (h : Acyclic store t a)
    : Height store h.height t a :=
  h.exists_height.choose_spec

theorem Height.acyclic {n : Nat} {t : MsgId} {a : Addr} (h : Height store n t a)
    : Acyclic store t a := by
  induction n generalizing t a with
  | zero => exact h.elim
  | succ n ih =>
    constructor
    intro target b hmem
    exact ih (h target b hmem)

end Gremlin
