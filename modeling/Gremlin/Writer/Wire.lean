import Gremlin.Wire

/-!
This module contains what a message value is on the wire: one record for each value that is not
elided, in descriptor order, where the length in front of a payload is the length of that payload
by construction.
-/

namespace Gremlin

open Codec

def lenPrefixed (payload : List UInt8) : List UInt8 :=
  varintBytes 9 payload.length ++ payload

namespace Elem

/--
The number whose varint a value is written as.
-/
def toVarint : (e : Elem) → e.Value → BitVec 64
  | .enum, v => v.signExtend 64
  | .scalar .int32, v => v.signExtend 64
  | .scalar .int64, v => v
  | .scalar .uint32, v => v.setWidth 64
  | .scalar .uint64, v => v
  | .scalar .sint32, v => (zigzag32 v).setWidth 64
  | .scalar .sint64, v => zigzag64 v
  | .scalar .bool, v => v.setWidth 64
  | .scalar .fixed32, _ | .scalar .sfixed32, _ | .scalar .float, _ => 0
  | .scalar .fixed64, _ | .scalar .sfixed64, _ | .scalar .double, _ => 0

def code (e : Elem) (v : e.Value) : List UInt8 :=
  match e.wireType with
  | .fixed32 => leBytes 4 v.toNat
  | .fixed64 => leBytes 8 v.toNat
  | _ => varintBytes 9 (e.toVarint v).toNat

end Elem

def Slot.body : (s : Slot) → s.Value → List UInt8
  | .elem e, v => e.code v
  | .bytes, v => lenPrefixed v

def Slot.record (num : Nat) (s : Slot) (v : s.Value) : Record :=
  Record.ofTag (packTag num s.wireType) (s.body v)

section Records

variable (child : MsgId → Addr → List UInt8)

/--
A message pointer is its message, and `NULL` the empty message.
-/
def childPayload (target : MsgId) : Option Addr → List UInt8
  | some p => child target p
  | none => []

@[simp]
theorem childPayload_some (target : MsgId) (p : Addr)
    : childPayload child target (some p) = child target p :=
  rfl

def MapValue.record (num : Nat) : (value : MapValue) → value.Value → Record
  | .slot s, v => s.record num v
  | .message target, p =>
    Record.ofTag (packTag num .lenPrefix) (lenPrefixed (childPayload child target p))

/--
The payload of a map entry: the key as field 1 and the value as field 2.
-/
def entryPayload (key : Slot) (value : MapValue) (e : key.Value × value.Value) : List UInt8 :=
  Record.concat [key.record 1 e.1, value.record child 2 e.2]

end Records

/--
A repeated scalar or enum field with these elements is written as one packed record.
-/
def Packing.isPacked {α : Type} : Packing → List α → Bool
  | .auto, vs => 1 < vs.length
  | .packed, _ => true
  | .expanded, _ => false

def Family.records (child : MsgId → Addr → List UInt8) (index : Nat)
    : (f : Family) → f.Value → List Record
  | .scalar e default, v =>
    if e.differs v default then [Record.ofTag (packTag index e.wireType) (e.code v)] else []
  | .bytes default, v =>
    if v ≠ default then [Record.ofTag (packTag index .lenPrefix) (lenPrefixed v)] else []
  | .msgRef target, p =>
    p.toList.map fun p => Record.ofTag (packTag index .lenPrefix) (lenPrefixed (child target p))
  | .repScalar e packing, vs =>
    if vs = [] then
      []
    else if packing.isPacked vs then
      [Record.ofTag (packTag index .lenPrefix) (lenPrefixed (vs.flatMap e.code))]
    else
      vs.map fun v => Record.ofTag (packTag index e.wireType) (e.code v)
  | .repBytes, vs => vs.map fun v => Record.ofTag (packTag index .lenPrefix) (lenPrefixed v)
  | .repMsg target, ps =>
    ps.map fun p =>
      Record.ofTag (packTag index .lenPrefix) (lenPrefixed (childPayload child target p))
  | .map key value, es =>
    es.map fun e =>
      Record.ofTag (packTag index .lenPrefix) (lenPrefixed (entryPayload child key value e))

/--
The records of a message. `fuel` bounds the depth.
-/
def messageRecords {S : Schema} (store : Store S) : (fuel : Nat) → MsgId → Addr → List Record
  | 0, _, _ => []
  | fuel + 1, t, a =>
    (List.finRange (S t).length).flatMap fun i =>
      (S.field t i).family.records (fun target p => Record.concat (messageRecords store fuel target p))
        (S.field t i).index (store t a i)

def wireBytes {S : Schema} (store : Store S) (fuel : Nat) (t : MsgId) (a : Addr) : List UInt8 :=
  Record.concat (messageRecords store fuel t a)

variable {S : Schema} {store : Store S}

theorem messageRecords_succ (fuel : Nat) (t : MsgId) (a : Addr)
    : messageRecords store (fuel + 1) t a
        =
      (List.finRange (S t).length).flatMap fun i =>
        (S.field t i).family.records (wireBytes store fuel) (S.field t i).index (store t a i) :=
  rfl

theorem Family.records_congr {child child' : MsgId → Addr → List UInt8} (index : Nat) (f : Family)
    (v : f.Value) (h : ∀ target p, (target, p) ∈ f.children v → child target p = child' target p)
    : f.records child index v = f.records child' index v := by
  cases f with
  | scalar e default => rfl
  | bytes default => rfl
  | repScalar e packing => rfl
  | repBytes => rfl
  | msgRef target =>
    cases v with
    | none => rfl
    | some p => simp [Family.records, h target p (by simp [Family.children])]
  | repMsg target =>
    simp only [Family.records]
    apply List.map_congr_left
    intro p hp
    cases p with
    | none => rfl
    | some p =>
      have := h target p (by simp [Family.children, hp])
      simp [childPayload, this]
  | map key value =>
    simp only [Family.records]
    apply List.map_congr_left
    intro e he
    cases value with
    | slot s => rfl
    | message target =>
      obtain ⟨k, p⟩ := e
      cases p with
      | none => rfl
      | some p =>
        have := h target p (by
          simp only [Family.children, List.mem_filterMap]
          exact ⟨(k, some p), he, by simp⟩)
        simp [entryPayload, MapValue.record, childPayload, this]

theorem messageRecords_of_height {m n : Nat} {t : MsgId} {a : Addr} (h : Height store m t a)
    (hle : m ≤ n)
    : messageRecords store n t a = messageRecords store m t a := by
  induction m generalizing n t a with
  | zero => exact h.elim
  | succ m ih =>
    cases n with
    | zero => omega
    | succ n =>
      rw [messageRecords_succ, messageRecords_succ]
      apply List.flatMap_congr
      intro i _
      apply Family.records_congr
      intro target p hmem
      have hchild : (target, p) ∈ children store t a := by
        simp only [children, List.mem_flatMap]
        exact ⟨i, List.mem_finRange i, hmem⟩
      simp only [wireBytes]
      rw [ih (h target p hchild) (by omega)]

theorem wireBytes_of_height {m n : Nat} {t : MsgId} {a : Addr} (h : Height store m t a)
    (hle : m ≤ n)
    : wireBytes store n t a = wireBytes store m t a := by
  simp only [wireBytes, messageRecords_of_height h hle]

/--
The bytes of a message value.
-/
noncomputable def messageBytes {t : MsgId} {a : Addr} (h : Acyclic store t a) : List UInt8 :=
  wireBytes store h.height t a

theorem messageBytes_eq {n : Nat} {t : MsgId} {a : Addr} (h : Acyclic store t a)
    (hn : Height store n t a)
    : messageBytes h = wireBytes store n t a := by
  rw [messageBytes, ← wireBytes_of_height h.height_spec (Nat.le_max_left h.height n),
    wireBytes_of_height hn (Nat.le_max_right h.height n)]

end Gremlin
