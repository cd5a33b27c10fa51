import Gremlin.Reader.Records
import Gremlin.Reader.Iter

/-!
This module contains the three decoders that are generated for a scalar kind, each as its template
has it, and where they agree.
-/

namespace Gremlin

open Codec

/--
`gremlinc_scalar_emit_reader_arm`.
-/
def scalarReaderArm : (kind : ScalarKind) → Decoder UInt8 Error (Elem.Value (.scalar kind))
  | .uint32 => varint32Decode
  | .sint32 => varint32Decode.map fun d => unzigzag32 d
  | .bool => varint32Decode.map fun d => if d ≠ 0 then 1#1 else 0#1
  | .int32 => varintDecode.map fun d => d.setWidth 32
  | .int64 => varintDecode
  | .uint64 => varintDecode
  | .sint64 => varintDecode.map fun d => unzigzag64 d
  | .fixed32 | .sfixed32 | .float => fixed32Decode
  | .fixed64 | .sfixed64 | .double => fixed64Decode

/--
`emit_elem_decode` of an element that is no enum.
-/
def elemDecode : (kind : ScalarKind) → Decoder UInt8 Error (Elem.Value (.scalar kind))
  | .fixed32 | .sfixed32 | .float => fixed32Decode
  | .fixed64 | .sfixed64 | .double => fixed64Decode
  | .int32 => varintDecode.map fun d => d.setWidth 32
  | .int64 => varintDecode
  | .uint32 => varintDecode.map fun d => d.setWidth 32
  | .uint64 => varintDecode
  | .sint32 => varintDecode.map fun d => unzigzag32 (d.setWidth 32)
  | .sint64 => varintDecode.map fun d => unzigzag64 d
  | .bool => varintDecode.map fun d => if d ≠ 0 then 1#1 else 0#1

/--
`emit_slot_decode` of a scalar slot: one case for each kind of slot, and in it the scalar kinds.
-/
def slotDecode (kind : ScalarKind) : Decoder UInt8 Error (Elem.Value (.scalar kind)) :=
  match kind.wireType with
  | .varint =>
    varintDecode.map fun d =>
      match kind with
      | .int32 => d.setWidth 32
      | .int64 => d
      | .uint32 => d.setWidth 32
      | .uint64 => d
      | .sint32 => unzigzag32 (d.setWidth 32)
      | .sint64 => unzigzag64 d
      | .bool => if d ≠ 0 then 1#1 else 0#1
      | _ => 0
  | .fixed32 => fixed32Decode.map fun d => d.setWidth kind.width
  | .fixed64 => fixed64Decode.map fun d => d.setWidth kind.width
  | _ => Decoder.fail .invalidWireType

/-! They are the decoders of the arms and of the iterators. -/

theorem map_setWidth {w : Nat} (d : Decoder UInt8 Error (BitVec w))
    : d.map (fun v => v.setWidth w) = d := by
  have hid : (fun v : BitVec w => v.setWidth w) = fun v => v := by
    funext v
    rw [BitVec.setWidth_eq]
  rw [hid, Decoder.map_id]

theorem scalarReaderArm_eq (kind : ScalarKind) : scalarReaderArm kind = Elem.decodeSingular (.scalar kind) := by
  cases kind with
  | uint32 | sint32 | bool | int32 => rfl
  | int64 | uint64 => exact (Decoder.map_id varintDecode).symm
  | sint64 => rfl
  | fixed32 | sfixed32 | float => exact (map_setWidth fixed32Decode).symm
  | fixed64 | sfixed64 | double => exact (map_setWidth fixed64Decode).symm

theorem elemDecode_eq (kind : ScalarKind) : elemDecode kind = Elem.decode (.scalar kind) := by
  cases kind with
  | int32 | uint32 | sint32 | sint64 | bool => rfl
  | int64 | uint64 => exact (Decoder.map_id varintDecode).symm
  | fixed32 | sfixed32 | float => exact (map_setWidth fixed32Decode).symm
  | fixed64 | sfixed64 | double => exact (map_setWidth fixed64Decode).symm

theorem slotDecode_eq (kind : ScalarKind) : slotDecode kind = Slot.decode (.elem (.scalar kind)) := by
  cases kind <;> rfl

/--
The decoders of a kind accept the input alike: with the same value, or not at all.
-/
structure ReadAlike (kind : ScalarKind) (buf : List UInt8) : Prop where
  elem : (scalarReaderArm kind buf).toOption = (elemDecode kind buf).toOption
  slot : (elemDecode kind buf).toOption = (slotDecode kind buf).toOption

/--
Where the kind has a 32-bit decoder, a varint at the start of the input is one of at most five bytes,
and for a boolean it is zero if its low 32 bits are.
-/
def Fits32 (kind : ScalarKind) (buf : List UInt8) : Prop :=
  kind.usesVarint32 = true →
    ∀ bs tail, buf = bs ++ tail → IsVarint bs → bs.length ≤ 10 →
      bs.length ≤ 5 ∧ (kind = .bool → varintValue bs % 2 ^ 32 = 0 → varintValue bs = 0)

section Alike

variable {α : Type} (f : BitVec 32 → α) (g : BitVec 64 → α)

theorem varintDecode_append {bs : List UInt8} (h : IsVarint bs) (hle : bs.length ≤ 10)
    (tail : List UInt8)
    : varintDecode (bs ++ tail) = .ok (BitVec.ofNat 64 (varintValue bs), bs.length) := by
  rw [varintDecode_eq_ok_iff]
  exact ⟨bs, tail, rfl, h, hle, rfl, rfl⟩

/--
The two varint decoders agree on the varints that both read and that they give the same value.
-/
theorem varint32Decode_alike_iff {buf : List UInt8}
    : (varint32Decode.map f buf).toOption = (varintDecode.map g buf).toOption
        ↔
      ∀ bs tail, buf = bs ++ tail → IsVarint bs → bs.length ≤ 10 →
        bs.length ≤ 5 ∧ f (BitVec.ofNat 32 (varintValue bs)) = g (BitVec.ofNat 64 (varintValue bs)) := by
  have hwide (bs tail : List UInt8) (hbs : IsVarint bs) (hle : bs.length ≤ 10)
      : (varint32Decode.map f (bs ++ tail)).toOption = (varintDecode.map g (bs ++ tail)).toOption
          ↔
        bs.length ≤ 5 ∧ f (BitVec.ofNat 32 (varintValue bs)) = g (BitVec.ofNat 64 (varintValue bs)) := by
    have hlong : varintDecode.map g (bs ++ tail) = .ok (g (BitVec.ofNat 64 (varintValue bs)), bs.length) := by
      rw [Decoder.map_eq_ok_iff]
      exact ⟨_, varintDecode_append hbs hle tail, rfl⟩
    rw [hlong]
    by_cases hshort : bs.length ≤ 5
    . have hread : varint32Decode.map f (bs ++ tail)
          = .ok (f (BitVec.ofNat 32 (varintValue bs)), bs.length) := by
        rw [Decoder.map_eq_ok_iff]
        exact ⟨_, varint32Decode_append hbs hshort tail, rfl⟩
      rw [hread]
      simp [Except.toOption, hshort]
    . have hread : varint32Decode.map f (bs ++ tail) = .error .overflow :=
        Decoder.bind_of_error (varint32Decode_overflow hbs (by omega) tail)
      rw [hread]
      simp [Except.toOption, hshort]
  constructor
  . rintro h bs tail rfl hbs hle
    exact (hwide bs tail hbs hle).mp h
  . intro h
    rcases exists_varint_or_cont 10 buf with ⟨bs, tail, rfl, hbs, hle⟩ | hcont
    . exact (hwide bs tail hbs hle).mpr (h bs tail rfl hbs hle)
    . -- no varint ends within ten bytes, so that neither decoder reads one
      have hshort (x : α × Nat) : varint32Decode.map f buf ≠ .ok x := by
        intro hread
        obtain ⟨v, hv, -⟩ := Decoder.map_eq_ok_iff.mp hread
        obtain ⟨bs, tail, rfl, hbs, hle, -⟩ := varint32Decode_eq_ok_iff.mp hv
        exact hbs.not_cont (by omega) tail hcont
      have hlong (x : α × Nat) : varintDecode.map g buf ≠ .ok x := by
        intro hread
        obtain ⟨v, hv, -⟩ := Decoder.map_eq_ok_iff.mp hread
        obtain ⟨bs, tail, rfl, hbs, hle, -⟩ := varintDecode_eq_ok_iff.mp hv
        exact hbs.not_cont hle tail hcont
      cases hf : varint32Decode.map f buf with
      | ok x => exact absurd hf (hshort x)
      | error e =>
        cases hg : varintDecode.map g buf with
        | ok x => exact absurd hg (hlong x)
        | error e' => rfl

end Alike

theorem bool_alike_iff {v : Nat} (h : v < 2 ^ 64)
    : (if BitVec.ofNat 32 v ≠ 0 then 1#1 else 0#1) = (if BitVec.ofNat 64 v ≠ 0 then 1#1 else 0#1)
        ↔ (v % 2 ^ 32 = 0 → v = 0) := by
  have hlow : BitVec.ofNat 32 v = 0 ↔ v % 2 ^ 32 = 0 := by
    rw [← BitVec.toNat_inj, BitVec.toNat_ofNat]
    rfl
  have hword : BitVec.ofNat 64 v = 0 ↔ v = 0 := by
    rw [← BitVec.toNat_inj, BitVec.toNat_ofNat, Nat.mod_eq_of_lt h]
    rfl
  by_cases hzero : v = 0
  . simp [hzero]
  . have htrue : BitVec.ofNat 64 v ≠ 0 := fun heq => hzero (hword.mp heq)
    rw [if_pos htrue]
    by_cases hmod : v % 2 ^ 32 = 0
    . have hfalse : ¬BitVec.ofNat 32 v ≠ 0 := fun hne => hne (hlow.mpr hmod)
      rw [if_neg hfalse]
      exact iff_of_false (by decide) fun himp => hzero (himp hmod)
    . have htrue' : BitVec.ofNat 32 v ≠ 0 := fun heq => hmod (hlow.mp heq)
      rw [if_pos htrue']
      exact iff_of_true rfl fun hzero => absurd hzero hmod

/--
The decoders of a kind agree on exactly the inputs without a wide varint.
-/
theorem readAlike_iff (kind : ScalarKind) (buf : List UInt8) : ReadAlike kind buf ↔ Fits32 kind buf := by
  have hslot : (elemDecode kind buf).toOption = (slotDecode kind buf).toOption := by
    rw [elemDecode_eq, slotDecode_eq]
    rfl
  have hiff : ReadAlike kind buf ↔ (scalarReaderArm kind buf).toOption = (elemDecode kind buf).toOption :=
    ⟨fun h => h.elem, fun h => ⟨h, hslot⟩⟩
  rw [hiff]
  cases kind with
  | uint32 =>
    have harm : scalarReaderArm .uint32 = varint32Decode.map fun d => d := (Decoder.map_id _).symm
    rw [harm]
    refine (varint32Decode_alike_iff _ _).trans ?_
    simp [Fits32, ScalarKind.usesVarint32]
  | sint32 =>
    refine (varint32Decode_alike_iff _ _).trans ?_
    simp [Fits32, ScalarKind.usesVarint32]
  | bool =>
    refine (varint32Decode_alike_iff _ _).trans ?_
    simp only [Fits32, ScalarKind.usesVarint32, true_implies]
    refine forall_congr' fun bs => forall_congr' fun tail => imp_congr_right fun _ => imp_congr_right
      fun _ => imp_congr_right fun hle => and_congr_right fun hshort => ?_
    apply bool_alike_iff
    have hlt := varintValue_lt bs
    have hpow : 128 ^ bs.length ≤ 128 ^ 5 := Nat.pow_le_pow_right (by omega) hshort
    omega
  | int32 | int64 | uint64 | sint64 | fixed32 | fixed64 | sfixed32 | sfixed64 | double | float =>
    refine iff_of_true ?_ ?_
    . rw [scalarReaderArm_eq, elemDecode_eq]
      rfl
    intro huses
    simp [ScalarKind.usesVarint32] at huses

/--
A padded zero is an error of one decoder only, and a wide number is true for two of three.
-/
theorem not_readAlike
    : ¬ReadAlike .uint32 [0x80, 0x80, 0x80, 0x80, 0x80, 0x00]
        ∧ ¬ReadAlike .bool [0x80, 0x80, 0x80, 0x80, 0x10] := by
  constructor
  . intro h
    have harm : (scalarReaderArm .uint32 [0x80, 0x80, 0x80, 0x80, 0x80, 0x00]).toOption = none := by
      decide +kernel
    have helem : (elemDecode .uint32 [0x80, 0x80, 0x80, 0x80, 0x80, 0x00]).toOption = some (0, 6) := by
      decide +kernel
    have := h.elem
    rw [harm, helem] at this
    simp at this
  . intro h
    have harm : (scalarReaderArm .bool [0x80, 0x80, 0x80, 0x80, 0x10]).toOption = some (0, 5) := by
      decide +kernel
    have helem : (elemDecode .bool [0x80, 0x80, 0x80, 0x80, 0x10]).toOption = some (1, 5) := by
      decide +kernel
    have := h.elem
    rw [harm, helem] at this
    simp at this

end Gremlin
