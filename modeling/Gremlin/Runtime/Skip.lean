import Gremlin.Runtime.Basic

/-!
This module contains `gremlin_skip_data`, which advances past the data of a field whose tag has
been read.
-/

namespace Gremlin

open Codec

/--
The payloads that need no counter. An end-group tag has no payload: it only closes a group.
-/
def skipFlat : WireType → Decoder UInt8 Error Unit
  | .varint => varintDecode.map fun _ => ()
  | .fixed32 => (Decoder.take 4 .truncated).map fun _ => ()
  | .fixed64 => (Decoder.take 8 .truncated).map fun _ => ()
  | .lenPrefix => bytesDecode.map fun _ => ()
  | .sgroup => Decoder.fail .invalidWireType
  | .egroup => Decoder.fail .invalidWireType

/--
The loop over the fields of a group. `depth` counts the groups that are open in an `unsigned`.
Every round reads a tag, so `fuel` only has to exceed the number of bytes left.
-/
def skipGroup : (fuel : Nat) → (depth : Nat) → Decoder UInt8 Error Unit
  | 0, _ => Decoder.fail .truncated
  | fuel + 1, depth =>
    if depth = 0 then
      Decoder.pure ()
    else
      varintDecode.bind fun t =>
        match WireType.ofNat? (t.toNat % 8) with
        | none => Decoder.fail .invalidWireType
        | some .sgroup => skipGroup fuel ((depth + 1) % 2 ^ 32)
        | some .egroup => skipGroup fuel (depth - 1)
        | some wt => (skipFlat wt).bind fun _ => skipGroup fuel depth

def skipData (wt : WireType) : Decoder UInt8 Error Unit := fun buf =>
  match wt with
  | .sgroup => skipGroup (buf.length + 1) 1 buf
  | wt => skipFlat wt buf

theorem varintDecode_pos {buf : List UInt8} {v : BitVec 64} {n : Nat}
    (h : varintDecode buf = .ok (v, n))
    : 0 < n := by
  rw [varintDecode_eq_ok_iff] at h
  obtain ⟨bs, tail, -, hbs, -, rfl, -⟩ := h
  exact hbs.length_pos

theorem varint32Decode_pos {buf : List UInt8} {v : BitVec 32} {n : Nat}
    (h : varint32Decode buf = .ok (v, n))
    : 0 < n := by
  rw [varint32Decode_eq_ok_iff] at h
  obtain ⟨bs, tail, -, hbs, -, rfl, -⟩ := h
  exact hbs.length_pos

theorem skipFlat_varint_iff {body : List UInt8} {n : Nat}
    : skipFlat .varint body = .ok ((), n) ↔ ∃ v, varintDecode body = .ok (v, n) := by
  unfold skipFlat
  rw [Decoder.map_eq_ok_iff]
  simp

theorem skipFlat_lenPrefix_iff {body : List UInt8} {n : Nat}
    : skipFlat .lenPrefix body = .ok ((), n) ↔ ∃ content, bytesDecode body = .ok (content, n) := by
  unfold skipFlat
  rw [Decoder.map_eq_ok_iff]
  simp

theorem skipFlat_fixed32_iff {body : List UInt8} {n : Nat}
    : skipFlat .fixed32 body = .ok ((), n) ↔ 4 ≤ body.length ∧ n = 4 := by
  unfold skipFlat
  rw [Decoder.map_eq_ok_iff]
  simp [Decoder.take_eq_ok_iff]

theorem skipFlat_fixed64_iff {body : List UInt8} {n : Nat}
    : skipFlat .fixed64 body = .ok ((), n) ↔ 8 ≤ body.length ∧ n = 8 := by
  unfold skipFlat
  rw [Decoder.map_eq_ok_iff]
  simp [Decoder.take_eq_ok_iff]

instance (wt : WireType) : LawfulDecoder (skipFlat wt) := by
  cases wt <;> (unfold skipFlat; infer_instance)

instance skipGroup.lawful (fuel depth : Nat) : LawfulDecoder (skipGroup fuel depth) := by
  induction fuel generalizing depth with
  | zero =>
    unfold skipGroup
    infer_instance
  | succ fuel ih =>
    unfold skipGroup
    split
    . infer_instance
    . have (t : BitVec 64)
          : LawfulDecoder
              (match WireType.ofNat? (t.toNat % 8) with
              | none => Decoder.fail .invalidWireType
              | some .sgroup => skipGroup fuel ((depth + 1) % 2 ^ 32)
              | some .egroup => skipGroup fuel (depth - 1)
              | some wt => (skipFlat wt).bind fun _ => skipGroup fuel depth) := by
        split <;> infer_instance
      infer_instance

theorem skipGroup_succ_eq_ok_iff {fuel depth : Nat} (hdepth : depth ≠ 0) {buf : List UInt8}
    {n : Nat}
    : skipGroup (fuel + 1) depth buf = .ok ((), n)
        ↔
      ∃ t k wt m, varintDecode buf = .ok (t, k) ∧ WireType.ofNat? (t.toNat % 8) = some wt
        ∧ n = k + m
        ∧ match wt with
          | .sgroup => skipGroup fuel ((depth + 1) % 2 ^ 32) (buf.drop k) = .ok ((), m)
          | .egroup => skipGroup fuel (depth - 1) (buf.drop k) = .ok ((), m)
          | wt => ((skipFlat wt).bind fun _ => skipGroup fuel depth) (buf.drop k) = .ok ((), m) := by
  rw [skipGroup]
  simp only [hdepth, ↓reduceIte]
  rw [Decoder.bind_eq_ok_iff]
  constructor
  . rintro ⟨t, k, m, ht, hrest, rfl⟩
    cases hwt : WireType.ofNat? (t.toNat % 8) with
    | none => simp [hwt] at hrest
    | some wt =>
      refine ⟨t, k, wt, m, ht, hwt, rfl, ?_⟩
      cases wt <;> simpa [hwt] using hrest
  . rintro ⟨t, k, wt, m, ht, hwt, rfl, hrest⟩
    refine ⟨t, k, m, ht, ?_, rfl⟩
    cases wt <;> simpa [hwt] using hrest

theorem skipGroup_fuel {fuel fuel' depth : Nat} {buf : List UInt8} {n : Nat}
    (h : skipGroup fuel depth buf = .ok ((), n)) (hn : n < fuel')
    : skipGroup fuel' depth buf = .ok ((), n) := by
  induction fuel generalizing fuel' depth buf n with
  | zero => simp [skipGroup] at h
  | succ fuel ih =>
    cases fuel' with
    | zero => omega
    | succ fuel' =>
      by_cases hdepth : depth = 0
      . simpa [skipGroup, hdepth] using h
      . rw [skipGroup_succ_eq_ok_iff hdepth] at h ⊢
        obtain ⟨t, k, wt, m, ht, hwt, rfl, hrest⟩ := h
        have hk := varintDecode_pos ht
        refine ⟨t, k, wt, m, ht, hwt, rfl, ?_⟩
        cases wt with
        | sgroup => exact ih hrest (by omega)
        | egroup => exact ih hrest (by omega)
        | varint | fixed64 | lenPrefix | fixed32 =>
          dsimp only at hrest ⊢
          rw [Decoder.bind_eq_ok_iff] at hrest ⊢
          obtain ⟨u, i, j, hskip, hloop, rfl⟩ := hrest
          exact ⟨u, i, j, hskip, ih hloop (by omega), rfl⟩

theorem skipData_sgroup_eq_ok_iff {buf : List UInt8} {n : Nat}
    : skipData .sgroup buf = .ok ((), n) ↔ ∃ fuel, skipGroup fuel 1 buf = .ok ((), n) := by
  constructor
  . intro h
    exact ⟨_, h⟩
  . rintro ⟨fuel, h⟩
    have := LawfulDecoder.consumed_le h
    exact skipGroup_fuel h (by omega)

theorem skipData_of_ne_sgroup {wt : WireType} (hwt : wt ≠ .sgroup) (buf : List UInt8)
    : skipData wt buf = skipFlat wt buf := by
  cases wt <;> first | rfl | exact absurd rfl hwt

instance (wt : WireType) : LawfulDecoder (skipData wt) := by
  by_cases hwt : wt = .sgroup
  . subst hwt
    refine ⟨fun h => ?_, fun h tail => ?_⟩
    . rw [skipData_sgroup_eq_ok_iff] at h
      obtain ⟨fuel, h⟩ := h
      exact LawfulDecoder.consumed_le h
    . rw [skipData_sgroup_eq_ok_iff] at h ⊢
      obtain ⟨fuel, h⟩ := h
      exact ⟨fuel, LawfulDecoder.stable h tail⟩
  . rw [funext (skipData_of_ne_sgroup hwt)]
    infer_instance

end Gremlin
