import Mathlib.Order.Bounds.Basic
import Gremlin.Runtime.Skip

/-!
This module contains the grammar of the values that follow a tag and the relation of
`gremlin_skip_data` to it.
-/

namespace Gremlin

open Codec

/--
A complete value of a wire type. The value of a start-group is all that follows its tag, up to and
including the tag that ends it.
-/
inductive Value : WireType → List UInt8 → Prop where
  | varint {bs : List UInt8} (h : IsVarint bs) (hle : bs.length ≤ 10) : Value .varint bs
  | fixed64 {bs : List UInt8} (h : bs.length = 8) : Value .fixed64 bs
  | fixed32 {bs : List UInt8} (h : bs.length = 4) : Value .fixed32 bs
  | lenPrefix {len content : List UInt8} (h : IsVarint len) (hle : len.length ≤ 10)
      (hlen : content.length = varintValue len % 2 ^ 64) : Value .lenPrefix (len ++ content)
  | close {tag : List UInt8} (h : IsVarint tag) (hle : tag.length ≤ 10)
      (hwt : WireType.ofNat? (varintValue tag % 8) = some .egroup) : Value .sgroup tag
  | field {tag value rest : List UInt8} {wt : WireType} (h : IsVarint tag) (hle : tag.length ≤ 10)
      (hwt : WireType.ofNat? (varintValue tag % 8) = some wt) (hvalue : Value wt value)
      (hrest : Value .sgroup rest) : Value .sgroup (tag ++ (value ++ rest))

theorem not_value_egroup (bs : List UInt8) : ¬Value .egroup bs := by
  intro h
  cases h

section Flat

variable {wt : WireType} {buf value : List UInt8}

theorem Value.skipFlat (h : Value wt value) (hwt : wt ≠ .sgroup) : skipFlat wt value = .ok ((), value.length) := by
  cases h with
  | varint h hle =>
    rw [skipFlat_varint_iff]
    refine ⟨BitVec.ofNat 64 (varintValue value), ?_⟩
    rw [varintDecode_eq_ok_iff]
    exact ⟨value, [], by simp, h, hle, rfl, rfl⟩
  | fixed64 h =>
    rw [skipFlat_fixed64_iff]
    omega
  | fixed32 h =>
    rw [skipFlat_fixed32_iff]
    omega
  | @lenPrefix len content h hle hlen =>
    rw [skipFlat_lenPrefix_iff]
    refine ⟨content, ?_⟩
    unfold bytesDecode
    rw [Decoder.bind_eq_ok_iff]
    refine ⟨BitVec.ofNat 64 (varintValue len), len.length, content.length, ?_, ?_, by simp⟩
    . rw [varintDecode_eq_ok_iff]
      exact ⟨len, content, rfl, h, hle, rfl, rfl⟩
    . rw [Decoder.take_eq_ok_iff, List.drop_left, BitVec.toNat_ofNat, ← hlen]
      exact ⟨Nat.le_refl _, (List.take_length).symm, rfl⟩
  | close | field => exact absurd rfl hwt

theorem value_of_skipFlat {n : Nat} (h : Gremlin.skipFlat wt buf = .ok ((), n)) : Value wt (buf.take n) := by
  cases wt with
  | varint =>
    rw [skipFlat_varint_iff] at h
    obtain ⟨v, hv⟩ := h
    rw [varintDecode_eq_ok_iff] at hv
    obtain ⟨body, tail, rfl, hvarint, hle, rfl, -⟩ := hv
    rw [List.take_left]
    exact .varint hvarint hle
  | fixed64 =>
    rw [skipFlat_fixed64_iff] at h
    obtain ⟨hle, rfl⟩ := h
    exact .fixed64 (by rw [List.length_take]; omega)
  | fixed32 =>
    rw [skipFlat_fixed32_iff] at h
    obtain ⟨hle, rfl⟩ := h
    exact .fixed32 (by rw [List.length_take]; omega)
  | lenPrefix =>
    rw [skipFlat_lenPrefix_iff] at h
    obtain ⟨content, h⟩ := h
    unfold bytesDecode at h
    rw [Decoder.bind_eq_ok_iff] at h
    obtain ⟨v, k, m, hv, htake, rfl⟩ := h
    rw [varintDecode_eq_ok_iff] at hv
    obtain ⟨len, tail, rfl, hvarint, hle, rfl, rfl⟩ := hv
    rw [List.drop_left, Decoder.take_eq_ok_iff, BitVec.toNat_ofNat] at htake
    obtain ⟨hlength, -, rfl⟩ := htake
    rw [List.take_length_add_append]
    apply Value.lenPrefix hvarint hle
    rw [List.length_take]
    omega
  | sgroup | egroup => simp [Gremlin.skipFlat] at h

end Flat

/--
The bytes end so many groups that are open, from the innermost one outwards.
-/
def Closing : (depth : Nat) → List UInt8 → Prop
  | 0, bs => bs = []
  | depth + 1, bs => ∃ as cs, bs = as ++ cs ∧ Value .sgroup as ∧ Closing depth cs

theorem Closing.field {depth : Nat} {tag value rest : List UInt8} {wt : WireType} (h : IsVarint tag)
    (hle : tag.length ≤ 10) (hwt : WireType.ofNat? (varintValue tag % 8) = some wt) (hvalue : Value wt value)
    (hrest : Closing (depth + 1) rest)
    : Closing (depth + 1) (tag ++ (value ++ rest)) := by
  obtain ⟨as, cs, rfl, has, hcs⟩ := hrest
  refine ⟨tag ++ (value ++ as), cs, by simp, ?_, hcs⟩
  exact .field h hle hwt hvalue has

theorem varintDecode_tag {buf : List UInt8} {t : BitVec 64} {k : Nat} {wt : WireType}
    (h : varintDecode buf = .ok (t, k)) (hwt : WireType.ofNat? (t.toNat % 8) = some wt)
    : ∃ tag rest, buf = tag ++ rest ∧ k = tag.length ∧ IsVarint tag ∧ tag.length ≤ 10
        ∧ WireType.ofNat? (varintValue tag % 8) = some wt := by
  rw [varintDecode_eq_ok_iff] at h
  obtain ⟨tag, rest, rfl, htag, hle, rfl, rfl⟩ := h
  have hmod : varintValue tag % 2 ^ 64 % 8 = varintValue tag % 8 := by omega
  rw [BitVec.toNat_ofNat, hmod] at hwt
  exact ⟨tag, rest, rfl, rfl, htag, hle, hwt⟩

theorem varintDecode_of_tag {tag : List UInt8} {wt : WireType} (h : IsVarint tag) (hle : tag.length ≤ 10)
    (hwt : WireType.ofNat? (varintValue tag % 8) = some wt) (rest : List UInt8)
    : ∃ t, varintDecode (tag ++ rest) = .ok (t, tag.length) ∧ WireType.ofNat? (t.toNat % 8) = some wt := by
  refine ⟨BitVec.ofNat 64 (varintValue tag), ?_, ?_⟩
  . rw [varintDecode_eq_ok_iff]
    exact ⟨tag, rest, rfl, h, hle, rfl, rfl⟩
  . have hmod : varintValue tag % 2 ^ 64 % 8 = varintValue tag % 8 := by omega
    rw [BitVec.toNat_ofNat, hmod, hwt]

/--
What the loop passes ends the groups it counts. The counter does not wrap, since every group that is
opened takes a byte.
-/
theorem closing_of_skipGroup {fuel depth n : Nat} {buf : List UInt8}
    (h : skipGroup fuel depth buf = .ok ((), n)) (hlt : depth + buf.length < 2 ^ 32)
    : Closing depth (buf.take n) := by
  induction fuel generalizing depth buf n with
  | zero => simp [skipGroup] at h
  | succ fuel ih =>
    cases depth with
    | zero =>
      simp only [skipGroup, ↓reduceIte, Decoder.pure_eq_ok_iff] at h
      simp [h.2, Closing]
    | succ depth =>
      rw [skipGroup_succ_eq_ok_iff (by omega)] at h
      obtain ⟨t, k, wt, m, ht, hwt, rfl, hrest⟩ := h
      obtain ⟨tag, rest, rfl, rfl, htag, hle, hwt⟩ := varintDecode_tag ht hwt
      have hpos := htag.length_pos
      rw [List.length_append] at hlt
      rw [List.drop_left] at hrest
      rw [List.take_length_add_append]
      cases wt with
      | sgroup =>
        have hwrap : (depth + 1 + 1) % 2 ^ 32 = depth + 1 + 1 := Nat.mod_eq_of_lt (by omega)
        dsimp only at hrest
        rw [hwrap] at hrest
        obtain ⟨as, cs, heq, has, hcs⟩ := ih hrest (by omega)
        rw [heq]
        exact hcs.field htag hle hwt has
      | egroup => exact ⟨tag, rest.take m, rfl, .close htag hle hwt, ih hrest (by omega)⟩
      | varint | fixed64 | lenPrefix | fixed32 =>
        dsimp only at hrest
        rw [Decoder.bind_eq_ok_iff] at hrest
        obtain ⟨_, i, j, hskip, hloop, rfl⟩ := hrest
        have hi := LawfulDecoder.consumed_le hskip
        have hclosing := ih hloop (by rw [List.length_drop]; omega)
        rw [List.take_add]
        exact hclosing.field htag hle hwt (value_of_skipFlat hskip)

theorem Value.skipGroup {wt : WireType} {value : List UInt8} (h : Value wt value) (hwt : wt = .sgroup)
    {fuel depth m : Nat} {rest : List UInt8} (hlt : depth + 1 + value.length < 2 ^ 32)
    (hrest : Gremlin.skipGroup fuel depth rest = .ok ((), m))
    : ∃ fuel', Gremlin.skipGroup fuel' (depth + 1) (value ++ rest) = .ok ((), value.length + m) := by
  induction h generalizing fuel depth m rest with
  | varint | fixed64 | fixed32 | lenPrefix => simp at hwt
  | @close tag h hle htag =>
    obtain ⟨t, ht, htag⟩ := varintDecode_of_tag h hle htag rest
    refine ⟨fuel + 1, ?_⟩
    rw [skipGroup_succ_eq_ok_iff (by omega)]
    refine ⟨t, tag.length, .egroup, m, ht, htag, rfl, ?_⟩
    rwa [List.drop_left]
  | @field tag value tail wt h hle htag hvalue htail ihvalue ihtail =>
    have hpos := h.length_pos
    rw [List.length_append, List.length_append] at hlt
    obtain ⟨fuel₁, houter⟩ := ihtail rfl (by omega) hrest
    obtain ⟨t, ht, htag⟩ := varintDecode_of_tag h hle htag (value ++ tail ++ rest)
    have hround : ∃ fuel', Gremlin.skipGroup (fuel' + 1) (depth + 1) (tag ++ (value ++ tail ++ rest))
        = .ok ((), tag.length + (value.length + (tail.length + m))) := by
      simp only [skipGroup_succ_eq_ok_iff (by omega : depth + 1 ≠ 0)]
      cases wt with
      | sgroup =>
        obtain ⟨fuel₂, hinner⟩ := ihvalue rfl (by omega) houter
        have hwrap : (depth + 1 + 1) % 2 ^ 32 = depth + 1 + 1 := Nat.mod_eq_of_lt (by omega)
        refine ⟨fuel₂, t, tag.length, .sgroup, _, ht, htag, rfl, ?_⟩
        dsimp only
        rwa [List.drop_left, hwrap, List.append_assoc]
      | egroup => exact absurd hvalue (not_value_egroup value)
      | varint | fixed64 | lenPrefix | fixed32 =>
        refine ⟨fuel₁, t, tag.length, _, _, ht, htag, rfl, ?_⟩
        have hskip := LawfulDecoder.append (Gremlin.skipFlat _) (hvalue.skipFlat (by decide)) (tail ++ rest)
        dsimp only
        rw [List.drop_left, List.append_assoc, Decoder.bind_eq_ok_iff]
        refine ⟨(), _, _, hskip, ?_, rfl⟩
        rwa [List.drop_left]
    obtain ⟨fuel', hround⟩ := hround
    refine ⟨fuel' + 1, ?_⟩
    have hlength : (tag ++ (value ++ tail)).length + m = tag.length + (value.length + (tail.length + m)) := by
      simp only [List.length_append]
      omega
    rw [hlength, List.append_assoc]
    exact hround

theorem skipData_eq_ok_iff {buf : List UInt8} (h : buf.length ≤ 2 ^ 31) {wt : WireType} {k : Nat}
    : skipData wt buf = .ok ((), k) ↔ k ≤ buf.length ∧ Value wt (buf.take k) := by
  constructor
  . intro hskip
    refine ⟨LawfulDecoder.consumed_le hskip, ?_⟩
    by_cases hwt : wt = .sgroup
    . subst hwt
      obtain ⟨fuel, hgroup⟩ := skipData_sgroup_eq_ok_iff.mp hskip
      obtain ⟨as, cs, heq, has, rfl⟩ := closing_of_skipGroup hgroup (by omega)
      rwa [heq, List.append_nil]
    . rw [skipData_of_ne_sgroup hwt] at hskip
      exact value_of_skipFlat hskip
  . rintro ⟨hle, hvalue⟩
    have hlength : (buf.take k).length = k := by
      rw [List.length_take]
      omega
    by_cases hwt : wt = .sgroup
    . subst hwt
      have hdone : Gremlin.skipGroup 1 0 (buf.drop k) = .ok ((), 0) := rfl
      have hgroup := hvalue.skipGroup rfl (by omega) hdone
      rw [List.take_append_drop, hlength] at hgroup
      exact skipData_sgroup_eq_ok_iff.mpr hgroup
    . have hflat := LawfulDecoder.append (Gremlin.skipFlat wt) (hvalue.skipFlat hwt) (buf.drop k)
      rwa [List.take_append_drop, hlength, ← skipData_of_ne_sgroup hwt] at hflat

/--
The shortest complete value is skipped.
-/
theorem skipData_exact {buf : List UInt8} (h : buf.length ≤ 2 ^ 31)
    : (∀ wt k, skipData wt buf = .ok ((), k) ↔ IsLeast {n | n ≤ buf.length ∧ Value wt (buf.take n)} k)
        ∧ (∀ k, skipData .egroup buf ≠ .ok ((), k))
        ∧ ∀ wt k, skipData wt buf = .ok ((), k) → k ≤ buf.length := by
  refine ⟨?_, ?_, ?_⟩
  . intro wt k
    constructor
    . intro hskip
      refine ⟨(skipData_eq_ok_iff h).mp hskip, ?_⟩
      intro n hn
      have hskip' := (skipData_eq_ok_iff h).mpr hn
      rw [hskip] at hskip'
      simp only [Except.ok.injEq, Prod.mk.injEq, true_and] at hskip'
      exact Nat.le_of_eq hskip'
    . intro hleast
      exact (skipData_eq_ok_iff h).mpr hleast.1
  . intro k hskip
    exact not_value_egroup _ ((skipData_eq_ok_iff h).mp hskip).2
  . intro wt k hskip
    exact ((skipData_eq_ok_iff h).mp hskip).1

/--
A group in a group, with a byte behind it.
-/
theorem nested_skipData_exact
    : let buf : List UInt8 := [0x0B, 0x08, 0x01, 0x0C, 0x0C, 0x00]
      IsLeast {n | n ≤ buf.length ∧ Value .sgroup (buf.take n)} 5 := by
  intro buf
  have h : buf.length ≤ 2 ^ 31 := by decide
  apply ((skipData_exact h).1 .sgroup 5).mp
  decide +kernel

end Gremlin
