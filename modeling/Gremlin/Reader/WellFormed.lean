import Gremlin.Grammar
import Gremlin.Runtime.Values
import Gremlin.Reader.View

/-!
This module contains the relation between the grammar of messages and what the reader takes for a
record: a record of the grammar is skipped as a whole.
-/

namespace Gremlin

open Codec

theorem IsData.value {wt : WireType} {body : List UInt8} (h : IsData wt body) : Value wt body := by
  cases h with
  | varint h hle => exact .varint h hle
  | fixed64 h => exact .fixed64 h
  | fixed32 h => exact .fixed32 h
  | lenPrefix h hle hlen hlt =>
    apply Value.lenPrefix h hle
    rw [hlen, Nat.mod_eq_of_lt hlt]

theorem IsData.not_group {wt : WireType} {body : List UInt8} (h : IsData wt body)
    : wt ≠ .sgroup ∧ wt ≠ .egroup := by
  cases h <;> decide

theorem IsData.skipFlat {wt : WireType} {body : List UInt8} (h : IsData wt body)
    : skipFlat wt body = .ok ((), body.length) :=
  h.value.skipFlat h.not_group.1

theorem IsTag.varintDecode {num : Nat} {wt : WireType} {head : List UInt8} (h : IsTag num wt head)
    (tail : List UInt8)
    : ∃ t, varintDecode (head ++ tail) = .ok (t, head.length)
        ∧ WireType.ofNat? (t.toNat % 8) = some wt := by
  refine ⟨BitVec.ofNat 64 (varintValue head), ?_, ?_⟩
  . rw [varintDecode_eq_ok_iff]
    exact ⟨head, tail, rfl, h.varint, h.length_le, rfl, rfl⟩
  . have hwt := wt.toNat_lt
    have hlt := h.lt
    have : (8 * num + wt.toNat) % 2 ^ 64 % 8 = wt.toNat := by omega
    rw [BitVec.toNat_ofNat, h.value, this, WireType.ofNat?_toNat]

/--
The loop over a group passes a sequence that is closed, and goes on one level further out.
-/
theorem skipGroup_seq {levels num : Nat} {bs : List UInt8} (h : WireSeq levels (some num) bs)
    (depth : Nat) {fuel m : Nat} {rest : List UInt8} (hdepth : depth + 1 + levels < 2 ^ 32)
    (hrest : skipGroup fuel depth rest = .ok ((), m))
    : ∃ fuel', skipGroup fuel' (depth + 1) (bs ++ rest) = .ok ((), bs.length + m) := by
  generalize hgroup : some num = group at h
  induction h generalizing num depth fuel m rest with
  | nil => simp at hgroup
  | @close levels num' head hhead =>
    obtain ⟨t, ht, hwt⟩ := hhead.varintDecode rest
    refine ⟨fuel + 1, ?_⟩
    rw [skipGroup_succ_eq_ok_iff (by omega)]
    refine ⟨t, head.length, .egroup, m, ht, hwt, rfl, ?_⟩
    simpa using hrest
  | @flat levels num' wt head body tail group hhead hbody hseq ih =>
    obtain ⟨fuel', htail⟩ := ih depth hdepth hrest hgroup
    obtain ⟨t, ht, hwt⟩ := hhead.varintDecode (body ++ tail ++ rest)
    have hskip := LawfulDecoder.append (Gremlin.skipFlat wt) hbody.skipFlat (tail ++ rest)
    have hbind : ((Gremlin.skipFlat wt).bind fun _ => skipGroup fuel' (depth + 1))
        (body ++ (tail ++ rest)) = .ok ((), body.length + (tail.length + m)) := by
      rw [Decoder.bind_eq_ok_iff]
      refine ⟨(), _, _, hskip, ?_, rfl⟩
      rwa [List.drop_left]
    refine ⟨fuel' + 1, ?_⟩
    rw [skipGroup_succ_eq_ok_iff (by omega)]
    refine ⟨t, head.length, wt, body.length + (tail.length + m), ?_, hwt, ?_, ?_⟩
    . simpa using ht
    . simp only [List.length_append]
      omega
    . have hnot := hbody.not_group
      rw [List.append_assoc, List.drop_left, List.append_assoc]
      split
      . exact absurd rfl hnot.1
      . exact absurd rfl hnot.2
      . exact hbind
  | @group levels num' head body tail group hhead hbody hseq ihbody ihseq =>
    obtain ⟨fuel₁, htail⟩ := ihseq depth hdepth hrest hgroup
    obtain ⟨fuel₂, hinner⟩ := ihbody (depth + 1) (by omega) htail rfl
    obtain ⟨t, ht, hwt⟩ := hhead.varintDecode (body ++ tail ++ rest)
    have hwrap : (depth + 1 + 1) % 2 ^ 32 = depth + 1 + 1 := by omega
    refine ⟨fuel₂ + 1, ?_⟩
    rw [skipGroup_succ_eq_ok_iff (by omega)]
    refine ⟨t, head.length, .sgroup, body.length + (tail.length + m), ?_, hwt, ?_, ?_⟩
    . simpa using ht
    . simp only [List.length_append]
      omega
    . rw [List.append_assoc, List.drop_left, List.append_assoc, hwrap]
      exact hinner

namespace Record.WellFormed

variable {levels : Nat} {r : Record}

theorem head_varint (h : r.WellFormed levels) : IsVarint r.head := by
  cases h with
  | flat hhead _ _ => exact hhead.varint
  | group hhead _ _ _ => exact hhead.varint

theorem num_pos (h : r.WellFormed levels) : r.tag.toNat / 8 ≠ 0 := by
  have hpack {num : Nat} {wt : WireType} (hhead : IsTag num wt r.head) (htag : r.tag = packTag num wt)
      : r.tag.toNat / 8 ≠ 0 := by
    have hpos := hhead.pos
    have hlt := hhead.lt
    rw [htag, packTag_div]
    omega
  cases h with
  | flat hhead htag _ => exact hpack hhead htag
  | group hhead htag _ _ => exact hpack hhead htag

/--
A record whose tag is short enough and whose groups are not too deep is read as one record.
-/
theorem valid (h : r.WellFormed levels) (hlevels : levels < 2 ^ 32) (hshort : r.head.length ≤ 5)
    : r.Valid := by
  have hhead {num : Nat} {wt : WireType} (hhead : IsTag num wt r.head) (htag : r.tag = packTag num wt)
      : varint32Decode r.head = .ok (r.tag, r.head.length) := by
    rw [varint32Decode_eq_ok_iff]
    refine ⟨r.head, [], by simp, hhead.varint, hshort, rfl, ?_⟩
    apply BitVec.eq_of_toNat_eq
    have hlt := hhead.lt
    have hwt := wt.toNat_lt
    rw [htag, packTag_toNat, BitVec.toNat_ofNat, hhead.value]
    omega
  cases h with
  | @flat num wt htag heq hbody =>
    refine ⟨hhead htag heq, wt, ?_, ?_⟩
    . rw [heq, packTag_wireType]
    . rw [skipData_of_ne_sgroup hbody.not_group.1]
      exact hbody.skipFlat
  | @group num inner htag heq hbody hinner =>
    refine ⟨hhead htag heq, .sgroup, ?_, ?_⟩
    . rw [heq, packTag_wireType]
    . rw [skipData_sgroup_eq_ok_iff]
      have hdone : skipGroup 1 0 [] = .ok ((), 0) := rfl
      have := skipGroup_seq hbody 0 (by omega) hdone
      simpa using this

end Record.WellFormed

end Gremlin
