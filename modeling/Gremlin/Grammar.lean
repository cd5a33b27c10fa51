import Gremlin.Wire

/-!
This module contains the grammar of wire messages, apart from how they are read: which bytes are a
sequence of records, with groups in them to any depth.
-/

namespace Gremlin

open Codec

/--
The bytes of a tag: a varint that denotes a field number and a wire type.
-/
structure IsTag (num : Nat) (wt : WireType) (head : List UInt8) : Prop where
  varint : IsVarint head
  length_le : head.length ≤ 10
  value : varintValue head = 8 * num + wt.toNat
  pos : 1 ≤ num
  lt : num < 2 ^ 29

/--
The bytes of a value of a wire type that is no group mark.
-/
inductive IsData : WireType → List UInt8 → Prop where
  | varint {bs : List UInt8} (h : IsVarint bs) (hle : bs.length ≤ 10) : IsData .varint bs
  | fixed64 {bs : List UInt8} (h : bs.length = 8) : IsData .fixed64 bs
  | fixed32 {bs : List UInt8} (h : bs.length = 4) : IsData .fixed32 bs
  | lenPrefix {len content : List UInt8} (h : IsVarint len) (hle : len.length ≤ 10)
      (hlen : varintValue len = content.length) (hlt : content.length < 2 ^ 64)
      : IsData .lenPrefix (len ++ content)

/--
A sequence of records with at most `levels` groups around each other. It is a whole message for
`none`, and for `some num` what follows the start tag of group `num`, up to the end tag.
-/
inductive WireSeq : (levels : Nat) → (group : Option Nat) → List UInt8 → Prop where
  | nil {levels : Nat} : WireSeq levels none []
  | close {levels num : Nat} {head : List UInt8} (hhead : IsTag num .egroup head)
      : WireSeq levels (some num) head
  | flat {levels num : Nat} {wt : WireType} {head body rest : List UInt8} {group : Option Nat}
      (hhead : IsTag num wt head) (hbody : IsData wt body) (hrest : WireSeq levels group rest)
      : WireSeq levels group (head ++ (body ++ rest))
  | group {levels num : Nat} {head body rest : List UInt8} {group : Option Nat}
      (hhead : IsTag num .sgroup head) (hbody : WireSeq levels (some num) body)
      (hrest : WireSeq (levels + 1) group rest)
      : WireSeq (levels + 1) group (head ++ (body ++ rest))

/--
A record by this grammar. Its data is a value, or the inside of a group with its end tag.
-/
inductive Record.WellFormed (levels : Nat) (r : Record) : Prop where
  | flat {num : Nat} {wt : WireType} (hhead : IsTag num wt r.head) (htag : r.tag = packTag num wt)
      (hbody : IsData wt r.body)
  | group {num inner : Nat} (hhead : IsTag num .sgroup r.head) (htag : r.tag = packTag num .sgroup)
      (hbody : WireSeq inner (some num) r.body) (hlevels : inner < levels)

theorem IsTag.head_pos {num : Nat} {wt : WireType} {head : List UInt8} (h : IsTag num wt head)
    : 0 < head.length :=
  h.varint.length_pos

theorem WireSeq.mono {l levels : Nat} {group : Option Nat} {bs : List UInt8}
    (h : WireSeq l group bs) (hle : l ≤ levels)
    : WireSeq levels group bs := by
  induction h generalizing levels with
  | nil => exact nil
  | close hhead => exact close hhead
  | flat hhead hbody _ ih => exact flat hhead hbody (ih hle)
  | group hhead _ _ ihbody ihrest =>
    cases levels with
    | zero => omega
    | succ levels => exact .group hhead (ihbody (by omega)) (ihrest hle)

theorem WireSeq.exists_le_length {levels : Nat} {group : Option Nat} {bs : List UInt8}
    (h : WireSeq levels group bs)
    : ∃ l, l ≤ bs.length ∧ WireSeq l group bs := by
  induction h with
  | nil => exact ⟨0, by simp, nil⟩
  | close hhead => exact ⟨0, by simp, close hhead⟩
  | flat hhead hbody _ ih =>
    obtain ⟨l, hle, hrest⟩ := ih
    refine ⟨l, ?_, flat hhead hbody hrest⟩
    simp only [List.length_append]
    omega
  | group hhead _ _ ihbody ihrest =>
    obtain ⟨l₁, hle₁, hbody⟩ := ihbody
    obtain ⟨l₂, hle₂, hrest⟩ := ihrest
    have hpos := hhead.head_pos
    refine ⟨max l₁ l₂ + 1, ?_, .group hhead (hbody.mono (by omega)) (hrest.mono (by omega))⟩
    simp only [List.length_append]
    omega

theorem Record.WellFormed.mono {l levels : Nat} {r : Record} (h : r.WellFormed l) (hle : l ≤ levels)
    : r.WellFormed levels := by
  cases h with
  | flat hhead htag hbody => exact .flat hhead htag hbody
  | group hhead htag hbody hlevels => exact .group hhead htag hbody (by omega)

theorem Record.WellFormed.exists_le_length {levels : Nat} {r : Record} (h : r.WellFormed levels)
    : r.WellFormed r.bytes.length := by
  cases h with
  | flat hhead htag hbody => exact .flat hhead htag hbody
  | group hhead htag hbody hlevels =>
    obtain ⟨l, hle, hbody⟩ := hbody.exists_le_length
    have hpos := hhead.head_pos
    apply Record.WellFormed.group hhead htag hbody
    rw [Record.length_bytes]
    omega

theorem WireSeq.append_record {levels : Nat} {r : Record} {rest : List UInt8}
    {group : Option Nat} (hr : r.WellFormed levels) (hrest : WireSeq levels group rest)
    : WireSeq levels group (r.bytes ++ rest) := by
  rw [Record.bytes, List.append_assoc]
  cases hr with
  | flat hhead htag hbody => exact flat hhead hbody hrest
  | @group num inner hhead htag hbody hlevels =>
    cases levels with
    | zero => omega
    | succ levels => exact WireSeq.group hhead (hbody.mono (by omega)) hrest

theorem WireSeq.exists_records {levels : Nat} {bs : List UInt8} (h : WireSeq levels none bs)
    : ∃ rs, (∀ r ∈ rs, Record.WellFormed levels r) ∧ bs = Record.concat rs := by
  generalize hgroup : (none : Option Nat) = group at h
  induction h with
  | nil => exact ⟨[], by simp, rfl⟩
  | close => simp at hgroup
  | @flat levels num wt head body rest group hhead hbody hrest ih =>
    obtain ⟨rs, hrs, rfl⟩ := ih hgroup
    refine ⟨⟨packTag num wt, head, body⟩ :: rs, ?_, by simp [Record.bytes]⟩
    intro r hr
    rw [List.mem_cons] at hr
    rcases hr with rfl | hr
    . exact .flat hhead rfl hbody
    . exact hrs r hr
  | @group levels num head body rest group hhead hbody hrest _ ih =>
    obtain ⟨rs, hrs, rfl⟩ := ih hgroup
    refine ⟨⟨packTag num .sgroup, head, body⟩ :: rs, ?_, by simp [Record.bytes]⟩
    intro r hr
    rw [List.mem_cons] at hr
    rcases hr with rfl | hr
    . exact .group hhead rfl hbody (by omega)
    . exact hrs r hr

end Gremlin
