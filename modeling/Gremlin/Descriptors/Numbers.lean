import Gremlin.Descriptors.Fields

/-!
This module contains what field numbers the parser accepts and which of them the 32-bit tag constants
can tell apart.
-/

namespace Gremlin

open Text Parser

def Accepted (n : Int) : Prop :=
  1 ≤ n ∧ n < 2 ^ 31

theorem parseFieldNumber_accepted : Ensures parseFieldNumber fun _ => Accepted := by
  apply ensures_andThen (backward_const Accepted)
  intro n
  split
  . exact ensures_fail _ _
  . next h => exact ensures_succeed fun _ => ⟨by omega, by omega⟩

section Entries

variable [Libc]

theorem fieldParse_accepted : Ensures fieldParse fun _ parsed => Accepted parsed.index := by
  apply Ensures.restoring
  have hback := backward_const fun parsed : FieldParseResult => Accepted parsed.index
  refine ensures_andThen hback _ fun _ => ensures_andThen hback _ fun _ => ensures_andThen hback _
    fun _ => ensures_andThen hback _ fun _ => ensures_andThen hback _ fun _ => ensures_andThen hback _
    fun _ => ensures_andThen hback _ fun _ => ?_
  apply parseFieldNumber_accepted.andThen
  intro n hn
  refine ensures_andThen hback _ fun _ => ensures_andThen hback _ fun _ => ensures_andThen hback _
    fun _ => ?_
  exact ensures_succeed fun _ => hn

theorem oneofFieldParse_accepted : Ensures oneofFieldParse fun _ parsed => Accepted parsed.index := by
  apply Ensures.restoring
  have hback := backward_const fun parsed : OneofFieldParseResult => Accepted parsed.index
  refine ensures_andThen hback _ fun _ => ensures_andThen hback _ fun _ => ensures_andThen hback _
    fun _ => ensures_andThen hback _ fun _ => ensures_andThen hback _ fun _ => ensures_andThen hback _
    fun _ => ?_
  apply parseFieldNumber_accepted.andThen
  intro n hn
  refine ensures_andThen hback _ fun _ => ensures_andThen hback _ fun _ => ensures_andThen hback _
    fun _ => ?_
  exact ensures_succeed fun _ => hn

theorem buildFile_accepted {text : Span} {offset : Nat} {file : FileNode}
    (h : buildFile text offset = .ok file) : ∀ m ∈ file.messages, ∀ fld ∈ m.fields, Accepted fld.parsed.index :=
  buildFile_fields fieldParse_accepted oneofFieldParse_accepted h

end Entries

/--
A tag constant of a field: `((uint32_t)f->parsed.index << 3) | wire_type`.
-/
def FieldNode.tag (f : FieldNode) (wt : WireType) : BitVec 32 :=
  packTag f.parsed.index.toNat wt

/--
The tag constants identify the fields of a message.
-/
structure TagsIdentify (fields : List FieldNode) : Prop where
  distinct : ∀ f ∈ fields, ∀ g ∈ fields, f.parsed.index ≠ g.parsed.index → ∀ wt wt', f.tag wt ≠ g.tag wt'
  number : ∀ f ∈ fields, ∀ wt, (((f.tag wt).toNat / 8 : Nat) : Int) = f.parsed.index
  wireType : ∀ f ∈ fields, ∀ wt, (f.tag wt).toNat % 8 = wt.toNat
  nonzero : ∀ f ∈ fields, ∀ wt, (f.tag wt).toNat / 8 ≠ 0

/--
Tag constants identify the fields of a message exactly if their numbers fit above the wire type.
-/
theorem tagsIdentify_iff [Libc] {text : Span} {offset : Nat} {file : FileNode}
    (h : buildFile text offset = .ok file)
    : ∀ m ∈ file.messages, TagsIdentify m.fields ↔ ∀ f ∈ m.fields, f.parsed.index < 2 ^ 29 := by
  intro m hm
  have haccepted := buildFile_accepted h m hm
  constructor
  . intro htags f hf
    have hnumber := htags.number f hf .varint
    have hlt := (f.tag .varint).isLt
    omega
  . intro hlt
    have hnumber (f : FieldNode) (hf : f ∈ m.fields) (wt : WireType)
        : (((f.tag wt).toNat / 8 : Nat) : Int) = f.parsed.index := by
      have hpos := (haccepted f hf).1
      have hfits := hlt f hf
      rw [FieldNode.tag, packTag_div]
      omega
    refine ⟨?_, hnumber, fun f _ wt => packTag_mod _ wt, ?_⟩
    . intro f hf g hg hne wt wt' heq
      apply hne
      rw [← hnumber f hf wt, heq, hnumber g hg wt']
    . intro f hf wt hzero
      have hpos := (haccepted f hf).1
      have := hnumber f hf wt
      omega

/--
The numbers of the fields of each message that the builder makes of a text.
-/
def numbersOf (text : String) : Option (List (List Int)) :=
  match @buildFile Pool.constLibc text.toList 0 with
  | .ok file => some (file.messages.map fun m => m.fields.map fun f => f.parsed.index)
  | .error _ => none

theorem exists_numbered {text : String} {numbers : List (List Int)} (h : numbersOf text = some numbers)
    : ∃ file, @buildFile Pool.constLibc text.toList 0 = .ok file
        ∧ file.messages.map (fun m => m.fields.map fun f => f.parsed.index) = numbers := by
  unfold numbersOf at h
  split at h
  . next file hfile => exact ⟨file, hfile, Option.some_inj.mp h⟩
  . simp at h

theorem smallNumbers_tagsIdentify_iff
    : ∃ file, @buildFile Pool.constLibc
          "message M{int32 a=1;message N{bool b=7;}/*c*/oneof o{int32 c=536870911;}}".toList 0 = .ok file
        ∧ file.messages.map (fun m => m.fields.map fun f => f.parsed.index) = [[1, 536870911], [7]]
        ∧ ∀ m ∈ file.messages, TagsIdentify m.fields ↔ ∀ f ∈ m.fields, f.parsed.index < 2 ^ 29 := by
  have hnumbers : numbersOf "message M{int32 a=1;message N{bool b=7;}/*c*/oneof o{int32 c=536870911;}}"
      = some [[1, 536870911], [7]] := by
    decide +kernel
  obtain ⟨file, hfile, hmessages⟩ := exists_numbered hnumbers
  exact ⟨file, hfile, hmessages, @tagsIdentify_iff Pool.constLibc _ _ _ hfile⟩

/--
The tags of number 2^29 say that the number is zero.
-/
theorem largeNumber_not_tagsIdentify
    : ∃ file, @buildFile Pool.constLibc "message M{int32 a=536870912;}".toList 0 = .ok file
        ∧ ∃ m ∈ file.messages, ¬TagsIdentify m.fields := by
  obtain ⟨file, hfile, hmessages⟩ :=
    exists_numbered (by decide +kernel : numbersOf "message M{int32 a=536870912;}" = some [[536870912]])
  obtain ⟨m, rest, heq, hm, -⟩ := List.map_eq_cons_iff.mp hmessages
  obtain ⟨f, rest', heq', hindex, -⟩ := List.map_eq_cons_iff.mp hm
  refine ⟨file, hfile, m, by simp [heq], ?_⟩
  intro htags
  apply htags.nonzero f (by simp [heq']) .varint
  rw [FieldNode.tag, hindex]
  decide

end Gremlin
