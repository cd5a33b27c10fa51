import Gremlin.Descriptors.Hints
import Gremlin.Descriptors.Numbers

/-!
This module contains two facts about the files behind the passes: no field that came from an extend block
has a default constant, and the numbers of an enum are those of 32 bits.
-/

namespace Gremlin

open Text Parser

def EnumNumber (n : Int) : Prop :=
  -(2 ^ 31) ≤ n ∧ n < 2 ^ 31

/--
What a field that came from an extend block lacks.
-/
def FieldNode.NoForeignDefault (fld : FieldNode) : Prop :=
  fld.originFile ≠ none → fld.default = none

namespace FileNode

/--
The fields of every message and the values of every enum.
-/
def members (file : FileNode) : List (List FieldNode) × List (List EnumFieldParseResult) :=
  (file.messages.map MessageNode.fields, file.enums.map EnumNode.values)

structure Sound (file : FileNode) : Prop where
  field : ∀ m ∈ file.messages, ∀ fld ∈ m.fields, fld.NoForeignDefault
  value : ∀ en ∈ file.enums, ∀ v ∈ en.values, EnumNumber v.index

theorem sound_iff (file : FileNode)
    : file.Sound ↔ (∀ fields ∈ file.members.1, ∀ fld ∈ fields, fld.NoForeignDefault)
        ∧ ∀ values ∈ file.members.2, ∀ v ∈ values, EnumNumber v.index := by
  unfold members
  rw [List.forall_mem_map, List.forall_mem_map]
  exact ⟨fun h => ⟨h.field, h.value⟩, fun h => ⟨h.1, h.2⟩⟩

theorem Sound.congr {file file' : FileNode} (h : file.Sound) (hmembers : file'.members = file.members)
    : file'.Sound := by
  rw [sound_iff] at h ⊢
  rwa [hmembers]

end FileNode

/-! The builder. -/

theorem parseEnumValueNumber_bounded : Ensures parseEnumValueNumber fun _ => EnumNumber := by
  apply ensures_andThen (backward_const EnumNumber)
  intro n
  split
  . exact ensures_fail _ _
  . next h => exact ensures_succeed fun _ => ⟨by omega, by omega⟩

section Built

variable [Libc] {text : Span}

theorem enumFieldParse_bounded : Ensures enumFieldParse fun _ value => EnumNumber value.index := by
  apply Ensures.restoring
  have hback := backward_const fun value : EnumFieldParseResult => EnumNumber value.index
  refine ensures_andThen hback _ fun _ => ensures_andThen hback _ fun _ => ensures_andThen hback _
    fun _ => ensures_andThen hback _ fun _ => ?_
  apply parseEnumValueNumber_bounded.andThen
  intro n hn
  refine ensures_andThen hback _ fun _ => ensures_andThen hback _ fun _ => ensures_andThen hback _
    fun _ => ?_
  exact ensures_succeed fun _ => hn

theorem enumNextEntry_bounded
    : Ensures enumNextEntry fun _ e => ∀ value, enumValue e = some value → EnumNumber value.index := by
  have hback := backward_const fun e : EnumEntry => ∀ value, enumValue e = some value → EnumNumber value.index
  apply Ensures.restoring
  refine ensures_andThen hback _ fun _ => ?_
  apply Ensures.orElse hback
  . apply ensures_andThen hback
    intro option
    exact ensures_succeed fun _ => by simp [enumValue]
  . apply Ensures.orElse hback
    . apply ensures_andThen hback
      intro reserved
      exact ensures_succeed fun _ => by simp [enumValue]
    . have hfield (b : Buffer) (value : EnumFieldParseResult) (hvalue : EnumNumber value.index)
          : ∀ value', enumValue (.field value) = some value' → EnumNumber value'.index := by
        intro value' heq
        rw [← Option.some_inj.mp heq]
        exact hvalue
      exact Ensures.map enumFieldParse_bounded hfield

theorem valuesOf_bounded {parsed : BodyParseResult} : ∀ value ∈ valuesOf text parsed, EnumNumber value.index := by
  intro value hvalue
  obtain ⟨e, he, hvalue⟩ := List.mem_filterMap.mp hvalue
  apply entries_mem enumNextEntry_bounded _ he value hvalue
  exact backward_const fun e : EnumEntry => ∀ value, enumValue e = some value → EnumNumber value.index

namespace Outline

theorem enums_bounded (o : Outline) (parent : Option Nat) (next : Nat)
    : ∀ en ∈ o.enums text parent next, ∀ value ∈ en.values, EnumNumber value.index := by
  induction o generalizing parent next with
  | nil => simp [enums]
  | entry e rest ih =>
    intro en hen
    rw [enums, List.mem_append, Option.mem_toList, Option.map_eq_some_iff] at hen
    rcases hen with ⟨parsed, -, rfl⟩ | hen
    . exact valuesOf_bounded
    . exact ih _ _ en hen
  | message parsed body rest ihbody ihrest =>
    intro en hen
    rw [enums, List.mem_append] at hen
    rcases hen with hen | hen
    . exact ihbody _ _ en hen
    . exact ihrest _ _ en hen

theorem fields_own (o : Outline) (stop : Nat) : ∀ fld ∈ o.fields text stop, fld.originFile = none := by
  induction o with
  | nil => simp [fields]
  | entry e rest ih =>
    intro fld hfld
    rw [fields, List.mem_append] at hfld
    rcases hfld with hfld | hfld
    . unfold entryFields at hfld
      split at hfld
      . rw [List.mem_singleton.mp hfld]
        rfl
      . obtain ⟨member, -, rfl⟩ := List.mem_map.mp hfld
        rfl
      . simp at hfld
    . exact ih fld hfld
  | message _ _ _ _ ihrest => exact ihrest

theorem messages_own (o : Outline) (parent : Option Nat) (next : Nat)
    : ∀ m ∈ o.messages text parent next, ∀ fld ∈ m.fields, fld.originFile = none := by
  induction o generalizing parent next with
  | nil => simp [messages]
  | entry e rest ih => exact ih parent next
  | message parsed body rest ihbody ihrest =>
    intro m hm
    rw [messages, List.mem_cons, List.mem_append] at hm
    rcases hm with rfl | hm | hm
    . exact body.fields_own parsed.bodyEnd
    . exact ihbody _ _ m hm
    . exact ihrest _ _ m hm

end Outline

theorem buildFile_sound {file : FileNode} {offset : Nat} (h : buildFile text offset = .ok file)
    : file.Sound := by
  obtain ⟨o, -, -, rfl⟩ := exists_outline h
  constructor
  . intro m hm fld hfld hforeign
    obtain ⟨m', hm', rfl⟩ := List.mem_map.mp hm
    obtain ⟨fld', hfld', rfl⟩ := List.mem_map.mp hfld
    exact absurd (o.messages_own none 0 m' hm' fld' hfld') hforeign
  . exact o.enums_bounded none 0

end Built

/-! The other passes. -/

namespace Pool

variable {p q : Pool}

theorem linkImports_members {path : FileId → Span} (h : p.linkImports path = .ok q) (f : FileId)
    : (q.heap f).members = (p.heap f).members := by
  rw [← (linkImports_ok h).2.2 f]
  rfl

theorem computeScopedNames_members (h : p.computeScopedNames = .ok q) (f : FileId)
    : (q.heap f).members = (p.heap f).members := by
  obtain ⟨-, hok, hrest⟩ := sweep_ok computeScopedNames_stable h
  by_cases hf : f ∈ p.files
  . obtain ⟨package, -, heq⟩ := FileNode.computeScopedNames_eq_ok (hok f hf)
    have henums : (nameEnums package (nameMessages package (p.heap f).messages) (p.heap f).enums).map
        EnumNode.values = (p.heap f).enums.map EnumNode.values := by
      unfold nameEnums
      rw [List.map_map]
      rfl
    rw [heq, FileNode.members, henums, nameMessages_fields]
    rfl
  . rw [hrest f hf]

theorem computeVisibility_members (hlinked : p.Linked) (h : p.computeVisibility = some q) (f : FileId)
    : (q.heap f).members = (p.heap f).members := by
  rw [← (computeVisibility_eq_some hlinked h).2.2.2 f]
  rfl

theorem extendBlocks_sound [Libc] {text : FileId → Span} (blocks : List Block) {f : FileId}
    (h : (q.heap f).Sound) : ((blocks.foldl (p.extendBlock text) q).heap f).Sound := by
  rw [foldl_heap]
  refine ⟨?_, h.value⟩
  intro m hm fld hfld
  obtain ⟨i, hi, rfl⟩ := List.mem_mapIdx.mp hm
  rcases List.mem_append.mp hfld with hfld | hfld
  . exact h.field _ (List.getElem_mem hi) fld hfld
  . -- what a block appends has no default
    simp only [appended, newFields, List.mem_flatMap, List.mem_map] at hfld
    obtain ⟨b, -, parsed, -, rfl⟩ := hfld
    exact fun _ => rfl

theorem resolveTypeRefs_sound (h : p.resolveTypeRefs = .ok q) (hsound : ∀ f ∈ p.files, (p.heap f).Sound)
    : ∀ f ∈ q.files, (q.heap f).Sound := by
  have hfields := (@resolveTypeRefs_fields p q h FieldNode.NoForeignDefault FieldNode.NoForeignDefault (by
      intro f m fld fld' hok
      unfold resolveField at hok
      cases htype : p.resolveFieldType (fieldScope m fld) (p.fieldVisible f fld) fld.parsed.type with
      | error e => simp [htype, Except.map] at hok
      | ok type =>
        rw [htype] at hok
        simp only [Except.map, Except.ok.injEq] at hok
        rw [← hok]
        rfl)).mpr fun f hf => (hsound f hf).field
  obtain ⟨hfiles, hok, -⟩ := sweep_ok resolveFile_stable h
  intro f hf
  refine ⟨hfields f hf, ?_⟩
  rw [hfiles] at hf
  obtain ⟨messages, heq, -⟩ := resolveFile_eq_ok (hok f hf)
  rw [heq]
  exact (hsound f hf).value

end Pool

theorem Sources.sound [Libc] {src : Sources} {p : Pool} (h : src.describe = some p) {f : FileId}
    (hf : f ∈ p.files) : (p.heap f).Sound := by
  obtain ⟨p₀, p₁, p₂, p₃, blocks, hbuild, hlink, -, hnames, hlinked, hvisible, hfiles, hresolve⟩ :=
    Sources.describe_stages h
  apply Pool.resolveTypeRefs_sound hresolve _ f hf
  intro f hf
  apply Pool.extendBlocks_sound
  have hmem : f ∈ p₀.files := by
    rw [(Sources.buildAll_ok hbuild).1]
    rwa [((Pool.Keeps.refl p₃).foldl blocks).files, hfiles] at hf
  apply (buildFile_sound ((Sources.buildAll_ok hbuild).2 f hmem)).congr
  rw [Pool.computeVisibility_members hlinked hvisible, Pool.computeScopedNames_members hnames,
    Pool.linkImports_members hlink]

end Gremlin
