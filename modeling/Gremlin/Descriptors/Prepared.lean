import Gremlin.Descriptors.Origins

/-!
This module contains what the resolver finds: the passes before it leave the files as it assumes.
-/

namespace Gremlin

open Text Parser

/-! The names in the type of a field. -/

def FieldType.Named (type : FieldType) : Prop :=
  ∀ span ∈ type.spans, IsTypeName span

theorem parseFullIdentifier_typeName : Ensures parseFullIdentifier fun _ => IsTypeName :=
  fun _ _ _ h => isTypeName_of_parse h

theorem parseMapType_named : Ensures parseMapType fun _ => FieldType.Named := by
  have hback := backward_const FieldType.Named
  have hname : Ensures (parseFullIdentifier.orElse (fail .invalidFieldValue)) fun _ => IsTypeName :=
    parseFullIdentifier_typeName.orElse (backward_const IsTypeName) (ensures_fail _ _)
  apply Ensures.restoring
  refine ensures_andThen hback _ fun _ => ensures_andThen hback _ fun _ => ensures_andThen hback _ fun _ => ?_
  apply hname.andThen
  intro key hkey
  refine ensures_andThen hback _ fun _ => ensures_andThen hback _ fun _ => ensures_andThen hback _ fun _ => ?_
  apply hname.andThen
  intro value hvalue
  refine ensures_andThen hback _ fun _ => ensures_andThen hback _ fun _ => ensures_succeed fun _ => ?_
  simp [FieldType.Named, FieldType.spans, hkey, hvalue]

theorem parseFieldType_named : Ensures parseFieldType fun _ => FieldType.Named := by
  have hback := backward_const FieldType.Named
  have hnamed (b : Buffer) (name : Span) (hname : IsTypeName name) : (FieldType.named name).Named := by
    simpa [FieldType.Named, FieldType.spans] using hname
  exact parseMapType_named.orElse hback <| (parseFullIdentifier_typeName.map hnamed).orElse hback <|
    ensures_fail _ _

section Fields

variable [Libc]

theorem fieldParse_named : Ensures fieldParse fun _ parsed => parsed.type.Named := by
  have hback := backward_const fun parsed : FieldParseResult => parsed.type.Named
  apply Ensures.restoring
  refine ensures_andThen hback _ fun _ => ?_
  apply parseFieldType_named.andThen
  intro type htype
  refine ensures_andThen hback _ fun _ => ensures_andThen hback _ fun _ => ensures_andThen hback _
    fun _ => ensures_andThen hback _ fun _ => ensures_andThen hback _ fun _ => ensures_andThen hback _
    fun _ => ensures_andThen hback _ fun _ => ensures_andThen hback _ fun _ => ensures_andThen hback _
    fun _ => ?_
  exact ensures_succeed fun _ => htype

theorem oneofFieldParse_named : Ensures oneofFieldParse fun _ parsed => (oneofField parsed).type.Named := by
  have hback := backward_const fun parsed : OneofFieldParseResult => (oneofField parsed).type.Named
  apply Ensures.restoring
  apply parseFullIdentifier_typeName.andThen
  intro type htype
  refine ensures_andThen hback _ fun _ => ensures_andThen hback _ fun _ => ensures_andThen hback _
    fun _ => ensures_andThen hback _ fun _ => ensures_andThen hback _ fun _ => ensures_andThen hback _
    fun _ => ensures_andThen hback _ fun _ => ensures_andThen hback _ fun _ => ensures_andThen hback _
    fun _ => ?_
  exact ensures_succeed fun _ => by simpa [oneofField, FieldType.Named, FieldType.spans] using htype

end Fields

namespace Pool

/--
What is known of a field before the resolver.
-/
structure FieldPrepared (files : List FileId) (fld : FieldNode) : Prop where
  named : fld.parsed.type.Named
  origin : ∀ g, fld.originFile = some g → g ∈ files

section Passes

variable [Libc] {src : Sources} {p₀ p₁ p₂ p₃ p : Pool}

/--
The fields that the builder makes have types with names, and no origin.
-/
theorem fields_prepared (hbuild : src.buildAll = .ok p₀) (hlink : p₀.linkImports src.path = .ok p₁)
    (hnames : p₁.computeScopedNames = .ok p₂) (hvisible : p₂.computeVisibility = some p₃)
    : ∀ f ∈ p₃.files, ∀ m ∈ (p₃.heap f).messages, ∀ fld ∈ m.fields, FieldPrepared p₃.files fld := by
  obtain ⟨hfiles, hlinked, -⟩ := exists_ready hbuild hlink hnames hvisible
  obtain ⟨hfiles₀, hbuilt⟩ := Sources.buildAll_ok hbuild
  intro f hf m hm fld hfld
  have hmembers : (p₃.heap f).members = (p₀.heap f).members := by
    rw [computeVisibility_members hlinked hvisible, computeScopedNames_members hnames, linkImports_members hlink]
  have hf₀ : f ∈ p₀.files := by rwa [hfiles₀, ← hfiles]
  obtain ⟨o, -, -, hfile⟩ := exists_outline (hbuilt f hf₀)
  have hnamed := buildFile_fields fieldParse_named oneofFieldParse_named (hbuilt f hf₀)
  have hown : ∀ m ∈ (p₀.heap f).messages, ∀ fld ∈ m.fields, fld.originFile = none := by
    rw [hfile]
    intro m hm fld hfld
    obtain ⟨m', hm', rfl⟩ := List.mem_map.mp hm
    obtain ⟨fld', hfld', rfl⟩ := List.mem_map.mp hfld
    exact o.messages_own none 0 m' hm' fld' hfld'
  have hmem : m.fields ∈ (p₀.heap f).members.1 := by
    rw [← hmembers]
    exact List.mem_map_of_mem hm
  obtain ⟨m₀, hm₀, heq⟩ := List.mem_map.mp hmem
  rw [← heq] at hfld
  exact ⟨hnamed m₀ hm₀ fld hfld, fun g hg => by simp [hown m₀ hm₀ fld hfld] at hg⟩

/--
The fields of extend blocks have types with names, and come from a file of the pool.
-/
theorem propagateExtends_fields_prepared {outline : FileId → Outline} (hready : Ready src outline p₃)
    (hextend : p₃.propagateExtends src.text = .ok p)
    (hbefore : ∀ f ∈ p₃.files, ∀ m ∈ (p₃.heap f).messages, ∀ fld ∈ m.fields, FieldPrepared p₃.files fld)
    : Keeps p₃ p ∧ ∀ f ∈ p.files, ∀ m ∈ (p.heap f).messages, ∀ fld ∈ m.fields, FieldPrepared p.files fld := by
  unfold propagateExtends at hextend
  rcases propagateExtends_go hready.isOutline hready.size (.refl p₃) 0 with ⟨e, i, herror⟩ | ⟨-, hgo⟩
  . rw [herror] at hextend
    simp at hextend
  rw [hgo, Except.ok.injEq] at hextend
  have hkeeps : Keeps p₃ p := hextend ▸ (Keeps.refl p₃).foldl _
  refine ⟨hkeeps, ?_⟩
  rw [hkeeps.files]
  intro f hf m hm fld hfld
  rw [← hextend, foldl_heap] at hm
  obtain ⟨i, hi, rfl⟩ := List.mem_mapIdx.mp hm
  rcases List.mem_append.mp hfld with hfld | hfld
  . exact hbefore f hf _ (List.getElem_mem hi) fld hfld
  . simp only [appended, newFields, List.mem_flatMap, List.mem_filter, List.mem_map] at hfld
    obtain ⟨b, ⟨hb, -⟩, parsed, hparsed, rfl⟩ := hfld
    refine ⟨extendFields_field fieldParse_named parsed hparsed, ?_⟩
    intro g hg
    rw [← Option.some_inj.mp hg]
    exact (hready.block_file (List.mem_flatMap.mpr hb)).1

/--
The passes before the resolver establish what it assumes.
-/
theorem prepared_of_passes (hbuild : src.buildAll = .ok p₀) (hlink : p₀.linkImports src.path = .ok p₁)
    (hnames : p₁.computeScopedNames = .ok p₂) (hvisible : p₂.computeVisibility = some p₃)
    (hextend : p₃.propagateExtends src.text = .ok p) : p.Prepared := by
  obtain ⟨-, hlinked, -, outline, hready⟩ := exists_ready hbuild hlink hnames hvisible
  obtain ⟨hfiles, hspec, -, hrest⟩ := computeVisibility_eq_some hlinked hvisible
  have hbefore := fields_prepared hbuild hlink hnames hvisible
  obtain ⟨hkeeps, hfields⟩ := propagateExtends_fields_prepared hready hextend hbefore
  refine ⟨fun f hf m hm fld hfld => (hfields f hf m hm fld hfld).named,
    fun f hf m hm fld hfld => (hfields f hf m hm fld hfld).origin, ?_⟩
  -- Visibility was computed for the imports that the files still have.
  have himports : ∀ f, (p₂.heap f).imports = (p.heap f).imports := by
    intro f
    have h := congrArg FileNode.imports (hrest f)
    have h' := congrArg FileNode.imports (hkeeps.rest f)
    dsimp only at h h'
    rw [h', h]
  intro f hf
  rw [hkeeps.files, hfiles] at hf
  rw [hkeeps.visible]
  refine ⟨(hspec f hf).1, ?_⟩
  intro g
  rw [(hspec f hf).2 g]
  exact sees_iff_of_perm fun f => .of_eq (himports f)

end Passes

end Pool

end Gremlin
