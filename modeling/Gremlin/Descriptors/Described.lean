import Gremlin.Descriptors.Order
import Gremlin.Descriptors.Pipeline
import Gremlin.Descriptors.Resolve

/-!
This module contains the passes over a set of sources as one, and what they leave: imports that lead
to the file with their path, and fields whose types are descriptors of the files.
-/

namespace Gremlin

/--
A message or an enum.
-/
inductive Entity where
  | message (id : NodeId)
  | enumeration (id : NodeId)
  deriving DecidableEq, Repr

def Entity.file : Entity → FileId
  | .message id => id.file
  | .enumeration id => id.file

def TypeRef.named : TypeRef → List Entity
  | .message target => [.message target]
  | .enumeration target => [.enumeration target]
  | _ => []

/--
The messages and enums that the type of a field names.
-/
def TypeRef.entities : TypeRef → List Entity
  | .map key value => key.named ++ value.named
  | type => type.named

/--
`run_pipeline`, up to the descriptors.
-/
def Sources.describe [Libc] (src : Sources) : Option Pool := do
  let p ← src.buildAll.toOption
  let p ← (p.linkImports src.path).toOption
  let checked ← p.checkNoCycles
  checked.toOption
  let p ← p.computeScopedNames.toOption
  let p ← p.computeVisibility
  let p ← (p.propagateExtends src.text).toOption
  p.resolveTypeRefs.toOption

namespace Pool

variable (p : Pool)

def Has : Entity → Prop
  | .message id => id.file ∈ p.files ∧ id.index < (p.heap id.file).messages.length
  | .enumeration id => id.file ∈ p.files ∧ id.index < (p.heap id.file).enums.length

theorem Has.file_mem {p : Pool} {e : Entity} (h : p.Has e) : e.file ∈ p.files := by
  cases e <;> exact h.1

/--
What the passes leave.
-/
structure Described (path : FileId → Span) : Prop where
  linked : ∀ f ∈ p.files, ∀ imp ∈ (p.heap f).imports,
    ∃ g ∈ p.files, imp.resolved = some g ∧ path g = imp.parsed.path
  acyclic : ∀ f ∈ p.files, ¬Relation.TransGen p.Imports f f
  typed : ∀ f ∈ p.files, ∀ m ∈ (p.heap f).messages, ∀ fld ∈ m.fields, ∀ e ∈ fld.type.entities, p.Has e

variable {p} {q : Pool}

theorem has_of_declared {visible : List FileId} (hvisible : ∀ f ∈ visible, f ∈ p.files)
    {segments : List Span} {ref : TypeRef} (h : p.Declared visible segments ref)
    : ref.entities = ref.named ∧ ∀ e ∈ ref.named, p.Has e := by
  obtain ⟨f, hf, hdeclares⟩ := h
  cases hdeclares with
  | message hget _ =>
    simp only [TypeRef.entities, TypeRef.named, List.mem_singleton, forall_eq, true_and]
    exact ⟨hvisible f hf, (List.getElem?_eq_some_iff.mp hget).1⟩
  | enumeration hget _ =>
    simp only [TypeRef.entities, TypeRef.named, List.mem_singleton, forall_eq, true_and]
    exact ⟨hvisible f hf, (List.getElem?_eq_some_iff.mp hget).1⟩

theorem resolveNamedType_has {scope : ScopedName} {visible : List FileId}
    (hvisible : ∀ f ∈ visible, f ∈ p.files) {span : Span} {ref : TypeRef}
    (h : p.resolveNamedType scope visible span = .ok ref)
    : ref.entities = ref.named ∧ ∀ e ∈ ref.named, p.Has e := by
  rcases resolveNamedType_ok h with ⟨-, rfl⟩ | ⟨-, segments, hdeclared⟩
  . simp [TypeRef.entities, TypeRef.named]
  . exact has_of_declared hvisible hdeclared

theorem resolveFieldType_has {scope : ScopedName} {visible : List FileId}
    (hvisible : ∀ f ∈ visible, f ∈ p.files) {type : FieldType} {ref : TypeRef}
    (h : p.resolveFieldType scope visible type = .ok ref) : ∀ e ∈ ref.entities, p.Has e := by
  cases type with
  | named name =>
    obtain ⟨heq, hhas⟩ := resolveNamedType_has hvisible h
    rwa [heq]
  | map key value =>
    rw [resolveFieldType] at h
    split at h
    . simp at h
    . next keyRef hkey =>
      cases hvalue : p.resolveNamedType scope visible value with
      | error e => simp [hvalue, Except.map] at h
      | ok valueRef =>
        rw [hvalue] at h
        simp only [Except.map, Except.ok.injEq] at h
        subst h
        simp only [TypeRef.entities, List.mem_append]
        rintro e (he | he)
        . exact (resolveNamedType_has hvisible hkey).2 e he
        . exact (resolveNamedType_has hvisible hvalue).2 e he

theorem SameNames.length {file file' : FileNode} (h : SameNames file file')
    : file'.messages.length = file.messages.length := by
  have := congrArg List.length h.messages
  rwa [List.length_map, List.length_map] at this

/--
The pass finds the types of all fields among the files that are visible somewhere.
-/
theorem resolveTypeRefs_has (hvisible : ∀ f, ∀ g ∈ (p.heap f).visible, g ∈ p.files)
    (h : p.resolveTypeRefs = .ok q) {f : FileId} (hf : f ∈ q.files)
    : ∀ m ∈ (q.heap f).messages, ∀ fld ∈ m.fields, ∀ e ∈ fld.type.entities, q.Has e := by
  obtain ⟨hfiles, hok, hrest⟩ := sweep_ok resolveFile_stable h
  have hsame : ∀ f, SameNames (p.heap f) (q.heap f) := by
    intro f
    by_cases hf : f ∈ p.files
    . exact resolveFile_sameNames (hok f hf)
    . rw [hrest f hf]
      exact ⟨rfl, rfl, rfl⟩
  have hhas : ∀ e, p.Has e → q.Has e := by
    intro e he
    cases e with
    | message id =>
      refine ⟨hfiles ▸ he.1, ?_⟩
      rw [(hsame id.file).length]
      exact he.2
    | enumeration id =>
      refine ⟨hfiles ▸ he.1, ?_⟩
      rw [(hsame id.file).enums]
      exact he.2
  obtain ⟨messages, hfile, hmessages⟩ := resolveFile_eq_ok (hok f (hfiles ▸ hf))
  rw [hfile]
  intro m' hm' fld' hfld' e he
  obtain ⟨m, hm⟩ := exists_of_forall₂ hmessages.flip hm'
  obtain ⟨fields, rfl, hfields⟩ := resolveMessage_eq_ok (show p.resolveMessage f m = .ok m' from hm)
  obtain ⟨fld, hfld⟩ := exists_of_forall₂ hfields.flip hfld'
  change p.resolveField f m fld = .ok fld' at hfld
  unfold resolveField at hfld
  cases htype : p.resolveFieldType (fieldScope m fld) (p.fieldVisible f fld) fld.parsed.type with
  | error e => simp [htype, Except.map] at hfld
  | ok type =>
    rw [htype] at hfld
    simp only [Except.map, Except.ok.injEq] at hfld
    subst hfld
    exact hhas e (resolveFieldType_has (hvisible _) htype e he)

theorem linkImports_path {path : FileId → Span} (h : p.linkImports path = .ok q) {f : FileId}
    (hf : f ∈ q.files) {imp : ImportNode} (himp : imp ∈ (q.heap f).imports)
    : ∃ g ∈ q.files, imp.resolved = some g ∧ path g = imp.parsed.path := by
  obtain ⟨hfiles, hok, -⟩ := sweep_ok linkFile_stable h
  rw [hfiles] at hf ⊢
  obtain ⟨imports, heq, hforall⟩ := linkFile_eq_ok (hok f hf)
  rw [heq] at himp
  obtain ⟨imp', hlink⟩ := exists_of_forall₂ hforall.flip himp
  obtain ⟨g, hlookup, rfl⟩ := linkImport_ok (show p.linkImport path imp' = .ok imp from hlink)
  unfold lookup at hlookup
  have hpath := List.find?_some hlookup
  exact ⟨g, List.mem_of_find?_eq_some hlookup, rfl, of_decide_eq_true hpath⟩

theorem visible_mem [Libc] {src : Sources} {p₀ p₁ p₂ : Pool} (hbuild : src.buildAll = .ok p₀)
    (hlink : p₀.linkImports src.path = .ok p₁) (hnames : p₁.computeScopedNames = .ok p₂)
    (hvisible : p₂.computeVisibility = some p) (f : FileId)
    : ∀ g ∈ (p.heap f).visible, g ∈ p.files := by
  obtain ⟨hfiles, hlinked, -, outline, hready⟩ := exists_ready hbuild hlink hnames hvisible
  by_cases hf : f ∈ p.files
  . exact hready.visible f hf
  . have hfiles₀ := (Sources.buildAll_ok hbuild).1
    obtain ⟨hfiles₁, -, hrest₁⟩ := sweep_ok linkFile_stable hlink
    obtain ⟨hfiles₂, -, hrest₂⟩ := sweep_ok computeScopedNames_stable hnames
    obtain ⟨-, -, hrest₃, -⟩ := computeVisibility_eq_some hlinked hvisible
    rw [hfiles] at hf
    rw [hrest₃ f (by rwa [hfiles₂, hfiles₁, hfiles₀]), hrest₂ f (by rwa [hfiles₁, hfiles₀]),
      hrest₁ f (by rwa [hfiles₀]), Sources.buildAll_rest hbuild hf]
    simp [FileNode.empty]

end Pool

theorem toOption_eq_some_iff {ε α : Type} {x : Except ε α} {a : α} : x.toOption = some a ↔ x = .ok a := by
  cases x <;> simp [Except.toOption]

open Pool in
theorem Sources.describe_stages [Libc] {src : Sources} {p : Pool} (h : src.describe = some p)
    : ∃ (p₀ p₁ p₂ p₃ : Pool) (blocks : List Block), src.buildAll = .ok p₀ ∧ p₀.linkImports src.path = .ok p₁
        ∧ p₁.checkNoCycles = some (.ok ()) ∧ p₁.computeScopedNames = .ok p₂ ∧ p₂.Linked
        ∧ p₂.computeVisibility = some p₃ ∧ p₃.files = src.files
        ∧ (blocks.foldl (p₃.extendBlock src.text) p₃).resolveTypeRefs = .ok p := by
  unfold Sources.describe at h
  simp only [Option.bind_eq_bind, Option.bind_eq_some_iff, toOption_eq_some_iff] at h
  obtain ⟨p₀, hbuild, p₁, hlink, checked, hcheck, _, hok, p₂, hnames, p₃, hvisible, p₄, hextend, hresolve⟩
    := h
  obtain ⟨hfiles, hlinked, -, outline, hready⟩ := exists_ready hbuild hlink hnames hvisible
  rw [hok] at hcheck
  unfold propagateExtends at hextend
  rcases propagateExtends_go hready.isOutline hready.size (.refl p₃) 0 with ⟨e, i, herror⟩ | ⟨-, hgo⟩
  . rw [herror] at hextend
    simp at hextend
  . rw [hgo, Except.ok.injEq] at hextend
    subst hextend
    exact ⟨p₀, p₁, p₂, p₃, _, hbuild, hlink, hcheck, hnames, hlinked, hvisible, hfiles, hresolve⟩

open Pool in
theorem Sources.described [Libc] {src : Sources} {p : Pool} (h : src.describe = some p)
    : p.files = src.files ∧ p.Described src.path := by
  obtain ⟨p₀, p₁, p₂, p₃, blocks, hbuild, hlink, hcheck, hnames, hlinked₂, hvisible, hfiles₃, hresolve⟩ :=
    Sources.describe_stages h
  have hkeeps := @Keeps.foldl p₃ p₃ _ src.text (Keeps.refl p₃) blocks
  generalize hp₄ : blocks.foldl (p₃.extendBlock src.text) p₃ = p₄ at hresolve hkeeps
  obtain ⟨hfiles₅, hfile₅, hrest₅⟩ := sweep_ok resolveFile_stable hresolve
  have himports : ∀ f, (p.heap f).imports = (p₁.heap f).imports := by
    intro f
    have h₅ : (p.heap f).imports = (p₄.heap f).imports := by
      by_cases hf : f ∈ p₄.files
      . obtain ⟨messages, heq, -⟩ := resolveFile_eq_ok (hfile₅ f hf)
        rw [heq]
      . rw [hrest₅ f hf]
    have h₄ := congrArg FileNode.imports (hkeeps.rest f)
    obtain ⟨hfiles₂, himports₂, -⟩ := computeScopedNames_ok hnames
    obtain ⟨-, -, -, hrest₃⟩ := computeVisibility_eq_some hlinked₂ hvisible
    have h₃ := congrArg FileNode.imports (hrest₃ f)
    dsimp only at h₃ h₄
    rw [h₅, h₄, h₃, himports₂]
  have hfiles₁ : p.files = p₁.files := by
    rw [hfiles₅, hkeeps.files, hfiles₃, (linkImports_ok hlink).1, (Sources.buildAll_ok hbuild).1]
  refine ⟨by rw [hfiles₅, hkeeps.files, hfiles₃], ?_, ?_, ?_⟩
  . intro f hf imp himp
    rw [hfiles₁] at hf ⊢
    rw [himports] at himp
    exact linkImports_path hlink hf himp
  . have hacyclic := checkNoCycles_eq_ok_iff.mp hcheck
    have : p.Imports = p₁.Imports := by
      unfold Pool.Imports
      rw [hfiles₁]
      funext f g
      rw [himports]
    rw [hfiles₁, this]
    exact hacyclic
  . intro f hf
    apply resolveTypeRefs_has ?_ hresolve hf
    intro f g hg
    rw [hkeeps.visible] at hg
    rw [hkeeps.files]
    exact visible_mem hbuild hlink hnames hvisible f g hg

end Gremlin
