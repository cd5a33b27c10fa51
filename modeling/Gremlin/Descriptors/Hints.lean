import Gremlin.Descriptors.Described
import Gremlin.Descriptors.MapKeys

/-!
This module contains the hints of a file: what the builder gathers from the default constants of the
fields still stands behind the other passes.
-/

namespace Gremlin

open Text Parser

def Const.notFinite : Const → Bool
  | .float v => isNotFinite v
  | _ => false

def FieldType.isBytes : FieldType → Bool
  | .named name => name = "string".toList || name = "bytes".toList
  | .map _ _ => false

/--
The type and the default constant that are written for a field.
-/
def FieldNode.written (fld : FieldNode) : Option (FieldType × Const) :=
  fld.default.map fun c => (fld.parsed.type, c)

namespace FileNode

def defaults (file : FileNode) : List (FieldType × Const) :=
  file.messages.flatMap fun m => m.fields.filterMap FieldNode.written

/--
Each hint is set exactly if some default asks for it.
-/
structure Hinted (file : FileNode) : Prop where
  math : file.needsMathH = file.defaults.any fun d => d.2.notFinite
  string : file.needsStringH = file.defaults.any fun d => d.1.isBytes

def hints (file : FileNode) : Bool × Bool × List (FieldType × Const) :=
  (file.needsMathH, file.needsStringH, file.defaults)

theorem Hinted.congr {file file' : FileNode} (h : file.Hinted) (hhints : file'.hints = file.hints)
    : file'.Hinted := by
  simp only [hints, Prod.mk.injEq] at hhints
  obtain ⟨hmath, hstring, hdefaults⟩ := hhints
  constructor
  . rw [hmath, hdefaults]
    exact h.math
  . rw [hstring, hdefaults]
    exact h.string

end FileNode

/-! The builder. -/

theorem hoistCodegenHints_eq (file : FileNode) (fld : FieldNode)
    : hoistCodegenHints file fld = {
        file with
        needsMathH := file.needsMathH || fld.written.any fun d => d.2.notFinite
        needsStringH := file.needsStringH || fld.written.any fun d => d.1.isBytes
      } := by
  unfold hoistCodegenHints FieldNode.written
  cases fld.default with
  | none => simp
  | some c => rfl

theorem foldl_hoistCodegenHints (fields : List FieldNode) (file : FileNode)
    : fields.foldl hoistCodegenHints file = {
        file with
        needsMathH := file.needsMathH || (fields.filterMap FieldNode.written).any fun d => d.2.notFinite
        needsStringH := file.needsStringH || (fields.filterMap FieldNode.written).any fun d => d.1.isBytes
      } := by
  induction fields generalizing file with
  | nil => simp
  | cons fld fields ih =>
    rw [List.foldl_cons, ih, hoistCodegenHints_eq, List.filterMap_cons]
    cases fld.written with
    | none => simp
    | some d => simp [Bool.or_assoc]

section Outline

variable [Libc] (text : Span)

namespace Outline

/--
The defaults of all fields, in the order of the source.
-/
def defaults (stop : Nat) : Outline → List (FieldType × Const)
  | .nil => []
  | .entry e rest => (entryFields text stop e).filterMap FieldNode.written ++ rest.defaults stop
  | .message parsed body rest => body.defaults parsed.bodyEnd ++ rest.defaults stop

theorem head_hints (o : Outline) (stop : Nat) (file : FileNode)
    : (o.head text stop file).needsMathH
          = (file.needsMathH || (o.defaults text stop).any fun d => d.2.notFinite)
        ∧ (o.head text stop file).needsStringH
          = (file.needsStringH || (o.defaults text stop).any fun d => d.1.isBytes) := by
  induction o generalizing stop file with
  | nil => simp [head, defaults]
  | entry e rest ih =>
    unfold head
    rw [(ih _ _).1, (ih _ _).2, foldl_hoistCodegenHints, defaults, List.any_append, List.any_append,
      ← Bool.or_assoc, ← Bool.or_assoc]
    dsimp only
    split <;> exact ⟨rfl, rfl⟩
  | message parsed body rest ihbody ihrest =>
    rw [head, (ihrest _ _).1, (ihrest _ _).2, (ihbody _ _).1, (ihbody _ _).2, defaults, List.any_append,
      List.any_append, Bool.or_assoc, Bool.or_assoc]
    exact ⟨rfl, rfl⟩

/--
The defaults are those of the fields that the messages have and of those outside of all of them.
-/
theorem mem_defaults (o : Outline) (stop : Nat) (parent : Option Nat) (next : Nat) (d : FieldType × Const)
    : d ∈ o.defaults text stop
        ↔ d ∈ (o.fields text stop).filterMap FieldNode.written
          ∨ ∃ m ∈ o.messages text parent next, d ∈ m.fields.filterMap FieldNode.written := by
  induction o generalizing stop parent next with
  | nil => simp [defaults, fields, messages]
  | entry e rest ih =>
    rw [defaults, fields, messages, List.mem_append, ih stop parent next, List.filterMap_append,
      List.mem_append, or_assoc]
  | message parsed body rest ihbody ihrest =>
    rw [defaults, fields, messages, List.mem_append, ihrest stop parent (next + 1 + body.size),
      ihbody parsed.bodyEnd (some next) (next + 1)]
    simp only [List.mem_cons, List.mem_append, or_and_right, exists_or, exists_eq_left]
    simp only [or_assoc, or_left_comm]

end Outline

variable {text}

theorem Outline.OfFile.fields_eq_nil {es : List FileEntry} {o : Outline} (h : o.OfFile text es) (stop : Nat)
    : o.fields text stop = [] := by
  induction h with
  | nil => rfl
  | entry _ _ ih => rw [Outline.fields, ih]; rfl
  | message _ _ _ ih => rw [Outline.fields, ih]

theorem written_resolvePacking (file : FileNode) : (resolvePacking text file).hints = file.hints := by
  have hdefaults : (resolvePacking text file).defaults = file.defaults := by
    unfold FileNode.defaults resolvePacking
    rw [List.flatMap_map]
    congr 1
    funext m
    rw [List.filterMap_map]
    rfl
  unfold FileNode.hints
  rw [hdefaults]
  rfl

theorem Outline.OfFile.hinted {es : List FileEntry} {o : Outline} (h : o.OfFile text es)
    : (o.file text).Hinted := by
  apply FileNode.Hinted.congr ?_ (written_resolvePacking _)
  have hmem : ∀ d, d ∈ o.defaults text text.length
      ↔ d ∈ (o.messages text none 0).flatMap fun m => m.fields.filterMap FieldNode.written := by
    intro d
    rw [o.mem_defaults text text.length none 0, h.fields_eq_nil, List.mem_flatMap]
    simp
  have hany : ∀ test : FieldType × Const → Bool, (o.defaults text text.length).any test
      = ((o.messages text none 0).flatMap fun m => m.fields.filterMap FieldNode.written).any test := by
    intro test
    rw [Bool.eq_iff_iff, List.any_eq_true, List.any_eq_true]
    exact exists_congr fun d => and_congr_left fun _ => hmem d
  have ⟨hmath, hstring⟩ := o.head_hints text text.length .empty
  constructor
  . exact hmath.trans (hany _)
  . exact hstring.trans (hany _)

theorem buildFile_hinted {file : FileNode} {offset : Nat} (h : buildFile text offset = .ok file)
    : file.Hinted := by
  obtain ⟨o, ⟨es, -, ho⟩, -, rfl⟩ := exists_outline h
  exact ho.hinted

end Outline

/-! The other passes. -/

namespace Pool

variable {p q : Pool}

theorem linkImports_hints {path : FileId → Span} (h : p.linkImports path = .ok q) (f : FileId)
    : (q.heap f).hints = (p.heap f).hints := by
  rw [← (linkImports_ok h).2.2 f]
  rfl

theorem nameMessages_fields (package : ScopedName) (messages : List MessageNode)
    : (nameMessages package messages).map MessageNode.fields = messages.map MessageNode.fields := by
  have hgo : ∀ rest done, (nameMessages.go package done rest).map MessageNode.fields
      = (done ++ rest).map MessageNode.fields := by
    intro rest
    induction rest with
    | nil => intro done; rw [nameMessages.go, List.append_nil]
    | cons m rest ih =>
      intro done
      rw [nameMessages.go, ih]
      simp [named]
  exact hgo messages []

theorem hints_congr {file file' : FileNode} (hmath : file'.needsMathH = file.needsMathH)
    (hstring : file'.needsStringH = file.needsStringH)
    (hfields : file'.messages.map MessageNode.fields = file.messages.map MessageNode.fields)
    : file'.hints = file.hints := by
  have hdefaults (file : FileNode) : file.defaults
      = (file.messages.map MessageNode.fields).flatMap fun fields => fields.filterMap FieldNode.written := by
    rw [List.flatMap_map]
    rfl
  unfold FileNode.hints
  rw [hmath, hstring, hdefaults, hdefaults, hfields]

theorem computeScopedNames_hints (h : p.computeScopedNames = .ok q) (f : FileId)
    : (q.heap f).hints = (p.heap f).hints := by
  obtain ⟨hfiles, hok, hrest⟩ := sweep_ok computeScopedNames_stable h
  by_cases hf : f ∈ p.files
  . obtain ⟨package, -, heq⟩ := FileNode.computeScopedNames_eq_ok (hok f hf)
    rw [heq]
    exact hints_congr rfl rfl (nameMessages_fields package _)
  . rw [hrest f hf]

theorem computeVisibility_hints (hlinked : p.Linked) (h : p.computeVisibility = some q) (f : FileId)
    : (q.heap f).hints = (p.heap f).hints := by
  rw [← (computeVisibility_eq_some hlinked h).2.2.2 f]
  rfl

theorem extendBlocks_hints [Libc] {text : FileId → Span} (blocks : List Block) (f : FileId)
    : ((blocks.foldl (p.extendBlock text) q).heap f).hints = (q.heap f).hints := by
  have hnone : ∀ (t : NodeId), (p.appended text blocks t).filterMap FieldNode.written = [] := by
    intro t
    rw [List.filterMap_eq_nil_iff]
    intro fld hfld
    simp only [appended, newFields, List.mem_flatMap, List.mem_map] at hfld
    obtain ⟨b, -, parsed, -, rfl⟩ := hfld
    rfl
  have hdefaults : ((blocks.foldl (p.extendBlock text) q).heap f).defaults = (q.heap f).defaults := by
    rw [foldl_heap]
    unfold FileNode.defaults
    rw [List.flatMap_def, List.flatMap_def]
    congr 1
    apply List.ext_getElem
    . simp
    . intro i _ _
      simp [hnone]
  unfold FileNode.hints
  rw [hdefaults, foldl_heap]

theorem resolveField_written {f : FileId} {m : MessageNode} {fld fld' : FieldNode}
    (h : p.resolveField f m fld = .ok fld') : fld'.parsed = fld.parsed ∧ fld'.written = fld.written
      ∧ p.resolveFieldType (fieldScope m fld) (p.fieldVisible f fld) fld'.parsed.type = .ok fld'.type := by
  unfold resolveField at h
  cases htype : p.resolveFieldType (fieldScope m fld) (p.fieldVisible f fld) fld.parsed.type with
  | error e => simp [htype, Except.map] at h
  | ok type =>
    rw [htype] at h
    simp only [Except.map, Except.ok.injEq] at h
    subst h
    exact ⟨rfl, rfl, htype⟩

theorem resolveTypeRefs_hints (h : p.resolveTypeRefs = .ok q) (f : FileId)
    : (q.heap f).hints = (p.heap f).hints := by
  obtain ⟨-, hok, hrest⟩ := sweep_ok resolveFile_stable h
  by_cases hf : f ∈ p.files
  . obtain ⟨messages, hfile, hmessages⟩ := resolveFile_eq_ok (hok f hf)
    have hdefaults : (q.heap f).defaults = (p.heap f).defaults := by
      rw [hfile]
      unfold FileNode.defaults
      dsimp only
      clear hfile
      generalize (p.heap f).messages = before at hmessages
      induction hmessages with
      | nil => rfl
      | cons hm _ ih =>
        rw [List.flatMap_cons, List.flatMap_cons, ih]
        obtain ⟨fields, rfl, hfields⟩ := resolveMessage_eq_ok hm
        congr 1
        dsimp only
        clear hm
        generalize MessageNode.fields _ = before at hfields
        induction hfields with
        | nil => rfl
        | cons hfld _ ih => rw [List.filterMap_cons, List.filterMap_cons, ih, (resolveField_written hfld).2.1]
    unfold FileNode.hints
    rw [hdefaults, hfile]
  . rw [hrest f hf]

theorem resolveTypeRefs_types (h : p.resolveTypeRefs = .ok q) {f : FileId} (hf : f ∈ q.files) {m : MessageNode}
    (hm : m ∈ (q.heap f).messages) {fld : FieldNode} (hfld : fld ∈ m.fields)
    : ∃ scope visible, p.resolveFieldType scope visible fld.parsed.type = .ok fld.type := by
  have hall := (@resolveTypeRefs_fields p q h (fun _ => True)
    (fun fld => ∃ scope visible, p.resolveFieldType scope visible fld.parsed.type = .ok fld.type) (by
      intro f m fld fld' hok
      exact iff_of_true ⟨_, _, (resolveField_written hok).2.2⟩ trivial)).mpr (by simp)
  exact hall f hf m hm fld hfld

end Pool

/--
What stands behind the passes: every file has its hints, and every field the type that is written for it.
-/
theorem Sources.hinted [Libc] {src : Sources} {p : Pool} (h : src.describe = some p) {f : FileId} (hf : f ∈ p.files)
    : (p.heap f).Hinted ∧ ∀ m ∈ (p.heap f).messages, ∀ fld ∈ m.fields,
        ∃ (q : Pool) (scope : ScopedName) (visible : List FileId),
          q.resolveFieldType scope visible fld.parsed.type = .ok fld.type := by
  obtain ⟨p₀, p₁, p₂, p₃, blocks, hbuild, hlink, -, hnames, hlinked₂, hvisible, hfiles₃, hresolve⟩ :=
    Sources.describe_stages h
  obtain ⟨hfiles₅, -, -⟩ := Pool.sweep_ok Pool.resolveFile_stable hresolve
  have hmem : f ∈ p₀.files := by
    rw [(Sources.buildAll_ok hbuild).1]
    rwa [hfiles₅, ((Pool.Keeps.refl p₃).foldl blocks).files, hfiles₃] at hf
  have hhints : (p.heap f).hints = (p₀.heap f).hints := by
    rw [Pool.resolveTypeRefs_hints hresolve, Pool.extendBlocks_hints, Pool.computeVisibility_hints hlinked₂ hvisible,
      Pool.computeScopedNames_hints hnames, Pool.linkImports_hints hlink]
  refine ⟨(buildFile_hinted ((Sources.buildAll_ok hbuild).2 f hmem)).congr hhints, ?_⟩
  intro m hm fld hfld
  exact ⟨_, Pool.resolveTypeRefs_types hresolve hf hm hfld⟩

end Gremlin
