import Gremlin.Descriptors.Filling
import Gremlin.Descriptors.Sweep
import Gremlin.Descriptors.Visibility

/-!
This module contains the sources of a resolve context, the pass that builds a file of each and the
pass that links the imports of these files.
-/

namespace Gremlin

/--
The sources, each with the address at which its file is built.
-/
structure Sources where
  files : List FileId
  nodup : files.Nodup
  path : FileId → Span
  text : FileId → Span

/--
Where a pass that re-reads the sources stops.
-/
structure Stopped where
  stop : Stop
  failedSourceIdx : Nat
  deriving DecidableEq, Repr

namespace Sources

variable [Libc] (src : Sources)

/--
`gremlind_build_all` on buffers that are not read yet.
-/
def buildAll : Except Stopped Pool :=
  (go src.files 0 fun _ => .empty).map fun heap => ⟨src.files, src.nodup, heap⟩
where
  go : List FileId → Nat → (FileId → FileNode) → Except Stopped (FileId → FileNode)
    | [], _, heap => .ok heap
    | f :: rest, i, heap =>
      match buildFile (src.text f) 0 with
      | .error stop => .error ⟨stop, i⟩
      | .ok file => go rest (i + 1) (Function.update heap f file)

variable {src}

theorem buildAll_go {l : List FileId} (hl : l.Nodup) {i : Nat} {heap heap' : FileId → FileNode}
    (h : buildAll.go src l i heap = .ok heap')
    : (∀ f ∈ l, buildFile (src.text f) 0 = .ok (heap' f)) ∧ ∀ f, f ∉ l → heap' f = heap f := by
  induction l generalizing i heap with
  | nil =>
    rw [buildAll.go, Except.ok.injEq] at h
    subst h
    exact ⟨by simp, fun _ _ => rfl⟩
  | cons f l ih =>
    rw [List.nodup_cons] at hl
    rw [buildAll.go] at h
    split at h
    . simp at h
    . next file hbuild =>
      obtain ⟨hl', hrest⟩ := ih hl.2 h
      refine ⟨?_, ?_⟩
      . rw [List.forall_mem_cons]
        refine ⟨?_, hl'⟩
        rw [hrest f hl.1, Function.update_self, hbuild]
      . intro f' hf'
        rw [List.mem_cons, not_or] at hf'
        rw [hrest f' hf'.2, Function.update_of_ne hf'.1]

theorem buildAll_ok {p : Pool} (h : src.buildAll = .ok p)
    : p.files = src.files ∧ ∀ f ∈ p.files, buildFile (src.text f) 0 = .ok (p.heap f) := by
  unfold buildAll at h
  cases hgo : buildAll.go src src.files 0 fun _ => .empty with
  | error e => simp [hgo, Except.map] at h
  | ok heap =>
    rw [hgo] at h
    simp only [Except.map, Except.ok.injEq] at h
    subst h
    exact ⟨rfl, (buildAll_go src.nodup hgo).1⟩

theorem buildAll_rest {p : Pool} (h : src.buildAll = .ok p) {f : FileId} (hf : f ∉ src.files)
    : p.heap f = .empty := by
  unfold buildAll at h
  cases hgo : buildAll.go src src.files 0 fun _ => .empty with
  | error e => simp [hgo, Except.map] at h
  | ok heap =>
    rw [hgo] at h
    simp only [Except.map, Except.ok.injEq] at h
    subst h
    exact (buildAll_go src.nodup hgo).2 f hf

end Sources

namespace Pool

variable (path : FileId → Span)

/--
`lookup`: the first file with this path.
-/
def lookup (p : Pool) (target : Span) : Option FileId :=
  p.files.find? fun f => path f = target

def linkImport (p : Pool) (imp : ImportNode) : Except ParsingError ImportNode :=
  match p.lookup path imp.parsed.path with
  | none => .error .importTargetNotFound
  | some target => .ok { imp with resolved := some target }

def linkFile (p : Pool) (f : FileId) : Except ParsingError FileNode :=
  ((p.heap f).imports.mapM (p.linkImport path)).map fun imports => { p.heap f with imports }

def linkImports (p : Pool) : Except Failure Pool :=
  p.sweep (linkFile path)

variable {path} {p q : Pool}

theorem linkFile_stable : Stable (linkFile path) fun _ _ => True where
  refl _ := trivial
  agree _ _ _ _ := trivial
  pass_eq p q f hfiles _ hf := by
    have : q.linkImport path = p.linkImport path := by
      unfold linkImport lookup
      rw [hfiles]
    unfold linkFile
    rw [this, hf]

theorem linkImport_ok {imp imp' : ImportNode} (h : p.linkImport path imp = .ok imp')
    : ∃ g, p.lookup path imp.parsed.path = some g ∧ imp' = { imp with resolved := some g } := by
  unfold linkImport at h
  split at h
  . simp at h
  . next g hlookup =>
    rw [Except.ok.injEq] at h
    exact ⟨g, hlookup, h.symm⟩

theorem linkFile_eq_ok {f : FileId} {file : FileNode} (h : p.linkFile path f = .ok file)
    : ∃ imports, file = { p.heap f with imports }
        ∧ List.Forall₂ (fun imp imp' => p.linkImport path imp = .ok imp') (p.heap f).imports
          imports := by
  unfold linkFile at h
  cases himports : (p.heap f).imports.mapM (p.linkImport path) with
  | error e => simp [himports, Except.map] at h
  | ok imports =>
    rw [himports] at h
    simp only [Except.map, Except.ok.injEq] at h
    exact ⟨imports, h.symm, forall₂_of_mapM himports⟩

theorem linkImports_ok (h : p.linkImports path = .ok q)
    : q.files = p.files ∧ q.Linked
        ∧ ∀ f, { q.heap f with imports := (p.heap f).imports } = p.heap f := by
  obtain ⟨hfiles, hok, hrest⟩ := sweep_ok linkFile_stable h
  refine ⟨hfiles, ?_, ?_⟩
  . intro f hf imp himp
    rw [hfiles] at hf ⊢
    obtain ⟨imports, heq, hforall⟩ := linkFile_eq_ok (hok f hf)
    rw [heq] at himp
    obtain ⟨imp', hlink⟩ := exists_of_forall₂ hforall.flip himp
    obtain ⟨g, hlookup, rfl⟩ := linkImport_ok hlink
    exact ⟨g, List.mem_of_find?_eq_some hlookup, rfl⟩
  . intro f
    by_cases hf : f ∈ p.files
    . obtain ⟨imports, heq, -⟩ := linkFile_eq_ok (hok f hf)
      rw [heq]
    . rw [hrest f hf]

/-! The names. -/

/--
The loop of the pipeline over `gremlind_compute_scoped_names`.
-/
def computeScopedNames (p : Pool) : Except Failure Pool :=
  p.sweep fun p f => (p.heap f).computeScopedNames

theorem computeScopedNames_stable
    : Stable (fun p f => (p.heap f).computeScopedNames) fun _ _ => True where
  refl _ := trivial
  agree _ _ _ _ := trivial
  pass_eq _ _ _ _ _ hf := by rw [hf]

end Pool

end Gremlin
