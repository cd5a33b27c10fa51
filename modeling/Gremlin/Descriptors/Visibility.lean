import Gremlin.Descriptors.Nodes
import Gremlin.Graph.Worklist

/-!
This module contains the pass that computes which files are visible from each file.
-/

namespace Gremlin

open Gremlin.Graph

namespace Pool

variable (p : Pool)

def directImports (f : FileId) : List FileId :=
  (p.heap f).imports.filterMap fun imp => imp.resolved

def publicImports (f : FileId) : List FileId :=
  ((p.heap f).imports.filter fun imp => imp.parsed.type = .typePublic).filterMap fun imp =>
    imp.resolved

/--
What is left in the scratch buffer for `f`. There is no result if the buffer is overrun.
-/
def visibleOf (f : FileId) : Option (List FileId) :=
  let n := p.files.length
  (Worklist.push n [] f).bind fun scratch =>
    (Worklist.pushAll n scratch (p.directImports f)).bind
      (Worklist.expand p.publicImports n (n + 1) 1)

def computeVisibility : Option Pool :=
  p.files.foldlM (fun q f =>
    (q.visibleOf f).map fun visible => q.update f fun node => { node with visible }) p

def Linked : Prop :=
  ∀ f ∈ p.files, ∀ imp ∈ (p.heap f).imports, ∃ g ∈ p.files, imp.resolved = some g

def ImportsDirectly (f g : FileId) : Prop :=
  ∃ imp ∈ (p.heap f).imports, imp.resolved = some g

def ImportsPublicly (f g : FileId) : Prop :=
  ∃ imp ∈ (p.heap f).imports, imp.parsed.type = .typePublic ∧ imp.resolved = some g

/--
`g` is `f`, or a direct import of `f`, or reached from one over public imports.
-/
def Sees (f g : FileId) : Prop :=
  g = f ∨ ∃ d, p.ImportsDirectly f d ∧ Relation.ReflTransGen p.ImportsPublicly d g

variable {p}

theorem sees_iff_of_perm {q : Pool} (h : ∀ f, (q.heap f).imports.Perm (p.heap f).imports) {f g : FileId}
    : q.Sees f g ↔ p.Sees f g := by
  have hdirect (f g : FileId) : q.ImportsDirectly f g ↔ p.ImportsDirectly f g := by
    unfold ImportsDirectly
    simp only [(h f).mem_iff]
  have hpublic : q.ImportsPublicly = p.ImportsPublicly := by
    funext f g
    unfold ImportsPublicly
    simp only [(h f).mem_iff]
  unfold Sees
  rw [hpublic]
  simp only [hdirect]

theorem mem_directImports {f g : FileId} : g ∈ p.directImports f ↔ p.ImportsDirectly f g := by
  unfold directImports ImportsDirectly
  rw [List.mem_filterMap]

theorem mem_publicImports {f g : FileId} : g ∈ p.publicImports f ↔ p.ImportsPublicly f g := by
  unfold publicImports ImportsPublicly
  simp only [List.mem_filterMap, List.mem_filter, decide_eq_true_eq, and_assoc]

theorem ImportsPublicly.directly {f g : FileId} (h : p.ImportsPublicly f g)
    : p.ImportsDirectly f g := by
  obtain ⟨imp, himp, -, hresolved⟩ := h
  exact ⟨imp, himp, hresolved⟩

theorem Linked.mem (hlinked : p.Linked) {f g : FileId} (hf : f ∈ p.files)
    (h : p.ImportsDirectly f g) : g ∈ p.files := by
  obtain ⟨imp, himp, hresolved⟩ := h
  obtain ⟨g', hg', hresolved'⟩ := hlinked f hf imp himp
  rw [hresolved, Option.some_inj] at hresolved'
  exact hresolved' ▸ hg'

theorem sees_iff {f g : FileId}
    : p.Sees f g
        ↔ ∃ d, (d = f ∨ p.ImportsDirectly f d) ∧ Relation.ReflTransGen p.ImportsPublicly d g := by
  constructor
  . rintro (rfl | ⟨d, hd, hpath⟩)
    . exact ⟨g, .inl rfl, .refl⟩
    . exact ⟨d, .inr hd, hpath⟩
  . rintro ⟨d, rfl | hd, hpath⟩
    . rcases Relation.ReflTransGen.cases_head hpath with rfl | ⟨e, he, hpath'⟩
      . exact .inl rfl
      . exact .inr ⟨e, he.directly, hpath'⟩
    . exact .inr ⟨d, hd, hpath⟩

theorem exists_visibleOf (hlinked : p.Linked) {f : FileId} (hf : f ∈ p.files)
    : ∃ visible, p.visibleOf f = some visible ∧ visible.Nodup ∧ ∀ g, g ∈ visible ↔ p.Sees f g := by
  have hdirect : p.directImports f ⊆ p.files := by
    intro g hg
    exact hlinked.mem hf (mem_directImports.mp hg)
  have hpublic : ∀ f ∈ p.files, p.publicImports f ⊆ p.files := by
    intro f hf g hg
    exact hlinked.mem hf (mem_publicImports.mp hg).directly
  obtain ⟨self, hpush, hself⟩ := Worklist.push_grown List.nodup_nil (List.nil_subset _) hf
  have hsub := hself.subset (List.nil_subset _) (by simpa using hf)
  obtain ⟨seed, hpushAll, hseed⟩ := Worklist.pushAll_grown hself.nodup hsub hdirect
  have hself' : self = [f] := by
    simp [Worklist.push, List.length_pos_of_mem hf] at hpush
    exact hpush.symm
  subst hself'
  have hdone : ∀ i < 1, ∀ x, seed[i]? = some x → p.publicImports x ⊆ seed := by
    intro i hi x hx g hg
    obtain ⟨rest, rfl⟩ := hseed.isPrefix
    obtain rfl : i = 0 := by omega
    simp only [List.cons_append, List.nil_append, List.length_cons, Nat.zero_lt_succ,
      List.getElem?_eq_getElem, List.getElem_cons_zero, Option.some.injEq] at hx
    subst hx
    exact (hseed.mem_iff g).mpr (.inr (mem_directImports.mpr (mem_publicImports.mp hg).directly))
  obtain ⟨visible, hexpand, hvisible⟩ := Worklist.expand_closure hpublic
    (show p.files.length < p.files.length + 1 + 1 by omega) (hseed.isPrefix.length_le) hseed.nodup
    (hseed.subset hsub hdirect) hdone
  refine ⟨visible, ?_, hvisible.nodup, ?_⟩
  . unfold visibleOf
    dsimp only
    rw [hpush, Option.bind_some, hpushAll, Option.bind_some, hexpand]
  . intro g
    rw [hvisible.mem_iff, sees_iff]
    simp only [hseed.mem_iff, List.mem_singleton, mem_directImports, mem_publicImports]

theorem visibleOf_congr {q : Pool} (hfiles : q.files = p.files)
    (himports : ∀ f, (q.heap f).imports = (p.heap f).imports) (f : FileId)
    : q.visibleOf f = p.visibleOf f := by
  unfold visibleOf directImports publicImports
  simp only [hfiles, himports]

/--
A file's entry is written without a change to what the other files' entries are made of.
-/
theorem foldlM_visible {q : Pool} {visible : FileId → List FileId} {l : List FileId}
    (hl : l.Nodup) (hfiles : q.files = p.files)
    (himports : ∀ f, (q.heap f).imports = (p.heap f).imports)
    (hvisible : ∀ f ∈ l, p.visibleOf f = some (visible f))
    : ∃ q', l.foldlM (fun q f =>
          (q.visibleOf f).map fun visible => q.update f fun node => { node with visible }) q = some q'
        ∧ q'.files = p.files
        ∧ ∀ f, q'.heap f = if f ∈ l then { q.heap f with visible := visible f } else q.heap f := by
  induction l generalizing q with
  | nil => exact ⟨q, rfl, hfiles, fun f => by simp⟩
  | cons f l ih =>
    rw [List.nodup_cons] at hl
    rw [List.forall_mem_cons] at hvisible
    have himports' : ∀ f', ((q.update f fun node => { node with visible := visible f }).heap f').imports
        = (p.heap f').imports := by
      intro f'
      rw [← himports f']
      by_cases h : f' = f
      . subst h
        rw [update_heap_self]
      . rw [update_heap_of_ne h]
    obtain ⟨q', hq', hfiles', hheap⟩ := ih hl.2 (by rw [update_files, hfiles]) himports' hvisible.2
    refine ⟨q', ?_, hfiles', ?_⟩
    . rw [List.foldlM_cons, visibleOf_congr hfiles himports, hvisible.1, Option.map_some,
        Option.bind_eq_bind, Option.bind_some, hq']
    . intro f'
      rw [hheap f']
      by_cases h : f' = f
      . subst h
        simp [hl.1]
      . simp [h, update_heap_of_ne h]

theorem exists_computeVisibility (hlinked : p.Linked)
    : ∃ (visible : FileId → List FileId) (q : Pool), p.computeVisibility = some q
        ∧ q.files = p.files
        ∧ (∀ f ∈ p.files, p.visibleOf f = some (visible f))
        ∧ ∀ f, q.heap f
          = if f ∈ p.files then { p.heap f with visible := visible f } else p.heap f := by
  have hex : ∀ f, ∃ visible, f ∈ p.files → p.visibleOf f = some visible := by
    intro f
    by_cases hf : f ∈ p.files
    . obtain ⟨visible, hvisible, -⟩ := exists_visibleOf hlinked hf
      exact ⟨visible, fun _ => hvisible⟩
    . exact ⟨[], fun h => absurd h hf⟩
  choose visible hvisible using hex
  obtain ⟨q, hq, hfiles, hheap⟩ := foldlM_visible p.nodup rfl (fun _ => rfl) hvisible
  exact ⟨visible, q, hq, hfiles, hvisible, hheap⟩

theorem computeVisibility_eq_some (hlinked : p.Linked) {q : Pool} (h : p.computeVisibility = some q)
    : q.files = p.files
        ∧ (∀ f ∈ p.files, (q.heap f).visible.Nodup ∧ ∀ g, g ∈ (q.heap f).visible ↔ p.Sees f g)
        ∧ (∀ f, f ∉ p.files → q.heap f = p.heap f)
        ∧ ∀ f, { q.heap f with visible := (p.heap f).visible } = p.heap f := by
  obtain ⟨visible, q', hq', hfiles, hvisible, hheap⟩ := exists_computeVisibility hlinked
  rw [h, Option.some_inj] at hq'
  subst hq'
  refine ⟨hfiles, ?_, ?_, ?_⟩
  . intro f hf
    obtain ⟨visible', hvisible', hspec⟩ := exists_visibleOf hlinked hf
    rw [hvisible f hf, Option.some_inj] at hvisible'
    subst hvisible'
    rw [hheap f, if_pos hf]
    exact hspec
  . intro f hf
    rw [hheap f, if_neg hf]
  . intro f
    rw [hheap f]
    split <;> rfl

/--
The pass ends without an overrun. It lists for each file those that the file sees, each once, and
changes nothing else.
-/
theorem computeVisibility_exact (hlinked : p.Linked)
    : ∃ q, p.computeVisibility = some q ∧ q.files = p.files
        ∧ (∀ f ∈ p.files, (q.heap f).visible.Nodup ∧ ∀ g, g ∈ (q.heap f).visible ↔ p.Sees f g)
        ∧ ∀ f, { q.heap f with visible := (p.heap f).visible } = p.heap f := by
  obtain ⟨-, q, hq, -⟩ := exists_computeVisibility hlinked
  obtain ⟨hfiles, hvisible, -, hrest⟩ := computeVisibility_eq_some hlinked hq
  exact ⟨q, hq, hfiles, hvisible, hrest⟩

/--
The first file imports the second twice, which imports the third and itself publicly, and the third
imports the first publicly and the fourth.
-/
def knot : Pool where
  files := [0, 1, 2, 3]
  nodup := by decide
  heap f := {
    FileNode.empty with
    imports :=
      if f = 0 then [⟨⟨[], .typeRegular⟩, some 1⟩, ⟨⟨[], .typeRegular⟩, some 1⟩]
      else if f = 1 then [⟨⟨[], .typePublic⟩, some 2⟩, ⟨⟨[], .typePublic⟩, some 1⟩]
      else if f = 2 then [⟨⟨[], .typePublic⟩, some 0⟩, ⟨⟨[], .typeRegular⟩, some 3⟩]
      else []
  }

theorem knot_computeVisibility_exact
    : ∃ q, knot.computeVisibility = some q ∧ q.files = knot.files
        ∧ (∀ f ∈ knot.files,
          (q.heap f).visible.Nodup ∧ ∀ g, g ∈ (q.heap f).visible ↔ knot.Sees f g)
        ∧ ∀ f, { q.heap f with visible := (knot.heap f).visible } = knot.heap f :=
  computeVisibility_exact (by unfold Linked; decide)

end Pool

end Gremlin
