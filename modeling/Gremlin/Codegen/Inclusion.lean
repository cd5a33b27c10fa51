import Gremlin.Codegen.Contents
import Gremlin.Graph.Guarded
import Mathlib.Data.Option.Basic

/-!
This module contains the headers as the preprocessor reads them, and when what a header names is
defined in what it reads.
-/

namespace Gremlin

open Naming Gremlin.Graph

def write {α : Type} (store : Span → Option α) (file : Span × α) : Span → Option α :=
  Function.update store file.1 (some file.2)

/--
The files by their names when they are written in this order.
-/
def written {α : Type} (files : List (Span × α)) : Span → Option α :=
  files.foldl write fun _ => none

namespace Header

/--
The headers of which the preprocessor takes the text when it reads `h`, where `find` gives the header
of a name: one whose guard is defined contributes nothing.
-/
def Preprocessed (find : Span → Option Header) (h : Header) (opened : List Header) : Prop :=
  Opens Header.guard (fun h => h.includes.filterMap find) [] [h] opened

/--
Every message or enum that the header names is defined in what the preprocessor reads.
-/
def SelfSufficient (find : Span → Option Header) (h : Header) : Prop :=
  ∃ opened, h.Preprocessed find opened
    ∧ ∀ u ∈ h.uses, ∃ h' ∈ opened, ∃ d ∈ h'.decls, d.ident = ⟨u.ident.owner, .type⟩

end Header

namespace Pool

variable (p : Pool) (path : FileId → Span)

/--
The headers of the files, by the names under which they are written.
-/
def headerFiles (headers : List Header) : Span → Option Header :=
  written ((p.files.zip headers).map fun (f, h) => (outputName (path f), h))

/--
The file whose header is the last to be written under this name.
-/
def writer : Span → Option FileId :=
  written (p.files.map fun f => (outputName (path f), f))

/--
The files whose headers are found where `f` imports others.
-/
def included (f : FileId) : List FileId :=
  (p.heap f).imports.filterMap fun imp =>
    imp.resolved.bind fun g => p.writer path (outputName (path g))

/--
Where the imports of `f` are followed in order, and a file is passed by, with all that it imports, if
one whose path gives the same guard was met before, `g` is met.
-/
def Meets (f g : FileId) : Prop :=
  ∃ opened, Opens (fun f => deriveGuard (path f)) (p.included path) [] [f] opened ∧ g ∈ opened

end Pool

theorem written_rel {α β : Type} {R : α → β → Prop} {files : List (Span × α)} {files' : List (Span × β)}
    (h : List.Forall₂ (fun x y => x.1 = y.1 ∧ R x.2 y.2) files files') (name : Span)
    : Option.Rel R (written files name) (written files' name) := by
  have hgo : ∀ (s : Span → Option α) (s' : Span → Option β), (∀ name, Option.Rel R (s name) (s' name))
      → ∀ name, Option.Rel R (files.foldl write s name) (files'.foldl write s' name) := by
    induction h with
    | nil => exact fun _ _ hs => hs
    | @cons x y _ _ hxy _ ih =>
      intro s s' hs
      rw [List.foldl_cons, List.foldl_cons]
      apply ih
      intro name
      unfold write
      rw [hxy.1]
      by_cases hname : name = y.1
      . subst hname
        rw [Function.update_self, Function.update_self]
        exact .some hxy.2
      . rw [Function.update_of_ne hname, Function.update_of_ne hname]
        exact hs name
  exact hgo _ _ (fun _ => .none) name

theorem written_mem {α : Type} {files : List (Span × α)} {name : Span} {a : α}
    (h : written files name = some a) : ∃ name, (name, a) ∈ files := by
  have hgo : ∀ (s : Span → Option α),
      files.foldl write s name = some a
        → s name = some a ∨ ∃ name, (name, a) ∈ files := by
    clear h
    induction files with
    | nil => exact fun s h => .inl h
    | cons x files ih =>
      intro s h
      rw [List.foldl_cons] at h
      rcases ih _ h with hs | ⟨name', hmem⟩
      . unfold write at hs
        by_cases hname : name = x.1
        . subst hname
          rw [Function.update_self, Option.some_inj] at hs
          subst hs
          exact .inr ⟨x.1, List.mem_cons_self⟩
        . rw [Function.update_of_ne hname] at hs
          exact .inl hs
      . exact .inr ⟨name', List.mem_cons_of_mem _ hmem⟩
  rcases hgo _ h with hs | hex
  . simp at hs
  . exact hex

theorem filterMap_rel {α β γ δ : Type} {R : α → β → Prop} {g : γ → Option α} {g' : δ → Option β}
    {l : List γ} {l' : List δ} (h : List.Forall₂ (fun x y => Option.Rel R (g x) (g' y)) l l')
    : List.Forall₂ R (l.filterMap g) (l'.filterMap g') := by
  induction h with
  | nil => exact .nil
  | @cons x y _ _ hxy _ ih =>
    rw [List.filterMap_cons, List.filterMap_cons]
    cases hx : g x with
    | none =>
      rw [hx] at hxy
      cases hy : g' y with
      | none => exact ih
      | some b =>
        rw [hy] at hxy
        cases hxy
    | some a =>
      rw [hx] at hxy
      cases hy : g' y with
      | none =>
        rw [hy] at hxy
        cases hxy
      | some b =>
        rw [hy] at hxy
        cases hxy with
        | some hab => exact .cons hab ih

namespace Pool

variable {p : Pool} {path : FileId → Span} {l : Ledger Ident} {headers : List Header}

variable (p path) in
theorem included_subset (f : FileId) : p.included path f ⊆ p.files := by
  intro g hg
  simp only [included, List.mem_filterMap, Option.bind_eq_some_iff] at hg
  obtain ⟨imp, -, g', -, hwriter⟩ := hg
  obtain ⟨name, hmem⟩ := written_mem hwriter
  rw [List.mem_map] at hmem
  obtain ⟨f', hf', heq⟩ := hmem
  rw [Prod.mk.injEq] at heq
  exact heq.2 ▸ hf'

variable (p path l) in
/--
`h` is the header of `f`.
-/
def IsHeaderOf (f : FileId) (h : Header) : Prop :=
  f ∈ p.files ∧ p.emitFile path l f = some h

theorem headers_forall₂ (hemit : p.files.mapM (p.emitFile path l) = some headers)
    : List.Forall₂ (p.IsHeaderOf path l) p.files headers :=
  forall₂_of_mem (forall₂_of_mapM_some hemit) fun _ hf _ h => ⟨hf, h⟩

theorem headerFiles_rel (hemit : p.files.mapM (p.emitFile path l) = some headers) (name : Span)
    : Option.Rel (p.IsHeaderOf path l) (p.writer path name) (p.headerFiles path headers name) := by
  apply written_rel
  have hforall := headers_forall₂ hemit
  clear hemit
  generalize p.files = files at hforall
  induction hforall with
  | nil => exact .nil
  | cons h _ ih => exact .cons ⟨rfl, h⟩ ih

/--
An import line includes the header of a file under the name of the one that is imported.
-/
theorem includes_rel (hlinked : ∀ f ∈ p.files, ∀ imp ∈ (p.heap f).imports,
      ∃ g ∈ p.files, imp.resolved = some g ∧ path g = imp.parsed.path)
    (hemit : p.files.mapM (p.emitFile path l) = some headers) {f : FileId} {h : Header}
    (hf : p.IsHeaderOf path l f h)
    : List.Forall₂ (p.IsHeaderOf path l) (p.included path f)
      (h.includes.filterMap (p.headerFiles path headers)) := by
  obtain ⟨hmem, hf⟩ := hf
  obtain ⟨forwards, decls, -, -, rfl⟩ := emitFile_eq_some hf
  apply filterMap_rel
  rw [List.forall₂_map_right_iff, List.forall₂_same]
  intro imp himp
  obtain ⟨g, -, hresolved, hpath⟩ := hlinked f hmem imp himp
  rw [hresolved, Option.bind_some, ← hpath]
  exact headerFiles_rel hemit _

/--
A header has what it needs where the files of the types that its fields name are met.
-/
theorem header_selfSufficient_iff (hdescribed : p.Described path)
    (hemit : p.files.mapM (p.emitFile path l) = some headers) {f : FileId} {h : Header}
    (hf : p.IsHeaderOf path l f h)
    : h.SelfSufficient (p.headerFiles path headers)
        ↔ ∀ m ∈ (p.heap f).messages, ∀ fld ∈ m.fields, ∀ e ∈ fld.type.entities,
          p.Meets path f e.file := by
  obtain ⟨opened, hopened⟩ := exists_opens (fun f => deriveGuard (path f))
    (fun g _ => included_subset p path g) [] (List.cons_subset.mpr ⟨hf.1, List.nil_subset _⟩)
  have hguard : ∀ g h', p.IsHeaderOf path l g h' → deriveGuard (path g) = h'.guard := by
    rintro g h' ⟨-, hg⟩
    obtain ⟨_, _, -, -, rfl⟩ := emitFile_eq_some hg
    rfl
  obtain ⟨openedHeaders, hopenedHeaders, hforall⟩ := hopened.simulate hguard
    (fun _ _ hg => includes_rel hdescribed.linked hemit hg) (.cons hf .nil)
  -- What is opened is determined, by the files as well as by their headers.
  have hmeets : ∀ g, p.Meets path f g ↔ g ∈ opened := by
    intro g
    constructor
    . rintro ⟨opened', hopened', hg⟩
      rwa [hopened.unique hopened']
    . exact fun hg => ⟨opened, hopened, hg⟩
  have hself : f ∈ opened := by
    cases hopened with
    | skip hmem => simp at hmem
    | enter => exact List.mem_cons_self
  -- A type is declared in the header of the file that it is declared in, and nowhere else.
  have hdefined : ∀ e, p.Has e
      → ((∃ h' ∈ openedHeaders, ∃ d ∈ h'.decls, d.ident = ⟨e, .type⟩) ↔ e.file ∈ opened) := by
    intro e he
    constructor
    . rintro ⟨h', hh', hd⟩
      obtain ⟨g, hg, hgh'⟩ := exists_of_forall₂_mem hforall.flip hh'
      rwa [(defines_iff hgh'.2 he).mp hd]
    . intro hfile
      obtain ⟨h', hh', hgh'⟩ := exists_of_forall₂_mem hforall hfile
      exact ⟨h', hh', (defines_iff hgh'.2 he).mpr rfl⟩
  have hiff : h.SelfSufficient (p.headerFiles path headers)
      ↔ ∀ u ∈ h.uses, ∃ h' ∈ openedHeaders, ∃ d ∈ h'.decls, d.ident = ⟨u.ident.owner, .type⟩ := by
    constructor
    . rintro ⟨opened', hopened', huses⟩
      rwa [← hopenedHeaders.unique hopened'] at huses
    . exact fun huses => ⟨openedHeaders, hopenedHeaders, huses⟩
  rw [hiff]
  constructor
  . intro huses m hm fld hfld e he
    obtain ⟨u, hu, rfl⟩ := exists_use hf.2 hm hfld he
    exact (hmeets _).mpr ((hdefined _ (hdescribed.typed f hf.1 m hm fld hfld _ he)).mp (huses u hu))
  . intro hfields u hu
    rcases owner_of_mem_uses hf.2 hf.1 hu with ⟨hhas, hfile⟩ | ⟨m, hm, fld, hfld, he⟩
    . exact (hdefined _ hhas).mpr (hfile ▸ hself)
    . have hhas := hdescribed.typed f hf.1 m hm fld hfld _ he
      exact (hdefined _ hhas).mpr ((hmeets _).mp (hfields m hm fld hfld _ he))

theorem written_of_nodup {files : List FileId} {key : FileId → Span}
    (hkey : ∀ f ∈ files, ∀ g ∈ files, key f = key g → f = g) {f : FileId} (hf : f ∈ files)
    : written (files.map fun f => (key f, f)) (key f) = some f := by
  have hgo : ∀ l : List FileId, l ⊆ files → ∀ s : Span → Option FileId, f ∈ l ∨ s (key f) = some f
      → (l.map fun f => (key f, f)).foldl write s (key f) = some f := by
    intro l
    induction l with
    | nil =>
      rintro - s (hmem | hs)
      . simp at hmem
      . exact hs
    | cons g l ih =>
      intro hsub s hs
      rw [List.cons_subset] at hsub
      rw [List.map_cons, List.foldl_cons]
      apply ih hsub.2
      unfold write
      by_cases hfg : f = g
      . subst hfg
        exact .inr (Function.update_self ..)
      . have hne : key f ≠ key g := fun heq => hfg (hkey f hf g hsub.1 heq)
        rw [Function.update_of_ne hne]
        exact hs.imp_left fun hmem => (List.mem_cons.mp hmem).resolve_left hfg
  exact hgo files (List.Subset.refl _) _ (.inl hf)

/-- Where no two paths give one guard or one header, a file meets all that it imports over any number of
steps. -/
theorem meets_iff (hdescribed : p.Described path)
    (hguard : ∀ f ∈ p.files, ∀ g ∈ p.files, deriveGuard (path f) = deriveGuard (path g) → f = g)
    (houtput : ∀ f ∈ p.files, ∀ g ∈ p.files, outputName (path f) = outputName (path g) → f = g)
    {f : FileId} (hf : f ∈ p.files) (g : FileId)
    : p.Meets path f g ↔ Relation.ReflTransGen p.Imports f g := by
  have hincluded : ∀ f ∈ p.files, ∀ g, g ∈ p.included path f ↔ p.Imports f g := by
    intro f hf g
    simp only [included, List.mem_filterMap, Option.bind_eq_some_iff]
    constructor
    . rintro ⟨imp, himp, g', hresolved, hwriter⟩
      obtain ⟨g'', hg'', hresolved', -⟩ := hdescribed.linked f hf imp himp
      rw [hresolved, Option.some_inj] at hresolved'
      subst hresolved'
      unfold writer at hwriter
      rw [written_of_nodup houtput hg'', Option.some_inj] at hwriter
      subst hwriter
      exact ⟨hg'', imp, himp, hresolved⟩
    . rintro ⟨hg, imp, himp, hresolved⟩
      exact ⟨imp, himp, g, hresolved, written_of_nodup houtput hg⟩
  have hpath : ∀ g, Relation.ReflTransGen (fun a b => b ∈ p.included path a) f g
      ↔ Relation.ReflTransGen p.Imports f g := by
    intro g
    constructor
    . intro h
      have : g ∈ p.files ∧ Relation.ReflTransGen p.Imports f g := by
        induction h with
        | refl => exact ⟨hf, .refl⟩
        | tail _ hstep ih =>
          exact ⟨included_subset _ _ _ hstep, ih.2.tail ((hincluded _ ih.1 _).mp hstep)⟩
      exact this.2
    . intro h
      have : g ∈ p.files ∧ Relation.ReflTransGen (fun a b => b ∈ p.included path a) f g := by
        induction h with
        | refl => exact ⟨hf, .refl⟩
        | tail _ hstep ih => exact ⟨hstep.1, ih.2.tail ((hincluded _ ih.1 _).mpr hstep)⟩
      exact this.2
  have hsub : [f] ⊆ p.files := List.cons_subset.mpr ⟨hf, List.nil_subset _⟩
  have hall : ∀ g ∈ p.files, p.included path g ⊆ p.files := fun g _ => included_subset p path g
  constructor
  . rintro ⟨opened, hopened, hg⟩
    obtain ⟨a, ha, h⟩ := hopened.reached hg
    rw [List.mem_singleton] at ha
    subst ha
    exact (hpath g).mp h
  . intro h
    obtain ⟨opened, hopened⟩ := exists_opens (fun f => deriveGuard (path f)) hall [] hsub
    exact ⟨opened, hopened,
      (hopened.mem_iff hall hguard hsub g).mpr ⟨f, List.mem_singleton_self f, (hpath g).mpr h⟩⟩

/-- Where no two paths give one guard or one header, a header has what it needs if the types that its
fields name are of files that it imports over any number of steps. -/
theorem header_selfSufficient_iff_imports (hdescribed : p.Described path)
    (hguard : ∀ f ∈ p.files, ∀ g ∈ p.files, deriveGuard (path f) = deriveGuard (path g) → f = g)
    (houtput : ∀ f ∈ p.files, ∀ g ∈ p.files, outputName (path f) = outputName (path g) → f = g)
    (hemit : p.files.mapM (p.emitFile path l) = some headers) {f : FileId} {h : Header}
    (hf : p.IsHeaderOf path l f h)
    : h.SelfSufficient (p.headerFiles path headers)
        ↔ ∀ m ∈ (p.heap f).messages, ∀ fld ∈ m.fields, ∀ e ∈ fld.type.entities,
          Relation.ReflTransGen p.Imports f e.file := by
  rw [header_selfSufficient_iff hdescribed hemit hf]
  simp only [meets_iff hdescribed hguard houtput hf.1]

theorem emitFiles_eq_some {plan : Plan} (h : p.emitFiles path plan = some headers)
    : ∃ agenda l, p.agenda plan = some agenda ∧ agenda.run = some l
        ∧ p.files.mapM (p.emitFile path l) = some headers := by
  unfold emitFiles at h
  simp only [Option.bind_eq_bind, Option.bind_eq_some_iff] at h
  obtain ⟨agenda, hagenda, l, hl, hmapM⟩ := h
  exact ⟨agenda, l, hagenda, hl, hmapM⟩

end Pool

/--
All headers have what they need exactly where, from each file, the files are met that declare the
types of its fields, also of those that a block of another file has added. The name in an include line
is looked up from the output root, not from the directory of the header that includes it.
-/
theorem Sources.headers_selfSufficient_iff [Libc] {src : Sources} {plan : Plan} {p : Pool}
    {headers : List Header} (hdescribe : src.describe = some p)
    (hemit : p.emitFiles src.path plan = some headers)
    : (∀ h ∈ headers, h.SelfSufficient (p.headerFiles src.path headers))
        ↔ ∀ f ∈ p.files, ∀ m ∈ (p.heap f).messages, ∀ fld ∈ m.fields, ∀ e ∈ fld.type.entities,
          p.Meets src.path f e.file := by
  obtain ⟨-, hdescribed⟩ := Sources.described hdescribe
  obtain ⟨agenda, l, -, -, hmapM⟩ := Pool.emitFiles_eq_some hemit
  have hforall := Pool.headers_forall₂ hmapM
  constructor
  . intro hheaders f hf
    obtain ⟨h, hh, hfh⟩ := Pool.exists_of_forall₂_mem hforall hf
    exact (Pool.header_selfSufficient_iff hdescribed hmapM hfh).mp (hheaders h hh)
  . intro hfields h hh
    obtain ⟨f, hf, hfh⟩ := Pool.exists_of_forall₂_mem hforall.flip hh
    exact (Pool.header_selfSufficient_iff hdescribed hmapM hfh).mpr (hfields f hf)

/--
A file whose message is extended by a field of a message of the file that imports it.
-/
def crossExtended : Sources where
  files := [0, 1]
  nodup := nodup_pair
  path f := if f = 0 then "a.proto".toList else "b.proto".toList
  text f :=
    if f = 0 then
      "message A{}".toList
    else
      "import \"a.proto\";message B{}extend A{B b=1;}".toList

/--
The message without fields gets contracts, the one with a field of another file does not.
-/
def crossExtendedPlan : Plan := fun id =>
  if id = ⟨1, 0⟩ then some ⟨false, []⟩ else none

/--
Run the generator, and look for a header that names what is not defined in what is read.
-/
def lacks [Libc] (src : Sources) (plan : Plan) : Bool :=
  match src.describe with
  | none => false
  | some p =>
    match p.emitFiles src.path plan with
    | none => false
    | some headers =>
      headers.any fun h =>
        let read := openAll Header.guard (fun h => h.includes.filterMap (p.headerFiles src.path headers))
          (headers.length * headers.length) [] [h]
        read.any fun opened =>
          h.uses.any fun u => opened.all fun h' => h'.decls.all fun d =>
            d.ident ≠ ⟨u.ident.owner, .type⟩

theorem not_selfSufficient_of_lacks [Libc] {src : Sources} {plan : Plan} (h : lacks src plan = true)
    : ∃ p headers, src.describe = some p ∧ p.emitFiles src.path plan = some headers
        ∧ ¬∀ h ∈ headers, h.SelfSufficient (p.headerFiles src.path headers) := by
  unfold lacks at h
  split at h
  . simp at h
  . next p hdescribe =>
    split at h
    . simp at h
    . next headers hemit =>
      refine ⟨p, headers, hdescribe, hemit, ?_⟩
      simp only [List.any_eq_true, Option.any_eq_true, List.all_eq_true, decide_eq_true_eq] at h
      obtain ⟨h, hh, opened, hopened, u, hu, hnot⟩ := h
      intro hall
      obtain ⟨opened', hopened', huses⟩ := hall h hh
      rw [hopened'.unique (opens_of_openAll hopened)] at huses
      obtain ⟨h', hh', d, hd, heq⟩ := huses u hu
      exact hnot h' hh' d hd heq

theorem crossExtended_not_selfSufficient
    : (∀ f ∈ crossExtended.files, ∀ g ∈ crossExtended.files,
          crossExtended.path f = crossExtended.path g → f = g)
        ∧ ∃ p headers, @Sources.describe Pool.constLibc crossExtended = some p
          ∧ p.emitFiles crossExtended.path crossExtendedPlan = some headers
          ∧ ¬∀ h ∈ headers, h.SelfSufficient (p.headerFiles crossExtended.path headers) :=
  ⟨by decide, @not_selfSufficient_of_lacks Pool.constLibc crossExtended crossExtendedPlan
    (by decide +kernel)⟩

theorem crossExtended_selfSufficient_iff
    : ∃ p headers, @Sources.describe Pool.constLibc crossExtended = some p
        ∧ p.emitFiles crossExtended.path crossExtendedPlan = some headers
        ∧ ((∀ h ∈ headers, h.SelfSufficient (p.headerFiles crossExtended.path headers))
          ↔ ∀ f ∈ p.files, ∀ m ∈ (p.heap f).messages, ∀ fld ∈ m.fields, ∀ e ∈ fld.type.entities,
            p.Meets crossExtended.path f e.file) := by
  obtain ⟨p, headers, hdescribe, hemit, -⟩ :=
    @not_selfSufficient_of_lacks Pool.constLibc crossExtended crossExtendedPlan (by decide +kernel)
  exact ⟨p, headers, hdescribe, hemit,
    @Sources.headers_selfSufficient_iff Pool.constLibc _ _ _ _ hdescribe hemit⟩

end Gremlin
