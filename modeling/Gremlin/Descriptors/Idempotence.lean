import Gremlin.Descriptors.Pipeline

/-!
This module contains second runs of the passes.
-/

namespace Gremlin

open Text Parser Memory

/-! A text has one outline. -/

section Outline

variable [Libc] {text : Span}

theorem Outline.OfBody.unique {es : List MessageEntry} {o o' : Outline} (h : o.OfBody text es)
    (h' : o'.OfBody text es) : o' = o := by
  induction h generalizing o' with
  | nil =>
    cases h'
    rfl
  | entry he _ ih =>
    cases h' with
    | entry _ hrest => rw [ih hrest]
    | message => exact absurd rfl (he _)
  | message hinner _ _ ihbody ihrest =>
    cases h' with
    | entry he _ => exact absurd rfl (he _)
    | message hinner' hbody hrest =>
      rw [hinner, Prod.mk.injEq] at hinner'
      obtain ⟨rfl, -⟩ := hinner'
      rw [ihbody hbody, ihrest hrest]

theorem Outline.OfFile.unique {es : List FileEntry} {o o' : Outline} (h : o.OfFile text es)
    (h' : o'.OfFile text es) : o' = o := by
  induction h generalizing o' with
  | nil =>
    cases h'
    rfl
  | entry he _ ih =>
    cases h' with
    | entry _ hrest => rw [ih hrest]
    | message => exact absurd rfl (he _)
  | message hinner hbody _ ihrest =>
    cases h' with
    | entry he _ => exact absurd rfl (he _)
    | message hinner' hbody' hrest =>
      rw [hinner, Prod.mk.injEq] at hinner'
      obtain ⟨rfl, -⟩ := hinner'
      rw [hbody.unique hbody', ihrest hrest]

theorem Outline.Of.unique {offset : Nat} {o o' : Outline} (h : o.Of text offset)
    (h' : o'.Of text offset) : o' = o := by
  obtain ⟨es, hes, h⟩ := h
  obtain ⟨es', hes', h'⟩ := h'
  rw [hes, Prod.mk.injEq] at hes'
  obtain ⟨rfl, -⟩ := hes'
  exact h.unique h'

end Outline

def Sources.NoExtensions [Libc] (src : Sources) : Prop :=
  ∀ f ∈ src.files, ∀ o : Outline, o.Of (src.text f) 0
    → ∀ e ∈ o.extends none 0 (src.text f).length,
      (extendFields (Buffer.between (src.text f) e.2.2.bodyStart e.2.2.bodyEnd)).1 = []

namespace Pool

variable {p q : Pool}

theorem linkImports_idem {path : FileId → Span} (h : p.linkImports path = .ok q)
    : q.linkImports path = .ok q := by
  obtain ⟨hfiles, hok, -⟩ := sweep_ok linkFile_stable h
  apply sweep_fixed
  intro f hf
  rw [hfiles] at hf
  obtain ⟨imports, heq, hforall⟩ := linkFile_eq_ok (hok f hf)
  have hfixed : List.Forall₂ (fun imp imp' => q.linkImport path imp = .ok imp') imports imports := by
    rw [List.forall₂_same]
    intro imp himp
    obtain ⟨imp', hlink⟩ := exists_of_forall₂ hforall.flip himp
    obtain ⟨g, hlookup, rfl⟩ := linkImport_ok hlink
    unfold linkImport lookup
    rw [hfiles]
    unfold lookup at hlookup
    dsimp only
    rw [hlookup]
  unfold linkFile
  rw [heq]
  dsimp only
  rw [mapM_of_forall₂ hfixed]
  rfl

theorem computeScopedNames_idem (hnested : ∀ f ∈ p.files, (p.heap f).Nested)
    (h : p.computeScopedNames = .ok q) : q.computeScopedNames = .ok q := by
  obtain ⟨hfiles, hok, -⟩ := sweep_ok computeScopedNames_stable h
  apply sweep_fixed
  intro f hf
  rw [hfiles] at hf
  exact FileNode.computeScopedNames_idem (hnested f hf) (hok f hf)

theorem computeVisibility_idem (hlinked : p.Linked) (h : p.computeVisibility = some q)
    : q.computeVisibility = some q := by
  obtain ⟨visible, q', hq', hfiles, hvisible, hheap⟩ := exists_computeVisibility hlinked
  rw [h, Option.some_inj] at hq'
  subst hq'
  have himports : ∀ f, (q.heap f).imports = (p.heap f).imports := by
    intro f
    rw [hheap f]
    split <;> rfl
  obtain ⟨visible', r, hr, hfiles', hvisible', hheap'⟩ :=
    exists_computeVisibility (hlinked.congr hfiles himports)
  rw [hr]
  congr 1
  apply Pool.ext
  . exact hfiles'
  . funext f
    rw [hheap' f]
    split
    . next hf =>
      have hsame := hvisible' f hf
      rw [visibleOf_congr hfiles himports, hvisible f (hfiles ▸ hf), Option.some_inj] at hsame
      rw [hheap f, if_pos (hfiles ▸ hf), hsame]
    . rfl

theorem resolveTypeRefs_idem (h : p.resolveTypeRefs = .ok q) : q.resolveTypeRefs = .ok q := by
  obtain ⟨hfiles, hok, hrest⟩ := sweep_ok resolveFile_stable h
  have hsame : ∀ f, SameNames (p.heap f) (q.heap f) := by
    intro f
    by_cases hf : f ∈ p.files
    . exact resolveFile_sameNames (hok f hf)
    . rw [hrest f hf]
      exact ⟨rfl, rfl, rfl⟩
  apply sweep_fixed
  intro f hf
  rw [hfiles] at hf
  obtain ⟨messages, heq, hmessages⟩ := resolveFile_eq_ok (hok f hf)
  have hfixed : List.Forall₂ (fun m m' => q.resolveMessage f m = .ok m') messages messages := by
    rw [List.forall₂_same]
    intro m' hm'
    obtain ⟨m, hmessage⟩ := exists_of_forall₂ hmessages.flip hm'
    obtain ⟨fields, rfl, hfields⟩ := resolveMessage_eq_ok hmessage
    have hfixed : List.Forall₂ (fun fld fld' => q.resolveField f { m with fields } fld = .ok fld')
        fields fields := by
      rw [List.forall₂_same]
      intro fld' hfld'
      obtain ⟨fld, hfield⟩ := exists_of_forall₂ hfields.flip hfld'
      rw [resolveField_congr hsame]
      unfold resolveField at hfield ⊢
      cases htype : p.resolveFieldType (fieldScope m fld) (p.fieldVisible f fld) fld.parsed.type with
      | error e => simp [htype, Except.map] at hfield
      | ok type =>
        simp only [htype, Except.map, Except.ok.injEq] at hfield
        subst hfield
        have : p.resolveFieldType (fieldScope { m with fields } { fld with type })
            (p.fieldVisible f { fld with type }) fld.parsed.type = .ok type := htype
        dsimp only
        rw [this]
        rfl
    unfold resolveMessage
    dsimp only
    rw [mapM_of_forall₂ hfixed]
    rfl
  unfold resolveFile
  rw [heq]
  dsimp only
  rw [mapM_of_forall₂ hfixed]
  rfl

section Propagation

variable [Libc] {src : Sources} {outline : FileId → Outline}

theorem Ready.congr (h : Ready src outline p) (hq : Keeps p q) : Ready src outline q where
  isOutline f hf := h.isOutline f (hq.files ▸ hf)
  size f hf := by
    have hlength := congrArg List.length (hq.names f)
    rw [List.length_map, List.length_map] at hlength
    rw [h.size f (hq.files ▸ hf), hlength]
  visible f hf g hg := by
    rw [hq.visible] at hg
    rw [hq.files] at hf ⊢
    exact h.visible f hf g hg

theorem Ready.noExtensions_iff (h : Ready src outline p) (hfiles : p.files = src.files)
    : src.NoExtensions ↔ ∀ b ∈ p.blocks src.text outline, p.newFields src.text b = [] := by
  unfold blocks blocksOf newFields
  constructor
  . intro hno b hb
    simp only [List.mem_flatMap, List.mem_map] at hb
    obtain ⟨f, hf, e, he, rfl⟩ := hb
    rw [List.map_eq_nil_iff]
    exact hno f (hfiles ▸ hf) _ (h.isOutline f hf) e he
  . intro hnil f hf o ho e he
    rw [← hfiles] at hf
    rw [(h.isOutline f hf).unique ho] at he
    have := hnil (p.blockAt f e)
      (List.mem_flatMap.mpr ⟨f, hf, List.mem_map_of_mem he⟩)
    exact List.map_eq_nil_iff.mp this

theorem foldl_extendBlock_nil {blocks : List Block} (h : ∀ b ∈ blocks, p.newFields src.text b = [])
    : blocks.foldl (p.extendBlock src.text) q = q := by
  induction blocks with
  | nil => rfl
  | cons b blocks ih =>
    rw [List.forall_mem_cons] at h
    rw [List.foldl_cons, extendBlock, h.1, append_nil, ih h.2]

theorem newFields_eq_nil_of_foldl {blocks : List Block} (happlies : ∀ b ∈ blocks, p.Applies src.text b)
    (h : blocks.foldl (p.extendBlock src.text) p = p) (b : Block) (hb : b ∈ blocks)
    : p.newFields src.text b = [] := by
  obtain ⟨m, hget⟩ := resolveExtendTarget_mem (happlies b hb).target
  have hheap : (blocks.foldl (p.extendBlock src.text) p).heap (p.targetOf b).file = _ :=
    foldl_heap blocks _
  rw [h] at hheap
  have hmessages := congrArg (fun file => file.messages[(p.targetOf b).index]?) hheap
  dsimp only at hmessages
  rw [List.getElem?_mapIdx, hget, Option.map_some, Option.some_inj] at hmessages
  have hfields := congrArg MessageNode.fields hmessages
  dsimp only at hfields
  rw [List.self_eq_append_right, appended, List.flatMap_eq_nil_iff] at hfields
  exact hfields b (List.mem_filter.mpr ⟨hb, by simp⟩)

theorem propagateExtends_idem_iff (h : Ready src outline p) (hfiles : p.files = src.files)
    (hok : p.propagateExtends src.text = .ok q)
    : q.propagateExtends src.text = .ok q ↔ src.NoExtensions := by
  have hq : q = (p.blocks src.text outline).foldl (p.extendBlock src.text) p := by
    rcases propagateExtends_go h.isOutline h.size (.refl p) 0 with ⟨e, i, herror⟩ | ⟨-, hok'⟩
    . unfold propagateExtends at hok
      simp [herror] at hok
    . unfold propagateExtends at hok
      rw [hok', Except.ok.injEq] at hok
      exact hok.symm
  constructor
  . intro hagain
    have hkeeps : Keeps p q := hq ▸ (Keeps.refl p).foldl _
    have hready := h.congr hkeeps
    rw [hready.noExtensions_iff (hkeeps.files.trans hfiles)]
    rcases propagateExtends_go hready.isOutline hready.size (.refl q) 0 with
      ⟨e, i, herror⟩ | ⟨happlies, hok'⟩
    . unfold propagateExtends at hagain
      simp [herror] at hagain
    . unfold propagateExtends at hagain
      rw [hok', Except.ok.injEq] at hagain
      exact newFields_eq_nil_of_foldl happlies hagain
  . intro hno
    rw [h.noExtensions_iff hfiles] at hno
    rw [foldl_extendBlock_nil hno] at hq
    rw [hq] at hok ⊢
    exact hok

/--
A second run of each pass right after its first one ends well and changes nothing if and only if no
extend block has a field.
-/
theorem passes_idem_iff {p₀ p₁ p₂ p₃ p₄ p₅ : Pool} (hbuild : src.buildAll = .ok p₀)
    (hlink : p₀.linkImports src.path = .ok p₁) (hnames : p₁.computeScopedNames = .ok p₂)
    (hvisible : p₂.computeVisibility = some p₃) (hextend : p₃.propagateExtends src.text = .ok p₄)
    (hresolve : p₄.resolveTypeRefs = .ok p₅)
    : (p₁.linkImports src.path = .ok p₁ ∧ p₂.computeScopedNames = .ok p₂
          ∧ p₃.computeVisibility = some p₃ ∧ p₄.propagateExtends src.text = .ok p₄
          ∧ p₅.resolveTypeRefs = .ok p₅)
        ↔ src.NoExtensions := by
  obtain ⟨hfiles, hlinked, hnested, outline, hready⟩ := exists_ready hbuild hlink hnames hvisible
  have hiff := propagateExtends_idem_iff hready hfiles hextend
  constructor
  . rintro ⟨-, -, -, hagain, -⟩
    exact hiff.mp hagain
  . intro hno
    exact ⟨linkImports_idem hlink, computeScopedNames_idem hnested hnames,
      computeVisibility_idem hlinked hvisible, hiff.mpr hno, resolveTypeRefs_idem hresolve⟩

end Propagation

/--
After a second run the message has the field of the block twice.
-/
theorem extending_not_idem
    : ∃ p₀ p₁ p₂ p₃ p₄ p₅ q, @Sources.buildAll constLibc extending = .ok p₀
        ∧ p₀.linkImports extending.path = .ok p₁ ∧ p₁.computeScopedNames = .ok p₂
        ∧ p₂.computeVisibility = some p₃ ∧ @propagateExtends constLibc extending.text p₃ = .ok p₄
        ∧ p₄.resolveTypeRefs = .ok p₅ ∧ @propagateExtends constLibc extending.text p₄ = .ok q
        ∧ (p₄.heap 0).messages.map (fun m => m.fields.map fun fld => fld.parsed.name) = [[['x']]]
        ∧ (q.heap 0).messages.map (fun m => m.fields.map fun fld => fld.parsed.name)
          = [[['x'], ['x']]] := by
  have hcheck : @check constLibc extending (fun _ p _ =>
      (p.heap 0).messages.map (fun m => m.fields.map fun fld => fld.parsed.name) = [[['x']]]
      && (@propagateExtends constLibc extending.text p).toOption.any fun q =>
        (q.heap 0).messages.map (fun m => m.fields.map fun fld => fld.parsed.name)
          = [[['x'], ['x']]]) = true := by
    decide +kernel
  obtain ⟨p₀, p₁, p₂, p₃, p₄, p₅, hbuild, hlink, hnames, hvisible, hextend, hresolve, htest⟩ :=
    @exists_passes constLibc _ _ hcheck
  rw [Bool.and_eq_true] at htest
  obtain ⟨hfields, htest⟩ := htest
  cases hq : @propagateExtends constLibc extending.text p₄ with
  | error e =>
    rw [hq] at htest
    cases htest
  | ok q =>
    rw [hq] at htest
    exact ⟨p₀, p₁, p₂, p₃, p₄, p₅, q, hbuild, hlink, hnames, hvisible, hextend, hresolve, hq,
      of_decide_eq_true hfields, of_decide_eq_true htest⟩

theorem extending_passes_idem_iff
    : ∃ p₁ p₂ p₃ p₄ p₅ : Pool, (p₁.linkImports extending.path = .ok p₁ ∧ p₂.computeScopedNames = .ok p₂
          ∧ p₃.computeVisibility = some p₃
          ∧ @propagateExtends constLibc extending.text p₄ = .ok p₄ ∧ p₅.resolveTypeRefs = .ok p₅)
        ↔ @Sources.NoExtensions constLibc extending := by
  have hcheck : @check constLibc extending (fun _ _ _ => true) = true := by decide +kernel
  obtain ⟨p₀, p₁, p₂, p₃, p₄, p₅, hbuild, hlink, hnames, hvisible, hextend, hresolve, -⟩ :=
    @exists_passes constLibc _ _ hcheck
  exact ⟨p₁, p₂, p₃, p₄, p₅,
    @passes_idem_iff constLibc extending p₀ p₁ p₂ p₃ p₄ p₅ hbuild hlink hnames hvisible hextend hresolve⟩

end Pool

end Gremlin
