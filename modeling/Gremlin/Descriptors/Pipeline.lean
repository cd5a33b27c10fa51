import Gremlin.Descriptors.Propagation

/-!
This module contains the passes one after the other.
-/

namespace Gremlin

open Text Parser Memory

/-! The names of the blocks. -/

theorem isTypeName_of_parse {b b' : Buffer} {span : Span}
    (h : parseFullIdentifier.run b = (.ok span, b')) : IsTypeName span := by
  obtain ⟨-, absolute, segments, hne, hsegments, rfl⟩ := parseFullIdentifier_ok h
  refine ⟨⟨segments, absolute⟩, ⟨hne, ?_⟩, rfl⟩
  intro segment hsegment
  obtain ⟨⟨c, rest, rfl, -⟩, hchars⟩ := hsegments segment hsegment
  refine ⟨by simp, ?_⟩
  intro hdot
  have := hchars _ hdot
  simp [isIdentifierChar, isDigit, isLetter] at this

theorem block_name {word : String} {parseName : EntryParser Span} {entry : EntryParser Unit}
    {b b' : Buffer} {parsed : BodyParseResult}
    (h : (block word parseName entry).run b = (.ok parsed, b'))
    : ∃ b₁ b₂, parseName.run b₁ = (.ok parsed.name, b₂) := by
  obtain ⟨_, b₁, -, h⟩ := andThen_ok.mp (restoring_ok.mp h)
  obtain ⟨_, b₂, -, h⟩ := andThen_ok.mp h
  obtain ⟨name, b₃, hname, h⟩ := andThen_ok.mp h
  obtain ⟨_, b₄, -, h⟩ := andThen_ok.mp h
  obtain ⟨_, b₅, -, h⟩ := andThen_ok.mp h
  obtain ⟨_, b₆, -, h⟩ := andThen_ok.mp h
  obtain ⟨_, b₇, -, h⟩ := andThen_ok.mp h
  simp only [pure_eq, succeed_run, Prod.mk.injEq, Except.ok.injEq] at h
  rw [← h.1]
  exact ⟨b₂, b₃, hname⟩

section Names

variable [Libc] {text : Span}

theorem extendParse_typeName
    : Ensures extendParse fun _ parsed => IsTypeName parsed.baseType := by
  intro b parsed b' h
  obtain ⟨body, b₁, hbody, h⟩ := andThen_ok.mp h
  obtain ⟨_, _, hname⟩ := block_name hbody
  simp only [pure_eq, succeed_run, Prod.mk.injEq, Except.ok.injEq] at h
  rw [← h.1]
  exact isTypeName_of_parse hname

theorem messageNextEntry_typeName
    : Ensures messageNextEntry fun _ e => ∀ parsed, e = .extend parsed → IsTypeName parsed.baseType := by
  apply messageNextEntry_ensures
  case hQ => exact fun _ _ _ _ h => h
  case hextend =>
    rintro b parsed b' h _ ⟨rfl⟩
    exact extendParse_typeName _ _ _ h
  all_goals simp [Ensures]

theorem fileNextEntry_typeName
    : Ensures fileNextEntry fun _ e => ∀ parsed, e = .extend parsed → IsTypeName parsed.baseType := by
  apply fileNextEntry_ensures
  case hQ => exact fun _ _ _ _ h => h
  case hextend =>
    rintro b parsed b' h _ ⟨rfl⟩
    exact extendParse_typeName _ _ _ h
  all_goals simp [Ensures]

theorem Outline.OfBody.extends_typeName {es : List MessageEntry} {o : Outline}
    (ho : o.OfBody text es) (hes : ∀ parsed, .extend parsed ∈ es → IsTypeName parsed.baseType)
    (parent : Option Nat) (next stop : Nat)
    : ∀ e ∈ o.extends parent next stop, IsTypeName e.2.2.baseType := by
  induction ho generalizing parent next stop with
  | nil => simp [Outline.extends]
  | @entry e es rest he hrest ih =>
    have hrest := ih (fun parsed hmem => hes parsed (List.mem_cons_of_mem _ hmem)) parent next stop
    cases e with
    | extend parsed =>
      simp only [Outline.extends, extendOf, Option.map_some, Option.toList_some, List.singleton_append,
        List.forall_mem_cons]
      exact ⟨hes parsed List.mem_cons_self, hrest⟩
    | message parsed => exact absurd rfl (he parsed)
    | field _ | oneof _ | enumeration _ | option _ | extensions _ | reserved _ | group => exact hrest
  | @message parsed inner es body rest hinner _ _ ihbody ihrest =>
    intro e he
    rw [Outline.extends, List.mem_append] at he
    rcases he with he | he
    . refine ihbody ?_ _ _ _ e he
      intro nested hmem
      have hentries : inner = (entries messageNextEntry (bodyOf text parsed)).1 :=
        (congrArg Prod.fst hinner).symm
      rw [hentries] at hmem
      exact entries_mem messageNextEntry_typeName (fun _ _ _ _ h => h) hmem nested rfl
    . exact ihrest (fun parsed hmem => hes parsed (List.mem_cons_of_mem _ hmem)) _ _ _ e he

theorem Outline.OfFile.extends_typeName {es : List FileEntry} {o : Outline}
    (ho : o.OfFile text es) (hes : ∀ parsed, .extend parsed ∈ es → IsTypeName parsed.baseType)
    (next stop : Nat) : ∀ e ∈ o.extends none next stop, IsTypeName e.2.2.baseType := by
  induction ho generalizing next with
  | nil => simp [Outline.extends]
  | @entry e es rest he hrest ih =>
    have hrest := ih (fun parsed hmem => hes parsed (List.mem_cons_of_mem _ hmem)) next
    cases e with
    | extend parsed =>
      simp only [Outline.extends, extendOf, Option.map_some, Option.toList_some, List.singleton_append,
        List.forall_mem_cons]
      exact ⟨hes parsed List.mem_cons_self, hrest⟩
    | message parsed => exact absurd rfl (he parsed)
    | syntaxDef _ | edition _ | package _ | importDef _ | option _ | enumeration _ | service =>
      exact hrest
  | @message parsed inner es body rest hinner hbody _ ihrest =>
    intro e he
    rw [Outline.extends, List.mem_append] at he
    rcases he with he | he
    . refine hbody.extends_typeName ?_ _ _ _ e he
      intro nested hmem
      have hentries : inner = (entries messageNextEntry (bodyOf text parsed)).1 :=
        (congrArg Prod.fst hinner).symm
      rw [hentries] at hmem
      exact entries_mem messageNextEntry_typeName (fun _ _ _ _ h => h) hmem nested rfl
    . exact ihrest (fun parsed hmem => hes parsed (List.mem_cons_of_mem _ hmem)) _ e he

theorem Outline.Of.extends_typeName {offset : Nat} {o : Outline} (ho : o.Of text offset)
    (next stop : Nat) : ∀ e ∈ o.extends none next stop, IsTypeName e.2.2.baseType := by
  obtain ⟨es, hes, ho⟩ := ho
  refine ho.extends_typeName ?_ next stop
  intro parsed hmem
  have hentries : es = (fileEntries text offset).1 := (congrArg Prod.fst hes).symm
  rw [hentries] at hmem
  exact entries_mem fileNextEntry_typeName (fun _ _ _ _ h => h) hmem parsed rfl

end Names

/-! The passes before the extend blocks are propagated. -/

namespace Pool

def UniqueMessageNames (p : Pool) : Prop :=
  ∀ f ∈ p.files, ∀ g ∈ p.files, ∀ (i j : Nat) (m m' : MessageNode), (p.heap f).messages[i]? = some m
    → (p.heap g).messages[j]? = some m' → m.scopedName.segments = m'.scopedName.segments
    → f = g ∧ i = j

variable {p q : Pool}

theorem computeScopedNames_ok (h : p.computeScopedNames = .ok q)
    : q.files = p.files
        ∧ (∀ f, (q.heap f).imports = (p.heap f).imports)
        ∧ ∀ f, (q.heap f).messages.length = (p.heap f).messages.length := by
  obtain ⟨hfiles, hok, hrest⟩ := sweep_ok computeScopedNames_stable h
  refine ⟨hfiles, ?_, ?_⟩
  . intro f
    by_cases hf : f ∈ p.files
    . obtain ⟨package, -, heq⟩ := FileNode.computeScopedNames_eq_ok (hok f hf)
      rw [heq]
    . rw [hrest f hf]
  . intro f
    by_cases hf : f ∈ p.files
    . obtain ⟨package, -, heq⟩ := FileNode.computeScopedNames_eq_ok (hok f hf)
      rw [heq]
      exact length_nameMessages package _
    . rw [hrest f hf]

theorem Linked.congr (h : p.Linked) (hfiles : q.files = p.files)
    (himports : ∀ f, (q.heap f).imports = (p.heap f).imports) : q.Linked := by
  intro f hf imp himp
  rw [hfiles] at hf ⊢
  rw [himports] at himp
  exact h f hf imp himp

theorem Sees.mem (hlinked : p.Linked) {f g : FileId} (hf : f ∈ p.files) (h : p.Sees f g)
    : g ∈ p.files := by
  rcases h with rfl | ⟨d, hd, hpath⟩
  . exact hf
  . induction hpath with
    | refl => exact hlinked.mem hf hd
    | tail _ hstep ih => exact hlinked.mem ih hstep.directly

/--
The passes before the blocks are propagated.
-/
structure Ready [Libc] (src : Sources) (outline : FileId → Outline) (p : Pool) : Prop where
  isOutline : ∀ f ∈ p.files, (outline f).Of (src.text f) 0
  size : ∀ f ∈ p.files, (outline f).size = (p.heap f).messages.length
  visible : ∀ f ∈ p.files, ∀ g ∈ (p.heap f).visible, g ∈ p.files

theorem exists_ready [Libc] {src : Sources} {p₀ p₁ p₂ p : Pool} (hbuild : src.buildAll = .ok p₀)
    (hlink : p₀.linkImports src.path = .ok p₁) (hnames : p₁.computeScopedNames = .ok p₂)
    (hvisible : p₂.computeVisibility = some p)
    : p.files = src.files ∧ p₂.Linked ∧ (∀ f ∈ p₁.files, (p₁.heap f).Nested)
        ∧ ∃ outline, Ready src outline p := by
  obtain ⟨hfiles₀, hbuild⟩ := Sources.buildAll_ok hbuild
  have hex : ∀ f, ∃ o : Outline, f ∈ p₀.files
      → o.Of (src.text f) 0 ∧ o.size = (p₀.heap f).messages.length ∧ (p₀.heap f).Nested := by
    intro f
    by_cases hf : f ∈ p₀.files
    . obtain ⟨o, ho, -, hfile⟩ := exists_outline (hbuild f hf)
      refine ⟨o, fun _ => ⟨ho, ?_, hfile ▸ o.file_nested⟩⟩
      rw [hfile]
      simp [Outline.file, resolvePacking, Outline.length_messages]
    . exact ⟨.nil, fun h => absurd h hf⟩
  choose outline houtline using hex
  obtain ⟨hfiles₁, hlinked, hrest₁⟩ := linkImports_ok hlink
  obtain ⟨hfiles₂, himports₂, hlength₂⟩ := computeScopedNames_ok hnames
  have hlinked₂ : p₂.Linked := hlinked.congr hfiles₂ himports₂
  obtain ⟨hfiles, hvisible', -, hrest⟩ := computeVisibility_eq_some hlinked₂ hvisible
  have hmem : ∀ f ∈ p.files, f ∈ p₀.files := by
    intro f hf
    rwa [hfiles, hfiles₂, hfiles₁] at hf
  refine ⟨by rw [hfiles, hfiles₂, hfiles₁, hfiles₀], hlinked₂, ?_, outline,
    fun f hf => (houtline f (hmem f hf)).1, ?_, ?_⟩
  . intro f hf
    have hmessages := congrArg FileNode.messages (hrest₁ f)
    have henums := congrArg FileNode.enums (hrest₁ f)
    dsimp only at hmessages henums
    obtain ⟨hmessage, henum⟩ := (houtline f (hfiles₁ ▸ hf)).2.2
    exact ⟨by rwa [hmessages], by rwa [hmessages, henums]⟩
  . intro f hf
    have hmessages := congrArg FileNode.messages (hrest f)
    have hmessages₁ := congrArg FileNode.messages (hrest₁ f)
    dsimp only at hmessages hmessages₁
    rw [(houtline f (hmem f hf)).2.1, hmessages, hlength₂, hmessages₁]
  . intro f hf g hg
    rw [hfiles] at hf ⊢
    exact ((hvisible' f hf).2 g |>.mp hg).mem hlinked₂ hf

theorem Ready.declares_unique [Libc] {src : Sources} {outline : FileId → Outline}
    (h : Ready src outline p) (hunique : p.UniqueMessageNames) {f : FileId} (hf : f ∈ p.files)
    {segments : List Span} {t t' : NodeId} (ht : p.DeclaresMessage (p.heap f).visible segments t)
    (ht' : p.DeclaresMessage (p.heap f).visible segments t') : t = t' := by
  obtain ⟨hmem, m, hget, rfl⟩ := ht
  obtain ⟨hmem', m', hget', hname⟩ := ht'
  obtain ⟨hfile, hindex⟩ := hunique _ (h.visible f hf _ hmem) _ (h.visible f hf _ hmem') _ _ _ _ hget
    hget' hname.symm
  obtain ⟨file, index⟩ := t
  simp_all

theorem bindsMessage_unique {scope : List Span} {visible : List FileId}
    (hunique : ∀ segments t t', p.DeclaresMessage visible segments t
      → p.DeclaresMessage visible segments t' → t = t')
    {name : ScopedName} {t t' : NodeId} (h : p.BindsMessage scope visible name t)
    (h' : p.BindsMessage scope visible name t') : t = t' := by
  cases h with
  | absolute h =>
    cases h' with
    | absolute h' => exact hunique _ _ _ h h'
  | @relative segments pre _ hpre h hlongest =>
    cases h' with
    | @relative _ pre' _ hpre' h' hlongest' =>
      have hlength : pre.length = pre'.length := by
        rcases Nat.lt_trichotomy pre.length pre'.length with hlt | heq | hgt
        . exact absurd h' (hlongest _ hpre' hlt _)
        . exact heq
        . exact absurd h (hlongest' _ hpre hgt _)
      have : pre = pre' := by
        rw [List.prefix_iff_eq_take.mp hpre, List.prefix_iff_eq_take.mp hpre', hlength]
      subst this
      exact hunique _ _ _ h h'

theorem Extends.unique {scope : List Span} {visible : List FileId}
    (hunique : ∀ segments t t', p.DeclaresMessage visible segments t
      → p.DeclaresMessage visible segments t' → t = t')
    {span : Span} {t t' : NodeId} (h : p.Extends scope visible span t)
    (h' : p.Extends scope visible span t') : t = t' := by
  obtain ⟨name, hname, rfl, h⟩ := h
  obtain ⟨name', hname', htext, h'⟩ := h'
  have := hname'.parse_text
  rw [← htext, hname.parse_text, Except.ok.injEq] at this
  subst this
  exact bindsMessage_unique hunique h h'

section Propagation

variable [Libc] {src : Sources} {outline : FileId → Outline}

theorem Ready.block_file (h : Ready src outline p) {b : Block}
    (hb : b ∈ p.blocks src.text outline) : b.file ∈ p.files ∧ IsTypeName b.parsed.baseType := by
  simp only [blocks, List.mem_flatMap, blocksOf, List.mem_map] at hb
  obtain ⟨f, hf, e, he, rfl⟩ := hb
  exact ⟨hf, (h.isOutline f hf).extends_typeName _ _ e he⟩

variable (p) in
def BlockExtends (b : Block) (t : NodeId) : Prop :=
  p.Extends b.scope.segments (p.heap b.file).visible b.parsed.baseType t

theorem Ready.blockExtends_iff (h : Ready src outline p) (hunique : p.UniqueMessageNames) {b : Block}
    (hb : b ∈ p.blocks src.text outline) (happlies : p.Applies src.text b) (t : NodeId)
    : p.BlockExtends b t ↔ t = p.targetOf b := by
  obtain ⟨hfile, hname⟩ := h.block_file hb
  have htarget : p.BlockExtends b (p.targetOf b) := by
    rcases p.resolveExtendTarget_spec b.scope (p.heap b.file).visible hname with ⟨t', hok, hext⟩ | ⟨herror, -⟩
    . rw [happlies.target, Except.ok.injEq] at hok
      rw [hok]
      exact hext
    . rw [happlies.target] at herror
      simp at herror
  have hdeclares : ∀ segments t t', p.DeclaresMessage (p.heap b.file).visible segments t
      → p.DeclaresMessage (p.heap b.file).visible segments t' → t = t' :=
    fun _ _ _ => h.declares_unique hunique hfile
  constructor
  . intro hext
    exact hext.unique hdeclares htarget
  . rintro rfl
    exact htarget

variable (src outline) (p) in
/--
What the pass does where the sources have these outlines: it appends the fields of every block to the
one message that the block extends, in the order of the blocks, and changes nothing else, or it ends
with an error, as it does if a block extends nothing. The fields of a block are those between the two
ends of its body, which keep the file and the scope that they are from.
-/
structure Propagates : Prop where
  outcome : (∃ e i, p.propagateExtends src.text = .error ⟨.error e, i⟩)
    ∨ ∃ (q : Pool) (target : Block → NodeId), p.propagateExtends src.text = .ok q
      ∧ q.files = p.files
      ∧ (∀ b ∈ p.blocks src.text outline, (∀ t, p.BlockExtends b t ↔ t = target b)
        ∧ (extendFields (.between (src.text b.file) b.parsed.bodyStart b.parsed.bodyEnd)).2 = none)
      ∧ ∀ f, q.heap f = {
          p.heap f with
          messages := (p.heap f).messages.mapIdx fun i m => {
            m with
            fields := m.fields
              ++ ((p.blocks src.text outline).filter fun b => target b = ⟨f, i⟩).flatMap fun b =>
                (extendFields (.between (src.text b.file) b.parsed.bodyStart b.parsed.bodyEnd)).1.map
                  fun parsed => {
                    parsed
                    type := .unresolved
                    default := none
                    packing := fieldPacking (p.heap b.file)
                      (fieldPackedOption (src.text b.file) b.stop parsed.options)
                    originFile := some b.file
                    originScope := some b.scope
                  }
          }
        }
  dangling : (∃ b ∈ p.blocks src.text outline, ∀ t, ¬p.BlockExtends b t)
    → ∃ e i, p.propagateExtends src.text = .error ⟨.error e, i⟩

theorem propagateExtends_exact {p₀ p₁ p₂ : Pool} (hbuild : src.buildAll = .ok p₀)
    (hlink : p₀.linkImports src.path = .ok p₁) (hnames : p₁.computeScopedNames = .ok p₂)
    (hvisible : p₂.computeVisibility = some p) (hunique : p.UniqueMessageNames)
    : ∃ outline : FileId → Outline, (∀ f ∈ p.files, (outline f).Of (src.text f) 0)
        ∧ p.Propagates src outline := by
  obtain ⟨-, -, -, outline, hready⟩ := exists_ready hbuild hlink hnames hvisible
  refine ⟨outline, hready.isOutline, ?_⟩
  rcases propagateExtends_go hready.isOutline hready.size (.refl p) 0 with
    ⟨e, i, herror⟩ | ⟨happlies, hok⟩
  . exact ⟨.inl ⟨e, i, herror⟩, fun _ => ⟨e, i, herror⟩⟩
  . have hextends : ∀ b ∈ p.blocks src.text outline,
        ∀ t, p.BlockExtends b t ↔ t = p.targetOf b :=
      fun b hb => hready.blockExtends_iff hunique hb (happlies b hb)
    refine ⟨.inr ⟨_, p.targetOf, hok, ?_, ?_, ?_⟩, ?_⟩
    . exact ((Keeps.refl p).foldl _).files
    . exact fun b hb => ⟨hextends b hb, (happlies b hb).ending⟩
    . exact fun f => foldl_heap _ f
    . rintro ⟨b, hb, hnot⟩
      exact absurd ((hextends b hb _).mpr rfl) (hnot _)

end Propagation

/--
A file with a message and a block that extends it.
-/
def extending : Sources where
  files := [0]
  nodup := nodup_single
  path _ := "a.proto".toList
  text _ := "message A{}extend A{int32 x=1;}".toList

/--
Nothing is read that `strtod` would read.
-/
abbrev constLibc : Libc where
  strtod _ := (0, false)
  strtod_brace _ _ := rfl

/--
Run the passes and look at the files before and after the blocks are propagated, and at the end.
-/
def check [Libc] (src : Sources) (test : Pool → Pool → Pool → Bool) : Bool :=
  match src.buildAll with
  | .error _ => false
  | .ok p₀ =>
    match p₀.linkImports src.path with
    | .error _ => false
    | .ok p₁ =>
      match p₁.computeScopedNames with
      | .error _ => false
      | .ok p₂ =>
        match p₂.computeVisibility with
        | none => false
        | some p₃ =>
          match p₃.propagateExtends src.text with
          | .error _ => false
          | .ok p₄ =>
            match p₄.resolveTypeRefs with
            | .error _ => false
            | .ok p₅ => test p₃ p₄ p₅

theorem exists_passes [Libc] {src : Sources} {test : Pool → Pool → Pool → Bool}
    (h : check src test = true)
    : ∃ p₀ p₁ p₂ p₃ p₄ p₅, src.buildAll = .ok p₀ ∧ p₀.linkImports src.path = .ok p₁
        ∧ p₁.computeScopedNames = .ok p₂ ∧ p₂.computeVisibility = some p₃
        ∧ p₃.propagateExtends src.text = .ok p₄ ∧ p₄.resolveTypeRefs = .ok p₅
        ∧ test p₃ p₄ p₅ = true := by
  unfold check at h
  split at h
  . simp at h
  . next p₀ hbuild =>
    split at h
    . simp at h
    . next p₁ hlink =>
      split at h
      . simp at h
      . next p₂ hnames =>
        split at h
        . simp at h
        . next p₃ hvisible =>
          split at h
          . simp at h
          . next p₄ hextend =>
            split at h
            . simp at h
            . next p₅ hresolve =>
              exact ⟨p₀, p₁, p₂, p₃, p₄, p₅, hbuild, hlink, hnames, hvisible, hextend, hresolve, h⟩

theorem uniqueMessageNames_of_one (hfiles : p.files = [0]) (hlength : (p.heap 0).messages.length = 1)
    : p.UniqueMessageNames := by
  intro f hf g hg i j m m' hget hget' _
  rw [hfiles, List.mem_singleton] at hf hg
  subst hf hg
  have hi := (List.getElem?_eq_some_iff.mp hget).1
  have hj := (List.getElem?_eq_some_iff.mp hget').1
  exact ⟨rfl, by omega⟩

/--
The fields of the messages of a file: their names and the files that they are from.
-/
def memberOrigins (p : Pool) (f : FileId) : List (List (Span × Option FileId)) :=
  (p.heap f).messages.map fun m => m.fields.map fun fld => (fld.parsed.name, fld.originFile)

theorem extending_propagateExtends_exact
    : ∃ (p q : Pool) (outline : FileId → Outline), p.files = [0]
        ∧ (∀ f ∈ p.files, @Outline.Of constLibc (extending.text f) 0 (outline f))
        ∧ @Propagates p constLibc extending outline
        ∧ @propagateExtends constLibc extending.text p = .ok q
        ∧ p.memberOrigins 0 = [[]] ∧ q.memberOrigins 0 = [[("x".toList, some 0)]] := by
  have hcheck : @check constLibc extending (fun p q _ =>
      p.files = [0] && p.memberOrigins 0 = [[]] && q.memberOrigins 0 = [[("x".toList, some 0)]]) = true := by
    decide +kernel
  obtain ⟨p₀, p₁, p₂, p, q, _, hbuild, hlink, hnames, hvisible, hextend, -, htest⟩ :=
    @exists_passes constLibc _ _ hcheck
  simp only [Bool.and_eq_true, decide_eq_true_eq] at htest
  obtain ⟨⟨hfiles, hbefore⟩, hafter⟩ := htest
  have hlength := congrArg List.length hbefore
  rw [memberOrigins, List.length_map] at hlength
  have hunique := uniqueMessageNames_of_one hfiles hlength
  obtain ⟨outline, houtline, h⟩ :=
    @propagateExtends_exact p constLibc extending p₀ p₁ p₂ hbuild hlink hnames hvisible hunique
  exact ⟨p, q, outline, hfiles, houtline, h, hextend, hbefore, hafter⟩

end Pool

end Gremlin
