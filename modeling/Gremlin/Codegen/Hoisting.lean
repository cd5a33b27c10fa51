import Gremlin.Codegen.Agenda
import Gremlin.Codegen.Inclusion
import Gremlin.Descriptors.MapKeys

/-!
This module contains the order of the definitions in a header: which readers are written ahead of their
messages, and that what a definition names is declared before it.
-/

namespace Gremlin

open Naming

/-! The readers that are written ahead. -/

/--
The message that a field holds, or the values of a map.
-/
def TypeRef.held : TypeRef → Option NodeId
  | .message target => some target
  | .map _ (.message target) => some target
  | _ => none

/--
The places that `mark_named_before` marks, in the order in which it does.
-/
def namedBefore (f : FileId) (items : List (Nat × MessageNode)) : List Nat :=
  items.zipIdx.flatMap fun ((_, m), i) =>
    (m.fields.filterMap fun fld =>
      fld.type.held.bind fun target => items.findIdx? fun item => NodeId.mk f item.1 = target).filter (i < ·)

def markNamedBefore (f : FileId) (items : List (Nat × MessageNode)) : List Bool :=
  (namedBefore f items).foldl (fun hoist k => hoist.set k true) (List.replicate items.length false)

def Decl.isReader (d : Decl) : Bool :=
  d.ident.role = .reader

/--
The readers that are written first.
-/
def hoistedReaders (blocks : List (List Decl)) (hoist : List Bool) : List Decl :=
  ((blocks.zip hoist).filter Prod.snd).flatMap fun b => b.1.filter Decl.isReader

/--
What is written of a message in its place.
-/
def blockRest (b : List Decl × Bool) : List Decl :=
  if b.2 then b.1.filter (!·.isReader) else b.1

def emitMessagesHoisted (blocks : List (List Decl)) (hoist : List Bool) : List Decl :=
  hoistedReaders blocks hoist ++ (blocks.zip hoist).flatMap blockRest

namespace Pool

variable (p : Pool) (path : FileId → Span)

def hoistedDecls (l : Ledger Ident) (f : FileId) : Option (List Decl) := do
  let messages ← p.orderedMessages f
  let blocks ← messages.mapM fun (i, m) =>
    (members m.fields).map (messageDecls l (.message ⟨f, i⟩))
  let hoist := markNamedBefore f messages
  some (((p.heap f).enums.mapIdx fun i en => enumDecls l (.enumeration ⟨f, i⟩) en).flatten
    ++ if hoist.any id then emitMessagesHoisted blocks hoist else blocks.flatten)

/--
`emit_file`, with the readers where they are written.
-/
def emitFileHoisted (l : Ledger Ident) (f : FileId) : Option Header := do
  let h ← p.emitFile path l f
  let decls ← p.hoistedDecls l f
  some { h with decls }

def emitFilesHoisted (plan : Plan) : Option (List Header) := do
  let agenda ← p.agenda plan
  let l ← agenda.run
  p.files.mapM (p.emitFileHoisted path l)

end Pool

/-! The marks. -/

section Marks

variable {f : FileId} {items : List (Nat × MessageNode)}

theorem foldl_set_length (ks : List Nat) (hoist : List Bool)
    : (ks.foldl (fun hoist k => hoist.set k true) hoist).length = hoist.length := by
  induction ks generalizing hoist with
  | nil => rfl
  | cons k ks ih => rw [List.foldl_cons, ih, List.length_set]

theorem markNamedBefore_length : (markNamedBefore f items).length = items.length := by
  rw [markNamedBefore, foldl_set_length, List.length_replicate]

theorem foldl_set_getElem? {ks : List Nat} {hoist : List Bool} {k : Nat} (hlt : k < hoist.length)
    (h : k ∈ ks ∨ hoist[k]? = some true)
    : (ks.foldl (fun hoist k => hoist.set k true) hoist)[k]? = some true := by
  induction ks generalizing hoist with
  | nil => exact h.resolve_left (List.not_mem_nil)
  | cons k' ks ih =>
    rw [List.foldl_cons]
    apply ih
    . rwa [List.length_set]
    . by_cases hk : k' = k
      . subst hk
        exact .inr (List.getElem?_set_self hlt)
      . rw [List.getElem?_set_ne hk]
        exact h.imp_left fun hmem => (List.mem_cons.mp hmem).resolve_left (Ne.symm hk)

theorem markNamedBefore_getElem? {k : Nat} (hlt : k < items.length) (h : k ∈ namedBefore f items)
    : (markNamedBefore f items)[k]? = some true := by
  apply foldl_set_getElem? _ (.inl h)
  rwa [List.length_replicate]

/--
A message that an earlier one holds is marked.
-/
theorem mem_namedBefore (hnodup : (items.map Prod.fst).Nodup) {i k : Nat} (hik : i < k)
    {item item' : Nat × MessageNode} (hi : items[i]? = some item) (hk : items[k]? = some item')
    {fld : FieldNode} (hfld : fld ∈ item.2.fields) (hheld : fld.type.held = some ⟨f, item'.1⟩)
    : k ∈ namedBefore f items := by
  have hfind : (items.findIdx? fun x => NodeId.mk f x.1 = ⟨f, item'.1⟩) = some k := by
    rw [List.findIdx?_eq_some_iff_getElem]
    obtain ⟨hlt, hget⟩ := List.getElem?_eq_some_iff.mp hk
    refine ⟨hlt, by simp [hget], ?_⟩
    intro j hj heq
    have hfst : items[j].1 = item'.1 := by simpa using heq
    have hget? : (items.map Prod.fst)[j]? = (items.map Prod.fst)[k]? := by
      rw [List.getElem?_map, List.getElem?_map, hk, List.getElem?_eq_getElem (Nat.lt_trans hj hlt)]
      simp [hfst]
    have hlt' : j < (items.map Prod.fst).length := by
      rw [List.length_map]
      omega
    have := (List.getElem?_inj hlt' hnodup).mp hget?
    omega
  refine List.mem_flatMap.mpr ⟨(item, i), List.mem_zipIdx_iff_getElem?.mpr hi, ?_⟩
  refine List.mem_filter.mpr ⟨List.mem_filterMap.mpr ⟨fld, hfld, ?_⟩, by simpa using hik⟩
  rw [hheld, Option.bind_some, hfind]

end Marks

/-! The order of definitions. -/

/--
What each definition names of its own file is known or defined before it.
-/
def InOrder (f : FileId) : (known : List Ident) → List Decl → Prop
  | _, [] => True
  | known, d :: ds => (∀ u ∈ d.uses, u.ident.owner.file = f → u.ident ∈ known) ∧ InOrder f (d.ident :: known) ds

namespace InOrder

variable {f : FileId} {known known' : List Ident} {ds ds' : List Decl}

theorem mono (h : InOrder f known ds) (hsub : known ⊆ known') : InOrder f known' ds := by
  induction ds generalizing known known' with
  | nil => trivial
  | cons d ds ih =>
    refine ⟨fun u hu hfile => hsub (h.1 u hu hfile), ih h.2 ?_⟩
    exact List.cons_subset_cons _ hsub

theorem append (h : InOrder f known ds) (h' : InOrder f (known ++ ds.map Decl.ident) ds')
    : InOrder f known (ds ++ ds') := by
  induction ds generalizing known with
  | nil => simpa using h'
  | cons d ds ih =>
    refine ⟨h.1, ih h.2 (h'.mono ?_)⟩
    intro i hi
    simp only [List.map_cons, List.cons_append, List.mem_append, List.mem_cons] at hi ⊢
    tauto

theorem of_known (h : ∀ d ∈ ds, ∀ u ∈ d.uses, u.ident.owner.file = f → u.ident ∈ known) : InOrder f known ds := by
  induction ds generalizing known with
  | nil => trivial
  | cons d ds ih =>
    rw [List.forall_mem_cons] at h
    exact ⟨h.1, ih fun d' hd' u hu hfile => List.mem_cons_of_mem _ (h.2 d' hd' u hu hfile)⟩

/--
Parts that are in order behind those before them.
-/
theorem flatMap {α : Type} {g : α → List Decl} {xs : List α}
    (h : ∀ before x behind, xs = before ++ x :: behind
      → InOrder f (known ++ (before.flatMap g).map Decl.ident) (g x))
    : InOrder f known (xs.flatMap g) := by
  induction xs generalizing known with
  | nil => trivial
  | cons x xs ih =>
    apply append
    . simpa using h [] x xs rfl
    . apply ih
      intro before x' behind hsplit
      have hx' := h (x :: before) x' behind (by rw [hsplit, List.cons_append])
      rwa [List.flatMap_cons, List.map_append, ← List.append_assoc] at hx'

theorem filter {keep : Decl → Bool} (h : InOrder f known ds)
    (hdropped : ∀ d ∈ ds, keep d = false → d.ident ∈ known) : InOrder f known (ds.filter keep) := by
  induction ds generalizing known with
  | nil => trivial
  | cons d ds ih =>
    rw [List.forall_mem_cons] at hdropped
    by_cases hkeep : keep d = true
    . rw [List.filter_cons_of_pos hkeep]
      exact ⟨h.1, ih h.2 fun d' hd' hfalse => List.mem_cons_of_mem _ (hdropped.2 d' hd' hfalse)⟩
    . rw [List.filter_cons_of_neg hkeep]
      apply ih (h.2.mono _) hdropped.2
      exact List.cons_subset.mpr ⟨hdropped.1 (Bool.eq_false_of_not_eq_true hkeep), List.Subset.refl _⟩

theorem split (h : InOrder f known ds) {before after : List Decl} {d : Decl} (hsplit : ds = before ++ d :: after)
    {u : Use} (hu : u ∈ d.uses) (hfile : u.ident.owner.file = f)
    : u.ident ∈ known ∨ u.ident ∈ before.map Decl.ident := by
  induction before generalizing known ds with
  | nil =>
    subst hsplit
    exact .inl (h.1 u hu hfile)
  | cons d' before ih =>
    subst hsplit
    rcases ih h.2 rfl with hknown | hbefore
    . rcases List.mem_cons.mp hknown with heq | hknown
      . exact .inr (heq ▸ List.mem_cons_self)
      . exact .inl hknown
    . exact .inr (List.mem_cons_of_mem _ hbefore)

end InOrder

/-! The definitions of a message. -/

/--
What others name of a message, beside its reader, and of an enum.
-/
def Entity.outerRoles : Entity → List Role
  | .message _ => [.type, .size, .cachedSize, .encodeAt, .readerInit]
  | .enumeration _ => [.type]

/--
The field names a part of another message, or of an enum.
-/
def Member.Names (mem : Member) (u : Use) : Prop :=
  u.ident.owner ∈ mem.shape.entities ∧ u.ident.role ∈ u.ident.owner.outerRoles

section Message

variable {l : Ledger Ident} {owner : Entity} {mem : Member}

theorem names_of_mem_slot (type : TypeRef) {u : Use}
    (h : u ∈ typeUses l type ++ slotSizeUses l type ++ slotEncodeUses l type)
    : u.ident.owner ∈ type.named ∧ u.ident.role ∈ u.ident.owner.outerRoles := by
  cases type <;> simp [typeUses, slotSizeUses, slotEncodeUses, TypeRef.named] at h ⊢
  . rcases h with rfl | rfl | rfl | rfl <;> simp [Entity.outerRoles]
  . subst h
    simp [Entity.outerRoles]

theorem names_of_mem_out (type : TypeRef) {u : Use} (h : u ∈ slotOutUses l type)
    : u.ident.owner ∈ type.named
      ∧ (u.ident.role ∈ u.ident.owner.outerRoles ∨ ∃ id, u.ident = ⟨.message id, .reader⟩) := by
  cases type <;> simp [slotOutUses, TypeRef.named] at h ⊢
  . rcases h with rfl | rfl <;> simp [Entity.outerRoles]
  . subst h
    simp [Entity.outerRoles]

theorem names_of_mem_entryDecls {d : Decl} (hd : d ∈ entryDecls l owner mem) {u : Use} (hu : u ∈ d.uses)
    : mem.Names u := by
  obtain ⟨index, shape, fname⟩ := mem
  cases shape with
  | map key value =>
    rw [entryDecls, List.mem_singleton] at hd
    subst hd
    rcases List.mem_append.mp hu with hu | hu
    . have := names_of_mem_slot key (List.mem_append_left _ (List.mem_append_left _ hu))
      exact ⟨List.mem_append_left _ this.1, this.2⟩
    . have := names_of_mem_slot value (List.mem_append_left _ (List.mem_append_left _ hu))
      exact ⟨List.mem_append_right _ this.1, this.2⟩
  | _ => cases hd

theorem names_of_mem_writerUses {u : Use} (hu : u ∈ writerUses l owner mem)
    : u.ident ∈ (entryDecls l owner mem).map Decl.ident ∨ mem.Names u := by
  obtain ⟨index, shape, fname⟩ := mem
  cases shape with
  | map key value =>
    left
    rw [writerUses, List.mem_singleton] at hu
    subst hu
    exact List.mem_singleton_self _
  | repeatedScalar element =>
    right
    exact names_of_mem_slot element (List.mem_append_left _ (List.mem_append_left _ hu))
  | repeatedMsg | msgRef | enumRef =>
    right
    rw [writerUses, List.mem_singleton] at hu
    subst hu
    simp [Member.Names, Shape.entities, Entity.outerRoles]
  | _ => cases hu

theorem names_of_mem_sizeFieldUses {u : Use} (hu : u ∈ sizeFieldUses l mem ++ encodeFieldUses l mem) : mem.Names u := by
  obtain ⟨index, shape, fname⟩ := mem
  cases shape with
  | map key value =>
    have hslot (type : TypeRef) (h : u ∈ slotSizeUses l type ∨ u ∈ slotEncodeUses l type) :=
      names_of_mem_slot (l := l) (u := u) type (by simp only [List.mem_append]; tauto)
    simp only [sizeFieldUses, encodeFieldUses, List.mem_append] at hu
    simp only [Member.Names, Shape.entities, List.mem_append]
    have hkey := hslot key
    have hvalue := hslot value
    tauto
  | repeatedMsg | msgRef =>
    simp only [sizeFieldUses, encodeFieldUses, List.cons_append, List.nil_append, List.mem_cons, List.not_mem_nil,
      or_false] at hu
    simp only [Member.Names, Shape.entities, List.mem_singleton]
    rcases hu with rfl | rfl | rfl | rfl | rfl <;> simp [Entity.outerRoles]
  | _ => cases hu

theorem names_of_mem_readerFieldUses {u : Use} (hu : u ∈ readerFieldUses l mem)
    : ∃ id, u.ident = ⟨.enumeration id, .type⟩ ∧ .enumeration id ∈ mem.shape.entities := by
  obtain ⟨index, shape, fname⟩ := mem
  cases shape with
  | enumRef target =>
    rw [readerFieldUses, List.mem_singleton] at hu
    subst hu
    exact ⟨target, rfl, List.mem_singleton_self _⟩
  | _ => cases hu

/--
What the accessors of a field name is of the field, or the reader of its message.
-/
theorem names_of_mem_outUses {u : Use} (hu : u ∈ getterUses l owner mem ++ nextUses l mem)
    : u.ident = ⟨owner, .reader⟩
      ∨ u.ident.owner ∈ mem.shape.entities
        ∧ (u.ident.role ∈ u.ident.owner.outerRoles ∨ ∃ id, u.ident = ⟨.message id, .reader⟩) := by
  obtain ⟨index, shape, fname⟩ := mem
  rw [getterUses, List.cons_append, List.mem_cons] at hu
  rcases hu with rfl | hu
  . exact .inl rfl
  right
  cases shape with
  | map key value =>
    simp only [nextUses, List.nil_append, List.mem_append] at hu
    simp only [Shape.entities, List.mem_append]
    rcases hu with hu | hu
    . exact ⟨.inl (names_of_mem_out key hu).1, (names_of_mem_out key hu).2⟩
    . exact ⟨.inr (names_of_mem_out value hu).1, (names_of_mem_out value hu).2⟩
  | repeatedScalar element =>
    have := names_of_mem_slot element (List.mem_append_left _ (List.mem_append_left _ hu))
    exact ⟨this.1, .inl this.2⟩
  | repeatedMsg | msgRef =>
    simp only [nextUses, List.nil_append, List.append_nil, List.mem_cons, List.not_mem_nil, or_false] at hu
    rcases hu with rfl | rfl <;> simp [Shape.entities, Entity.outerRoles]
  | enumRef target =>
    simp only [nextUses, List.append_nil, List.mem_singleton] at hu
    subst hu
    simp [Shape.entities, Entity.outerRoles]
  | _ => cases hu

variable {f : FileId} {known : List Ident} {mems : List Member}

/--
The definitions of a message are in order where its fields name what is known. Its own reader comes before
the accessors that may name it.
-/
theorem messageDecls_inOrder
    (hknown : ∀ mem ∈ mems, ∀ e ∈ mem.shape.entities, e.file = f → (∀ role ∈ e.outerRoles, ⟨e, role⟩ ∈ known)
      ∧ ∀ id, e = .message id → (⟨e, .reader⟩ : Ident) ∈ (⟨owner, .reader⟩ : Ident) :: known)
    : InOrder f known (messageDecls l owner mems) := by
  have houter {mem : Member} (hmem : mem ∈ mems) {u : Use} (hnames : mem.Names u) (hfile : u.ident.owner.file = f)
      : u.ident ∈ known :=
    (hknown mem hmem _ hnames.1 hfile).1 _ hnames.2
  have henum {mem : Member} (hmem : mem ∈ mems) {u : Use} (hu : u ∈ readerFieldUses l mem)
      (hfile : u.ident.owner.file = f) : u.ident ∈ known := by
    obtain ⟨id, hident, hentity⟩ := names_of_mem_readerFieldUses hu
    refine houter hmem ⟨?_, ?_⟩ hfile
    . rwa [hident]
    . rw [hident]
      exact List.mem_singleton_self _
  unfold messageDecls
  apply InOrder.append (InOrder.append _ _)
  . -- The accessors.
    apply InOrder.flatMap
    rintro before mem behind rfl
    have hmem : mem ∈ before ++ mem :: behind := List.mem_append_right _ List.mem_cons_self
    apply InOrder.mono _ (List.subset_append_left _ _)
    have hout {u : Use} (hu : u ∈ getterUses l owner mem ++ nextUses l mem) (hfile : u.ident.owner.file = f)
        : u.ident ∈ (⟨owner, .reader⟩ : Ident) :: known := by
      rcases names_of_mem_outUses hu with heq | ⟨hentity, hrole | ⟨id, heq⟩⟩
      . exact heq ▸ List.mem_cons_self
      . exact List.mem_cons_of_mem _ (houter hmem ⟨hentity, hrole⟩ hfile)
      . rw [heq] at hentity hfile ⊢
        exact (hknown mem hmem _ hentity hfile).2 id rfl
    suffices hinOrder : InOrder f ((⟨owner, .reader⟩ : Ident) :: known) (accessorDecls l owner mem) from
      hinOrder.mono (List.cons_subset.mpr ⟨List.mem_append_right _ (by simp), List.subset_append_left _ _⟩)
    unfold accessorDecls
    split
    . refine ⟨by simp, by simp, by simp, ?_, trivial⟩
      rintro u hu hfile
      rcases List.mem_cons.mp hu with rfl | hu
      . simp
      . have := hout (List.mem_append_right _ hu) hfile
        simp only [List.mem_cons] at this ⊢
        tauto
    . exact ⟨fun u hu hfile => hout (List.mem_append_left _ hu) hfile, trivial⟩
  . -- The types of the map entries.
    apply InOrder.of_known
    intro d hd u hu hfile
    obtain ⟨mem, hmem, hd⟩ := List.mem_flatMap.mp hd
    exact houter hmem (names_of_mem_entryDecls hd hu) hfile
  . have hsize {uses : Member → List Use} (huses : ∀ mem, uses mem ⊆ sizeFieldUses l mem ++ encodeFieldUses l mem)
        {u : Use} (hu : u ∈ mems.flatMap uses) (hfile : u.ident.owner.file = f) : u.ident ∈ known := by
      obtain ⟨mem, hmem, hu⟩ := List.mem_flatMap.mp hu
      exact houter hmem (names_of_mem_sizeFieldUses (huses mem hu)) hfile
    have hreader {u : Use} (hu : u ∈ mems.flatMap (readerFieldUses l)) (hfile : u.ident.owner.file = f)
        : u.ident ∈ known := by
      obtain ⟨mem, hmem, hu⟩ := List.mem_flatMap.mp hu
      exact henum hmem hu hfile
    refine ⟨?_, by simp, ?_, ?_, by simp, ?_, ?_, trivial⟩
    . intro u hu hfile
      obtain ⟨mem, hmem, hu⟩ := List.mem_flatMap.mp hu
      rcases names_of_mem_writerUses hu with hentry | hnames
      . rw [List.map_flatMap]
        exact List.mem_append_right _ (List.mem_flatMap.mpr ⟨mem, hmem, hentry⟩)
      . exact List.mem_append_left _ (houter hmem hnames hfile)
    . intro u hu hfile
      rcases List.mem_cons.mp hu with rfl | hu
      . simp
      . have := hsize (fun mem => List.subset_append_left _ _) hu hfile
        simp [this]
    . intro u hu hfile
      rcases List.mem_cons.mp hu with rfl | hu
      . simp
      . have := hsize (fun mem => List.subset_append_right _ _) hu hfile
        simp [this]
    . intro u hu hfile
      have := hreader hu hfile
      simp [this]
    . intro u hu hfile
      rcases List.mem_cons.mp hu with rfl | hu
      . simp
      . have := hreader hu hfile
        simp [this]

end Message

/-! The definitions of a file. -/

section File

variable {f : FileId} {blocks : List (List Decl)} {hoist : List Bool}

theorem getElem?_of_forall₂ {α β : Type} {R : α → β → Prop} {as : List α} {bs : List β} (h : List.Forall₂ R as bs)
    {k : Nat} {a : α} (ha : as[k]? = some a) : ∃ b, bs[k]? = some b ∧ R a b := by
  induction h generalizing k with
  | nil => cases ha
  | @cons a' b' as bs hab _ ih =>
    cases k with
    | zero =>
      cases ha
      exact ⟨b', rfl, hab⟩
    | succ k => exact ih ha

theorem emitMessagesHoisted_of_unmarked (hlength : blocks.length = hoist.length) (h : hoist.any id = false)
    : emitMessagesHoisted blocks hoist = blocks.flatten := by
  induction blocks generalizing hoist with
  | nil => rfl
  | cons block blocks ih =>
    cases hoist with
    | nil => cases hlength
    | cons hoisted hoist =>
      rw [List.any_cons, Bool.or_eq_false_iff] at h
      have hhoisted : hoisted = false := h.1
      have htail := ih (Nat.succ.inj hlength) h.2
      subst hhoisted
      simp only [emitMessagesHoisted, hoistedReaders, blockRest, List.zip_cons_cons, List.filter_cons,
        List.flatMap_cons] at htail ⊢
      have hfilter : (blocks.zip hoist).filter Prod.snd = [] := by
        rw [List.filter_eq_nil_iff]
        intro b hb
        have := List.any_eq_false.mp h.2 b.2 (List.of_mem_zip hb).2
        simpa using this
      rw [hfilter] at htail ⊢
      simpa using htail

/--
Readers are only moved.
-/
theorem emitMessagesHoisted_perm (hlength : blocks.length = hoist.length)
    : (emitMessagesHoisted blocks hoist).Perm blocks.flatten := by
  rw [List.perm_iff_count]
  intro d
  induction blocks generalizing hoist with
  | nil => rfl
  | cons block blocks ih =>
    cases hoist with
    | nil => cases hlength
    | cons hoisted hoist =>
      have htail := ih (Nat.succ.inj hlength)
      have hsplit := (List.filter_append_perm Decl.isReader block).count_eq d
      simp only [emitMessagesHoisted, hoistedReaders, blockRest, List.zip_cons_cons, List.filter_cons,
        List.flatMap_cons, List.count_append, List.flatten_cons] at htail hsplit ⊢
      cases hoisted with
      | true =>
        simp only [if_true, List.flatMap_cons, List.count_append]
        omega
      | false =>
        simp only [Bool.false_eq_true, if_false]
        omega

variable {l : Ledger Ident} {owner : Entity} {mems : List Member}

variable (l mems) in
theorem messageDecls_outer {id : NodeId} {role : Role} (h : role ∈ (Entity.message id).outerRoles)
    : ∃ d ∈ messageDecls l (.message id) mems, d.isReader = false ∧ d.ident = ⟨.message id, role⟩ := by
  simp only [Entity.outerRoles, List.mem_cons, List.not_mem_nil, or_false] at h
  rcases h with rfl | rfl | rfl | rfl | rfl <;>
    simp [messageDecls, Decl.isReader, or_and_right, exists_or]

variable (l owner mems) in
theorem messageDecls_reader : ∃ d ∈ messageDecls l owner mems, d.isReader = true ∧ d.ident = ⟨owner, .reader⟩ := by
  simp [messageDecls, Decl.isReader, or_and_right, exists_or]

theorem messageDecls_isReader {d : Decl} (hd : d ∈ messageDecls l owner mems) (hreader : d.isReader = true)
    : d.ident = ⟨owner, .reader⟩ ∧ d.uses = mems.flatMap (readerFieldUses l) := by
  have hentry (mem : Member) : ∀ d ∈ entryDecls l owner mem, d.isReader = false := by
    unfold entryDecls
    split <;> simp [Decl.isReader]
  have haccessor (mem : Member) : ∀ d ∈ accessorDecls l owner mem, d.isReader = false := by
    unfold accessorDecls
    split <;> simp [Decl.isReader]
  simp only [messageDecls, List.mem_append, List.mem_flatMap] at hd
  rcases hd with (⟨mem, -, hd⟩ | hd) | ⟨mem, -, hd⟩
  . rw [hentry mem d hd] at hreader
    cases hreader
  . simp only [List.mem_cons, List.not_mem_nil, or_false] at hd
    rcases hd with rfl | rfl | rfl | rfl | rfl | rfl | rfl <;> simp [Decl.isReader] at hreader ⊢
  . rw [haccessor mem d hd] at hreader
    cases hreader

end File

/--
`h` is the header of `f` with its definitions as in `plain`, but each behind what it names. What is declared
ahead may come later, unless it is a reader, which must be complete.
-/
structure Header.InOrder (f : FileId) (plain h : Header) : Prop where
  guard : h.guard = plain.guard
  includes : h.includes = plain.includes
  forwards : h.forwards = plain.forwards
  perm : h.decls.Perm plain.decls
  before : ∀ earlier d later, h.decls = earlier ++ d :: later → ∀ u ∈ d.uses, u.ident.owner.file = f
    → (∃ d' ∈ earlier, d'.ident = u.ident) ∨ u.ident.role ≠ .reader ∧ ∃ u' ∈ h.forwards, u'.ident = u.ident

theorem TypeRef.held_of_mem_entities {type : TypeRef} (hlegal : type.LegalMap) {id : NodeId}
    (h : .message id ∈ type.entities) : type.held = some id := by
  cases type with
  | map key value =>
    obtain ⟨⟨name, -, rfl⟩, -⟩ := hlegal
    simp only [entities, named, List.nil_append] at h
    cases value <;> simp_all [held]
  | _ => simp_all [entities, named, held]

theorem TypeRef.held_eq_some {type : TypeRef} {id : NodeId} (h : type.held = some id)
    : type = .message id ∨ ∃ key, type = .map key (.message id) := by
  cases type with
  | map key value => cases value <;> simp_all [held]
  | _ => simp_all [held]

theorem MessageOrder.mem_predeclare {file : FileId} {messages : List MessageNode} {order : MessageOrder messages.length}
    (h : topoSortMessages file messages = some order) {u v : Fin messages.length} (hrefers : Refers file messages u v)
    (hlate : ¬order.items.idxOf v < order.items.idxOf u) : v ∈ order.predeclare := by
  obtain ⟨s, hs⟩ := Graph.Search.exists_search_false (fieldEdges file messages)
  unfold topoSortMessages at h
  rw [hs, Option.some_inj] at h
  subst h
  have hmarked := ((Graph.Search.sorted_of_search hs).marked_iff v).mpr ⟨u, (edge_iff u v).mpr hrefers, hlate⟩
  exact List.mem_filter.mpr ⟨List.mem_finRange v, hmarked⟩

namespace Pool

variable {p : Pool} {l : Ledger Ident} {f : FileId}

/--
A message that does not come before one that holds it is declared ahead.
-/
theorem forwardUses_subset {ms : List (Nat × MessageNode)} (hms : p.orderedMessages f = some ms)
    {forwards : List Use} (hforwards : p.fileForwards l f = some forwards) {k k' : Nat} (hle : k ≤ k')
    {item item' : Nat × MessageNode} (hk : ms[k]? = some item) (hk' : ms[k']? = some item') {fld : FieldNode}
    (hfld : fld ∈ item.2.fields) (hheld : fld.type.held = some ⟨f, item'.1⟩)
    : forwardUses l (.message ⟨f, item'.1⟩) ⊆ forwards := by
  unfold orderedMessages at hms
  unfold fileForwards at hforwards
  rw [Option.map_eq_some_iff] at hms hforwards
  obtain ⟨order, horder, rfl⟩ := hms
  obtain ⟨order', horder', rfl⟩ := hforwards
  obtain rfl : order = order' := Option.some_inj.mp (horder.symm.trans horder')
  have hnodup := (MessageOrder.items_perm horder).nodup_iff.mpr (List.nodup_finRange _)
  simp only [itemsOf, List.getElem?_map, Option.map_eq_some_iff] at hk hk'
  obtain ⟨u, hu, rfl⟩ := hk
  obtain ⟨v, hv, rfl⟩ := hk'
  obtain ⟨hlt, rfl⟩ := List.getElem?_eq_some_iff.mp hu
  obtain ⟨hlt', rfl⟩ := List.getElem?_eq_some_iff.mp hv
  have hmem : order.items[k'] ∈ order.predeclare := by
    apply MessageOrder.mem_predeclare horder ⟨fld, hfld, TypeRef.held_eq_some hheld⟩
    rw [hnodup.idxOf_getElem, hnodup.idxOf_getElem]
    omega
  intro use huse
  exact List.mem_flatMap.mpr ⟨_, hmem, huse⟩

/--
What is known before the first definition of a file.
-/
def forwardIdents (forwards : List Use) : List Ident :=
  (forwards.map Use.ident).filter (·.role ≠ .reader)

theorem mem_forwardIdents {forwards : List Use} {e : Entity} (hsub : forwardUses l e ⊆ forwards) {role : Role}
    (hrole : role ∈ [Role.type, .size, .cachedSize, .encodeAt, .readerInit])
    : (⟨e, role⟩ : Ident) ∈ forwardIdents forwards := by
  have hmem : (⟨e, role⟩ : Ident) ∈ (forwardUses l e).map Use.ident := by
    simp only [List.mem_cons, List.not_mem_nil, or_false] at hrole
    rcases hrole with rfl | rfl | rfl | rfl | rfl <;> simp [forwardUses]
  refine List.mem_filter.mpr ⟨List.map_subset _ hsub hmem, ?_⟩
  simp only [List.mem_cons, List.not_mem_nil, or_false] at hrole
  rcases hrole with rfl | rfl | rfl | rfl | rfl <;> simp

/--
The block of a message.
-/
def IsBlockOf (l : Ledger Ident) (f : FileId) (item : Nat × MessageNode) (block : List Decl) : Prop :=
  ∃ mems, members item.2.fields = some mems ∧ block = messageDecls l (.message ⟨f, item.1⟩) mems

theorem reader_mem_hoistedReaders {blocks : List (List Decl)} {hoist : List Bool} {k : Nat} {item : Nat × MessageNode}
    {block : List Decl} (hblock : IsBlockOf l f item block) (hk : (blocks.zip hoist)[k]? = some (block, true))
    : (⟨.message ⟨f, item.1⟩, .reader⟩ : Ident) ∈ (hoistedReaders blocks hoist).map Decl.ident := by
  obtain ⟨mems, -, rfl⟩ := hblock
  obtain ⟨d, hd, hreader, hident⟩ := messageDecls_reader l (.message ⟨f, item.1⟩) mems
  have hmarked : (_, true) ∈ (blocks.zip hoist).filter Prod.snd := List.mem_filter.mpr ⟨List.mem_of_getElem? hk, rfl⟩
  exact List.mem_map.mpr ⟨d, List.mem_flatMap.mpr ⟨_, hmarked, List.mem_filter.mpr ⟨hd, hreader⟩⟩, hident⟩

theorem outer_mem_blockRest {item : Nat × MessageNode} {b : List Decl × Bool} (hblock : IsBlockOf l f item b.1)
    {role : Role} (hrole : role ∈ (Entity.message ⟨f, item.1⟩).outerRoles)
    : (⟨.message ⟨f, item.1⟩, role⟩ : Ident) ∈ (blockRest b).map Decl.ident := by
  obtain ⟨mems, -, heq⟩ := hblock
  obtain ⟨d, hd, hreader, hident⟩ := messageDecls_outer l mems hrole
  rw [← heq] at hd
  refine List.mem_map.mpr ⟨d, ?_, hident⟩
  unfold blockRest
  split
  . exact List.mem_filter.mpr ⟨hd, by rw [hreader]; rfl⟩
  . exact hd

/--
Where the block of a message is before, so is all that others name of it.
-/
theorem mem_of_block_before {blocks : List (List Decl)} {hoist : List Bool} {k : Nat} {item : Nat × MessageNode}
    {b : List Decl × Bool} (hblock : IsBlockOf l f item b.1) (hk : (blocks.zip hoist)[k]? = some b)
    {before : List (List Decl × Bool)} (hbefore : b ∈ before)
    : (∀ role ∈ (Entity.message ⟨f, item.1⟩).outerRoles,
          (⟨.message ⟨f, item.1⟩, role⟩ : Ident) ∈ (before.flatMap blockRest).map Decl.ident)
        ∧ (⟨.message ⟨f, item.1⟩, .reader⟩ : Ident)
          ∈ (hoistedReaders blocks hoist).map Decl.ident ++ (before.flatMap blockRest).map Decl.ident := by
  have hrest : (blockRest b).map Decl.ident ⊆ (before.flatMap blockRest).map Decl.ident :=
    List.map_subset _ fun d hd => List.mem_flatMap.mpr ⟨_, hbefore, hd⟩
  constructor
  . intro role hrole
    exact hrest (outer_mem_blockRest hblock hrole)
  . obtain ⟨block, hoisted⟩ := b
    cases hoisted with
    | true => exact List.mem_append_left _ (reader_mem_hoistedReaders hblock hk)
    | false =>
      obtain ⟨mems, -, rfl⟩ := hblock
      obtain ⟨d, hd, -, hident⟩ := messageDecls_reader l (.message ⟨f, item.1⟩) mems
      exact List.mem_append_right _ (hrest (List.mem_map.mpr ⟨d, hd, hident⟩))

/--
The readers that are written first name enums only.
-/
theorem hoistedReaders_inOrder {ms : List (Nat × MessageNode)} {blocks : List (List Decl)} {hoist : List Bool}
    (hblocks : List.Forall₂ (IsBlockOf l f) ms blocks) {known : List Ident}
    (henums : ∀ item ∈ ms, ∀ fld ∈ item.2.fields, ∀ i, .enumeration ⟨f, i⟩ ∈ fld.type.entities
      → (⟨.enumeration ⟨f, i⟩, .type⟩ : Ident) ∈ known)
    : InOrder f known (hoistedReaders blocks hoist) := by
  apply InOrder.of_known
  intro d hd u hu hfile
  obtain ⟨⟨block, hoisted⟩, hb, hd⟩ := List.mem_flatMap.mp hd
  obtain ⟨hd, hreader⟩ := List.mem_filter.mp hd
  obtain ⟨item, hitem, mems, hmems, rfl⟩ :=
    exists_of_forall₂_mem hblocks.flip (List.of_mem_zip (List.mem_filter.mp hb).1).1
  rw [(messageDecls_isReader hd hreader).2] at hu
  obtain ⟨mem, hmem, hu⟩ := List.mem_flatMap.mp hu
  obtain ⟨⟨g, i⟩, hident, hentity⟩ := names_of_mem_readerFieldUses hu
  rw [hident] at hfile ⊢
  obtain rfl : g = f := hfile
  obtain ⟨fld, hfld, hentity⟩ := (members_entities hmems _).mp ⟨mem, hmem, hentity⟩
  exact henums item hitem fld hfld i hentity

/--
The blocks of the messages are in order behind the enums and what is declared ahead, once the readers
are written first that earlier messages hold.
-/
theorem emitMessagesHoisted_inOrder
    (hhas : ∀ m ∈ (p.heap f).messages, ∀ fld ∈ m.fields, ∀ e ∈ fld.type.entities, p.Has e)
    (hlegal : ∀ m ∈ (p.heap f).messages, ∀ fld ∈ m.fields, fld.type.LegalMap)
    {ms : List (Nat × MessageNode)} (hms : p.orderedMessages f = some ms) {forwards : List Use}
    (hforwards : p.fileForwards l f = some forwards) {blocks : List (List Decl)}
    (hblocks : List.Forall₂ (IsBlockOf l f) ms blocks) {known : List Ident} (hknown : forwardIdents forwards ⊆ known)
    (henums : ∀ i < (p.heap f).enums.length, (⟨.enumeration ⟨f, i⟩, .type⟩ : Ident) ∈ known)
    : InOrder f known (emitMessagesHoisted blocks (markNamedBefore f ms)) := by
  have hlength : blocks.length = (markNamedBefore f ms).length := by
    rw [markNamedBefore_length, hblocks.length_eq]
  have hmem {item : Nat × MessageNode} (h : item ∈ ms) : item.2 ∈ (p.heap f).messages :=
    List.mem_of_getElem? ((mem_orderedMessages hms _ _).mp h)
  have henum {item : Nat × MessageNode} (hitem : item ∈ ms) {fld : FieldNode} (hfld : fld ∈ item.2.fields) {i : Nat}
      (he : .enumeration ⟨f, i⟩ ∈ fld.type.entities) : (⟨.enumeration ⟨f, i⟩, .type⟩ : Ident) ∈ known :=
    henums i (hhas _ (hmem hitem) fld hfld (.enumeration ⟨f, i⟩) he).2
  have hzip {k : Nat} {item : Nat × MessageNode} (hk : ms[k]? = some item)
      : ∃ b, (blocks.zip (markNamedBefore f ms))[k]? = some b ∧ (markNamedBefore f ms)[k]? = some b.2
        ∧ IsBlockOf l f item b.1 := by
    obtain ⟨block, hblock, hisBlock⟩ := getElem?_of_forall₂ hblocks hk
    have hhoisted := List.getElem?_eq_getElem (hlength ▸ (List.getElem?_eq_some_iff.mp hblock).1)
    exact ⟨(block, _), List.getElem?_zip_eq_some.mpr ⟨hblock, hhoisted⟩, hhoisted, hisBlock⟩
  apply InOrder.append (hoistedReaders_inOrder hblocks fun item hitem fld hfld i he => henum hitem hfld he)
  apply InOrder.flatMap
  rintro before ⟨block, hoisted⟩ behind hsplit
  have hget : (blocks.zip (markNamedBefore f ms))[before.length]? = some (block, hoisted) := by
    simp [hsplit]
  obtain ⟨item, hk, hblock⟩ := getElem?_of_forall₂ hblocks.flip (List.getElem?_zip_eq_some.mp hget).1
  have hown : hoisted = true → (⟨.message ⟨f, item.1⟩, .reader⟩ : Ident)
      ∈ (hoistedReaders blocks (markNamedBefore f ms)).map Decl.ident := by
    rintro rfl
    exact reader_mem_hoistedReaders hblock hget
  obtain ⟨mems, hmems, rfl⟩ := hblock
  suffices hinOrder : InOrder f _ (messageDecls l (.message ⟨f, item.1⟩) mems) by
    unfold blockRest
    split
    . next htrue =>
      refine hinOrder.filter ?_
      intro d hd hdropped
      rw [(messageDecls_isReader hd (by simpa using hdropped)).1]
      exact List.mem_append_left _ (List.mem_append_right _ (hown htrue))
    . exact hinOrder
  apply messageDecls_inOrder
  intro mem hmem' e he hfile
  have hitem := List.mem_of_getElem? hk
  obtain ⟨fld, hfld, hentity⟩ := (members_entities hmems e).mp ⟨mem, hmem', he⟩
  cases e with
  | enumeration id =>
    obtain ⟨g, i⟩ := id
    obtain rfl : g = f := hfile
    refine ⟨fun role hrole => ?_, fun id heq => by cases heq⟩
    rw [Entity.outerRoles, List.mem_singleton] at hrole
    rw [hrole]
    exact List.mem_append_left _ (List.mem_append_left _ (henum hitem hfld hentity))
  | message id =>
    obtain ⟨g, j⟩ := id
    obtain rfl : g = f := hfile
    have hheld := TypeRef.held_of_mem_entities (hlegal _ (hmem hitem) fld hfld) hentity
    have hlt := (hhas _ (hmem hitem) fld hfld _ hentity).2
    obtain ⟨k', hk'⟩ := List.getElem?_of_mem ((mem_orderedMessages hms j _).mpr (List.getElem?_eq_getElem hlt))
    obtain ⟨⟨block', hoisted'⟩, hget', hhoisted', hblock'⟩ := hzip hk'
    rcases Nat.lt_or_ge k' before.length with hlt | hge
    . -- The held message comes earlier, so that its block is before.
      have hbefore : (block', hoisted') ∈ before := by
        rw [hsplit, List.getElem?_append_left hlt] at hget'
        exact List.mem_of_getElem? hget'
      obtain ⟨houter, hreader⟩ := mem_of_block_before hblock' hget' hbefore
      constructor
      . intro role hrole
        exact List.mem_append_right _ (houter role hrole)
      . rintro id -
        rw [List.append_assoc]
        exact List.mem_cons_of_mem _ (List.mem_append_right _ hreader)
    . -- Else it is declared ahead, and its reader is written first where it is another one.
      have hsub := forwardUses_subset hms hforwards hge hk hk' hfld hheld
      constructor
      . intro role hrole
        exact List.mem_append_left _ (List.mem_append_left _ (hknown (mem_forwardIdents hsub hrole)))
      . rintro id -
        rcases Nat.eq_or_lt_of_le hge with heq | hlt
        . rw [heq, hk'] at hk
          cases hk
          exact List.mem_cons_self
        . have hnamed := mem_namedBefore (orderedMessages_nodup hms) hlt hk hk' hfld hheld
          have hmarked := markNamedBefore_getElem? (List.getElem?_eq_some_iff.mp hk').1 hnamed
          obtain rfl : hoisted' = true := Option.some_inj.mp (hhoisted'.symm.trans hmarked)
          apply List.mem_cons_of_mem
          exact List.mem_append_left _ (List.mem_append_right _ (reader_mem_hoistedReaders hblock' hget'))

theorem hoistedDecls_inOrder
    (hhas : ∀ m ∈ (p.heap f).messages, ∀ fld ∈ m.fields, ∀ e ∈ fld.type.entities, p.Has e)
    (hlegal : ∀ m ∈ (p.heap f).messages, ∀ fld ∈ m.fields, fld.type.LegalMap) {forwards : List Use}
    (hforwards : p.fileForwards l f = some forwards) {decls : List Decl} (hdecls : p.hoistedDecls l f = some decls)
    : InOrder f (forwardIdents forwards) decls := by
  unfold hoistedDecls at hdecls
  simp only [Option.bind_eq_bind, Option.bind_eq_some_iff, Option.some_inj] at hdecls
  obtain ⟨ms, hms, blocks, hmapM, rfl⟩ := hdecls
  have hblocks : List.Forall₂ (IsBlockOf l f) ms blocks := by
    refine (forall₂_of_mapM_some hmapM).imp ?_
    intro item block hblock
    obtain ⟨mems, hmems, rfl⟩ := Option.map_eq_some_iff.mp hblock
    exact ⟨mems, hmems, rfl⟩
  apply InOrder.append
  . apply InOrder.of_known
    intro d hd u hu
    simp only [List.mem_flatten, List.mem_mapIdx, enumDecls] at hd
    obtain ⟨_, ⟨i, hi, rfl⟩, hd⟩ := hd
    rcases List.mem_cons.mp hd with rfl | hd
    . cases hu
    . obtain ⟨j, hj, rfl⟩ := List.mem_mapIdx.mp hd
      cases hu
  . have henums : ∀ i < (p.heap f).enums.length, (⟨.enumeration ⟨f, i⟩, .type⟩ : Ident)
        ∈ (((p.heap f).enums.mapIdx fun i en => enumDecls l (.enumeration ⟨f, i⟩) en).flatten).map Decl.ident := by
      intro i hi
      refine List.mem_map.mpr ⟨_, List.mem_flatten.mpr ⟨_, List.mem_mapIdx.mpr ⟨i, hi, rfl⟩, List.mem_cons_self⟩, rfl⟩
    have hinOrder := emitMessagesHoisted_inOrder hhas hlegal hms hforwards hblocks (List.subset_append_left _ _)
      fun i hi => List.mem_append_right (forwardIdents forwards) (henums i hi)
    split
    . exact hinOrder
    . next hnone =>
      rwa [emitMessagesHoisted_of_unmarked _ (Bool.eq_false_of_not_eq_true hnone)] at hinOrder
      rw [markNamedBefore_length, hblocks.length_eq]

theorem hoistedDecls_perm {decls decls' : List Decl} (hdecls : p.fileDecls l f = some decls)
    (hhoisted : p.hoistedDecls l f = some decls') : decls'.Perm decls := by
  unfold hoistedDecls at hhoisted
  unfold fileDecls at hdecls
  simp only [Option.bind_eq_bind, Option.bind_eq_some_iff, Option.some_inj] at hdecls hhoisted
  obtain ⟨ms, hms, blocks, hmapM, rfl⟩ := hdecls
  obtain ⟨ms', hms', blocks', hmapM', rfl⟩ := hhoisted
  obtain rfl : ms = ms' := Option.some_inj.mp (hms.symm.trans hms')
  obtain rfl : blocks = blocks' := Option.some_inj.mp (hmapM.symm.trans hmapM')
  apply List.Perm.append_left
  split
  . apply emitMessagesHoisted_perm
    rw [markNamedBefore_length, (forall₂_of_mapM_some hmapM).length_eq]
  . exact List.Perm.refl _

variable {path : FileId → Span}

theorem emitFileHoisted_inOrder (hf : f ∈ p.files) (hdescribed : p.Described path) (hlegal : p.MapsLegal)
    {h : Header} (hemit : p.emitFileHoisted path l f = some h)
    : ∃ plain, p.emitFile path l f = some plain ∧ Header.InOrder f plain h := by
  unfold emitFileHoisted at hemit
  simp only [Option.bind_eq_bind, Option.bind_eq_some_iff, Option.some_inj] at hemit
  obtain ⟨plain, hplain, decls, hhoisted, rfl⟩ := hemit
  refine ⟨plain, hplain, rfl, rfl, rfl, ?_, ?_⟩
  . obtain ⟨forwards, decls', -, hdecls, rfl⟩ := emitFile_eq_some hplain
    exact hoistedDecls_perm hdecls hhoisted
  . obtain ⟨forwards, decls', hforwards, -, rfl⟩ := emitFile_eq_some hplain
    have hinOrder := hoistedDecls_inOrder (hdescribed.typed f hf) (hlegal f hf) hforwards hhoisted
    intro earlier d later hsplit u hu hfile
    rcases hinOrder.split hsplit hu hfile with hknown | hearlier
    . obtain ⟨hmem, hrole⟩ := List.mem_filter.mp hknown
      exact .inr ⟨by simpa using hrole, List.mem_map.mp hmem⟩
    . exact .inl (List.mem_map.mp hearlier)

theorem zip_of_forall₂ {α β γ : Type} {g : α → Option β} {R : α → β → γ → Prop} {as : List α} {cs : List γ}
    (h : List.Forall₂ (fun a c => ∃ b, g a = some b ∧ R a b c) as cs)
    : ∃ bs, as.mapM g = some bs ∧ List.Forall₂ (fun a (pair : β × γ) => R a pair.1 pair.2) as (bs.zip cs) := by
  induction h with
  | nil => exact ⟨[], rfl, .nil⟩
  | cons hac _ ih =>
    obtain ⟨b, hb, hR⟩ := hac
    obtain ⟨bs, hbs, hforall⟩ := ih
    refine ⟨b :: bs, ?_, .cons hR hforall⟩
    simp [hb, hbs]

end Pool

/--
In every header, a definition stands behind those that it names of its own file, or these are declared
ahead. A reader, which others hold by value, always stands before.
-/
theorem Sources.headers_inOrder [Libc] {src : Sources} {plan : Plan} {p : Pool} {headers : List Header}
    (hdescribe : src.describe = some p) (hlegal : p.MapsLegal)
    (hemit : p.emitFilesHoisted src.path plan = some headers)
    : ∃ plain, p.emitFiles src.path plan = some plain
        ∧ List.Forall₂ (fun f (pair : Header × Header) => Header.InOrder f pair.1 pair.2) p.files
          (plain.zip headers) := by
  obtain ⟨-, hdescribed⟩ := Sources.described hdescribe
  unfold Pool.emitFilesHoisted at hemit
  simp only [Option.bind_eq_bind, Option.bind_eq_some_iff] at hemit
  obtain ⟨agenda, hagenda, l, hl, hmapM⟩ := hemit
  have hheaders := Pool.forall₂_of_mem (forall₂_of_mapM_some hmapM) fun f hf h hh =>
    Pool.emitFileHoisted_inOrder hf hdescribed hlegal hh
  obtain ⟨plain, hplain, hforall⟩ := Pool.zip_of_forall₂ hheaders
  refine ⟨plain, ?_, hforall⟩
  unfold Pool.emitFiles
  simp [hagenda, hl, hplain]

/--
Two messages that hold each other, one of them as the values of a map. The reader of the second one is
written ahead.
-/
def mutuallyHeld : Sources where
  files := [0]
  nodup := nodup_single
  path _ := "a.proto".toList
  text _ := "message A{B b=1;map<string,B> m=2;}message B{A a=1;repeated B c=2;}".toList

def TypeRef.isLegalMap : TypeRef → Bool
  | .map _ (.map ..) => false
  | .map key _ => mapKeyTypes.any fun name => key = .builtin name
  | _ => true

theorem TypeRef.legalMap_of_isLegalMap {type : TypeRef} (h : type.isLegalMap = true) : type.LegalMap := by
  cases type with
  | map key value =>
    cases value <;> simp_all [isLegalMap, LegalMap]
  | _ => trivial

/--
Run the generator, and look whether its maps are legal and its definitions are moved.
-/
def movesReaders [Libc] (src : Sources) (plan : Plan) : Bool :=
  match src.describe with
  | none => false
  | some p =>
    match p.emitFilesHoisted src.path plan, p.emitFiles src.path plan with
    | some headers, some plain =>
      headers ≠ plain && p.files.all fun f => (p.heap f).messages.all fun m => m.fields.all fun fld =>
        fld.type.isLegalMap
    | _, _ => false

theorem exists_of_movesReaders [Libc] {src : Sources} {plan : Plan} (h : movesReaders src plan = true)
    : ∃ p headers plain, src.describe = some p ∧ p.MapsLegal ∧ p.emitFilesHoisted src.path plan = some headers
        ∧ p.emitFiles src.path plan = some plain ∧ headers ≠ plain := by
  unfold movesReaders at h
  split at h
  . cases h
  . next p hdescribe =>
    split at h
    . next headers plain hheaders hplain =>
      simp only [Bool.and_eq_true, decide_eq_true_eq, List.all_eq_true] at h
      refine ⟨p, headers, plain, hdescribe, ?_, hheaders, hplain, h.1⟩
      exact fun f hf m hm fld hfld => TypeRef.legalMap_of_isLegalMap (h.2 f hf m hm fld hfld)
    . cases h

theorem mutuallyHeld_inOrder
    : ∃ p headers plain, @Sources.describe Pool.constLibc mutuallyHeld = some p
        ∧ p.emitFilesHoisted mutuallyHeld.path (fun _ => none) = some headers
        ∧ p.emitFiles mutuallyHeld.path (fun _ => none) = some plain ∧ headers ≠ plain
        ∧ List.Forall₂ (fun f (pair : Header × Header) => Header.InOrder f pair.1 pair.2) p.files
          (plain.zip headers) := by
  obtain ⟨p, headers, plain, hdescribe, hlegal, hemit, hplain, hmoved⟩ :=
    @exists_of_movesReaders Pool.constLibc mutuallyHeld (fun _ => none) (by decide +kernel)
  obtain ⟨plain', hplain', hforall⟩ := @Sources.headers_inOrder Pool.constLibc _ _ _ _ hdescribe hlegal hemit
  obtain rfl : plain = plain' := Option.some_inj.mp (hplain.symm.trans hplain')
  exact ⟨p, headers, plain, hdescribe, hemit, hplain, hmoved, hforall⟩

end Gremlin
