import Gremlin.Codegen.Emission

/-!
This module contains what a header has in it: what it defines is of its own file, and what it names is
of its own file or named by the type of a field.
-/

namespace Gremlin

open Naming

/-! The members of a message are its fields. -/

theorem claimMembers_length {used : List Spelling} {fields : List FieldNode} {fs : List Slotted}
    (h : claimMembers used fields = some fs) : fs.length = fields.length := by
  induction fields generalizing used fs with
  | nil =>
    rw [claimMembers, Option.some_inj] at h
    subst h
    rfl
  | cons fld rest ih =>
    simp only [claimMembers, Option.bind_eq_bind, Option.bind_eq_some_iff] at h
    obtain ⟨fname, -, h⟩ := h
    split at h
    . simp only [Option.bind_eq_some_iff, Option.some_inj] at h
      obtain ⟨packed, -, fs', hrest, rfl⟩ := h
      rw [List.length_cons, List.length_cons, ih hrest]
    . simp only [Option.bind_eq_some_iff, Option.some_inj] at h
      obtain ⟨fs', hrest, rfl⟩ := h
      rw [List.length_cons, List.length_cons, ih hrest]

theorem memberNames_length {fields : List FieldNode} {names : List Spelling}
    (h : memberNames fields = some names) : names.length = fields.length := by
  unfold memberNames at h
  rw [Option.map_eq_some_iff] at h
  obtain ⟨fs, hfs, rfl⟩ := h
  rw [List.length_map, claimMembers_length hfs]

theorem members_length {fields : List FieldNode} {mems : List Member} (h : members fields = some mems)
    : mems.length = fields.length := by
  unfold members at h
  rw [Option.map_eq_some_iff] at h
  obtain ⟨names, hnames, rfl⟩ := h
  simp [memberNames_length hnames]

theorem members_getElem {fields : List FieldNode} {mems : List Member} (h : members fields = some mems)
    (i : Nat) (hi : i < mems.length) (hi' : i < fields.length)
    : mems[i].index = i ∧ mems[i].shape = fields[i].shape := by
  unfold members at h
  rw [Option.map_eq_some_iff] at h
  obtain ⟨names, -, rfl⟩ := h
  simp

theorem members_index {fields : List FieldNode} {mems : List Member} (h : members fields = some mems)
    : mems.map Member.index = List.range fields.length := by
  apply List.ext_getElem
  . rw [List.length_map, List.length_range, members_length h]
  . intro i hi hi'
    rw [List.length_map] at hi
    rw [List.getElem_map, List.getElem_range]
    exact (members_getElem h i hi (members_length h ▸ hi)).1

theorem members_shape {fields : List FieldNode} {mems : List Member} (h : members fields = some mems)
    : mems.map Member.shape = fields.map FieldNode.shape := by
  apply List.ext_getElem
  . rw [List.length_map, List.length_map, members_length h]
  . intro i hi hi'
    rw [List.length_map] at hi hi'
    rw [List.getElem_map, List.getElem_map]
    exact (members_getElem h i hi hi').2

theorem shape_entities (fld : FieldNode) : fld.shape.entities = fld.type.entities := by
  unfold FieldNode.shape
  cases htype : fld.type with
  | unresolved => rfl
  | builtin name =>
    dsimp only
    split <;> split <;> rfl
  | message target =>
    dsimp only
    split <;> rfl
  | enumeration target =>
    dsimp only
    split <;> rfl
  | map key value => rfl

theorem members_entities {fields : List FieldNode} {mems : List Member} (h : members fields = some mems)
    (e : Entity)
    : (∃ mem ∈ mems, e ∈ mem.shape.entities) ↔ ∃ fld ∈ fields, e ∈ fld.type.entities := by
  have hshape := members_shape h
  have hiff : ∀ shape, (∃ mem ∈ mems, mem.shape = shape) ↔ ∃ fld ∈ fields, fld.shape = shape := by
    intro shape
    rw [← List.mem_map, ← List.mem_map, hshape]
  constructor
  . rintro ⟨mem, hmem, he⟩
    obtain ⟨fld, hfld, heq⟩ := (hiff _).mp ⟨mem, hmem, rfl⟩
    refine ⟨fld, hfld, ?_⟩
    rw [← shape_entities, heq]
    exact he
  . rintro ⟨fld, hfld, he⟩
    obtain ⟨mem, hmem, heq⟩ := (hiff _).mpr ⟨fld, hfld, rfl⟩
    refine ⟨mem, hmem, ?_⟩
    rw [heq, shape_entities]
    exact he

/-! What the definitions of a message name. -/

section Message

variable (l : Ledger Ident) (owner : Entity)

@[simp, grind =]
theorem claimedUse_ident (ident : Ident) : (claimedUse l ident).ident = ident :=
  rfl

@[simp, grind =]
theorem typeUse_ident (e : Entity) : (typeUse l e).ident = ⟨e, .type⟩ :=
  rfl

@[simp, grind =]
theorem sizeUse_ident (e : Entity) : (sizeUse l e).ident = ⟨e, .size⟩ :=
  rfl

@[simp, grind =]
theorem cachedSizeUse_ident (e : Entity) : (cachedSizeUse l e).ident = ⟨e, .cachedSize⟩ :=
  rfl

@[simp, grind =]
theorem encodeUse_ident (e : Entity) : (encodeUse l e).ident = ⟨e, .encode⟩ :=
  rfl

@[simp, grind =]
theorem encodeAtUse_ident (e : Entity) : (encodeAtUse l e).ident = ⟨e, .encodeAt⟩ :=
  rfl

@[simp, grind =]
theorem readerUse_ident (e : Entity) : (readerUse l e).ident = ⟨e, .reader⟩ :=
  rfl

@[simp, grind =]
theorem readerInitUse_ident (e : Entity) : (readerInitUse l e).ident = ⟨e, .readerInit⟩ :=
  rfl

def memberUses (mem : Member) : List Use :=
  (entryDecls l owner mem).flatMap Decl.uses ++ writerUses l owner mem ++ sizeFieldUses l mem
    ++ encodeFieldUses l mem ++ readerFieldUses l mem ++ (accessorDecls l owner mem).flatMap Decl.uses

theorem named_of_mem_slot (type : TypeRef) (u : Use)
    (h : u ∈ typeUses l type ++ slotSizeUses l type ++ slotEncodeUses l type ++ slotOutUses l type)
    : u.ident.owner ∈ type.named := by
  cases type <;>
    simp [typeUses, slotSizeUses, slotEncodeUses, slotOutUses, TypeRef.named] at h ⊢
  . rcases h with rfl | rfl | rfl | rfl | rfl | rfl <;> rfl
  . subst h
    rfl

theorem owner_of_mem_memberUses {mem : Member}
    : ∀ u ∈ memberUses l owner mem, u.ident.owner = owner ∨ u.ident.owner ∈ mem.shape.entities := by
  have hslot (type : TypeRef) (u : Use) := named_of_mem_slot l type u
  obtain ⟨index, shape, fname⟩ := mem
  unfold memberUses entryDecls writerUses sizeFieldUses encodeFieldUses readerFieldUses accessorDecls
    getterUses nextUses
  cases shape with
  | map key value =>
    intro u h
    have hkey := hslot key u
    have hvalue := hslot value u
    simp only [List.mem_append, Shape.hasCount, if_true, List.flatMap_cons, List.flatMap_nil,
      List.append_nil, List.mem_cons, List.not_mem_nil, or_false] at h hkey hvalue
    simp only [Shape.entities, List.mem_append]
    grind [claimedUse]
  | repeatedScalar element =>
    intro u h
    have helement := hslot element u
    simp only [List.mem_append, Shape.hasCount, if_true, List.flatMap_cons, List.flatMap_nil,
      List.append_nil, List.mem_cons, List.not_mem_nil, or_false] at h helement
    simp only [Shape.entities]
    grind [claimedUse]
  | repeatedBytes | repeatedMsg | msgRef | enumRef | bytes | scalar =>
    simp [Shape.hasCount, Shape.entities]

theorem exists_use_of_mem_entities {mem : Member} {e : Entity} (h : e ∈ mem.shape.entities)
    : ∃ u ∈ (entryDecls l owner mem).flatMap Decl.uses ++ writerUses l owner mem, u.ident.owner = e := by
  refine ⟨typeUse l e, ?_, rfl⟩
  obtain ⟨index, shape, fname⟩ := mem
  cases shape with
  | map key value =>
    simp only [Shape.entities, List.mem_append] at h
    simp only [entryDecls, writerUses, typeUses, List.flatMap_cons, List.flatMap_nil, List.append_nil,
      List.mem_append, List.mem_map]
    left
    rcases h with h | h
    . exact .inl ⟨e, h, rfl⟩
    . exact .inr ⟨e, h, rfl⟩
  | repeatedScalar element =>
    simp only [Shape.entities] at h
    simp only [entryDecls, writerUses, typeUses, List.mem_append, List.mem_map]
    exact .inr ⟨e, h, rfl⟩
  | repeatedMsg target | msgRef target | enumRef target =>
    simp only [Shape.entities, List.mem_singleton] at h
    subst h
    simp [entryDecls, writerUses]
  | repeatedBytes | bytes | scalar => simp [Shape.entities] at h

variable {mems : List Member}

theorem messageDecls_owner : ∀ d ∈ messageDecls l owner mems, d.ident.owner = owner := by
  have hentry (mem : Member) : ∀ d ∈ entryDecls l owner mem, d.ident.owner = owner := by
    unfold entryDecls
    split <;> simp
  have haccessor (mem : Member) : ∀ d ∈ accessorDecls l owner mem, d.ident.owner = owner := by
    unfold accessorDecls
    split <;> simp
  intro d hd
  simp only [messageDecls, List.mem_append, List.mem_flatMap] at hd
  rcases hd with (⟨mem, -, hd⟩ | hd) | ⟨mem, -, hd⟩
  . exact hentry mem d hd
  . simp only [List.mem_cons, List.not_mem_nil, or_false] at hd
    rcases hd with rfl | rfl | rfl | rfl | rfl | rfl | rfl <;> rfl
  . exact haccessor mem d hd

variable (mems) in
theorem messageDecls_type : ∃ d ∈ messageDecls l owner mems, d.ident = ⟨owner, .type⟩ := by
  refine ⟨⟨⟨owner, .type⟩, l.nameOf ⟨owner, .type⟩, mems.flatMap (writerUses l owner)⟩, ?_, rfl⟩
  simp [messageDecls]

theorem mem_messageDecls_uses {u : Use}
    : (∃ d ∈ messageDecls l owner mems, u ∈ d.uses)
        ↔ (∃ mem ∈ mems, u ∈ memberUses l owner mem)
          ∨ u ∈ [typeUse l owner, encodeAtUse l owner, claimedUse l ⟨owner, .reader⟩] := by
  simp only [messageDecls, memberUses, List.mem_append, List.mem_flatMap, List.mem_cons,
    List.not_mem_nil, or_false, or_and_right, exists_or, exists_eq_left, and_or_left]
  grind

theorem owner_of_mem_messageDecls_uses {d : Decl} (hd : d ∈ messageDecls l owner mems) {u : Use}
    (hu : u ∈ d.uses) : u.ident.owner = owner ∨ ∃ mem ∈ mems, u.ident.owner ∈ mem.shape.entities := by
  rcases (mem_messageDecls_uses l owner).mp ⟨d, hd, hu⟩ with ⟨mem, hmem, hu⟩ | hu
  . rcases owner_of_mem_memberUses l owner u hu with howner | hentities
    . exact .inl howner
    . exact .inr ⟨mem, hmem, hentities⟩
  . simp only [List.mem_cons, List.not_mem_nil, or_false] at hu
    rcases hu with rfl | rfl | rfl <;> exact .inl rfl

theorem exists_use_of_member {mem : Member} (hmem : mem ∈ mems) {e : Entity}
    (he : e ∈ mem.shape.entities)
    : ∃ d ∈ messageDecls l owner mems, ∃ u ∈ d.uses, u.ident.owner = e := by
  obtain ⟨u, hu, howner⟩ := exists_use_of_mem_entities l owner he
  have : u ∈ memberUses l owner mem := by
    simp only [memberUses, List.mem_append] at hu ⊢
    tauto
  obtain ⟨d, hd, hud⟩ := (mem_messageDecls_uses l owner).mpr (.inl ⟨mem, hmem, this⟩)
  exact ⟨d, hd, u, hud, howner⟩

end Message

/-! The definitions of a file. -/

theorem forall₂_of_mapM_some {α β : Type} {g : α → Option β} {l : List α} {l' : List β}
    (h : l.mapM g = some l') : List.Forall₂ (fun a b => g a = some b) l l' := by
  induction l generalizing l' with
  | nil =>
    rw [List.mapM_nil] at h
    cases h
    exact .nil
  | cons a l ih =>
    simp only [List.mapM_cons, Option.bind_eq_bind, Option.bind_eq_some_iff] at h
    obtain ⟨b, hb, l'', hl'', h⟩ := h
    cases h
    exact .cons hb (ih hl'')

theorem mem_flatten_iff {α β : Type} {g : α → Option (List β)} {l : List α} {blocks : List (List β)}
    (h : l.mapM g = some blocks) (x : β) : x ∈ blocks.flatten ↔ ∃ a ∈ l, ∃ block, g a = some block ∧ x ∈ block := by
  have hforall := forall₂_of_mapM_some h
  clear h
  induction hforall with
  | nil => simp
  | cons hab _ ih =>
    simp only [List.flatten_cons, List.mem_append, ih, List.mem_cons, exists_eq_or_imp, hab,
      Option.some.injEq, exists_eq_left']

namespace Pool

variable {p : Pool} {f : FileId}

theorem mem_orderedMessages {ms : List (Nat × MessageNode)} (h : p.orderedMessages f = some ms)
    (i : Nat) (m : MessageNode) : (i, m) ∈ ms ↔ (p.heap f).messages[i]? = some m := by
  unfold orderedMessages at h
  rw [Option.map_eq_some_iff] at h
  obtain ⟨order, horder, rfl⟩ := h
  have hperm := MessageOrder.items_perm horder
  simp only [itemsOf, List.mem_map, Prod.mk.injEq, List.getElem?_eq_some_iff]
  constructor
  . rintro ⟨j, -, rfl, rfl⟩
    exact ⟨j.isLt, rfl⟩
  . rintro ⟨hi, rfl⟩
    exact ⟨⟨i, hi⟩, hperm.mem_iff.mpr (List.mem_finRange _), rfl, rfl⟩

theorem mem_fileDecls {l : Ledger Ident} {decls : List Decl} (h : p.fileDecls l f = some decls) (d : Decl)
    : d ∈ decls
        ↔ (∃ i en, (p.heap f).enums[i]? = some en ∧ d ∈ enumDecls l (.enumeration ⟨f, i⟩) en)
          ∨ ∃ i m mems, (p.heap f).messages[i]? = some m ∧ members m.fields = some mems
            ∧ d ∈ messageDecls l (.message ⟨f, i⟩) mems := by
  unfold fileDecls at h
  simp only [Option.bind_eq_bind, Option.bind_eq_some_iff, Option.some_inj] at h
  obtain ⟨ms, hms, blocks, hblocks, rfl⟩ := h
  rw [List.mem_append, mem_flatten_iff hblocks]
  simp only [List.mem_flatten, List.mem_mapIdx, Prod.exists, mem_orderedMessages hms,
    Option.map_eq_some_iff]
  constructor
  . rintro (⟨_, ⟨i, hi, rfl⟩, hd⟩ | ⟨i, m, hm, _, ⟨mems, hmems, rfl⟩, hd⟩)
    . exact .inl ⟨i, _, List.getElem?_eq_getElem hi, hd⟩
    . exact .inr ⟨i, m, mems, hm, hmems, hd⟩
  . rintro (⟨i, en, hen, hd⟩ | ⟨i, m, mems, hm, hmems, hd⟩)
    . obtain ⟨hi, rfl⟩ := List.getElem?_eq_some_iff.mp hen
      exact .inl ⟨_, ⟨i, hi, rfl⟩, hd⟩
    . exact .inr ⟨i, m, hm, _, ⟨mems, hmems, rfl⟩, hd⟩

theorem exists_members {l : Ledger Ident} {decls : List Decl} (h : p.fileDecls l f = some decls) {i : Nat}
    {m : MessageNode} (hm : (p.heap f).messages[i]? = some m) : ∃ mems, members m.fields = some mems := by
  unfold fileDecls at h
  simp only [Option.bind_eq_bind, Option.bind_eq_some_iff, Option.some_inj] at h
  obtain ⟨ms, hms, blocks, hblocks, -⟩ := h
  obtain ⟨_, hblock⟩ := exists_of_forall₂ (forall₂_of_mapM_some hblocks) ((mem_orderedMessages hms i m).mpr hm)
  rw [Option.map_eq_some_iff] at hblock
  obtain ⟨mems, hmems, -⟩ := hblock
  exact ⟨mems, hmems⟩

variable {path : FileId → Span} {l : Ledger Ident} {h : Header}

theorem emitFile_eq_some (hemit : p.emitFile path l f = some h)
    : ∃ forwards decls, p.fileForwards l f = some forwards ∧ p.fileDecls l f = some decls
        ∧ h = ⟨deriveGuard (path f), (p.heap f).imports.map fun imp => includeName imp.parsed.path,
          forwards, decls⟩ := by
  unfold emitFile at hemit
  simp only [Option.bind_eq_bind, Option.bind_eq_some_iff, Option.some_inj] at hemit
  obtain ⟨forwards, hforwards, decls, hdecls, rfl⟩ := hemit
  exact ⟨forwards, decls, hforwards, hdecls, rfl⟩

theorem defines_iff (hemit : p.emitFile path l f = some h) {e : Entity} (he : p.Has e)
    : (∃ d ∈ h.decls, d.ident = ⟨e, .type⟩) ↔ e.file = f := by
  obtain ⟨forwards, decls, -, hdecls, rfl⟩ := emitFile_eq_some hemit
  constructor
  . rintro ⟨d, hd, hident⟩
    rcases (mem_fileDecls hdecls d).mp hd with ⟨i, en, -, hd⟩ | ⟨i, m, mems, -, -, hd⟩
    . have : d.ident.owner = .enumeration ⟨f, i⟩ := by
        simp only [enumDecls, List.mem_cons, List.mem_mapIdx] at hd
        rcases hd with rfl | ⟨_, _, rfl⟩ <;> rfl
      rw [hident] at this
      dsimp only at this
      rw [this]
      rfl
    . have := messageDecls_owner l _ d hd
      rw [hident] at this
      dsimp only at this
      rw [this]
      rfl
  . rintro rfl
    cases e with
    | message id =>
      have hm := List.getElem?_eq_getElem he.2
      obtain ⟨mems, hmems⟩ := exists_members hdecls hm
      obtain ⟨d, hd, hident⟩ := messageDecls_type l (.message id) mems
      exact ⟨d, (mem_fileDecls hdecls d).mpr (.inr ⟨id.index, _, mems, hm, hmems, hd⟩), hident⟩
    | enumeration id =>
      have hen := List.getElem?_eq_getElem he.2
      refine ⟨_, (mem_fileDecls hdecls _).mpr (.inl ⟨id.index, _, hen, List.mem_cons_self⟩), rfl⟩

/--
What a header names is of its own file or named by the type of a field of it.
-/
theorem owner_of_mem_uses (hemit : p.emitFile path l f = some h) (hf : f ∈ p.files) {u : Use} (hu : u ∈ h.uses)
    : (p.Has u.ident.owner ∧ u.ident.owner.file = f)
        ∨ ∃ m ∈ (p.heap f).messages, ∃ fld ∈ m.fields, u.ident.owner ∈ fld.type.entities := by
  obtain ⟨forwards, decls, hforwards, hdecls, rfl⟩ := emitFile_eq_some hemit
  simp only [Header.uses, List.mem_append, List.mem_flatMap] at hu
  rcases hu with hu | ⟨d, hd, hu⟩
  . unfold fileForwards at hforwards
    rw [Option.map_eq_some_iff] at hforwards
    obtain ⟨order, -, rfl⟩ := hforwards
    rw [List.mem_flatMap] at hu
    obtain ⟨i, -, hu⟩ := hu
    have howner : u.ident.owner = .message ⟨f, i⟩ := by
      simp only [forwardUses, List.mem_cons, List.not_mem_nil, or_false] at hu
      rcases hu with rfl | rfl | rfl | rfl | rfl | rfl | rfl <;> rfl
    rw [howner]
    exact .inl ⟨⟨hf, i.isLt⟩, rfl⟩
  . rcases (mem_fileDecls hdecls d).mp hd with ⟨i, en, -, hd⟩ | ⟨i, m, mems, hm, hmems, hd⟩
    . simp only [enumDecls, List.mem_cons, List.mem_mapIdx] at hd
      rcases hd with rfl | ⟨_, _, rfl⟩ <;> simp at hu
    . rcases owner_of_mem_messageDecls_uses l _ hd hu with howner | hex
      . rw [howner]
        exact .inl ⟨⟨hf, (List.getElem?_eq_some_iff.mp hm).1⟩, rfl⟩
      . exact .inr ⟨m, List.mem_of_getElem? hm, (members_entities hmems _).mp hex⟩

theorem exists_use (hemit : p.emitFile path l f = some h) {m : MessageNode}
    (hm : m ∈ (p.heap f).messages) {fld : FieldNode} (hfld : fld ∈ m.fields) {e : Entity}
    (he : e ∈ fld.type.entities) : ∃ u ∈ h.uses, u.ident.owner = e := by
  obtain ⟨forwards, decls, -, hdecls, rfl⟩ := emitFile_eq_some hemit
  obtain ⟨i, hi, rfl⟩ := List.getElem_of_mem hm
  have hget := List.getElem?_eq_getElem hi
  obtain ⟨mems, hmems⟩ := exists_members hdecls hget
  obtain ⟨mem, hmem, he⟩ := (members_entities hmems e).mpr ⟨fld, hfld, he⟩
  obtain ⟨d, hd, u, hu, howner⟩ := exists_use_of_member l (.message ⟨f, i⟩) hmem he
  refine ⟨u, ?_, howner⟩
  simp only [Header.uses, List.mem_append, List.mem_flatMap]
  exact .inr ⟨d, (mem_fileDecls hdecls d).mpr (.inr ⟨i, _, mems, hget, hmems, hd⟩), hu⟩

end Pool

end Gremlin
