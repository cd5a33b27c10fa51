import Gremlin.Codegen.Agenda
import Gremlin.Codegen.Inclusion

/-!
This module contains when the names in the headers are consistent.
-/

namespace Gremlin

open Naming

/--
What the headers define has names of its own, and every place that names one of these spells it as it
is defined.
-/
def Consistent (headers : List Header) : Prop :=
  ((headers.flatMap Header.decls).map Decl.spelling).Nodup
    ∧ ∀ h ∈ headers, ∀ u ∈ h.uses, ∃ h' ∈ headers, ∃ d ∈ h'.decls,
      d.ident = u.ident ∧ d.spelling = u.spelling

namespace Pool

variable (p : Pool)

/--
The type of a field names the message or enum.
-/
def Named (e : Entity) : Prop :=
  ∃ f ∈ p.files, ∃ m ∈ (p.heap f).messages, ∃ fld ∈ m.fields, e ∈ fld.type.entities

/--
The message is declared ahead of its definition.
-/
def Ahead (e : Entity) : Prop :=
  ∃ f ∈ p.files, ∃ order, topoSortMessages f (p.heap f).messages = some order
    ∧ ∃ i ∈ order.predeclare, e = .message ⟨f, i.val⟩

/--
The identifiers that are spelled, where others need them, by the name of the message and a suffix,
although their definitions go by a name that is claimed.
-/
def Relied (id : Ident) : Prop :=
  (id.role = .size ∨ id.role = .reader ∨ id.role = .readerInit) ∧ (p.Named id.owner ∨ p.Ahead id.owner)
    ∨ id.role = .encode ∧ p.Ahead id.owner

end Pool

section Message

variable {l : Ledger Ident} {owner : Entity} {mems : List Member} {contract : Option Contract}

theorem idents_accessorDecls (mem : Member)
    : (accessorDecls l owner mem).map Decl.ident = getterIds owner mem ++ iteratorIds owner mem := by
  unfold accessorDecls getterIds iteratorIds
  split <;> rfl

theorem idents_entryDecls (mem : Member) : (entryDecls l owner mem).map Decl.ident = entryIds owner mem := by
  obtain ⟨index, shape, fname⟩ := mem
  cases shape <;> rfl

theorem idents_messageDecls
    : ((messageDecls l owner mems).map Decl.ident).Perm
        (⟨owner, .type⟩ :: idsOf (headActs owner ++ tailActs owner mems contract)) := by
  have haccessor := List.flatMap_append_perm mems (getterIds owner) (iteratorIds owner)
  have hclaimed := List.flatMap_append_perm mems (getterIds owner) fun mem => entryIds owner mem
  rw [idsOf_messageActs]
  unfold messageDecls
  simp only [List.map_append, List.map_flatMap, idents_accessorDecls, idents_entryDecls]
  rw [List.perm_iff_count] at haccessor hclaimed ⊢
  intro id
  have haccessor := haccessor id
  have hclaimed := hclaimed id
  simp only [List.count_append, List.map_cons, List.map_nil, List.count_cons, List.count_nil]
    at haccessor hclaimed ⊢
  omega

theorem idents_enumDecls (en : EnumNode)
    : (enumDecls l owner en).map Decl.ident = ⟨owner, .type⟩ :: idsOf (enumActs owner en) := by
  rw [idsOf_enumActs, enumDecls, List.map_cons]
  congr 1
  exact List.ext_getElem (by simp) (by simp)

variable (owner contract) in
theorem iterStem_mem {mem : Member} (hmem : mem ∈ mems) (hcount : mem.shape.hasCount = true)
    : .spell ⟨owner, .iter mem.index⟩ (iterStem owner mem.fname "_iter") ∈ tailActs owner mems contract
        ∧ .spell ⟨owner, .count mem.index⟩ (iterStem owner mem.fname "_count") ∈ tailActs owner mems contract
        ∧ .spell ⟨owner, .begin mem.index⟩ (iterStem owner mem.fname "_begin") ∈ tailActs owner mems contract
        ∧ .spell ⟨owner, .next mem.index⟩ (iterStem owner mem.fname "_next")
          ∈ tailActs owner mems contract := by
  have hsub : spelledActs owner mem ⊆ tailActs owner mems contract := by
    intro act hact
    unfold tailActs
    simp only [List.mem_append, List.mem_cons, List.mem_flatMap]
    exact .inr (.inr (.inr ⟨mem, hmem, hact⟩))
  unfold spelledActs at hsub
  rw [if_pos hcount] at hsub
  simp only [List.cons_subset] at hsub
  exact ⟨hsub.1, hsub.2.1, hsub.2.2.1, hsub.2.2.2.1⟩

theorem cachedSize_mem
    : .spell ⟨owner, .cachedSize⟩ (typeStem owner "_cached_size") ∈ tailActs owner mems contract
        ∧ .spell ⟨owner, .encodeAt⟩ (typeStem owner "_encode_at") ∈ tailActs owner mems contract := by
  unfold tailActs
  simp only [List.mem_append, List.mem_cons, true_or, or_true, and_self]

theorem spelling_messageDecls
    (hspelled : ∀ id stem, .spell id stem ∈ tailActs owner mems contract → l.nameOf id = l.raw stem)
    : ∀ d ∈ messageDecls l owner mems, d.spelling = l.nameOf d.ident := by
  intro d hd
  simp only [messageDecls, List.mem_append, List.mem_flatMap] at hd
  rcases hd with (⟨mem, hmem, hd⟩ | hd) | ⟨mem, hmem, hd⟩
  . unfold entryDecls at hd
    split at hd
    . rw [List.mem_singleton] at hd
      rw [hd]
    . simp at hd
  . simp only [List.mem_cons, List.not_mem_nil, or_false] at hd
    rcases hd with rfl | rfl | rfl | rfl | rfl | rfl | rfl
    . rfl
    . exact (hspelled _ _ cachedSize_mem.1).symm
    . rfl
    . exact (hspelled _ _ cachedSize_mem.2).symm
    . rfl
    . rfl
    . rfl
  . unfold accessorDecls at hd
    split at hd
    . next hcount =>
      obtain ⟨hiter, hcounted, hbegin, hnext⟩ := iterStem_mem owner contract hmem hcount
      simp only [List.mem_cons, List.not_mem_nil, or_false] at hd
      rcases hd with rfl | rfl | rfl | rfl
      . exact (hspelled _ _ hiter).symm
      . exact (hspelled _ _ hcounted).symm
      . exact (hspelled _ _ hbegin).symm
      . exact (hspelled _ _ hnext).symm
    . rw [List.mem_singleton] at hd
      rw [hd]

theorem spelling_enumDecls (en : EnumNode) : ∀ d ∈ enumDecls l owner en, d.spelling = l.nameOf d.ident := by
  intro d hd
  simp only [enumDecls, List.mem_cons, List.mem_mapIdx] at hd
  rcases hd with rfl | ⟨j, hj, rfl⟩ <;> rfl

variable {P : Use → Prop}

theorem forall_memberUses {mem : Member} (htype : ∀ e ∈ mem.shape.entities, P (typeUse l e))
    (hjoined : ∀ id, .message id ∈ mem.shape.entities → P (sizeUse l (.message id))
      ∧ P (cachedSizeUse l (.message id)) ∧ P (encodeAtUse l (.message id))
      ∧ P (readerUse l (.message id)) ∧ P (readerInitUse l (.message id)))
    (hreader : P (claimedUse l ⟨owner, .reader⟩))
    (hentry : mem.shape.isMap = true → P (claimedUse l ⟨owner, .entry mem.index⟩))
    (hiter : mem.shape.hasCount = true
      → P ⟨⟨owner, .iter mem.index⟩, l.raw (iterStem owner mem.fname "_iter")⟩)
    : ∀ u ∈ memberUses l owner mem, P u := by
  obtain ⟨index, shape, fname⟩ := mem
  have hslot (type : TypeRef) (hsub : type.named ⊆ shape.entities)
      : ∀ u ∈ typeUses l type ++ slotSizeUses l type ++ slotEncodeUses l type ++ slotOutUses l type, P u := by
    cases type with
    | message target =>
      have htarget := hsub (List.mem_singleton_self (Entity.message target))
      obtain ⟨hsize, hcached, hencodeAt, hreader, hinit⟩ := hjoined target htarget
      simp [typeUses, slotSizeUses, slotEncodeUses, slotOutUses, TypeRef.named, htype _ htarget, hsize, hcached,
        hencodeAt, hreader, hinit]
    | enumeration target =>
      have htarget := hsub (List.mem_singleton_self (Entity.enumeration target))
      simp [typeUses, slotSizeUses, slotEncodeUses, slotOutUses, TypeRef.named, htype _ htarget]
    | _ => simp [typeUses, slotSizeUses, slotEncodeUses, slotOutUses, TypeRef.named]
  -- The shape decides which of the uses there are, and each is one of those above.
  unfold memberUses entryDecls writerUses sizeFieldUses encodeFieldUses readerFieldUses accessorDecls
    getterUses nextUses
  cases shape with
  | map key value =>
    have hkey := hslot key (List.subset_append_left _ _)
    have hvalue := hslot value (List.subset_append_right _ _)
    have hentry := hentry rfl
    have hiter := hiter rfl
    simp only [List.forall_mem_append] at hkey hvalue
    simp only [Shape.hasCount, if_true, List.flatMap_cons, List.flatMap_nil, List.append_nil,
      List.forall_mem_append, List.forall_mem_cons, List.nil_append, List.cons_append]
    grind
  | repeatedScalar element =>
    have helement := hslot element (List.Subset.refl _)
    have hiter := hiter rfl
    simp only [List.forall_mem_append] at helement
    simp only [Shape.hasCount, if_true, List.flatMap_cons, List.flatMap_nil, List.append_nil,
      List.forall_mem_append, List.forall_mem_cons, List.nil_append, List.cons_append]
    grind
  | repeatedMsg target =>
    have htype := htype _ (List.mem_singleton_self (Entity.message target))
    have hiter := hiter rfl
    obtain ⟨hsize, hcached, hencodeAt, hreader', hinit⟩ := hjoined target (List.mem_singleton_self _)
    simp [Shape.hasCount, htype, hiter, hsize, hcached, hencodeAt, hreader, hreader', hinit]
  | msgRef target =>
    have htype := htype _ (List.mem_singleton_self (Entity.message target))
    obtain ⟨hsize, hcached, hencodeAt, hreader', hinit⟩ := hjoined target (List.mem_singleton_self _)
    simp [Shape.hasCount, htype, hsize, hcached, hencodeAt, hreader, hreader', hinit]
  | enumRef target =>
    have htype := htype _ (List.mem_singleton_self (Entity.enumeration target))
    simp [Shape.hasCount, htype, hreader]
  | repeatedBytes =>
    have hiter := hiter rfl
    simp [Shape.hasCount, hiter, hreader]
  | bytes | scalar => simp [Shape.hasCount, hreader]

theorem shape_repeatedScalar {fld : FieldNode} {element : TypeRef} (h : fld.shape = .repeatedScalar element)
    (id : NodeId) : .message id ∉ element.named := by
  unfold FieldNode.shape at h
  cases htype : fld.type with
  | enumeration target =>
    rw [htype] at h
    dsimp only at h
    split at h
    . rw [Shape.repeatedScalar.injEq] at h
      rw [← h]
      simp [TypeRef.named]
    . simp at h
  | builtin name =>
    rw [htype] at h
    dsimp only at h
    split at h
    . split at h <;> simp at h
    . split at h
      . rw [Shape.repeatedScalar.injEq] at h
        rw [← h]
        simp [TypeRef.named]
      . simp at h
  | message target =>
    rw [htype] at h
    dsimp only at h
    split at h <;> simp at h
  | map key value => simp [htype] at h
  | unresolved => simp [htype] at h

variable (l owner) in
theorem joined_mem_memberUses {mem : Member} {fld : FieldNode} (hshape : mem.shape = fld.shape) {id : NodeId}
    (h : .message id ∈ mem.shape.entities)
    : sizeUse l (.message id) ∈ memberUses l owner mem ∧ readerUse l (.message id) ∈ memberUses l owner mem
        ∧ readerInitUse l (.message id) ∈ memberUses l owner mem := by
  obtain ⟨index, shape, fname⟩ := mem
  dsimp only at hshape
  have hslot (type : TypeRef) (hmem : .message id ∈ type.named)
      : sizeUse l (.message id) ∈ slotSizeUses l type ∧ readerUse l (.message id) ∈ slotOutUses l type
        ∧ readerInitUse l (.message id) ∈ slotOutUses l type := by
    cases type with
    | message target =>
      simp only [TypeRef.named, List.mem_singleton, Entity.message.injEq] at hmem
      subst hmem
      simp [slotSizeUses, slotOutUses]
    | _ => simp [TypeRef.named] at hmem
  cases shape with
  | map key value =>
    simp only [Shape.entities, List.mem_append] at h
    simp only [memberUses, sizeFieldUses, accessorDecls, nextUses, Shape.hasCount, if_true, List.mem_append,
      List.flatMap_cons, List.mem_cons]
    rcases h with h | h
    . obtain ⟨hsize, hreader, hinit⟩ := hslot key h
      simp [hsize, hreader, hinit]
    . obtain ⟨hsize, hreader, hinit⟩ := hslot value h
      simp [hsize, hreader, hinit]
  | repeatedScalar element => exact absurd h (shape_repeatedScalar hshape.symm id)
  | repeatedMsg target | msgRef target =>
    simp only [Shape.entities, List.mem_singleton, Entity.message.injEq] at h
    subst h
    simp [memberUses, sizeFieldUses, accessorDecls, nextUses, getterUses, Shape.hasCount]
  | enumRef target | repeatedBytes | bytes | scalar => simp [Shape.entities] at h

variable {relied : Ident → Prop}

theorem matches_claim {id : Ident} {stem : Stem Ident}
    : l.Matches relied (.claim id stem) ↔ (relied id → l.nameOf id = l.raw stem) := by
  constructor
  . exact fun h => h id stem rfl
  . rintro h _ _ heq
    rw [Act.claim.injEq] at heq
    obtain ⟨rfl, rfl⟩ := heq
    exact h

theorem matches_messageActs (hrelied : ∀ id, relied id → id.role ∈ [.size, .encode, .reader, .readerInit])
    : (∀ act ∈ headActs owner ++ tailActs owner mems contract, l.Matches relied act)
        ↔ (relied ⟨owner, .size⟩ → l.nameOf ⟨owner, .size⟩ = l.raw (typeStem owner "_size"))
          ∧ (relied ⟨owner, .encode⟩ → l.nameOf ⟨owner, .encode⟩ = l.raw (typeStem owner "_encode"))
          ∧ (relied ⟨owner, .reader⟩ → l.nameOf ⟨owner, .reader⟩ = l.raw (typeStem owner "_reader"))
          ∧ (relied ⟨owner, .readerInit⟩
            → l.nameOf ⟨owner, .readerInit⟩ = l.raw (readerStem owner "_init")) := by
  have htail : (∀ act ∈ tailActs owner mems contract, l.Matches relied act)
      ↔ l.Matches relied (.claim ⟨owner, .readerInit⟩ (readerStem owner "_init")) := by
    constructor
    . exact fun h => h _ List.mem_cons_self
    . intro h act hact id stem heq hid
      have hrole : id.role.field? = none := by
        have := hrelied id hid
        simp only [List.mem_cons, List.not_mem_nil, or_false] at this
        rcases this with hrole | hrole | hrole | hrole <;> rw [hrole] <;> rfl
      obtain ⟨rfl, rfl⟩ := (isTail_of_mem_tailActs act hact).claimed id stem heq hrole
      exact h _ _ rfl hid
  rw [List.forall_mem_append, htail, headActs]
  simp only [List.forall_mem_cons, List.not_mem_nil, false_implies, implies_true, and_true, matches_claim]
  tauto

theorem matches_enumActs (hrelied : ∀ id, relied id → id.role ∈ [.size, .encode, .reader, .readerInit])
    (en : EnumNode) : ∀ act ∈ enumActs owner en, l.Matches relied act := by
  intro act hact
  simp only [enumActs, List.mem_mapIdx] at hact
  obtain ⟨j, hj, rfl⟩ := hact
  rw [matches_claim]
  intro hid
  have := hrelied _ hid
  simp at this

end Message

namespace Pool

/--
The generator goes through the files with these names.
-/
structure Emits (p : Pool) (path : FileId → Span) (plan : Plan) (agenda : Agenda) (l : Ledger Ident)
    (headers : List Header) : Prop where
  agenda_eq : p.agenda plan = some agenda
  run : agenda.run = some l
  emit : p.files.mapM (p.emitFile path l) = some headers
  typed : ∀ f ∈ p.files, ∀ m ∈ (p.heap f).messages, ∀ fld ∈ m.fields, ∀ e ∈ fld.type.entities, p.Has e

variable {p : Pool} {path : FileId → Span} {plan : Plan} {agenda : Agenda} {l : Ledger Ident}
  {headers : List Header}

theorem relied_role (id : Ident) (h : p.Relied id) : id.role ∈ [.size, .encode, .reader, .readerInit] := by
  rcases h with ⟨hrole | hrole | hrole, -⟩ | ⟨hrole, -⟩ <;> rw [hrole] <;> decide

abbrev IsDecls (p : Pool) (l : Ledger Ident) : Entity → List Decl → Prop :=
  p.IsBlock (fun e en => enumDecls l e en) fun e m => (members m.fields).map (messageDecls l e)

theorem IsDecls.perm {e : Entity} {decls : List Decl} {acts : List (Act Ident)} (h : p.IsDecls l e decls)
    (hacts : p.IsActs plan e acts) : (decls.map Decl.ident).Perm (⟨e, .type⟩ :: idsOf acts) := by
  cases e with
  | enumeration id =>
    obtain ⟨en, hen, rfl⟩ := h
    obtain ⟨en', hen', rfl⟩ := hacts
    rw [hen, Option.some_inj] at hen'
    subst hen'
    exact .of_eq (idents_enumDecls en)
  | message id =>
    obtain ⟨m, hm, h⟩ := h
    obtain ⟨m', hm', hacts⟩ := hacts
    rw [hm, Option.some_inj] at hm'
    subst hm'
    dsimp only at h hacts
    unfold messageActs at hacts
    split at hacts
    . simp at hacts
    . rw [Option.map_eq_some_iff] at h hacts
      obtain ⟨mems, hmems, rfl⟩ := h
      obtain ⟨mems', hmems', rfl⟩ := hacts
      rw [hmems, Option.some_inj] at hmems'
      subst hmems'
      exact idents_messageDecls

namespace Emits

variable (h : p.Emits path plan agenda l headers)

include h

theorem types : p.typeLedger = some agenda.types := by
  have := h.agenda_eq
  unfold Pool.agenda at this
  simp only [Option.bind_eq_bind, Option.bind_eq_some_iff, Option.some_inj] at this
  obtain ⟨types, htypes, reserved, -, acts, -, rfl⟩ := this
  exact htypes

theorem acts : p.acts plan = some agenda.acts := by
  have := h.agenda_eq
  unfold Pool.agenda at this
  simp only [Option.bind_eq_bind, Option.bind_eq_some_iff, Option.some_inj] at this
  obtain ⟨types, -, reserved, -, acts, hacts, rfl⟩ := this
  exact hacts

theorem proper : Proper IsDerived p.Relied agenda.types.ids agenda.acts :=
  acts_proper h.acts relied_role (typeLedger_eq_some h.types).2.2.2

theorem ids_nodup : l.ids.Nodup :=
  Ledger.run_ids_nodup h.proper h.run (typeLedger_eq_some h.types).2.2.1

theorem exists_acts {e : Entity} (he : p.Has e) : ∃ block, p.IsActs plan e block := by
  obtain ⟨blocks, hblocks, -⟩ := acts_eq_some h.acts
  obtain ⟨es, -, -, hisBlock, hhas⟩ := exists_blocks hblocks
  obtain ⟨x, hx, rfl⟩ := List.mem_map.mp ((hhas e).mp he)
  exact ⟨x.2, hisBlock x hx⟩

theorem decls : p.files.mapM (p.fileBlocks (fun e en => enumDecls l e en)
    fun e m => (members m.fields).map (messageDecls l e)) = some (headers.map Header.decls) := by
  have hforall := forall₂_of_mapM_some h.emit
  have hgo : ∀ (files : List FileId) (headers : List Header),
      List.Forall₂ (fun f h => p.emitFile path l f = some h) files headers
      → files.mapM (p.fileDecls l) = some (headers.map Header.decls) := by
    intro files headers hforall
    induction hforall with
    | nil => rfl
    | cons hemit _ ih =>
      obtain ⟨forwards, decls, -, hdecls, rfl⟩ := emitFile_eq_some hemit
      rw [List.mapM_cons, hdecls, ih]
      rfl
  exact hgo _ _ hforall

theorem mem_decls (d : Decl)
    : d ∈ headers.flatMap Header.decls ↔ ∃ e, p.Has e ∧ ∃ block, p.IsDecls l e block ∧ d ∈ block := by
  rw [List.flatMap_def]
  exact mem_blocks h.decls d

theorem exists_decls {e : Entity} (he : p.Has e) : ∃ block, p.IsDecls l e block := by
  obtain ⟨es, -, -, hisBlock, hhas⟩ := exists_blocks h.decls
  obtain ⟨x, hx, rfl⟩ := List.mem_map.mp ((hhas e).mp he)
  exact ⟨x.2, hisBlock x hx⟩

/--
The names that are known in the end are those of the types and what is named after them.
-/
theorem mem_ids (id : Ident)
    : id ∈ l.ids ↔ ∃ e, p.Has e ∧ ∃ block, p.IsActs plan e block ∧ id ∈ (⟨e, .type⟩ : Ident) :: idsOf block := by
  rw [Ledger.run_ids h.run, (typeLedger_eq_some h.types).2.2.2]
  simp only [idsOf, List.mem_flatMap, mem_acts h.acts, List.mem_cons]
  constructor
  . rintro (⟨hhas, hrole⟩ | ⟨act, ⟨e, he, block, hblock, hact⟩, hid⟩)
    . obtain ⟨block, hblock⟩ := h.exists_acts hhas
      refine ⟨id.owner, hhas, block, hblock, .inl ?_⟩
      rw [← hrole]
    . exact ⟨e, he, block, hblock, .inr ⟨act, hact, hid⟩⟩
  . rintro ⟨e, he, block, hblock, rfl | ⟨act, hact, hid⟩⟩
    . exact .inl ⟨he, rfl⟩
    . exact .inr ⟨act, ⟨e, he, block, hblock, hact⟩, hid⟩

theorem idents_perm : ((headers.flatMap Header.decls).map Decl.ident).Perm l.ids := by
  rw [List.perm_ext_iff_of_nodup ?_ h.ids_nodup]
  . intro id
    rw [h.mem_ids, List.mem_map]
    simp only [h.mem_decls]
    constructor
    . rintro ⟨d, ⟨e, he, block, hblock, hd⟩, rfl⟩
      obtain ⟨acts, hacts⟩ := h.exists_acts he
      exact ⟨e, he, acts, hacts, (hblock.perm hacts).mem_iff.mp (List.mem_map_of_mem hd)⟩
    . rintro ⟨e, he, acts, hacts, hid⟩
      obtain ⟨block, hblock⟩ := h.exists_decls he
      obtain ⟨d, hd, rfl⟩ := List.mem_map.mp ((hblock.perm hacts).mem_iff.mpr hid)
      exact ⟨d, ⟨e, he, block, hblock, hd⟩, rfl⟩
  . obtain ⟨es, hes, hfst, hisBlock, hhas⟩ := exists_blocks h.decls
    rw [← List.flatMap_def] at hes
    rw [hes, List.map_flatMap]
    have hblock (e : Entity × List Decl) (he : e ∈ es)
        : (e.2.map Decl.ident).Nodup ∧ ∀ id ∈ e.2.map Decl.ident, id.owner = e.1 := by
      obtain ⟨acts, hacts⟩ := h.exists_acts ((hhas _).mpr (List.mem_map_of_mem he))
      have hperm := IsDecls.perm (hisBlock e he) hacts
      obtain ⟨hnodup, howner⟩ := hacts.ids
      refine ⟨hperm.nodup_iff.mpr (List.nodup_cons.mpr ⟨fun hid => (howner _ hid).2 rfl, hnodup⟩), ?_⟩
      intro id hid
      rcases List.mem_cons.mp (hperm.mem_iff.mp hid) with rfl | hid
      . rfl
      . exact (howner id hid).1
    exact nodup_flatMap_of_key Prod.fst Ident.owner hfst (fun e he => (hblock e he).1) fun e he => (hblock e he).2

theorem spelled {e : Entity} (he : p.Has e) {block : List (Act Ident)} (hblock : p.IsActs plan e block)
    (id : Ident) (stem : Stem Ident) (hact : .spell id stem ∈ block) : l.nameOf id = l.raw stem :=
  Ledger.run_spelled h.proper h.run ((mem_acts h.acts _).mpr ⟨e, he, block, hblock, hact⟩)

theorem spelling_eq : ∀ d ∈ headers.flatMap Header.decls, d.spelling = l.nameOf d.ident := by
  intro d hd
  obtain ⟨e, he, block, hblock, hd⟩ := (h.mem_decls d).mp hd
  obtain ⟨acts, hacts⟩ := h.exists_acts he
  have hspelled := h.spelled he hacts
  cases e with
  | enumeration id =>
    obtain ⟨en, -, rfl⟩ := hblock
    exact spelling_enumDecls en d hd
  | message id =>
    obtain ⟨m, hm, hblock⟩ := hblock
    obtain ⟨m', hm', hacts⟩ := hacts
    rw [hm, Option.some_inj] at hm'
    subst hm'
    dsimp only at hblock hacts
    unfold messageActs at hacts
    split at hacts
    . simp at hacts
    . rw [Option.map_eq_some_iff] at hblock hacts
      obtain ⟨mems, hmems, rfl⟩ := hblock
      obtain ⟨mems', hmems', rfl⟩ := hacts
      rw [hmems, Option.some_inj] at hmems'
      subst hmems'
      exact spelling_messageDecls (fun id stem hmem => hspelled id stem (List.mem_append_right _ hmem)) d hd

theorem spellings_nodup_iff
    : ((headers.flatMap Header.decls).map Decl.spelling).Nodup ↔ l.names.Nodup := by
  have hmap : (headers.flatMap Header.decls).map Decl.spelling
      = ((headers.flatMap Header.decls).map Decl.ident).map l.nameOf := by
    rw [List.map_map]
    exact List.map_congr_left h.spelling_eq
  rw [hmap, Ledger.names_eq h.ids_nodup]
  exact (h.idents_perm.map _).nodup_iff

theorem exists_decl_iff (u : Use)
    : (∃ h' ∈ headers, ∃ d ∈ h'.decls, d.ident = u.ident ∧ d.spelling = u.spelling)
        ↔ u.ident ∈ l.ids ∧ l.nameOf u.ident = u.spelling := by
  have hmem : (∃ h' ∈ headers, ∃ d ∈ h'.decls, d.ident = u.ident ∧ d.spelling = u.spelling)
      ↔ ∃ d ∈ headers.flatMap Header.decls, d.ident = u.ident ∧ d.spelling = u.spelling := by
    simp only [List.mem_flatMap]
    grind
  rw [hmem, ← h.idents_perm.mem_iff, List.mem_map]
  constructor
  . rintro ⟨d, hd, hident, hspelling⟩
    refine ⟨⟨d, hd, hident⟩, ?_⟩
    rw [← hident, ← h.spelling_eq d hd, hspelling]
  . rintro ⟨⟨d, hd, hident⟩, hspelling⟩
    refine ⟨d, hd, hident, ?_⟩
    rw [h.spelling_eq d hd, hident, hspelling]

theorem mem_uses_iff (u : Use)
    : (∃ header ∈ headers, u ∈ header.uses)
        ↔ (∃ e, p.Ahead e ∧ u ∈ forwardUses l e)
          ∨ ∃ id m mems, p.Has (.message id) ∧ (p.heap id.file).messages[id.index]? = some m
            ∧ members m.fields = some mems
            ∧ ∃ d ∈ messageDecls l (.message id) mems, u ∈ d.uses := by
  have hforall := forall₂_of_mapM_some h.emit
  constructor
  . rintro ⟨header, hheader, hu⟩
    obtain ⟨f, hf, hemit⟩ := exists_of_forall₂_mem hforall.flip hheader
    obtain ⟨forwards, decls, hforwards, hdecls, rfl⟩ := emitFile_eq_some
      (show p.emitFile path l f = some header from hemit)
    simp only [Header.uses, List.mem_append, List.mem_flatMap] at hu
    rcases hu with hu | ⟨d, hd, hu⟩
    . unfold fileForwards at hforwards
      rw [Option.map_eq_some_iff] at hforwards
      obtain ⟨order, horder, rfl⟩ := hforwards
      rw [List.mem_flatMap] at hu
      obtain ⟨i, hi, hu⟩ := hu
      exact .inl ⟨_, ⟨f, hf, order, horder, i, hi, rfl⟩, hu⟩
    . rcases (mem_fileDecls hdecls d).mp hd with ⟨i, en, -, hd⟩ | ⟨i, m, mems, hm, hmems, hd⟩
      . simp only [enumDecls, List.mem_cons, List.mem_mapIdx] at hd
        rcases hd with rfl | ⟨_, _, rfl⟩ <;> simp at hu
      . exact .inr ⟨⟨f, i⟩, m, mems, ⟨hf, (List.getElem?_eq_some_iff.mp hm).1⟩, hm, hmems, d, hd, hu⟩
  . rintro (⟨e, ⟨f, hf, order, horder, i, hi, rfl⟩, hu⟩ | ⟨id, m, mems, hhas, hm, hmems, d, hd, hu⟩)
    . obtain ⟨header, hheader, hemit⟩ := exists_of_forall₂_mem hforall hf
      obtain ⟨forwards, decls, hforwards, hdecls, rfl⟩ := emitFile_eq_some hemit
      unfold fileForwards at hforwards
      rw [horder, Option.map_some, Option.some_inj] at hforwards
      subst hforwards
      refine ⟨_, hheader, ?_⟩
      simp only [Header.uses, List.mem_append, List.mem_flatMap]
      exact .inl ⟨i, hi, hu⟩
    . obtain ⟨header, hheader, hemit⟩ := exists_of_forall₂_mem hforall hhas.1
      obtain ⟨forwards, decls, hforwards, hdecls, rfl⟩ := emitFile_eq_some hemit
      refine ⟨_, hheader, ?_⟩
      simp only [Header.uses, List.mem_append, List.mem_flatMap]
      exact .inr ⟨d, (mem_fileDecls hdecls d).mpr (.inr ⟨id.index, m, mems, hm, hmems, hd⟩), hu⟩

/--
What is spelled by the name of a message and a suffix, and claimed, is as it is defined.
-/
def Joined (l : Ledger Ident) (e : Entity) : Prop :=
  l.nameOf ⟨e, .size⟩ = l.raw (typeStem e "_size") ∧ l.nameOf ⟨e, .reader⟩ = l.raw (typeStem e "_reader")
    ∧ l.nameOf ⟨e, .readerInit⟩ = l.raw (typeStem e "_reader_init")

omit h in
theorem raw_readerInit {e : Entity} (h : l.nameOf ⟨e, .reader⟩ = l.raw (typeStem e "_reader"))
    : l.raw (readerStem e "_init") = l.raw (typeStem e "_reader_init") := by
  unfold Ledger.raw readerStem
  dsimp only
  rw [h]
  unfold Ledger.raw typeStem
  rw [List.append_assoc]
  rfl

omit h in
theorem block_matches_iff {id : NodeId} {block : List (Act Ident)} (hblock : p.IsActs plan (.message id) block)
    : (∀ act ∈ block, l.Matches p.Relied act)
        ↔ (p.Named (.message id) ∨ p.Ahead (.message id) → Joined l (.message id))
          ∧ (p.Ahead (.message id)
            → l.nameOf ⟨.message id, .encode⟩ = l.raw (typeStem (.message id) "_encode")) := by
  obtain ⟨m, -, hacts⟩ := hblock
  dsimp only at hacts
  unfold messageActs at hacts
  split at hacts
  . simp at hacts
  . rw [Option.map_eq_some_iff] at hacts
    obtain ⟨mems, -, rfl⟩ := hacts
    rw [matches_messageActs relied_role]
    simp only [Pool.Relied, reduceCtorEq, or_false, false_or, or_self, false_and, true_and, or_true]
    unfold Joined
    constructor
    . rintro ⟨hsize, hencode, hreader, hinit⟩
      refine ⟨fun hneed => ⟨hsize hneed, hreader hneed, ?_⟩, hencode⟩
      rw [← raw_readerInit (hreader hneed)]
      exact hinit hneed
    . rintro ⟨hjoined, hencode⟩
      refine ⟨fun hneed => (hjoined hneed).1, hencode, fun hneed => (hjoined hneed).2.1, fun hneed => ?_⟩
      rw [raw_readerInit (hjoined hneed).2.1]
      exact (hjoined hneed).2.2

/--
What others rely on is as they spell it exactly where the claims were granted.
-/
theorem matches_iff
    : (∀ act ∈ agenda.acts, l.Matches p.Relied act)
        ↔ ∀ id, p.Has (.message id)
          → (p.Named (.message id) ∨ p.Ahead (.message id) → Joined l (.message id))
            ∧ (p.Ahead (.message id)
              → l.nameOf ⟨.message id, .encode⟩ = l.raw (typeStem (.message id) "_encode")) := by
  constructor
  . intro hmatches id hid
    obtain ⟨block, hblock⟩ := h.exists_acts hid
    refine (block_matches_iff hblock).mp fun act hact => ?_
    exact hmatches act ((mem_acts h.acts act).mpr ⟨_, hid, block, hblock, hact⟩)
  . intro hall act hact
    obtain ⟨e, he, block, hblock, hact⟩ := (mem_acts h.acts act).mp hact
    cases e with
    | enumeration id =>
      obtain ⟨en, -, rfl⟩ := hblock
      exact matches_enumActs relied_role en act hact
    | message id => exact (block_matches_iff hblock).mpr (hall id he) act hact

omit h in
theorem has_of_ahead {e : Entity} (he : p.Ahead e) : ∃ id, e = .message id ∧ p.Has e := by
  obtain ⟨f, hf, order, -, i, -, rfl⟩ := he
  exact ⟨_, rfl, hf, i.isLt⟩

/--
What is named for a message is known, and what is written for it is named so.
-/
theorem exists_message {id : NodeId} (hid : p.Has (.message id))
    : ∃ m mems contract, (p.heap id.file).messages[id.index]? = some m ∧ members m.fields = some mems
        ∧ (∀ id' ∈ (⟨.message id, .type⟩ : Ident)
            :: idsOf (headActs (.message id) ++ tailActs (.message id) mems contract), id' ∈ l.ids)
        ∧ ∀ id' stem, .spell id' stem ∈ tailActs (.message id) mems contract → l.nameOf id' = l.raw stem := by
  obtain ⟨block, hblock⟩ := h.exists_acts hid
  have hspelled := h.spelled hid hblock
  have hids := fun id' hid' => (h.mem_ids id').mpr ⟨_, hid, block, hblock, hid'⟩
  obtain ⟨m, hm, hacts⟩ := hblock
  dsimp only at hacts
  unfold messageActs at hacts
  split at hacts
  . simp at hacts
  . rw [Option.map_eq_some_iff] at hacts
    obtain ⟨mems, hmems, rfl⟩ := hacts
    exact ⟨m, mems, _, hm, hmems, hids, fun id' stem hmem => hspelled id' stem (List.mem_append_right _ hmem)⟩

theorem right_of_has {id : NodeId} (hid : p.Has (.message id))
    : ∀ u ∈ [typeUse l (.message id), cachedSizeUse l (.message id), encodeAtUse l (.message id),
        claimedUse l ⟨.message id, .reader⟩], u.ident ∈ l.ids ∧ l.nameOf u.ident = u.spelling := by
  obtain ⟨m, mems, contract, -, -, hids, hspelled⟩ := h.exists_message hid
  simp only [idsOf_messageActs, List.mem_append, List.mem_cons] at hids
  simp only [List.forall_mem_cons, List.not_mem_nil, false_implies, implies_true, and_true]
  refine ⟨⟨hids _ ?_, rfl⟩, ⟨hids _ ?_, hspelled _ _ cachedSize_mem.1⟩,
    ⟨hids _ ?_, hspelled _ _ cachedSize_mem.2⟩, hids _ ?_, rfl⟩ <;> simp

theorem right_of_joined {id : NodeId} (hid : p.Has (.message id)) (hjoined : Joined l (.message id))
    : ∀ u ∈ [sizeUse l (.message id), readerUse l (.message id), readerInitUse l (.message id)],
      u.ident ∈ l.ids ∧ l.nameOf u.ident = u.spelling := by
  obtain ⟨m, mems, contract, -, -, hids, -⟩ := h.exists_message hid
  simp only [idsOf_messageActs, List.mem_append, List.mem_cons] at hids
  simp only [List.forall_mem_cons, List.not_mem_nil, false_implies, implies_true, and_true]
  refine ⟨⟨hids _ ?_, hjoined.1⟩, ⟨hids _ ?_, hjoined.2.1⟩, hids _ ?_, hjoined.2.2⟩ <;> simp

theorem right_of_encode {id : NodeId} (hid : p.Has (.message id)) : ⟨.message id, .encode⟩ ∈ l.ids := by
  obtain ⟨m, mems, contract, -, -, hids, -⟩ := h.exists_message hid
  simp only [idsOf_messageActs, List.mem_append, List.mem_cons] at hids
  exact hids _ (by simp)

theorem right_of_type {e : Entity} (he : p.Has e)
    : (typeUse l e).ident ∈ l.ids ∧ l.nameOf (typeUse l e).ident = (typeUse l e).spelling := by
  obtain ⟨block, hblock⟩ := h.exists_acts he
  exact ⟨(h.mem_ids _).mpr ⟨e, he, block, hblock, List.mem_cons_self⟩, rfl⟩

theorem uses_iff
    : (∀ header ∈ headers, ∀ u ∈ header.uses, u.ident ∈ l.ids ∧ l.nameOf u.ident = u.spelling)
        ↔ ∀ id, p.Has (.message id)
          → (p.Named (.message id) ∨ p.Ahead (.message id) → Joined l (.message id))
            ∧ (p.Ahead (.message id)
              → l.nameOf ⟨.message id, .encode⟩ = l.raw (typeStem (.message id) "_encode")) := by
  have huses : (∀ header ∈ headers, ∀ u ∈ header.uses, u.ident ∈ l.ids ∧ l.nameOf u.ident = u.spelling)
      ↔ ∀ u, (∃ header ∈ headers, u ∈ header.uses) → u.ident ∈ l.ids ∧ l.nameOf u.ident = u.spelling := by
    grind
  rw [huses]
  simp only [h.mem_uses_iff]
  constructor
  . -- A message that is used ahead has its uses in the list of forward uses, and a message that a member
    -- names has them among the uses of the member.
    intro hright id hid
    have hahead (he : p.Ahead (.message id)) (u : Use) (hu : u ∈ forwardUses l (.message id)) :=
      (hright u (.inl ⟨_, he, hu⟩)).2
    refine ⟨?_, fun he => hahead he (encodeUse l _) (by simp [forwardUses])⟩
    rintro (⟨f, hf, m, hm, fld, hfld, he⟩ | he)
    . obtain ⟨i, hi, rfl⟩ := List.getElem_of_mem hm
      have hget := List.getElem?_eq_getElem hi
      have howner : p.Has (.message ⟨f, i⟩) := ⟨hf, hi⟩
      obtain ⟨m, mems, contract, hm', hmems, -, -⟩ := h.exists_message howner
      rw [hget, Option.some_inj] at hm'
      subst hm'
      obtain ⟨j, hj, rfl⟩ := List.getElem_of_mem hfld
      have hj' : j < mems.length := members_length hmems ▸ hj
      have hshape := (members_getElem hmems j hj' hj).2
      rw [← shape_entities, ← hshape] at he
      obtain ⟨hsize, hreader, hinit⟩ := joined_mem_memberUses l (.message ⟨f, i⟩) hshape he
      have hmember (u : Use) (hu : u ∈ memberUses l (.message ⟨f, i⟩) mems[j]) : l.nameOf u.ident = u.spelling :=
        (hright u (.inr ⟨⟨f, i⟩, _, mems, howner, hget, hmems,
          (mem_messageDecls_uses l _).mpr (.inl ⟨_, List.getElem_mem hj', hu⟩)⟩)).2
      exact ⟨hmember _ hsize, hmember _ hreader, hmember _ hinit⟩
    . exact ⟨hahead he (sizeUse l _) (by simp [forwardUses]), hahead he (readerUse l _) (by simp [forwardUses]),
        hahead he (readerInitUse l _) (by simp [forwardUses])⟩
  . -- The names that are claimed for a message itself are right in any case. The two conditions are about
    -- the names that are put together from the one of the type.
    rintro hall u (⟨e, he, hu⟩ | ⟨id, m, mems, hid, hm, hmems, hu⟩)
    . obtain ⟨id, rfl, hid⟩ := has_of_ahead he
      have hown := h.right_of_has hid
      have hjoined := h.right_of_joined hid ((hall id hid).1 (.inr he))
      have hencode := (hall id hid).2 he
      have hids := (right_of_encode h hid)
      simp only [List.forall_mem_cons] at hown hjoined
      simp only [forwardUses, List.mem_cons, List.not_mem_nil, or_false] at hu
      rcases hu with rfl | rfl | rfl | rfl | rfl | rfl | rfl
      . exact hown.1
      . exact hjoined.2.1
      . exact hjoined.1
      . exact hown.2.1
      . exact hown.2.2.1
      . exact ⟨hids, hencode⟩
      . exact hjoined.2.2.1
    . obtain ⟨m', mems', contract, hm', hmems', hids, hspelled⟩ := h.exists_message hid
      rw [hm, Option.some_inj] at hm'
      subst hm'
      rw [hmems, Option.some_inj] at hmems'
      subst hmems'
      have hown := h.right_of_has hid
      simp only [List.forall_mem_cons] at hown
      rcases (mem_messageDecls_uses l _).mp hu with ⟨mem, hmem, hu⟩ | hu
      . have hentities (e : Entity) (he : e ∈ mem.shape.entities) : p.Has e ∧ p.Named e := by
          obtain ⟨fld, hfld, he⟩ := (members_entities hmems e).mp ⟨mem, hmem, he⟩
          have hget := List.mem_of_getElem? hm
          exact ⟨h.typed _ hid.1 _ hget _ hfld e he, _, hid.1, _, hget, _, hfld, he⟩
        have hmember : ∀ id' ∈ getterIds (.message id) mem ++ entryIds (.message id) mem
            ++ iteratorIds (.message id) mem, id' ∈ l.ids := by
          intro id' hid'
          apply hids
          rw [idsOf_messageActs]
          simp only [List.mem_append, List.mem_cons, List.mem_flatMap] at hid' ⊢
          grind
        -- The uses of a member are those of the types that its shape names, and those of its own members.
        revert hu
        generalize u = u'
        revert u'
        refine forall_memberUses (P := fun u => u.ident ∈ l.ids ∧ l.nameOf u.ident = u.spelling) ?_ ?_
          hown.2.2.2.1 ?_ ?_
        . intro e he
          obtain ⟨hhas, -⟩ := hentities e he
          exact h.right_of_type hhas
        . intro target htarget
          obtain ⟨hhas, hnamed⟩ := hentities _ htarget
          have hown := h.right_of_has hhas
          have hjoined := h.right_of_joined hhas ((hall target hhas).1 (.inl hnamed))
          simp only [List.forall_mem_cons] at hown hjoined
          exact ⟨hjoined.1, hown.2.1, hown.2.2.1, hjoined.2.1, hjoined.2.2.1⟩
        . intro hmap
          refine ⟨hmember _ ?_, rfl⟩
          simp [entryIds, hmap]
        . intro hcount
          refine ⟨hmember _ ?_, hspelled _ _ (iterStem_mem _ _ hmem hcount).1⟩
          simp [iteratorIds, hcount]
      . simp only [List.mem_cons, List.not_mem_nil, or_false] at hu
        rcases hu with rfl | rfl | rfl
        . exact hown.1
        . exact hown.2.2.1
        . exact hown.2.2.2.1

/--
The names are consistent exactly where every name is claimed or written while it is clear.
-/
theorem consistent_iff
    : Consistent headers
        ↔ agenda.types.Along (namePolicy agenda.reserved) (Ledger.Clear p.Relied) agenda.acts := by
  obtain ⟨hnames, haccounted, -, -⟩ := typeLedger_eq_some h.types
  have hrun := Ledger.run_clear_iff (namePolicy_lawful agenda.reserved) haccounted h.proper h.run
  have huses : (∀ header ∈ headers, ∀ u ∈ header.uses, ∃ h' ∈ headers, ∃ d ∈ h'.decls,
      d.ident = u.ident ∧ d.spelling = u.spelling) ↔ ∀ act ∈ agenda.acts, l.Matches p.Relied act := by
    rw [h.matches_iff, ← h.uses_iff]
    simp only [h.exists_decl_iff]
  unfold Consistent
  rw [huses, h.spellings_nodup_iff, hrun]
  exact and_iff_right hnames

end Emits

end Pool

/--
The names in the headers are consistent exactly where every name is claimed or written while it is
clear of those before it.
-/
theorem Sources.headers_consistent_iff [Libc] {src : Sources} {plan : Plan} {p : Pool}
    {agenda : Pool.Agenda} {headers : List Header} (hdescribe : src.describe = some p)
    (hagenda : p.agenda plan = some agenda) (hemit : p.emitFiles src.path plan = some headers)
    : Consistent headers
        ↔ agenda.types.Along (namePolicy agenda.reserved) (Ledger.Clear p.Relied) agenda.acts := by
  obtain ⟨-, hdescribed⟩ := Sources.described hdescribe
  obtain ⟨agenda', l, hagenda', hrun, hmapM⟩ := Pool.emitFiles_eq_some hemit
  rw [hagenda, Option.some_inj] at hagenda'
  subst hagenda'
  exact Pool.Emits.consistent_iff ⟨hagenda, hrun, hmapM, hdescribed.typed⟩

/--
A message whose name is the one that is derived for the size of another one.
-/
def sizeNamed : Sources where
  files := [0]
  nodup := nodup_single
  path _ := "a.proto".toList
  text _ := "message A{B b=1;}message B{}message B_size{}message B_cached{}".toList

def sizeNamedPlan : Plan := fun id =>
  if id = ⟨0, 0⟩ then some ⟨false, [false]⟩ else some ⟨false, []⟩

/--
Run the generator, and look for a place that names what is defined under another name.
-/
def misspells [Libc] (src : Sources) (plan : Plan) : Bool :=
  match src.describe with
  | none => false
  | some p =>
    match p.agenda plan, p.emitFiles src.path plan with
    | some _, some headers =>
      headers.any fun h => h.uses.any fun u => headers.all fun h' => h'.decls.all fun d =>
        d.ident ≠ u.ident || d.spelling ≠ u.spelling
    | _, _ => false

theorem not_consistent_of_misspells [Libc] {src : Sources} {plan : Plan} (h : misspells src plan = true)
    : ∃ p agenda headers, src.describe = some p ∧ p.agenda plan = some agenda
        ∧ p.emitFiles src.path plan = some headers ∧ ¬Consistent headers := by
  unfold misspells at h
  split at h
  . simp at h
  . next p hdescribe =>
    split at h
    . next agenda headers hagenda hemit =>
      refine ⟨p, agenda, headers, hdescribe, hagenda, hemit, ?_⟩
      simp only [List.any_eq_true, List.all_eq_true, Bool.or_eq_true, decide_eq_true_eq] at h
      obtain ⟨h, hh, u, hu, hnot⟩ := h
      rintro ⟨-, huses⟩
      obtain ⟨h', hh', d, hd, hident, hspelling⟩ := huses h hh u hu
      exact (hnot h' hh' d hd).elim (fun hne => hne hident) fun hne => hne hspelling
    . simp at h

theorem sizeNamed_not_consistent
    : ∃ p agenda headers, @Sources.describe Pool.constLibc sizeNamed = some p
        ∧ p.agenda sizeNamedPlan = some agenda
        ∧ p.emitFiles sizeNamed.path sizeNamedPlan = some headers ∧ ¬Consistent headers :=
  @not_consistent_of_misspells Pool.constLibc sizeNamed sizeNamedPlan (by decide +kernel)

theorem sizeNamed_consistent_iff
    : ∃ p agenda headers, @Sources.describe Pool.constLibc sizeNamed = some p
        ∧ p.agenda sizeNamedPlan = some agenda
        ∧ p.emitFiles sizeNamed.path sizeNamedPlan = some headers
        ∧ (Consistent headers
          ↔ agenda.types.Along (namePolicy agenda.reserved) (Ledger.Clear p.Relied) agenda.acts) := by
  obtain ⟨p, agenda, headers, hdescribe, hagenda, hemit, -⟩ :=
    @not_consistent_of_misspells Pool.constLibc sizeNamed sizeNamedPlan (by decide +kernel)
  exact ⟨p, agenda, headers, hdescribe, hagenda, hemit,
    @Sources.headers_consistent_iff Pool.constLibc _ _ _ _ _ hdescribe hagenda hemit⟩

end Gremlin
