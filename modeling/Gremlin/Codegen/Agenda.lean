import Gremlin.Codegen.Contents
import Mathlib.Data.List.Perm.Basic

/-!
This module contains what is in the agenda of the emitter: every identifier is named once, after one
that has a name, and identifiers that are spelled by a suffix have names that no claim makes up.
-/

namespace Gremlin

open Naming

theorem nodup_flatMap_of_key {α β κ : Type} {l : List α} {g : α → List β} (k : α → κ) (key : β → κ)
    (hk : (l.map k).Nodup) (hg : ∀ a ∈ l, (g a).Nodup) (hkey : ∀ a ∈ l, ∀ b ∈ g a, key b = k a)
    : (l.flatMap g).Nodup := by
  induction l with
  | nil => simp
  | cons a l ih =>
    rw [List.map_cons, List.nodup_cons] at hk
    rw [List.forall_mem_cons] at hg hkey
    rw [List.flatMap_cons, List.nodup_append]
    refine ⟨hg.1, ih hk.2 hg.2 hkey.2, ?_⟩
    rintro b hb _ hb' rfl
    rw [List.mem_flatMap] at hb'
    obtain ⟨a', ha', hb'⟩ := hb'
    apply hk.1
    rw [← hkey.1 b hb, hkey.2 a' ha' b hb']
    exact List.mem_map_of_mem ha'

theorem idsOf_append (acts acts' : List (Act Ident)) : idsOf (acts ++ acts') = idsOf acts ++ idsOf acts' :=
  List.flatMap_append

theorem idsOf_cons (act : Act Ident) (acts : List (Act Ident)) : idsOf (act :: acts) = act.ids ++ idsOf acts :=
  List.flatMap_cons

theorem idsOf_flatMap {α : Type} (l : List α) (g : α → List (Act Ident))
    : idsOf (l.flatMap g) = l.flatMap fun a => idsOf (g a) := by
  unfold idsOf
  rw [List.flatMap_assoc]

theorem idsOf_eq_nil {acts : List (Act Ident)} (h : ∀ act ∈ acts, act.ids = []) : idsOf acts = [] := by
  unfold idsOf
  rw [List.flatMap_eq_nil_iff]
  exact h

def Role.field? : Role → Option Nat
  | .getter field => some field
  | .entry field => some field
  | .iter field => some field
  | .count field => some field
  | .begin field => some field
  | .next field => some field
  | _ => none

section Message

variable (owner : Entity)

def getterIds (mem : Member) : List Ident :=
  if mem.shape.hasCount then [] else [⟨owner, .getter mem.index⟩]

def entryIds (mem : Member) : List Ident :=
  if mem.shape.isMap then [⟨owner, .entry mem.index⟩] else []

def iteratorIds (mem : Member) : List Ident :=
  if mem.shape.hasCount then
    [⟨owner, .iter mem.index⟩, ⟨owner, .count mem.index⟩, ⟨owner, .begin mem.index⟩,
      ⟨owner, .next mem.index⟩]
  else
    []

variable {owner}

theorem idsOf_memberActs (mem : Member)
    : idsOf (memberActs owner mem) = getterIds owner mem ++ entryIds owner mem := by
  unfold memberActs getterIds entryIds
  split <;> split <;> rfl

theorem idsOf_spelledActs (mem : Member) : idsOf (spelledActs owner mem) = iteratorIds owner mem := by
  unfold spelledActs iteratorIds
  split <;> rfl

theorem idsOf_messageActs (mems : List Member) (contract : Option Contract)
    : idsOf (headActs owner ++ tailActs owner mems contract)
        = [⟨owner, .size⟩, ⟨owner, .encode⟩, ⟨owner, .reader⟩, ⟨owner, .readerInit⟩]
          ++ mems.flatMap (fun mem => getterIds owner mem ++ entryIds owner mem)
          ++ [⟨owner, .cachedSize⟩, ⟨owner, .encodeAt⟩]
          ++ mems.flatMap (iteratorIds owner) := by
  have hspans : idsOf (spansActs owner mems) = [] := by
    apply idsOf_eq_nil
    unfold spansActs
    dsimp only
    split <;> simp [Act.ids]
  have hiterOk : idsOf (mems.flatMap (iterOkActs owner)) = [] := by
    apply idsOf_eq_nil
    intro act hact
    rw [List.mem_flatMap] at hact
    obtain ⟨mem, -, hact⟩ := hact
    unfold iterOkActs at hact
    split at hact <;> simp at hact
    rw [hact]
    rfl
  have hcontract : idsOf (contract.elim [] (contractActs owner mems)) = [] := by
    apply idsOf_eq_nil
    cases contract with
    | none => simp
    | some c =>
      intro act hact
      simp only [Option.elim_some, contractActs, List.cons_append, List.mem_cons, List.mem_append,
        List.mem_flatMap, List.mem_ite_nil_right, List.not_mem_nil, or_false] at hact
      rcases hact with rfl | ⟨-, rfl⟩ | ⟨mem, -, rfl | ⟨-, rfl⟩⟩ <;> rfl
  simp only [headActs, tailActs, List.cons_append, List.nil_append, List.append_assoc, idsOf_cons,
    idsOf_append, Act.ids, hspans, hiterOk, hcontract, idsOf_flatMap, idsOf_memberActs,
    idsOf_spelledActs]

variable {mems : List Member} {contract : Option Contract}

variable (owner contract) in
theorem idsOf_messageActs_nodup {fields : List FieldNode} (h : members fields = some mems)
    : (idsOf (headActs owner ++ tailActs owner mems contract)).Nodup := by
  have hindex : (mems.map fun mem => some mem.index).Nodup := by
    have : ((List.range fields.length).map some).Nodup := List.nodup_range.map (Option.some_injective Nat)
    rwa [← members_index h, List.map_map] at this
  have hclaimed : (mems.flatMap fun mem => getterIds owner mem ++ entryIds owner mem).Nodup := by
    apply nodup_flatMap_of_key (fun mem => some mem.index) (fun id => id.role.field?) hindex
    . intro mem _
      unfold getterIds entryIds
      split <;> split <;> simp
    . intro mem _
      unfold getterIds entryIds
      split <;> split <;> simp [Role.field?]
  have hspelled : (mems.flatMap (iteratorIds owner)).Nodup := by
    apply nodup_flatMap_of_key (fun mem => some mem.index) (fun id => id.role.field?) hindex
    . intro mem _
      unfold iteratorIds
      split <;> simp
    . intro mem _
      unfold iteratorIds
      split <;> simp [Role.field?]
  have hclaimed' : ∀ id ∈ mems.flatMap fun mem => getterIds owner mem ++ entryIds owner mem,
      ∃ i, id.role = .getter i ∨ id.role = .entry i := by
    intro id hid
    simp only [List.mem_flatMap, getterIds, entryIds, List.mem_append, List.mem_ite_nil_left,
      List.mem_ite_nil_right, List.mem_singleton] at hid
    obtain ⟨mem, -, ⟨-, rfl⟩ | ⟨-, rfl⟩⟩ := hid
    . exact ⟨mem.index, .inl rfl⟩
    . exact ⟨mem.index, .inr rfl⟩
  have hspelled' : ∀ id ∈ mems.flatMap (iteratorIds owner),
      ∃ i, id.role = .iter i ∨ id.role = .count i ∨ id.role = .begin i ∨ id.role = .next i := by
    intro id hid
    simp only [List.mem_flatMap, iteratorIds, List.mem_ite_nil_right, List.mem_cons,
      List.not_mem_nil, or_false] at hid
    obtain ⟨mem, -, -, hid⟩ := hid
    refine ⟨mem.index, ?_⟩
    rcases hid with rfl | rfl | rfl | rfl <;> simp
  -- The groups of identifiers differ in their roles, the ones within a group in the index of the member.
  rw [idsOf_messageActs]
  refine List.nodup_append.mpr ⟨List.nodup_append.mpr ⟨List.nodup_append.mpr ⟨?_, hclaimed, ?_⟩, ?_, ?_⟩,
    hspelled, ?_⟩
  . simp
  . rintro id hid _ hid' rfl
    obtain ⟨i, hrole⟩ := hclaimed' id hid'
    simp at hid
    rcases hid with rfl | rfl | rfl | rfl <;> simp at hrole
  . simp
  . rintro id hid _ hid' rfl
    simp at hid'
    rcases List.mem_append.mp hid with hid | hid
    . rcases hid' with rfl | rfl <;> simp at hid
    . obtain ⟨i, hrole⟩ := hclaimed' id hid
      rcases hid' with rfl | rfl <;> simp at hrole
  . rintro id hid _ hid' rfl
    obtain ⟨i, hrole⟩ := hspelled' id hid'
    rcases List.mem_append.mp hid with hid | hid
    . rcases List.mem_append.mp hid with hid | hid
      . simp at hid
        rcases hid with rfl | rfl | rfl | rfl <;> simp at hrole
      . obtain ⟨j, hrole'⟩ := hclaimed' id hid
        rcases hrole' with hrole' | hrole' <;> rw [hrole'] at hrole <;> simp at hrole
    . simp at hid
      rcases hid with rfl | rfl <;> simp at hrole

theorem owner_of_mem_idsOf_messageActs
    : ∀ id ∈ idsOf (headActs owner ++ tailActs owner mems contract), id.owner = owner ∧ id.role ≠ .type := by
  intro id hid
  rw [idsOf_messageActs] at hid
  simp only [List.mem_append, List.mem_flatMap, getterIds, entryIds, iteratorIds, List.mem_ite_nil_left,
    List.mem_ite_nil_right, List.mem_cons, List.not_mem_nil, or_false] at hid
  rcases hid with ((hid | ⟨mem, -, hid⟩) | hid) | ⟨mem, -, -, hid⟩
  . rcases hid with rfl | rfl | rfl | rfl <;> simp
  . rcases hid with ⟨-, rfl⟩ | ⟨-, rfl⟩ <;> simp
  . rcases hid with rfl | rfl <;> simp
  . rcases hid with rfl | rfl | rfl | rfl <;> simp

theorem isDerived_of_suffix {suffix : Spelling} (h : suffix ∈ derivedSuffixes) {name : Spelling}
    (hsuffix : suffix <:+ name) (before : Spelling) : IsDerived (before ++ name) :=
  ⟨suffix, h, hsuffix.trans (List.suffix_append _ _)⟩

variable (owner) in
/--
The act names something after the type or the reader. A name that is written ends like those that are
derived, and one that is claimed for no field is that of the function that sets the reader up.
-/
structure IsTail (act : Act Ident) : Prop where
  base : act.stem.base = ⟨owner, .type⟩ ∨ act.stem.base = ⟨owner, .reader⟩
  spelled : ∀ id stem, act = .spell id stem → ∃ suffix ∈ derivedSuffixes, suffix <:+ stem.suffix
  claimed : ∀ id stem, act = .claim id stem →
    id.role.field? = none → id = ⟨owner, .readerInit⟩ ∧ stem = readerStem owner "_init"

theorem IsTail.avoid {stem : Stem Ident} (h : stem.base = ⟨owner, .type⟩ ∨ stem.base = ⟨owner, .reader⟩)
    : IsTail owner (.avoid stem) :=
  ⟨h, by simp, by simp⟩

theorem IsTail.spell {id : Ident} {stem : Stem Ident}
    (h : stem.base = ⟨owner, .type⟩ ∨ stem.base = ⟨owner, .reader⟩) (suffix : Spelling)
    (hmem : suffix ∈ derivedSuffixes) (hsuffix : suffix <:+ stem.suffix) : IsTail owner (.spell id stem) := by
  refine ⟨h, ?_, by simp⟩
  rintro _ _ heq
  rw [Act.spell.injEq] at heq
  obtain ⟨rfl, rfl⟩ := heq
  exact ⟨suffix, hmem, hsuffix⟩

theorem isTail_of_mem_memberActs {mem : Member} : ∀ act ∈ memberActs owner mem, IsTail owner act := by
  unfold memberActs
  intro act hact
  rw [List.mem_cons] at hact
  rcases hact with rfl | hact
  . split
    . exact ⟨.inr rfl, by simp, by simp⟩
    . exact ⟨.inr rfl, by simp, by simp [Role.field?]⟩
  . simp only [List.mem_ite_nil_right, List.mem_cons, List.not_mem_nil, or_false] at hact
    rcases hact with ⟨-, rfl | rfl⟩
    . exact ⟨.inl rfl, by simp, by simp⟩
    . exact ⟨.inl rfl, by simp, by simp [Role.field?]⟩

theorem isTail_of_mem_spelledActs {mem : Member} : ∀ act ∈ spelledActs owner mem, IsTail owner act := by
  unfold spelledActs
  intro act hact
  simp only [List.mem_ite_nil_right, List.mem_cons, List.not_mem_nil, or_false] at hact
  rcases hact with ⟨-, rfl | rfl | rfl | rfl⟩
  . exact .spell (.inr rfl) "_iter".toList (by decide) (List.suffix_append _ _)
  . exact .spell (.inr rfl) "_count".toList (by decide) (List.suffix_append _ _)
  . exact .spell (.inr rfl) "_begin".toList (by decide) (List.suffix_append _ _)
  . exact .spell (.inr rfl) "_next".toList (by decide) (List.suffix_append _ _)

theorem isTail_of_mem_tailActs : ∀ act ∈ tailActs owner mems contract, IsTail owner act := by
  unfold tailActs
  simp only [List.cons_append, List.forall_mem_cons, List.forall_mem_append, List.forall_mem_flatMap]
  refine ⟨⟨.inr rfl, by simp, ?_⟩, .avoid (.inr rfl), ⟨⟨⟨?_, ?_⟩, ?_⟩, ?_⟩, ?_, ?_, ?_⟩
  . rintro _ _ heq -
    rw [Act.claim.injEq] at heq
    exact ⟨heq.1.symm, heq.2.symm⟩
  . unfold spansActs
    dsimp only
    split
    . simp only [List.forall_mem_singleton]
      exact .avoid (.inr rfl)
    . intro act hact
      rw [List.mem_map] at hact
      obtain ⟨g, -, rfl⟩ := hact
      exact .avoid (.inr rfl)
  . exact fun mem _ => isTail_of_mem_memberActs
  . intro mem _ act hact
    unfold iterOkActs at hact
    rw [List.mem_ite_nil_right, List.mem_singleton] at hact
    obtain ⟨-, rfl⟩ := hact
    exact .avoid (.inr rfl)
  . cases contract with
    | none => simp
    | some c =>
      intro act hact
      simp only [Option.elim_some, contractActs, List.cons_append, List.mem_cons, List.mem_append,
        List.mem_flatMap, List.mem_ite_nil_right, List.not_mem_nil, or_false] at hact
      rcases hact with rfl | ⟨-, rfl⟩ | ⟨mem, -, rfl | ⟨-, rfl⟩⟩ <;> exact .avoid (.inl rfl)
  . exact .spell (.inl rfl) "_size".toList (by decide) ⟨"_cached".toList, rfl⟩
  . exact .spell (.inl rfl) "_encode_at".toList (by decide) (List.suffix_refl _)
  . exact fun mem _ => isTail_of_mem_spelledActs

variable {relied : Ident → Prop}

theorem messageActs_block (hrelied : ∀ id, relied id → id.role ∈ [.size, .encode, .reader, .readerInit])
    {m : MessageNode} {acts : List (Act Ident)} (h : messageActs owner contract m = some acts)
    : Naming.Block IsDerived relied [⟨owner, .type⟩] acts := by
  unfold messageActs at h
  split at h
  . simp at h
  . rw [Option.map_eq_some_iff] at h
    obtain ⟨mems, hmems, rfl⟩ := h
    have hnodup := idsOf_messageActs_nodup owner contract hmems
    rw [idsOf_append, List.nodup_append] at hnodup
    obtain ⟨-, htail, hapart⟩ := hnodup
    intro known hknown hfresh
    have htype : ⟨owner, .type⟩ ∈ known := hknown List.mem_cons_self
    rw [idsOf_append] at hfresh
    apply Proper.append
    . apply Proper.of_known
      . simp [headActs, Act.stem, typeStem, htype]
      . simp [headActs, idsOf, Act.ids]
      . exact fun id hid => hfresh id (List.mem_append_left _ hid)
      . simp [headActs]
      . simp only [headActs, List.mem_cons, List.not_mem_nil, or_false, Act.claim.injEq]
        rintro id stem (⟨-, rfl⟩ | ⟨-, rfl⟩ | ⟨-, rfl⟩) - name
        . exact isDerived_of_suffix (by decide) (List.suffix_refl "_size".toList) name
        . exact isDerived_of_suffix (by decide) (List.suffix_refl "_encode".toList) name
        . exact isDerived_of_suffix (by decide) (List.suffix_refl "_reader".toList) name
    . apply Proper.of_known
      . intro act hact
        rcases (isTail_of_mem_tailActs act hact).base with hbase | hbase
        . rw [hbase]
          exact List.mem_append_right _ htype
        . rw [hbase]
          exact List.mem_append_left _ (by simp [headActs, idsOf, Act.ids])
      . exact htail
      . intro id hid hmem
        rcases List.mem_append.mp hmem with hmem | hmem
        . exact hapart id hmem id hid rfl
        . exact hfresh id (List.mem_append_right _ hid) hmem
      . intro id stem hact name
        obtain ⟨suffix, hmem, hsuffix⟩ := (isTail_of_mem_tailActs _ hact).spelled id stem rfl
        exact isDerived_of_suffix hmem hsuffix name
      . intro id stem hact hid name
        have hrole : id.role.field? = none := by
          have := hrelied id hid
          simp only [List.mem_cons, List.not_mem_nil, or_false] at this
          rcases this with hrole | hrole | hrole | hrole <;> rw [hrole] <;> rfl
        obtain ⟨-, rfl⟩ := (isTail_of_mem_tailActs _ hact).claimed id stem rfl hrole
        exact isDerived_of_suffix (by decide) (List.suffix_refl "_init".toList) name

theorem idsOf_enumActs (en : EnumNode)
    : idsOf (enumActs owner en) = (List.range en.values.length).map fun j => ⟨owner, .constant j⟩ := by
  unfold enumActs idsOf
  rw [List.mapIdx_eq_zipIdx_map, List.flatMap_map]
  change (en.values.zipIdx.flatMap fun value => [(⟨owner, .constant value.2⟩ : Ident)]) = _
  rw [← List.map_eq_flatMap, List.range_eq_range', ← List.zipIdx_map_snd, List.map_map]
  rfl

theorem enumActs_block (hrelied : ∀ id, relied id → id.role ∈ [.size, .encode, .reader, .readerInit])
    (en : EnumNode) : Naming.Block IsDerived relied [⟨owner, .type⟩] (enumActs owner en) := by
  intro known hknown hfresh
  apply Proper.of_known
  . intro act hact
    simp only [enumActs, List.mem_mapIdx] at hact
    obtain ⟨j, hj, rfl⟩ := hact
    exact hknown List.mem_cons_self
  . rw [idsOf_enumActs]
    exact List.nodup_range.map fun i j h => by simpa using h
  . exact hfresh
  . simp [enumActs, List.mem_mapIdx]
  . intro id stem hact hid
    simp only [enumActs, List.mem_mapIdx, Act.claim.injEq] at hact
    obtain ⟨j, hj, rfl, -⟩ := hact
    have := hrelied _ hid
    simp at this

end Message

namespace Pool

section Blocks

variable {β : Type} (p : Pool) (enumBlock : Entity → EnumNode → List β)
  (messageBlock : Entity → MessageNode → Option (List β))

def IsBlock : Entity → List β → Prop
  | .enumeration id, block =>
    ∃ en, (p.heap id.file).enums[id.index]? = some en ∧ enumBlock (.enumeration id) en = block
  | .message id, block =>
    ∃ m, (p.heap id.file).messages[id.index]? = some m ∧ messageBlock (.message id) m = some block

/--
What is made of a file: of its enums, and of its messages in order.
-/
def fileBlocks (f : FileId) : Option (List β) := do
  let messages ← p.orderedMessages f
  let blocks ← messages.mapM fun (i, m) => messageBlock (.message ⟨f, i⟩) m
  some (((p.heap f).enums.mapIdx fun i en => enumBlock (.enumeration ⟨f, i⟩) en).flatten ++ blocks.flatten)

variable {p enumBlock messageBlock} {f : FileId}

theorem orderedMessages_nodup {ms : List (Nat × MessageNode)} (h : p.orderedMessages f = some ms)
    : (ms.map Prod.fst).Nodup := by
  unfold orderedMessages at h
  rw [Option.map_eq_some_iff] at h
  obtain ⟨order, horder, rfl⟩ := h
  have hnodup := (MessageOrder.items_perm horder).nodup_iff.mpr (List.nodup_finRange _)
  rw [itemsOf, List.map_map]
  exact hnodup.map Fin.val_injective

theorem exists_fileBlocks {block : List β} (h : p.fileBlocks enumBlock messageBlock f = some block)
    : ∃ es : List (Entity × List β), block = es.flatMap Prod.snd ∧ (es.map Prod.fst).Nodup
        ∧ (∀ e ∈ es, e.1.file = f ∧ p.IsBlock enumBlock messageBlock e.1 e.2)
        ∧ ∀ e, p.Has e → e.file = f → e ∈ es.map Prod.fst := by
  unfold fileBlocks at h
  simp only [Option.bind_eq_bind, Option.bind_eq_some_iff, Option.some_inj] at h
  obtain ⟨ms, hms, blocks, hblocks, rfl⟩ := h
  obtain ⟨hlength, hforall⟩ := List.forall₂_iff_zip.mp (forall₂_of_mapM_some hblocks)
  let enums : List (Entity × List β) :=
    (p.heap f).enums.mapIdx fun i en => (.enumeration ⟨f, i⟩, enumBlock (.enumeration ⟨f, i⟩) en)
  let messages : List (Entity × List β) :=
    (ms.zip blocks).map fun x => (.message ⟨f, x.1.1⟩, x.2)
  have henums : enums.map Prod.fst = (List.range (p.heap f).enums.length).map fun i => .enumeration ⟨f, i⟩ := by
    apply List.ext_getElem
    . simp [enums]
    . simp [enums]
  have hmessages : messages.map Prod.fst = (ms.map Prod.fst).map fun i => .message ⟨f, i⟩ := by
    have hzip := congrArg (List.map fun x => Entity.message ⟨f, x.1⟩) (List.map_fst_zip hlength.le)
    rw [List.map_map] at hzip
    rw [List.map_map, List.map_map]
    exact hzip
  -- The enums come first, in their own order, and then the messages in the order in which they are emitted.
  refine ⟨enums ++ messages, ?_, ?_, ?_, ?_⟩
  . rw [List.flatMap_append]
    congr 1
    . rw [List.flatMap_def]
      congr 1
      apply List.ext_getElem
      . simp [enums]
      . simp [enums]
    . rw [List.flatMap_def, List.map_map]
      congr 1
      exact (List.map_snd_zip hlength.ge).symm
  . rw [List.map_append, henums, hmessages, List.nodup_append]
    refine ⟨List.nodup_range.map fun i j h => by simpa using h,
      (orderedMessages_nodup hms).map fun i j h => by simpa using h, ?_⟩
    rintro e he _ he' rfl
    rw [List.mem_map] at he he'
    obtain ⟨i, -, rfl⟩ := he
    obtain ⟨j, -, heq⟩ := he'
    simp at heq
  . intro e he
    rcases List.mem_append.mp he with he | he
    . simp only [enums, List.mem_mapIdx] at he
      obtain ⟨i, hi, rfl⟩ := he
      exact ⟨rfl, _, List.getElem?_eq_getElem hi, rfl⟩
    . simp only [messages, List.mem_map] at he
      obtain ⟨⟨⟨i, m⟩, block⟩, hmem, rfl⟩ := he
      refine ⟨rfl, m, ?_, hforall hmem⟩
      exact (mem_orderedMessages hms i m).mp (List.of_mem_zip hmem).1
  . rintro e he rfl
    rw [List.map_append, henums, hmessages, List.mem_append]
    cases e with
    | enumeration id =>
      exact .inl (List.mem_map.mpr ⟨id.index, List.mem_range.mpr he.2, rfl⟩)
    | message id =>
      have := (mem_orderedMessages hms id.index _).mpr (List.getElem?_eq_getElem he.2)
      exact .inr (List.mem_map.mpr ⟨id.index, List.mem_map_of_mem this, rfl⟩)

theorem IsBlock.lt {e : Entity} {block : List β} (h : p.IsBlock enumBlock messageBlock e block)
    (hfile : e.file ∈ p.files) : p.Has e := by
  cases e with
  | enumeration id =>
    obtain ⟨en, hen, -⟩ := h
    exact ⟨hfile, (List.getElem?_eq_some_iff.mp hen).1⟩
  | message id =>
    obtain ⟨m, hm, -⟩ := h
    exact ⟨hfile, (List.getElem?_eq_some_iff.mp hm).1⟩

theorem exists_blocks {blocks : List (List β)} (h : p.files.mapM (p.fileBlocks enumBlock messageBlock) = some blocks)
    : ∃ es : List (Entity × List β), blocks.flatten = es.flatMap Prod.snd ∧ (es.map Prod.fst).Nodup
        ∧ (∀ e ∈ es, p.IsBlock enumBlock messageBlock e.1 e.2)
        ∧ ∀ e, p.Has e ↔ e ∈ es.map Prod.fst := by
  have hgo : ∀ (files : List FileId) (blocks : List (List β)), files.Nodup → files ⊆ p.files
      → files.mapM (p.fileBlocks enumBlock messageBlock) = some blocks
      → ∃ es : List (Entity × List β), blocks.flatten = es.flatMap Prod.snd ∧ (es.map Prod.fst).Nodup
        ∧ (∀ e ∈ es, e.1.file ∈ files ∧ p.IsBlock enumBlock messageBlock e.1 e.2)
        ∧ ∀ e, p.Has e → e.file ∈ files → e ∈ es.map Prod.fst := by
    intro files blocks hnodup hsub h
    have hforall := forall₂_of_mapM_some h
    clear h
    induction hforall with
    | nil => exact ⟨[], by simp⟩
    | @cons f block files blocks hblock _ ih =>
      rw [List.nodup_cons] at hnodup
      rw [List.cons_subset] at hsub
      obtain ⟨es, hes, hfst, hisBlock, hhas⟩ := exists_fileBlocks hblock
      obtain ⟨es', hes', hfst', hisBlock', hhas'⟩ := ih hnodup.2 hsub.2
      refine ⟨es ++ es', ?_, ?_, ?_, ?_⟩
      . rw [List.flatten_cons, List.flatMap_append, hes, hes']
      . rw [List.map_append, List.nodup_append]
        refine ⟨hfst, hfst', ?_⟩
        rintro e he _ he' rfl
        rw [List.mem_map] at he he'
        obtain ⟨x, hx, rfl⟩ := he
        obtain ⟨y, hy, heq⟩ := he'
        apply hnodup.1
        rw [← (hisBlock x hx).1, ← heq]
        exact (hisBlock' y hy).1
      . intro e he
        rcases List.mem_append.mp he with he | he
        . exact ⟨(hisBlock e he).1 ▸ List.mem_cons_self, (hisBlock e he).2⟩
        . exact ⟨List.mem_cons_of_mem _ (hisBlock' e he).1, (hisBlock' e he).2⟩
      . intro e he hfile
        rw [List.map_append, List.mem_append]
        rcases List.mem_cons.mp hfile with hfile | hfile
        . exact .inl (hhas e he hfile)
        . exact .inr (hhas' e he hfile)
  obtain ⟨es, hes, hfst, hisBlock, hhas⟩ := hgo p.files blocks p.nodup (List.Subset.refl _) h
  refine ⟨es, hes, hfst, fun e he => (hisBlock e he).2, fun e => ⟨fun he => hhas e he he.file_mem, ?_⟩⟩
  intro he
  rw [List.mem_map] at he
  obtain ⟨x, hx, rfl⟩ := he
  exact (hisBlock x hx).2.lt (hisBlock x hx).1

theorem IsBlock.unique {e : Entity} {block block' : List β} (h : p.IsBlock enumBlock messageBlock e block)
    (h' : p.IsBlock enumBlock messageBlock e block') : block = block' := by
  cases e with
  | enumeration id =>
    obtain ⟨en, hen, rfl⟩ := h
    obtain ⟨en', hen', rfl⟩ := h'
    rw [hen, Option.some_inj] at hen'
    rw [hen']
  | message id =>
    obtain ⟨m, hm, hblock⟩ := h
    obtain ⟨m', hm', hblock'⟩ := h'
    rw [hm, Option.some_inj] at hm'
    subst hm'
    rwa [hblock, Option.some_inj] at hblock'

theorem mem_blocks {blocks : List (List β)} (h : p.files.mapM (p.fileBlocks enumBlock messageBlock) = some blocks)
    (x : β) : x ∈ blocks.flatten ↔ ∃ e, p.Has e ∧ ∃ block, p.IsBlock enumBlock messageBlock e block ∧ x ∈ block := by
  obtain ⟨es, hes, -, hisBlock, hhas⟩ := exists_blocks h
  rw [hes, List.mem_flatMap]
  constructor
  . rintro ⟨y, hy, hx⟩
    exact ⟨y.1, (hhas _).mpr (List.mem_map_of_mem hy), y.2, hisBlock y hy, hx⟩
  . rintro ⟨e, he, block, hblock, hx⟩
    obtain ⟨y, hy, rfl⟩ := List.mem_map.mp ((hhas e).mp he)
    rw [hblock.unique (hisBlock y hy)] at hx
    exact ⟨y, hy, hx⟩

end Blocks

/-! The agenda is in order. -/

section Agenda

variable {p : Pool} {plan : Plan} {acts : List (Act Ident)}

def planOf (plan : Plan) : Entity → Option Contract
  | .message id => plan id
  | .enumeration _ => none

abbrev IsActs (p : Pool) (plan : Plan) : Entity → List (Act Ident) → Prop :=
  p.IsBlock (fun e en => enumActs e en) fun e m => messageActs e (planOf plan e) m

theorem acts_eq_some (h : p.acts plan = some acts)
    : ∃ blocks, p.files.mapM (p.fileBlocks (fun e en => enumActs e en)
        fun e m => messageActs e (planOf plan e) m) = some blocks ∧ blocks.flatten = acts := by
  unfold Pool.acts at h
  rw [Option.map_eq_some_iff] at h
  exact h

theorem mem_acts (h : p.acts plan = some acts) (act : Act Ident)
    : act ∈ acts ↔ ∃ e, p.Has e ∧ ∃ block, p.IsActs plan e block ∧ act ∈ block := by
  obtain ⟨blocks, hblocks, rfl⟩ := acts_eq_some h
  exact mem_blocks hblocks act

theorem IsActs.ids {e : Entity} {block : List (Act Ident)} (h : p.IsActs plan e block)
    : (idsOf block).Nodup ∧ ∀ id ∈ idsOf block, id.owner = e ∧ id.role ≠ .type := by
  cases e with
  | enumeration id =>
    obtain ⟨en, -, rfl⟩ := h
    dsimp only
    rw [idsOf_enumActs]
    refine ⟨List.nodup_range.map fun i j h => by simpa using h, ?_⟩
    intro id' hid
    rw [List.mem_map] at hid
    obtain ⟨j, -, rfl⟩ := hid
    simp
  | message id =>
    obtain ⟨m, -, h⟩ := h
    dsimp only at h
    unfold messageActs at h
    split at h
    . simp at h
    . rw [Option.map_eq_some_iff] at h
      obtain ⟨mems, hmems, rfl⟩ := h
      exact ⟨idsOf_messageActs_nodup _ _ hmems, owner_of_mem_idsOf_messageActs⟩

variable {relied : Ident → Prop}

theorem IsActs.block (hrelied : ∀ id, relied id → id.role ∈ [.size, .encode, .reader, .readerInit])
    {e : Entity} {block : List (Act Ident)} (h : p.IsActs plan e block)
    : Naming.Block IsDerived relied [⟨e, .type⟩] block := by
  cases e with
  | enumeration id =>
    obtain ⟨en, -, rfl⟩ := h
    exact enumActs_block hrelied en
  | message id =>
    obtain ⟨m, -, h⟩ := h
    exact messageActs_block hrelied h

theorem acts_proper (h : p.acts plan = some acts)
    (hrelied : ∀ id, relied id → id.role ∈ [.size, .encode, .reader, .readerInit]) {known : List Ident}
    (hknown : ∀ id, id ∈ known ↔ p.Has id.owner ∧ id.role = .type) : Proper IsDerived relied known acts := by
  obtain ⟨blocks, hblocks, rfl⟩ := acts_eq_some h
  obtain ⟨es, hes, hfst, hisBlock, hhas⟩ := exists_blocks hblocks
  have hids : idsOf (es.map Prod.snd).flatten = es.flatMap fun e => idsOf e.2 := by
    rw [← List.flatMap_def, idsOf_flatMap]
  have hnodup : (idsOf (es.map Prod.snd).flatten).Nodup := by
    rw [hids]
    exact nodup_flatMap_of_key Prod.fst Ident.owner hfst (fun e he => (IsActs.ids (hisBlock e he)).1)
      fun e he id hid => ((IsActs.ids (hisBlock e he)).2 id hid).1
  rw [hes, List.flatMap_def]
  apply Naming.Block.flatten ?_ hnodup known (List.Subset.refl _)
  . intro id hid
    rw [hids, List.mem_flatMap] at hid
    obtain ⟨e, he, hid⟩ := hid
    rw [hknown, not_and]
    exact fun _ => ((IsActs.ids (hisBlock e he)).2 id hid).2
  . intro block hblock
    rw [List.mem_map] at hblock
    obtain ⟨e, he, rfl⟩ := hblock
    apply (IsActs.block hrelied (hisBlock e he)).mono
    rw [List.cons_subset]
    exact ⟨(hknown _).mpr ⟨(hhas _).mpr (List.mem_map_of_mem he), rfl⟩, List.nil_subset _⟩

/-! The names of the types. -/

theorem cnameForType_eq_some {used used' : List Spelling} {name : ScopedName} {c : Spelling}
    (h : cnameForType used name = some (c, used')) : c ∉ used ∧ c ∈ used' ∧ used ⊆ used' := by
  unfold cnameForType at h
  simp only [Option.bind_eq_bind, Option.bind_eq_some_iff] at h
  obtain ⟨c₁, hc₁, h⟩ := h
  have hfree₁ := (mangle_eq_some hc₁).1
  split at h
  . rw [Option.bind_eq_some_iff] at h
    obtain ⟨c₂, hc₂, h⟩ := h
    simp only [Option.some_inj, Prod.mk.injEq] at h
    obtain ⟨rfl, rfl⟩ := h
    have hfree₂ := (mangle_eq_some hc₂).1
    rw [List.mem_cons, not_or] at hfree₂
    refine ⟨hfree₂.2, List.mem_cons_self, ?_⟩
    exact fun x hx => List.mem_cons_of_mem _ (List.mem_cons_of_mem _ hx)
  . simp only [Option.some_inj, Prod.mk.injEq] at h
    obtain ⟨rfl, rfl⟩ := h
    exact ⟨hfree₁, List.mem_cons_self, List.subset_cons_self _ _⟩

theorem nameTypes_eq_some {es : List (Entity × ScopedName)} {l l' : Ledger Ident}
    (h : nameTypes es l = some l') (hused : l.names ⊆ l.used) (hnodup : l.names.Nodup)
    : l'.names ⊆ l'.used ∧ l'.names.Nodup
        ∧ l'.ids = (es.map fun e => ⟨e.1, .type⟩).reverse ++ l.ids := by
  induction es generalizing l with
  | nil =>
    rw [nameTypes, Option.some_inj] at h
    subst h
    exact ⟨hused, hnodup, rfl⟩
  | cons e es ih =>
    obtain ⟨owner, name⟩ := e
    rw [nameTypes, Option.bind_eq_some_iff] at h
    obtain ⟨⟨c, used⟩, hc, h⟩ := h
    obtain ⟨hfree, hmem, hsub⟩ := cnameForType_eq_some hc
    obtain ⟨hused', hnodup', hids⟩ := ih h
      (List.cons_subset.mpr ⟨hmem, List.Subset.trans hused hsub⟩)
      (List.nodup_cons.mpr ⟨fun h => hfree (hused h), hnodup⟩)
    refine ⟨hused', hnodup', ?_⟩
    rw [hids, List.map_cons, List.reverse_cons, List.append_assoc]
    rfl

theorem entities_nodup (p : Pool) : ((p.files.flatMap p.entitiesOf).map Prod.fst).Nodup := by
  rw [List.map_flatMap]
  refine nodup_flatMap_of_key id Entity.file (by rw [List.map_id]; exact p.nodup) ?_ ?_
  . intro f _
    have hmessages : ((p.heap f).messages.mapIdx fun i m => ((.message ⟨f, i⟩ : Entity), m.scopedName)).map
        Prod.fst = (List.range (p.heap f).messages.length).map fun i => .message ⟨f, i⟩ :=
      List.ext_getElem (by simp) (by simp)
    have henums : ((p.heap f).enums.mapIdx fun i en => ((.enumeration ⟨f, i⟩ : Entity), en.scopedName)).map
        Prod.fst = (List.range (p.heap f).enums.length).map fun i => .enumeration ⟨f, i⟩ :=
      List.ext_getElem (by simp) (by simp)
    rw [entitiesOf, List.map_append, hmessages, henums, List.nodup_append]
    refine ⟨List.nodup_range.map fun i j h => by simpa using h,
      List.nodup_range.map fun i j h => by simpa using h, ?_⟩
    rintro e he _ he' rfl
    rw [List.mem_map] at he he'
    obtain ⟨i, -, rfl⟩ := he
    obtain ⟨j, -, heq⟩ := he'
    simp at heq
  . intro f _ e he
    simp only [entitiesOf, List.map_append, List.mem_append, List.mem_map, List.mem_mapIdx] at he
    rcases he with ⟨_, ⟨i, hi, rfl⟩, rfl⟩ | ⟨_, ⟨i, hi, rfl⟩, rfl⟩ <;> rfl

theorem mem_entities (e : Entity) : e ∈ (p.files.flatMap p.entitiesOf).map Prod.fst ↔ p.Has e := by
  simp only [List.mem_map, List.mem_flatMap, entitiesOf, List.mem_append, List.mem_mapIdx]
  constructor
  . rintro ⟨_, ⟨f, hf, ⟨i, hi, rfl⟩ | ⟨i, hi, rfl⟩⟩, rfl⟩
    . exact ⟨hf, hi⟩
    . exact ⟨hf, hi⟩
  . intro he
    cases e with
    | message id => exact ⟨_, ⟨id.file, he.1, .inr ⟨id.index, he.2, rfl⟩⟩, rfl⟩
    | enumeration id => exact ⟨_, ⟨id.file, he.1, .inl ⟨id.index, he.2, rfl⟩⟩, rfl⟩

theorem typeLedger_eq_some {types : Ledger Ident} (h : p.typeLedger = some types)
    : types.names.Nodup ∧ types.Accounted IsDerived ∧ types.ids.Nodup
        ∧ ∀ id, id ∈ types.ids ↔ p.Has id.owner ∧ id.role = .type := by
  obtain ⟨hused, hnodup, hids⟩ := nameTypes_eq_some h (List.nil_subset _) List.nodup_nil
  have hids' : types.ids = ((p.files.flatMap p.entitiesOf).map fun e => ⟨e.1, .type⟩).reverse := by
    rw [hids]
    exact List.append_nil _
  have hmap : ((p.files.flatMap p.entitiesOf).map fun e => (⟨e.1, .type⟩ : Ident))
      = ((p.files.flatMap p.entitiesOf).map Prod.fst).map fun e => ⟨e, .type⟩ := by
    rw [List.map_map]
    rfl
  refine ⟨hnodup, fun name hname => .inl (hused hname), ?_, ?_⟩
  . rw [hids', List.nodup_reverse, hmap]
    exact (entities_nodup p).map fun e e' h => by simpa using h
  . rintro ⟨owner, role⟩
    rw [hids', List.mem_reverse, hmap, List.mem_map]
    simp only [mem_entities, Ident.mk.injEq]
    constructor
    . rintro ⟨e, he, rfl, rfl⟩
      exact ⟨he, rfl⟩
    . rintro ⟨he, rfl⟩
      exact ⟨owner, he, rfl, rfl⟩

end Agenda

end Pool

end Gremlin
