import Gremlin.Codegen.Claims
import Mathlib.Data.List.Pairwise

/-!
This module contains the members of the structs of a message: those whose names are claimed, and
those whose names are put together without a claim.
-/

namespace Gremlin

open Naming

/--
The fields of a message with the names of their members, unless the emission gives up.
-/
def slottedOf (fields : List FieldNode) : Option (List Slotted) :=
  if fields.length > 1024 then none else claimMembers memberScope fields

def Slotted.countName (f : Slotted) : Spelling :=
  f.fname ++ "_count".toList

def Slotted.firstOffsetName (f : Slotted) : Spelling :=
  f.fname ++ "_first_offset".toList

def Slotted.writerMembers (f : Slotted) : List Spelling :=
  if f.shape.hasCount then [f.fname, f.countName] else [f.fname]

def Slotted.readerMembers (f : Slotted) : List Spelling :=
  if f.shape.hasCount then f.countName :: f.firstOffsetName :: f.packedName.toList else [f.fname]

def writerMembers (fs : List Slotted) : List Spelling :=
  (if fs = [] then ["_empty".toList] else []) ++ fs.flatMap Slotted.writerMembers ++ ["_size".toList]

def readerMembers (fs : List Slotted) : List Spelling :=
  ["src".toList, "src_len".toList] ++ (if fs = [] then [] else ["_has".toList])
    ++ fs.flatMap Slotted.readerMembers

/--
The members of the struct `_has` in the reader struct.
-/
def hasMembers (fs : List Slotted) : List Spelling :=
  fs.map Slotted.fname

/-! What is claimed. -/

def Slotted.names (f : Slotted) : List Spelling :=
  f.fname :: f.packedName.toList

/--
A name that is claimed for the flag of a repeated scalar.
-/
def IsPackedName (name : Spelling) : Prop :=
  (∃ fname, name = fname ++ "_packed".toList) ∨ (∃ raw, name = raw ++ ['_']) ∨ ∃ raw i, name = numbered raw i

theorem isPackedName_of_mangle {used : List Spelling} {fname packed : Spelling}
    (h : mangle used (fname ++ "_packed".toList) = some packed) : IsPackedName packed := by
  rcases (mangle_eq_some h).2 with ⟨heq, -⟩ | ⟨heq, -⟩ | ⟨⟨raw, i, heq⟩, -⟩
  . exact .inl ⟨fname, heq⟩
  . exact .inr (.inl ⟨_, heq⟩)
  . exact .inr (.inr ⟨raw, i, heq⟩)

theorem IsPackedName.last {name : Spelling} (h : IsPackedName name) : name.getLast? ≠ some 't' := by
  rcases h with ⟨fname, rfl⟩ | ⟨raw, rfl⟩ | ⟨raw, i, rfl⟩
  . rw [List.getLast?_append_of_ne_nil _ (by decide)]
    decide
  . rw [List.getLast?_append_of_ne_nil _ (by simp)]
    decide
  . intro hlast
    unfold numbered at hlast
    rw [List.getLast?_append_of_ne_nil _ (by simp), List.getLast?_cons_of_ne_nil Nat.toDigits_ne_nil]
      at hlast
    have := Nat.isDigit_of_mem_toDigits (b := 10) (by decide) (by decide) (List.mem_of_getLast? hlast)
    revert this
    decide

/--
What the claims for the fields establish.
-/
structure Claimed (used : List Spelling) (fs : List Slotted) : Prop where
  nodup : (fs.flatMap Slotted.names).Nodup
  free : ∀ f ∈ fs, ∀ name ∈ f.names, name ∉ used
  packed : ∀ f ∈ fs, ∀ name ∈ f.packedName, IsPackedName name

theorem Claimed.cons {used : List Spelling} {f : Slotted} {fs : List Slotted}
    (hnodup : f.names.Nodup) (hfree : ∀ name ∈ f.names, name ∉ used)
    (hpacked : ∀ name ∈ f.packedName, IsPackedName name) (h : Claimed (f.names.reverse ++ used) fs)
    : Claimed used (f :: fs) := by
  constructor
  . rw [List.flatMap_cons, List.nodup_append]
    refine ⟨hnodup, h.nodup, ?_⟩
    rintro name hname _ hmem rfl
    obtain ⟨g, hg, hmem⟩ := List.mem_flatMap.mp hmem
    apply h.free g hg name hmem
    exact List.mem_append_left _ (List.mem_reverse.mpr hname)
  . rw [List.forall_mem_cons]
    refine ⟨hfree, ?_⟩
    intro g hg name hname hused
    exact h.free g hg name hname (List.mem_append_right _ hused)
  . rw [List.forall_mem_cons]
    exact ⟨hpacked, h.packed⟩

theorem claimed_of_claimMembers {used : List Spelling} {fields : List FieldNode} {fs : List Slotted}
    (h : claimMembers used fields = some fs) : Claimed used fs := by
  induction fields generalizing used fs with
  | nil =>
    simp only [claimMembers, Option.some.injEq] at h
    subst h
    exact ⟨List.nodup_nil, by simp, by simp⟩
  | cons fld rest ih =>
    simp only [claimMembers, Option.bind_eq_bind, Option.bind_eq_some_iff] at h
    obtain ⟨fname, hfname, h⟩ := h
    have hfresh := (mangle_eq_some hfname).1
    split at h
    . simp only [Option.bind_eq_some_iff, Option.some.injEq] at h
      obtain ⟨packed, hpacked, fs', hrest, rfl⟩ := h
      have hfresh' := (mangle_eq_some hpacked).1
      rw [List.mem_cons, not_or] at hfresh'
      refine .cons ?_ ?_ ?_ (ih hrest)
      . simpa [Slotted.names] using fun heq => hfresh'.1 heq.symm
      . simpa [Slotted.names] using ⟨hfresh, hfresh'.2⟩
      . simpa using isPackedName_of_mangle hpacked
    . simp only [Option.bind_eq_some_iff, Option.some.injEq] at h
      obtain ⟨fs', hrest, rfl⟩ := h
      refine .cons ?_ ?_ ?_ (ih hrest)
      . simp [Slotted.names]
      . simpa [Slotted.names] using hfresh
      . simp

/-! What is put together. -/

theorem countName_injective {f g : Slotted} (h : f.countName = g.countName) : f.fname = g.fname :=
  List.append_cancel_right h

theorem firstOffsetName_injective {f g : Slotted} (h : f.firstOffsetName = g.firstOffsetName)
    : f.fname = g.fname :=
  List.append_cancel_right h

theorem countName_ne_firstOffsetName (f g : Slotted) : f.countName ≠ g.firstOffsetName := by
  intro h
  have hsuffix := congrArg (fun name : Spelling => name.reverse.take 6) h
  simp only [Slotted.countName, Slotted.firstOffsetName, List.reverse_append] at hsuffix
  rw [List.take_append_of_le_length (by decide), List.take_append_of_le_length (by decide)] at hsuffix
  revert hsuffix
  decide

theorem countName_last (f : Slotted) : f.countName.getLast? = some 't' := by
  rw [Slotted.countName, List.getLast?_append_of_ne_nil _ (by decide)]
  decide

theorem firstOffsetName_last (f : Slotted) : f.firstOffsetName.getLast? = some 't' := by
  rw [Slotted.firstOffsetName, List.getLast?_append_of_ne_nil _ (by decide)]
  decide

theorem length_countName (f : Slotted) : f.countName.length = f.fname.length + 6 := by
  rw [Slotted.countName, List.length_append]
  rfl

theorem memberScope_last : ∀ name ∈ memberScope, name.getLast? ≠ some 't' := by
  decide

/--
The names of the structs of a message are distinct: those of the writer, those of the reader, and
those of the bits in the reader.
-/
def Distinct (fs : List Slotted) : Prop :=
  (writerMembers fs).Nodup ∧ (readerMembers fs).Nodup ∧ (hasMembers fs).Nodup

/--
No field has the name that is put together for the count of a repeated or map field, and no field
with a member of its own in the reader the one for its offset.
-/
def Apart (fs : List Slotted) : Prop :=
  ∀ f ∈ fs, f.shape.hasCount = true → ∀ g ∈ fs,
    g.fname ≠ f.countName ∧ (g.shape.hasCount = false → g.fname ≠ f.firstOffsetName)

theorem mem_writerMembers {f : Slotted} {name : Spelling}
    : name ∈ f.writerMembers ↔ name = f.fname ∨ f.shape.hasCount = true ∧ name = f.countName := by
  unfold Slotted.writerMembers
  split <;> simp_all

theorem mem_readerMembers {f : Slotted} {name : Spelling}
    : name ∈ f.readerMembers
        ↔ f.shape.hasCount = true ∧ (name = f.countName ∨ name = f.firstOffsetName ∨ name ∈ f.packedName)
          ∨ f.shape.hasCount = false ∧ name = f.fname := by
  unfold Slotted.readerMembers
  split <;> simp_all

section Distinct

variable {fs : List Slotted}

theorem Claimed.disjoint (h : Claimed memberScope fs) {f g : Slotted} (hf : f ∈ fs) (hg : g ∈ fs)
    (hne : f ≠ g) : List.Disjoint f.names g.names := by
  have hpairwise := (List.nodup_flatMap.mp h.nodup).2
  have : Std.Symm (Function.onFun List.Disjoint Slotted.names) := ⟨fun _ _ hdisjoint => hdisjoint.symm⟩
  exact hpairwise.forall hf hg hne

theorem Claimed.fname_ne (h : Claimed memberScope fs) {f g : Slotted} (hf : f ∈ fs) (hg : g ∈ fs)
    (hne : f ≠ g) : f.fname ≠ g.fname := by
  intro heq
  apply h.disjoint hf hg hne (a := f.fname)
  . simp [Slotted.names]
  . simp [Slotted.names, heq]

theorem Claimed.nodup_self (h : Claimed memberScope fs) : fs.Nodup := by
  have hpairwise := (List.nodup_flatMap.mp h.nodup).2
  apply hpairwise.imp
  rintro f _ hdisjoint rfl
  exact hdisjoint (a := f.fname) (by simp [Slotted.names]) (by simp [Slotted.names])

theorem Claimed.nodup_flatMap (h : Claimed memberScope fs) {F : Slotted → List Spelling}
    (hnodup : ∀ f ∈ fs, (F f).Nodup)
    (hdisjoint : ∀ f ∈ fs, ∀ g ∈ fs, f ≠ g → List.Disjoint (F f) (F g)) : (fs.flatMap F).Nodup := by
  rw [List.nodup_flatMap]
  refine ⟨hnodup, ?_⟩
  apply h.nodup_self.imp_of_mem
  intro f g hf hg hne
  exact hdisjoint f hf g hg hne

theorem disjoint_of_nodup {F : Slotted → List Spelling} (h : (fs.flatMap F).Nodup) {f g : Slotted}
    (hf : f ∈ fs) (hg : g ∈ fs) (hne : f ≠ g) : List.Disjoint (F f) (F g) := by
  have : Std.Symm (Function.onFun List.Disjoint F) := ⟨fun _ _ hdisjoint => hdisjoint.symm⟩
  exact (List.nodup_flatMap.mp h).2.forall hf hg hne

theorem fname_ne_countName (f : Slotted) : f.fname ≠ f.countName := by
  intro heq
  have hlength := congrArg List.length heq
  rw [length_countName] at hlength
  omega

theorem Apart.writer (h : Claimed memberScope fs) (hapart : Apart fs)
    : (fs.flatMap Slotted.writerMembers).Nodup := by
  apply h.nodup_flatMap
  . intro f _
    unfold Slotted.writerMembers
    split
    . simpa using fname_ne_countName f
    . simp
  . intro f hf g hg hne name hname hname'
    rw [mem_writerMembers] at hname hname'
    have hfname := h.fname_ne hf hg hne
    rcases hname with rfl | ⟨hcount, rfl⟩
    . rcases hname' with heq | ⟨hcount', heq⟩
      . exact hfname heq
      . exact (hapart g hg hcount' f hf).1 heq
    . rcases hname' with heq | ⟨hcount', heq⟩
      . exact (hapart f hf hcount g hg).1 heq.symm
      . exact hfname (countName_injective heq)

theorem Apart.reader (h : Claimed memberScope fs) (hapart : Apart fs)
    : (fs.flatMap Slotted.readerMembers).Nodup := by
  have hpacked (f g : Slotted) (hg : g ∈ fs)
      : f.countName ∉ g.packedName ∧ f.firstOffsetName ∉ g.packedName := by
    constructor
    . intro hmem
      exact (h.packed g hg _ hmem).last (countName_last f)
    . intro hmem
      exact (h.packed g hg _ hmem).last (firstOffsetName_last f)
  apply h.nodup_flatMap
  . intro f hf
    unfold Slotted.readerMembers
    split
    . rw [List.nodup_cons, List.nodup_cons, List.mem_cons, not_or, Option.mem_toList, Option.mem_toList]
      obtain ⟨hcount, hoffset⟩ := hpacked f f hf
      refine ⟨⟨countName_ne_firstOffsetName f f, hcount⟩, hoffset, ?_⟩
      cases f.packedName <;> simp
    . simp
  . -- a name of one field's members against the names of the other's
    have hside (f g : Slotted) (hf : f ∈ fs) (hg : g ∈ fs) (hne : f ≠ g) (hcount : f.shape.hasCount = true)
        (name : Spelling) (hname : name = f.countName ∨ name = f.firstOffsetName ∨ name ∈ f.packedName)
        : ¬(g.shape.hasCount = false ∧ name = g.fname) := by
      rintro ⟨hcount', rfl⟩
      obtain ⟨hapartCount, hapartOffset⟩ := hapart f hf hcount g hg
      rcases hname with heq | heq | hmem
      . exact hapartCount heq
      . exact hapartOffset hcount' heq
      . apply h.disjoint hf hg hne (a := g.fname)
        . simpa [Slotted.names] using .inr hmem
        . simp [Slotted.names]
    intro f hf g hg hne name hname hname'
    rw [mem_readerMembers] at hname hname'
    rcases hname with ⟨hcount, hname⟩ | ⟨hcount, hname⟩
    . rcases hname' with ⟨hcount', hname'⟩ | hname'
      . have hfname := h.fname_ne hf hg hne
        rcases hname with rfl | rfl | hmem
        . rcases hname' with heq | heq | hmem'
          . exact hfname (countName_injective heq)
          . exact countName_ne_firstOffsetName f g heq
          . exact (hpacked f g hg).1 hmem'
        . rcases hname' with heq | heq | hmem'
          . exact countName_ne_firstOffsetName g f heq.symm
          . exact hfname (firstOffsetName_injective heq)
          . exact (hpacked f g hg).2 hmem'
        . rcases hname' with rfl | rfl | hmem'
          . exact (hpacked g f hf).1 hmem
          . exact (hpacked g f hf).2 hmem
          . apply h.disjoint hf hg hne (a := name)
            . simpa [Slotted.names] using .inr hmem
            . simpa [Slotted.names] using .inr hmem'
      . exact hside f g hf hg hne hcount name hname hname'
    . rcases hname' with ⟨hcount', hname'⟩ | ⟨-, hname'⟩
      . exact hside g f hg hf (Ne.symm hne) hcount' name hname' ⟨hcount, hname⟩
      . exact h.fname_ne hf hg hne (hname.symm.trans hname')

/--
The members of the fields have no names of the scope, which the other members have.
-/
theorem Claimed.not_mem_scope (h : Claimed memberScope fs) {f : Slotted} (hf : f ∈ fs) {name : Spelling}
    (hname : name ∈ f.writerMembers ∨ name ∈ f.readerMembers) : name ∉ memberScope := by
  intro hscope
  rw [mem_writerMembers, mem_readerMembers] at hname
  have hlast := memberScope_last name hscope
  have hfname : name ≠ f.fname := by
    rintro rfl
    exact h.free f hf f.fname (by simp [Slotted.names]) hscope
  have hpacked : name ∉ f.packedName := by
    intro hmem
    exact h.free f hf name (by simpa [Slotted.names] using .inr hmem) hscope
  have hcount : name ≠ f.countName := by
    rintro rfl
    exact hlast (countName_last f)
  have hoffset : name ≠ f.firstOffsetName := by
    rintro rfl
    exact hlast (firstOffsetName_last f)
  tauto

theorem Distinct.apart (hdistinct : Distinct fs) : Apart fs := by
  -- A count that is spelled like a member, or an offset like a reader member, would be in the lists
  -- twice.
  obtain ⟨hwriter, hreader, -⟩ := hdistinct
  intro f hf hcount g hg
  have hwriter : (fs.flatMap Slotted.writerMembers).Nodup := hwriter.of_append_left.of_append_right
  have hreader : (fs.flatMap Slotted.readerMembers).Nodup := hreader.of_append_right
  constructor
  . intro heq
    by_cases hsame : f = g
    . subst hsame
      exact fname_ne_countName f heq
    . apply disjoint_of_nodup hwriter hf hg hsame (a := f.countName)
      . exact mem_writerMembers.mpr (.inr ⟨hcount, rfl⟩)
      . exact mem_writerMembers.mpr (.inl heq.symm)
  . intro hcount' heq
    have hsame : f ≠ g := by
      rintro rfl
      rw [hcount] at hcount'
      simp at hcount'
    apply disjoint_of_nodup hreader hf hg hsame (a := f.firstOffsetName)
    . exact mem_readerMembers.mpr (.inl ⟨hcount, .inr (.inl rfl)⟩)
    . exact mem_readerMembers.mpr (.inr ⟨hcount', heq.symm⟩)

theorem Apart.distinct (h : Claimed memberScope fs) (hapart : Apart fs) : Distinct fs := by
  have hscope {F : Slotted → List Spelling}
      (hF : ∀ f name, name ∈ F f → name ∈ f.writerMembers ∨ name ∈ f.readerMembers)
      {name : Spelling} (hname : name ∈ memberScope) : name ∉ fs.flatMap F := by
    intro hmem
    obtain ⟨f, hf, hmem⟩ := List.mem_flatMap.mp hmem
    exact h.not_mem_scope hf (hF f name hmem) hname
  -- The struct of the message, the one of the reader, and the flags that say which fields are there.
  refine ⟨?_, ?_, ?_⟩
  . cases fs with
    | nil => decide
    | cons f rest =>
      rw [writerMembers, if_neg (by simp), List.nil_append, List.nodup_append]
      refine ⟨hapart.writer h, List.nodup_singleton _, ?_⟩
      rintro name hname _ hsize rfl
      rw [List.mem_singleton] at hsize
      subst hsize
      exact hscope (fun _ _ => .inl) (by decide) hname
  . cases fs with
    | nil => decide
    | cons f rest =>
      rw [readerMembers, if_neg (by simp), List.nodup_append]
      refine ⟨by decide, hapart.reader h, ?_⟩
      rintro name hname _ hmem rfl
      have hhead : name ∈ memberScope := by
        simp only [List.mem_append, List.mem_cons, List.not_mem_nil, or_false] at hname
        rcases hname with (rfl | rfl) | rfl <;> decide
      exact hscope (fun _ _ => .inr) hhead hmem
  . rw [hasMembers, List.nodup_map_iff_inj_on h.nodup_self]
    intro f hf g hg heq
    by_contra hne
    exact h.fname_ne hf hg hne heq

end Distinct

/--
The member names are distinct exactly if no field is called like a count or an offset.
-/
theorem distinct_iff (fields : List FieldNode) : ∀ fs ∈ slottedOf fields, Distinct fs ↔ Apart fs := by
  intro fs hfs
  unfold slottedOf at hfs
  split at hfs
  . simp at hfs
  . exact ⟨Distinct.apart, Apart.distinct (claimed_of_claimMembers hfs)⟩

/--
A field of type `int32`.
-/
def int32Field (label : FieldLabel) (name : String) (index : Int) : FieldNode where
  parsed := ⟨label, .named "int32".toList, name.toList, index, .empty⟩
  type := .builtin "int32".toList
  default := none
  packing := .auto
  originFile := none
  originScope := none

/--
A repeated field and a map beside fields that are called almost like what is derived for these two.
-/
def nearbyFields : List FieldNode :=
  [int32Field .repeated "a" 1,
    { int32Field .none "m" 2 with type := .map (.builtin "int32".toList) (.builtin "string".toList) },
    int32Field .none "a_counts" 3, int32Field .repeated "m_first_offset" 4, int32Field .none "a_packed" 5]

theorem nearbyFields_distinct_iff
    : ∃ fs ∈ slottedOf nearbyFields, fs.map Slotted.writerMembers
          = [["a".toList, "a_count".toList], ["m".toList, "m_count".toList], ["a_counts".toList],
            ["m_first_offset".toList, "m_first_offset_count".toList], ["a_packed_1".toList]]
        ∧ (Distinct fs ↔ Apart fs) ∧ Distinct fs := by
  have hfs : ∃ fs, slottedOf nearbyFields = some fs ∧ fs.map Slotted.writerMembers
      = [["a".toList, "a_count".toList], ["m".toList, "m_count".toList], ["a_counts".toList],
        ["m_first_offset".toList, "m_first_offset_count".toList], ["a_packed_1".toList]]
      ∧ (writerMembers fs).Nodup ∧ (readerMembers fs).Nodup ∧ (hasMembers fs).Nodup := by
    decide +kernel
  obtain ⟨fs, hfs, hmembers, hdistinct⟩ := hfs
  exact ⟨fs, hfs, hmembers, distinct_iff nearbyFields fs hfs, hdistinct⟩

/--
A repeated field `a` and a field `a_count`.
-/
theorem count_not_distinct
    : ∃ fs ∈ slottedOf [int32Field .repeated "a" 1, int32Field .none "a_count" 2], ¬Distinct fs := by
  refine ⟨[⟨.repeatedScalar (.builtin "int32".toList), "a".toList, some "a_packed".toList⟩,
    ⟨.scalar, "a_count".toList, none⟩], by decide +kernel, ?_⟩
  rintro ⟨hwriter, -⟩
  revert hwriter
  decide

end Gremlin
