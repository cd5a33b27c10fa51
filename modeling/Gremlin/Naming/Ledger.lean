import Mathlib.Data.List.Basic
import Mathlib.Data.List.Nodup

/-!
This module contains the bookkeeping of a generator that names what it defines. Some names it claims,
and gets another one where the name is in use. Others it writes without asking.
-/

namespace Gremlin.Naming

variable {ι : Type}

abbrev Spelling := List Char

/--
The name of `base` with a suffix.
-/
structure Stem (ι : Type) where
  base : ι
  suffix : Spelling
  deriving DecidableEq, Repr

/--
What the generator does about names.
-/
inductive Act (ι : Type) where
  /-- Define `id` under the name that is claimed. -/
  | claim (id : ι) (stem : Stem ι)
  /-- Claim a name and define nothing under it. -/
  | hold (stem : Stem ι)
  /-- The same for a name of the contracts. -/
  | avoid (stem : Stem ι)
  /-- Define `id` under this very name, without claiming it. -/
  | spell (id : ι) (stem : Stem ι)
  /-- Write the name to a buffer. -/
  | fit (stem : Stem ι) (size : Nat)
  deriving DecidableEq, Repr

/--
The names in use, and what is defined under which name.
-/
structure Ledger (ι : Type) where
  used : List Spelling
  defs : List (ι × Spelling)

/--
How a claim is answered.
-/
structure Policy where
  allot : List Spelling → Spelling → Option Spelling
  avoid : List Spelling → Spelling → Option Spelling

def Act.stem : Act ι → Stem ι
  | .claim _ stem => stem
  | .hold stem => stem
  | .avoid stem => stem
  | .spell _ stem => stem
  | .fit stem _ => stem

def Act.ids : Act ι → List ι
  | .claim id _ => [id]
  | .spell id _ => [id]
  | _ => []

namespace Ledger

variable [DecidableEq ι]

def ids (l : Ledger ι) : List ι :=
  l.defs.map Prod.fst

def names (l : Ledger ι) : List Spelling :=
  l.defs.map Prod.snd

def nameOf (l : Ledger ι) (id : ι) : Spelling :=
  (l.defs.lookup id).getD []

def raw (l : Ledger ι) (stem : Stem ι) : Spelling :=
  l.nameOf stem.base ++ stem.suffix

def step (policy : Policy) (l : Ledger ι) : Act ι → Option (Ledger ι)
  | .claim id stem =>
    (policy.allot l.used (l.raw stem)).map fun name => ⟨name :: l.used, (id, name) :: l.defs⟩
  | .hold stem => (policy.allot l.used (l.raw stem)).map fun name => ⟨name :: l.used, l.defs⟩
  | .avoid stem => (policy.avoid l.used (l.raw stem)).map fun name => ⟨name :: l.used, l.defs⟩
  | .spell id stem => some ⟨l.used, (id, l.raw stem) :: l.defs⟩
  | .fit stem size => if (l.raw stem).length < size then some l else none

def run (policy : Policy) (l : Ledger ι) : List (Act ι) → Option (Ledger ι)
  | [] => some l
  | act :: acts => (l.step policy act).bind fun l => run policy l acts

/--
Whenever an act is taken, it and the ledger before it meet `P`.
-/
def Along (policy : Policy) (P : Ledger ι → Act ι → Prop) (l : Ledger ι) (acts : List (Act ι)) : Prop :=
  ∀ before act after l', acts = before ++ act :: after → l.run policy before = some l' → P l' act

/--
What keeps the names apart: what is written without asking is no name of a definition, and what is
claimed is none that was written so, unless it is in use too and thus not given. Where others rely on
the name of `id` being the one asked for, it is not in use.
-/
def Clear (relied : ι → Prop) (l : Ledger ι) : Act ι → Prop
  | .claim id stem => (relied id → l.raw stem ∉ l.used) ∧ (l.raw stem ∈ l.names → l.raw stem ∈ l.used)
  | .spell _ stem => l.raw stem ∉ l.names
  | _ => True

end Ledger

/--
`Bare` are the names that a claim changes for no other reason than that they are in use, and that
nothing else is changed to.
-/
structure Policy.Lawful (policy : Policy) (Bare : Spelling → Prop) : Prop where
  fresh {used : List Spelling} {raw name : Spelling} (h : policy.allot used raw = some name)
    : name ∉ used
  eq_raw {used : List Spelling} {raw name : Spelling} (h : policy.allot used raw = some name)
    (hbare : Bare raw) (hraw : raw ∉ used) : name = raw
  not_bare {used : List Spelling} {raw name : Spelling} (h : policy.allot used raw = some name)
    (hne : name ≠ raw) : ¬Bare name

/--
The act names something new after something that has a name, and the name is bare if it is written
without asking or relied on.
-/
structure Act.Proper (Bare : Spelling → Prop) (relied : ι → Prop) (known : List ι) (act : Act ι) : Prop where
  fresh : ∀ id ∈ act.ids, id ∉ known
  base : act.stem.base ∈ known
  spelled : ∀ id stem, act = .spell id stem → ∀ name, Bare (name ++ stem.suffix)
  relied : ∀ id stem, act = .claim id stem → relied id → ∀ name, Bare (name ++ stem.suffix)

inductive Proper (Bare : Spelling → Prop) (relied : ι → Prop) : List ι → List (Act ι) → Prop where
  | nil {known : List ι} : Proper Bare relied known []
  | cons {known : List ι} {act : Act ι} {acts : List (Act ι)} (h : act.Proper Bare relied known)
      (hrest : Proper Bare relied (act.ids ++ known) acts) : Proper Bare relied known (act :: acts)

def idsOf (acts : List (Act ι)) : List ι :=
  acts.flatMap Act.ids

section Proper

variable {Bare : Spelling → Prop} {relied : ι → Prop} {known : List ι} {acts acts' : List (Act ι)}

theorem Proper.congr {known' : List ι} (h : Proper Bare relied known acts)
    (heq : ∀ id, id ∈ known ↔ id ∈ known') : Proper Bare relied known' acts := by
  induction h generalizing known' with
  | nil => exact .nil
  | cons hact _ ih =>
    refine .cons ⟨?_, (heq _).mp hact.base, hact.spelled, hact.relied⟩ (ih ?_)
    . intro id hid
      rw [← heq]
      exact hact.fresh id hid
    . intro id
      rw [List.mem_append, List.mem_append, heq]

theorem Proper.append (h : Proper Bare relied known acts)
    (h' : Proper Bare relied (idsOf acts ++ known) acts') : Proper Bare relied known (acts ++ acts') := by
  induction h with
  | nil => exact h'
  | @cons known act acts hact _ ih =>
    refine .cons hact (ih (h'.congr ?_))
    intro id
    simp only [idsOf, List.flatMap_cons, List.mem_append]
    tauto

theorem Proper.of_known (hbase : ∀ act ∈ acts, act.stem.base ∈ known) (hnodup : (idsOf acts).Nodup)
    (hfresh : ∀ id ∈ idsOf acts, id ∉ known)
    (hspelled : ∀ id stem, .spell id stem ∈ acts → ∀ name, Bare (name ++ stem.suffix))
    (hrelied : ∀ id stem, .claim id stem ∈ acts → relied id → ∀ name, Bare (name ++ stem.suffix))
    : Proper Bare relied known acts := by
  induction acts generalizing known with
  | nil => exact .nil
  | cons act acts ih =>
    rw [List.forall_mem_cons] at hbase
    simp only [idsOf, List.flatMap_cons, List.nodup_append] at hnodup
    simp only [idsOf, List.flatMap_cons, List.mem_append] at hfresh
    refine .cons ⟨fun id hid => hfresh id (.inl hid), hbase.1, ?_, ?_⟩ (ih ?_ hnodup.2.1 ?_ ?_ ?_)
    . rintro id stem rfl
      exact hspelled id stem List.mem_cons_self
    . rintro id stem rfl
      exact hrelied id stem List.mem_cons_self
    . intro act' hact'
      exact List.mem_append_right _ (hbase.2 act' hact')
    . intro id hid hmem
      rcases List.mem_append.mp hmem with hmem | hmem
      . exact hnodup.2.2 id hmem id hid rfl
      . exact hfresh id (.inr hid) hmem
    . intro id stem hmem
      exact hspelled id stem (List.mem_cons_of_mem _ hmem)
    . intro id stem hmem
      exact hrelied id stem (List.mem_cons_of_mem _ hmem)

variable (Bare relied known acts) in
/--
The acts are proper whenever these are known and what they define is not.
-/
def Block : Prop :=
  ∀ known', known ⊆ known' → (∀ id ∈ idsOf acts, id ∉ known') → Proper Bare relied known' acts

theorem Block.mono {known' : List ι} (h : Block Bare relied known acts) (hsub : known ⊆ known')
    : Block Bare relied known' acts :=
  fun known'' hsub' => h known'' (List.Subset.trans hsub hsub')

theorem Block.append (h : Block Bare relied known acts) (h' : Block Bare relied known acts')
    (hnodup : (idsOf (acts ++ acts')).Nodup) : Block Bare relied known (acts ++ acts') := by
  simp only [idsOf, List.flatMap_append, List.nodup_append] at hnodup
  intro known' hsub hfresh
  simp only [idsOf, List.flatMap_append, List.mem_append] at hfresh
  apply Proper.append
  . exact h known' hsub fun id hid => hfresh id (.inl hid)
  . apply h'
    . exact fun id hid => List.mem_append_right _ (hsub hid)
    . intro id hid hmem
      rcases List.mem_append.mp hmem with hmem | hmem
      . exact hnodup.2.2 id hmem id hid rfl
      . exact hfresh id (.inr hid) hmem

theorem Block.flatten {blocks : List (List (Act ι))} (h : ∀ acts ∈ blocks, Block Bare relied known acts)
    (hnodup : (idsOf blocks.flatten).Nodup) : Block Bare relied known blocks.flatten := by
  induction blocks with
  | nil => exact fun _ _ _ => .nil
  | cons acts blocks ih =>
    rw [List.forall_mem_cons] at h
    rw [List.flatten_cons] at hnodup ⊢
    refine h.1.append (ih h.2 ?_) hnodup
    simp only [idsOf, List.flatMap_append, List.nodup_append] at hnodup
    exact hnodup.2.1

end Proper

namespace Ledger

variable [DecidableEq ι] {policy : Policy} {l l' : Ledger ι} {act : Act ι} {acts : List (Act ι)}

theorem run_cons_eq_some
    : l.run policy (act :: acts) = some l'
        ↔ ∃ l₁, l.step policy act = some l₁ ∧ l₁.run policy acts = some l' := by
  rw [run, Option.bind_eq_some_iff]

theorem along_cons {P : Ledger ι → Act ι → Prop} (h : l.step policy act = some l')
    : l.Along policy P (act :: acts) ↔ P l act ∧ l'.Along policy P acts := by
  constructor
  . intro halong
    refine ⟨halong [] act acts l rfl rfl, ?_⟩
    intro before act' after l'' heq hrun
    apply halong (act :: before) act' after l'' (by rw [heq, List.cons_append])
    exact run_cons_eq_some.mpr ⟨l', h, hrun⟩
  . rintro ⟨hact, halong⟩ before act' after l'' heq hrun
    cases before with
    | nil =>
      rw [List.nil_append, List.cons.injEq] at heq
      rw [run, Option.some_inj] at hrun
      rw [← heq.1, ← hrun]
      exact hact
    | cons _ before =>
      rw [List.cons_append, List.cons.injEq] at heq
      rw [← heq.1] at hrun
      obtain ⟨l₁, hstep, hrun⟩ := run_cons_eq_some.mp hrun
      rw [h, Option.some_inj] at hstep
      subst hstep
      exact halong before act' after l'' heq.2 hrun

theorem step_defs (h : l.step policy act = some l')
    : (∃ id stem name, act = .claim id stem ∧ policy.allot l.used (l.raw stem) = some name
          ∧ l' = ⟨name :: l.used, (id, name) :: l.defs⟩)
        ∨ (∃ id stem, act = .spell id stem ∧ l' = ⟨l.used, (id, l.raw stem) :: l.defs⟩)
        ∨ act.ids = [] ∧ l'.defs = l.defs ∧ l.used ⊆ l'.used := by
  cases act with
  | claim id stem =>
    rw [step, Option.map_eq_some_iff] at h
    obtain ⟨name, hallot, rfl⟩ := h
    exact .inl ⟨id, stem, name, rfl, hallot, rfl⟩
  | spell id stem =>
    rw [step, Option.some_inj] at h
    exact .inr (.inl ⟨id, stem, rfl, h.symm⟩)
  | hold stem =>
    rw [step, Option.map_eq_some_iff] at h
    obtain ⟨name, -, rfl⟩ := h
    exact .inr (.inr ⟨rfl, rfl, List.subset_cons_self _ _⟩)
  | avoid stem =>
    rw [step, Option.map_eq_some_iff] at h
    obtain ⟨name, -, rfl⟩ := h
    exact .inr (.inr ⟨rfl, rfl, List.subset_cons_self _ _⟩)
  | fit stem size =>
    rw [step] at h
    split at h
    . rw [Option.some_inj] at h
      subst h
      exact .inr (.inr ⟨rfl, rfl, List.Subset.refl _⟩)
    . simp at h

theorem step_ids (h : l.step policy act = some l') : l'.ids = act.ids ++ l.ids := by
  unfold ids
  rcases step_defs h with ⟨id, stem, name, rfl, -, rfl⟩ | ⟨id, stem, rfl, rfl⟩ | ⟨hids, hdefs, -⟩
  . rfl
  . rfl
  . rw [hids, hdefs, List.nil_append]

theorem nameOf_cons_of_ne {used : List Spelling} {defs : List (ι × Spelling)} {id id' : ι}
    {name : Spelling} (hne : id' ≠ id)
    : (Ledger.mk used ((id, name) :: defs)).nameOf id' = (Ledger.mk used defs).nameOf id' := by
  simp only [nameOf, List.lookup_cons, beq_false_of_ne hne]

theorem nameOf_cons_self {used : List Spelling} {defs : List (ι × Spelling)} {id : ι} {name : Spelling}
    : (Ledger.mk used ((id, name) :: defs)).nameOf id = name := by
  simp [nameOf]

theorem step_nameOf (h : l.step policy act = some l') {id : ι} (hid : id ∉ act.ids)
    : l'.nameOf id = l.nameOf id := by
  rcases step_defs h with ⟨id', stem, name, rfl, -, rfl⟩ | ⟨id', stem, rfl, rfl⟩ | ⟨-, hdefs, -⟩
  . rw [Act.ids, List.mem_singleton] at hid
    exact nameOf_cons_of_ne hid
  . rw [Act.ids, List.mem_singleton] at hid
    exact nameOf_cons_of_ne hid
  . unfold nameOf
    rw [hdefs]

variable {Bare : Spelling → Prop} {relied : ι → Prop}

theorem run_nameOf (hacts : Proper Bare relied l.ids acts) (h : l.run policy acts = some l') {id : ι}
    (hid : id ∈ l.ids) : l'.nameOf id = l.nameOf id := by
  induction acts generalizing l with
  | nil =>
    rw [run, Option.some_inj] at h
    rw [h]
  | cons act acts ih =>
    obtain ⟨l₁, hstep, hrun⟩ := run_cons_eq_some.mp h
    cases hacts with
    | cons hact hrest =>
      rw [← step_ids hstep] at hrest
      have hmem : id ∈ l₁.ids := by
        rw [step_ids hstep, List.mem_append]
        exact .inr hid
      rw [ih hrest hrun hmem]
      exact step_nameOf hstep fun hact' => hact.fresh id hact' hid

theorem run_raw (hacts : Proper Bare relied l.ids acts) (h : l.run policy acts = some l')
    {stem : Stem ι} (hbase : stem.base ∈ l.ids) : l'.raw stem = l.raw stem := by
  unfold raw
  rw [run_nameOf hacts h hbase]

variable (l) in
/--
What is defined under a name that is not in use has a bare name.
-/
def Accounted (Bare : Spelling → Prop) : Prop :=
  ∀ name ∈ l.names, name ∈ l.used ∨ Bare name

theorem Accounted.step (h : l.Accounted Bare)
    (hact : act.Proper Bare relied l.ids) (hstep : l.step policy act = some l')
    : l'.Accounted Bare := by
  intro name' hname'
  rcases step_defs hstep with ⟨id, stem, name, rfl, hallot, rfl⟩ | ⟨id, stem, rfl, rfl⟩
    | ⟨-, hdefs, hused⟩
  . rw [names, List.map_cons, List.mem_cons] at hname'
    rcases hname' with rfl | hname'
    . exact .inl (by simp)
    . exact (h name' hname').imp_left fun hmem => List.mem_cons_of_mem _ hmem
  . rw [names, List.map_cons, List.mem_cons] at hname'
    rcases hname' with rfl | hname'
    . exact .inr (hact.spelled id stem rfl _)
    . exact h name' hname'
  . rw [names, hdefs] at hname'
    exact (h name' hname').imp_left fun hmem => hused hmem

variable (l) in
/--
What is relied on has the name that was asked for.
-/
def Matches (relied : ι → Prop) (act : Act ι) : Prop :=
  ∀ id stem, act = .claim id stem → relied id → l.nameOf id = l.raw stem

theorem step_clear_iff (hlawful : policy.Lawful Bare) (haccounted : l.Accounted Bare)
    (hact : act.Proper Bare relied l.ids) (hstep : l.step policy act = some l')
    : l'.names.Nodup ∧ l'.Matches relied act ↔ l.names.Nodup ∧ l.Clear relied act := by
  rcases step_defs hstep with ⟨id, stem, name, rfl, hallot, rfl⟩ | ⟨id, stem, rfl, rfl⟩
    | ⟨hids, hdefs, -⟩
  . -- A claim: the name is the one that is asked for exactly if that one is free.
    have hbase : stem.base ≠ id := by
      intro heq
      exact hact.fresh id (by simp [Act.ids]) (heq ▸ hact.base)
    have hraw : (Ledger.mk (name :: l.used) ((id, name) :: l.defs)).raw stem = l.raw stem := by
      unfold raw
      rw [nameOf_cons_of_ne hbase]
      rfl
    have hmatches : (Ledger.mk (name :: l.used) ((id, name) :: l.defs)).Matches relied (.claim id stem)
        ↔ (relied id → l.raw stem ∉ l.used) := by
      constructor
      . intro h hid
        have := h id stem rfl hid
        rw [nameOf_cons_self, hraw] at this
        rw [← this]
        exact hlawful.fresh hallot
      . rintro h _ _ heq hid
        rw [Act.claim.injEq] at heq
        obtain ⟨rfl, rfl⟩ := heq
        rw [nameOf_cons_self, hraw]
        exact hlawful.eq_raw hallot (hact.relied _ _ rfl hid _) (h hid)
    have hname : name ∉ l.names ↔ (l.raw stem ∈ l.names → l.raw stem ∈ l.used) := by
      constructor
      . intro h hmem
        by_contra hused
        rcases haccounted _ hmem with h' | hbare
        . exact hused h'
        . rw [hlawful.eq_raw hallot hbare hused] at h
          exact h hmem
      . intro h hmem
        rcases haccounted _ hmem with h' | hbare
        . exact hlawful.fresh hallot h'
        . have heq : name = l.raw stem := by
            by_contra hne
            exact hlawful.not_bare hallot hne hbare
          rw [← heq] at h
          exact hlawful.fresh hallot (h hmem)
    rw [hmatches, names, List.map_cons, List.nodup_cons, ← names, Clear, hname]
    tauto
  . -- A name that is spelled out is defined as it is, whether it is free or not.
    have : (Ledger.mk l.used ((id, l.raw stem) :: l.defs)).Matches relied (.spell id stem) := by
      intro _ _ heq
      simp at heq
    rw [names, List.map_cons, List.nodup_cons, ← names, Clear]
    tauto
  . have hmatches : l'.Matches relied act := by
      rintro id stem rfl
      simp [Act.ids] at hids
    have hclear : l.Clear relied act := by
      cases act with
      | claim id stem => simp [Act.ids] at hids
      | spell id stem => simp [Act.ids] at hids
      | hold | avoid | fit => trivial
    rw [names, hdefs, ← names]
    tauto

theorem matches_congr (hacts : Proper Bare relied l.ids acts) (h : l.run policy acts = some l')
    (hids : ∀ id ∈ act.ids, id ∈ l.ids) (hbase : act.stem.base ∈ l.ids)
    : l'.Matches relied act ↔ l.Matches relied act := by
  have hiff : ∀ id stem, act = .claim id stem → (l'.nameOf id = l'.raw stem ↔ l.nameOf id = l.raw stem) := by
    rintro id stem rfl
    rw [run_nameOf hacts h (hids id (by simp [Act.ids])), show l'.raw stem = l.raw stem from run_raw hacts h hbase]
  unfold Matches
  constructor
  . intro hmatches id stem heq hid
    exact (hiff id stem heq).mp (hmatches id stem heq hid)
  . intro hmatches id stem heq hid
    exact (hiff id stem heq).mpr (hmatches id stem heq hid)

theorem run_clear_iff (hlawful : policy.Lawful Bare) (haccounted : l.Accounted Bare)
    (hacts : Proper Bare relied l.ids acts) (h : l.run policy acts = some l')
    : (l'.names.Nodup ∧ ∀ act ∈ acts, l'.Matches relied act)
        ↔ l.names.Nodup ∧ l.Along policy (Clear relied) acts := by
  induction acts generalizing l with
  | nil =>
    rw [run, Option.some_inj] at h
    subst h
    have : l.Along policy (Clear relied) [] := by
      intro before act after _ heq
      simp at heq
    simp [this]
  | cons act acts ih =>
    obtain ⟨l₁, hstep, hrun⟩ := run_cons_eq_some.mp h
    cases hacts with
    | cons hact hrest =>
      rw [← step_ids hstep] at hrest
      have hids : ∀ id ∈ act.ids, id ∈ l₁.ids := by
        intro id hid
        rw [step_ids hstep]
        exact List.mem_append_left _ hid
      have hbase : act.stem.base ∈ l₁.ids := by
        rw [step_ids hstep]
        exact List.mem_append_right _ hact.base
      rw [List.forall_mem_cons, matches_congr hrest hrun hids hbase, along_cons hstep]
      have hih := ih (haccounted.step hact hstep) hrest hrun
      have hiff := step_clear_iff hlawful haccounted hact hstep
      tauto

theorem run_ids (h : l.run policy acts = some l') (id : ι)
    : id ∈ l'.ids ↔ id ∈ l.ids ∨ id ∈ idsOf acts := by
  induction acts generalizing l with
  | nil =>
    rw [run, Option.some_inj] at h
    simp [h, idsOf]
  | cons act acts ih =>
    obtain ⟨l₁, hstep, hrun⟩ := run_cons_eq_some.mp h
    rw [ih hrun, step_ids hstep]
    simp only [idsOf, List.flatMap_cons, List.mem_append]
    tauto

theorem run_ids_nodup (hacts : Proper Bare relied l.ids acts) (h : l.run policy acts = some l')
    (hnodup : l.ids.Nodup) : l'.ids.Nodup := by
  induction acts generalizing l with
  | nil =>
    rw [run, Option.some_inj] at h
    rwa [← h]
  | cons act acts ih =>
    obtain ⟨l₁, hstep, hrun⟩ := run_cons_eq_some.mp h
    cases hacts with
    | cons hact hrest =>
      rw [← step_ids hstep] at hrest
      refine ih hrest hrun ?_
      rw [step_ids hstep, List.nodup_append]
      refine ⟨?_, hnodup, ?_⟩
      . cases act <;> simp [Act.ids]
      . rintro id hid _ hid' rfl
        exact hact.fresh id hid hid'

theorem run_spelled (hacts : Proper Bare relied l.ids acts) (h : l.run policy acts = some l') {id : ι}
    {stem : Stem ι} (hmem : .spell id stem ∈ acts) : l'.nameOf id = l'.raw stem := by
  induction acts generalizing l with
  | nil => simp at hmem
  | cons act acts ih =>
    obtain ⟨l₁, hstep, hrun⟩ := run_cons_eq_some.mp h
    cases hacts with
    | cons hact hrest =>
      rw [← step_ids hstep] at hrest
      rcases List.mem_cons.mp hmem with rfl | hmem
      . have hids := step_ids hstep
        have hid : id ∈ l₁.ids := by
          rw [hids]
          exact List.mem_append_left _ (List.mem_singleton_self id)
        have hbase : stem.base ∈ l₁.ids := by
          rw [hids]
          exact List.mem_append_right _ hact.base
        have hne : stem.base ≠ id := by
          intro heq
          exact hact.fresh id (List.mem_singleton_self id) (heq ▸ hact.base)
        rw [run_nameOf hrest hrun hid, run_raw hrest hrun hbase]
        rw [step, Option.some_inj] at hstep
        subst hstep
        unfold raw
        rw [nameOf_cons_self, nameOf_cons_of_ne hne]
      . exact ih hrest hrun hmem

theorem names_eq (hnodup : l.ids.Nodup) : l.names = l.ids.map l.nameOf := by
  obtain ⟨used, defs⟩ := l
  unfold names ids at *
  dsimp only at *
  induction defs with
  | nil => rfl
  | cons d defs ih =>
    rw [List.map_cons, List.nodup_cons] at hnodup
    rw [List.map_cons, List.map_cons, List.map_cons, nameOf_cons_self, ih hnodup.2]
    congr 1
    apply List.map_congr_left
    intro id hid
    rw [nameOf_cons_of_ne]
    rintro rfl
    exact hnodup.1 hid

end Ledger

end Gremlin.Naming
