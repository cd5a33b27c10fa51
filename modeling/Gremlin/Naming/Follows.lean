import Gremlin.Naming.Ledger

/-!
This module contains the comparison of two generators of which one claims names in between those that
both ask for.
-/

namespace Gremlin.Naming

variable {ι : Type}

/--
What an act asks a name for. The names of the contracts are chosen and not asked for.
-/
def Act.asked : Act ι → Option (Stem ι)
  | .claim _ stem => some stem
  | .hold stem => some stem
  | _ => none

/--
A claim is answered with the first of its candidates that is free.
-/
def Policy.Picks (policy : Policy) (candidates : Spelling → List Spelling) : Prop :=
  ∀ used raw, policy.allot used raw = (candidates raw).find? fun name => !used.contains name

theorem Policy.picks_iff {policy : Policy} {candidates : Spelling → List Spelling}
    : policy.Picks candidates
        ↔ ∀ used raw, policy.allot used raw = (candidates raw).find? fun name => name ∉ used := by
  have hfree (used : List Spelling) : (fun name => !used.contains name) = fun name => decide (name ∉ used) := by
    funext name
    simp
  simp only [Policy.Picks, hfree]

namespace Ledger

variable [DecidableEq ι]

def grant (policy : Policy) (l : Ledger ι) (act : Act ι) : Option (Stem ι × Spelling) :=
  act.asked.bind fun stem => (policy.allot l.used (l.raw stem)).map fun name => (stem, name)

/--
The names that are given, each with what it was asked for.
-/
def grants (policy : Policy) (l : Ledger ι) : List (Act ι) → Option (List (Stem ι × Spelling))
  | [] => some []
  | act :: acts =>
    (l.step policy act).bind fun l' =>
      (grants policy l' acts).map fun rest => (l.grant policy act).toList ++ rest

/--
`l'` has what `l` has, and beyond this only names of some kind. They agree about what is kept.
-/
structure Below (kept : ι → Prop) (Other : Spelling → Prop) (l l' : Ledger ι) : Prop where
  used : l.used ⊆ l'.used
  other : ∀ name ∈ l'.used, name ∈ l.used ∨ Other name
  named : ∀ id, kept id → l.nameOf id = l'.nameOf id

end Ledger

/--
The second acts ask for what the first ones do, with extra ones in between. What is kept is defined by
both or by neither.
-/
inductive Follows (kept : ι → Prop) (Extra : Act ι → Prop) : List (Act ι) → List (Act ι) → Prop where
  | nil : Follows kept Extra [] []
  | extra {act : Act ι} {acts acts' : List (Act ι)} (h : Extra act)
      (hrest : Follows kept Extra acts acts') : Follows kept Extra acts (act :: acts')
  | ask {act act' : Act ι} {stem : Stem ι} {acts acts' : List (Act ι)} (hasked : act.asked = some stem)
      (hasked' : act'.asked = some stem) (hbase : kept stem.base)
      (hids : ∀ id, kept id → (id ∈ act.ids ↔ id ∈ act'.ids)) (hrest : Follows kept Extra acts acts')
      : Follows kept Extra (act :: acts) (act' :: acts')

section Follows

variable {kept : ι → Prop} {Extra : Act ι → Prop} {acts acts' rest rest' : List (Act ι)}

theorem Follows.append (h : Follows kept Extra acts acts') (hrest : Follows kept Extra rest rest')
    : Follows kept Extra (acts ++ rest) (acts' ++ rest') := by
  induction h with
  | nil => exact hrest
  | extra h _ ih => exact .extra h ih
  | ask hasked hasked' hbase hids _ ih => exact .ask hasked hasked' hbase hids ih

theorem Follows.extra_append {before : List (Act ι)} (h : ∀ act ∈ before, Extra act)
    (hrest : Follows kept Extra acts acts') : Follows kept Extra acts (before ++ acts') := by
  induction before with
  | nil => exact hrest
  | cons act before ih =>
    rw [List.forall_mem_cons] at h
    exact .extra h.1 (ih h.2)

theorem Follows.append_extra {after : List (Act ι)} (h : Follows kept Extra acts acts')
    (hafter : ∀ act ∈ after, Extra act) : Follows kept Extra acts (acts' ++ after) := by
  have := h.append (Follows.extra_append hafter .nil)
  rwa [List.append_nil, List.append_nil] at this

theorem Follows.same {act : Act ι} {stem : Stem ι} (hasked : act.asked = some stem)
    (hbase : kept stem.base) (hrest : Follows kept Extra acts acts')
    : Follows kept Extra (act :: acts) (act :: acts') :=
  .ask hasked hasked hbase (fun _ _ => Iff.rfl) hrest

theorem Follows.hold {id : ι} {stem : Stem ι} (hbase : kept stem.base) (hid : ¬kept id)
    (hrest : Follows kept Extra acts acts')
    : Follows kept Extra (.hold stem :: acts) (.claim id stem :: acts') := by
  refine .ask rfl rfl hbase ?_ hrest
  intro id' hid'
  simp only [Act.ids, List.not_mem_nil, List.mem_singleton, false_iff]
  rintro rfl
  exact hid hid'

theorem Follows.filter {p : Act ι → Bool} (hextra : ∀ act ∈ acts, p act = false → Extra act)
    (hasked : ∀ act ∈ acts, ∃ stem, act.asked = some stem ∧ kept stem.base)
    : Follows kept Extra (acts.filter p) acts := by
  induction acts with
  | nil => exact .nil
  | cons act acts ih =>
    rw [List.forall_mem_cons] at hextra hasked
    have hrest := ih hextra.2 hasked.2
    cases hp : p act with
    | false =>
      rw [List.filter_cons_of_neg (by simp [hp])]
      exact .extra (hextra.1 hp) hrest
    | true =>
      rw [List.filter_cons_of_pos hp]
      obtain ⟨stem, hstem, hbase⟩ := hasked.1
      exact .same hstem hbase hrest

theorem Follows.flatten {blocks blocks' : List (List (Act ι))}
    (h : List.Forall₂ (Follows kept Extra) blocks blocks')
    : Follows kept Extra blocks.flatten blocks'.flatten := by
  induction h with
  | nil => exact .nil
  | cons hacts _ ih => exact hacts.append ih

theorem Follows.flatMap {α : Type} {l : List α} {f g : α → List (Act ι)}
    (h : ∀ a ∈ l, Follows kept Extra (f a) (g a)) : Follows kept Extra (l.flatMap f) (l.flatMap g) := by
  rw [List.flatMap_def, List.flatMap_def]
  apply Follows.flatten
  rw [List.forall₂_map_left_iff, List.forall₂_map_right_iff, List.forall₂_same]
  exact h

end Follows

theorem find?_of_subset {candidates used used' : List Spelling} {name' : Spelling} (hsub : used ⊆ used')
    (h : candidates.find? (fun name => name ∉ used') = some name')
    : ∃ name, candidates.find? (fun name => name ∉ used) = some name ∧ (name = name' ∨ name ∈ used') := by
  induction candidates with
  | nil => simp at h
  | cons c candidates ih =>
    by_cases hmem : c ∈ used'
    . rw [List.find?_cons_of_neg (by simpa using hmem)] at h
      by_cases hmem' : c ∈ used
      . rw [List.find?_cons_of_neg (by simpa using hmem')]
        exact ih h
      . rw [List.find?_cons_of_pos (by simpa using hmem')]
        exact ⟨c, rfl, .inr hmem⟩
    . rw [List.find?_cons_of_pos (by simpa using hmem), Option.some_inj] at h
      rw [List.find?_cons_of_pos (by simpa using fun hused => hmem (hsub hused))]
      exact ⟨c, rfl, .inl h⟩

namespace Ledger

variable [DecidableEq ι] {policy policy' : Policy} {l l' : Ledger ι} {act act' : Act ι} {stem : Stem ι}

theorem step_of_asked (hasked : act.asked = some stem)
    : l.step policy act
        = (policy.allot l.used (l.raw stem)).map fun name =>
          ⟨name :: l.used, act.ids.map (fun id => (id, name)) ++ l.defs⟩ := by
  cases act with
  | claim id stem' =>
    rw [Act.asked, Option.some_inj] at hasked
    subst hasked
    rfl
  | hold stem' =>
    rw [Act.asked, Option.some_inj] at hasked
    subst hasked
    rfl
  | avoid stem' => simp [Act.asked] at hasked
  | spell id stem' => simp [Act.asked] at hasked
  | fit stem' size => simp [Act.asked] at hasked

theorem nameOf_append_map (used : List Spelling) {used' : List Spelling} {defs : List (ι × Spelling)} {ids : List ι}
    {id : ι} {name : Spelling}
    : (Ledger.mk used' (ids.map (fun id => (id, name)) ++ defs)).nameOf id
        = if id ∈ ids then name else (Ledger.mk used defs).nameOf id := by
  induction ids with
  | nil => simp [nameOf]
  | cons id' ids ih =>
    rw [List.map_cons, List.cons_append]
    by_cases heq : id = id'
    . subst heq
      rw [nameOf_cons_self, if_pos List.mem_cons_self]
    . rw [nameOf_cons_of_ne heq]
      simp only [List.mem_cons, heq, false_or]
      exact ih

theorem run_used {lf : Ledger ι} {acts : List (Act ι)} (h : l.run policy acts = some lf)
    : l.used ⊆ lf.used := by
  induction acts generalizing l with
  | nil =>
    rw [run, Option.some_inj] at h
    rw [h]
    exact List.Subset.refl _
  | cons act acts ih =>
    obtain ⟨l₁, hstep, hrun⟩ := run_cons_eq_some.mp h
    apply List.Subset.trans ?_ (ih hrun)
    rcases step_defs hstep with ⟨id, stem, name, rfl, -, rfl⟩ | ⟨id, stem, rfl, rfl⟩ | ⟨-, -, hused⟩
    . exact List.subset_cons_self _ _
    . exact List.Subset.refl _
    . exact hused

variable {kept : ι → Prop} {Other : Spelling → Prop}

theorem Below.refl : l.Below kept Other l :=
  ⟨List.Subset.refl _, fun _ h => .inl h, fun _ _ => rfl⟩

theorem Below.trans {l'' : Ledger ι} (h : l.Below kept Other l') (h' : l'.Below kept Other l'')
    : l.Below kept Other l'' where
  used := List.Subset.trans h.used h'.used
  other name hname := (h'.other name hname).elim (h.other name) .inr
  named id hid := (h.named id hid).trans (h'.named id hid)

theorem Below.raw (h : l.Below kept Other l') (hbase : kept stem.base) : l.raw stem = l'.raw stem := by
  unfold Ledger.raw
  rw [h.named _ hbase]

variable {candidates : Spelling → List Spelling}

/--
Where both ask for the same, they get the same unless what the first one gets is in use.
-/
theorem Below.allot (h : l.Below kept Other l') (hpicks : policy.Picks candidates)
    (hpicks' : policy'.Picks candidates) (hbase : kept stem.base) {name' : Spelling}
    (hallot : policy'.allot l'.used (l'.raw stem) = some name')
    : ∃ name, policy.allot l.used (l.raw stem) = some name
        ∧ (name = name' ∨ name ∈ l'.used ∧ Other name) := by
  rw [Policy.picks_iff] at hpicks hpicks'
  rw [hpicks'] at hallot
  obtain ⟨name, hname, hor⟩ := find?_of_subset h.used hallot
  have hfree : name ∉ l.used := by simpa using List.find?_some hname
  refine ⟨name, by rw [hpicks, h.raw hbase, hname], ?_⟩
  apply hor.imp_right
  intro hmem
  exact ⟨hmem, (h.other name hmem).resolve_left hfree⟩

theorem Below.step (h : l.Below kept Other l') (hasked : act.asked = some stem)
    (hasked' : act'.asked = some stem) (hids : ∀ id, kept id → (id ∈ act.ids ↔ id ∈ act'.ids))
    {name name' : Spelling} (hallot : policy.allot l.used (l.raw stem) = some name)
    (hallot' : policy'.allot l'.used (l'.raw stem) = some name')
    (hor : name = name' ∨ name ∈ l'.used ∧ Other name' ∧ ∀ id ∈ act.ids, ¬kept id)
    : ∃ l₁ l₁', l.step policy act = some l₁ ∧ l'.step policy' act' = some l₁' ∧ l₁.Below kept Other l₁' := by
  rw [step_of_asked hasked, step_of_asked hasked', hallot, hallot']
  refine ⟨_, _, rfl, rfl, ?_, ?_, ?_⟩
  . rw [List.cons_subset, List.mem_cons]
    exact ⟨hor.imp_right And.left, fun x hx => List.mem_cons_of_mem _ (h.used hx)⟩
  . intro x hx
    rcases List.mem_cons.mp hx with rfl | hx
    . rcases hor with rfl | hor
      . exact .inl List.mem_cons_self
      . exact .inr hor.2.1
    . exact (h.other x hx).imp_left (List.mem_cons_of_mem _)
  . intro id hid
    rw [nameOf_append_map l.used, nameOf_append_map l'.used]
    by_cases hact : id ∈ act.ids
    . rw [if_pos hact, if_pos ((hids id hid).mp hact)]
      rcases hor with heq | hor
      . exact heq
      . exact absurd hid (hor.2.2 id hact)
    . rw [if_neg hact, if_neg fun hact' => hact ((hids id hid).mpr hact')]
      exact h.named id hid

end Ledger

section Run

variable [DecidableEq ι] {policy policy' : Policy} {l l' lf lf' : Ledger ι} {kept : ι → Prop}
  {Extra : Act ι → Prop} {Other : Spelling → Prop} {acts acts' : List (Act ι)}
  {candidates : Spelling → List Spelling} (hpicks : policy.Picks candidates)
  (hpicks' : policy'.Picks candidates)
  (hextra : ∀ act, Extra act → ∀ l l' : Ledger ι, l.step policy' act = some l' → l.Below kept Other l')

include hpicks hpicks' hextra

/--
The first acts are run as well as the second ones if all candidates of a claim are of the other kind
or none of them is, and none is where something is kept.
-/
theorem Follows.run (hclosed : ∀ raw, ∀ c ∈ candidates raw, Other c → ∀ c' ∈ candidates raw, Other c')
    (h : Follows kept Extra acts acts')
    (hkept : ∀ act ∈ acts, ∀ stem, act.asked = some stem → ∀ id ∈ act.ids, kept id →
      ∀ name, ∀ c ∈ candidates (name ++ stem.suffix), ¬Other c)
    (hbelow : l.Below kept Other l') (hrun : l'.run policy' acts' = some lf')
    : ∃ lf, l.run policy acts = some lf ∧ lf.Below kept Other lf' := by
  induction h generalizing l l' with
  | nil =>
    rw [Ledger.run, Option.some_inj] at hrun
    subst hrun
    exact ⟨l, rfl, hbelow⟩
  | extra hact _ ih =>
    obtain ⟨l₁', hstep', hrun⟩ := Ledger.run_cons_eq_some.mp hrun
    exact ih hkept (hbelow.trans (hextra _ hact _ _ hstep')) hrun
  | @ask act act' stem acts acts' hasked hasked' hbase hids _ ih =>
    rw [List.forall_mem_cons] at hkept
    obtain ⟨l₁', hstep', hrun⟩ := Ledger.run_cons_eq_some.mp hrun
    have hallot' := hstep'
    rw [Ledger.step_of_asked hasked', Option.map_eq_some_iff] at hallot'
    obtain ⟨name', hallot', -⟩ := hallot'
    obtain ⟨name, hallot, hor⟩ := hbelow.allot hpicks hpicks' hbase hallot'
    have hmem : name ∈ candidates (l.raw stem) := by
      rw [hpicks] at hallot
      exact List.mem_of_find?_eq_some hallot
    have hmem' : name' ∈ candidates (l.raw stem) := by
      rw [hpicks', ← hbelow.raw hbase] at hallot'
      exact List.mem_of_find?_eq_some hallot'
    obtain ⟨l₁, _, hstep, hstep'', hbelow₁⟩ := hbelow.step hasked hasked' hids hallot hallot' <| by
      apply hor.imp_right
      rintro ⟨hused, hother⟩
      refine ⟨hused, hclosed _ name hmem hother name' hmem', ?_⟩
      intro id hid hkeep
      exact hkept.1 stem hasked id hid hkeep _ name hmem hother
    rw [hstep', Option.some_inj] at hstep''
    subst hstep''
    obtain ⟨lf, hlf, hbelow'⟩ := ih hkept.2 hbelow₁ hrun
    exact ⟨lf, Ledger.run_cons_eq_some.mpr ⟨l₁, hstep, hlf⟩, hbelow'⟩

/--
The second acts get the same names where no name of the first ones is of the other kind.
-/
theorem Follows.grants_eq (hasked : ∀ act, Extra act → act.asked = none)
    (h : Follows kept Extra acts acts') (hbelow : l.Below kept Other l')
    (hrun : l.run policy acts = some lf) (hfree : ∀ name ∈ lf.used, ¬Other name)
    (hrun' : l'.run policy' acts' = some lf')
    : l'.grants policy' acts' = l.grants policy acts := by
  induction h generalizing l l' with
  | nil => rfl
  | @extra act acts acts' hact _ ih =>
    obtain ⟨l₁', hstep', hrun'⟩ := Ledger.run_cons_eq_some.mp hrun'
    rw [Ledger.grants, hstep', Option.bind_some,
      ih (hbelow.trans (hextra _ hact _ _ hstep')) hrun hrun', Ledger.grant, hasked act hact]
    simp
  | @ask act act' stem acts acts' hstem hstem' hbase hids _ ih =>
    obtain ⟨l₁, hstep, hrun⟩ := Ledger.run_cons_eq_some.mp hrun
    obtain ⟨l₁', hstep', hrun'⟩ := Ledger.run_cons_eq_some.mp hrun'
    have hallot' := hstep'
    rw [Ledger.step_of_asked hstem', Option.map_eq_some_iff] at hallot'
    obtain ⟨name', hallot', -⟩ := hallot'
    obtain ⟨name, hallot, hor⟩ := hbelow.allot hpicks hpicks' hbase hallot'
    have hname : name ∈ lf.used := by
      have hstep := hstep
      rw [Ledger.step_of_asked hstem, hallot, Option.map_some, Option.some_inj] at hstep
      apply Ledger.run_used hrun
      rw [← hstep]
      exact List.mem_cons_self
    have heq : name = name' := hor.resolve_right fun hother => hfree name hname hother.2
    subst heq
    obtain ⟨_, _, hstep₁, hstep₁', hbelow₁⟩ := hbelow.step hstem hstem' hids hallot hallot' (.inl rfl)
    rw [hstep, Option.some_inj] at hstep₁
    rw [hstep', Option.some_inj] at hstep₁'
    subst hstep₁ hstep₁'
    have hgrant : l'.grant policy' act' = l.grant policy act := by
      rw [Ledger.grant, Ledger.grant, hstem, hstem', Option.bind_some, Option.bind_some, hallot, hallot']
    rw [Ledger.grants, Ledger.grants, hstep, hstep', Option.bind_some, Option.bind_some,
      ih hbelow₁ hrun hrun', hgrant]

end Run

end Gremlin.Naming
