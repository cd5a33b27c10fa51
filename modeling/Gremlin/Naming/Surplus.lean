import Gremlin.Naming.Follows
import Mathlib.Data.List.TakeWhile

/-!
This module contains the names that are in use only because some of the claims are made, and what leaving
these claims out changes for the others.
-/

namespace Gremlin.Naming

variable {ι : Type} [DecidableEq ι]

namespace Ledger

/--
The candidates of a claim that are passed over since they are in use.
-/
def passed (candidates : Spelling → List Spelling) (l : Ledger ι) (stem : Stem ι) : List Spelling :=
  (candidates (l.raw stem)).takeWhile fun name => l.used.contains name

/--
The names that are in use after an act only because of the extra ones. A name that is given to an extra
claim is. Another claim that passes over such names would have got the first of them: this one would be in
use anyway, and the one that is given instead would not.
-/
def surplus (policy : Policy) (candidates : Spelling → List Spelling) (extra : Act ι → Bool) (l : Ledger ι)
    (names : List Spelling) (act : Act ι) : List Spelling :=
  match l.grant policy act with
  | none => names
  | some (stem, name) =>
    if extra act then
      name :: names
    else
      match (l.passed candidates stem).find? fun name => names.contains name with
      | none => names
      | some first => name :: names.filter (· ≠ first)

/--
No claim of a wanted name passes over a name that is in use only because of the extra acts.
-/
def Undisturbed (policy : Policy) (candidates : Spelling → List Spelling) (extra : Act ι → Bool)
    (wanted : Stem ι → Bool) : Ledger ι → List Spelling → List (Act ι) → Prop
  | _, _, [] => True
  | l, names, act :: acts =>
    (∀ stem, act.asked = some stem → wanted stem = true → ∀ name ∈ l.passed candidates stem, name ∉ names)
      ∧ ∀ l', l.step policy act = some l' →
        Undisturbed policy candidates extra wanted l' (l.surplus policy candidates extra names act) acts

/--
What is in use in `l'` is in use in `l` or is one of the names. They agree about what is kept.
-/
structure Apart (kept : ι → Prop) (Other : Spelling → Prop) (names : List Spelling) (l l' : Ledger ι)
    : Prop where
  used : ∀ name, name ∈ l'.used ↔ name ∈ l.used ∨ name ∈ names
  fresh : ∀ name ∈ names, name ∉ l.used
  other : ∀ name ∈ names, Other name
  named : ∀ id, kept id → l.nameOf id = l'.nameOf id

end Ledger

theorem find?_of_apart {used used' names : List Spelling}
    (hused : ∀ name, name ∈ used' ↔ name ∈ used ∨ name ∈ names) (hfresh : ∀ name ∈ names, name ∉ used)
    (candidates : List Spelling)
    : candidates.find? (fun name => name ∉ used)
        = ((candidates.takeWhile fun name => used'.contains name).find? fun name => names.contains name).or
            (candidates.find? fun name => name ∉ used') := by
  induction candidates with
  | nil => rfl
  | cons c candidates ih =>
    by_cases hc' : c ∈ used'
    . rw [List.takeWhile_cons_of_pos (by simpa using hc'),
        List.find?_cons_of_neg (p := fun name => decide (name ∉ used')) (by simpa using hc')]
      by_cases hname : c ∈ names
      . rw [List.find?_cons_of_pos (by simpa using hfresh c hname), List.find?_cons_of_pos (by simpa using hname),
          Option.some_or]
      . have hc := ((hused c).mp hc').resolve_right hname
        rw [List.find?_cons_of_neg (by simpa using hc), List.find?_cons_of_neg (by simpa using hname), ih]
    . have hc : c ∉ used := fun h => hc' ((hused c).mpr (.inl h))
      rw [List.takeWhile_cons_of_neg (by simpa using hc'), List.find?_cons_of_pos (by simpa using hc),
        List.find?_cons_of_pos (by simpa using hc'), List.find?_nil, Option.none_or]

namespace Ledger

variable {policy : Policy} {candidates : Spelling → List Spelling} {extra : Act ι → Bool}
  {wanted : Stem ι → Bool} {kept : ι → Prop} {Other : Spelling → Prop} {names : List Spelling}
  {l l' lf' : Ledger ι} {act : Act ι} {acts : List (Act ι)} {stem : Stem ι} {name' : Spelling}

theorem Apart.refl : l.Apart kept Other [] l where
  used := by simp
  fresh := by simp
  other := by simp
  named _ _ := rfl

theorem Apart.raw (h : l.Apart kept Other names l') (hbase : kept stem.base) : l.raw stem = l'.raw stem := by
  unfold Ledger.raw
  rw [h.named _ hbase]

theorem grant_of_asked (hasked : act.asked = some stem)
    : l.grant policy act = (policy.allot l.used (l.raw stem)).map fun name => (stem, name) := by
  rw [grant, hasked, Option.bind_some]

/--
Without the extra names a claim gets the first one of them that it passes over.
-/
theorem Apart.allot (h : l.Apart kept Other names l') (hpicks : policy.Picks candidates)
    (hbase : kept stem.base)
    : policy.allot l.used (l.raw stem)
        = ((l'.passed candidates stem).find? fun name => names.contains name).or
            (policy.allot l'.used (l'.raw stem)) := by
  rw [Policy.picks_iff] at hpicks
  rw [hpicks, hpicks, h.raw hbase, passed, find?_of_apart h.used h.fresh]

theorem mem_used_of_passed {name : Spelling} (h : name ∈ l.passed candidates stem) : name ∈ l.used := by
  simpa using List.mem_takeWhile_imp h

theorem fresh_of_allot (hpicks : policy.Picks candidates)
    (hallot : policy.allot l.used (l.raw stem) = some name') : name' ∉ l.used := by
  rw [Policy.picks_iff.mp hpicks] at hallot
  simpa using List.find?_some hallot

/--
An extra act adds its name to the extra ones.
-/
theorem Apart.step_extra (h : l.Apart kept Other names l') (hpicks : policy.Picks candidates)
    (hasked : act.asked = some stem) (hids : act.ids = [])
    (hallot : policy.allot l'.used (l'.raw stem) = some name') (hother : Other name') {l₁' : Ledger ι}
    (hstep : l'.step policy act = some l₁') : l.Apart kept Other (name' :: names) l₁' := by
  have hfree := fresh_of_allot hpicks hallot
  rw [step_of_asked hasked, hallot, Option.map_some, Option.some_inj, hids] at hstep
  subst hstep
  refine ⟨?_, ?_, ?_, h.named⟩
  . intro name
    rw [List.mem_cons, List.mem_cons, h.used, or_left_comm]
  . rw [List.forall_mem_cons]
    exact ⟨fun hmem => hfree ((h.used name').mpr (.inl hmem)), h.fresh⟩
  . rw [List.forall_mem_cons]
    exact ⟨hother, h.other⟩

/--
A claim that passes over no extra name gets the same name with and without them.
-/
theorem Apart.step_same (h : l.Apart kept Other names l') (hpicks : policy.Picks candidates)
    (hallot : policy.allot l'.used (l'.raw stem) = some name')
    : Apart kept Other names ⟨name' :: l.used, act.ids.map (fun id => (id, name')) ++ l.defs⟩
        ⟨name' :: l'.used, act.ids.map (fun id => (id, name')) ++ l'.defs⟩ := by
  have hfree := fresh_of_allot hpicks hallot
  refine ⟨?_, ?_, h.other, ?_⟩
  . intro name
    rw [List.mem_cons, List.mem_cons, h.used, or_assoc]
  . intro name hname hmem
    rcases List.mem_cons.mp hmem with rfl | hmem
    . exact hfree ((h.used name).mpr (.inr hname))
    . exact h.fresh name hname hmem
  . intro id hid
    rw [nameOf_append_map l.used, nameOf_append_map l'.used, h.named id hid]

/--
A claim that passes over an extra name gives it up, and makes an extra name of what it gets.
-/
theorem Apart.step_shifted (h : l.Apart kept Other names l') (hpicks : policy.Picks candidates)
    (hallot : policy.allot l'.used (l'.raw stem) = some name') {first : Spelling} (hfirst : first ∈ names)
    (hother : Other name') (hids : ∀ id ∈ act.ids, ¬kept id)
    : Apart kept Other (name' :: names.filter (· ≠ first))
        ⟨first :: l.used, act.ids.map (fun id => (id, first)) ++ l.defs⟩
        ⟨name' :: l'.used, act.ids.map (fun id => (id, name')) ++ l'.defs⟩ := by
  have hfree := fresh_of_allot hpicks hallot
  have hfirst' : first ∈ l'.used := (h.used first).mpr (.inr hfirst)
  have hne : name' ≠ first := by
    rintro rfl
    exact hfree hfirst'
  refine ⟨?_, ?_, ?_, ?_⟩
  . intro name
    simp only [List.mem_cons, List.mem_filter, decide_eq_true_eq, h.used]
    by_cases heq : name = first
    . subst heq
      simp [hfirst]
    . simp only [heq, false_or, not_false_eq_true, and_true, ne_eq]
      exact or_left_comm
  . rw [List.forall_mem_cons, List.mem_cons, not_or]
    refine ⟨⟨hne, fun hmem => hfree ((h.used name').mpr (.inl hmem))⟩, ?_⟩
    intro name hname
    rw [List.mem_filter, decide_eq_true_eq] at hname
    rw [List.mem_cons, not_or]
    exact ⟨hname.2, h.fresh name hname.1⟩
  . rw [List.forall_mem_cons]
    exact ⟨hother, fun name hname => h.other name (List.mem_of_mem_filter hname)⟩
  . intro id hid
    rw [nameOf_append_map l.used, nameOf_append_map l'.used, if_neg fun hact => hids id hact hid,
      if_neg fun hact => hids id hact hid, h.named id hid]

theorem surplus_of_grant (hgrant : l'.grant policy act = some (stem, name'))
    : l'.surplus policy candidates extra names act
        = if extra act then
            name' :: names
          else
            match (l'.passed candidates stem).find? fun name => names.contains name with
            | none => names
            | some first => name' :: names.filter (· ≠ first) := by
  rw [surplus, hgrant]

/--
What a claim that is not extra gets with and without the extra names.
-/
theorem Apart.step (h : l.Apart kept Other names l') (hpicks : policy.Picks candidates)
    (hclosed : ∀ raw, ∀ c ∈ candidates raw, Other c → ∀ c' ∈ candidates raw, Other c')
    (hkept : ∀ id ∈ act.ids, kept id → ∀ name, ∀ c ∈ candidates (name ++ stem.suffix), ¬Other c)
    (hasked : act.asked = some stem) (hbase : kept stem.base) (hextra : extra act = false)
    {l₁' : Ledger ι} (hstep : l'.step policy act = some l₁')
    (hallot : policy.allot l'.used (l'.raw stem) = some name')
    : ∃ l₁ name, l.step policy act = some l₁ ∧ l.grant policy act = some (stem, name)
        ∧ l₁.Apart kept Other (l'.surplus policy candidates extra names act) l₁'
        ∧ (name = name' ↔ ∀ passed ∈ l'.passed candidates stem, passed ∉ names) := by
  have hallot₀ := h.allot hpicks hbase
  have hgrant' : l'.grant policy act = some (stem, name') := by rw [grant_of_asked hasked, hallot, Option.map_some]
  rw [step_of_asked hasked, hallot, Option.map_some, Option.some_inj] at hstep
  subst hstep
  rw [grant_of_asked hasked, step_of_asked hasked, surplus_of_grant hgrant', if_neg (by simp [hextra])]
  rw [hallot] at hallot₀
  cases hfind : (l'.passed candidates stem).find? fun name => names.contains name with
  | none =>
    rw [hfind, Option.none_or] at hallot₀
    rw [hallot₀]
    refine ⟨_, name', rfl, rfl, h.step_same hpicks hallot, iff_of_true rfl ?_⟩
    intro passed hpassed hmem
    have := List.find?_eq_none.mp hfind passed hpassed
    simp [hmem] at this
  | some first =>
    rw [hfind, Option.some_or] at hallot₀
    rw [hallot₀]
    have hpassed := List.mem_of_find?_eq_some hfind
    have hfirst : first ∈ names := by simpa using List.find?_some hfind
    have hmem : first ∈ candidates (l'.raw stem) := List.takeWhile_subset _ hpassed
    have hmem' : name' ∈ candidates (l'.raw stem) := by
      rw [hpicks] at hallot
      exact List.mem_of_find?_eq_some hallot
    have hother := hclosed _ first hmem (h.other first hfirst) name' hmem'
    refine ⟨_, first, rfl, rfl, ?_, iff_of_false ?_ ?_⟩
    . apply h.step_shifted hpicks hallot hfirst hother
      intro id hid hkeep
      exact hkept id hid hkeep _ first hmem (h.other first hfirst)
    . rintro rfl
      exact fresh_of_allot hpicks hallot (mem_used_of_passed hpassed)
    . intro hall
      exact hall first hpassed hfirst

theorem grants_cons {l₁ : Ledger ι} (hstep : l.step policy act = some l₁)
    : l.grants policy (act :: acts)
        = (l₁.grants policy acts).map fun rest => (l.grant policy act).toList ++ rest := by
  rw [grants, hstep, Option.bind_some]

theorem undisturbed_cons {l₁' : Ledger ι} (hasked : act.asked = some stem)
    (hstep : l'.step policy act = some l₁')
    : Undisturbed policy candidates extra wanted l' names (act :: acts)
        ↔ (wanted stem = true → ∀ name ∈ l'.passed candidates stem, name ∉ names)
          ∧ Undisturbed policy candidates extra wanted l₁' (l'.surplus policy candidates extra names act) acts := by
  simp only [Undisturbed, hasked, hstep, Option.some_inj, forall_eq']

/--
The wanted names are the same without the extra acts exactly where these disturb none of them.
-/
theorem Apart.undisturbed_iff (hpicks : policy.Picks candidates)
    (hclosed : ∀ raw, ∀ c ∈ candidates raw, Other c → ∀ c' ∈ candidates raw, Other c')
    (hacts : ∀ act ∈ acts, ∃ stem, act.asked = some stem ∧ kept stem.base
      ∧ ∀ id ∈ act.ids, kept id → ∀ name, ∀ c ∈ candidates (name ++ stem.suffix), ¬Other c)
    (hextra : ∀ act ∈ acts, extra act = true → act.ids = [] ∧ ∀ stem, act.asked = some stem →
      wanted stem = false ∧ ∀ name, ∀ c ∈ candidates (name ++ stem.suffix), Other c)
    (h : l.Apart kept Other names l') (hrun : l'.run policy acts = some lf')
    : ∃ given given', l.grants policy (acts.filter fun act => !extra act) = some given
        ∧ l'.grants policy acts = some given'
        ∧ (given'.filter (fun g => wanted g.1) = given.filter (fun g => wanted g.1)
          ↔ Undisturbed policy candidates extra wanted l' names acts) := by
  induction acts generalizing l l' names with
  | nil => exact ⟨[], [], rfl, rfl, iff_of_true rfl trivial⟩
  | cons act acts ih =>
    rw [List.forall_mem_cons] at hacts hextra
    obtain ⟨⟨stem, hasked, hbase, hkept⟩, hacts⟩ := hacts
    obtain ⟨l₁', hstep', hrun⟩ := run_cons_eq_some.mp hrun
    have hallot' := hstep'
    rw [step_of_asked hasked, Option.map_eq_some_iff] at hallot'
    obtain ⟨name', hallot', -⟩ := hallot'
    have hgrant' : l'.grant policy act = some (stem, name') := by
      rw [grant_of_asked hasked, hallot', Option.map_some]
    rw [undisturbed_cons hasked hstep', grants_cons hstep', hgrant']
    cases hact : extra act with
    | true =>
      obtain ⟨hids, hstem⟩ := hextra.1 hact
      obtain ⟨hnot, hother⟩ := hstem stem hasked
      have hother' : Other name' := by
        rw [hpicks] at hallot'
        exact hother _ name' (List.mem_of_find?_eq_some hallot')
      obtain ⟨given, given', hgiven, hgiven', hiff⟩ :=
        ih hacts hextra.2 (h.step_extra hpicks hasked hids hallot' hother' hstep') hrun
      refine ⟨given, (stem, name') :: given', ?_, ?_, ?_⟩
      . rw [List.filter_cons_of_neg (by simp [hact])]
        exact hgiven
      . rw [hgiven']
        rfl
      . rw [List.filter_cons_of_neg (by simp [hnot]), hiff, surplus_of_grant hgrant', if_pos hact]
        simp [hnot]
    | false =>
      obtain ⟨l₁, name, hstep, hgrant, hapart, hsame⟩ :=
        h.step hpicks hclosed hkept hasked hbase hact hstep' hallot'
      obtain ⟨given, given', hgiven, hgiven', hiff⟩ := ih hacts hextra.2 hapart hrun
      refine ⟨(stem, name) :: given, (stem, name') :: given', ?_, ?_, ?_⟩
      . rw [List.filter_cons_of_pos (by simp [hact]), grants_cons hstep, hgrant, hgiven]
        rfl
      . rw [hgiven']
        rfl
      . rw [← hiff, ← hsame]
        cases hwanted : wanted stem with
        | true =>
          rw [List.filter_cons_of_pos (by simpa using hwanted), List.filter_cons_of_pos (by simpa using hwanted)]
          simp only [List.cons.injEq, Prod.mk.injEq, true_and, forall_const]
          rw [eq_comm (a := name')]
        | false =>
          rw [List.filter_cons_of_neg (by simp [hwanted]), List.filter_cons_of_neg (by simp [hwanted])]
          simp

end Ledger

end Gremlin.Naming
