import Mathlib.Data.Finset.Card
import Mathlib.Logic.Relation

/-!
This module contains the depth first walk that is kept from what it has seen by a mark of each node.
Nodes with one mark keep it from each other.
-/

namespace Gremlin.Graph

variable {α β γ : Type}

/--
From the nodes `todo` on, where `defined` are the marks that are set, the walk opens `opened`.
-/
inductive Opens (guard : α → γ) (succ : α → List α) : List γ → List α → List α → Prop where
  | nil {defined : List γ} : Opens guard succ defined [] []
  | skip {defined : List γ} {a : α} {todo opened : List α} (h : guard a ∈ defined)
      (hrest : Opens guard succ defined todo opened) : Opens guard succ defined (a :: todo) opened
  | enter {defined : List γ} {a : α} {todo opened : List α} (h : guard a ∉ defined)
      (hrest : Opens guard succ (guard a :: defined) (succ a ++ todo) opened)
      : Opens guard succ defined (a :: todo) (a :: opened)

def openAll [DecidableEq γ] (guard : α → γ) (succ : α → List α)
    : (fuel : Nat) → List γ → List α → Option (List α)
  | _, _, [] => some []
  | 0, _, _ :: _ => none
  | fuel + 1, defined, a :: todo =>
    if guard a ∈ defined then
      openAll guard succ fuel defined todo
    else
      (openAll guard succ fuel (guard a :: defined) (succ a ++ todo)).map (a :: ·)

variable {guard : α → γ} {succ : α → List α} {defined : List γ} {todo opened : List α}

theorem opens_of_openAll [DecidableEq γ] {fuel : Nat}
    (h : openAll guard succ fuel defined todo = some opened) : Opens guard succ defined todo opened := by
  induction fuel generalizing defined todo opened with
  | zero =>
    cases todo with
    | nil =>
      rw [openAll, Option.some_inj] at h
      subst h
      exact .nil
    | cons a todo => simp [openAll] at h
  | succ fuel ih =>
    cases todo with
    | nil =>
      rw [openAll, Option.some_inj] at h
      subst h
      exact .nil
    | cons a todo =>
      rw [openAll] at h
      split at h
      . next hmem => exact .skip hmem (ih h)
      . next hmem =>
        rw [Option.map_eq_some_iff] at h
        obtain ⟨rest, hrest, rfl⟩ := h
        exact .enter hmem (ih hrest)

theorem Opens.unique {opened' : List α} (h : Opens guard succ defined todo opened)
    (h' : Opens guard succ defined todo opened') : opened = opened' := by
  induction h generalizing opened' with
  | nil =>
    cases h'
    rfl
  | skip hmem _ ih =>
    cases h' with
    | skip _ hrest' => exact ih hrest'
    | enter hnot => exact absurd hmem hnot
  | enter hnot _ ih =>
    cases h' with
    | skip hmem => exact absurd hmem hnot
    | enter _ hrest' => rw [ih hrest']

theorem Opens.mem {all : List α} (hall : ∀ a ∈ all, succ a ⊆ all) (h : Opens guard succ defined todo opened)
    (htodo : todo ⊆ all) : opened ⊆ all := by
  induction h with
  | nil => simp
  | skip _ _ ih =>
    rw [List.cons_subset] at htodo
    exact ih htodo.2
  | enter _ _ ih =>
    rw [List.cons_subset] at htodo ⊢
    exact ⟨htodo.1, ih (List.append_subset.mpr ⟨hall _ htodo.1, htodo.2⟩)⟩

variable (guard) in
theorem exists_opens {all : List α} (hall : ∀ a ∈ all, succ a ⊆ all) (defined : List γ)
    (htodo : todo ⊆ all) : ∃ opened, Opens guard succ defined todo opened := by
  classical
  generalize hfree : ((all.map guard).toFinset \ defined.toFinset).card = free
  induction free using Nat.strong_induction_on generalizing defined todo with
  | _ free ih =>
    induction todo with
    | nil => exact ⟨[], .nil⟩
    | cons a todo ihtodo =>
      rw [List.cons_subset] at htodo
      by_cases hmem : guard a ∈ defined
      . obtain ⟨opened, hopened⟩ := ihtodo htodo.2
        exact ⟨opened, .skip hmem hopened⟩
      . have hlt : ((all.map guard).toFinset \ (guard a :: defined).toFinset).card < free := by
          rw [← hfree]
          apply Finset.card_lt_card
          rw [Finset.ssubset_iff_of_subset]
          . refine ⟨guard a, ?_, by simp⟩
            simp only [Finset.mem_sdiff, List.mem_toFinset]
            exact ⟨List.mem_map_of_mem htodo.1, hmem⟩
          . apply Finset.sdiff_subset_sdiff (Finset.Subset.refl _)
            intro x hx
            simp only [List.mem_toFinset, List.mem_cons] at hx ⊢
            exact .inr hx
        obtain ⟨opened, hopened⟩ := ih _ hlt (guard a :: defined)
          (List.append_subset.mpr ⟨hall a htodo.1, htodo.2⟩) rfl
        exact ⟨a :: opened, .enter hmem hopened⟩

/-- Walks over nodes that correspond, with the same marks and successors that correspond, open nodes
that correspond. -/
theorem Opens.simulate {guard' : β → γ} {succ' : β → List β} {R : α → β → Prop}
    (hguard : ∀ a b, R a b → guard a = guard' b)
    (hsucc : ∀ a b, R a b → List.Forall₂ R (succ a) (succ' b))
    (h : Opens guard succ defined todo opened) {todo' : List β} (htodo : List.Forall₂ R todo todo')
    : ∃ opened', Opens guard' succ' defined todo' opened' ∧ List.Forall₂ R opened opened' := by
  induction h generalizing todo' with
  | nil =>
    cases htodo
    exact ⟨[], .nil, .nil⟩
  | skip hmem _ ih =>
    cases htodo with
    | cons hab hrest =>
      obtain ⟨opened', hopened', hforall⟩ := ih hrest
      exact ⟨opened', .skip (hguard _ _ hab ▸ hmem) hopened', hforall⟩
  | enter hnot _ ih =>
    cases htodo with
    | @cons a b _ _ hab hrest =>
      obtain ⟨opened', hopened', hforall⟩ := ih (List.rel_append (hsucc _ _ hab) hrest)
      rw [hguard _ _ hab] at hnot hopened'
      exact ⟨b :: opened', .enter hnot hopened', .cons hab hforall⟩

theorem Opens.reached (h : Opens guard succ defined todo opened) {x : α} (hx : x ∈ opened)
    : ∃ a ∈ todo, Relation.ReflTransGen (fun a b => b ∈ succ a) a x := by
  induction h with
  | nil => simp at hx
  | skip _ _ ih =>
    obtain ⟨a, ha, hpath⟩ := ih hx
    exact ⟨a, List.mem_cons_of_mem _ ha, hpath⟩
  | @enter _ a todo _ _ _ ih =>
    rcases List.mem_cons.mp hx with rfl | hx
    . exact ⟨x, List.mem_cons_self, .refl⟩
    . obtain ⟨b, hb, hpath⟩ := ih hx
      rcases List.mem_append.mp hb with hb | hb
      . exact ⟨a, List.mem_cons_self, .head hb hpath⟩
      . exact ⟨b, List.mem_cons_of_mem _ hb, hpath⟩

/-- Where no two nodes have one mark, what is marked or opened is closed under successors, if this is so
of what is marked but for the nodes that are still to be walked. -/
theorem Opens.closed {all : List α} (hall : ∀ a ∈ all, succ a ⊆ all)
    (hinj : ∀ a ∈ all, ∀ b ∈ all, guard a = guard b → a = b)
    (h : Opens guard succ defined todo opened) (htodo : todo ⊆ all)
    (hdefined : ∀ a ∈ all, guard a ∈ defined → ∀ b ∈ succ a, guard b ∈ defined ∨ b ∈ todo)
    : (∀ a ∈ todo, guard a ∈ defined ∨ a ∈ opened)
        ∧ ∀ a ∈ all, guard a ∈ defined ∨ a ∈ opened → ∀ b ∈ succ a, guard b ∈ defined ∨ b ∈ opened := by
  induction h with
  | nil =>
    refine ⟨by simp, ?_⟩
    intro a ha hseen b hb
    have := hdefined a ha (by simpa using hseen) b hb
    simpa using this
  | @skip defined a todo opened hmem _ ih =>
    rw [List.cons_subset] at htodo
    obtain ⟨hseen, hclosed⟩ := ih htodo.2 (by
      intro c hc hcdefined b hb
      rcases hdefined c hc hcdefined b hb with hb | hb
      . exact .inl hb
      . rcases List.mem_cons.mp hb with rfl | hb
        . exact .inl hmem
        . exact .inr hb)
    refine ⟨?_, hclosed⟩
    rw [List.forall_mem_cons]
    exact ⟨.inl hmem, hseen⟩
  | @enter defined a todo opened hnot _ ih =>
    rw [List.cons_subset] at htodo
    obtain ⟨hseen, hclosed⟩ := ih (List.append_subset.mpr ⟨hall a htodo.1, htodo.2⟩) (by
      intro c hc hcdefined b hb
      rcases List.mem_cons.mp hcdefined with heq | hcdefined
      . rw [hinj c hc a htodo.1 heq] at hb
        exact .inr (List.mem_append_left _ hb)
      . rcases hdefined c hc hcdefined b hb with hb | hb
        . exact .inl (List.mem_cons_of_mem _ hb)
        . rcases List.mem_cons.mp hb with rfl | hb
          . exact .inl List.mem_cons_self
          . exact .inr (List.mem_append_right _ hb))
    -- Guards are not shared, so to be defined now is to be defined before or to be this very one.
    have hiff : ∀ x ∈ all, guard x ∈ guard a :: defined ∨ x ∈ opened
        ↔ guard x ∈ defined ∨ x ∈ a :: opened := by
      intro x hx
      rw [List.mem_cons, List.mem_cons, or_comm (a := guard x = guard a), or_assoc]
      have : guard x = guard a ↔ x = a := ⟨hinj x hx a htodo.1, fun h => by rw [h]⟩
      rw [this]
    refine ⟨?_, ?_⟩
    . rw [List.forall_mem_cons]
      refine ⟨.inr List.mem_cons_self, ?_⟩
      intro x hx
      exact (hiff x (htodo.2 hx)).mp (hseen x (List.mem_append_right _ hx))
    . intro x hx hxseen b hb
      exact (hiff b (hall x hx hb)).mp (hclosed x hx ((hiff x hx).mpr hxseen) b hb)

theorem Opens.mem_iff {all : List α} (hall : ∀ a ∈ all, succ a ⊆ all)
    (hinj : ∀ a ∈ all, ∀ b ∈ all, guard a = guard b → a = b) (h : Opens guard succ [] todo opened)
    (htodo : todo ⊆ all) (x : α)
    : x ∈ opened ↔ ∃ a ∈ todo, Relation.ReflTransGen (fun a b => b ∈ succ a) a x := by
  refine ⟨h.reached, ?_⟩
  rintro ⟨a, ha, hpath⟩
  obtain ⟨hseen, hclosed⟩ := h.closed hall hinj htodo (by simp)
  have hmem : x ∈ all ∧ x ∈ opened := by
    induction hpath with
    | refl => exact ⟨htodo ha, by simpa using hseen a ha⟩
    | tail _ hstep ih =>
      exact ⟨hall _ ih.1 hstep, by simpa using hclosed _ ih.1 (.inr ih.2) _ hstep⟩
  exact hmem.2

end Gremlin.Graph
