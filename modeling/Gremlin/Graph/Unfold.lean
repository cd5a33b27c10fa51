import Mathlib.Data.List.Basic

/-!
This module contains the tree that a node of a graph without cycles unfolds to, and what holds of the
objects that the nodes of the tree own.
-/

namespace Gremlin.Graph.Unfold

variable {α β : Type}

/--
A node and what is below it, once for every way there.
-/
def unfold (succ : α → List α) : (fuel : Nat) → α → List α
  | 0, _ => []
  | fuel + 1, x => x :: (succ x).flatMap (unfold succ fuel)

/--
The nodes of the tree, where the rank of a node bounds its height.
-/
def nodes (succ : α → List α) (rank : α → Nat) (x : α) : List α :=
  unfold succ (rank x + 1) x

def objects (succ : α → List α) (rank : α → Nat) (own : α → List β) (x : α) : List β :=
  (nodes succ rank x).flatMap own

variable {succ : α → List α} {rank : α → Nat}

theorem unfold_eq (hrank : ∀ x, ∀ y ∈ succ x, rank y < rank x) {fuel fuel' : Nat} {x : α} (h : rank x < fuel)
    (h' : rank x < fuel') : unfold succ fuel x = unfold succ fuel' x := by
  induction fuel generalizing fuel' x with
  | zero => omega
  | succ fuel ih =>
    cases fuel' with
    | zero => omega
    | succ fuel' =>
      rw [unfold, unfold]
      congr 1
      apply List.flatMap_congr
      intro y hy
      have hlt := hrank x y hy
      exact ih (by omega) (by omega)

theorem nodes_eq (hrank : ∀ x, ∀ y ∈ succ x, rank y < rank x) (x : α)
    : nodes succ rank x = x :: (succ x).flatMap (nodes succ rank) := by
  rw [nodes, unfold]
  congr 1
  apply List.flatMap_congr
  intro y hy
  exact unfold_eq hrank (hrank x y hy) (Nat.lt_succ_self _)

theorem forall_nodes_iff (hrank : ∀ x, ∀ y ∈ succ x, rank y < rank x) {P : α → Prop} {x : α}
    : (∀ n ∈ nodes succ rank x, P n) ↔ P x ∧ ∀ y ∈ succ x, ∀ n ∈ nodes succ rank y, P n := by
  rw [nodes_eq hrank, List.forall_mem_cons]
  apply and_congr_right'
  simp only [List.mem_flatMap]
  grind

variable {own : α → List β}

theorem objects_eq (hrank : ∀ x, ∀ y ∈ succ x, rank y < rank x) (x : α)
    : objects succ rank own x = own x ++ (succ x).flatMap (objects succ rank own) := by
  unfold objects
  rw [nodes_eq hrank, List.flatMap_cons, List.flatMap_assoc]

theorem forall_objects_iff (hrank : ∀ x, ∀ y ∈ succ x, rank y < rank x) {P : β → Prop} {x : α}
    : (∀ b ∈ objects succ rank own x, P b)
        ↔ (∀ b ∈ own x, P b) ∧ ∀ y ∈ succ x, ∀ b ∈ objects succ rank own y, P b := by
  rw [objects_eq hrank]
  simp only [List.mem_append, List.mem_flatMap]
  grind

theorem pairwise_objects_iff (hrank : ∀ x, ∀ y ∈ succ x, rank y < rank x) {R : β → β → Prop} {x : α}
    : (objects succ rank own x).Pairwise R
        ↔ (own x).Pairwise R
          ∧ (∀ y ∈ succ x, (objects succ rank own y).Pairwise R)
          ∧ (∀ y ∈ succ x, ∀ a ∈ own x, ∀ b ∈ objects succ rank own y, R a b)
          ∧ (succ x).Pairwise fun y z => ∀ a ∈ objects succ rank own y, ∀ b ∈ objects succ rank own z, R a b := by
  rw [objects_eq hrank, List.pairwise_append, List.pairwise_flatMap]
  simp only [List.mem_flatMap]
  grind

/--
The tree of a node in the tree of another one is part of it.
-/
theorem nodes_subset (hrank : ∀ x, ∀ y ∈ succ x, rank y < rank x) {x y : α} (h : y ∈ nodes succ rank x)
    : nodes succ rank y ⊆ nodes succ rank x := by
  induction hx : rank x using Nat.strongRecOn generalizing x with
  | ind r ih =>
    rw [nodes_eq hrank x] at h ⊢
    rcases List.mem_cons.mp h with rfl | h
    . rw [nodes_eq hrank y]
      exact List.Subset.refl _
    . obtain ⟨z, hz, hy⟩ := List.mem_flatMap.mp h
      intro n hn
      exact List.mem_cons_of_mem _ (List.mem_flatMap.mpr ⟨z, hz, ih (rank z) (hx ▸ hrank x z hz) hy rfl hn⟩)

/-! What is said of a node and of each node below it. -/

def Every (succ : α → List α) (P : α → Prop) : (fuel : Nat) → α → Prop
  | 0, _ => True
  | fuel + 1, x => P x ∧ ∀ y ∈ succ x, Every succ P fuel y

theorem every_iff {P : α → Prop} {fuel : Nat} {x : α} : Every succ P fuel x ↔ ∀ y ∈ unfold succ fuel x, P y := by
  induction fuel generalizing x with
  | zero => simp [Every, unfold]
  | succ fuel ih =>
    rw [Every, unfold, List.forall_mem_cons]
    apply and_congr_right'
    simp only [ih, List.mem_flatMap]
    grind

/--
Two graphs with the same edges from the nodes of a tree have the same tree.
-/
theorem unfold_congr {succ' : α → List α} {fuel : Nat} {x : α} (h : ∀ y ∈ unfold succ fuel x, succ y = succ' y)
    : unfold succ fuel x = unfold succ' fuel x := by
  induction fuel generalizing x with
  | zero => rfl
  | succ fuel ih =>
    rw [unfold, List.forall_mem_cons] at h
    rw [unfold, unfold, ← h.1]
    congr 1
    apply List.flatMap_congr
    intro y hy
    apply ih
    intro z hz
    exact h.2 z (List.mem_flatMap.mpr ⟨y, hy, hz⟩)

end Gremlin.Graph.Unfold
