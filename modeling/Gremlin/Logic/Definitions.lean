import Mathlib.Data.List.Induction
import Mathlib.Logic.Function.Basic
import Mathlib.Order.Defs.PartialOrder

/-!
This module contains lists of definitions that refer to each other by name: how they are made one
after the other, and what they mean when each of them is read with those before it.
-/

namespace Gremlin.Logic

variable {ν δ τ : Type}

/--
The meanings of the names, where each body is read with the definitions before it.
-/
def denote [DecidableEq ν] (eval : (ν → τ) → ν → δ → τ) (undefined : τ) (defs : List (ν × δ)) : ν → τ :=
  defs.foldl (fun env d => Function.update env d.1 (eval env d.1 d.2)) fun _ => undefined

/--
Every name is defined once, and what a body refers to is defined before it.
-/
structure Ordered (refs : δ → List ν) (defs : List (ν × δ)) : Prop where
  nodup : (defs.map Prod.fst).Nodup
  refs_subset : ∀ before d behind, defs = before ++ d :: behind → refs d.2 ⊆ before.map Prod.fst

/--
A body depends on nothing but the names it refers to.
-/
def Local (eval : (ν → τ) → ν → δ → τ) (refs : δ → List ν) : Prop :=
  ∀ env env' n d, (∀ m ∈ refs d, env m = env' m) → eval env n d = eval env' n d

section Denote

variable [DecidableEq ν] {eval : (ν → τ) → ν → δ → τ} {undefined : τ} {refs : δ → List ν}

theorem denote_concat (defs : List (ν × δ)) (d : ν × δ)
    : denote eval undefined (defs ++ [d])
        = Function.update (denote eval undefined defs) d.1 (eval (denote eval undefined defs) d.1 d.2) := by
  rw [denote, List.foldl_append]
  rfl

theorem denote_append_of_not_mem {defs behind : List (ν × δ)} {n : ν} (h : n ∉ behind.map Prod.fst)
    : denote eval undefined (defs ++ behind) n = denote eval undefined defs n := by
  induction behind using List.reverseRecOn with
  | nil => rw [List.append_nil]
  | append_singleton behind d ih =>
    rw [List.map_append, List.mem_append, not_or, List.map_singleton, List.mem_singleton] at h
    rw [← List.append_assoc, denote_concat, Function.update_of_ne h.2, ih h.1]

/--
Definitions in order satisfy the equations that they are written as.
-/
theorem Ordered.denote_eq {defs : List (ν × δ)} (h : Ordered refs defs) (hlocal : Local eval refs) {n : ν} {d : δ}
    (hmem : (n, d) ∈ defs) : denote eval undefined defs n = eval (denote eval undefined defs) n d := by
  obtain ⟨before, behind, rfl⟩ := List.append_of_mem hmem
  have hnodup := h.nodup
  rw [List.map_append, List.map_cons, List.nodup_append] at hnodup
  obtain ⟨-, hbehind, hapart⟩ := hnodup
  rw [List.nodup_cons] at hbehind
  have hsplit : before ++ (n, d) :: behind = before ++ [(n, d)] ++ behind := by simp
  have hrefs := h.refs_subset before (n, d) behind rfl
  rw [hsplit, denote_append_of_not_mem hbehind.1, denote_concat, Function.update_self]
  apply hlocal
  intro m hm
  -- What the body refers to is not defined again behind it.
  have hbefore := hrefs hm
  have hne : m ≠ n := hapart m hbefore n List.mem_cons_self
  have hnot : m ∉ behind.map Prod.fst := fun hmem => hapart m hbefore m (List.mem_cons_of_mem _ hmem) rfl
  rw [denote_append_of_not_mem hnot, denote_concat, Function.update_of_ne hne]

end Denote

section Emit

variable (body : List ν → ν → Option δ)

/--
Make the definitions of a list of names. A body is made with the names that are defined so far.
-/
def emit : List (ν × δ) → List ν → Option (List (ν × δ))
  | defs, [] => some defs
  | defs, n :: names => (body (defs.map Prod.fst) n).bind fun d => emit (defs ++ [(n, d)]) names

variable {body}

/--
Every definition was made with the names that are defined before it.
-/
def MadeInOrder (body : List ν → ν → Option δ) (defs : List (ν × δ)) : Prop :=
  ∀ before d behind, defs = before ++ d :: behind → body (before.map Prod.fst) d.1 = some d.2

theorem MadeInOrder.concat {defs : List (ν × δ)} {n : ν} {d : δ} (h : MadeInOrder body defs)
    (hbody : body (defs.map Prod.fst) n = some d) : MadeInOrder body (defs ++ [(n, d)]) := by
  intro before e behind heq
  rcases List.eq_nil_or_concat behind with rfl | ⟨behind, x, rfl⟩
  . obtain ⟨hdefs, hd⟩ := List.append_inj' heq rfl
    rw [List.singleton_inj] at hd
    rw [← hdefs, ← hd]
    exact hbody
  . rw [List.concat_eq_append, ← List.cons_append, ← List.append_assoc] at heq
    obtain ⟨heq, -⟩ := List.append_inj' heq rfl
    exact h before e behind heq

/--
Definitions of a list of names can be made if each of them can be made behind those of the names before.
-/
theorem exists_emit {names : List ν} (defs : List (ν × δ)) (hdefs : MadeInOrder body defs)
    (h : ∀ before n behind, names = before ++ n :: behind
      → ∃ d, body (defs.map Prod.fst ++ before) n = some d)
    : ∃ defs', emit body defs names = some defs' ∧ defs'.map Prod.fst = defs.map Prod.fst ++ names
      ∧ MadeInOrder body defs' := by
  induction names generalizing defs with
  | nil => exact ⟨defs, rfl, (List.append_nil _).symm, hdefs⟩
  | cons n names ih =>
    obtain ⟨d, hd⟩ := h [] n names rfl
    rw [List.append_nil] at hd
    have hmap : (defs ++ [(n, d)]).map Prod.fst = defs.map Prod.fst ++ [n] := by simp
    have hnext : ∀ before n' behind, names = before ++ n' :: behind
        → ∃ d', body ((defs ++ [(n, d)]).map Prod.fst ++ before) n' = some d' := by
      intro before n' behind heq
      obtain ⟨d', hd'⟩ := h (n :: before) n' behind (by rw [heq, List.cons_append])
      refine ⟨d', ?_⟩
      rwa [hmap, List.append_assoc, List.singleton_append]
    obtain ⟨defs', hemit, hnames, hmade⟩ := ih _ (hdefs.concat hd) hnext
    refine ⟨defs', ?_, ?_, hmade⟩
    . rw [emit, hd, Option.bind_some, hemit]
    . rw [hnames, hmap, List.append_assoc, List.singleton_append]

end Emit

/--
In a list that is sorted by rank, what has a smaller rank than an element stands before it.
-/
theorem mem_before_of_rank_lt {α ρ : Type} [Preorder ρ] {rank : α → ρ} {l before behind : List α} {x y : α}
    (hsorted : l.Pairwise fun a b => rank a ≤ rank b) (hl : l = before ++ x :: behind) (hy : y ∈ l)
    (hlt : rank y < rank x) : y ∈ before := by
  subst hl
  rw [List.pairwise_append, List.pairwise_cons] at hsorted
  rcases List.mem_append.mp hy with hy | hy
  . exact hy
  . rcases List.mem_cons.mp hy with rfl | hy
    . exact (lt_irrefl _ hlt).elim
    . exact (not_lt_of_ge (hsorted.2.1.1 y hy) hlt).elim

end Gremlin.Logic
