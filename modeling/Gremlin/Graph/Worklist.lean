import Mathlib.Data.List.Nodup
import Mathlib.Data.List.Perm.Subperm
import Mathlib.Logic.Relation

/-!
This module contains the closure of a list under successors by a worklist: a buffer of bounded
length, which is extended while it is scanned and where no element is put twice.
-/

namespace Gremlin.Graph.Worklist

variable {α : Type}

/--
Append an element that is not there yet. There is no result if the buffer is full.
-/
def push [DecidableEq α] (limit : Nat) (buf : List α) (x : α) : Option (List α) :=
  if x ∈ buf then
    some buf
  else if buf.length < limit then
    some (buf ++ [x])
  else
    none

def pushAll [DecidableEq α] (limit : Nat) (buf : List α) : List α → Option (List α)
  | [] => some buf
  | x :: xs => (push limit buf x).bind fun buf => pushAll limit buf xs

/--
Scan the buffer from an index on, and append the successors of what is scanned.
-/
def expand [DecidableEq α] (succ : α → List α) (limit : Nat)
    : (fuel processing : Nat) → List α → Option (List α)
  | 0, _, _ => none
  | fuel + 1, processing, buf =>
    match buf[processing]? with
    | none => some buf
    | some cur => (pushAll limit buf (succ cur)).bind (expand succ limit fuel (processing + 1))

/--
`buf'` is `buf` with the elements `new` appended that were not there.
-/
structure Grown (buf new buf' : List α) : Prop where
  isPrefix : buf <+: buf'
  nodup : buf'.Nodup
  mem_iff : ∀ x, x ∈ buf' ↔ x ∈ buf ∨ x ∈ new

theorem Grown.subset {buf new buf' all : List α} (h : Grown buf new buf') (hbuf : buf ⊆ all)
    (hnew : new ⊆ all) : buf' ⊆ all := by
  intro x hx
  rcases (h.mem_iff x).mp hx with hx | hx
  . exact hbuf hx
  . exact hnew hx

theorem push_grown [DecidableEq α] {all buf : List α} {x : α} (hnodup : buf.Nodup) (hbuf : buf ⊆ all) (hx : x ∈ all)
    : ∃ buf', push all.length buf x = some buf' ∧ Grown buf [x] buf' := by
  unfold push
  split
  . next hmem =>
    refine ⟨buf, rfl, List.prefix_rfl, hnodup, ?_⟩
    intro y
    rw [List.mem_singleton, or_iff_left_of_imp]
    rintro rfl
    exact hmem
  . next hmem =>
    have hnodup' : (buf ++ [x]).Nodup := by
      rw [List.nodup_append]
      refine ⟨hnodup, by simp, ?_⟩
      intro y hy z hz heq
      rw [List.mem_singleton] at hz
      exact hmem (hz ▸ heq ▸ hy)
    have hlength : (buf ++ [x]).length ≤ all.length := by
      apply (List.Nodup.subperm hnodup' ?_).length_le
      simp [hbuf, hx]
    rw [List.length_append, List.length_singleton] at hlength
    rw [if_pos (by omega)]
    exact ⟨_, rfl, List.prefix_append _ _, hnodup', fun y => by simp⟩

theorem pushAll_grown [DecidableEq α] {all buf new : List α} (hnodup : buf.Nodup)
    (hbuf : buf ⊆ all) (hnew : new ⊆ all) : ∃ buf', pushAll all.length buf new = some buf' ∧ Grown buf new buf' := by
  induction new generalizing buf with
  | nil => exact ⟨buf, rfl, List.prefix_rfl, hnodup, fun y => by simp⟩
  | cons x xs ih =>
    rw [List.cons_subset] at hnew
    obtain ⟨buf', hpush, hgrown⟩ := push_grown hnodup hbuf hnew.1
    have hsub := hgrown.subset hbuf (by simpa using hnew.1)
    obtain ⟨buf'', hall, hgrown'⟩ := ih hgrown.nodup hsub hnew.2
    refine ⟨buf'', ?_, hgrown.isPrefix.trans hgrown'.isPrefix, hgrown'.nodup, ?_⟩
    . rw [pushAll, hpush, Option.bind_some, hall]
    . intro y
      rw [hgrown'.mem_iff, hgrown.mem_iff, List.mem_singleton, List.mem_cons, or_assoc]

/--
What the scan leaves: everything that is reached from the elements of the buffer, once.
-/
structure Closure (succ : α → List α) (buf buf' : List α) : Prop where
  isPrefix : buf <+: buf'
  nodup : buf'.Nodup
  mem_iff : ∀ x, x ∈ buf' ↔ ∃ y ∈ buf, Relation.ReflTransGen (fun a b => b ∈ succ a) y x

variable {succ : α → List α}

theorem closure_refl {buf : List α} (hnodup : buf.Nodup) (hclosed : ∀ x ∈ buf, succ x ⊆ buf)
    : Closure succ buf buf := by
  refine ⟨List.prefix_rfl, hnodup, ?_⟩
  intro x
  constructor
  . intro hx
    exact ⟨x, hx, .refl⟩
  . rintro ⟨y, hy, hpath⟩
    induction hpath with
    | refl => exact hy
    | tail _ hstep ih => exact hclosed _ ih hstep

theorem Closure.of_grown {buf buf' buf'' : List α} {cur : α} (hcur : cur ∈ buf)
    (hgrown : Grown buf (succ cur) buf') (h : Closure succ buf' buf'')
    : Closure succ buf buf'' := by
  refine ⟨hgrown.isPrefix.trans h.isPrefix, h.nodup, ?_⟩
  intro x
  rw [h.mem_iff]
  constructor
  . rintro ⟨y, hy, hpath⟩
    rcases (hgrown.mem_iff y).mp hy with hy | hy
    . exact ⟨y, hy, hpath⟩
    . exact ⟨cur, hcur, .head hy hpath⟩
  . rintro ⟨y, hy, hpath⟩
    exact ⟨y, hgrown.isPrefix.subset hy, hpath⟩

/--
The scan ends within its buffer. The elements it does not look at must have their successors in the
buffer.
-/
theorem expand_closure [DecidableEq α] {all : List α} (hall : ∀ x ∈ all, succ x ⊆ all)
    {fuel processing : Nat} {buf : List α} (hfuel : all.length < fuel + processing)
    (hprocessing : processing ≤ buf.length)
    (hnodup : buf.Nodup) (hbuf : buf ⊆ all)
    (hdone : ∀ i < processing, ∀ x, buf[i]? = some x → succ x ⊆ buf)
    : ∃ buf', expand succ all.length fuel processing buf = some buf' ∧ Closure succ buf buf' := by
  induction fuel generalizing processing buf with
  | zero =>
    have := (hnodup.subperm hbuf).length_le
    omega
  | succ fuel ih =>
    unfold expand
    split
    . next heq =>
      refine ⟨buf, rfl, closure_refl hnodup ?_⟩
      intro x hx
      obtain ⟨i, hi, rfl⟩ := List.getElem_of_mem hx
      rw [List.getElem?_eq_none_iff] at heq
      exact hdone i (by omega) _ (List.getElem?_eq_getElem hi)
    . next cur heq =>
      have hcur := List.mem_of_getElem? heq
      have hlt := (List.getElem?_eq_some_iff.mp heq).1
      obtain ⟨buf', hpush, hgrown⟩ := pushAll_grown hnodup hbuf (hall cur (hbuf hcur))
      have hlength := hgrown.isPrefix.length_le
      have hdone' : ∀ i < processing + 1, ∀ x, buf'[i]? = some x → succ x ⊆ buf' := by
        intro i hi x hx
        rw [List.getElem?_eq_getElem (by omega), ← hgrown.isPrefix.getElem (by omega),
          ← List.getElem?_eq_getElem] at hx
        by_cases hi' : i < processing
        . exact List.Subset.trans (hdone i hi' x hx) hgrown.isPrefix.subset
        . have : i = processing := by omega
          subst this
          rw [heq, Option.some_inj] at hx
          subst hx
          intro y hy
          exact (hgrown.mem_iff y).mpr (.inr hy)
      obtain ⟨buf'', hexpand, hclosure⟩ := ih (by omega) (by omega) hgrown.nodup
        (hgrown.subset hbuf (hall cur (hbuf hcur))) hdone'
      exact ⟨buf'', by rw [hpush, Option.bind_some, hexpand], hclosure.of_grown hcur hgrown⟩

end Gremlin.Graph.Worklist
