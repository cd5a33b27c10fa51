import Mathlib.Data.List.Nodup
import Mathlib.Data.List.Perm.Subperm
import Mathlib.Data.Sum.Basic
import Mathlib.Logic.Relation

/-!
This module contains the saturation of two tables: each is scanned while it grows, what is scanned
adds entries to both of them, and this is repeated until nothing is added.
-/

namespace Gremlin.Graph.Saturation

/--
Two tables, and whether one of them has grown since the flag was put down.
-/
structure Tables (α β : Type) where
  fst : List α
  snd : List β
  changed : Bool
  deriving DecidableEq, Repr

namespace Tables

variable {α β : Type}

def empty : Tables α β :=
  ⟨[], [], false⟩

def firsts (t : Tables α β) : List (α ⊕ β) :=
  t.fst.map .inl

def seconds (t : Tables α β) : List (α ⊕ β) :=
  t.snd.map .inr

def entries (t : Tables α β) : List (α ⊕ β) :=
  t.firsts ++ t.seconds

@[simp]
theorem entries_empty : (empty : Tables α β).entries = [] :=
  rfl

@[simp]
theorem inl_mem_entries {t : Tables α β} {a : α} : .inl a ∈ t.entries ↔ a ∈ t.fst := by
  simp [entries, firsts, seconds]

@[simp]
theorem inr_mem_entries {t : Tables α β} {b : β} : .inr b ∈ t.entries ↔ b ∈ t.snd := by
  simp [entries, firsts, seconds]

end Tables

open Tables

section Definitions

variable {α β : Type} [DecidableEq α] [DecidableEq β]

/--
Append an entry that is not there yet.
-/
def add (t : Tables α β) : α ⊕ β → Tables α β
  | .inl a => if a ∈ t.fst then t else { t with fst := t.fst ++ [a], changed := true }
  | .inr b => if b ∈ t.snd then t else { t with snd := t.snd ++ [b], changed := true }

def addAll (t : Tables α β) (xs : List (α ⊕ β)) : Tables α β :=
  xs.foldl add t

/--
Go through one of the tables from an index on, and add the successors of each entry.
-/
def scan (succ : α ⊕ β → List (α ⊕ β)) (items : Tables α β → List (α ⊕ β))
    : (fuel i : Nat) → Tables α β → Option (Tables α β)
  | 0, _, _ => none
  | fuel + 1, i, t =>
    match (items t)[i]? with
    | none => some t
    | some x => scan succ items fuel (i + 1) (addAll t (succ x))

def pass (succ : α ⊕ β → List (α ⊕ β)) (fuel : Nat) (t : Tables α β) : Option (Tables α β) :=
  (scan succ firsts fuel 0 { t with changed := false }).bind (scan succ seconds fuel 0)

def saturate (succ : α ⊕ β → List (α ⊕ β)) (limit : Nat)
    : (fuel : Nat) → Tables α β → Option (Tables α β)
  | 0, _ => none
  | fuel + 1, t =>
    (pass succ limit t).bind fun t => if t.changed then saturate succ limit fuel t else some t

end Definitions

variable {α β : Type}

/--
`t'` is `t` with entries appended, and the flag is up if there are any.
-/
structure Extends (t t' : Tables α β) : Prop where
  fst : t.fst <+: t'.fst
  snd : t.snd <+: t'.snd
  nodup : t.entries.Nodup → t'.entries.Nodup
  unchanged : t'.changed = false → t' = t
  changed : t'.changed = true → t.changed = true ∨ t.entries.length < t'.entries.length

namespace Extends

theorem refl (t : Tables α β) : Extends t t :=
  ⟨List.prefix_rfl, List.prefix_rfl, id, fun _ => rfl, .inl⟩

theorem length_le {t t' : Tables α β} (h : Extends t t') : t.entries.length ≤ t'.entries.length := by
  have hfst := h.fst.length_le
  have hsnd := h.snd.length_le
  simp only [entries, firsts, seconds, List.length_append, List.length_map]
  omega

theorem trans {t t' t'' : Tables α β} (h : Extends t t') (h' : Extends t' t'') : Extends t t'' := by
  refine ⟨h.fst.trans h'.fst, h.snd.trans h'.snd, h'.nodup ∘ h.nodup, ?_, ?_⟩
  . intro hchanged
    have heq := h'.unchanged hchanged
    subst heq
    exact h.unchanged hchanged
  . intro hchanged
    have hle := h'.length_le
    have hle' := h.length_le
    rcases h'.changed hchanged with hchanged | hlt
    . rcases h.changed hchanged with hchanged | hlt
      . exact .inl hchanged
      . exact .inr (by omega)
    . exact .inr (by omega)

theorem subset {t t' : Tables α β} (h : Extends t t') : t.entries ⊆ t'.entries := by
  intro x hx
  cases x with
  | inl a => exact inl_mem_entries.mpr (h.fst.subset (inl_mem_entries.mp hx))
  | inr b => exact inr_mem_entries.mpr (h.snd.subset (inr_mem_entries.mp hx))

end Extends

theorem nodup_entries {t : Tables α β} : t.entries.Nodup ↔ t.fst.Nodup ∧ t.snd.Nodup := by
  unfold entries firsts seconds
  rw [List.nodup_append, List.nodup_map_iff Sum.inl_injective, List.nodup_map_iff Sum.inr_injective]
  simp

theorem nodup_concat {γ : Type} {l : List γ} {x : γ} (hnodup : l.Nodup) (hx : x ∉ l) : (l ++ [x]).Nodup := by
  rw [List.nodup_append]
  refine ⟨hnodup, List.nodup_singleton x, ?_⟩
  intro y hy z hz heq
  rw [List.mem_singleton] at hz
  exact hx (hz ▸ heq ▸ hy)

variable {succ : α ⊕ β → List (α ⊕ β)}

/--
What a number of additions leaves: entries that are reached from those there were.
-/
structure Reached (succ : α ⊕ β → List (α ⊕ β)) (t t' : Tables α β) : Prop extends Extends t t' where
  reached : ∀ x ∈ t'.entries, ∃ y ∈ t.entries, Relation.ReflTransGen (fun a b => b ∈ succ a) y x

theorem Reached.refl (t : Tables α β) : Reached succ t t :=
  ⟨.refl t, fun x hx => ⟨x, hx, .refl⟩⟩

theorem Reached.trans {t t' t'' : Tables α β} (h : Reached succ t t') (h' : Reached succ t' t'')
    : Reached succ t t'' := by
  refine ⟨h.toExtends.trans h'.toExtends, ?_⟩
  intro x hx
  obtain ⟨y, hy, hpath⟩ := h'.reached x hx
  obtain ⟨z, hz, hpath'⟩ := h.reached y hy
  exact ⟨z, hz, hpath'.trans hpath⟩

/--
The entries all have their successors in the tables.
-/
def Closed (succ : α ⊕ β → List (α ⊕ β)) (xs : List (α ⊕ β)) (t : Tables α β) : Prop :=
  ∀ x ∈ xs, succ x ⊆ t.entries

/--
A table that a scan can go through: it is only appended to, and what is in it is an entry.
-/
structure IsTable (items : Tables α β → List (α ⊕ β)) : Prop where
  mono : ∀ {t t'}, Extends t t' → items t <+: items t'
  subset : ∀ t, items t ⊆ t.entries
  nodup : ∀ {t}, t.entries.Nodup → (items t).Nodup

theorem isTable_firsts : IsTable (firsts : Tables α β → List (α ⊕ β)) where
  mono h := h.fst.map _
  subset t := by simp [entries]
  nodup h := (List.nodup_append.mp h).1

theorem isTable_seconds : IsTable (seconds : Tables α β → List (α ⊕ β)) where
  mono h := h.snd.map _
  subset t := by simp [entries]
  nodup h := (List.nodup_append.mp h).2.1

theorem mem_of_path {all : List (α ⊕ β)} (hall : ∀ x ∈ all, succ x ⊆ all) {x y : α ⊕ β} (hy : y ∈ all)
    (hpath : Relation.ReflTransGen (fun a b => b ∈ succ a) y x) : x ∈ all := by
  induction hpath with
  | refl => exact hy
  | tail _ hstep ih => exact hall _ ih hstep

theorem Reached.subset_all {all : List (α ⊕ β)} {t t' : Tables α β} (h : Reached succ t t')
    (hall : ∀ x ∈ all, succ x ⊆ all) (hsub : t.entries ⊆ all) : t'.entries ⊆ all := by
  intro x hx
  obtain ⟨y, hy, hpath⟩ := h.reached x hx
  exact mem_of_path hall (hsub hy) hpath

/--
What the saturation leaves: everything that is reached from the entries of the tables, once.
-/
structure Saturated (succ : α ⊕ β → List (α ⊕ β)) (t t' : Tables α β) : Prop where
  nodup : t'.entries.Nodup
  mem_iff : ∀ x, x ∈ t'.entries ↔ ∃ y ∈ t.entries, Relation.ReflTransGen (fun a b => b ∈ succ a) y x

theorem Reached.saturated {t t' : Tables α β} (h : Reached succ t t') (hnodup : t.entries.Nodup)
    (hclosed : Closed succ t'.entries t') : Saturated succ t t' := by
  refine ⟨h.nodup hnodup, ?_⟩
  intro x
  constructor
  . exact h.reached x
  . rintro ⟨y, hy, hpath⟩
    exact mem_of_path hclosed (h.toExtends.subset hy) hpath

variable [DecidableEq α] [DecidableEq β]

theorem mem_entries_add {t : Tables α β} {x y : α ⊕ β} : y ∈ (add t x).entries ↔ y ∈ t.entries ∨ y = x := by
  cases x with
  | inl a =>
    by_cases hmem : a ∈ t.fst
    . rw [add, if_pos hmem, or_iff_left_of_imp]
      rintro rfl
      exact inl_mem_entries.mpr hmem
    . rw [add, if_neg hmem]
      cases y <;> simp
  | inr b =>
    by_cases hmem : b ∈ t.snd
    . rw [add, if_pos hmem, or_iff_left_of_imp]
      rintro rfl
      exact inr_mem_entries.mpr hmem
    . rw [add, if_neg hmem]
      cases y <;> simp

theorem add_extends (t : Tables α β) (x : α ⊕ β) : Extends t (add t x) := by
  cases x with
  | inl a =>
    by_cases hmem : a ∈ t.fst
    . rw [add, if_pos hmem]
      exact .refl t
    . rw [add, if_neg hmem]
      refine ⟨List.prefix_append _ _, List.prefix_rfl, ?_, by simp, ?_⟩
      . rw [nodup_entries, nodup_entries]
        intro hnodup
        exact ⟨nodup_concat hnodup.1 hmem, hnodup.2⟩
      . intro _
        exact .inr (by simp [entries, firsts, seconds])
  | inr b =>
    by_cases hmem : b ∈ t.snd
    . rw [add, if_pos hmem]
      exact .refl t
    . rw [add, if_neg hmem]
      refine ⟨List.prefix_rfl, List.prefix_append _ _, ?_, by simp, ?_⟩
      . rw [nodup_entries, nodup_entries]
        intro hnodup
        exact ⟨hnodup.1, nodup_concat hnodup.2 hmem⟩
      . intro _
        exact .inr (by simp [entries, firsts, seconds])

theorem addAll_extends (t : Tables α β) (xs : List (α ⊕ β)) : Extends t (addAll t xs) := by
  induction xs generalizing t with
  | nil => exact .refl t
  | cons x xs ih => exact (add_extends t x).trans (ih (add t x))

theorem mem_entries_addAll {t : Tables α β} {xs : List (α ⊕ β)} {y : α ⊕ β}
    : y ∈ (addAll t xs).entries ↔ y ∈ t.entries ∨ y ∈ xs := by
  induction xs generalizing t with
  | nil => simp [addAll]
  | cons x xs ih =>
    change y ∈ (addAll (add t x) xs).entries ↔ _
    rw [ih, mem_entries_add, List.mem_cons, or_assoc]

theorem Reached.addAll {t : Tables α β} {x : α ⊕ β} (hx : x ∈ t.entries)
    : Reached succ t (addAll t (succ x)) := by
  refine ⟨addAll_extends t (succ x), ?_⟩
  intro y hy
  rcases mem_entries_addAll.mp hy with hy | hy
  . exact ⟨y, hy, .refl⟩
  . exact ⟨x, hx, .single hy⟩

/--
A scan ends within its fuel, and every entry of its table then has its successors. The entries it
does not look at must have theirs before.
-/
theorem scan_reached {items : Tables α β → List (α ⊕ β)} (hitems : IsTable items) {all : List (α ⊕ β)}
    (hall : ∀ x ∈ all, succ x ⊆ all) {fuel i : Nat} {t : Tables α β} (hfuel : all.length < fuel + i)
    (hi : i ≤ (items t).length) (hnodup : t.entries.Nodup) (hsub : t.entries ⊆ all)
    (hdone : Closed succ ((items t).take i) t)
    : ∃ t', scan succ items fuel i t = some t' ∧ Reached succ t t' ∧ Closed succ (items t') t' := by
  induction fuel generalizing i t with
  | zero =>
    have := ((hitems.nodup hnodup).subperm (List.Subset.trans (hitems.subset t) hsub)).length_le
    omega
  | succ fuel ih =>
    unfold scan
    split
    . next heq =>
      rw [List.getElem?_eq_none_iff] at heq
      rw [List.take_of_length_le heq] at hdone
      exact ⟨t, rfl, .refl t, hdone⟩
    . next x heq =>
      have hx := hitems.subset t (List.mem_of_getElem? heq)
      have hlt := (List.getElem?_eq_some_iff.mp heq).1
      have hstep : Reached succ t (addAll t (succ x)) := Reached.addAll hx
      have hpre := hitems.mono hstep.toExtends
      have hdone' : Closed succ ((items (addAll t (succ x))).take (i + 1)) (addAll t (succ x)) := by
        intro y hy
        rw [← List.take_append_drop (i + 1) (items t)] at hpre
        have hpre' := (List.prefix_append _ _).trans hpre
        rw [List.prefix_iff_eq_take, List.length_take, Nat.min_eq_left (by omega)] at hpre'
        rw [← hpre', List.take_add_one, heq, Option.toList_some, List.mem_append, List.mem_singleton] at hy
        intro z hz
        rw [mem_entries_addAll]
        rcases hy with hy | rfl
        . exact .inl (hdone y hy hz)
        . exact .inr hz
      obtain ⟨t', hscan, hreached, hclosed⟩ := ih (by omega) (by have := hpre.length_le; omega)
        (hstep.nodup hnodup) (hstep.subset_all hall hsub) hdone'
      exact ⟨t', hscan, hstep.trans hreached, hclosed⟩

/--
A pass that leaves the flag down has found that both tables are closed.
-/
theorem pass_reached {all : List (α ⊕ β)} (hall : ∀ x ∈ all, succ x ⊆ all) {fuel : Nat} {t : Tables α β}
    (hfuel : all.length < fuel) (hnodup : t.entries.Nodup) (hsub : t.entries ⊆ all)
    : ∃ t', pass succ fuel t = some t' ∧ Reached succ { t with changed := false } t'
      ∧ (t'.changed = false → Closed succ t'.entries t') := by
  obtain ⟨t₁, hscan₁, hreached₁, hclosed₁⟩ := scan_reached (t := { t with changed := false }) (i := 0)
    isTable_firsts hall (by omega) (by omega) hnodup hsub (fun x hx => by simp at hx)
  have hsub₁ := hreached₁.subset_all hall hsub
  obtain ⟨t₂, hscan₂, hreached₂, hclosed₂⟩ := scan_reached (i := 0) isTable_seconds hall (by omega) (by omega)
    (hreached₁.nodup hnodup) hsub₁ (fun x hx => by simp at hx)
  refine ⟨t₂, ?_, hreached₁.trans hreached₂, ?_⟩
  . rw [pass, hscan₁, Option.bind_some, hscan₂]
  . intro hchanged
    have heq := hreached₂.unchanged hchanged
    subst heq
    intro x hx
    rcases List.mem_append.mp hx with hx | hx
    . exact hclosed₁ x hx
    . exact hclosed₂ x hx

theorem saturate_saturated {all : List (α ⊕ β)} (hall : ∀ x ∈ all, succ x ⊆ all) {limit fuel : Nat}
    {t : Tables α β} (hlimit : all.length < limit) (hfuel : all.length < fuel + t.entries.length)
    (hnodup : t.entries.Nodup) (hsub : t.entries ⊆ all)
    : ∃ t', saturate succ limit fuel t = some t' ∧ Saturated succ t t' := by
  induction fuel generalizing t with
  | zero =>
    have := (hnodup.subperm hsub).length_le
    omega
  | succ fuel ih =>
    obtain ⟨t', hpass, hreached, hclosed⟩ := pass_reached hall hlimit hnodup hsub
    have hnodup' := hreached.nodup hnodup
    have hsub' := hreached.subset_all hall hsub
    unfold saturate
    rw [hpass, Option.bind_some]
    split
    . next hchanged =>
      -- Every pass but the last adds an entry.
      have hlt : t.entries.length < t'.entries.length := by
        rcases hreached.changed hchanged with hfalse | hlt
        . simp at hfalse
        . exact hlt
      obtain ⟨t'', hsaturate, hsaturated⟩ := ih (by omega) hnodup' hsub'
      refine ⟨t'', hsaturate, hsaturated.nodup, ?_⟩
      intro x
      rw [hsaturated.mem_iff]
      constructor
      . rintro ⟨y, hy, hpath⟩
        obtain ⟨z, hz, hpath'⟩ := hreached.reached y hy
        exact ⟨z, hz, hpath'.trans hpath⟩
      . rintro ⟨y, hy, hpath⟩
        exact ⟨y, hreached.toExtends.subset hy, hpath⟩
    . next hchanged =>
      have hsaturated := hreached.saturated hnodup (hclosed (by simpa using hchanged))
      exact ⟨t', rfl, hsaturated.nodup, hsaturated.mem_iff⟩

end Gremlin.Graph.Saturation
