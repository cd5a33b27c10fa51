import Mathlib.Data.List.Basic

/-!
This module contains arrays that are allotted first and then filled one slot after the other.
-/

namespace Gremlin.Memory

abbrev Slots (α : Type) : Type :=
  List (Option α)

namespace Slots

variable {α : Type}

def allot (α : Type) (n : Nat) : Slots α :=
  List.replicate n none

/--
Write a slot. It must be there and not be written.
-/
def put (slots : Slots α) (i : Nat) (a : α) : Option (Slots α) :=
  match slots[i]? with
  | some none => some (slots.set i (some a))
  | _ => none

def modify (slots : Slots α) (i : Nat) (f : α → α) : Option (Slots α) :=
  match slots[i]? with
  | some (some a) => some (slots.set i (some (f a)))
  | _ => none

def contents : Slots α → Option (List α)
  | [] => some []
  | none :: _ => none
  | some a :: slots => (contents slots).map (a :: ·)

/--
The slots of `written`, and `left` more that are not written.
-/
def filled (written : List α) (left : Nat) : Slots α :=
  written.map some ++ allot α left

theorem allot_eq_filled (n : Nat) : allot α n = filled [] n :=
  rfl

theorem put_filled (written : List α) (left : Nat) (a : α)
    : (filled written (left + 1)).put written.length a = some (filled (written ++ [a]) left) := by
  have hget : (filled written (left + 1))[written.length]? = some none := by
    simp [filled, allot, List.replicate_succ]
  unfold put
  rw [hget]
  simp [filled, allot, List.replicate_succ]

theorem modify_filled (before after : List α) (a : α) (left : Nat) (f : α → α)
    : (filled (before ++ a :: after) left).modify before.length f
        = some (filled (before ++ f a :: after) left) := by
  have hget : (filled (before ++ a :: after) left)[before.length]? = some (some a) := by
    simp [filled]
  unfold modify
  rw [hget]
  simp [filled]

theorem contents_filled (written : List α) : (filled written 0).contents = some written := by
  induction written with
  | nil => rfl
  | cons a written ih =>
    have : filled (a :: written) 0 = some a :: filled written 0 := rfl
    rw [this, contents, ih, Option.map_some]

end Slots

end Gremlin.Memory
