import Mathlib.Algebra.Ring.Nat
import Mathlib.Order.Interval.Finset.Nat

/-!
This module contains regions of memory, and computations on sizes that notice whether one of them wraps
around.
-/

namespace Gremlin.Memory

/-! Sizes. -/

/--
A value, and whether a size that was computed on the way to it did not fit and was wrapped around.
-/
structure Sized (α : Type) where
  value : α
  wrapped : Bool
  deriving DecidableEq, Repr

namespace Sized

variable {α β : Type}

instance : Monad Sized where
  pure a := ⟨a, false⟩
  bind x f := ⟨(f x.value).value, x.wrapped || (f x.value).wrapped⟩

@[simp]
theorem pure_bind (a : α) (f : α → Sized β) : (pure a : Sized α) >>= f = f a := by
  change (⟨(f a).value, false || (f a).wrapped⟩ : Sized β) = f a
  rw [Bool.false_or]

@[simp]
theorem value_pure (a : α) : (pure a : Sized α).value = a :=
  rfl

@[simp]
theorem wrapped_pure (a : α) : (pure a : Sized α).wrapped = false :=
  rfl

end Sized

/--
The sum of two sizes of `w` bits.
-/
def sizeAdd (w a b : Nat) : Sized Nat :=
  ⟨(a + b) % 2 ^ w, decide (2 ^ w ≤ a + b)⟩

/--
The difference of two sizes of `w` bits.
-/
def sizeSub (w a b : Nat) : Sized Nat :=
  ⟨(a + 2 ^ w - b) % 2 ^ w, decide (a < b)⟩

theorem sizeAdd_of_lt {w a b : Nat} (h : a + b < 2 ^ w) : sizeAdd w a b = pure (a + b) := by
  have hfits : ¬2 ^ w ≤ a + b := by omega
  unfold sizeAdd
  rw [Nat.mod_eq_of_lt h, decide_eq_false hfits]
  rfl

theorem sizeSub_of_le {w a b : Nat} (h : b ≤ a) (ha : a < 2 ^ w) : sizeSub w a b = pure (a - b) := by
  have hsub : a + 2 ^ w - b = a - b + 2 ^ w := by omega
  have hfits : ¬a < b := by omega
  unfold sizeSub
  rw [hsub, Nat.add_mod_right, Nat.mod_eq_of_lt (by omega), decide_eq_false hfits]
  rfl

theorem foldlM_sizeAdd {α : Type} {w : Nat} (size : α → Nat) (as : List α) (total : Nat)
    (h : total + (as.map size).sum < 2 ^ w)
    : as.foldlM (fun total a => sizeAdd w total (size a)) total = pure (total + (as.map size).sum) := by
  induction as generalizing total with
  | nil => rfl
  | cons a as ih =>
    rw [List.map_cons, List.sum_cons] at h ⊢
    rw [List.foldlM_cons, sizeAdd_of_lt (by omega), Sized.pure_bind, ih _ (by omega), Nat.add_assoc]

/-! Regions. -/

/--
The bytes of a size from an address on.
-/
structure Region where
  base : Nat
  size : Nat
  deriving DecidableEq, Repr

namespace Region

def addresses (r : Region) : Finset Nat :=
  Finset.Ico r.base (r.base + r.size)

theorem card_addresses (r : Region) : r.addresses.card = r.size := by
  rw [addresses, Nat.card_Ico, Nat.add_sub_cancel_left]

/--
`r` is a part of `s`.
-/
def Within (r s : Region) : Prop :=
  s.base ≤ r.base ∧ r.base + r.size ≤ s.base + s.size

theorem Within.subset {r s : Region} (h : r.Within s) : r.addresses ⊆ s.addresses := by
  intro x hx
  unfold addresses at hx ⊢
  rw [Finset.mem_Ico] at hx ⊢
  have := h.1
  have := h.2
  omega

theorem disjoint_within {r r' s s' : Region} (h : Disjoint s.addresses s'.addresses) (hr : r.Within s)
    (hr' : r'.Within s') : Disjoint r.addresses r'.addresses :=
  Finset.disjoint_of_subset_left hr.subset (Finset.disjoint_of_subset_right hr'.subset h)

theorem disjoint_of_le {r s : Region} (h : r.base + r.size ≤ s.base) : Disjoint r.addresses s.addresses := by
  rw [Finset.disjoint_left]
  intro x hx hx'
  unfold addresses at hx hx'
  rw [Finset.mem_Ico] at hx hx'
  omega

/--
A part of a region at an offset.
-/
theorem within_of_le {base offset size whole : Nat} (h : offset + size ≤ whole)
    : (⟨base + offset, size⟩ : Region).Within ⟨base, whole⟩ := by
  constructor
  . exact Nat.le_add_right base offset
  . change base + offset + size ≤ base + whole
    omega

theorem disjoint_of_offsets {base offset size offset' size' : Nat}
    (h : offset + size ≤ offset' ∨ offset' + size' ≤ offset)
    : Disjoint (⟨base + offset, size⟩ : Region).addresses (⟨base + offset', size'⟩ : Region).addresses := by
  rcases h with hle | hle
  . apply disjoint_of_le
    change base + offset + size ≤ base + offset'
    omega
  . apply Disjoint.symm
    apply disjoint_of_le
    change base + offset' + size' ≤ base + offset
    omega

/--
A region of memory, which does not contain the null pointer.
-/
structure Valid (w : Nat) (r : Region) : Prop where
  base_pos : 0 < r.base
  end_le : r.base + r.size ≤ 2 ^ w

theorem Valid.size_lt {w : Nat} {r : Region} (h : r.Valid w) : r.base + r.size ≤ 2 ^ w ∧ r.size < 2 ^ w := by
  have := h.base_pos
  have := h.end_le
  omega

/--
Regions that are disjoint have no more bytes together than there are addresses.
-/
theorem sum_size_lt {w : Nat} {rs : List Region} (hvalid : ∀ r ∈ rs, r.Valid w)
    (hdisjoint : rs.Pairwise fun r s => Disjoint r.addresses s.addresses)
    : (rs.map Region.size).sum < 2 ^ w := by
  -- The union of the regions has as many addresses as the regions have bytes.
  have hunion : ∃ u : Finset Nat, u.card = (rs.map Region.size).sum ∧ (∀ x ∈ u, ∃ r ∈ rs, x ∈ r.addresses) := by
    clear hvalid
    induction hdisjoint with
    | nil => exact ⟨∅, rfl, by simp⟩
    | @cons r rs hr _ ih =>
      obtain ⟨u, hcard, hmem⟩ := ih
      have hapart : Disjoint r.addresses u := by
        rw [Finset.disjoint_right]
        intro x hx hx'
        obtain ⟨s, hs, hxs⟩ := hmem x hx
        exact Finset.disjoint_left.mp (hr s hs) hx' hxs
      refine ⟨r.addresses ∪ u, ?_, ?_⟩
      . rw [Finset.card_union_of_disjoint hapart, card_addresses, hcard, List.map_cons, List.sum_cons]
      . intro x hx
        rcases Finset.mem_union.mp hx with hx | hx
        . exact ⟨r, List.mem_cons_self, hx⟩
        . obtain ⟨s, hs, hxs⟩ := hmem x hx
          exact ⟨s, List.mem_cons_of_mem _ hs, hxs⟩
  obtain ⟨u, hcard, hmem⟩ := hunion
  have hsubset : u ⊆ Finset.Ico 1 (2 ^ w) := by
    intro x hx
    obtain ⟨r, hr, hxr⟩ := hmem x hx
    have := (hvalid r hr).base_pos
    have := (hvalid r hr).end_le
    unfold addresses at hxr
    rw [Finset.mem_Ico] at hxr ⊢
    omega
  have hle := Finset.card_le_card hsubset
  rw [Nat.card_Ico, hcard] at hle
  have hpos : 0 < 2 ^ w := Nat.two_pow_pos w
  omega

end Region

end Gremlin.Memory
