import Gremlin.Reader.View

/-!
This module contains singular fields that no record of the input belongs to: their getters return the
default that their family carries.
-/

namespace Gremlin

open Codec

/--
The family of a singular field that holds a slot, with this default.
-/
def Slot.family : (s : Slot) → s.Value → Family
  | .elem e, default => .scalar e default
  | .bytes, default => .bytes default

/--
What the getter of a singular scalar, enum or bytes field returns.
-/
def Family.got (S : Schema) : (f : Family) → f.View S → Option ((s : Slot) × s.Value)
  | .scalar e _, v => some ⟨.elem e, v⟩
  | .bytes _, v => some ⟨.bytes, v⟩
  | .msgRef _, _ | .repScalar _ _, _ | .repBytes, _ | .repMsg _, _ | .map _ _, _ => none

/--
The input is records, none of which has a tag of the field.
-/
def Field.AbsentFrom (f : Field) (src : List UInt8) : Prop :=
  ∃ rs : List Record, (∀ r ∈ rs, r.Valid) ∧ src = Record.concat rs ∧ ∀ r ∈ rs, f.hasTag r.tag = false

variable {S : Schema}

theorem Slot.entriesOk (s : Slot) (default : s.Value) (rs : List Record)
    : (s.family default).EntriesOk S rs := by
  cases s <;> trivial

theorem got_viewOf_nil {f : Family} {s : Slot} {default : s.Value} (hfamily : f = s.family default) {index : Nat}
    {v : f.View S} (h : f.viewOf S index [] = .ok v) : f.got S v = some ⟨s, default⟩ := by
  subst hfamily
  cases s with
  | elem e =>
    have hv : default = v := Except.ok.inj h
    rw [← hv]
    rfl
  | bytes =>
    have hv : default = v := Except.ok.inj h
    rw [← hv]
    rfl

theorem got_of_absent {t : MsgId} {i : Fin (S t).length} {s : Slot} {default : s.Value}
    (hfamily : (S.field t i).family = s.family default) {src : List UInt8} {r : Reader S t}
    (h : readerInit S t src = .ok r) (habsent : (S.field t i).AbsentFrom src)
    : (S.field t i).family.got S (r.view i) = some ⟨s, default⟩ := by
  obtain ⟨rs, hvalid, rfl, htags⟩ := habsent
  have hnone : rs.filter (owns S t i) = [] := by
    rw [List.filter_eq_nil_iff]
    intro q hq howns
    have htag := hasTag_of_taken howns
    rw [htags q hq] at htag
    simp at htag
  have hentries : (S.field t i).family.EntriesOk S (rs.filter (owns S t i)) := by
    rw [hfamily]
    exact s.entriesOk default _
  have hview := Reader.viewOf_eq hvalid h i hentries
  rw [hnone] at hview
  exact got_viewOf_nil hfamily hview

end Gremlin
