import Gremlin.Text.Clamped

/-!
This module contains lists of items that one character parts and another one closes.
-/

namespace Gremlin.Text.Parser

open Buffer

variable {ε α : Type}

/--
The items from a buffer up to the end of the list, which is gone over as well.
-/
inductive Items (item : Parser ε α) (sep close : Char) : Buffer → List α → Buffer → Prop where
  | last {b b₁ b' : Buffer} {a : α} (hitem : item.run b = (.ok a, b₁))
      (hclose : (shiftIf (· = close) : Parser ε Bool).run b₁ = (.ok true, b')) : Items item sep close b [a] b'
  | more {b b₁ b₂ b' : Buffer} {a : α} {as : List α} (hitem : item.run b = (.ok a, b₁))
      (hsep : (shiftIf (· = sep) : Parser ε Bool).run b₁ = (.ok true, b₂)) (hrest : Items item sep close b₂ as b')
      : Items item sep close b (a :: as) b'

section Items

variable {item : Parser ε α} {sep close : Char} {b b' : Buffer} {as : List α}

theorem Items.ne_nil (h : Items item sep close b as b') : as ≠ [] := by
  cases h <;> simp

theorem Items.advances (h : Items item sep close b as b') : Advances b b' := by
  induction h with
  | last hitem hclose => exact (Parser.advances hitem).trans (Parser.advances hclose)
  | more hitem hsep _ ih => exact (Parser.advances hitem).trans ((Parser.advances hsep).trans ih)

theorem severed_shiftIf {c d : Char} (hne : d ≠ c) {b b₁ b₂ : Buffer} (h : Advances b b₁)
    (hshift : (shiftIf (· = d) : Parser ε Bool).run b₁ = (.ok true, b₂)) : Severed c b b₁ := by
  obtain ⟨_, hd, hrest, -⟩ := shiftIf_true.mp hshift
  obtain rfl := of_decide_eq_true hd
  intro hlength hlast
  obtain ⟨pre, hpre, -⟩ := h
  rw [hrest, List.length_cons] at hlength
  have hnil : b₂.rest = [] := List.eq_nil_of_length_eq_zero (by omega)
  rw [hpre, hrest, hnil, List.getLast?_concat, Option.some_inj] at hlast
  exact hne hlast

section Clamped

variable {stop c : Char} {after : List Char}

theorem Items.before (hitem : Wide (stop :: after) item) (hsep : sep ≠ stop) (hclose : close ≠ stop)
    (h : Items item sep close b as b')
    : Items item sep close (b.before (stop :: after)) as (b'.before (stop :: after)) := by
  have hshift {d : Char} (hd : d ≠ stop) : Exact (stop :: after) (shiftIf (· = d) : Parser ε Bool) :=
    exact_shiftIf (by simpa using Ne.symm hd)
  have hleft {d : Char} {b₁ b₂ : Buffer} (h : (shiftIf (· = d) : Parser ε Bool).run b₁ = (.ok true, b₂))
      : b₁.rest ≠ [] := by
    obtain ⟨_, -, hrest, -⟩ := shiftIf_true.mp h
    simp [hrest]
  induction h with
  | last ha hclose' =>
    exact .last (hitem _ _ _ (hleft hclose') ha) ((hshift hclose).firm _ _ _ hclose')
  | more ha hsep' _ ih =>
    exact .more (hitem _ _ _ (hleft hsep') ha) ((hshift hsep).firm _ _ _ hsep') ih

theorem Items.of_before (hitem : Narrow (stop :: after) c item) (hsep : sep ≠ stop) (hclose : close ≠ stop)
    (hsep' : sep ≠ c) (hclose' : close ≠ c)
    (h : Items item sep close (b.before (stop :: after)) as (b'.before (stop :: after)))
    : Items item sep close b as b' := by
  have hshift {d : Char} (hd : d ≠ stop) : Exact (stop :: after) (shiftIf (· = d) : Parser ε Bool) :=
    exact_shiftIf (by simpa using Ne.symm hd)
  generalize hb : b.before (stop :: after) = d, hb' : b'.before (stop :: after) = d' at h
  induction h generalizing b with
  | last ha hend =>
    subst hb hb'
    obtain ⟨b₁, rfl⟩ := (Parser.advances hend).exists_before
    have hend := (hshift hclose).of_before hend
    have hadvances := (Parser.advances ha).of_before
    exact .last (hitem _ _ _ (severed_shiftIf hclose' hadvances hend) ha) hend
  | more ha hcomma hrest ih =>
    subst hb hb'
    obtain ⟨b₂, rfl⟩ := hrest.advances.exists_before
    obtain ⟨b₁, rfl⟩ := (Parser.advances hcomma).exists_before
    have hcomma := (hshift hsep).of_before hcomma
    have hadvances := (Parser.advances ha).of_before
    exact .more (hitem _ _ _ (severed_shiftIf hsep' hadvances hcomma) ha) hcomma (ih rfl rfl)

end Clamped

end Items

end Gremlin.Text.Parser
