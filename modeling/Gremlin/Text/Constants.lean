import Gremlin.Text.Printf

/-!
This module contains the integer constants of C and what they denote.
-/

namespace Gremlin.Text.Constants

def signedSuffixes : List (List Char) :=
  ["", "l", "L", "ll", "LL"].map String.toList

def unsignedSuffixes : List (List Char) :=
  ["u", "U", "ul", "uL", "Ul", "UL", "ull", "uLL", "Ull", "ULL", "lu", "lU", "Lu", "LU", "llu", "llU",
    "LLu", "LLU"].map String.toList

/--
Whether a constant with this suffix is unsigned.
-/
def unsignedSuffix (suffix : List Char) : Option Bool :=
  if signedSuffixes.contains suffix then some false
  else if unsignedSuffixes.contains suffix then some true
  else none

/--
A decimal constant, which the widest type of its signedness must hold, or a zero.
-/
def constant (text : List Char) : Option (Bool × Nat) :=
  let digits := text.takeWhile Char.isDigit
  let value := Nat.ofDigitChars 10 digits 0
  match unsignedSuffix (text.dropWhile Char.isDigit) with
  | none => none
  | some unsigned =>
    -- more digits behind a zero are octal
    if digits = [] ∨ (digits.head? = some '0' ∧ digits ≠ ['0']) then none
    else if value < (if unsigned then 2 ^ 64 else 2 ^ 63) then some (unsigned, value)
    else none

/--
What an integer constant, a negated one of a signed type or one of two macros of `stdint.h` denotes.
-/
def denotes : List Char → Option Int
  | '-' :: rest =>
    match constant rest with
    | some (false, n) => some (-n)
    | _ => none
  | text =>
    if text = "INT32_MIN".toList then some (-(2 ^ 31))
    else if text = "INT64_MIN".toList then some (-(2 ^ 63))
    else (constant text).map fun c => c.2

theorem unsignedSuffix_ok {suffix : List Char} {unsigned : Bool}
    (h : unsignedSuffix suffix = some unsigned)
    : suffix.takeWhile Char.isDigit = [] ∧ suffix.dropWhile Char.isDigit = suffix := by
  have hall : ∀ s ∈ signedSuffixes ++ unsignedSuffixes,
      s.takeWhile Char.isDigit = [] ∧ s.dropWhile Char.isDigit = s := by
    decide
  apply hall
  unfold unsignedSuffix at h
  rw [List.mem_append]
  split at h
  . next hmem => exact .inl (List.contains_iff_mem.mp hmem)
  . split at h
    . next hmem => exact .inr (List.contains_iff_mem.mp hmem)
    . simp at h

theorem head_unsigned {n : Nat} (hn : n ≠ 0) : (Printf.unsigned n).head? ≠ some '0' := by
  unfold Printf.unsigned
  induction n using Nat.strongRecOn with
  | ind n ih =>
    rw [Nat.toDigits_eq_if (by decide)]
    split
    . next hlt =>
      have hdigits : ∀ m < 10, m ≠ 0 → [Nat.digitChar m].head? ≠ some '0' := by decide
      exact hdigits n hlt hn
    . next hge =>
      have := ih (n / 10) (by omega) (by omega)
      rw [List.head?_append_of_ne_nil _ Nat.toDigits_ne_nil]
      exact this

theorem constant_unsigned {n : Nat} {suffix : List Char} {unsigned : Bool}
    (h : unsignedSuffix suffix = some unsigned) (hn : n < if unsigned then 2 ^ 64 else 2 ^ 63)
    : constant (Printf.unsigned n ++ suffix) = some (unsigned, n) := by
  have hdigits : ∀ c ∈ Printf.unsigned n, Char.isDigit c = true :=
    fun c hc => Printf.isDigit_of_mem_unsigned hc
  have ⟨htake, hdrop⟩ := unsignedSuffix_ok h
  unfold constant
  rw [List.takeWhile_append_of_pos hdigits, List.dropWhile_append_of_pos hdigits, htake, hdrop, h,
    List.append_nil]
  dsimp only
  have hvalue : Nat.ofDigitChars 10 (Printf.unsigned n) 0 = n := Nat.ofDigitChars_ten_toDigits
  rw [hvalue, if_neg, if_pos hn]
  rw [not_or, not_and_or]
  constructor
  . exact Nat.toDigits_ne_nil
  . rcases Nat.eq_zero_or_pos n with rfl | hpos
    . exact .inr (by decide)
    . exact .inl (head_unsigned (by omega))

theorem denotes_negative {n : Nat} {suffix : List Char} (h : unsignedSuffix suffix = some false)
    (hn : n < 2 ^ 63) : denotes ('-' :: (Printf.unsigned n ++ suffix)) = some (-(n : Int)) := by
  rw [denotes, constant_unsigned h (by simpa using hn)]

theorem denotes_unsigned {n : Nat} {suffix : List Char} {unsigned : Bool}
    (h : unsignedSuffix suffix = some unsigned) (hn : n < if unsigned then 2 ^ 64 else 2 ^ 63)
    : denotes (Printf.unsigned n ++ suffix) = some (n : Int) := by
  obtain ⟨c, rest, hcons⟩ : ∃ c rest, Printf.unsigned n = c :: rest := by
    apply List.exists_cons_of_ne_nil
    exact Nat.toDigits_ne_nil
  have hc : Char.isDigit c = true := Printf.isDigit_of_mem_unsigned (hcons ▸ List.mem_cons_self)
  have hconstant := constant_unsigned h hn
  rw [hcons, List.cons_append] at hconstant ⊢
  unfold denotes
  split
  . next heq =>
    rw [List.cons.injEq] at heq
    rw [heq.1] at hc
    exact absurd hc (by decide)
  . have hne : ∀ word : List Char, word.head?.any Char.isDigit = false → c :: (rest ++ suffix) ≠ word := by
      rintro _ hword rfl
      simp [hc] at hword
    rw [if_neg (hne _ (by decide)), if_neg (hne _ (by decide)), hconstant]
    rfl

/--
What is printed of a signed number denotes it, where a signed type can hold its magnitude.
-/
theorem denotes_signed {n : Int} {suffix : List Char} (h : unsignedSuffix suffix = some false)
    (hlower : -(2 ^ 63) < n) (hupper : n < 2 ^ 63) : denotes (Printf.signed n ++ suffix) = some n := by
  unfold Printf.signed
  split
  . next hneg =>
    rw [List.cons_append, denotes_negative h (by omega)]
    congr 1
    omega
  . next hnonneg =>
    rw [denotes_unsigned h (by simp only [Bool.false_eq_true, if_false]; omega)]
    congr 1
    omega

end Gremlin.Text.Constants
