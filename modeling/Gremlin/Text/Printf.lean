import Gremlin.Codec.Ieee
import Mathlib.Data.List.DropRight

/-!
This module contains the conversions of `printf` for integers and for exact numbers, and what
characters they make.
-/

namespace Gremlin.Text.Printf

/--
`%u`.
-/
def unsigned (n : Nat) : List Char :=
  Nat.toDigits 10 n

/--
`%d`.
-/
def signed (n : Int) : List Char :=
  if n < 0 then '-' :: unsigned n.natAbs else unsigned n.natAbs

/--
Where the first digit of a positive number stands.
-/
def exponent (q : ℚ) : Int :=
  if 1 ≤ q then Nat.log 10 ⌊q⌋₊ else -(Nat.clog 10 ⌈q⁻¹⌉₊ : Int)

/--
The first `p` digits of a positive number, and where the first of them stands.
-/
def leadingDigits (p : Nat) (q : ℚ) : Nat × Int :=
  let e := exponent q
  let n := Codec.roundEven (q * 10 ^ ((p : Int) - 1 - e))
  -- rounding may carry into one more digit
  if n = 10 ^ p then (10 ^ (p - 1), e + 1) else (n, e)

/--
A fraction without the zeros it ends with, and without the point if none of it is left.
-/
def withFraction (whole fraction : List Char) : List Char :=
  let fraction := fraction.rdropWhile (· = '0')
  if fraction = [] then whole else whole ++ '.' :: fraction

def exponentDigits (e : Int) : List Char :=
  let digits := unsigned e.natAbs
  (if e < 0 then '-' else '+') :: (if digits.length < 2 then '0' :: digits else digits)

/--
`%.<p>g` of a number that is finite.
-/
def general (p : Nat) (q : ℚ) : List Char :=
  if q = 0 then
    ['0']
  else
    let (n, e) := leadingDigits p |q|
    let digits := unsigned n
    let body :=
      if e < -4 ∨ p ≤ e then
        withFraction (digits.take 1) (digits.drop 1) ++ 'e' :: exponentDigits e
      else if e < 0 then
        withFraction ['0'] (List.replicate (-e - 1).toNat '0' ++ digits)
      else
        withFraction (digits.take (e.toNat + 1)) (digits.drop (e.toNat + 1))
    if q < 0 then '-' :: body else body

/-! The characters. -/

theorem isDigit_of_mem_unsigned {n : Nat} {c : Char} (h : c ∈ unsigned n) : c.isDigit = true :=
  Nat.isDigit_of_mem_toDigits (by decide) (by decide) h

def IsPlain (c : Char) : Prop :=
  c.isDigit = true ∨ c ∈ ['-', '+', '.', 'e']

theorem IsPlain.digit {c : Char} (h : c.isDigit = true) : IsPlain c :=
  .inl h

theorem withFraction_plain {whole fraction : List Char} (hwhole : ∀ c ∈ whole, IsPlain c)
    (hfraction : ∀ c ∈ fraction, IsPlain c) : ∀ c ∈ withFraction whole fraction, IsPlain c := by
  have hkept : ∀ c ∈ fraction.rdropWhile (· = '0'), IsPlain c := by
    intro c hc
    exact hfraction c ((List.rdropWhile_prefix _ _).subset hc)
  unfold withFraction
  dsimp only
  split
  . exact hwhole
  . intro c hc
    simp only [List.mem_append, List.mem_cons] at hc
    rcases hc with hc | rfl | hc
    . exact hwhole c hc
    . exact .inr (by decide)
    . exact hkept c hc

theorem exponentDigits_plain (e : Int) : ∀ c ∈ exponentDigits e, IsPlain c := by
  have hdigits : ∀ c ∈ unsigned e.natAbs, IsPlain c := fun c hc => .digit (isDigit_of_mem_unsigned hc)
  unfold exponentDigits
  dsimp only
  rw [List.forall_mem_cons]
  constructor
  . split <;> exact .inr (by decide)
  . split
    . rw [List.forall_mem_cons]
      exact ⟨.digit rfl, hdigits⟩
    . exact hdigits

theorem general_plain (p : Nat) (q : ℚ) : ∀ c ∈ general p q, IsPlain c := by
  have hdigits : ∀ (n : Nat), ∀ c ∈ unsigned n, IsPlain c :=
    fun n c hc => .digit (isDigit_of_mem_unsigned hc)
  have htake : ∀ n k : Nat, ∀ c ∈ (unsigned n).take k, IsPlain c :=
    fun n k c hc => hdigits n c (List.mem_of_mem_take hc)
  have hdrop : ∀ n k : Nat, ∀ c ∈ (unsigned n).drop k, IsPlain c :=
    fun n k c hc => hdigits n c (List.mem_of_mem_drop hc)
  have hzeros : ∀ k n : Nat, ∀ c ∈ List.replicate k '0' ++ unsigned n, IsPlain c := by
    intro k n c hc
    rcases List.mem_append.mp hc with hc | hc
    . rw [(List.mem_replicate.mp hc).2]
      exact .digit rfl
    . exact hdigits n c hc
  unfold general
  split
  . rw [List.forall_mem_singleton]
    exact .digit rfl
  . rcases leadingDigits p |q| with ⟨n, e⟩
    dsimp only
    have hbody : ∀ c ∈ (if e < -4 ∨ p ≤ e then
          withFraction ((unsigned n).take 1) ((unsigned n).drop 1) ++ 'e' :: exponentDigits e
        else if e < 0 then
          withFraction ['0'] (List.replicate (-e - 1).toNat '0' ++ unsigned n)
        else
          withFraction ((unsigned n).take (e.toNat + 1)) ((unsigned n).drop (e.toNat + 1))),
        IsPlain c := by
      split
      . intro c hc
        simp only [List.mem_append, List.mem_cons] at hc
        rcases hc with hc | rfl | hc
        . exact withFraction_plain (htake n 1) (hdrop n 1) c hc
        . exact .inr (by decide)
        . exact exponentDigits_plain e c hc
      . split
        . apply withFraction_plain
          . rw [List.forall_mem_singleton]
            exact .digit rfl
          . exact hzeros _ n
        . exact withFraction_plain (htake n _) (hdrop n _)
    split
    . rw [List.forall_mem_cons]
      exact ⟨.inr (by decide), hbody⟩
    . exact hbody

end Gremlin.Text.Printf
