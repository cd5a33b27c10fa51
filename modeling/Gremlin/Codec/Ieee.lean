import Mathlib.Data.Int.Log
import Mathlib.Data.Rat.Floor
import Mathlib.Algebra.Order.Field.Power
import Mathlib.Tactic.Positivity

/-!
This module contains the exact values that the bits of a floating-point number stand for, and the conversion
of exact values to a binary format. Zeros have no sign here.
-/

namespace Codec

inductive Extended where
  | nan
  | infinity (negative : Bool)
  | finite (value : ℚ)
  deriving DecidableEq

namespace Extended

/--
`x > q`.
-/
def above : Extended → ℚ → Bool
  | .nan, _ => false
  | .infinity negative, _ => !negative
  | .finite value, q => q < value

/--
`x < q`.
-/
def below : Extended → ℚ → Bool
  | .nan, _ => false
  | .infinity negative, _ => negative
  | .finite value, q => value < q

/--
What is no number, or is larger in magnitude than a cutoff.
-/
def Beyond (x : Extended) (cutoff : ℚ) : Prop :=
  x = .nan ∨ x.above cutoff = true ∨ x.below (-cutoff) = true

end Extended

def exactValue (v : BitVec 64) : Extended :=
  let exponent := (v.extractLsb' 52 11).toNat
  let fraction := (v.extractLsb' 0 52).toNat
  if exponent = 2047 then
    if fraction = 0 then .infinity v.msb else .nan
  else
    let magnitude : ℚ :=
      if exponent = 0 then fraction / 2 ^ 1074
      else (2 ^ 52 + fraction) * 2 ^ exponent / 2 ^ 1075
    .finite (if v.msb then -magnitude else magnitude)

/--
The whole number that is nearest to a number that is not negative, the even one of two.
-/
def roundEven (q : ℚ) : Nat :=
  let n := ⌊q⌋₊
  if q - n < 1 / 2 then n
  else if 1 / 2 < q - n then n + 1
  else n + n % 2

/--
How many digits the numbers of a format have, where the last digit of the smallest one stands, and the
largest one.
-/
structure BinaryFormat where
  precision : Nat
  lowest : Int
  largest : ℚ

namespace BinaryFormat

def binary32 : BinaryFormat :=
  ⟨24, -149, (2 ^ 24 - 1) * 2 ^ 104⟩

def binary64 : BinaryFormat :=
  ⟨53, -1074, (2 ^ 53 - 1) * 2 ^ 971⟩

variable (format : BinaryFormat)

/--
The distance of the numbers of the format around `q`.
-/
def spacing (q : ℚ) : ℚ :=
  2 ^ max (Int.log 2 |q| - (format.precision - 1)) format.lowest

/--
The number of the format that is nearest to `q`, or an infinity.
-/
def round (q : ℚ) : Extended :=
  let magnitude := roundEven (|q| / format.spacing q) * format.spacing q
  if format.largest < magnitude then .infinity (q < 0)
  else .finite (if q < 0 then -magnitude else magnitude)

def convert : Extended → Extended
  | .finite q => format.round q
  | x => x

end BinaryFormat

theorem exactValue_finite_iff (v : BitVec 64)
    : (∃ q, exactValue v = .finite q) ↔ v.extractLsb' 52 11 ≠ 2047#11 := by
  have hiff : v.extractLsb' 52 11 = 2047#11 ↔ (v.extractLsb' 52 11).toNat = 2047 := by
    rw [← BitVec.toNat_inj]
    rfl
  unfold exactValue
  dsimp only
  rw [ne_eq, hiff]
  by_cases hexp : (v.extractLsb' 52 11).toNat = 2047
  . rw [if_pos hexp]
    constructor
    . rintro ⟨q, hq⟩
      split at hq <;> simp at hq
    . intro h
      exact absurd hexp h
  . rw [if_neg hexp]
    constructor
    . intro _
      exact hexp
    . intro _
      exact ⟨_, rfl⟩

/-! What a format has is converted to itself. -/

theorem roundEven_natCast (n : Nat) : roundEven n = n := by
  unfold roundEven
  simp

namespace BinaryFormat

variable {format : BinaryFormat}

theorem round_ne_nan (q : ℚ) : format.round q ≠ .nan := by
  unfold round
  dsimp only
  split <;> simp

theorem roundEven_spacing {n : Nat} {e : Int} (hn : n < 2 ^ format.precision) (he : format.lowest ≤ e) {q : ℚ}
    (hq : |q| = n * 2 ^ e) : roundEven (|q| / format.spacing q) * format.spacing q = |q| := by
  unfold spacing
  by_cases hzero : n = 0
  . subst hzero
    simp [hq, roundEven]
  . have hpos : (0 : ℚ) < |q| := by
      rw [hq]
      have : 0 < n := Nat.pos_of_ne_zero hzero
      positivity
    have hlog : Int.log 2 |q| < e + format.precision := by
      rw [← Int.lt_zpow_iff_log_lt (by decide) hpos, hq, zpow_add₀ (by simp), mul_comm]
      have hn' : (n : ℚ) < ((2 : Nat) : ℚ) ^ (format.precision : Int) := by exact_mod_cast hn
      exact mul_lt_mul_of_pos_left hn' (by positivity)
    generalize hu : max (Int.log 2 |q| - (format.precision - 1)) format.lowest = u
    obtain ⟨k, hk⟩ : ∃ k : Nat, e = u + k := ⟨(e - u).toNat, by omega⟩
    have hquot : |q| / 2 ^ u = ((n * 2 ^ k : Nat) : ℚ) := by
      rw [hq, hk, zpow_add₀ (by simp), zpow_natCast, Nat.cast_mul, Nat.cast_pow, Nat.cast_ofNat,
        mul_comm ((2 : ℚ) ^ u), ← mul_assoc, mul_div_cancel_right₀]
      positivity
    rw [hquot, roundEven_natCast, ← hquot, div_mul_cancel₀]
    positivity

theorem round_eq_self {n : Nat} {e : Int} (hn : n < 2 ^ format.precision) (he : format.lowest ≤ e) {q : ℚ}
    (hq : |q| = n * 2 ^ e) (hle : |q| ≤ format.largest) : format.round q = .finite q := by
  unfold round
  rw [roundEven_spacing hn he hq, if_neg (not_lt.mpr hle)]
  split
  . next hneg => rw [abs_of_neg hneg, neg_neg]
  . next hnot => rw [abs_of_nonneg (not_lt.mp hnot)]

end BinaryFormat

theorem exactValue_magnitude {v : BitVec 64} {q : ℚ} (h : exactValue v = .finite q)
    : ∃ (n : Nat) (e : Int), n < 2 ^ 53 ∧ -1074 ≤ e ∧ e ≤ 971 ∧ |q| = n * 2 ^ e := by
  have hfraction : (v.extractLsb' 0 52).toNat < 2 ^ 52 := BitVec.isLt _
  have hexponent : (v.extractLsb' 52 11).toNat < 2 ^ 11 := BitVec.isLt _
  have habs (m : ℚ) (hm : 0 ≤ m) : |if v.msb then -m else m| = m := by
    split
    . rw [abs_neg, abs_of_nonneg hm]
    . exact abs_of_nonneg hm
  unfold exactValue at h
  dsimp only at h
  generalize (v.extractLsb' 52 11).toNat = exponent at *
  generalize (v.extractLsb' 0 52).toNat = fraction at *
  by_cases hfinite : exponent = 2047
  . rw [if_pos hfinite] at h
    by_cases hfraction : fraction = 0 <;> simp [hfraction] at h
  . rw [if_neg hfinite, Extended.finite.injEq] at h
    subst h
    by_cases hzero : exponent = 0
    . refine ⟨fraction, -1074, by omega, le_refl _, by omega, ?_⟩
      rw [if_pos hzero, habs _ (by positivity), zpow_neg, div_eq_mul_inv]
      rfl
    . refine ⟨2 ^ 52 + fraction, exponent - 1075, by omega, by omega, by omega, ?_⟩
      rw [if_neg hzero, habs _ (by positivity), zpow_sub₀ (by simp), zpow_natCast, mul_div_assoc,
        Nat.cast_add, Nat.cast_pow, Nat.cast_ofNat]
      rfl

theorem convert_exactValue (v : BitVec 64) : BinaryFormat.binary64.convert (exactValue v) = exactValue v := by
  cases hv : exactValue v with
  | nan => rfl
  | infinity negative => rfl
  | finite q =>
    obtain ⟨n, e, hn, hlow, hhigh, hq⟩ := exactValue_magnitude hv
    apply BinaryFormat.round_eq_self hn hlow hq
    rw [hq]
    have hn' : (n : ℚ) ≤ 2 ^ 53 - 1 := by
      have : n + 1 ≤ 2 ^ 53 := hn
      have : ((n + 1 : Nat) : ℚ) ≤ ((2 ^ 53 : Nat) : ℚ) := Nat.cast_le.mpr this
      push_cast at this
      exact le_sub_iff_add_le.mpr this
    have he : (2 : ℚ) ^ e ≤ 2 ^ 971 := by
      rw [← zpow_natCast]
      exact zpow_le_zpow_right₀ (by norm_num) hhigh
    exact mul_le_mul hn' he (by positivity) (by norm_num)

end Codec
