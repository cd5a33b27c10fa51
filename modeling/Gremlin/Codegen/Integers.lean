import Gremlin.Codegen.Defaults
import Gremlin.Parser.Constants
import Gremlin.Text.Constants

/-!
This module contains what becomes of an integer literal that is the default of a field: the constant it
is read as and the C literal that is emitted for it.
-/

namespace Gremlin

open Text Parser Buffer

/-! How it is emitted. -/

/--
The integers of a kind: the lowest, and the one behind the highest.
-/
def ScalarKind.integerRange : ScalarKind → Option (Int × Int)
  | .int32 | .sint32 | .sfixed32 => some (-(2 ^ 31), 2 ^ 31)
  | .int64 | .sint64 | .sfixed64 => some (-(2 ^ 63), 2 ^ 63)
  | .uint32 | .fixed32 => some (0, 2 ^ 32)
  | .uint64 | .fixed64 => some (0, 2 ^ 64)
  | .double | .float | .bool => none

theorem constToInt32_int {c : Const} {v : Int} (h : Const.IsInt c v)
    : constToInt32 c = if -(2 ^ 31) ≤ v ∧ v < 2 ^ 31 then .ok v else .error .overflow := by
  cases h with
  | int =>
    dsimp only [constToInt32]
    by_cases hv : -(2 ^ 31) ≤ v ∧ v < 2 ^ 31
    . rw [if_neg (by omega), if_pos hv]
    . rw [if_pos (by omega), if_neg hv]
  | @uint n =>
    dsimp only [constToInt32]
    by_cases hn : n < 2 ^ 31
    . rw [if_neg (by omega), if_pos (by omega)]
    . rw [if_pos (by omega), if_neg (by omega)]

theorem constToInt64_int {c : Const} {v : Int} (h : Const.IsInt c v)
    : constToInt64 c = if -(2 ^ 63) ≤ v ∧ v < 2 ^ 63 then .ok v else .error .overflow := by
  cases h with
  | int hlower hupper =>
    dsimp only [constToInt64]
    rw [if_pos ⟨hlower, hupper⟩]
  | @uint n =>
    dsimp only [constToInt64]
    by_cases hn : n < 2 ^ 63
    . rw [if_neg (by omega), if_pos (by omega)]
    . rw [if_pos (by omega), if_neg (by omega)]

theorem constToUint32_int {c : Const} {v : Int} (h : Const.IsInt c v)
    : constToUint32 c = if 0 ≤ v ∧ v < 2 ^ 32 then .ok v.toNat else .error .overflow := by
  cases h with
  | int =>
    dsimp only [constToUint32]
    by_cases hv : 0 ≤ v ∧ v < 2 ^ 32
    . rw [if_neg (by omega), if_pos hv]
    . rw [if_pos (by omega), if_neg hv]
  | @uint n =>
    dsimp only [constToUint32]
    by_cases hn : n < 2 ^ 32
    . rw [if_neg (by omega), if_pos (by omega), Int.toNat_natCast]
    . rw [if_pos (by omega), if_neg (by omega)]

theorem constToUint64_int {c : Const} {v : Int} (h : Const.IsInt c v)
    : constToUint64 c = if 0 ≤ v ∧ v < 2 ^ 64 then .ok v.toNat else .error .overflow := by
  cases h with
  | int hlower hupper =>
    dsimp only [constToUint64]
    by_cases hv : 0 ≤ v ∧ v < 2 ^ 64
    . rw [if_neg (by omega), if_pos hv]
    . rw [if_pos (by omega), if_neg hv]
  | @uint n hn =>
    dsimp only [constToUint64]
    rw [if_pos (by omega), Int.toNat_natCast]

theorem length_unsigned_le {n : Nat} (h : n < 2 ^ 64) : (Printf.unsigned n).length ≤ 20 := by
  unfold Printf.unsigned
  rw [Nat.length_toDigits_le_iff (by decide) (by decide)]
  omega

theorem length_signed_le {v : Int} (hlower : -(2 ^ 63) ≤ v) (hupper : v < 2 ^ 63)
    : (Printf.signed v).length ≤ 21 := by
  have := @length_unsigned_le v.natAbs (by omega)
  unfold Printf.signed
  split
  . rw [List.length_cons]
    omega
  . omega

theorem printed_of_length {size : Nat} {buf : Span} (hne : buf ≠ []) (h : buf.length < size)
    : printed size buf = some buf :=
  if_neg (by simp [hne, h])

theorem unsigned_append_ne_nil (n : Nat) (suffix : Span) : Printf.unsigned n ++ suffix ≠ [] := by
  intro h
  exact Nat.toDigits_ne_nil (List.append_eq_nil_iff.mp h).1

theorem signed_append_ne_nil (v : Int) (suffix : Span) : Printf.signed v ++ suffix ≠ [] := by
  unfold Printf.signed
  split
  . simp
  . exact unsigned_append_ne_nil _ suffix

theorem printed_signed {v : Int} {suffix : Span} (hsuffix : Constants.unsignedSuffix suffix = some false)
    (hlength : suffix.length ≤ 2) (hlower : -(2 ^ 63) < v) (hupper : v < 2 ^ 63)
    : ∃ text, printed 64 (Printf.signed v ++ suffix) = some text ∧ Constants.denotes text = some v := by
  refine ⟨_, printed_of_length (signed_append_ne_nil v suffix) ?_, Constants.denotes_signed hsuffix hlower hupper⟩
  have := length_signed_le (by omega) hupper
  rw [List.length_append]
  omega

theorem printed_unsigned {n : Nat} {suffix : Span} (hsuffix : Constants.unsignedSuffix suffix = some true)
    (hlength : suffix.length ≤ 3) (hn : n < 2 ^ 64)
    : ∃ text, printed 64 (Printf.unsigned n ++ suffix) = some text ∧ Constants.denotes text = some (n : Int) := by
  refine ⟨_, printed_of_length (unsigned_append_ne_nil n suffix) ?_, Constants.denotes_unsigned hsuffix hn⟩
  have := length_unsigned_le hn
  rw [List.length_append]
  omega

theorem int32Default {c : Const} {v : Int} (hc : Const.IsInt c v) {fld : FieldNode} (hfld : fld.default = some c)
    : if -(2 ^ 31) ≤ v ∧ v < 2 ^ 31 then
        ∃ text, scalarResolveDefault fld .int32 = some text ∧ Constants.denotes text = some v
      else scalarResolveDefault fld .int32 = none := by
  simp only [scalarResolveDefault, hfld, constToInt32_int hc]
  by_cases hv : -(2 ^ 31) ≤ v ∧ v < 2 ^ 31
  . rw [if_pos hv, if_pos hv]
    by_cases hmin : v = -(2 ^ 31)
    . subst hmin
      exact ⟨_, if_pos rfl, rfl⟩
    . simp only [hmin, if_false]
      have h := @printed_signed v [] rfl (by decide) (by omega) (by omega)
      rwa [List.append_nil] at h
  . rw [if_neg hv, if_neg hv]

theorem int64Default {c : Const} {v : Int} (hc : Const.IsInt c v) {fld : FieldNode} (hfld : fld.default = some c)
    : if -(2 ^ 63) ≤ v ∧ v < 2 ^ 63 then
        ∃ text, scalarResolveDefault fld .int64 = some text ∧ Constants.denotes text = some v
      else scalarResolveDefault fld .int64 = none := by
  simp only [scalarResolveDefault, hfld, constToInt64_int hc]
  by_cases hv : -(2 ^ 63) ≤ v ∧ v < 2 ^ 63
  . rw [if_pos hv, if_pos hv]
    by_cases hmin : v = -(2 ^ 63)
    . subst hmin
      exact ⟨_, if_pos rfl, rfl⟩
    . simp only [hmin, if_false]
      exact @printed_signed v "LL".toList rfl (by decide) (by omega) hv.2
  . rw [if_neg hv, if_neg hv]

theorem uint32Default {c : Const} {v : Int} (hc : Const.IsInt c v) {fld : FieldNode} (hfld : fld.default = some c)
    : if 0 ≤ v ∧ v < 2 ^ 32 then
        ∃ text, scalarResolveDefault fld .uint32 = some text ∧ Constants.denotes text = some v
      else scalarResolveDefault fld .uint32 = none := by
  simp only [scalarResolveDefault, hfld, constToUint32_int hc]
  by_cases hv : 0 ≤ v ∧ v < 2 ^ 32
  . rw [if_pos hv, if_pos hv]
    have h := @printed_unsigned v.toNat "u".toList rfl (by decide) (by omega)
    rwa [Int.toNat_of_nonneg hv.1] at h
  . rw [if_neg hv, if_neg hv]

theorem uint64Default {c : Const} {v : Int} (hc : Const.IsInt c v) {fld : FieldNode} (hfld : fld.default = some c)
    : if 0 ≤ v ∧ v < 2 ^ 64 then
        ∃ text, scalarResolveDefault fld .uint64 = some text ∧ Constants.denotes text = some v
      else scalarResolveDefault fld .uint64 = none := by
  simp only [scalarResolveDefault, hfld, constToUint64_int hc]
  by_cases hv : 0 ≤ v ∧ v < 2 ^ 64
  . rw [if_pos hv, if_pos hv]
    have h := @printed_unsigned v.toNat "ULL".toList rfl (by decide) (by omega)
    rwa [Int.toNat_of_nonneg hv.1] at h
  . rw [if_neg hv, if_neg hv]

/--
An integer that its kind has is emitted as itself, any other is not emitted.
-/
theorem scalarResolveDefault_int {kind : ScalarKind} {lo hi : Int} (hkind : kind.integerRange = some (lo, hi))
    {c : Const} {v : Int} (hc : Const.IsInt c v) {fld : FieldNode} (hfld : fld.default = some c)
    : if lo ≤ v ∧ v < hi then
        ∃ text, scalarResolveDefault fld kind = some text ∧ Constants.denotes text = some v
      else scalarResolveDefault fld kind = none := by
  cases kind <;> simp only [ScalarKind.integerRange, Option.some.injEq, Prod.mk.injEq, reduceCtorEq] at hkind
  all_goals obtain ⟨rfl, rfl⟩ := hkind
  case int32 | sint32 | sfixed32 => exact int32Default hc hfld
  case int64 | sint64 | sfixed64 => exact int64Default hc hfld
  case uint32 | fixed32 => exact uint32Default hc hfld
  case uint64 | fixed64 => exact uint64Default hc hfld

theorem scalarResolveDefault_not_int {kind : ScalarKind} {lo hi : Int} (hkind : kind.integerRange = some (lo, hi))
    {c : Const} (hint : ∀ n, c ≠ .int n) (huint : ∀ n, c ≠ .uint n) {fld : FieldNode} (hfld : fld.default = some c)
    : scalarResolveDefault fld kind = none := by
  cases c with
  | int n => exact absurd rfl (hint n)
  | uint n => exact absurd rfl (huint n)
  | float _ | identifier _ | string _ =>
    cases kind <;> simp only [ScalarKind.integerRange, reduceCtorEq] at hkind
    all_goals simp [scalarResolveDefault, hfld, constToInt32, constToInt64, constToUint32, constToUint64]

/--
An integer literal within the range of its kind keeps its value; any other fails to parse or to be
resolved.
-/
theorem integerDefault_kept [Libc] {kind : ScalarKind} {lo hi : Int} (hkind : kind.integerRange = some (lo, hi))
    {literal : Span} {v : Int} (hliteral : IsIntegerLiteral literal v) {rest : Span}
    (hrest : ∀ c ∈ rest.head?, canContinueNumber c = false) (offset : Nat)
    : if lo ≤ v ∧ v < hi then
        ∃ c, parseConstValue.run ⟨offset, literal ++ rest⟩ = (.ok c, ⟨offset + literal.length, rest⟩)
          ∧ ∀ fld : FieldNode, fld.default = some c
            → ∃ text, scalarResolveDefault fld kind = some text ∧ Constants.denotes text = some v
      else
        ∀ c b, parseConstValue.run ⟨offset, literal ++ rest⟩ = (.ok c, b)
          → ∀ fld : FieldNode, fld.default = some c → scalarResolveDefault fld kind = none := by
  have ⟨hheld, hfloat⟩ := numberReading_integer hliteral hrest
  have hrange : -(2 ^ 63) ≤ lo ∧ hi ≤ 2 ^ 64 := by
    cases kind <;> simp only [ScalarKind.integerRange, Option.some.injEq, Prod.mk.injEq, reduceCtorEq] at hkind
    all_goals obtain ⟨rfl, rfl⟩ := hkind
    all_goals decide
  by_cases hv : lo ≤ v ∧ v < hi
  . rw [if_pos hv]
    obtain ⟨c, hreading, hc⟩ := hheld (by omega) (by omega)
    refine ⟨c, parseConstValue_number hreading offset, fun fld hfld => ?_⟩
    have h := scalarResolveDefault_int hkind hc hfld
    rwa [if_pos hv] at h
  . rw [if_neg hv]
    intro c b hparse fld hfld
    by_cases hfits : -(2 ^ 63) ≤ v ∧ v < 2 ^ 64
    . obtain ⟨c', hreading, hc⟩ := hheld hfits.1 hfits.2
      rw [parseConstValue_number hreading, Prod.mk.injEq, Except.ok.injEq] at hparse
      have h := scalarResolveDefault_int hkind hc (hparse.1 ▸ hfld)
      rwa [if_neg hv] at h
    . rcases parseConstValue_ok hparse with ⟨taken, rest', hreading, -⟩ | ⟨-, ⟨span, rfl⟩ | ⟨span, rfl⟩⟩
      . obtain ⟨d, rfl⟩ := hfloat (by omega) c taken rest' hreading
        exact scalarResolveDefault_not_int hkind (by simp) (by simp) hfld
      . exact scalarResolveDefault_not_int hkind (by simp) (by simp) hfld
      . exact scalarResolveDefault_not_int hkind (by simp) (by simp) hfld

/--
A C library that reads every number as `-2147483648`.
-/
@[reducible]
def minimumLibc : Libc where
  strtod _ := (0xC1E0000000000000, false)
  strtod_brace _ _ := rfl

/--
The lowest number of a kind, in hexadecimal.
-/
theorem sint32_lowest_kept
    : ∃ c, (@parseConstValue minimumLibc).run ⟨0, "-0x80000000]".toList⟩ = (.ok c, ⟨11, [']']⟩)
        ∧ ∀ fld : FieldNode, fld.default = some c
          → ∃ text, scalarResolveDefault fld .sint32 = some text ∧ Constants.denotes text = some (-2147483648) := by
  have hdigits : ∀ c ∈ "80000000".toList, isHexDigit c = true := List.all_eq_true.mp rfl
  have hliteral : IsIntegerLiteral "-0x80000000".toList (-2147483648) :=
    .negative (.hex (.inl rfl) hdigits)
  have hrest : ∀ c ∈ [']'].head?, canContinueNumber c = false := by
    intro c hc
    cases hc
    rfl
  have h := @integerDefault_kept minimumLibc .sint32 (-(2 ^ 31)) (2 ^ 31) rfl _ _ hliteral [']'] hrest 0
  rw [if_pos (by decide)] at h
  exact h

end Gremlin
