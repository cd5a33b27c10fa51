import Mathlib.Tactic.Ring
import Gremlin.Codec.Decoder

/-!
This module contains the little-endian code of fixed length: the number a byte sequence denotes and
the sequence of a given length for a number.
-/

namespace Codec

/--
The number that a little-endian byte sequence denotes.
-/
def leValue : List UInt8 → Nat
  | [] => 0
  | b :: bs => b.toNat + 256 * leValue bs

/--
The `n` low bytes of a number, the lowest first.
-/
def leBytes : (n : Nat) → Nat → List UInt8
  | 0, _ => []
  | n + 1, v => UInt8.ofNat v :: leBytes n (v / 256)

@[simp]
theorem length_leBytes (n v : Nat) : (leBytes n v).length = n := by
  induction n generalizing v with
  | zero => rfl
  | succ n ih => simp [leBytes, ih]

theorem leValue_leBytes {n v : Nat} (hv : v < 256 ^ n) : leValue (leBytes n v) = v := by
  induction n generalizing v with
  | zero =>
    have : v = 0 := by simpa using hv
    simp [leBytes, leValue, this]
  | succ n ih =>
    rw [Nat.pow_succ] at hv
    simp only [leBytes, leValue, UInt8.toNat_ofNat']
    rw [ih (by omega)]
    omega

end Codec
