import Gremlin.Runtime.Basic

/-!
This module contains the meaning of the zigzag map and the relation of the bitwise code to it.
-/

namespace Gremlin

/--
`zigzag_encode` of the specification, on integers of any size.
-/
def zigzagEncode (v : Int) : Int :=
  if v ≥ 0 then 2 * v else -2 * v - 1

/-! The bitwise code, in any width. -/

section Width

variable {w : Nat}

def zigzagBits (v : BitVec w) : BitVec w :=
  (v <<< 1) ^^^ (if v.msb then BitVec.allOnes w else 0#w)

def unzigzagBits (u : BitVec w) : BitVec w :=
  (u >>> 1) ^^^ (0#w - (u &&& 1#w))

theorem toNat_zigzagBits (hw : 0 < w) (v : BitVec w) : ((zigzagBits v).toNat : Int) = zigzagEncode v.toInt := by
  have hpow : 2 ^ w = 2 * 2 ^ (w - 1) := by
    rw [← Nat.pow_succ', Nat.succ_eq_add_one, Nat.sub_add_cancel hw]
  have hlt := v.isLt
  have hsign := @BitVec.msb_eq_decide w v
  unfold zigzagEncode
  cases hm : v.msb with
  | false =>
    -- The shift drops a bit that is clear.
    rw [hm, eq_comm, decide_eq_false_iff_not] at hsign
    have htoInt : v.toInt = v.toNat := BitVec.toInt_eq_toNat_of_msb hm
    have hshift : (v <<< 1).toNat = 2 * v.toNat := by
      rw [BitVec.toNat_shiftLeft, Nat.shiftLeft_eq, Nat.mod_eq_of_lt] <;> omega
    have hbits : zigzagBits v = v <<< 1 := by
      simp [zigzagBits, hm]
    rw [hbits, hshift, htoInt, if_pos (by omega)]
    omega
  | true =>
    -- The shift drops the bit of the sign, and the mask turns the others over.
    rw [hm, eq_comm, decide_eq_true_eq] at hsign
    have htoInt : v.toInt = v.toNat - (2 ^ w : Nat) := by
      rw [BitVec.toInt_eq_msb_cond, if_pos hm]
    have hshift : (v <<< 1).toNat = 2 * v.toNat - 2 ^ w := by
      rw [BitVec.toNat_shiftLeft, Nat.shiftLeft_eq, Nat.mul_comm, Nat.mod_eq_sub_mod (by omega),
        Nat.mod_eq_of_lt (by omega)]
    have hbits : zigzagBits v = ~~~(v <<< 1) := by
      simp [zigzagBits, hm, BitVec.xor_allOnes]
    rw [hbits, BitVec.toNat_not, hshift, htoInt, if_neg (by omega)]
    omega

theorem unzigzagBits_eq {u : BitVec w} {low : Bool} (hlow : u.getLsbD 0 = low)
    : unzigzagBits u = (u >>> 1) ^^^ (if low then BitVec.allOnes w else 0#w) := by
  have hand : u &&& 1#w = if low then 1#w else 0#w := by
    ext i hi
    cases i with
    | zero =>
      have hget : u[0] = low := by rw [← hlow, BitVec.getLsbD_eq_getElem hi]
      cases low <;> simp [hget]
    | succ i => cases low <;> simp [BitVec.getElem_one]
  unfold unzigzagBits
  rw [hand]
  cases low
  . simp
  . simp [BitVec.neg_one_eq_allOnes]

theorem zigzagBits_unzigzagBits (hw : 0 < w) (u : BitVec w) : zigzagBits (unzigzagBits u) = u := by
  obtain ⟨low, hlow⟩ : ∃ low, u.getLsbD 0 = low := ⟨_, rfl⟩
  have hbits := unzigzagBits_eq hlow
  have hsign : (unzigzagBits u).msb = low := by
    cases low <;> simp [hbits, BitVec.msb_ushiftRight, hw]
  unfold zigzagBits
  rw [hsign, hbits]
  ext i hi
  cases i with
  | zero =>
    have hget : u[0] = low := by rw [← hlow, BitVec.getLsbD_eq_getElem hi]
    cases low <;> simp [hget]
  | succ i =>
    have hi' : u.getLsbD (1 + i) = u[i + 1] := by
      rw [Nat.add_comm 1 i, BitVec.getLsbD_eq_getElem hi]
    cases low <;> simp [hi']

end Width

/-! The two widths of the code. -/

theorem zigzag32_eq (v : BitVec 32) : zigzag32 v = zigzagBits v := by
  simp [zigzag32, zigzagBits, BitVec.msb_eq_toInt]

theorem zigzag64_eq (v : BitVec 64) : zigzag64 v = zigzagBits v := by
  simp [zigzag64, zigzagBits, BitVec.msb_eq_toInt]

theorem unzigzag32_eq (u : BitVec 32) : unzigzag32 u = unzigzagBits u :=
  rfl

theorem unzigzag64_eq (u : BitVec 64) : unzigzag64 u = unzigzagBits u :=
  rfl

/--
The code is the map of the specification, and its two halves undo each other, in both widths.
-/
theorem zigzag_exact
    : (∀ v : BitVec 32, ((zigzag32 v).toNat : Int) = zigzagEncode v.toInt ∧ unzigzag32 (zigzag32 v) = v)
        ∧ (∀ u : BitVec 32, zigzag32 (unzigzag32 u) = u)
        ∧ (∀ v : BitVec 64, ((zigzag64 v).toNat : Int) = zigzagEncode v.toInt ∧ unzigzag64 (zigzag64 v) = v)
        ∧ ∀ u : BitVec 64, zigzag64 (unzigzag64 u) = u := by
  refine ⟨?_, ?_, ?_, ?_⟩
  . intro v
    rw [zigzag32_eq, unzigzag32_eq]
    exact ⟨toNat_zigzagBits (by decide) v, unzigzag_zigzag (by decide) v⟩
  . intro u
    rw [zigzag32_eq, unzigzag32_eq, zigzagBits_unzigzagBits (by decide)]
  . intro v
    rw [zigzag64_eq, unzigzag64_eq]
    exact ⟨toNat_zigzagBits (by decide) v, unzigzag_zigzag (by decide) v⟩
  . intro u
    rw [zigzag64_eq, unzigzag64_eq, zigzagBits_unzigzagBits (by decide)]

/-! The extreme values lose nothing. -/

example : zigzag32 (BitVec.intMin 32) = 0xFFFFFFFF#32 ∧ zigzag64 (BitVec.intMin 64) = 0xFFFFFFFFFFFFFFFF#64 := by
  decide

end Gremlin
