import Gremlin.Codec.Leb128
import Gremlin.Codec.LittleEndian
import Gremlin.Codec.Emit

/-!
This module contains the primitives of the runtime: wire types, varints, little-endian integers,
length-prefixed byte strings and the zigzag map. A pointer into a read buffer together with the
number of bytes left is the list of these bytes.
-/

namespace Gremlin

open Codec

/--
The errors of `enum gremlin_error`.
-/
inductive Error where
  | truncated
  | overflow
  | invalidWireType
  | invalidFieldNum
  deriving DecidableEq, Repr

/--
The wire types of `enum gremlin_wire_type`.
-/
inductive WireType where
  | varint
  | fixed64
  | lenPrefix
  | sgroup
  | egroup
  | fixed32
  deriving DecidableEq, Repr

namespace WireType

def toNat : WireType → Nat
  | .varint => 0
  | .fixed64 => 1
  | .lenPrefix => 2
  | .sgroup => 3
  | .egroup => 4
  | .fixed32 => 5

/--
The cast to `enum gremlin_wire_type`, which generated code only does after it has rejected 6 and 7.
-/
def ofNat? : Nat → Option WireType
  | 0 => some .varint
  | 1 => some .fixed64
  | 2 => some .lenPrefix
  | 3 => some .sgroup
  | 4 => some .egroup
  | 5 => some .fixed32
  | _ => none

@[simp]
theorem ofNat?_toNat (wt : WireType) : ofNat? wt.toNat = some wt := by
  cases wt <;> rfl

theorem toNat_lt (wt : WireType) : wt.toNat < 6 := by
  cases wt <;> decide

theorem toNat_of_ofNat?_eq_some {n : Nat} {wt : WireType} (h : ofNat? n = some wt)
    : n = wt.toNat := by
  match n, h with
  | 0, h | 1, h | 2, h | 3, h | 4, h | 5, h =>
    simp only [ofNat?, Option.some.injEq] at h
    subst h
    rfl

end WireType

section Size

/--
The number of leading zeros of a nonzero word.
-/
def clzll (v : BitVec 64) : Nat :=
  63 - Nat.log2 v.toNat

/--
`gremlin_varint_size_clz`.
-/
def varintSize (v : BitVec 64) : Nat :=
  if v = 0 then
    1
  else
    let bits := 64 - clzll v
    (bits + 6) / 7

def varintSizeCascade (v : BitVec 64) : Nat :=
  if v < 0x80 then 1
  else if v < 0x4000 then 2
  else if v < 0x200000 then 3
  else if v < 0x10000000 then 4
  else if v < 0x800000000 then 5
  else if v < 0x40000000000 then 6
  else if v < 0x2000000000000 then 7
  else if v < 0x100000000000000 then 8
  else if v < 0x8000000000000000 then 9
  else 10

def varint32Size (v : BitVec 32) : Nat :=
  if v < 0x80 then 1
  else if v < 0x4000 then 2
  else if v < 0x200000 then 3
  else if v < 0x10000000 then 4
  else 5

end Size

section Encode

/--
The loop of `gremlin_varint_encode_at` and `gremlin_varint32_encode_at`. A word of at most 64 bits
leaves it after at most nine rounds.
-/
def varintEncodeLoop : (fuel : Nat) → (buf : Mem) → (off v : Nat) → Mem × Nat
  | 0, buf, off, v => (buf.set off (UInt8.ofNat v), off + 1)
  | fuel + 1, buf, off, v =>
    if v ≥ 128 then
      varintEncodeLoop fuel (buf.set off (UInt8.ofNat (128 + v % 128))) (off + 1) (v / 128)
    else
      (buf.set off (UInt8.ofNat v), off + 1)

def varintEncodeAt (buf : Mem) (off : Nat) (v : BitVec 64) : Mem × Nat :=
  varintEncodeLoop 9 buf off v.toNat

def varint32EncodeAt (buf : Mem) (off : Nat) (v : BitVec 32) : Mem × Nat :=
  varintEncodeLoop 4 buf off v.toNat

def fixed32EncodeAt (buf : Mem) (off : Nat) (v : BitVec 32) : Mem × Nat :=
  (buf.write off (leBytes 4 v.toNat), off + 4)

def fixed64EncodeAt (buf : Mem) (off : Nat) (v : BitVec 64) : Mem × Nat :=
  (buf.write off (leBytes 8 v.toNat), off + 8)

def writeBytesAt (buf : Mem) (off : Nat) (src : List UInt8) : Mem × Nat :=
  (buf.write off src, off + src.length)

end Encode

section Decode

def Error.ofVarint : VarintError → Error
  | .truncated => .truncated
  | .overflow => .overflow

/--
`gremlin_varint_decode`: the single-byte fast path, then a loop over at most ten bytes.
-/
def varintDecode : Decoder UInt8 Error (BitVec 64) := fun buf =>
  match buf with
  | [] => .error .truncated
  | b :: _ =>
    if b < 128 then
      .ok (b.toBitVec.setWidth 64, 1)
    else
      (varintLoop 64 10 0 0 buf).mapError Error.ofVarint

/--
`gremlin_varint32_decode`: the same over at most five bytes, into a 32-bit word.
-/
def varint32Decode : Decoder UInt8 Error (BitVec 32) := fun buf =>
  match buf with
  | [] => .error .truncated
  | b :: _ =>
    if b < 128 then
      .ok (b.toBitVec.setWidth 32, 1)
    else
      (varintLoop 32 5 0 0 buf).mapError Error.ofVarint

/--
`gremlin_fixed32_decode`, whose callers advance by four.
-/
def fixed32Decode : Decoder UInt8 Error (BitVec 32) :=
  (Decoder.take 4 .truncated).map fun bytes => BitVec.ofNat 32 (leValue bytes)

/--
`gremlin_fixed64_decode`, whose callers advance by eight.
-/
def fixed64Decode : Decoder UInt8 Error (BitVec 64) :=
  (Decoder.take 8 .truncated).map fun bytes => BitVec.ofNat 64 (leValue bytes)

/--
`gremlin_bytes_decode`: a varint length and the content of the slice of that length.
-/
def bytesDecode : Decoder UInt8 Error (List UInt8) :=
  varintDecode.bind fun value => Decoder.take value.toNat .truncated

end Decode

section ZigZag

def zigzag32 (v : BitVec 32) : BitVec 32 :=
  let sign := if v.toInt < 0 then 0xFFFFFFFF#32 else 0#32
  (v <<< 1) ^^^ sign

def unzigzag32 (v : BitVec 32) : BitVec 32 :=
  let mask := 0#32 - (v &&& 1#32)
  (v >>> 1) ^^^ mask

def zigzag64 (v : BitVec 64) : BitVec 64 :=
  let sign := if v.toInt < 0 then 0xFFFFFFFFFFFFFFFF#64 else 0#64
  (v <<< 1) ^^^ sign

def unzigzag64 (v : BitVec 64) : BitVec 64 :=
  let mask := 0#64 - (v &&& 1#64)
  (v >>> 1) ^^^ mask

end ZigZag

/-! Sizes agree with the code they measure. -/

theorem varintSize_eq_log2 (v : BitVec 64) : varintSize v = Nat.log2 v.toNat / 7 + 1 := by
  unfold varintSize
  split
  . next h => simp [h]
  . next h =>
    have hne : v.toNat ≠ 0 := by
      intro h0
      exact h (BitVec.eq_of_toNat_eq (by simpa using h0))
    have hlt : Nat.log2 v.toNat < 64 := (Nat.log2_lt hne).mpr v.isLt
    simp only [clzll]
    omega

theorem length_varintBytes_word (v : BitVec 64)
    : (varintBytes 9 v.toNat).length = varintSize v := by
  rw [varintSize_eq_log2, length_varintBytes]
  have := v.isLt
  omega

theorem log2_div_seven {k v : Nat} (hlo : 128 ^ k ≤ v) (hhi : v < 128 ^ (k + 1))
    : Nat.log2 v / 7 = k := by
  have hne : v ≠ 0 := by
    have : 0 < 128 ^ k := Nat.pow_pos (by omega)
    omega
  have hpow (j : Nat) : 128 ^ j = 2 ^ (7 * j) := by
    rw [Nat.pow_mul]
  rw [hpow] at hlo hhi
  have hlo := (Nat.le_log2 hne).mpr hlo
  have hhi := (Nat.log2_lt hne).mpr hhi
  omega

theorem varintSize_eq_varintSizeCascade (v : BitVec 64) : varintSize v = varintSizeCascade v := by
  rw [varintSize_eq_log2]
  have hlt := v.isLt
  unfold varintSizeCascade
  simp only [BitVec.lt_def, BitVec.reduceToNat]
  by_cases h0 : v.toNat < 128
  . have : Nat.log2 v.toNat / 7 = 0 := by
      by_cases hz : v.toNat = 0
      . simp [hz]
      . exact log2_div_seven (by omega) (by omega)
    simp [h0, this]
  . simp only [h0, ↓reduceIte]
    repeat' split
    . rw [log2_div_seven (k := 1) (by omega) (by omega)]
    . rw [log2_div_seven (k := 2) (by omega) (by omega)]
    . rw [log2_div_seven (k := 3) (by omega) (by omega)]
    . rw [log2_div_seven (k := 4) (by omega) (by omega)]
    . rw [log2_div_seven (k := 5) (by omega) (by omega)]
    . rw [log2_div_seven (k := 6) (by omega) (by omega)]
    . rw [log2_div_seven (k := 7) (by omega) (by omega)]
    . rw [log2_div_seven (k := 8) (by omega) (by omega)]
    . rw [log2_div_seven (k := 9) (by omega) (by omega)]

theorem varint32Size_eq (v : BitVec 32) : varint32Size v = varintSize (v.setWidth 64) := by
  rw [varintSize_eq_varintSizeCascade]
  have hlt := v.isLt
  have hmod : v.toNat % 18446744073709551616 = v.toNat := by omega
  unfold varint32Size varintSizeCascade
  simp only [BitVec.lt_def, BitVec.reduceToNat, BitVec.toNat_setWidth, Nat.reducePow, hmod]
  have h5 : v.toNat < 34359738368 := by omega
  simp only [h5, ↓reduceIte]

theorem length_varintBytes_word32 (v : BitVec 32)
    : (varintBytes 9 v.toNat).length = varint32Size v := by
  have hlt := v.isLt
  have hword : (v.setWidth 64).toNat = v.toNat := by
    rw [BitVec.toNat_setWidth]
    omega
  rw [varint32Size_eq, ← length_varintBytes_word, hword]

/-! Encoders write the code. -/

theorem varintEncodeLoop_eq (fuel : Nat) (buf : Mem) (off v : Nat)
    : varintEncodeLoop fuel buf off v
        =
      (buf.write off (varintBytes fuel v), off + (varintBytes fuel v).length) := by
  induction fuel generalizing buf off v with
  | zero => simp [varintEncodeLoop, varintBytes, Mem.set_eq_write]
  | succ fuel ih =>
    simp only [varintEncodeLoop, varintBytes]
    by_cases h : v < 128
    . have hnot : ¬v ≥ 128 := by omega
      simp [h, hnot, Mem.set_eq_write]
    . have hge : v ≥ 128 := by omega
      simp only [h, hge, ↓reduceIte, ih, Mem.set_eq_write]
      have := Mem.write_write buf off [UInt8.ofNat (128 + v % 128)] (varintBytes fuel (v / 128))
      simp only [List.length_singleton, List.singleton_append] at this
      rw [this]
      simp only [List.length_cons]
      congr 1
      omega

theorem varintEncodeAt_eq (buf : Mem) (off : Nat) (v : BitVec 64)
    : varintEncodeAt buf off v
        =
      (buf.write off (varintBytes 9 v.toNat), off + (varintBytes 9 v.toNat).length) :=
  varintEncodeLoop_eq 9 buf off v.toNat

theorem varint32EncodeAt_eq (buf : Mem) (off : Nat) (v : BitVec 32)
    : varint32EncodeAt buf off v
        =
      (buf.write off (varintBytes 9 v.toNat), off + (varintBytes 9 v.toNat).length) := by
  have hlt := v.isLt
  have : varintBytes 4 v.toNat = varintBytes 9 v.toNat := varintBytes_fuel (by omega) (by omega)
  unfold varint32EncodeAt
  rw [varintEncodeLoop_eq, this]

/-! Decoders read the code. -/

theorem varintLoop_first {w limit : Nat} (hlimit : 0 < limit) {b : UInt8} (hb : b < 128)
    (rest : List UInt8)
    : varintLoop w limit 0 0 (b :: rest) = .ok (b.toBitVec.setWidth w, 1) := by
  rw [varintLoop_cons hlimit]
  simp only [hb, ↓reduceIte, Except.ok.injEq, Prod.mk.injEq]
  refine ⟨?_, by simp⟩
  apply BitVec.eq_of_toNat_eq
  have : b.toNat < 128 := by
    rw [UInt8.lt_iff_toNat_lt] at hb
    simpa using hb
  rw [show (0 : BitVec w) = 0#w from rfl]
  simp only [Nat.mul_zero, BitVec.shiftLeft_zero, BitVec.zero_or, BitVec.toNat_ofNat,
    BitVec.toNat_setWidth, UInt8.toNat_toBitVec]
  rw [Nat.mod_eq_of_lt this]

theorem varintDecode_eq (buf : List UInt8)
    : varintDecode buf = (readVarint 64 10).mapError Error.ofVarint buf := by
  unfold varintDecode Decoder.mapError readVarint
  match buf with
  | [] => rfl
  | b :: rest =>
    dsimp only
    split
    . next hb => rw [varintLoop_first (by omega) hb]; rfl
    . rfl

theorem varint32Decode_eq (buf : List UInt8)
    : varint32Decode buf = (readVarint 32 5).mapError Error.ofVarint buf := by
  unfold varint32Decode Decoder.mapError readVarint
  match buf with
  | [] => rfl
  | b :: rest =>
    dsimp only
    split
    . next hb => rw [varintLoop_first (by omega) hb]; rfl
    . rfl

theorem varintDecode_eq_ok_iff {buf : List UInt8} {v : BitVec 64} {n : Nat}
    : varintDecode buf = .ok (v, n)
        ↔
      ∃ bs tail, buf = bs ++ tail ∧ IsVarint bs ∧ bs.length ≤ 10 ∧ n = bs.length
        ∧ v = BitVec.ofNat 64 (varintValue bs) := by
  rw [varintDecode_eq, Decoder.mapError_eq_ok_iff, readVarint_eq_ok_iff]

theorem varint32Decode_eq_ok_iff {buf : List UInt8} {v : BitVec 32} {n : Nat}
    : varint32Decode buf = .ok (v, n)
        ↔
      ∃ bs tail, buf = bs ++ tail ∧ IsVarint bs ∧ bs.length ≤ 5 ∧ n = bs.length
        ∧ v = BitVec.ofNat 32 (varintValue bs) := by
  rw [varint32Decode_eq, Decoder.mapError_eq_ok_iff, readVarint_eq_ok_iff]

instance : LawfulDecoder varintDecode := by
  rw [funext varintDecode_eq]
  infer_instance

instance : LawfulDecoder varint32Decode := by
  rw [funext varint32Decode_eq]
  infer_instance

instance : LawfulDecoder fixed32Decode :=
  inferInstanceAs (LawfulDecoder (Decoder.map _ _))

instance : LawfulDecoder fixed64Decode :=
  inferInstanceAs (LawfulDecoder (Decoder.map _ _))

instance : LawfulDecoder bytesDecode :=
  inferInstanceAs (LawfulDecoder (Decoder.bind _ _))

/-! The zigzag map is undone by its inverse, in any width. -/

theorem unzigzag_zigzag {w : Nat} (hw : 0 < w) (v : BitVec w)
    : let z := (v <<< 1) ^^^ (if v.msb then BitVec.allOnes w else 0#w)
      (z >>> 1) ^^^ (0#w - (z &&& 1#w)) = v := by
  intro z
  have hmask (b : Bool) : 0#w - (if b then 1#w else 0#w) = if b then BitVec.allOnes w else 0#w := by
    cases b
    . simp
    . simp [BitVec.neg_one_eq_allOnes]
  have hlow : z &&& 1#w = if v.msb then 1#w else 0#w := by
    ext i hi
    by_cases h0 : i = 0 <;> cases hm : v.msb <;> simp [z, hm, h0, BitVec.getElem_one]
  rw [hlow, hmask]
  ext i hi
  rw [BitVec.getElem_xor, BitVec.getElem_ushiftRight]
  by_cases hlast : 1 + i < w
  . cases hm : v.msb <;> simp [z, hm, hlast, BitVec.getLsbD_eq_getElem]
  . have : v[i] = v.msb := by
      rw [BitVec.msb_eq_getLsbD_last, BitVec.getLsbD_eq_getElem (by omega)]
      congr 1
      omega
    rw [this, BitVec.getLsbD_of_ge _ _ (by omega)]
    cases hm : v.msb <;> simp

theorem unzigzag32_zigzag32 (v : BitVec 32) : unzigzag32 (zigzag32 v) = v := by
  have := unzigzag_zigzag (by decide) v
  simpa [unzigzag32, zigzag32, BitVec.msb_eq_toInt] using this

theorem unzigzag64_zigzag64 (v : BitVec 64) : unzigzag64 (zigzag64 v) = v := by
  have := unzigzag_zigzag (by decide) v
  simpa [unzigzag64, zigzag64, BitVec.msb_eq_toInt] using this

end Gremlin
