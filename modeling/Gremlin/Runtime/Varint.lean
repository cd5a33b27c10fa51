import Mathlib.Algebra.Order.Floor.Div
import Mathlib.Data.Nat.Size
import Gremlin.Runtime.Basic

/-!
This module contains what the varint codec does on every value and on every input.
-/

namespace Gremlin

open Codec

structure Writer where
  buf : Mem
  cap : Nat
  offset : Nat

def Writer.put (w : Writer) (b : UInt8) : Writer :=
  { w with buf := w.buf.set w.offset b, offset := w.offset + 1 }

/--
The loop of `gremlin_varint_encode` and `gremlin_varint32_encode`.
-/
def varintWriteLoop : (fuel : Nat) → (w : Writer) → (v : Nat) → Writer
  | 0, w, v => w.put (UInt8.ofNat v)
  | fuel + 1, w, v =>
    if v ≥ 128 then
      varintWriteLoop fuel (w.put (UInt8.ofNat (128 + v % 128))) (v / 128)
    else
      w.put (UInt8.ofNat v)

def varintEncode (w : Writer) (v : BitVec 64) : Writer :=
  if v < 128 then w.put (UInt8.ofNat v.toNat) else varintWriteLoop 9 w v.toNat

def varint32Encode (w : Writer) (v : BitVec 32) : Writer :=
  if v < 128 then w.put (UInt8.ofNat v.toNat) else varintWriteLoop 4 w v.toNat

/--
From `off` on the memory holds the bytes, and elsewhere it is as before.
-/
def Stores (mem : Mem) (off : Nat) (bs : List UInt8) (mem' : Mem) : Prop :=
  mem'.read off bs.length = bs ∧ ∀ i, i < off ∨ off + bs.length ≤ i → mem' i = mem i

theorem stores_write (mem : Mem) (off : Nat) (bs : List UInt8) : Stores mem off bs (mem.write off bs) := by
  refine ⟨Mem.read_write mem off bs, ?_⟩
  rintro i (hlt | hle)
  . exact Mem.write_of_lt mem bs hlt
  . exact Mem.write_of_le mem bs hle

theorem varintWriteLoop_eq (fuel : Nat) (w : Writer) (v : Nat)
    : varintWriteLoop fuel w v
        =
      { w with
        buf := (varintEncodeLoop fuel w.buf w.offset v).1
        offset := (varintEncodeLoop fuel w.buf w.offset v).2 } := by
  induction fuel generalizing w v with
  | zero => rfl
  | succ fuel ih =>
    unfold varintWriteLoop varintEncodeLoop
    split
    . rw [ih]
      rfl
    . rfl

theorem varintBytes_of_lt_128 {fuel v : Nat} (h : v < 128) : varintBytes fuel v = [UInt8.ofNat v] := by
  cases fuel with
  | zero => rfl
  | succ fuel => rw [varintBytes, if_pos h]

theorem varintEncode_eq (w : Writer) (v : BitVec 64)
    : varintEncode w v
        =
      { w with
        buf := w.buf.write w.offset (varintBytes 9 v.toNat)
        offset := w.offset + (varintBytes 9 v.toNat).length } := by
  unfold varintEncode
  split
  . next h =>
    rw [varintBytes_of_lt_128 (by simpa [BitVec.lt_def] using h), Writer.put, Mem.set_eq_write,
      List.length_singleton]
  . rw [varintWriteLoop_eq, varintEncodeLoop_eq]

theorem varint32Encode_eq (w : Writer) (v : BitVec 32)
    : varint32Encode w v
        =
      { w with
        buf := w.buf.write w.offset (varintBytes 9 v.toNat)
        offset := w.offset + (varintBytes 9 v.toNat).length } := by
  unfold varint32Encode
  split
  . next h =>
    rw [varintBytes_of_lt_128 (by simpa [BitVec.lt_def] using h), Writer.put, Mem.set_eq_write,
      List.length_singleton]
  . have hlt := v.isLt
    have : varintBytes 4 v.toNat = varintBytes 9 v.toNat := varintBytes_fuel (by omega) (by omega)
    rw [varintWriteLoop_eq, varintEncodeLoop_eq, this]

/--
What is written for a value: the same bytes by both encoders, as many as its size, which are read
back, whatever follows them.
-/
structure Coded {w : Nat} (encodeAt : Mem → Nat → BitVec w → Mem × Nat)
    (encode : Writer → BitVec w → Writer) (size : BitVec w → Nat)
    (decode : Decoder UInt8 Error (BitVec w)) (v : BitVec w) (bs : List UInt8) : Prop where
  shortest : IsShortest v.toNat bs
  length : bs.length = size v
  storesAt : ∀ mem off, Stores mem off bs (encodeAt mem off v).1
    ∧ (encodeAt mem off v).2 = off + bs.length
  stores : ∀ w, Stores w.buf w.offset bs (encode w v).buf
    ∧ (encode w v).offset = w.offset + bs.length ∧ (encode w v).cap = w.cap
  read : ∀ rest, decode (bs ++ rest) = .ok (v, bs.length)

/--
The varint codec is correct for every word.
-/
theorem varint_coded
    : (∀ v, ∃ bs, Coded varintEncodeAt varintEncode varintSize varintDecode v bs
          ∧ varintSize v = varintSizeCascade v)
        ∧ ∀ v, ∃ bs, Coded varint32EncodeAt varint32Encode varint32Size varint32Decode v bs := by
  refine ⟨fun v => ⟨varintBytes 9 v.toNat, ⟨?_, ?_, ?_, ?_, ?_⟩, ?_⟩,
    fun v => ⟨varintBytes 9 v.toNat, ?_, ?_, ?_, ?_, ?_⟩⟩
  . exact isShortest_varintBytes (by have := v.isLt; omega)
  . exact length_varintBytes_word v
  . intro mem off
    rw [varintEncodeAt_eq]
    exact ⟨stores_write mem off _, rfl⟩
  . intro w
    rw [varintEncode_eq]
    exact ⟨stores_write w.buf w.offset _, rfl, rfl⟩
  . intro rest
    have hlt : v.toNat < 128 ^ (9 + 1) := by
      have := v.isLt
      omega
    rw [varintDecode_eq_ok_iff]
    exact ⟨_, rest, rfl, isVarint_varintBytes hlt, length_varintBytes_le 9 _, rfl,
      by rw [varintValue_varintBytes hlt, BitVec.ofNat_toNat, BitVec.setWidth_eq]⟩
  . exact varintSize_eq_varintSizeCascade v
  . exact isShortest_varintBytes (by have := v.isLt; omega)
  . exact length_varintBytes_word32 v
  . intro mem off
    rw [varint32EncodeAt_eq]
    exact ⟨stores_write mem off _, rfl⟩
  . intro w
    rw [varint32Encode_eq]
    exact ⟨stores_write w.buf w.offset _, rfl, rfl⟩
  . intro rest
    have hlt : v.toNat < 128 ^ (4 + 1) := by
      have := v.isLt
      omega
    have hbytes : varintBytes 9 v.toNat = varintBytes 4 v.toNat := varintBytes_fuel (by omega) hlt
    rw [hbytes, varint32Decode_eq_ok_iff]
    exact ⟨_, rest, rfl, isVarint_varintBytes hlt, length_varintBytes_le 4 _, rfl,
      by rw [varintValue_varintBytes hlt, BitVec.ofNat_toNat, BitVec.setWidth_eq]⟩

/--
The decoder takes the number at the start of the input if it is at most `limit` bytes long and below
`2 ^ w`, and tells what is wrong otherwise.
-/
structure DecodesExactly (w limit : Nat) (decode : Decoder UInt8 Error (BitVec w)) (buf : List UInt8)
    : Prop where
  ok : ∀ v k, decode buf = .ok (v, k) ↔ ∃ bs tail, buf = bs ++ tail ∧ IsVarint bs ∧ bs.length = k
    ∧ k ≤ limit ∧ varintValue bs < 2 ^ w ∧ v.toNat = varintValue bs
  overflow : decode buf = .error .overflow
    ↔ (∃ bs tail, buf = bs ++ tail ∧ IsVarint bs ∧ bs.length ≤ limit ∧ 2 ^ w ≤ varintValue bs)
      ∨ limit ≤ buf.length ∧ ∀ c ∈ buf.take limit, ¬c < 128
  truncated : decode buf = .error .truncated ↔ buf.length < limit ∧ ∀ c ∈ buf, ¬c < 128

/--
If the input starts with a number of at most `limit` bytes, it is below `2 ^ w`.
-/
def FitsWord (w limit : Nat) (buf : List UInt8) : Prop :=
  ∀ bs tail, buf = bs ++ tail → IsVarint bs → bs.length ≤ limit → varintValue bs < 2 ^ w

section Exact

variable {w limit : Nat} {buf : List UInt8}

theorem readVarint_exact_iff
    : DecodesExactly w limit ((readVarint w limit).mapError Error.ofVarint) buf ↔ FitsWord w limit buf := by
  have hok (v : BitVec w) (k : Nat) : (readVarint w limit).mapError Error.ofVarint buf = .ok (v, k)
      ↔ ∃ bs tail, buf = bs ++ tail ∧ IsVarint bs ∧ bs.length ≤ limit ∧ k = bs.length
        ∧ v = BitVec.ofNat w (varintValue bs) := by
    rw [Decoder.mapError_eq_ok_iff, readVarint_eq_ok_iff]
  constructor
  . rintro ⟨hexact, -, -⟩ bs tail heq hbs hle
    obtain ⟨bs', tail', heq', hbs', -, -, hlt, -⟩ := (hexact _ _).mp ((hok _ _).mpr ⟨bs, tail, heq, hbs, hle, rfl, rfl⟩)
    rw [heq] at heq'
    rw [(hbs.append_inj hbs' heq').1]
    exact hlt
  . intro hfits
    -- Either there is a varint within the limit, or only bytes that continue one.
    rcases exists_varint_or_cont limit buf with ⟨bs, tail, rfl, hbs, hle⟩ | hcont
    . have hread := (hok _ _).mpr ⟨bs, tail, rfl, hbs, hle, rfl, rfl⟩
      have hlt := hfits bs tail rfl hbs hle
      refine ⟨?_, ?_, ?_⟩
      . intro v k
        rw [hok]
        constructor
        . rintro ⟨bs', tail', heq, hbs', hle', rfl, rfl⟩
          refine ⟨bs', tail', heq, hbs', rfl, hle', hfits bs' tail' heq hbs' hle', ?_⟩
          exact Nat.mod_eq_of_lt (hfits bs' tail' heq hbs' hle')
        . rintro ⟨bs', tail', heq, hbs', rfl, hle', hlt', hv⟩
          refine ⟨bs', tail', heq, hbs', hle', rfl, ?_⟩
          rw [← hv, BitVec.ofNat_toNat, BitVec.setWidth_eq]
      . rw [hread]
        simp only [reduceCtorEq, false_iff, not_or]
        refine ⟨?_, fun h => hbs.not_cont hle tail h.2⟩
        rintro ⟨bs', tail', heq, hbs', hle', hge⟩
        have := hfits bs' tail' heq hbs' hle'
        omega
      . rw [hread]
        simp only [reduceCtorEq, false_iff, not_and]
        intro _ hcont
        exact hbs.not_cont hle tail fun c hc => hcont c (List.mem_of_mem_take hc)
    . have hnone (bs tail : List UInt8) (heq : buf = bs ++ tail) (hbs : IsVarint bs) (hle : bs.length ≤ limit)
          : False := by
        subst heq
        exact hbs.not_cont hle tail hcont
      have hread : (readVarint w limit).mapError Error.ofVarint buf
          = if limit ≤ buf.length then .error .overflow else .error .truncated := by
        rw [Decoder.mapError, readVarint_of_cont hcont]
        split <;> rfl
      refine ⟨?_, ?_, ?_⟩
      . intro v k
        rw [hok]
        constructor
        . rintro ⟨bs, tail, heq, hbs, hle, -⟩
          exact (hnone bs tail heq hbs hle).elim
        . rintro ⟨bs, tail, heq, hbs, rfl, hle, -⟩
          exact (hnone bs tail heq hbs hle).elim
      . rw [hread]
        split
        . next hle => exact ⟨fun _ => .inr ⟨hle, hcont⟩, fun _ => rfl⟩
        . next hlt =>
          simp only [Except.error.injEq, reduceCtorEq, false_iff, not_or, hlt, false_and, not_false_eq_true,
            and_true]
          rintro ⟨bs, tail, heq, hbs, hle, -⟩
          exact hnone bs tail heq hbs hle
      . rw [hread]
        split
        . next hle =>
          simp only [Except.error.injEq, reduceCtorEq, false_iff, not_and]
          omega
        . next hlt =>
          rw [List.take_of_length_le (by omega)] at hcont
          simp only [true_iff]
          exact ⟨by omega, hcont⟩

end Exact

/--
The decoders are exact on the inputs whose number fits in the word.
-/
theorem varintDecode_exact_iff (buf : List UInt8)
    : (DecodesExactly 64 10 varintDecode buf ↔ FitsWord 64 10 buf)
        ∧ (DecodesExactly 32 5 varint32Decode buf ↔ FitsWord 32 5 buf) := by
  rw [funext varintDecode_eq, funext varint32Decode_eq]
  exact ⟨readVarint_exact_iff, readVarint_exact_iff⟩

/--
Two numbers that are one too large for the word are read as zero.
-/
theorem varintDecode_not_exact
    : ¬DecodesExactly 64 10 varintDecode [0x80, 0x80, 0x80, 0x80, 0x80, 0x80, 0x80, 0x80, 0x80, 0x02]
        ∧ ¬DecodesExactly 32 5 varint32Decode [0x80, 0x80, 0x80, 0x80, 0x10] := by
  constructor
  . intro h
    obtain ⟨bs, tail, heq, hbs, -, -, hlt, -⟩ := (h.ok 0 10).mp (by decide +kernel)
    have hwhole := hbs.append_inj (by decide) (heq.symm.trans (List.append_nil _).symm)
    rw [hwhole.1] at hlt
    revert hlt
    decide
  . intro h
    obtain ⟨bs, tail, heq, hbs, -, -, hlt, -⟩ := (h.ok 0 5).mp (by decide +kernel)
    have hwhole := hbs.append_inj (by decide) (heq.symm.trans (List.append_nil _).symm)
    rw [hwhole.1] at hlt
    revert hlt
    decide

section Size

/--
The bytes of a number that is split into groups of seven bits, `varint_size`.
-/
def sevenBitGroups (n : Nat) : Nat :=
  max 1 (n.size ⌈/⌉ 7)

theorem size_eq_log2_add_one {n : Nat} (hne : n ≠ 0) : n.size = Nat.log2 n + 1 := by
  apply Nat.le_antisymm
  . apply Nat.size_le.mpr
    exact (Nat.log2_lt hne).mp (Nat.lt_succ_self _)
  . apply Nat.lt_size.mpr
    exact (Nat.le_log2 hne).mp (Nat.le_refl _)

theorem clzll_add_size {v : BitVec 64} (hne : v ≠ 0) : clzll v + v.toNat.size = 64 := by
  have hnat : v.toNat ≠ 0 := by
    intro h0
    exact hne (BitVec.eq_of_toNat_eq (by simpa using h0))
  have hlt : Nat.log2 v.toNat < 64 := (Nat.log2_lt hnat).mpr v.isLt
  rw [size_eq_log2_add_one hnat, clzll]
  omega

theorem varintSize_eq_sevenBitGroups (v : BitVec 64) : varintSize v = sevenBitGroups v.toNat := by
  rw [sevenBitGroups, Nat.ceilDiv_eq_add_pred_div]
  by_cases hzero : v = 0
  . subst hzero
    rfl
  . have hclz := clzll_add_size hzero
    have hnat : v.toNat ≠ 0 := by
      intro h0
      exact hzero (BitVec.eq_of_toNat_eq (by simpa using h0))
    have hsize := size_eq_log2_add_one hnat
    simp only [varintSize, hzero, ↓reduceIte]
    omega

/--
The three size functions compute the mathematical size.
-/
theorem varintSizes_agree
    : (∀ v : BitVec 64,
          varintSize v = sevenBitGroups v.toNat ∧ varintSizeCascade v = sevenBitGroups v.toNat)
        ∧ ∀ v : BitVec 32,
            varint32Size v = sevenBitGroups v.toNat
              ∧ varint32Size v = varintSize (v.setWidth 64)
              ∧ varint32Size v = varintSizeCascade (v.setWidth 64) := by
  constructor
  . intro v
    have hclz := varintSize_eq_sevenBitGroups v
    exact ⟨hclz, (varintSize_eq_varintSizeCascade v).symm.trans hclz⟩
  . intro v
    have hwide := varint32Size_eq v
    refine ⟨?_, hwide, hwide.trans (varintSize_eq_varintSizeCascade _)⟩
    rw [hwide, varintSize_eq_sevenBitGroups, BitVec.toNat_setWidth_of_le (by omega)]

end Size

end Gremlin
