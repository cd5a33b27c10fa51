import Mathlib.Tactic.Ring
import Mathlib.Data.Nat.Log
import Gremlin.Codec.Decoder

/-!
This module contains the little-endian base-128 code: the byte sequences that are a number in this
code, the number they denote, the shortest sequence for a number, and a decoder of bounded length
that accumulates the digits in a machine word.
-/

namespace Codec

/--
A base-128 number: every byte but the last has its continuation bit set, the last has not.
-/
def IsVarint : List UInt8 → Prop
  | [] => False
  | b :: bs => if b < 128 then bs = [] else IsVarint bs

instance IsVarint.decidable : (bs : List UInt8) → Decidable (IsVarint bs)
  | [] => inferInstanceAs (Decidable False)
  | b :: bs =>
    have := IsVarint.decidable bs
    inferInstanceAs (Decidable (if b < 128 then bs = [] else IsVarint bs))

/--
The number that a sequence of base-128 digits denotes.
-/
def varintValue : List UInt8 → Nat
  | [] => 0
  | b :: bs => b.toNat % 128 + 128 * varintValue bs

@[simp]
theorem isVarint_nil : ¬IsVarint [] := by
  simp [IsVarint]

theorem isVarint_cons_last {b : UInt8} (hb : b < 128) (bs : List UInt8)
    : IsVarint (b :: bs) ↔ bs = [] := by
  simp [IsVarint, hb]

theorem isVarint_cons_cont {b : UInt8} (hb : ¬b < 128) (bs : List UInt8)
    : IsVarint (b :: bs) ↔ IsVarint bs := by
  simp [IsVarint, hb]

theorem IsVarint.length_pos {bs : List UInt8} (h : IsVarint bs) : 0 < bs.length := by
  cases bs with
  | nil => simp at h
  | cons => simp

theorem varintValue_lt (bs : List UInt8) : varintValue bs < 128 ^ bs.length := by
  induction bs with
  | nil => simp [varintValue]
  | cons b bs ih =>
    simp only [varintValue, List.length_cons, Nat.pow_succ]
    have : b.toNat % 128 < 128 := Nat.mod_lt _ (by omega)
    omega

theorem IsVarint.append_inj {as bs xs ys : List UInt8} (ha : IsVarint as) (hb : IsVarint bs)
    (h : as ++ xs = bs ++ ys)
    : as = bs ∧ xs = ys := by
  induction as generalizing bs with
  | nil => simp at ha
  | cons a as ih =>
    cases bs with
    | nil => simp at hb
    | cons b bs =>
      simp only [List.cons_append, List.cons.injEq] at h
      obtain ⟨rfl, h⟩ := h
      by_cases hlast : a < 128
      . rw [isVarint_cons_last hlast] at ha hb
        subst ha hb
        simpa using h
      . rw [isVarint_cons_cont hlast] at ha hb
        obtain ⟨rfl, hxy⟩ := ih ha hb h
        simp [hxy]

/--
The shortest base-128 number for `v` among those of at most `fuel + 1` bytes.
-/
def varintBytes : (fuel : Nat) → Nat → List UInt8
  | 0, v => [UInt8.ofNat v]
  | fuel + 1, v =>
    if v < 128 then
      [UInt8.ofNat v]
    else
      UInt8.ofNat (128 + v % 128) :: varintBytes fuel (v / 128)

theorem ofNat_lt_128 {v : Nat} (h : v < 128) : UInt8.ofNat v < 128 := by
  rw [UInt8.lt_iff_toNat_lt]
  simp only [UInt8.toNat_ofNat', UInt8.reduceToNat]
  omega

theorem not_ofNat_cont_lt_128 (v : Nat) : ¬UInt8.ofNat (128 + v % 128) < 128 := by
  rw [UInt8.lt_iff_toNat_lt]
  simp only [UInt8.toNat_ofNat', UInt8.reduceToNat]
  omega

theorem isVarint_varintBytes {fuel v : Nat} (hv : v < 128 ^ (fuel + 1))
    : IsVarint (varintBytes fuel v) := by
  induction fuel generalizing v with
  | zero =>
    simp only [varintBytes]
    rw [isVarint_cons_last (ofNat_lt_128 (by simpa using hv))]
  | succ fuel ih =>
    simp only [varintBytes]
    split
    . next hlt => rw [isVarint_cons_last (ofNat_lt_128 hlt)]
    . rw [isVarint_cons_cont (not_ofNat_cont_lt_128 v)]
      apply ih
      rw [Nat.pow_succ] at hv
      omega

@[simp]
theorem varintValue_varintBytes {fuel v : Nat} (hv : v < 128 ^ (fuel + 1))
    : varintValue (varintBytes fuel v) = v := by
  induction fuel generalizing v with
  | zero =>
    simp only [Nat.zero_add, Nat.pow_one] at hv
    simp only [varintBytes, varintValue, UInt8.toNat_ofNat']
    omega
  | succ fuel ih =>
    simp only [varintBytes]
    split
    . simp only [varintValue, UInt8.toNat_ofNat']
      omega
    . rw [Nat.pow_succ] at hv
      simp only [varintValue, UInt8.toNat_ofNat']
      rw [ih (by omega)]
      omega

theorem length_varintBytes_pos (fuel v : Nat) : 0 < (varintBytes fuel v).length := by
  cases fuel with
  | zero => simp [varintBytes]
  | succ fuel =>
    simp only [varintBytes]
    split <;> simp

theorem length_varintBytes_le (fuel v : Nat) : (varintBytes fuel v).length ≤ fuel + 1 := by
  induction fuel generalizing v with
  | zero => simp [varintBytes]
  | succ fuel ih =>
    simp only [varintBytes]
    split
    . simp
    . have := ih (v / 128)
      simpa using this

theorem length_varintBytes {fuel v : Nat} (hv : v < 128 ^ (fuel + 1))
    : (varintBytes fuel v).length = Nat.log2 v / 7 + 1 := by
  induction fuel generalizing v with
  | zero =>
    have : Nat.log2 v < 7 ∨ v = 0 := by
      by_cases h0 : v = 0
      . exact .inr h0
      . exact .inl ((Nat.log2_lt h0).mpr (by simpa using hv))
    rcases this with h | h
    . simp only [varintBytes, List.length_singleton]
      omega
    . simp [varintBytes, h]
  | succ fuel ih =>
    simp only [varintBytes]
    split
    . next hlt =>
      by_cases h0 : v = 0
      . simp [h0]
      . have := (Nat.log2_lt h0).mpr (show v < 2 ^ 7 by omega)
        simp only [List.length_singleton]
        omega
    . next hge =>
      rw [Nat.pow_succ] at hv
      rw [List.length_cons, ih (by omega)]
      have hdiv : Nat.log2 (v / 128) + 7 = Nat.log2 v := by
        rw [Nat.log2_eq_log_two, Nat.log2_eq_log_two]
        have hpos : 7 ≤ Nat.log 2 v := by
          rw [Nat.le_log_iff_pow_le (by omega) (by omega)]
          omega
        have := Nat.log_div_base_pow 2 v 7
        simp only [Nat.reducePow] at this
        omega
      omega

/--
A code with a larger length bound is the same code where the smaller bound suffices.
-/
theorem varintBytes_fuel {m n v : Nat} (hm : v < 128 ^ (m + 1)) (hn : v < 128 ^ (n + 1))
    : varintBytes m v = varintBytes n v := by
  induction m generalizing n v with
  | zero =>
    cases n with
    | zero => rfl
    | succ n =>
      have hlt : v < 128 := by simpa using hm
      simp [varintBytes, hlt]
  | succ m ih =>
    cases n with
    | zero =>
      have hlt : v < 128 := by simpa using hn
      simp [varintBytes, hlt]
    | succ n =>
      simp only [varintBytes]
      split
      . rfl
      . rw [Nat.pow_succ] at hm hn
        rw [ih (n := n) (by omega) (by omega)]

/--
The shortest base-128 number for `v`, which is the only one of its length.
-/
def IsShortest (v : Nat) (bs : List UInt8) : Prop :=
  IsVarint bs ∧ varintValue bs = v
    ∧ ∀ bs', IsVarint bs' → varintValue bs' = v → bs'.length ≤ bs.length → bs' = bs

theorem IsVarint.eq_singleton {bs : List UInt8} (hbs : IsVarint bs) (hle : bs.length ≤ 1)
    : bs = [UInt8.ofNat (varintValue bs)] := by
  cases bs with
  | nil => simp at hbs
  | cons b bs =>
    have hnil : bs = [] := List.eq_nil_of_length_eq_zero (by simpa using hle)
    subst hnil
    have hb : b < 128 := by
      by_contra hb
      rw [isVarint_cons_cont hb] at hbs
      simp at hbs
    rw [UInt8.lt_iff_toNat_lt] at hb
    simp only [UInt8.reduceToNat] at hb
    congr 1
    apply UInt8.toNat_inj.mp
    rw [UInt8.toNat_ofNat', varintValue, varintValue]
    omega

theorem isShortest_varintBytes {fuel v : Nat} (hv : v < 128 ^ (fuel + 1))
    : IsShortest v (varintBytes fuel v) := by
  refine ⟨isVarint_varintBytes hv, varintValue_varintBytes hv, ?_⟩
  induction fuel generalizing v with
  | zero =>
    rintro bs hbs rfl hle
    exact hbs.eq_singleton hle
  | succ fuel ih =>
    rintro bs hbs rfl hle
    unfold varintBytes at hle ⊢
    split at hle
    . next hlt =>
      rw [if_pos hlt]
      exact hbs.eq_singleton hle
    . next hge =>
      rw [if_neg hge]
      cases bs with
      | nil => simp at hbs
      | cons b bs =>
        have hb : ¬b < 128 := by
          intro hb
          rw [isVarint_cons_last hb] at hbs
          subst hbs
          simp only [varintValue] at hge
          omega
        rw [isVarint_cons_cont hb] at hbs
        have hdiv : varintValue (b :: bs) / 128 = varintValue bs := by
          rw [varintValue]
          omega
        rw [hdiv] at hle ⊢
        rw [Nat.pow_succ] at hv
        congr 1
        . apply UInt8.toNat_inj.mp
          rw [UInt8.lt_iff_toNat_lt] at hb
          have := b.toNat_lt
          simp only [UInt8.reduceToNat] at hb
          rw [UInt8.toNat_ofNat', varintValue]
          omega
        . apply ih (by omega) bs hbs rfl
          simpa using hle

section Decode

variable (w limit : Nat)

/--
The ways reading a base-128 number can fail: the input ends inside the number, or the number is
longer than the decoder reads.
-/
inductive VarintError where
  | truncated
  | overflow
  deriving DecidableEq, Repr

/--
Read a base-128 number of at most `limit` bytes into a `w`-bit word. The digits are or-ed into
`value`, digit `i` at bit `7 * i`.
-/
def varintLoop : (i : Nat) → (value : BitVec w) → List UInt8 → Except VarintError (BitVec w × Nat)
  | i, _, [] => if i = limit then .error .overflow else .error .truncated
  | i, value, b :: rest =>
    if i = limit then
      .error .overflow
    else
      let value := value ||| (b &&& 0x7f).toBitVec.setWidth w <<< (7 * i)
      if b &&& 0x80 = 0 then
        .ok (value, i + 1)
      else
        varintLoop (i + 1) value rest

end Decode

theorem and_0x80_eq_zero_iff (b : UInt8) : b &&& 0x80 = 0 ↔ b < 128 := by
  have hbyte : ∀ n : Fin 256, UInt8.ofNat n &&& 0x80 = 0 ↔ UInt8.ofNat n < 128 := by
    decide +kernel
  simpa using hbyte ⟨b.toNat, b.toNat_lt⟩

theorem and_0x7f_toNat (b : UInt8) : (b &&& 0x7f).toNat = b.toNat % 128 := by
  rw [UInt8.toNat_and]
  exact Nat.and_two_pow_sub_one_eq_mod b.toNat 7

theorem or_digit {w i x d : Nat} (hx : x < 128 ^ i)
    : BitVec.ofNat w x ||| BitVec.ofNat w d <<< (7 * i) = BitVec.ofNat w (x + 128 ^ i * d) := by
  have hpow : 128 ^ i = 2 ^ (7 * i) := by
    rw [Nat.pow_mul]
  rw [hpow] at hx ⊢
  rw [Nat.add_comm, Nat.two_pow_add_eq_or_of_lt hx, Nat.or_comm, BitVec.ofNat_or]
  congr 1
  apply BitVec.eq_of_toNat_eq
  simp only [BitVec.toNat_shiftLeft, BitVec.toNat_ofNat, Nat.shiftLeft_eq]
  rw [Nat.mul_comm (2 ^ (7 * i)) d, Nat.mod_mul_mod]

theorem digit_setWidth (w : Nat) (b : UInt8)
    : (b &&& 0x7f).toBitVec.setWidth w = BitVec.ofNat w (b.toNat % 128) := by
  apply BitVec.eq_of_toNat_eq
  rw [← and_0x7f_toNat]
  simp

variable {w limit : Nat}

theorem varintLoop_cons {i : Nat} (hi : i < limit) (value : BitVec w) (b : UInt8)
    (rest : List UInt8)
    : varintLoop w limit i value (b :: rest)
        =
      if b < 128 then
        .ok (value ||| BitVec.ofNat w (b.toNat % 128) <<< (7 * i), i + 1)
      else
        varintLoop w limit (i + 1) (value ||| BitVec.ofNat w (b.toNat % 128) <<< (7 * i)) rest := by
  have hne : i ≠ limit := by omega
  simp only [varintLoop, hne, ↓reduceIte, and_0x80_eq_zero_iff, digit_setWidth]

/--
The loop accepts exactly the base-128 numbers that fit in the bytes it may still read.
-/
theorem varintLoop_eq_ok_iff {i x n : Nat} {v : BitVec w} {buf : List UInt8} (hx : x < 128 ^ i)
    (hi : i ≤ limit)
    : varintLoop w limit i (BitVec.ofNat w x) buf = .ok (v, n)
        ↔
      ∃ bs tail, buf = bs ++ tail ∧ IsVarint bs ∧ i + bs.length ≤ limit ∧ n = i + bs.length
        ∧ v = BitVec.ofNat w (x + 128 ^ i * varintValue bs) := by
  induction buf generalizing i x with
  | nil =>
    simp only [varintLoop]
    constructor
    . intro h
      split at h <;> simp at h
    . rintro ⟨bs, tail, happ, hbs, -⟩
      have := hbs.length_pos
      simp only [List.nil_eq, List.append_eq_nil_iff] at happ
      simp [happ.1] at this
  | cons b rest ih =>
    by_cases hlim : i = limit
    . simp only [varintLoop, hlim, ↓reduceIte, reduceCtorEq, false_iff]
      rintro ⟨bs, tail, -, hbs, hle, -⟩
      have := hbs.length_pos
      omega
    . -- The digit goes above the `i` digits that `x` has already.
      rw [varintLoop_cons (by omega), or_digit hx]
      have hx' : x + 128 ^ i * (b.toNat % 128) < 128 ^ (i + 1) := by
        have hd : b.toNat % 128 < 128 := Nat.mod_lt _ (by omega)
        have := Nat.mul_le_mul_left (128 ^ i) (show b.toNat % 128 + 1 ≤ 128 by omega)
        rw [Nat.pow_succ]
        rw [Nat.mul_add, Nat.mul_one] at this
        omega
      have hval (bs : List UInt8)
          : x + 128 ^ i * varintValue (b :: bs)
              =
            x + 128 ^ i * (b.toNat % 128) + 128 ^ (i + 1) * varintValue bs := by
        simp only [varintValue]
        ring
      by_cases hlast : b < 128
      . simp only [hlast, ↓reduceIte, Except.ok.injEq, Prod.mk.injEq]
        constructor
        . rintro ⟨rfl, rfl⟩
          refine ⟨[b], rest, rfl, ?_, ?_, ?_, ?_⟩
          . simp [isVarint_cons_last hlast]
          . simp only [List.length_singleton]
            omega
          . simp
          . simp [varintValue]
        . rintro ⟨bs, tail, happ, hbs, hle, rfl, rfl⟩
          cases bs with
          | nil => simp at hbs
          | cons c bs =>
            simp only [List.cons_append, List.cons.injEq] at happ
            obtain ⟨rfl, -⟩ := happ
            rw [isVarint_cons_last hlast] at hbs
            subst hbs
            simp [varintValue]
      . simp only [hlast, ↓reduceIte]
        rw [ih hx' (by omega)]
        constructor
        . rintro ⟨bs, tail, rfl, hbs, hle, rfl, rfl⟩
          refine ⟨b :: bs, tail, rfl, ?_, ?_, ?_, ?_⟩
          . rwa [isVarint_cons_cont hlast]
          . simp only [List.length_cons]
            omega
          . simp only [List.length_cons]
            omega
          . rw [hval]
        . rintro ⟨bs, tail, happ, hbs, hle, rfl, rfl⟩
          cases bs with
          | nil => simp at hbs
          | cons c bs =>
            simp only [List.cons_append, List.cons.injEq] at happ
            obtain ⟨rfl, rfl⟩ := happ
            rw [isVarint_cons_cont hlast] at hbs
            simp only [List.length_cons] at hle ⊢
            refine ⟨bs, tail, rfl, hbs, by omega, by omega, ?_⟩
            rw [hval]

/--
The decoder of base-128 numbers of at most `limit` bytes into a `w`-bit word.
-/
def readVarint (w limit : Nat) : Decoder UInt8 VarintError (BitVec w) :=
  varintLoop w limit 0 0

theorem readVarint_eq_ok_iff {buf : List UInt8} {v : BitVec w} {n : Nat}
    : readVarint w limit buf = .ok (v, n)
        ↔
      ∃ bs tail, buf = bs ++ tail ∧ IsVarint bs ∧ bs.length ≤ limit ∧ n = bs.length
        ∧ v = BitVec.ofNat w (varintValue bs) := by
  have hloop : varintLoop w limit 0 (BitVec.ofNat w 0) buf = .ok (v, n) ↔ _ :=
    varintLoop_eq_ok_iff (by simp) (by omega)
  simpa [readVarint] using hloop

/--
Reading a base-128 number of admissible length returns what it denotes, whatever follows it.
-/
theorem readVarint_append {bs : List UInt8} (hbs : IsVarint bs) (hle : bs.length ≤ limit)
    (tail : List UInt8)
    : readVarint w limit (bs ++ tail) = .ok (BitVec.ofNat w (varintValue bs), bs.length) := by
  rw [readVarint_eq_ok_iff]
  exact ⟨bs, tail, rfl, hbs, hle, rfl, rfl⟩

theorem isVarint_take_of_readVarint {buf : List UInt8} {v : BitVec w} {n : Nat}
    (h : readVarint w limit buf = .ok (v, n))
    : IsVarint (buf.take n) ∧ n ≤ limit ∧ n ≤ buf.length ∧ 0 < n
        ∧ v = BitVec.ofNat w (varintValue (buf.take n)) := by
  rw [readVarint_eq_ok_iff] at h
  obtain ⟨bs, tail, rfl, hbs, hle, rfl, rfl⟩ := h
  refine ⟨by simpa, hle, by simp, hbs.length_pos, by simp⟩

instance : LawfulDecoder (readVarint w limit) where
  consumed_le h := (isVarint_take_of_readVarint h).2.2.1
  stable {bs a n} h tail := by
    obtain ⟨hbs, hle, hlen, -, rfl⟩ := isVarint_take_of_readVarint h
    rw [readVarint_append hbs (by simp; omega) tail]
    simp only [List.length_take, Nat.min_eq_left hlen]

theorem varintLoop_overflow {i : Nat} (value : BitVec w) {bs : List UInt8} (tail : List UInt8)
    (hbs : IsVarint bs) (hi : i ≤ limit) (hlt : limit < i + bs.length)
    : varintLoop w limit i value (bs ++ tail) = .error .overflow := by
  induction bs generalizing i value with
  | nil => simp at hbs
  | cons b bs ih =>
    by_cases hlim : i = limit
    . simp [varintLoop, hlim]
    . simp only [List.length_cons] at hlt
      rw [List.cons_append, varintLoop_cons (by omega)]
      by_cases hlast : b < 128
      . rw [isVarint_cons_last hlast] at hbs
        simp only [hbs, List.length_nil] at hlt
        omega
      . rw [isVarint_cons_cont hlast] at hbs
        simp only [hlast, ↓reduceIte]
        exact ih _ hbs (by omega) (by omega)

theorem readVarint_overflow {bs : List UInt8} (tail : List UInt8) (hbs : IsVarint bs)
    (hlt : limit < bs.length)
    : readVarint w limit (bs ++ tail) = .error .overflow := by
  apply varintLoop_overflow _ _ hbs
  . omega
  . omega

/--
Bytes that do not end a number: the decoder gives up after as many as it may read, or at the end.
-/
theorem varintLoop_of_cont {i : Nat} (value : BitVec w) {buf : List UInt8} (hi : i ≤ limit)
    (h : ∀ c ∈ buf.take (limit - i), ¬c < 128)
    : varintLoop w limit i value buf
        =
      if limit - i ≤ buf.length then .error .overflow else .error .truncated := by
  induction buf generalizing i value with
  | nil =>
    unfold varintLoop
    by_cases hlim : i = limit
    . simp [hlim]
    . have hnot : ¬limit - i ≤ 0 := by omega
      simp [hlim, hnot]
  | cons b rest ih =>
    by_cases hlim : i = limit
    . simp [varintLoop, hlim]
    . have htake : (b :: rest).take (limit - i) = b :: rest.take (limit - (i + 1)) := by
        rw [show limit - i = limit - (i + 1) + 1 by omega, List.take_succ_cons]
      rw [htake, List.forall_mem_cons] at h
      rw [varintLoop_cons (by omega), if_neg h.1, ih _ (by omega) h.2, List.length_cons]
      have hiff : limit - (i + 1) ≤ rest.length ↔ limit - i ≤ rest.length + 1 := by omega
      simp only [hiff]

theorem readVarint_of_cont {buf : List UInt8} (h : ∀ c ∈ buf.take limit, ¬c < 128)
    : readVarint w limit buf
        =
      if limit ≤ buf.length then .error .overflow else .error .truncated :=
  varintLoop_of_cont _ (Nat.zero_le _) h

/--
An input starts with a number that the decoder reads, or with bytes that do not end one.
-/
theorem exists_varint_or_cont (limit : Nat) (buf : List UInt8)
    : (∃ bs tail, buf = bs ++ tail ∧ IsVarint bs ∧ bs.length ≤ limit)
        ∨ ∀ c ∈ buf.take limit, ¬c < 128 := by
  induction buf generalizing limit with
  | nil => exact .inr (by simp)
  | cons b rest ih =>
    cases limit with
    | zero => exact .inr (by simp)
    | succ limit =>
      by_cases hb : b < 128
      . refine .inl ⟨[b], rest, rfl, (isVarint_cons_last hb []).mpr rfl, by simp⟩
      . rcases ih limit with ⟨bs, tail, rfl, hbs, hle⟩ | hcont
        . refine .inl ⟨b :: bs, tail, rfl, (isVarint_cons_cont hb bs).mpr hbs, ?_⟩
          rw [List.length_cons]
          omega
        . rw [List.take_succ_cons, List.forall_mem_cons]
          exact .inr ⟨hb, hcont⟩

theorem IsVarint.not_cont {bs : List UInt8} (hbs : IsVarint bs) (hle : bs.length ≤ limit) (tail : List UInt8)
    : ¬∀ c ∈ (bs ++ tail).take limit, ¬c < 128 := by
  induction bs generalizing limit with
  | nil => simp at hbs
  | cons b bs ih =>
    cases limit with
    | zero => simp at hle
    | succ limit =>
      rw [List.cons_append, List.take_succ_cons, List.forall_mem_cons]
      rintro ⟨hb, hcont⟩
      rw [isVarint_cons_cont hb] at hbs
      exact ih hbs (by simpa using hle) hcont

theorem readVarint_varintBytes {fuel v : Nat} (hv : v < 128 ^ (fuel + 1)) (hle : fuel < limit)
    (tail : List UInt8)
    : readVarint w limit (varintBytes fuel v ++ tail)
        =
      .ok (BitVec.ofNat w v, (varintBytes fuel v).length) := by
  have hlen := length_varintBytes_le fuel v
  rw [readVarint_append (isVarint_varintBytes hv) (by omega), varintValue_varintBytes hv]

end Codec
