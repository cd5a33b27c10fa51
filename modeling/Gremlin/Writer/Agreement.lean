import Mathlib.Algebra.Order.BigOperators.Group.List
import Gremlin.Writer.Encode
import Gremlin.Writer.Wire

/-!
This module contains the proof that the generated size and encode functions agree: the size is the
number of bytes of the message on the wire, and the encoder writes these bytes. The encoder trusts
the `_size` members, so the size function is also shown to leave the right number in every message
that the measured one can reach.
-/

namespace Gremlin

open Codec

/-! Single values. -/

theorem toNat_setWidth_word {w : Nat} (hw : w ≤ 64) (v : BitVec w)
    : (v.setWidth 64).toNat = v.toNat := by
  rw [BitVec.toNat_setWidth, Nat.mod_eq_of_lt]
  calc v.toNat < 2 ^ w := v.isLt
    _ ≤ 2 ^ 64 := Nat.pow_le_pow_right (by omega) hw

theorem varintBytes_of_lt {fuel v : Nat} (hv : v < 128)
    : varintBytes fuel v = [UInt8.ofNat v] := by
  cases fuel <;> simp [varintBytes, hv]

namespace Elem

theorem code_bool (v : Value (.scalar .bool)) : code (.scalar .bool) v = [UInt8.ofNat v.toNat] := by
  have hlt : v.toNat < 2 := v.isLt
  have hcode : code (.scalar .bool) v = varintBytes 9 (v.setWidth 64).toNat := rfl
  rw [hcode, toNat_setWidth_word (by decide), varintBytes_of_lt (by omega)]

theorem wireSize_eq (e : Elem) (v : e.Value) : e.wireSize v = (e.code v).length := by
  cases e with
  | enum => simp only [wireSize, code, wireType, toVarint, length_varintBytes_word]
  | scalar kind =>
    cases kind with
    | int32 | int64 | uint64 | sint64 =>
      simp only [wireSize, code, wireType, ScalarKind.wireType, toVarint, length_varintBytes_word]
    | uint32 | sint32 =>
      simp only [wireSize, code, wireType, ScalarKind.wireType, toVarint]
      rw [toNat_setWidth_word (by decide), length_varintBytes_word32]
    | bool =>
      rw [code_bool]
      rfl
    | fixed32 | sfixed32 | float | fixed64 | sfixed64 | double =>
      simp only [wireSize, code, wireType, ScalarKind.wireType, length_leBytes]

theorem encodeAt_eq (e : Elem) (v : e.Value) (buf : Mem) (off : Nat)
    : e.encodeAt v buf off = (buf.write off (e.code v), off + (e.code v).length) := by
  cases e with
  | enum => simp only [encodeAt, code, wireType, toVarint, varintEncodeAt_eq]
  | scalar kind =>
    cases kind with
    | int32 | int64 | uint64 | sint64 =>
      simp only [encodeAt, code, wireType, ScalarKind.wireType, toVarint, varintEncodeAt_eq]
    | uint32 | sint32 =>
      simp only [encodeAt, code, wireType, ScalarKind.wireType, toVarint]
      rw [toNat_setWidth_word (by decide), varint32EncodeAt_eq]
    | bool =>
      have hlt : v.toNat < 2 := v.isLt
      have hval : (if v.toNat ≠ 0 then 1 else 0 : BitVec 32).toNat = v.toNat := by
        split
        . have : v.toNat = 1 := by omega
          simp [this]
        . next h =>
          have : v.toNat = 0 := by simpa using h
          simp [this]
      rw [code_bool]
      simp only [encodeAt]
      rw [varint32EncodeAt_eq, hval, varintBytes_of_lt (by omega)]
    | fixed32 | sfixed32 | float | fixed64 | sfixed64 | double =>
      simp only [encodeAt, fixed32EncodeAt, fixed64EncodeAt, code, wireType, ScalarKind.wireType,
        length_leBytes]

end Elem

theorem tagBytes_eq (index : Nat) (wt : WireType)
    : tagBytes index wt = (varintBytes 9 (packTag index wt).toNat).length := by
  unfold tagBytes
  rw [← length_varintBytes_word, toNat_setWidth_word (by decide)]

theorem varintSize_ofNat {n : Nat} (hn : n < 2 ^ 64)
    : varintSize (BitVec.ofNat 64 n) = (varintBytes 9 n).length := by
  rw [← length_varintBytes_word, BitVec.toNat_ofNat, Nat.mod_eq_of_lt hn]

@[simp]
theorem length_ofTag (tag : BitVec 32) (body : List UInt8)
    : (Record.ofTag tag body).bytes.length = (varintBytes 9 tag.toNat).length + body.length := by
  simp [Record.ofTag]

@[simp]
theorem length_lenPrefixed (payload : List UInt8)
    : (lenPrefixed payload).length = (varintBytes 9 payload.length).length + payload.length := by
  simp [lenPrefixed]

theorem length_concat (rs : List Record)
    : (Record.concat rs).length = (rs.map fun r => r.bytes.length).sum := by
  induction rs with
  | nil => rfl
  | cons r rs ih => simp [ih]

/-! The size pass. -/

section Measures

-- the right `_size` of every message
variable (size : MsgId → Addr → SizeT)

/--
A computation on the `_size` members has set those of the messages in `D`, and has not spoiled any
other.
-/
structure Settles (D : MsgId → Addr → Prop) (cache cache' : Cache) : Prop where
  settled : ∀ t a, D t a → cache' t a = size t a
  frame : ∀ t a, cache' t a = cache t a ∨ cache' t a = size t a

/--
The computation returns `n` and settles `D`, whatever the `_size` members held before.
-/
def Measures (m : SizeM SizeT) (n : Nat) (D : MsgId → Addr → Prop) : Prop :=
  ∀ cache, ∃ cache', m cache = some (BitVec.ofNat 64 n, cache') ∧ Settles size D cache cache'

variable {size}

theorem Settles.refl (cache : Cache) : Settles size (fun _ _ => False) cache cache where
  settled _ _ h := h.elim
  frame _ _ := .inl rfl

theorem Settles.trans {D D' : MsgId → Addr → Prop} {c₁ c₂ c₃ : Cache} (h : Settles size D c₁ c₂)
    (h' : Settles size D' c₂ c₃)
    : Settles size (fun t a => D t a ∨ D' t a) c₁ c₃ where
  settled t a hd := by
    rcases hd with hd | hd
    . rcases h'.frame t a with heq | heq
      . rw [heq, h.settled t a hd]
      . exact heq
    . exact h'.settled t a hd
  frame t a := by
    rcases h'.frame t a with heq | heq
    . rw [heq]
      exact h.frame t a
    . exact .inr heq

theorem Settles.mono {D D' : MsgId → Addr → Prop} {c c' : Cache} (h : Settles size D c c')
    (hsub : ∀ t a, D' t a → D t a)
    : Settles size D' c c' where
  settled t a hd := h.settled t a (hsub t a hd)
  frame := h.frame

theorem Measures.pure {x : SizeT} {n : Nat} (hx : x = BitVec.ofNat 64 n)
    : Measures size (pure x) n (fun _ _ => False) := by
  intro cache
  exact ⟨cache, by rw [hx]; rfl, Settles.refl cache⟩

theorem Measures.mono {m : SizeM SizeT} {n : Nat} {D D' : MsgId → Addr → Prop}
    (h : Measures size m n D) (hsub : ∀ t a, D' t a → D t a)
    : Measures size m n D' := by
  intro cache
  obtain ⟨cache', hrun, hsettles⟩ := h cache
  exact ⟨cache', hrun, hsettles.mono hsub⟩

theorem Measures.bind {m : SizeM SizeT} {f : SizeT → SizeM SizeT} {n k : Nat}
    {D D' : MsgId → Addr → Prop} (h : Measures size m n D)
    (hf : Measures size (f (BitVec.ofNat 64 n)) k D')
    : Measures size (m >>= f) k (fun t a => D t a ∨ D' t a) := by
  intro cache
  obtain ⟨c₁, hrun₁, hsettles₁⟩ := h cache
  obtain ⟨c₂, hrun₂, hsettles₂⟩ := hf c₁
  refine ⟨c₂, ?_, hsettles₁.trans hsettles₂⟩
  show (m cache).bind (fun p => f p.1 p.2) = _
  rw [hrun₁]
  exact hrun₂

theorem Measures.foldlM {α : Type} {f : SizeT → α → SizeM SizeT} {len : α → Nat}
    {D : α → MsgId → Addr → Prop} {xs : List α}
    (h : ∀ x ∈ xs, ∀ n, Measures size (f (BitVec.ofNat 64 n) x) (n + len x) (D x)) (n : Nat)
    : Measures size (xs.foldlM f (BitVec.ofNat 64 n)) (n + (xs.map len).sum)
        (fun t a => ∃ x ∈ xs, D x t a) := by
  induction xs generalizing n with
  | nil =>
    apply Measures.mono (Measures.pure rfl)
    simp
  | cons x xs ih =>
    rw [List.foldlM_cons, List.map_cons, List.sum_cons, ← Nat.add_assoc]
    have hx := h x (by simp) n
    have hxs := ih (fun y hy => h y (by simp [hy])) (n + len x)
    apply Measures.mono (hx.bind hxs)
    rintro t a ⟨y, hy, hd⟩
    rw [List.mem_cons] at hy
    rcases hy with rfl | hy
    . exact .inl hd
    . exact .inr ⟨y, hy, hd⟩

/-! The computations of the size function measure the records of a field. -/

variable {child : MsgId → Addr → List UInt8} {measure : MsgId → Addr → SizeM SizeT}
  {reaches : MsgId → Addr → MsgId → Addr → Prop}

theorem ofNat_fields (index : Nat) (wt : WireType) {n payload : Nat} (hpayload : payload < 2 ^ 64)
    : BitVec.ofNat 64 n
        + (BitVec.ofNat 64 (tagBytes index wt)
            + BitVec.ofNat 64 (varintSize (BitVec.ofNat 64 payload)) + BitVec.ofNat 64 payload)
        =
      BitVec.ofNat 64
        (n + ((varintBytes 9 (packTag index wt).toNat).length
          + ((varintBytes 9 payload).length + payload))) := by
  rw [varintSize_ofNat hpayload, tagBytes_eq]
  simp only [← BitVec.ofNat_add, Nat.add_assoc]

theorem foldl_payload (e : Elem) (vs : List e.Value) (n : Nat)
    : vs.foldl (fun payload v => payload + BitVec.ofNat 64 (e.wireSize v)) (BitVec.ofNat 64 n)
        =
      BitVec.ofNat 64 (n + (vs.flatMap e.code).length) := by
  induction vs generalizing n with
  | nil => simp
  | cons v vs ih =>
    rw [List.foldl_cons, ← BitVec.ofNat_add, ih, Elem.wireSize_eq]
    simp only [List.flatMap_cons, List.length_append, Nat.add_assoc]

theorem length_flatMap_const {α : Type} {f : α → List UInt8} {k : Nat} (xs : List α)
    (h : ∀ x, (f x).length = k)
    : (xs.flatMap f).length = xs.length * k := by
  induction xs with
  | nil => simp
  | cons x xs ih =>
    simp only [List.flatMap_cons, List.length_append, List.length_cons, h, ih, Nat.succ_mul]
    omega

theorem payloadSize_eq (e : Elem) (vs : List e.Value)
    : payloadSize e vs = BitVec.ofNat 64 (vs.flatMap e.code).length := by
  unfold payloadSize
  split
  . next hwt =>
    rw [length_flatMap_const (k := 4) vs (by simp [Elem.code, hwt]), BitVec.ofNat_mul]
    rfl
  . next hwt =>
    rw [length_flatMap_const (k := 8) vs (by simp [Elem.code, hwt]), BitVec.ofNat_mul]
    rfl
  . have := foldl_payload e vs 0
    simpa using this

theorem slotSize_eq (num : Nat) (s : Slot) (v : s.Value) (n : Nat)
    (hlen : (s.record num v).bytes.length < 2 ^ 64)
    : slotSize num s v (BitVec.ofNat 64 n)
        =
      BitVec.ofNat 64 (n + (s.record num v).bytes.length) := by
  cases s with
  | elem e =>
    simp only [slotSize, Slot.record, Slot.body, Slot.wireType, length_ofTag]
    rw [← BitVec.ofNat_add, tagBytes_eq, Elem.wireSize_eq]
  | bytes =>
    simp only [Slot.record, Slot.body, Slot.wireType, length_ofTag, length_lenPrefixed] at hlen
    simp only [slotSize, Slot.record, Slot.body, Slot.wireType, length_ofTag, length_lenPrefixed]
    rw [ofNat_fields num .lenPrefix (by omega)]

/--
What is known of the recursive calls: they measure the children of the value and settle all that
these reach.
-/
def MeasuresChildren (size : MsgId → Addr → SizeT) (measure : MsgId → Addr → SizeM SizeT)
    (child : MsgId → Addr → List UInt8) (reaches : MsgId → Addr → MsgId → Addr → Prop)
    (cs : List (MsgId × Addr)) : Prop :=
  ∀ target p, (target, p) ∈ cs → (child target p).length < 2 ^ 64 →
    Measures size (measure target p) (child target p).length (reaches target p)

theorem measures_sizeOrZero {target : MsgId} {p : Option Addr}
    (h : MeasuresChildren size measure child reaches (p.toList.map (target, ·)))
    (hlen : (childPayload child target p).length < 2 ^ 64)
    : Measures size (sizeOrZero measure target p) (childPayload child target p).length
        (fun t a => ∃ q, p = some q ∧ reaches target q t a) := by
  cases p with
  | none =>
    apply Measures.mono (Measures.pure rfl)
    simp
  | some p =>
    apply Measures.mono (h target p (by simp) hlen)
    rintro t a ⟨q, hq, hreach⟩
    simp only [Option.some.injEq] at hq
    rwa [hq]

def MapValue.children : (value : MapValue) → value.Value → List (MsgId × Addr)
  | .slot _, _ => []
  | .message target, p => p.toList.map (target, ·)

theorem measures_mapValueSize {value : MapValue} {v : value.Value} {num n : Nat}
    (h : MeasuresChildren size measure child reaches (value.children v))
    (hlen : (value.record child num v).bytes.length < 2 ^ 64)
    : Measures size (mapValueSize measure num value v (BitVec.ofNat 64 n))
        (n + (value.record child num v).bytes.length)
        (fun t a => ∃ c ∈ value.children v, reaches c.1 c.2 t a) := by
  cases value with
  | slot s =>
    apply Measures.mono (Measures.pure (slotSize_eq num s v n hlen))
    simp [MapValue.children]
  | message target =>
    simp only [MapValue.record, length_ofTag, length_lenPrefixed] at hlen
    have hsize := measures_sizeOrZero h (by omega)
    unfold mapValueSize
    simp only [MapValue.record, length_ofTag, length_lenPrefixed]
    apply Measures.mono
    . apply hsize.bind
      apply hsize.bind
      exact Measures.pure (ofNat_fields num .lenPrefix (by omega))
    . rintro t a ⟨c, hc, hreach⟩
      simp only [MapValue.children, List.mem_map, Option.mem_toList] at hc
      obtain ⟨q, hq, rfl⟩ := hc
      exact .inl ⟨q, hq, hreach⟩

theorem length_entryPayload (child : MsgId → Addr → List UInt8) (key : Slot) (value : MapValue)
    (e : key.Value × value.Value)
    : (entryPayload child key value e).length
        =
      (key.record 1 e.1).bytes.length + (value.record child 2 e.2).bytes.length := by
  simp [entryPayload]

theorem measures_entrySize {key : Slot} {value : MapValue} {e : key.Value × value.Value}
    (h : MeasuresChildren size measure child reaches (value.children e.2))
    (hlen : (entryPayload child key value e).length < 2 ^ 64)
    : Measures size (entrySize measure key value e) (entryPayload child key value e).length
        (fun t a => ∃ c ∈ value.children e.2, reaches c.1 c.2 t a) := by
  rw [length_entryPayload] at hlen ⊢
  unfold entrySize
  have hkey := slotSize_eq 1 key e.1 0 (by omega)
  rw [Nat.zero_add] at hkey
  rw [show (0 : SizeT) = BitVec.ofNat 64 0 from rfl, hkey]
  exact measures_mapValueSize h (by omega)

theorem le_sum_of_mem {α : Type} {f : α → Nat} {xs : List α} {x : α} (hx : x ∈ xs)
    : f x ≤ (xs.map f).sum :=
  List.le_sum_of_mem (List.mem_map_of_mem hx)

theorem map_children {key : Slot} {value : MapValue} (es : List (key.Value × value.Value))
    : (Family.map key value).children es = es.flatMap fun e => value.children e.2 := by
  cases value with
  | slot s => simp [Family.children, MapValue.children]
  | message target =>
    simp only [Family.children, MapValue.children]
    induction es with
    | nil => rfl
    | cons e es ih =>
      obtain ⟨k, p⟩ := e
      cases p with
      | none => simpa using ih
      | some p => simpa using ih

theorem isPacked_singleton {α : Type} (packing : Packing) (v : α)
    : packing.isPacked [v] = (packing == .packed) := by
  cases packing <;> rfl

theorem length_map_code (index : Nat) (e : Elem) (vs : List e.Value)
    : (Record.concat (vs.map fun v => Record.ofTag (packTag index e.wireType) (e.code v))).length
        =
      vs.length * tagBytes index e.wireType + (vs.flatMap e.code).length := by
  induction vs with
  | nil => simp
  | cons v vs ih =>
    simp only [List.map_cons, Record.concat_cons, List.length_append, length_ofTag, ih,
      List.length_cons, List.flatMap_cons, Nat.succ_mul, ← tagBytes_eq]
    omega

theorem sizeField_repScalar_eq (index n : Nat) (e : Elem) (packing : Packing) (vs : List e.Value)
    (hlen : (Record.concat ((Family.repScalar e packing).records child index vs)).length < 2 ^ 64)
    : sizeField measure index (.repScalar e packing) vs (BitVec.ofNat 64 n)
        =
      pure (BitVec.ofNat 64
        (n + (Record.concat ((Family.repScalar e packing).records child index vs)).length)) := by
  have hpacked (vs : List e.Value)
      (hlt : (Record.concat
        [Record.ofTag (packTag index .lenPrefix) (lenPrefixed (vs.flatMap e.code))]).length < 2 ^ 64)
      : BitVec.ofNat 64 n
          + (BitVec.ofNat 64 (tagBytes index .lenPrefix)
              + BitVec.ofNat 64 (varintSize (payloadSize e vs)) + payloadSize e vs)
          =
        BitVec.ofNat 64 (n + (Record.concat
          [Record.ofTag (packTag index .lenPrefix) (lenPrefixed (vs.flatMap e.code))]).length) := by
    simp only [Record.concat_cons, Record.concat_nil, List.append_nil, length_ofTag,
      length_lenPrefixed] at hlt ⊢
    rw [payloadSize_eq, ofNat_fields index .lenPrefix (by omega)]
  have hexpanded (vs : List e.Value)
      : BitVec.ofNat 64 n
          + (BitVec.ofNat 64 vs.length * BitVec.ofNat 64 (tagBytes index e.wireType)
              + payloadSize e vs)
          =
        BitVec.ofNat 64 (n + (Record.concat
          (vs.map fun v => Record.ofTag (packTag index e.wireType) (e.code v))).length) := by
    rw [length_map_code, payloadSize_eq]
    simp only [BitVec.ofNat_add, BitVec.ofNat_mul]
  match packing, vs with
  | .auto, [] | .packed, [] | .expanded, [] => simp [sizeField, Family.records]
  | .auto, [v] =>
    have := hexpanded [v]
    simp only [payloadSize_eq, List.length_singleton, List.flatMap_singleton] at this
    simp only [sizeField, Family.records, reduceCtorEq, ↓reduceIte, isPacked_singleton]
    rw [Elem.wireSize_eq]
    simpa using congrArg pure this
  | .expanded, v :: vs =>
    cases vs <;> exact congrArg pure (hexpanded _)
  | .packed, v :: vs =>
    cases vs <;> exact congrArg pure (hpacked _ hlen)
  | .auto, v :: v' :: vs =>
    exact congrArg pure (hpacked _ hlen)

theorem measures_repMsg {index n : Nat} {target : MsgId} {v : (Family.repMsg target).Value}
    (h : MeasuresChildren size measure child reaches ((Family.repMsg target).children v))
    (hlen : (Record.concat ((Family.repMsg target).records child index v)).length < 2 ^ 64)
    : Measures size (sizeField measure index (.repMsg target) v (BitVec.ofNat 64 n))
        (n + (Record.concat ((Family.repMsg target).records child index v)).length)
        (fun t a => ∃ c ∈ (Family.repMsg target).children v, reaches c.1 c.2 t a) := by
  rw [length_concat] at hlen ⊢
  simp only [Family.records, List.map_map] at hlen ⊢
  apply Measures.mono
  . apply Measures.foldlM
      (D := fun p t a => ∃ q, p = some q ∧ reaches target q t a)
    intro p hp k
    have hle := le_sum_of_mem (f := (fun r => r.bytes.length) ∘ fun p =>
      Record.ofTag (packTag index .lenPrefix) (lenPrefixed (childPayload child target p))) hp
    simp only [Function.comp, length_ofTag, length_lenPrefixed] at hle hlen ⊢
    cases p with
    -- An absent message is a tag and a zero length.
    | none =>
      apply Measures.mono
      . apply Measures.pure
        rw [← BitVec.ofNat_add, tagBytes_eq]
        rfl
      . simp
    | some q =>
      rw [childPayload_some] at hle ⊢
      have hmem : (target, q) ∈ (Family.repMsg target).children v := by
        simp [Family.children, hp]
      apply Measures.mono
      . apply (h target q hmem (by omega)).bind
        exact Measures.pure (ofNat_fields index .lenPrefix (by omega))
      . rintro t a ⟨q', hq', hreach⟩
        simp only [Option.some.injEq] at hq'
        rw [hq']
        exact .inl hreach
  . rintro t a ⟨c, hc, hreach⟩
    simp only [Family.children, List.mem_filterMap, Option.map_eq_some_iff] at hc
    obtain ⟨p, hp, q, rfl, rfl⟩ := hc
    exact ⟨some q, hp, q, rfl, hreach⟩

theorem measures_map {index n : Nat} {key : Slot} {value : MapValue} {v : (Family.map key value).Value}
    (h : MeasuresChildren size measure child reaches ((Family.map key value).children v))
    (hlen : (Record.concat ((Family.map key value).records child index v)).length < 2 ^ 64)
    : Measures size (sizeField measure index (.map key value) v (BitVec.ofNat 64 n))
        (n + (Record.concat ((Family.map key value).records child index v)).length)
        (fun t a => ∃ c ∈ (Family.map key value).children v, reaches c.1 c.2 t a) := by
  rw [length_concat] at hlen ⊢
  simp only [Family.records, List.map_map] at hlen ⊢
  rw [map_children] at h
  apply Measures.mono
  . apply Measures.foldlM
      (D := fun e t a => ∃ c ∈ value.children e.2, reaches c.1 c.2 t a)
    intro e he k
    have hle := le_sum_of_mem (f := (fun r => r.bytes.length) ∘ fun e =>
      Record.ofTag (packTag index .lenPrefix) (lenPrefixed (entryPayload child key value e))) he
    simp only [Function.comp, length_ofTag, length_lenPrefixed] at hle hlen ⊢
    have hentry : Measures size (entrySize measure key value e)
        (entryPayload child key value e).length
        (fun t a => ∃ c ∈ value.children e.2, reaches c.1 c.2 t a) := by
      apply measures_entrySize
      . intro target p hp
        exact h target p (List.mem_flatMap.mpr ⟨e, he, hp⟩)
      . omega
    apply Measures.mono
    . apply hentry.bind
      exact Measures.pure (ofNat_fields index .lenPrefix (by omega))
    . intro t a hreach
      exact .inl hreach
  . rintro t a ⟨c, hc, hreach⟩
    rw [map_children, List.mem_flatMap] at hc
    obtain ⟨e, he, hc⟩ := hc
    exact ⟨e, he, c, hc, hreach⟩

theorem measures_sizeField {index n : Nat} {f : Family} {v : f.Value}
    (h : MeasuresChildren size measure child reaches (f.children v))
    (hlen : (Record.concat (f.records child index v)).length < 2 ^ 64)
    : Measures size (sizeField measure index f v (BitVec.ofNat 64 n))
        (n + (Record.concat (f.records child index v)).length)
        (fun t a => ∃ c ∈ f.children v, reaches c.1 c.2 t a) := by
  cases f with
  | scalar e default =>
    simp only [sizeField, Family.records] at hlen ⊢
    split
    . simp only [Record.concat_cons, Record.concat_nil, List.append_nil, length_ofTag]
      apply Measures.mono
      . apply Measures.pure
        rw [← BitVec.ofNat_add, tagBytes_eq, Elem.wireSize_eq]
      . simp [Family.children]
    . apply Measures.mono (Measures.pure (by simp))
      simp [Family.children]
  | bytes default =>
    by_cases hne : v ≠ default
    . simp only [sizeField, Family.records, if_pos hne, Record.concat_cons, Record.concat_nil,
        List.append_nil, length_ofTag, length_lenPrefixed] at hlen ⊢
      apply Measures.mono
      . exact Measures.pure (ofNat_fields index .lenPrefix (by omega))
      . simp [Family.children]
    . simp only [sizeField, Family.records, if_neg hne]
      apply Measures.mono (Measures.pure (by simp))
      simp [Family.children]
  | msgRef target =>
    cases v with
    | none =>
      apply Measures.mono (Measures.pure (by simp [Family.records]))
      simp [Family.children]
    | some p =>
      simp only [sizeField, Family.records, Option.toList_some, List.map_cons, List.map_nil,
        Record.concat_cons, Record.concat_nil, List.append_nil, length_ofTag,
        length_lenPrefixed] at hlen ⊢
      have hchild := h target p (by simp [Family.children]) (by omega)
      apply Measures.mono
      . apply hchild.bind
        exact Measures.pure (ofNat_fields index .lenPrefix (by omega))
      . simp only [Family.children, Option.toList_some, List.map_cons, List.map_nil,
          List.mem_singleton]
        rintro t a ⟨c, rfl, hreach⟩
        exact .inl hreach
  | repScalar e packing =>
    rw [sizeField_repScalar_eq index n e packing v hlen]
    apply Measures.mono (Measures.pure rfl)
    simp [Family.children]
  | repBytes =>
    rw [length_concat] at hlen ⊢
    simp only [Family.records, List.map_map] at hlen ⊢
    apply Measures.mono
    . apply Measures.foldlM (D := fun _ _ _ => False)
      intro x hx k
      have hle := le_sum_of_mem (f := (fun r => r.bytes.length) ∘ fun v =>
        Record.ofTag (packTag index .lenPrefix) (lenPrefixed v)) hx
      simp only [Function.comp, length_ofTag, length_lenPrefixed] at hle hlen ⊢
      exact Measures.pure (ofNat_fields index .lenPrefix (by omega))
    . simp [Family.children]
  | repMsg target => exact measures_repMsg h hlen
  | map key value => exact measures_map h hlen

end Measures

/-! The encode pass. -/

section Emits

variable {size : MsgId → Addr → SizeT} {D : MsgId → Addr → Prop}
  {child : MsgId → Addr → List UInt8} {measure : MsgId → Addr → SizeM SizeT}
  {encodeMessage : MsgId → Addr → Emitter Encoder}

/--
The `_size` members of the messages in `D` are right.
-/
def Cached (size : MsgId → Addr → SizeT) (D : MsgId → Addr → Prop) (st : Encoder) : Prop :=
  ∀ t a, D t a → st.cache t a = size t a

/--
Where the `_size` members of the messages in `D` are right, the emitter writes `bs` and keeps them
right.
-/
abbrev EmitsBytes (size : MsgId → Addr → SizeT) (D : MsgId → Addr → Prop) (f : Emitter Encoder)
    (bs : List UInt8) : Prop :=
  Emits Encoder.buf (Cached size D) f bs

theorem emits_writeAt {write : Mem → Nat → Mem × Nat} {bs : List UInt8}
    (h : ∀ buf off, write buf off = (buf.write off bs, off + bs.length))
    : EmitsBytes size D (writeAt write) bs := by
  intro off st hst
  refine ⟨{ st with buf := st.buf.write off bs }, ?_, rfl, hst⟩
  unfold writeAt
  rw [h]

theorem emits_encodeTag (index : Nat) (wt : WireType)
    : EmitsBytes size D (encodeTag index wt) (varintBytes 9 (packTag index wt).toNat) :=
  emits_writeAt fun buf off => varint32EncodeAt_eq buf off _

theorem emits_encodeLength {n : Nat} (hn : n < 2 ^ 64)
    : EmitsBytes size D (encodeLength (BitVec.ofNat 64 n)) (varintBytes 9 n) := by
  have htoNat : (BitVec.ofNat 64 n).toNat = n := by
    rw [BitVec.toNat_ofNat, Nat.mod_eq_of_lt hn]
  apply emits_writeAt
  intro buf off
  rw [varintEncodeAt_eq, htoNat]

theorem emits_encodeElem (e : Elem) (v : e.Value)
    : EmitsBytes size D (encodeElem e v) (e.code v) :=
  emits_writeAt fun buf off => e.encodeAt_eq v buf off

theorem emits_encodeBytes {v : List UInt8} (hv : v.length < 2 ^ 64)
    : EmitsBytes size D (encodeBytes v) (lenPrefixed v) := by
  apply Emits.bind (emits_encodeLength hv)
  exact emits_writeAt fun buf off => rfl

theorem emits_record {index : Nat} {wt : WireType} {body : List UInt8} {f : Emitter Encoder}
    (h : EmitsBytes size D f body)
    : EmitsBytes size D (fun off => encodeTag index wt off >>= f)
        (Record.ofTag (packTag index wt) body).bytes :=
  Emits.bind (emits_encodeTag index wt) h

theorem emits_encodeSlot {num : Nat} {s : Slot} {v : s.Value}
    (hlen : (s.record num v).bytes.length < 2 ^ 64)
    : EmitsBytes size D (encodeSlot num s v) (s.record num v).bytes := by
  cases s with
  | elem e => exact emits_record (emits_encodeElem e v)
  | bytes =>
    simp only [Slot.record, Slot.body, Slot.wireType, length_ofTag, length_lenPrefixed] at hlen
    exact emits_record (emits_encodeBytes (by omega))

theorem emits_onCache {m : SizeM SizeT} {n : Nat} {D' : MsgId → Addr → Prop}
    {f : SizeT → Emitter Encoder} {bs : List UInt8} (hm : Measures size m n D')
    (hf : EmitsBytes size D (f (BitVec.ofNat 64 n)) bs)
    : EmitsBytes size D (fun off => onCache m >>= fun x => f x off) bs := by
  intro off st hst
  obtain ⟨cache', hrun, hsettles⟩ := hm st.cache
  -- What the computation sets are right values, so the members in `D` stay right.
  have hst' : Cached size D { st with cache := cache' } := by
    intro t a hd
    rcases hsettles.frame t a with heq | heq
    . rw [← hst t a hd]
      exact heq
    . exact heq
  obtain ⟨st', hrun', hbuf, hinv⟩ := hf off { st with cache := cache' } hst'
  refine ⟨st', ?_, hbuf, hinv⟩
  show Option.bind (onCache m st) _ = _
  unfold onCache
  rw [hrun]
  exact hrun'

/--
What is known of the recursive calls: they write the children of the value, whose `_size` members
are right.
-/
def EmitsChildren (size : MsgId → Addr → SizeT) (D : MsgId → Addr → Prop)
    (encodeMessage : MsgId → Addr → Emitter Encoder) (child : MsgId → Addr → List UInt8)
    (cs : List (MsgId × Addr)) : Prop :=
  ∀ target p, (target, p) ∈ cs → (child target p).length < 2 ^ 64 →
    D target p ∧ size target p = BitVec.ofNat 64 (child target p).length
      ∧ EmitsBytes size D (encodeMessage target p) (child target p)

theorem emits_encodeChild {target : MsgId} {p : Addr}
    (h : EmitsChildren size D encodeMessage child [(target, p)])
    (hlen : (child target p).length < 2 ^ 64)
    : EmitsBytes size D (encodeChild encodeMessage target p) (lenPrefixed (child target p)) := by
  unfold lenPrefixed
  obtain ⟨hd, hsize, hemits⟩ := h target p (by simp) hlen
  have hbind := Emits.bind (emits_encodeLength hlen) hemits
  intro off st hst
  obtain ⟨st', hrun, hbuf, hinv⟩ := hbind off st hst
  refine ⟨st', ?_, hbuf, hinv⟩
  rw [← hrun, ← hsize, ← hst target p hd]
  rfl

theorem emits_encodeMapValue {num : Nat} {value : MapValue} {v : value.Value}
    (h : EmitsChildren size D encodeMessage child (value.children v))
    (hlen : (value.record child num v).bytes.length < 2 ^ 64)
    : EmitsBytes size D (encodeMapValue encodeMessage num value v)
        (value.record child num v).bytes := by
  cases value with
  | slot s => exact emits_encodeSlot hlen
  | message target =>
    simp only [MapValue.record, length_ofTag, length_lenPrefixed] at hlen
    cases v with
    | none => exact emits_record (emits_encodeLength (n := 0) (by omega))
    | some p =>
      rw [childPayload_some] at hlen
      exact emits_record (emits_encodeChild h (by omega))

theorem emits_repScalar {index : Nat} {e : Elem} {packing : Packing} {v : (Family.repScalar e packing).Value}
    (hlen : (Record.concat ((Family.repScalar e packing).records child index v)).length < 2 ^ 64)
    : EmitsBytes size D (encodeField measure encodeMessage index (.repScalar e packing) v)
        (Record.concat ((Family.repScalar e packing).records child index v)) := by
  have hpacked (vs : List e.Value)
      (hlt : (Record.concat
        [Record.ofTag (packTag index .lenPrefix) (lenPrefixed (vs.flatMap e.code))]).length
          < 2 ^ 64)
      : EmitsBytes size D
          (fun off => do
            let off ← encodeTag index .lenPrefix off
            let off ← encodeLength (payloadSize e vs) off
            vs.foldlM (fun off v => encodeElem e v off) off)
          (Record.concat
            [Record.ofTag (packTag index .lenPrefix) (lenPrefixed (vs.flatMap e.code))]) := by
    simp only [Record.concat_cons, Record.concat_nil, List.append_nil, length_ofTag,
      length_lenPrefixed] at hlt ⊢
    rw [payloadSize_eq]
    apply emits_record
    apply Emits.bind (emits_encodeLength (by omega))
    exact Emits.foldlM fun v _ => emits_encodeElem e v
  have hexpanded (vs : List e.Value)
      : EmitsBytes size D
          (fun off =>
            vs.foldlM
              (fun off v => do
                let off ← encodeTag index e.wireType off
                encodeElem e v off)
              off)
          (Record.concat
            (vs.map fun v => Record.ofTag (packTag index e.wireType) (e.code v))) := by
    rw [Record.concat_map]
    exact Emits.foldlM fun v _ => emits_record (emits_encodeElem e v)
  -- Nothing is written without elements, and a single element is packed only if it has to be.
  cases v with
  | nil => cases packing <;> exact Emits.skip
  | cons v vs =>
    cases packing with
    | auto =>
      cases vs with
      | nil =>
        have hrecord : Record.concat ((Family.repScalar e .auto).records child index [v])
            = (Record.ofTag (packTag index e.wireType) (e.code v)).bytes := by
          simp [Family.records, isPacked_singleton]
        rw [hrecord]
        exact emits_record (emits_encodeElem e v)
      | cons v' vs => exact hpacked _ hlen
    | packed => cases vs <;> exact hpacked _ hlen
    | expanded => cases vs <;> exact hexpanded _

theorem emits_repMsg {index : Nat} {target : MsgId} {v : (Family.repMsg target).Value}
    (h : EmitsChildren size D encodeMessage child ((Family.repMsg target).children v))
    (hlen : (Record.concat ((Family.repMsg target).records child index v)).length < 2 ^ 64)
    : EmitsBytes size D (encodeField measure encodeMessage index (.repMsg target) v)
        (Record.concat ((Family.repMsg target).records child index v)) := by
  simp only [Family.records] at hlen ⊢
  rw [Record.concat_map]
  apply Emits.foldlM
  intro p hp
  have hle := Record.length_bytes_le (List.mem_map_of_mem hp
    (f := fun p =>
      Record.ofTag (packTag index .lenPrefix) (lenPrefixed (childPayload child target p))))
  rw [length_ofTag, length_lenPrefixed] at hle
  cases p with
  | none => exact emits_record (emits_encodeLength (n := 0) (by omega))
  | some q =>
    rw [childPayload_some] at hle ⊢
    apply emits_record
    apply emits_encodeChild _ (by omega)
    intro target' q' hmem
    simp only [List.mem_singleton, Prod.mk.injEq] at hmem
    obtain ⟨rfl, rfl⟩ := hmem
    apply h
    simp [Family.children, hp]

theorem emits_map {index : Nat} {key : Slot} {value : MapValue} {v : (Family.map key value).Value}
    {reaches : MsgId → Addr → MsgId → Addr → Prop}
    (hmeasure : MeasuresChildren size measure child reaches ((Family.map key value).children v))
    (h : EmitsChildren size D encodeMessage child ((Family.map key value).children v))
    (hlen : (Record.concat ((Family.map key value).records child index v)).length < 2 ^ 64)
    : EmitsBytes size D (encodeField measure encodeMessage index (.map key value) v)
        (Record.concat ((Family.map key value).records child index v)) := by
  simp only [Family.records] at hlen ⊢
  rw [Record.concat_map]
  rw [map_children] at h hmeasure
  apply Emits.foldlM
  intro e he
  have hle := Record.length_bytes_le (List.mem_map_of_mem he
    (f := fun e =>
      Record.ofTag (packTag index .lenPrefix) (lenPrefixed (entryPayload child key value e))))
  rw [length_ofTag, length_lenPrefixed] at hle
  have hchildren {c : MsgId × Addr} (hc : c ∈ value.children e.2)
      : c ∈ v.flatMap fun e => value.children e.2 :=
    List.mem_flatMap.mpr ⟨e, he, hc⟩
  have hentry := length_entryPayload child key value e
  -- The size of the entry is measured again, which changes no member.
  apply emits_onCache (measures_entrySize (fun target p hp => hmeasure target p (hchildren hp))
    (by omega))
  apply emits_record
  apply Emits.bind (emits_encodeLength (by omega))
  have hkey : EmitsBytes size D (encodeSlot 1 key e.1) (key.record 1 e.1).bytes :=
    emits_encodeSlot (by omega)
  have hvalue : EmitsBytes size D (encodeMapValue encodeMessage 2 value e.2)
      (value.record child 2 e.2).bytes :=
    emits_encodeMapValue (fun target p hp => h target p (hchildren hp)) (by omega)
  simpa [entryPayload] using Emits.bind hkey hvalue

theorem emits_encodeField {index : Nat} {f : Family} {v : f.Value}
    {reaches : MsgId → Addr → MsgId → Addr → Prop}
    (hmeasure : MeasuresChildren size measure child reaches (f.children v))
    (h : EmitsChildren size D encodeMessage child (f.children v))
    (hlen : (Record.concat (f.records child index v)).length < 2 ^ 64)
    : EmitsBytes size D (encodeField measure encodeMessage index f v)
        (Record.concat (f.records child index v)) := by
  cases f with
  | scalar e default =>
    simp only [encodeField, Family.records]
    split
    . simpa using emits_record (emits_encodeElem e v)
    . exact Emits.skip
  | bytes default =>
    by_cases hne : v ≠ default
    . simp only [encodeField, Family.records, if_pos hne, Record.concat_cons, Record.concat_nil,
        List.append_nil, length_ofTag, length_lenPrefixed] at hlen ⊢
      exact emits_record (emits_encodeBytes (by omega))
    . simp only [encodeField, Family.records, if_neg hne]
      exact Emits.skip
  | msgRef target =>
    cases v with
    | none => exact Emits.skip
    | some p =>
      simp only [encodeField, Family.records, Option.toList_some, List.map_cons, List.map_nil,
        Record.concat_cons, Record.concat_nil, List.append_nil, length_ofTag,
        length_lenPrefixed] at hlen ⊢
      exact emits_record (emits_encodeChild h (by omega))
  | repScalar e packing => exact emits_repScalar hlen
  | repBytes =>
    simp only [Family.records] at hlen ⊢
    rw [Record.concat_map]
    apply Emits.foldlM
    intro x hx
    have hle := Record.length_bytes_le (List.mem_map_of_mem hx
      (f := fun v => Record.ofTag (packTag index .lenPrefix) (lenPrefixed v)))
    rw [length_ofTag, length_lenPrefixed] at hle
    exact emits_record (emits_encodeBytes (by omega))
  | repMsg target => exact emits_repMsg h hlen
  | map key value => exact emits_map hmeasure h hlen

end Emits

section Message

variable {S : Schema} (store : Store S)

/--
A pointer path leads from the first message to the second.
-/
inductive Reaches : MsgId → Addr → MsgId → Addr → Prop where
  | refl (t : MsgId) (a : Addr) : Reaches t a t a
  | step {t : MsgId} {a : Addr} {target : MsgId} {b : Addr} {t' : MsgId} {a' : Addr}
      (h : (target, b) ∈ children store t a) (htail : Reaches target b t' a') : Reaches t a t' a'

/--
The size of a message on the wire, as the size function returns it.
-/
def wireSize (height : Nat) (t : MsgId) (a : Addr) : SizeT :=
  BitVec.ofNat 64 (wireBytes store height t a).length

variable {store}

theorem Reaches.trans {t a t' a' t'' a''} (h : Reaches store t a t' a')
    (h' : Reaches store t' a' t'' a'')
    : Reaches store t a t'' a'' := by
  induction h with
  | refl => exact h'
  | step hmem _ ih => exact .step hmem (ih h')

theorem mem_children_of_field {t : MsgId} {a : Addr} {i : Fin (S t).length} {c : MsgId × Addr}
    (h : c ∈ (S.field t i).family.children (store t a i))
    : c ∈ children store t a := by
  simp only [children, List.mem_flatMap]
  exact ⟨i, List.mem_finRange i, h⟩

/--
Above its height a message consists of the records of its fields over the bytes of its children.
-/
theorem wireBytes_eq {k height : Nat} {t : MsgId} {a : Addr} (h : Height store (k + 1) t a)
    (hle : k + 1 ≤ height)
    : wireBytes store height t a
        =
      (List.finRange (S t).length).flatMap fun i =>
        Record.concat
          ((S.field t i).family.records (wireBytes store height) (S.field t i).index
            (store t a i)) := by
  rw [wireBytes_of_height h hle, wireBytes, messageRecords_succ, Record.concat_flatMap]
  apply List.flatMap_congr
  intro i _
  rw [Family.records_congr]
  intro target p hmem
  have hchild := h target p (mem_children_of_field hmem)
  exact (wireBytes_of_height hchild (by omega)).symm

theorem length_flatMap_fields {α : Type} (xs : List α) (f : α → List UInt8)
    : (xs.flatMap f).length = (xs.map fun x => (f x).length).sum := by
  rw [List.length_flatMap]

/--
The size function of a message returns its size and sets all `_size` members below it.
-/
theorem measures_messageSize {height k fuel : Nat} {t : MsgId} {a : Addr} (h : Height store k t a)
    (hheight : k ≤ height) (hfuel : k ≤ fuel)
    (hlen : (wireBytes store height t a).length < 2 ^ 64)
    : Measures (wireSize store height) (messageSize store fuel t a)
        (wireBytes store height t a).length (Reaches store t a) := by
  induction k generalizing fuel t a with
  | zero => exact h.elim
  | succ k ih =>
    cases fuel with
    | zero => omega
    | succ fuel =>
      have hbytes := wireBytes_eq h hheight
      have hsum := congrArg List.length hbytes
      rw [length_flatMap_fields] at hsum
      have hfields : Measures (wireSize store height)
          ((List.finRange (S t).length).foldlM
            (fun s i =>
              sizeField (messageSize store fuel) (S.field t i).index (S.field t i).family
                (store t a i) s)
            (BitVec.ofNat 64 0))
          (0 + ((List.finRange (S t).length).map fun i =>
            (Record.concat ((S.field t i).family.records (wireBytes store height)
              (S.field t i).index (store t a i))).length).sum)
          (fun t' a' => ∃ i ∈ List.finRange (S t).length,
            ∃ c ∈ (S.field t i).family.children (store t a i), Reaches store c.1 c.2 t' a') := by
        apply Measures.foldlM
        intro i hi n
        have hle := le_sum_of_mem (f := fun i =>
          (Record.concat ((S.field t i).family.records (wireBytes store height)
              (S.field t i).index (store t a i))).length) hi
        apply measures_sizeField
        . intro target p hmem hlt
          exact ih (h target p (mem_children_of_field hmem)) (by omega) (by omega) hlt
        . omega
      intro cache
      obtain ⟨cache', hrun, hsettles⟩ := hfields cache
      rw [Nat.zero_add, ← hsum] at hrun
      -- The fields come first; the `_size` member of the message itself is set at the end.
      refine ⟨cache'.set t a (wireSize store height t a), ?_, ?_⟩
      . unfold messageSize
        show Option.bind _ _ = _
        rw [show (0 : SizeT) = BitVec.ofNat 64 0 from rfl, hrun]
        rfl
      . constructor
        . intro t' a' hreach
          unfold Cache.set
          split
          . next heq => rw [heq.1, heq.2]
          . next hne =>
            apply hsettles.settled
            cases hreach with
            | refl => exact absurd ⟨rfl, rfl⟩ hne
            | step hmem htail =>
              simp only [children, List.mem_flatMap] at hmem
              obtain ⟨i, hi, hmem⟩ := hmem
              exact ⟨i, hi, _, hmem, htail⟩
        . intro t' a'
          unfold Cache.set
          split
          . next heq =>
            rw [heq.1, heq.2]
            exact .inr rfl
          . exact hsettles.frame t' a'

/--
Where the `_size` members below a message are right, its encode function writes its bytes.
-/
theorem emits_encodeAt {height k fuel : Nat} {t₀ t : MsgId} {a₀ a : Addr} (h : Height store k t a)
    (hheight : k ≤ height) (hfuel : k ≤ fuel) (hreach : Reaches store t₀ a₀ t a)
    (hlen : (wireBytes store height t a).length < 2 ^ 64)
    : EmitsBytes (wireSize store height) (Reaches store t₀ a₀) (encodeAt store fuel t a)
        (wireBytes store height t a) := by
  induction k generalizing fuel t a with
  | zero => exact h.elim
  | succ k ih =>
    cases fuel with
    | zero => omega
    | succ fuel =>
      rw [wireBytes_eq h hheight] at hlen ⊢
      apply Emits.foldlM
      intro i hi
      have hle := le_sum_of_mem (f := fun i =>
        (Record.concat ((S.field t i).family.records (wireBytes store height)
            (S.field t i).index (store t a i))).length) hi
      rw [List.length_flatMap] at hlen
      -- The children are lower, and a path from the first message leads to them.
      apply emits_encodeField
      . intro target p hmem hlt
        have hchild := h target p (mem_children_of_field hmem)
        exact measures_messageSize hchild (by omega) (by omega) hlt
      . intro target p hmem hlt
        have hchild := h target p (mem_children_of_field hmem)
        have hbelow := hreach.trans (.step (mem_children_of_field hmem) (.refl target p))
        exact ⟨hbelow, rfl, ih hchild (by omega) (by omega) hbelow hlt⟩
      . omega

theorem writtenBytes_eq {height fuel : Nat} {t : MsgId} {a : Addr} (h : Height store height t a)
    (hfuel : height ≤ fuel) (hlen : (wireBytes store height t a).length < 2 ^ 64) (cache : Cache)
    (buf : Mem) (off : Nat)
    : writtenBytes store fuel t a cache buf off = some (wireBytes store height t a) := by
  obtain ⟨cache', hsize, hsettles⟩ := measures_messageSize h (Nat.le_refl _) hfuel hlen cache
  have hcached : Cached (wireSize store height) (Reaches store t a) ⟨buf, cache'⟩ :=
    hsettles.settled
  obtain ⟨st, hrun, hbuf, -⟩ :=
    emits_encodeAt h (Nat.le_refl _) hfuel (.refl t a) hlen off _ hcached
  have hlen' : off + (wireBytes store height t a).length - off
      = (wireBytes store height t a).length := by omega
  simp only [writtenBytes, hsize, hrun, hbuf, hlen', Option.bind_eq_bind, Option.bind_some,
    Mem.read_write, Option.pure_def]

/--
Running the size function and then the encode function on a message whose size fits in a `size_t`:
the encoder advances by the size that was returned, and writes the bytes of the message, in which
every length is the length of what follows it, and nothing else.
-/
theorem size_encode_agree {t : MsgId} {a : Addr} (h : Acyclic store t a)
    (hlen : (messageBytes h).length < 2 ^ 64)
    : ∃ height, ∀ fuel, height ≤ fuel → ∀ cache buf off, ∃ size cache' cache'',
        messageSize store fuel t a cache = some (size, cache')
          ∧ size.toNat = (messageBytes h).length
          ∧ encodeAt store fuel t a off ⟨buf, cache'⟩
              =
            some (off + size.toNat, ⟨buf.write off (messageBytes h), cache''⟩) := by
  refine ⟨h.height, ?_⟩
  intro fuel hfuel cache buf off
  obtain ⟨cache', hsize, hsettles⟩ :=
    measures_messageSize h.height_spec (Nat.le_refl _) hfuel hlen cache
  have hcached : Cached (wireSize store h.height) (Reaches store t a) ⟨buf, cache'⟩ :=
    hsettles.settled
  obtain ⟨st, hrun, hbuf, -⟩ :=
    emits_encodeAt h.height_spec (Nat.le_refl _) hfuel (.refl t a) hlen off _ hcached
  have htoNat : (BitVec.ofNat 64 (wireBytes store h.height t a).length).toNat
      = (messageBytes h).length := by
    rw [BitVec.toNat_ofNat]
    exact Nat.mod_eq_of_lt hlen
  refine ⟨_, cache', st.cache, hsize, htoNat, ?_⟩
  rw [hrun, htoNat, messageBytes, ← hbuf]

/--
A message with one child behind a field, in two slots of a repeated field and as a map value.
-/
def sharedSchema : Schema
  | 0 => [⟨1, .msgRef 1⟩, ⟨2, .repMsg 1⟩, ⟨3, .map (.elem (.scalar .int32)) (.message 1)⟩]
  | _ => [⟨1, .scalar (.scalar .uint32) 0⟩, ⟨2, .repScalar .enum .auto⟩]

def sharedStore : Store sharedSchema
  | 0, _, ⟨0, _⟩ => some 5
  | 0, _, ⟨1, _⟩ => [some 5, none, some 5]
  | 0, _, ⟨2, _⟩ => [(1#32, some 5), (-1#32, none)]
  | _ + 1, _, ⟨0, _⟩ => 300#32
  | _ + 1, _, ⟨1, _⟩ => [1#32, -1#32]

theorem sharedStore_height : Height sharedStore 2 0 0 := by
  have hchildren : children sharedStore 0 0 = [(1, 5), (1, 5), (1, 5), (1, 5)] := by
    decide +kernel
  have hleaf : children sharedStore 1 5 = [] := by
    decide +kernel
  intro target b hmem
  rw [hchildren] at hmem
  have heq : (target, b) = (1, 5) := by simpa using hmem
  simp only [Prod.mk.injEq] at heq
  rw [heq.1, heq.2]
  intro target' b' hmem'
  rw [hleaf] at hmem'
  simp at hmem'

theorem sharedStore_size_encode_agree
    : ∃ height, ∀ fuel, height ≤ fuel → ∀ cache buf off, ∃ size cache' cache'',
        messageSize sharedStore fuel 0 0 cache = some (size, cache')
          ∧ size.toNat = (messageBytes sharedStore_height.acyclic).length
          ∧ encodeAt sharedStore fuel 0 0 off ⟨buf, cache'⟩
              =
            some (off + size.toNat,
              ⟨buf.write off (messageBytes sharedStore_height.acyclic), cache''⟩) := by
  apply size_encode_agree sharedStore_height.acyclic
  rw [messageBytes_eq _ sharedStore_height]
  decide +kernel

end Message

end Gremlin
