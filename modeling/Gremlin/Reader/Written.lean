import Gremlin.Writer.Agreement
import Gremlin.Reader.Completeness

/-!
This module contains what the reader makes of the records that the writer produces: every value
reads back, and the records of one field are those that its own arm gets.
-/

namespace Gremlin

open Codec

theorem setWidth_signExtend (v : BitVec 32) : (v.signExtend 64).setWidth 32 = v := by
  ext i hi
  rw [BitVec.getElem_setWidth, BitVec.getLsbD_signExtend]
  have : i < 64 := by omega
  simp [hi, this]

namespace Elem

theorem ofVarint_toVarint {e : Elem} (h : e.wireType = .varint) (v : e.Value)
    : e.ofVarint (e.toVarint v) = v := by
  cases e with
  | enum => exact setWidth_signExtend v
  | scalar kind =>
    cases kind with
    | int32 => exact setWidth_signExtend v
    | int64 => rfl
    | uint32 => simp [ofVarint, toVarint]
    | uint64 => rfl
    | sint32 => simp [ofVarint, toVarint, unzigzag32_zigzag32]
    | sint64 => exact unzigzag64_zigzag64 v
    | bool =>
      revert v
      decide
    | fixed32 | sfixed32 | float | fixed64 | sfixed64 | double =>
      simp [wireType, ScalarKind.wireType] at h

end Elem

theorem varintDecode_varintBytes (v : BitVec 64)
    : varintDecode (varintBytes 9 v.toNat)
        =
      .ok (v, (varintBytes 9 v.toNat).length) := by
  have hlt : v.toNat < 128 ^ (9 + 1) := by
    have := v.isLt
    omega
  have := readVarint_varintBytes (w := 64) hlt (by omega : 9 < 10) []
  rw [List.append_nil] at this
  rw [varintDecode_eq, Decoder.mapError, this]
  simp [Except.mapError]

theorem length_varintBytes_le_five {v : Nat} (h : v < 2 ^ 32) : (varintBytes 9 v).length ≤ 5 := by
  rw [← varintBytes_fuel (m := 4) (n := 9) (by omega) (by omega)]
  exact length_varintBytes_le 4 v

theorem varint32Decode_varintBytes (v : BitVec 32)
    : varint32Decode (varintBytes 9 v.toNat)
        =
      .ok (v, (varintBytes 9 v.toNat).length) := by
  have hlt := v.isLt
  have hlt' : v.toNat < 128 ^ (9 + 1) := by omega
  have := varint32Decode_append (isVarint_varintBytes hlt') (length_varintBytes_le_five hlt) []
  rw [List.append_nil, varintValue_varintBytes hlt'] at this
  simpa using this

theorem bytesDecode_lenPrefixed {payload : List UInt8} (h : payload.length < 2 ^ 64)
    : bytesDecode (lenPrefixed payload) = .ok (payload, (lenPrefixed payload).length) := by
  have hread := varintDecode_varintBytes (BitVec.ofNat 64 payload.length)
  rw [BitVec.toNat_ofNat, Nat.mod_eq_of_lt h] at hread
  unfold bytesDecode lenPrefixed
  rw [Decoder.bind_eq_ok_iff]
  refine ⟨_, _, payload.length, LawfulDecoder.append varintDecode hread payload, ?_, by simp⟩
  rw [Decoder.take_eq_ok_iff, List.drop_left, BitVec.toNat_ofNat, Nat.mod_eq_of_lt h]
  exact ⟨Nat.le_refl _, (List.take_length).symm, rfl⟩

namespace Elem

theorem decode_code (e : Elem) (v : e.Value) : e.decode (e.code v) = .ok (v, (e.code v).length) := by
  have hlt := v.isLt
  unfold decode
  rcases e.wireType_cases with hwt | hwt | hwt
  . simp only [code, hwt]
    rw [Decoder.map_eq_ok_iff]
    exact ⟨_, varintDecode_varintBytes _, ofVarint_toVarint hwt v⟩
  . have hwidth := width_eq_32_of_fixed32 hwt
    have hpow : 2 ^ e.width = 2 ^ 32 := by rw [hwidth]
    have hval : v.toNat < 256 ^ 4 := by omega
    simp only [code, hwt]
    rw [Decoder.map_eq_ok_iff]
    refine ⟨BitVec.ofNat 32 v.toNat, ?_, ?_⟩
    . unfold fixed32Decode
      rw [Decoder.map_eq_ok_iff]
      refine ⟨leBytes 4 v.toNat, ?_, by rw [leValue_leBytes hval]⟩
      rw [Decoder.take_eq_ok_iff, length_leBytes]
      refine ⟨Nat.le_refl _, ?_, rfl⟩
      rw [List.take_of_length_le (by rw [length_leBytes])]
    . apply BitVec.eq_of_toNat_eq
      rw [BitVec.toNat_setWidth, BitVec.toNat_ofNat, hpow]
      omega
  . have hwidth := width_eq_64_of_fixed64 hwt
    have hpow : 2 ^ e.width = 2 ^ 64 := by rw [hwidth]
    have hval : v.toNat < 256 ^ 8 := by omega
    simp only [code, hwt]
    rw [Decoder.map_eq_ok_iff]
    refine ⟨BitVec.ofNat 64 v.toNat, ?_, ?_⟩
    . unfold fixed64Decode
      rw [Decoder.map_eq_ok_iff]
      refine ⟨leBytes 8 v.toNat, ?_, by rw [leValue_leBytes hval]⟩
      rw [Decoder.take_eq_ok_iff, length_leBytes]
      refine ⟨Nat.le_refl _, ?_, rfl⟩
      rw [List.take_of_length_le (by rw [length_leBytes])]
    . apply BitVec.eq_of_toNat_eq
      rw [BitVec.toNat_setWidth, BitVec.toNat_ofNat, hpow]
      omega

theorem decodeSingular_code (e : Elem) (v : e.Value)
    : e.decodeSingular (e.code v) = .ok (v, (e.code v).length) := by
  have hlt := v.isLt
  have hread (d : BitVec 64) (d' : BitVec 32) (h : d.toNat = d'.toNat) (f : BitVec 32 → e.Value)
      : (varint32Decode.map f) (varintBytes 9 d.toNat)
          =
        .ok (f d', (varintBytes 9 d.toNat).length) := by
    rw [Decoder.map_eq_ok_iff, h]
    exact ⟨d', varint32Decode_varintBytes d', rfl⟩
  cases e with
  | enum => exact decode_code .enum v
  | scalar kind =>
    cases kind with
    | uint32 =>
      have hlt' : v.toNat < 2 ^ 32 := hlt
      have := hread (v.setWidth 64) v (by rw [BitVec.toNat_setWidth]; omega) fun d => d
      rwa [Decoder.map_id] at this
    | sint32 =>
      have := hread ((zigzag32 v).setWidth 64) (zigzag32 v)
        (by rw [BitVec.toNat_setWidth]; omega) unzigzag32
      rwa [unzigzag32_zigzag32] at this
    | bool =>
      have hlt' : v.toNat < 2 ^ 1 := hlt
      have hd : (v.setWidth 64).toNat = (v.setWidth 32).toNat := by
        rw [BitVec.toNat_setWidth, BitVec.toNat_setWidth]
        omega
      have hv : (if v.setWidth 32 ≠ 0 then 1#1 else 0#1) = v := by
        revert v
        decide
      have := hread (v.setWidth 64) (v.setWidth 32) hd fun d => if d ≠ 0 then 1#1 else 0#1
      rwa [hv] at this
    | int32 | int64 | uint64 | sint64 | fixed32 | fixed64 | sfixed32 | sfixed64 | double | float =>
      exact decode_code _ v

theorem code_ne_nil (e : Elem) (v : e.Value) : e.code v ≠ [] := by
  have hpos (n : Nat) : varintBytes 9 n ≠ [] := List.ne_nil_of_length_pos (length_varintBytes_pos 9 n)
  rcases e.wireType_cases with hwt | hwt | hwt
  . simpa [code, hwt] using hpos _
  . apply List.ne_nil_of_length_pos
    simp [code, hwt, length_leBytes]
  . apply List.ne_nil_of_length_pos
    simp [code, hwt, length_leBytes]

end Elem

/-! Records. -/

theorem Record.valid_ofTag {index : Nat} {wt : WireType} {body : List UInt8} (hne : wt ≠ .sgroup)
    (hskip : skipFlat wt body = .ok ((), body.length))
    : (Record.ofTag (packTag index wt) body).Valid := by
  constructor
  . exact varint32Decode_varintBytes (packTag index wt)
  . refine ⟨wt, packTag_wireType index wt, ?_⟩
    rw [skipData_of_ne_sgroup hne]
    exact hskip

theorem skipFlat_code (e : Elem) (v : e.Value)
    : skipFlat e.wireType (e.code v) = .ok ((), (e.code v).length) :=
  skipFlat_of_decode (e.decode_code v)

theorem skipFlat_lenPrefixed {payload : List UInt8} (h : payload.length < 2 ^ 64)
    : skipFlat .lenPrefix (lenPrefixed payload) = .ok ((), (lenPrefixed payload).length) :=
  skipFlat_lenPrefix_iff.mpr ⟨payload, bytesDecode_lenPrefixed h⟩

theorem Record.content_ofTag {tag : BitVec 32} {payload : List UInt8}
    (h : payload.length < 2 ^ 64)
    : (Record.ofTag tag (lenPrefixed payload)).content = payload := by
  simp [Record.content, Record.ofTag, bytesDecode_lenPrefixed h]

theorem length_le_lenPrefixed (tag : BitVec 32) (payload : List UInt8)
    : payload.length ≤ (Record.ofTag tag (lenPrefixed payload)).bytes.length := by
  simp only [Record.length_bytes, Record.ofTag, lenPrefixed, List.length_append]
  omega

theorem Elem.wireType_ne_sgroup (e : Elem) : e.wireType ≠ .sgroup := by
  rcases e.wireType_cases with hwt | hwt | hwt <;> simp [hwt]

/--
The records that the writer produces for a field are read as records, by the arm of this field.
-/
theorem Family.records_valid {child : MsgId → Addr → List UInt8} {index : Nat} {f : Family}
    {v : f.Value} (hlen : ∀ r ∈ f.records child index v, r.bytes.length < 2 ^ 64)
    : ∀ r ∈ f.records child index v, r.Valid ∧ (Field.mk index f).hasTag r.tag = true := by
  have hcode {e : Elem} (v : e.Value)
      : (Record.ofTag (packTag index e.wireType) (e.code v)).Valid :=
    Record.valid_ofTag e.wireType_ne_sgroup (skipFlat_code e v)
  have hprefixed {payload : List UInt8}
      (hmem : Record.ofTag (packTag index .lenPrefix) (lenPrefixed payload)
        ∈ f.records child index v)
      : (Record.ofTag (packTag index .lenPrefix) (lenPrefixed payload)).Valid := by
    have := length_le_lenPrefixed (packTag index .lenPrefix) payload
    have := hlen _ hmem
    exact Record.valid_ofTag (by decide) (skipFlat_lenPrefixed (by omega))
  intro r hr
  have hmem := hr
  cases f with
  | scalar e default =>
    simp only [Family.records] at hr
    split at hr
    . rw [List.mem_singleton] at hr
      subst hr
      exact ⟨hcode v, by simp [Field.hasTag, Record.ofTag]⟩
    . simp at hr
  | bytes default =>
    simp only [Family.records] at hr
    split at hr
    . rw [List.mem_singleton] at hr
      subst hr
      exact ⟨hprefixed hmem, by simp [Field.hasTag, Record.ofTag]⟩
    . simp at hr
  | msgRef target =>
    simp only [Family.records, List.mem_map] at hr
    obtain ⟨p, -, rfl⟩ := hr
    exact ⟨hprefixed hmem, by simp [Field.hasTag, Record.ofTag]⟩
  | repScalar e packing =>
    simp only [Family.records] at hr
    split at hr
    . simp at hr
    . split at hr
      . rw [List.mem_singleton] at hr
        subst hr
        exact ⟨hprefixed hmem, by simp [Field.hasTag, Record.ofTag]⟩
      . rw [List.mem_map] at hr
        obtain ⟨w, -, rfl⟩ := hr
        exact ⟨hcode w, by simp [Field.hasTag, Record.ofTag]⟩
  | repBytes =>
    simp only [Family.records, List.mem_map] at hr
    obtain ⟨w, -, rfl⟩ := hr
    exact ⟨hprefixed hmem, by simp [Field.hasTag, Record.ofTag]⟩
  | repMsg target =>
    simp only [Family.records, List.mem_map] at hr
    obtain ⟨p, -, rfl⟩ := hr
    exact ⟨hprefixed hmem, by simp [Field.hasTag, Record.ofTag]⟩
  | map key value =>
    simp only [Family.records, List.mem_map] at hr
    obtain ⟨e, -, rfl⟩ := hr
    exact ⟨hprefixed hmem, by simp [Field.hasTag, Record.ofTag]⟩

/-! Map entries. -/

theorem Slot.decode_body {s : Slot} {v : s.Value} (hlen : (s.body v).length < 2 ^ 64)
    : s.decode (s.body v) = .ok (v, (s.body v).length) := by
  cases s with
  | elem e => exact e.decode_code v
  | bytes =>
    apply bytesDecode_lenPrefixed
    simp only [Slot.body, lenPrefixed, List.length_append] at hlen
    omega

instance (s : Slot) : LawfulDecoder s.decode := by
  cases s <;> (unfold Slot.decode; infer_instance)

section Entry

variable {S : Schema} {child : MsgId → Addr → List UInt8} {key : Slot} {value : MapValue}

variable (S child) in
def MapValue.reread : (value : MapValue) → value.Value → Except Error (value.Out S)
  | .slot _, v => .ok v
  | .message target, p => readerInit S target (childPayload child target p)

variable (child) in
/--
What the walk over an entry keeps of a written value.
-/
def MapValue.kept : (value : MapValue) → value.Value → value.Kept
  | .slot _, v => v
  | .message target, p => childPayload child target p

theorem entryLoop_nil (fuel : Nat) (k : key.Value) (v : value.Kept)
    : entryLoop S key value fuel k v [] = .ok (k, v) := by
  cases fuel <;> simp [entryLoop]

theorem ofTag_bytes_append (tag : BitVec 32) (body rest : List UInt8)
    : (Record.ofTag tag body).bytes ++ rest = varintBytes 9 tag.toNat ++ (body ++ rest) := by
  simp [Record.bytes, Record.ofTag]

theorem entryLoop_ofTag {fuel : Nat} {tag : BitVec 32} {body rest : List UInt8} {k : key.Value}
    {v : value.Kept}
    : entryLoop S key value (fuel + 1) k v ((Record.ofTag tag body).bytes ++ rest)
        =
      if tag = packTag 1 key.wireType then
        match key.decode (body ++ rest) with
        | .error e => .error e
        | .ok (k, m) => entryLoop S key value fuel k v ((body ++ rest).drop m)
      else if tag = packTag 2 value.wireType then
        match value.decode S v (body ++ rest) with
        | .error e => .error e
        | .ok (v, m) => entryLoop S key value fuel k v ((body ++ rest).drop m)
      else
        match WireType.ofNat? (tag.toNat % 8) with
        | none => .error .invalidWireType
        | some wt =>
          match skipData wt (body ++ rest) with
          | .error e => .error e
          | .ok (_, m) => entryLoop S key value fuel k v ((body ++ rest).drop m) := by
  have hpos := length_varintBytes_pos 9 tag.toNat
  have hne : varintBytes 9 tag.toNat ++ (body ++ rest) ≠ [] := by
    intro hnil
    have := congrArg List.length hnil
    simp only [List.length_append, List.length_nil] at this
    omega
  rw [ofTag_bytes_append, entryLoop, if_neg hne,
    LawfulDecoder.append varint32Decode (varint32Decode_varintBytes tag)]
  have hdrop (m : Nat)
      : (varintBytes 9 tag.toNat ++ (body ++ rest)).drop ((varintBytes 9 tag.toNat).length + m)
        = (body ++ rest).drop m := by
    rw [← List.drop_drop, List.drop_left]
  simp only [List.drop_left]
  by_cases hkey : tag = packTag 1 key.wireType
  · rw [if_pos hkey, if_pos hkey]
    cases key.decode (body ++ rest) with
    | error e => rfl
    | ok p => exact congrArg (entryLoop S key value fuel p.1 v) (hdrop p.2)
  rw [if_neg hkey, if_neg hkey]
  by_cases hvalue : tag = packTag 2 value.wireType
  · rw [if_pos hvalue, if_pos hvalue]
    cases value.decode S v (body ++ rest) with
    | error e => rfl
    | ok p => exact congrArg (entryLoop S key value fuel k p.1) (hdrop p.2)
  rw [if_neg hvalue, if_neg hvalue]
  cases WireType.ofNat? (tag.toNat % 8) with
  | none => rfl
  | some wt =>
    cases hskip : skipData wt (body ++ rest) with
    | error e => simp only [hskip]
    | ok p => simp only [hskip, hdrop]

theorem entryLoop_key {fuel : Nat} {k k' : key.Value} {v : value.Kept} (rest : List UInt8)
    (hlen : (key.body k').length < 2 ^ 64)
    : entryLoop S key value (fuel + 1) k v ((key.record 1 k').bytes ++ rest)
        =
      entryLoop S key value fuel k' v rest := by
  rw [Slot.record, entryLoop_ofTag, if_pos rfl,
    LawfulDecoder.append key.decode (Slot.decode_body hlen)]
  simp only [List.drop_left]

theorem entryLoop_value {fuel : Nat} {k : key.Value} {v : value.Value}
    (hlen : (value.record child 2 v).body.length < 2 ^ 64)
    : entryLoop S key value (fuel + 1) k value.keptDefault (value.record child 2 v).bytes
        =
      .ok (k, value.kept child v) := by
  have htag : packTag 2 value.wireType ≠ packTag 1 key.wireType := by
    intro heq
    have := packTag_inj (by decide) (by decide) heq
    omega
  rw [← List.append_nil (value.record child 2 v).bytes]
  cases value with
  | slot s =>
    have htag : packTag 2 s.wireType ≠ packTag 1 key.wireType := htag
    simp only [MapValue.record, Slot.record, Record.ofTag] at hlen
    simp only [MapValue.record, Slot.record]
    rw [entryLoop_ofTag]
    simp only [MapValue.wireType, htag, ↓reduceIte]
    simp only [MapValue.decode]
    rw [LawfulDecoder.append s.decode (Slot.decode_body hlen)]
    simp only [List.drop_left]
    exact entryLoop_nil ..
  | message target =>
    have htag : packTag 2 .lenPrefix ≠ packTag 1 key.wireType := htag
    simp only [MapValue.record, Record.ofTag, lenPrefixed, List.length_append] at hlen
    have hbytes := bytesDecode_lenPrefixed
      (by omega : (childPayload child target v).length < 2 ^ 64)
    have hdecode : MapValue.decode S (.message target) [] (lenPrefixed (childPayload child target v))
        = .ok (childPayload child target v, (lenPrefixed (childPayload child target v)).length) := by
      unfold MapValue.decode
      rw [Decoder.bind_eq_ok_iff]
      exact ⟨_, _, 0, hbytes, rfl, rfl⟩
    have hlawful : LawfulDecoder (MapValue.decode S (.message target) []) := by
      unfold MapValue.decode
      simp only [List.length_nil, gt_iff_lt, Nat.lt_irrefl, ↓reduceIte]
      infer_instance
    simp only [MapValue.record]
    rw [entryLoop_ofTag]
    simp only [MapValue.wireType, htag, ↓reduceIte]
    simp only [MapValue.keptDefault]
    rw [LawfulDecoder.append _ hdecode]
    simp only [List.drop_left]
    exact entryLoop_nil ..

theorem decodeEntry_entryPayload {e : key.Value × value.Value}
    (hlen : (entryPayload child key value e).length < 2 ^ 64)
    : decodeEntry S key value (entryPayload child key value e)
        =
      match value.reread S child e.2 with
      | .error err => .error err
      | .ok out => .ok (e.1, out) := by
  have hsplit : entryPayload child key value e
      = (key.record 1 e.1).bytes ++ (value.record child 2 e.2).bytes := by
    simp [entryPayload]
  have hkey : 0 < (key.record 1 e.1).head.length := length_varintBytes_pos ..
  have hvalue : 0 < (value.record child 2 e.2).head.length := by
    cases value <;> exact length_varintBytes_pos ..
  have hbody : (key.body e.1).length = (key.record 1 e.1).body.length := rfl
  rw [hsplit] at hlen ⊢
  rw [List.length_append, Record.length_bytes, Record.length_bytes] at hlen
  obtain ⟨fuel, hfuel⟩ : ∃ fuel,
      ((key.record 1 e.1).bytes ++ (value.record child 2 e.2).bytes).length = fuel + 1 + 1 := by
    refine ⟨((key.record 1 e.1).bytes ++ (value.record child 2 e.2).bytes).length - 2, ?_⟩
    rw [List.length_append, Record.length_bytes, Record.length_bytes]
    omega
  unfold decodeEntry
  rw [hfuel, entryLoop_key _ (by omega), entryLoop_value (by omega)]
  cases value <;> rfl

end Entry

/-! Fields. -/

section Fields

variable {S : Schema} {child : MsgId → Addr → List UInt8} {index : Nat}

variable (S child) in
/--
What a caller sees of the records that are written for a value.
-/
def Family.reread : (f : Family) → f.Value → f.View S
  | .scalar e default, v => if e.differs v default then v else default
  | .bytes _, v => v
  | .msgRef target, p => (p.isSome, readerInit S target (childPayload child target p))
  | .repScalar _ _, vs => (vs.length, fun k => (vs[k]?.map .ok).getD (.ok 0))
  | .repBytes, vs => (vs.length, fun k => (vs[k]?.map .ok).getD (.ok []))
  | .repMsg target, ps =>
    (ps.length, fun k =>
      (ps[k]?.map fun p => readerInit S target (childPayload child target p)).getD
        (readerInit S target []))
  | .map key value, es =>
    (es.length, fun k =>
      (es[k]?.map fun e =>
          match value.reread S child e.2 with
          | .error err => .error err
          | .ok out => .ok (e.1, out)).getD
        (decodeEntry S key value []))

theorem Elem.elements_unpacked (e : Elem) (index : Nat) (vs : List e.Value)
    : e.Elements index (vs.map fun v => Record.ofTag (packTag index e.wireType) (e.code v)) vs := by
  induction vs with
  | nil => rfl
  | cons v vs ih =>
    refine ⟨[v], vs, ?_, ih, rfl⟩
    have hne : (Record.ofTag (packTag index e.wireType) (e.code v)).tag ≠ packTag index .lenPrefix :=
      packTag_lenPrefix_ne index e
    rw [if_neg hne]
    refine ⟨v, ?_, rfl⟩
    simp [decodeBody, Record.ofTag, e.decode_code, Except.map]

/--
The records of a repeated scalar or enum field have the elements of the value and one form.
-/
theorem Family.elements_records {e : Elem} {packing : Packing} {vs : List e.Value}
    (hlen : ∀ r ∈ (Family.repScalar e packing).records child index vs, r.bytes.length < 2 ^ 64)
    : e.Elements index ((Family.repScalar e packing).records child index vs) vs
        ∧ ((∀ r ∈ (Family.repScalar e packing).records child index vs,
              r.tag = packTag index .lenPrefix)
            ∨ ∀ r ∈ (Family.repScalar e packing).records child index vs,
              r.tag = packTag index e.wireType) := by
  simp only [Family.records] at hlen ⊢
  split
  . next hnil =>
    subst hnil
    exact ⟨rfl, .inl (by simp)⟩
  . next hne =>
    rw [if_neg hne] at hlen
    split
    . next hpacked =>
      simp only [hpacked, ↓reduceIte, List.mem_singleton, forall_eq] at hlen
      have hle := length_le_lenPrefixed (packTag index .lenPrefix) (vs.flatMap e.code)
      refine ⟨⟨vs, [], ?_, rfl, by simp⟩, .inl (by simp [Record.ofTag])⟩
      have htag : (Record.ofTag (packTag index .lenPrefix) (lenPrefixed (vs.flatMap e.code))).tag
          = packTag index .lenPrefix := rfl
      rw [if_pos htag, Record.content_ofTag (by omega)]
      apply Decoder.Parses.flatMap
      intro v _
      exact ⟨e.code_ne_nil v, e.decode_code v⟩
    . refine ⟨e.elements_unpacked index vs, .inr ?_⟩
      simp [Record.ofTag]

/--
Records that all have one of the two tags are not mixed, so that all of the elements are seen.
-/
theorem Family.viewOf_of_alike {packing : Packing} {e : Elem} {rs : List Record} {vs : List e.Value}
    (hvalid : ∀ r ∈ rs, r.Valid)
    (halike : (∀ r ∈ rs, r.tag = packTag index .lenPrefix) ∨ ∀ r ∈ rs, r.tag = packTag index e.wireType)
    (hvs : e.Elements index rs vs)
    : (Family.repScalar e packing).viewOf S index rs
        =
      .ok (vs.length, fun k => (vs[k]?.map .ok).getD (.ok 0)) := by
  have htags : ∀ r ∈ rs, r.tag = packTag index .lenPrefix ∨ r.tag = packTag index e.wireType := by
    intro r hr
    exact halike.imp (fun hall => hall r hr) (fun hall => hall r hr)
  apply Family.viewOf_of_elements hvalid htags _ hvs
  rw [Field.not_mixed_iff packing htags]
  apply halike.imp_right
  intro hall r hr
  rw [hall r hr]
  exact packTag_lenPrefix_ne index e

theorem deliveries_map_of_mem {α β : Type} {deliver : List UInt8 → Except Error α} {xs : List β}
    {rec : β → Record} {seen : β → Except Error α} (h : ∀ x ∈ xs, deliver (rec x).content = seen x) (k : Nat)
    : deliveries deliver (xs.map rec) k = (xs[k]?.map seen).getD (deliver []) := by
  have hmap : deliveries deliver (xs.map rec) k
      = (xs[k]?.map fun x => deliver (rec x).content).getD (deliver []) := by
    simp [deliveries, Function.comp_def]
  rw [hmap]
  congr 1
  apply Option.map_congr
  intro x hx
  exact h x (List.mem_of_getElem? hx)

/--
The records that are written for a value are seen as what the value is read back as.
-/
theorem Family.viewOf_records {f : Family} {v : f.Value}
    (hlen : ∀ r ∈ f.records child index v, r.bytes.length < 2 ^ 64)
    : f.viewOf S index (f.records child index v) = .ok (f.reread S child v) := by
  have hvalid := Family.records_valid hlen
  have hcontent (payload : List UInt8)
      (hmem : Record.ofTag (packTag index .lenPrefix) (lenPrefixed payload)
        ∈ f.records child index v)
      : payload.length < 2 ^ 64 := by
    have := length_le_lenPrefixed (packTag index .lenPrefix) payload
    have := hlen _ hmem
    omega
  have hspan (payload : List UInt8)
      (hmem : Record.ofTag (packTag index .lenPrefix) (lenPrefixed payload)
        ∈ f.records child index v)
      : readSpan (Record.ofTag (packTag index .lenPrefix) (lenPrefixed payload)) = .ok payload := by
    unfold readSpan
    simp only [Record.ofTag]
    rw [bytesDecode_lenPrefixed (hcontent payload hmem)]
    rfl
  cases f with
  | scalar e default =>
    simp only [Family.viewOf, Family.records, Family.reread]
    split
    . have hread : e.readSingular (Record.ofTag (packTag index e.wireType) (e.code v)) = .ok v := by
        simp [Elem.readSingular, Record.ofTag, e.decodeSingular_code, Except.map]
      simp [lastValue, hread, Except.map, getter]
    . rfl
  | bytes default =>
    simp only [Family.records] at hspan
    simp only [Family.viewOf, Family.records, Family.reread]
    split
    . next hne =>
      have hread := hspan v (by simp [hne])
      simp [lastValue, hread, Except.map, getter]
    . next heq =>
      rw [Classical.not_not] at heq
      exact congrArg Except.ok heq.symm
  | msgRef target =>
    cases v with
    | none => rfl
    | some p =>
      simp only [Family.records, Option.toList_some, List.map_cons, List.map_nil] at hspan
      simp only [Family.viewOf, Family.records, Family.reread, Option.toList_some, List.map_cons,
        List.map_nil, lastValue, hspan _ List.mem_cons_self]
      rfl
  | repScalar e packing =>
    obtain ⟨helements, hform⟩ := Family.elements_records hlen
    exact Family.viewOf_of_alike (fun r hr => (hvalid r hr).1) hform helements
  | repBytes =>
    simp only [Family.records] at hcontent
    simp only [Family.viewOf, Family.records, Family.reread, List.length_map, Except.ok.injEq,
      Prod.mk.injEq, true_and]
    funext k
    apply deliveries_map_of_mem
    intro w hw
    rw [Record.content_ofTag (hcontent _ (List.mem_map_of_mem hw))]
  | repMsg target =>
    simp only [Family.records] at hcontent
    simp only [Family.viewOf, Family.records, Family.reread, List.length_map, Except.ok.injEq,
      Prod.mk.injEq, true_and]
    funext k
    apply deliveries_map_of_mem
    intro p hp
    rw [Record.content_ofTag (hcontent _ (List.mem_map_of_mem hp))]
  | map key value =>
    simp only [Family.records] at hcontent
    simp only [Family.viewOf, Family.records, Family.reread, List.length_map, Except.ok.injEq,
      Prod.mk.injEq, true_and]
    funext k
    apply deliveries_map_of_mem
    intro e he
    have hentry := hcontent _ (List.mem_map_of_mem he)
    rw [Record.content_ofTag hentry, decodeEntry_entryPayload hentry]

end Fields

end Gremlin
