import Gremlin.Reader.Init

/-!
This module contains the analysis of `reader_init` by records: an input it accepts is a sequence of
records, and what it makes of a field depends on the records of that field only.
-/

namespace Gremlin

open Codec

/--
The tag reads back from its bytes, and the data is skipped as a whole.
-/
structure Record.Valid (r : Record) : Prop where
  head : varint32Decode r.head = .ok (r.tag, r.head.length)
  body : ∃ wt, WireType.ofNat? (r.tag.toNat % 8) = some wt
    ∧ skipData wt r.body = .ok ((), r.body.length)

/-! The shapes of valid data. -/

/--
A varint that the 32-bit decoder reads is one that the 64-bit decoder skips.
-/
theorem varintDecode_of_varint32Decode {buf : List UInt8} {v : BitVec 32} {n : Nat}
    (h : varint32Decode buf = .ok (v, n))
    : ∃ w, varintDecode buf = .ok (w, n) := by
  rw [varint32Decode_eq_ok_iff] at h
  obtain ⟨bs, tail, heq, hbs, hle, hn, -⟩ := h
  refine ⟨BitVec.ofNat 64 (varintValue bs), ?_⟩
  rw [varintDecode_eq_ok_iff]
  exact ⟨bs, tail, heq, hbs, by omega, hn, rfl⟩

theorem skipFlat_of_decode {e : Elem} {buf : List UInt8} {v : e.Value} {n : Nat}
    (h : e.decode buf = .ok (v, n))
    : skipFlat e.wireType buf = .ok ((), n) := by
  rcases e.wireType_cases with hwt | hwt | hwt
  . simp only [Elem.decode, hwt] at h
    rw [Decoder.map_eq_ok_iff] at h
    obtain ⟨d, hd, -⟩ := h
    rw [hwt, skipFlat_varint_iff]
    exact ⟨d, hd⟩
  . simp only [Elem.decode, hwt, fixed32Decode] at h
    rw [Decoder.map_eq_ok_iff] at h
    obtain ⟨d, hd, -⟩ := h
    rw [Decoder.map_eq_ok_iff] at hd
    obtain ⟨bytes, hbytes, -⟩ := hd
    rw [Decoder.take_eq_ok_iff] at hbytes
    rw [hwt, skipFlat_fixed32_iff]
    exact ⟨hbytes.1, hbytes.2.2⟩
  . simp only [Elem.decode, hwt, fixed64Decode] at h
    rw [Decoder.map_eq_ok_iff] at h
    obtain ⟨d, hd, -⟩ := h
    rw [Decoder.map_eq_ok_iff] at hd
    obtain ⟨bytes, hbytes, -⟩ := hd
    rw [Decoder.take_eq_ok_iff] at hbytes
    rw [hwt, skipFlat_fixed64_iff]
    exact ⟨hbytes.1, hbytes.2.2⟩

theorem decode_of_skipFlat {e : Elem} {buf : List UInt8} {n : Nat}
    (h : skipFlat e.wireType buf = .ok ((), n))
    : ∃ v, e.decode buf = .ok (v, n) := by
  rcases e.wireType_cases with hwt | hwt | hwt
  . rw [hwt, skipFlat_varint_iff] at h
    obtain ⟨d, hd⟩ := h
    refine ⟨e.ofVarint d, ?_⟩
    simp only [Elem.decode, hwt]
    rw [Decoder.map_eq_ok_iff]
    exact ⟨d, hd, rfl⟩
  . rw [hwt, skipFlat_fixed32_iff] at h
    refine ⟨(BitVec.ofNat 32 (leValue (buf.take 4))).setWidth e.width, ?_⟩
    simp only [Elem.decode, hwt, fixed32Decode]
    rw [Decoder.map_eq_ok_iff]
    refine ⟨_, ?_, rfl⟩
    rw [Decoder.map_eq_ok_iff]
    refine ⟨_, ?_, rfl⟩
    rw [Decoder.take_eq_ok_iff]
    exact ⟨h.1, rfl, h.2⟩
  . rw [hwt, skipFlat_fixed64_iff] at h
    refine ⟨(BitVec.ofNat 64 (leValue (buf.take 8))).setWidth e.width, ?_⟩
    simp only [Elem.decode, hwt, fixed64Decode]
    rw [Decoder.map_eq_ok_iff]
    refine ⟨_, ?_, rfl⟩
    rw [Decoder.map_eq_ok_iff]
    refine ⟨_, ?_, rfl⟩
    rw [Decoder.take_eq_ok_iff]
    exact ⟨h.1, rfl, h.2⟩

/--
The decoder of a singular field is the 32-bit varint decoder or the one its iterators would use.
-/
theorem decodeSingular_cases (e : Elem)
    : (e.usesVarint32 = true ∧ e.wireType = .varint
          ∧ ∃ f : BitVec 32 → e.Value, e.decodeSingular = varint32Decode.map f)
        ∨ e.usesVarint32 = false ∧ e.decodeSingular = e.decode := by
  cases e with
  | enum => exact .inr ⟨rfl, rfl⟩
  | scalar kind =>
    cases kind with
    | uint32 =>
      refine .inl ⟨rfl, rfl, fun d => d, ?_⟩
      exact (Decoder.map_id varint32Decode).symm
    | sint32 => exact .inl ⟨rfl, rfl, unzigzag32, rfl⟩
    | bool => exact .inl ⟨rfl, rfl, fun d => if d ≠ 0 then 1#1 else 0#1, rfl⟩
    | int32 | int64 | uint64 | sint64 | fixed32 | fixed64 | sfixed32 | sfixed64 | double | float =>
      exact .inr ⟨rfl, rfl⟩

theorem skipFlat_of_decodeSingular {e : Elem} {buf : List UInt8} {v : e.Value} {n : Nat}
    (h : e.decodeSingular buf = .ok (v, n))
    : skipFlat e.wireType buf = .ok ((), n) := by
  rcases decodeSingular_cases e with ⟨-, hwt, f, hf⟩ | ⟨-, heq⟩
  . rw [hf, Decoder.map_eq_ok_iff] at h
    obtain ⟨d, hd, -⟩ := h
    rw [hwt]
    exact skipFlat_varint_iff.mpr (varintDecode_of_varint32Decode hd)
  . rw [heq] at h
    exact skipFlat_of_decode h

instance (e : Elem) : LawfulDecoder e.decode := by
  unfold Elem.decode
  split <;> infer_instance

instance (e : Elem) : LawfulDecoder e.decodeSingular := by
  rcases decodeSingular_cases e with ⟨-, -, f, hf⟩ | ⟨-, heq⟩
  . rw [hf]
    infer_instance
  . rw [heq]
    infer_instance

theorem isVarint_of_skipFlat {body : List UInt8}
    (h : skipFlat .varint body = .ok ((), body.length))
    : IsVarint body ∧ body.length ≤ 10 := by
  rw [skipFlat_varint_iff] at h
  obtain ⟨d, hd⟩ := h
  rw [varintDecode_eq_ok_iff] at hd
  obtain ⟨bs, rest, heq, hvarint, hle, hlen, -⟩ := hd
  have hrest : rest = [] := by
    have := congrArg List.length heq
    simp only [List.length_append] at this
    exact List.eq_nil_of_length_eq_zero (by omega)
  rw [hrest, List.append_nil] at heq
  rw [heq]
  exact ⟨hvarint, hle⟩

theorem varint32Decode_append {body : List UInt8} (h : IsVarint body) (hle : body.length ≤ 5)
    (tail : List UInt8)
    : varint32Decode (body ++ tail) = .ok (BitVec.ofNat 32 (varintValue body), body.length) := by
  rw [varint32Decode_eq_ok_iff]
  exact ⟨body, tail, rfl, h, hle, rfl, rfl⟩

theorem varint32Decode_overflow {body : List UInt8} (h : IsVarint body) (hlt : 5 < body.length)
    (tail : List UInt8)
    : varint32Decode (body ++ tail) = .error .overflow := by
  rw [varint32Decode_eq, Decoder.mapError, readVarint_overflow tail h hlt]
  rfl

/--
Where the data of a singular field cannot be decoded, it cannot be decoded whatever follows it.
-/
theorem decodeSingular_append {e : Elem} {body : List UInt8}
    (h : skipFlat e.wireType body = .ok ((), body.length)) (tail : List UInt8)
    : e.decodeSingular (body ++ tail) = e.decodeSingular body := by
  rcases decodeSingular_cases e with ⟨-, hwt, f, hf⟩ | ⟨-, heq⟩
  . rw [hwt] at h
    obtain ⟨hvarint, -⟩ := isVarint_of_skipFlat h
    rw [hf]
    apply Decoder.map_congr
    rw [← List.append_nil body, List.append_assoc]
    by_cases hshort : body.length ≤ 5
    . rw [varint32Decode_append hvarint hshort, varint32Decode_append hvarint hshort]
    . rw [varint32Decode_overflow hvarint (by omega), varint32Decode_overflow hvarint (by omega)]
  . obtain ⟨v, hv⟩ := decode_of_skipFlat h
    rw [heq, hv, LawfulDecoder.append e.decode hv tail]

/-! Arms. -/

theorem hasTag_wireType {f : Field} {tag : BitVec 32} (h : f.hasTag tag = true)
    : ∃ wt, tag = packTag f.index wt ∧ WireType.ofNat? (tag.toNat % 8) = some wt
        ∧ wt ≠ .sgroup := by
  have hpack {wt : WireType} (heq : tag = packTag f.index wt) (hne : wt ≠ .sgroup)
      : ∃ wt, tag = packTag f.index wt ∧ WireType.ofNat? (tag.toNat % 8) = some wt
          ∧ wt ≠ .sgroup := by
    subst heq
    exact ⟨wt, rfl, packTag_wireType _ _, hne⟩
  have helem (e : Elem) : e.wireType ≠ .sgroup := by
    rcases e.wireType_cases with hwt | hwt | hwt <;> simp [hwt]
  unfold Field.hasTag at h
  split at h
  . next e _ _ => exact hpack (by simpa using h) (helem e)
  . next e _ _ =>
    simp only [Bool.or_eq_true, beq_iff_eq] at h
    rcases h with h | h
    . exact hpack h (by decide)
    . exact hpack h (helem e)
  . exact hpack (by simpa using h) (by decide)

theorem repArm_skip {offset : Nat} {st st' : RepState} {buf : List UInt8} {m : Nat}
    (h : repArm offset st buf = .ok (st', m))
    : skipFlat .lenPrefix buf = .ok ((), m) := by
  unfold repArm at h
  rw [Decoder.map_eq_ok_iff] at h
  obtain ⟨content, hcontent, -⟩ := h
  exact skipFlat_lenPrefix_iff.mpr ⟨content, hcontent⟩

theorem arm_skip {f : Field} {tag : BitVec 32} (htag : f.hasTag tag = true) {tagOffset offset : Nat}
    {st st' : f.family.State} {buf : List UInt8} {m : Nat}
    (h : f.family.arm tagOffset offset f.index tag st buf = .ok (st', m))
    : ∃ wt, WireType.ofNat? (tag.toNat % 8) = some wt ∧ skipData wt buf = .ok ((), m) := by
  -- Each arm reads data of the wire type of its tag, and as much as skipping it would.
  have hpack {wt : WireType} (heq : tag = packTag f.index wt) (hne : wt ≠ .sgroup)
      (hskip : skipFlat wt buf = .ok ((), m))
      : ∃ wt, WireType.ofNat? (tag.toNat % 8) = some wt ∧ skipData wt buf = .ok ((), m) := by
    subst heq
    refine ⟨wt, packTag_wireType _ _, ?_⟩
    rwa [skipData_of_ne_sgroup hne]
  have helem (e : Elem) : e.wireType ≠ .sgroup := by
    rcases e.wireType_cases with hwt | hwt | hwt <;> simp [hwt]
  obtain ⟨index, family⟩ := f
  cases family with
  | scalar e default =>
    simp only [Family.arm] at h
    rw [Decoder.map_eq_ok_iff] at h
    obtain ⟨v, hv, -⟩ := h
    exact hpack (by simpa [Field.hasTag] using htag) (helem e) (skipFlat_of_decodeSingular hv)
  | bytes default =>
    simp only [Family.arm] at h
    rw [Decoder.map_eq_ok_iff] at h
    obtain ⟨v, hv, -⟩ := h
    exact hpack (by simpa [Field.hasTag] using htag) (by decide)
      (skipFlat_lenPrefix_iff.mpr ⟨v, hv⟩)
  | msgRef target =>
    simp only [Family.arm] at h
    rw [Decoder.map_eq_ok_iff] at h
    obtain ⟨v, hv, -⟩ := h
    exact hpack (by simpa [Field.hasTag] using htag) (by decide)
      (skipFlat_lenPrefix_iff.mpr ⟨v, hv⟩)
  | repScalar e packing =>
    simp only [Family.arm] at h
    split at h
    . next heq =>
      unfold packedArm at h
      split at h
      . simp at h
      . rw [Decoder.map_eq_ok_iff] at h
        obtain ⟨v, hv, -⟩ := h
        exact hpack heq (by decide) (skipFlat_lenPrefix_iff.mpr ⟨v, hv⟩)
    . next hne =>
      unfold unpackedArm at h
      split at h
      . simp at h
      . rw [Decoder.map_eq_ok_iff] at h
        obtain ⟨v, hv, -⟩ := h
        apply hpack _ (helem e) hv
        simpa [Field.hasTag, hne] using htag
  | repBytes => exact hpack (by simpa [Field.hasTag] using htag) (by decide) (repArm_skip h)
  | repMsg target => exact hpack (by simpa [Field.hasTag] using htag) (by decide) (repArm_skip h)
  | map key value => exact hpack (by simpa [Field.hasTag] using htag) (by decide) (repArm_skip h)

theorem arm_append {f : Field} {r : Record} (htag : f.hasTag r.tag = true) (hr : r.Valid)
    (tagOffset offset : Nat) (st : f.family.State) (tail : List UInt8)
    : f.family.arm tagOffset offset f.index r.tag st (r.body ++ tail)
        =
      f.family.arm tagOffset offset f.index r.tag st r.body := by
  obtain ⟨wt, hwt, hskip⟩ := hr.body
  have hflat {wt' : WireType} (heq : r.tag = packTag f.index wt') (hne : wt' ≠ .sgroup)
      : skipFlat wt' r.body = .ok ((), r.body.length) := by
    rw [heq, packTag_wireType, Option.some.injEq] at hwt
    rw [← skipData_of_ne_sgroup hne, hwt]
    exact hskip
  have helem (e : Elem) : e.wireType ≠ .sgroup := by
    rcases e.wireType_cases with hwt | hwt | hwt <;> simp [hwt]
  have hbytes (heq : r.tag = packTag f.index .lenPrefix)
      : bytesDecode (r.body ++ tail) = bytesDecode r.body := by
    obtain ⟨content, hcontent⟩ := skipFlat_lenPrefix_iff.mp (hflat heq (by decide))
    rw [hcontent, LawfulDecoder.append bytesDecode hcontent tail]
  obtain ⟨index, family⟩ := f
  cases family with
  | scalar e default =>
    simp only [Family.arm]
    apply Decoder.map_congr
    apply decodeSingular_append
    exact hflat (by simpa [Field.hasTag] using htag) (helem e)
  | bytes default => exact Decoder.map_congr (hbytes (by simpa [Field.hasTag] using htag))
  | msgRef target => exact Decoder.map_congr (hbytes (by simpa [Field.hasTag] using htag))
  | repScalar e packing =>
    simp only [Family.arm]
    split
    . next heq =>
      unfold packedArm
      split
      . rfl
      . exact Decoder.map_congr (hbytes heq)
    . next hne =>
      unfold unpackedArm
      split
      . rfl
      . apply Decoder.map_congr
        have heq : r.tag = packTag index e.wireType := by
          simpa [Field.hasTag, hne] using htag
        have hbody := hflat heq (helem e)
        rw [hbody, LawfulDecoder.append (skipFlat e.wireType) hbody tail]
  | repBytes => exact Decoder.map_congr (hbytes (by simpa [Field.hasTag] using htag))
  | repMsg target => exact Decoder.map_congr (hbytes (by simpa [Field.hasTag] using htag))
  | map key value => exact Decoder.map_congr (hbytes (by simpa [Field.hasTag] using htag))

namespace Record.Valid

theorem head_ne_nil {r : Record} (h : r.Valid) : r.head ≠ [] := by
  intro hnil
  have := varint32Decode_pos h.head
  simp [hnil] at this

theorem read_head {r : Record} (h : r.Valid) (tail : List UInt8)
    : varint32Decode (r.bytes ++ tail) = .ok (r.tag, r.head.length) := by
  rw [Record.bytes, List.append_assoc]
  exact LawfulDecoder.append varint32Decode h.head _

theorem skip_body {r : Record} (h : r.Valid) {wt : WireType}
    (hwt : WireType.ofNat? (r.tag.toNat % 8) = some wt) (tail : List UInt8)
    : skipData wt (r.body ++ tail) = .ok ((), r.body.length) := by
  obtain ⟨wt', hwt', hskip⟩ := h.body
  rw [hwt, Option.some.injEq] at hwt'
  subst hwt'
  exact LawfulDecoder.append (skipData wt) hskip tail

theorem drop_head {r : Record} (tail : List UInt8)
    : (r.bytes ++ tail).drop r.head.length = r.body ++ tail := by
  simp [Record.bytes]

theorem drop_bytes {r : Record} (tail : List UInt8)
    : (r.bytes ++ tail).drop (r.head.length + r.body.length) = tail := by
  simp [Record.bytes]

end Record.Valid

/-! `reader_init` on records. -/

/--
What the arm of a field makes of one of its records, which starts at `off`.
-/
def Field.absorb (f : Field) (off : Nat) (r : Record) (st : f.family.State)
    : Except Error f.family.State :=
  match f.family.arm off (off + r.head.length) f.index r.tag st r.body with
  | .error e => .error e
  | .ok (st, _) => .ok st

/--
The loop of `reader_init`, one record a round.
-/
def initRecords (S : Schema) (t : MsgId) : (off : Nat) → Fields S t → List Record →
    Except Error (Fields S t)
  | _, fields, [] => .ok fields
  | off, fields, r :: rs =>
    match owner S t r.tag with
    | some i =>
      match (S.field t i).absorb off r (fields i) with
      | .error e => .error e
      | .ok st => initRecords S t (off + r.bytes.length) (Function.update fields i st) rs
    | none =>
      if r.tag.toNat / 8 = 0 then
        .error .invalidFieldNum
      else
        initRecords S t (off + r.bytes.length) fields rs

variable {S : Schema} {t : MsgId}

theorem hasTag_of_owner {tag : BitVec 32} {i : Fin (S t).length} (h : owner S t tag = some i)
    : (S.field t i).hasTag tag = true := by
  unfold owner at h
  exact List.find?_some (p := fun i => (S.field t i).hasTag tag) h

theorem arm_length {f : Field} {r : Record} (htag : f.hasTag r.tag = true) (hr : r.Valid)
    {tagOffset offset : Nat} {st st' : f.family.State} {m : Nat}
    (h : f.family.arm tagOffset offset f.index r.tag st r.body = .ok (st', m))
    : m = r.body.length := by
  obtain ⟨wt, hwt, hskip⟩ := arm_skip htag h
  have := hr.skip_body hwt []
  rw [List.append_nil, hskip] at this
  simpa using this

theorem readerInitLoop_append {fuel : Nat} (off : Nat) (fields : Fields S t) {rs : List Record}
    (tail : List UInt8) (hvalid : ∀ r ∈ rs, r.Valid)
    (hfuel : (Record.concat rs).length + tail.length ≤ fuel)
    : ∃ fuel', tail.length ≤ fuel'
        ∧ readerInitLoop S t fuel off fields (Record.concat rs ++ tail)
            =
          match initRecords S t off fields rs with
          | .error e => .error e
          | .ok fields' =>
            readerInitLoop S t fuel' (off + (Record.concat rs).length) fields' tail := by
  induction rs generalizing fuel off fields with
  | nil => exact ⟨fuel, by simpa using hfuel, by simp [initRecords]⟩
  | cons r rs ih =>
    have hr := hvalid r (by simp)
    have hrs : ∀ r ∈ rs, r.Valid := fun r hmem => hvalid r (by simp [hmem])
    have hhead := List.length_pos_iff.mpr hr.head_ne_nil
    rw [Record.concat_cons] at hfuel ⊢
    simp only [List.length_append, Record.length_bytes] at hfuel
    rw [List.append_assoc]
    cases fuel with
    | zero => omega
    | succ fuel =>
      have hne : r.bytes ++ (Record.concat rs ++ tail) ≠ [] := by
        simp [Record.bytes, hr.head_ne_nil]
      have hoff : off + (r.bytes ++ Record.concat rs).length
          = off + r.bytes.length + (Record.concat rs).length := by
        simp only [List.length_append]
        omega
      rw [readerInitLoop, initRecords]
      simp only [hne, ↓reduceIte, hr.read_head, Record.Valid.drop_head, hoff]
      -- The arm of the owner takes the body of the record exactly; an unowned record is skipped.
      cases howner : owner S t r.tag with
      | some i =>
        dsimp only
        have htag := hasTag_of_owner howner
        rw [arm_append htag hr]
        unfold Field.absorb
        cases harm : (S.field t i).family.arm off (off + r.head.length) (S.field t i).index r.tag
            (fields i) r.body with
        | error e => exact ⟨tail.length, Nat.le_refl _, rfl⟩
        | ok res =>
          obtain ⟨st, m⟩ := res
          have hm := arm_length htag hr harm
          dsimp only
          rw [hm, Record.Valid.drop_bytes, Nat.add_assoc, ← Record.length_bytes]
          apply ih _ _ hrs
          omega
      | none =>
        dsimp only
        obtain ⟨wt, hwt, -⟩ := hr.body
        rw [hwt]
        dsimp only
        split
        . exact ⟨tail.length, Nat.le_refl _, rfl⟩
        . rw [hr.skip_body hwt]
          dsimp only
          rw [Record.Valid.drop_bytes, Nat.add_assoc, ← Record.length_bytes]
          apply ih _ _ hrs
          omega

theorem readerInitLoop_nil (fuel off : Nat) (fields : Fields S t)
    : readerInitLoop S t fuel off fields [] = .ok fields := by
  cases fuel <;> simp [readerInitLoop]

theorem readerInitLoop_concat {fuel off : Nat} {fields : Fields S t} {rs : List Record}
    (hvalid : ∀ r ∈ rs, r.Valid) (hfuel : (Record.concat rs).length ≤ fuel)
    : readerInitLoop S t fuel off fields (Record.concat rs) = initRecords S t off fields rs := by
  obtain ⟨fuel', -, hloop⟩ := readerInitLoop_append off fields [] hvalid hfuel
  rw [List.append_nil] at hloop
  rw [hloop]
  cases initRecords S t off fields rs with
  | error e => rfl
  | ok fields' => exact readerInitLoop_nil ..

theorem valid_take {buf : List UInt8} {tag : BitVec 32} {n m : Nat} {wt : WireType}
    (hhead : varint32Decode buf = .ok (tag, n)) (hwt : WireType.ofNat? (tag.toNat % 8) = some wt)
    (hbody : skipData wt (buf.drop n) = .ok ((), m))
    : (Record.mk tag (buf.take n) ((buf.drop n).take m)).Valid := by
  have hn := LawfulDecoder.consumed_le hhead
  have hm := LawfulDecoder.consumed_le hbody
  constructor
  . dsimp only
    rw [LawfulDecoder.take varint32Decode hhead, List.length_take, Nat.min_eq_left hn]
  . refine ⟨wt, hwt, ?_⟩
    dsimp only
    rw [LawfulDecoder.take (skipData wt) hbody, List.length_take, Nat.min_eq_left hm]

theorem exists_records {fuel off : Nat} {fields fields' : Fields S t} {buf : List UInt8}
    (hfuel : buf.length ≤ fuel) (h : readerInitLoop S t fuel off fields buf = .ok fields')
    : ∃ rs, (∀ r ∈ rs, Record.Valid r) ∧ buf = Record.concat rs := by
  induction fuel generalizing off fields buf with
  | zero =>
    have : buf = [] := List.eq_nil_of_length_eq_zero (by omega)
    exact ⟨[], by simp, by simp [this]⟩
  | succ fuel ih =>
    have hround {tag : BitVec 32} {n m off' : Nat} {wt : WireType} {fields'' : Fields S t}
        (hhead : varint32Decode buf = .ok (tag, n))
        (hwt : WireType.ofNat? (tag.toNat % 8) = some wt)
        (hbody : skipData wt (buf.drop n) = .ok ((), m))
        (htail : readerInitLoop S t fuel off' fields'' (buf.drop (n + m)) = .ok fields')
        : ∃ rs, (∀ r ∈ rs, Record.Valid r) ∧ buf = Record.concat rs := by
      have hpos := varint32Decode_pos hhead
      obtain ⟨rs, hrs, hconcat⟩ := ih (by simp; omega) htail
      refine ⟨⟨tag, buf.take n, (buf.drop n).take m⟩ :: rs, ?_, ?_⟩
      . intro r hmem
        rw [List.mem_cons] at hmem
        rcases hmem with rfl | hmem
        . exact valid_take hhead hwt hbody
        . exact hrs r hmem
      . rw [Record.concat_cons, ← hconcat, Record.bytes, List.append_assoc, ← List.drop_drop,
          List.take_append_drop, List.take_append_drop]
    unfold readerInitLoop at h
    split at h
    . next hnil => exact ⟨[], by simp, by simp [hnil]⟩
    . split at h
      . simp at h
      . next tag n hhead =>
        split at h
        . next i howner =>
          dsimp only at h
          split at h
          . simp at h
          . next st m harm =>
            obtain ⟨wt, hwt, hskip⟩ := arm_skip (hasTag_of_owner howner) harm
            exact hround hhead hwt hskip h
        . split at h
          . simp at h
          . next wt hwt =>
            split at h
            . simp at h
            . split at h
              . simp at h
              . next m hskip => exact hround hhead hwt hskip h

/-! Fields one by one. -/

/--
What the arms of a field make of the records that are its own.
-/
def Field.fold (f : Field) (mine : Record → Bool) : (off : Nat) → f.family.State → List Record →
    Except Error f.family.State
  | _, st, [] => .ok st
  | off, st, r :: rs =>
    if mine r then
      match f.absorb off r st with
      | .error e => .error e
      | .ok st => f.fold mine (off + r.bytes.length) st rs
    else
      f.fold mine (off + r.bytes.length) st rs

/-! The field that a record belongs to. -/

/--
The wire types in which the records of a field come.
-/
def Family.wireTypes : Family → List WireType
  | .scalar e _ => [e.wireType]
  | .repScalar e _ => [.lenPrefix, e.wireType]
  | .bytes _ => [.lenPrefix]
  | .msgRef _ => [.lenPrefix]
  | .repBytes => [.lenPrefix]
  | .repMsg _ => [.lenPrefix]
  | .map _ _ => [.lenPrefix]

/--
The tags of the records of a field: its number with one of its wire types.
-/
def Field.tags (f : Field) : List (BitVec 32) :=
  f.family.wireTypes.map (packTag f.index)

/--
Field `i` is the first one with the number and a wire type of the tag.
-/
def taken (S : Schema) (t : MsgId) (i : Fin (S t).length) (tag : BitVec 32) : Bool :=
  (S.field t i).tags.contains tag
    && (List.finRange (S t).length).all fun j => decide (i ≤ j) || !(S.field t j).tags.contains tag

def owns (S : Schema) (t : MsgId) (i : Fin (S t).length) (r : Record) : Bool :=
  taken S t i r.tag

theorem Field.hasTag_eq (f : Field) (tag : BitVec 32) : f.hasTag tag = f.tags.contains tag := by
  obtain ⟨index, family⟩ := f
  rw [Bool.eq_iff_iff]
  cases family <;> simp [Field.hasTag, Field.tags, Family.wireTypes]

theorem taken_iff {i : Fin (S t).length} {tag : BitVec 32}
    : taken S t i tag = true
        ↔
      tag ∈ (S.field t i).tags ∧ ∀ j < i, tag ∉ (S.field t j).tags := by
  simp only [taken, Bool.and_eq_true, List.contains_iff_mem, List.all_eq_true, List.mem_finRange, true_implies,
    Bool.or_eq_true, decide_eq_true_eq, Bool.not_eq_true', ← Bool.not_eq_true]
  apply and_congr_right
  intro _
  apply forall_congr'
  intro j
  rw [or_iff_not_imp_left, Fin.not_le]

/--
The arm that is the first to match a tag is that of the first field with its number and wire type.
-/
theorem owner_eq_some_iff {i : Fin (S t).length} {tag : BitVec 32}
    : owner S t tag = some i ↔ taken S t i tag = true := by
  rw [taken_iff, owner, List.find?_eq_some_iff_getElem]
  simp only [Field.hasTag_eq, List.contains_iff_mem, List.getElem_finRange, Bool.not_eq_true', ← Bool.not_eq_true]
  constructor
  . rintro ⟨hmem, k, hk, rfl, hbefore⟩
    refine ⟨hmem, ?_⟩
    intro j hj
    exact hbefore j.val hj
  . rintro ⟨hmem, hbefore⟩
    refine ⟨hmem, i.val, by simp, by simp, ?_⟩
    intro k hk
    exact hbefore ⟨k, by omega⟩ hk

theorem owner_eq_none_iff {tag : BitVec 32} : owner S t tag = none ↔ ∀ i, tag ∉ (S.field t i).tags := by
  simp [owner, Field.hasTag_eq]

theorem taken_eq (i : Fin (S t).length) (tag : BitVec 32) : taken S t i tag = (owner S t tag == some i) := by
  rw [Bool.eq_iff_iff, ← owner_eq_some_iff, beq_iff_eq]

theorem hasTag_of_taken {i : Fin (S t).length} {tag : BitVec 32} (h : taken S t i tag = true)
    : (S.field t i).hasTag tag = true :=
  hasTag_of_owner (owner_eq_some_iff.mpr h)

/--
No record that is left to the skipper has field number 0.
-/
def NumbersOk (S : Schema) (t : MsgId) (rs : List Record) : Prop :=
  ∀ r ∈ rs, owner S t r.tag = none → r.tag.toNat / 8 ≠ 0

theorem numbersOk_cons {r : Record} {rs : List Record}
    : NumbersOk S t (r :: rs)
        ↔
      (owner S t r.tag = none → r.tag.toNat / 8 ≠ 0) ∧ NumbersOk S t rs := by
  simp [NumbersOk]

theorem owns_of_owner {i : Fin (S t).length} {r : Record} (h : owner S t r.tag = some i)
    (j : Fin (S t).length)
    : owns S t j r = decide (j = i) := by
  simp only [owns, taken_eq, h]
  by_cases hj : j = i
  . simp [hj]
  . simp [hj, Ne.symm hj]

/--
`reader_init` accepts the records exactly where each field accepts its own, and keeps for each
field what it made of them.
-/
theorem initRecords_eq_ok_iff {off : Nat} {fields fields' : Fields S t} {rs : List Record}
    : initRecords S t off fields rs = .ok fields'
        ↔
      NumbersOk S t rs
        ∧ ∀ i, (S.field t i).fold (owns S t i) off (fields i) rs = .ok (fields' i) := by
  induction rs generalizing off fields with
  | nil =>
    simp only [initRecords, Field.fold, Except.ok.injEq, NumbersOk, List.not_mem_nil,
      false_implies, implies_true, true_and]
    exact funext_iff
  | cons r rs ih =>
    rw [numbersOk_cons]
    unfold initRecords
    cases howner : owner S t r.tag with
    | some i =>
      have hmine := owns_of_owner howner
      simp only [Field.fold, hmine, reduceCtorEq, false_implies, true_and]
      cases habsorb : (S.field t i).absorb off r (fields i) with
      | error e =>
        dsimp only
        simp only [reduceCtorEq, false_iff, not_and, not_forall]
        intro _
        refine ⟨i, ?_⟩
        simp [habsorb]
      | ok st =>
        dsimp only
        rw [ih]
        apply and_congr_right
        intro _
        apply forall_congr'
        intro j
        by_cases hj : j = i
        . subst hj
          simp [habsorb]
        . simp [hj]
    | none =>
      have hmine (j : Fin (S t).length) : owns S t j r = false := by
        simp [owns, taken_eq, howner]
      simp only [Field.fold, hmine, Bool.false_eq_true, ↓reduceIte, true_implies]
      split
      . next hzero => simp [hzero]
      . next hnum =>
        rw [ih]
        simp [hnum]

/--
Where `reader_init` rejects the records, a field rejects one of its own for the same reason, or a
record that is left to the skipper has field number 0.
-/
theorem initRecords_eq_error {off : Nat} {fields : Fields S t} {rs : List Record} {e : Error}
    (h : initRecords S t off fields rs = .error e)
    : e = .invalidFieldNum
        ∨ ∃ i, (S.field t i).fold (owns S t i) off (fields i) rs = .error e := by
  induction rs generalizing off fields with
  | nil => simp [initRecords] at h
  | cons r rs ih =>
    unfold initRecords at h
    cases howner : owner S t r.tag with
    | some i =>
      have hmine := owns_of_owner howner
      simp only [howner] at h
      simp only [Field.fold, hmine]
      cases habsorb : (S.field t i).absorb off r (fields i) with
      | error e' =>
        simp only [habsorb, Except.error.injEq] at h
        refine .inr ⟨i, ?_⟩
        simp [habsorb, h]
      | ok st =>
        simp only [habsorb] at h
        rcases ih h with he | ⟨j, hj⟩
        . exact .inl he
        . refine .inr ⟨j, ?_⟩
          by_cases hji : j = i
          . subst hji
            simpa [habsorb] using hj
          . simpa [hji] using hj
    | none =>
      have hmine (j : Fin (S t).length) : owns S t j r = false := by
        simp [owns, taken_eq, howner]
      simp only [howner] at h
      simp only [Field.fold, hmine, Bool.false_eq_true, ↓reduceIte]
      split at h
      . simp only [Except.error.injEq] at h
        exact .inl h.symm
      . exact ih h

theorem readerInit_concat {rs : List Record} (hvalid : ∀ r ∈ rs, r.Valid)
    : readerInit S t (Record.concat rs)
        =
      match initRecords S t 0 (fun i => (S.field t i).family.initial) rs with
      | .error e => .error e
      | .ok fields => .ok ⟨Record.concat rs, fields⟩ := by
  unfold readerInit
  have hloop : readerInitLoop S t (Record.concat rs).length 0 (fun i => (S.field t i).family.initial)
      (Record.concat rs) = initRecords S t 0 (fun i => (S.field t i).family.initial) rs :=
    readerInitLoop_concat hvalid (Nat.le_refl _)
  split
  . next e he =>
    rw [hloop] at he
    simp only [he]
  . next fields hfields =>
    rw [hloop] at hfields
    simp only [hfields]

theorem readerInit_eq_ok_iff {rs : List Record} (hvalid : ∀ r ∈ rs, r.Valid) {r : Reader S t}
    : readerInit S t (Record.concat rs) = .ok r
        ↔
      r.src = Record.concat rs ∧ NumbersOk S t rs
        ∧ ∀ i, (S.field t i).fold (owns S t i) 0 (S.field t i).family.initial rs
            = .ok (r.fields i) := by
  rw [readerInit_concat hvalid, ← initRecords_eq_ok_iff]
  obtain ⟨src, fields⟩ := r
  cases initRecords S t 0 (fun i => (S.field t i).family.initial) rs with
  | error e => simp
  | ok fields' =>
    simp only [Except.ok.injEq, Reader.mk.injEq]
    constructor <;> (rintro ⟨hsrc, hfields⟩; exact ⟨hsrc.symm, hfields⟩)

theorem exists_records_of_readerInit {src : List UInt8} {r : Reader S t}
    (h : readerInit S t src = .ok r)
    : ∃ rs, (∀ r ∈ rs, Record.Valid r) ∧ src = Record.concat rs := by
  unfold readerInit at h
  split at h
  . simp at h
  . next fields hloop => exact exists_records (Nat.le_refl _) hloop

end Gremlin
