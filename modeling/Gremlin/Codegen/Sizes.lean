import Gremlin.Codegen.Trees
import Gremlin.Machine.Layout
import Gremlin.Writer.Agreement

/-!
This module contains the logic functions of the contracts on the write side: the size of a message and of its
fields in the integers of the specification language, and what is the same in two memories.
-/

namespace Gremlin

open Codec Memory Naming

/-! Numbers. -/

/--
`varint_size` of the specification.
-/
def logicVarintSize (v : Int) : Nat :=
  if v < 0x80 then 1
  else if v < 0x4000 then 2
  else if v < 0x200000 then 3
  else if v < 0x10000000 then 4
  else if v < 0x800000000 then 5
  else if v < 0x40000000000 then 6
  else if v < 0x2000000000000 then 7
  else if v < 0x100000000000000 then 8
  else if v < 0x8000000000000000 then 9
  else 10

def enumWire (v : Int) : Int :=
  if v < 0 then v + 18446744073709551616
  else if 2147483648 ≤ v then v + 18446744069414584320
  else v

/--
`value_size`. A cast to `uint64_t` wraps around. There are no contracts for the other kinds.
-/
def valueSize : ScalarKind → Int → Nat
  | .int32, v | .int64, v => logicVarintSize (v % 2 ^ 64)
  | .uint32, v | .uint64, v => logicVarintSize v
  | .fixed32, _ | .sfixed32, _ => 4
  | .fixed64, _ | .sfixed64, _ => 8
  | .bool, _ => 1
  | _, _ => 0

def elemSize : Elem → Int → Nat
  | .enum, v =>
    logicVarintSize
      (if v < 0 then v + 18446744073709551616
      else if 2147483648 ≤ v then v + 18446744069414584320
      else v)
  | .scalar .int32, v | .scalar .int64, v =>
    logicVarintSize (if v < 0 then v + 18446744073709551616 else v)
  | .scalar kind, v => valueSize kind v

/-! Sizes. -/

/--
What the logic functions read of a memory. Beside pointers and counts these are the values of members and
elements, as integers, and the `_size` members.
-/
structure LogicState extends Heap where
  value : (i : Nat) → Addr → (j : Nat) → Int
  valueAt : (i : Nat) → Addr → (j k : Nat) → Int
  cached : (i : Nat) → Addr → Int

/--
`n <= 0 ? 0 : sum(m, n - 1) + term`.
-/
def sumTo (term : Nat → Nat) : Nat → Nat
  | 0 => 0
  | n + 1 => sumTo term n + term n

section Sizes

variable (s : LogicState)

/--
The width of an element of a fixed size.
-/
def fixedWidth (kind : ScalarKind) : Nat :=
  if kind.wireType = .fixed32 then 4 else 8

section Field

-- the default of a field, and the sizes of messages
variable (literal : (i j : Nat) → Int) (tsize : Nat → Addr → Nat)

/--
What a message takes as a field, with its tag.
-/
def termSize (tagb child : Nat) (e : Addr) : Nat :=
  tagb + logicVarintSize (tsize child e) + tsize child e

/--
What element `k` of a field adds to its sum.
-/
def sumTerm (i : Nat) (m : Addr) (j : Nat) (f : EncodeField) (k : Nat) : Nat :=
  match f with
  | .repMsg child tagb =>
    if s.element i m j k ≠ 0 then termSize tsize tagb child (s.element i m j k) else tagb + 1
  | .repBytes tagb =>
    let len := (s.spanAt i m j k).size
    tagb + logicVarintSize len + len
  | .repVarint elem .. => elemSize elem (s.valueAt i m j k)
  | _ => 0

/--
`emit_field_logic`.
-/
def fieldSum (i : Nat) (m : Addr) (j : Nat) (f : EncodeField) (n : Nat) : Nat :=
  sumTo (sumTerm s tsize i m j f) n

/--
`emit_field_size`.
-/
def fieldSize (i : Nat) (m : Addr) (j : Nat) : EncodeField → Nat
  | .scalar kind tagb =>
    if s.value i m j ≠ literal i j then tagb + valueSize kind (s.value i m j) else 0
  | .enum tagb =>
    if s.value i m j ≠ literal i j then tagb + logicVarintSize (enumWire (s.value i m j)) else 0
  | .bytes tagb =>
    let len := (s.span i m j).size
    if 0 < len then tagb + logicVarintSize len + len else 0
  | .msg child tagb =>
    if s.pointer i m j ≠ 0 then termSize tsize tagb child (s.pointer i m j) else 0
  | .repMsg child tagb => fieldSum s tsize i m j (.repMsg child tagb) (s.count i m j)
  | .repBytes tagb => fieldSum s tsize i m j (.repBytes tagb) (s.count i m j)
  | .repVarint elem ctype tagb utagb packing =>
    let count := s.count i m j
    let sum := fieldSum s tsize i m j (.repVarint elem ctype tagb utagb packing) count
    match packing with
    | .auto =>
      if count = 1 then utagb + elemSize elem (s.valueAt i m j 0)
      else if 1 < count then tagb + logicVarintSize sum + sum
      else 0
    | .packed => if 0 < count then tagb + logicVarintSize sum + sum else 0
    | .expanded => count * utagb + sum
  | .repFixed kind tagb utagb packing =>
    let count := s.count i m j
    let width := fixedWidth kind
    match packing with
    | .auto =>
      if count = 1 then utagb + width
      else if 1 < count then tagb + logicVarintSize (count * width : Nat) + count * width
      else 0
    | .packed => if 0 < count then tagb + logicVarintSize (count * width : Nat) + count * width else 0
    | .expanded => count * (utagb + width)

end Field

section Message

variable (literal : (i j : Nat) → Int) (messages : List EncodeMessage)

/--
The functions `tsize` of the messages of a plan. `fuel` bounds the depth.
-/
def tsizeTo : (fuel : Nat) → Nat → Addr → Nat
  | 0, _, _ => 0
  | fuel + 1, i, m => ((places messages i).map fun f => fieldSize s literal (tsizeTo fuel) i m f.2 f.1).sum

/--
`tsize` of a message, below which there are messages with smaller numbers.
-/
def tsize (i : Nat) (m : Addr) : Nat :=
  tsizeTo s literal messages (i + 1) i m

end Message

end Sizes

/-! The wire. -/

/--
There are contracts for fields of these elements.
-/
def Elem.supported : Elem → Bool
  | .scalar kind => kind.supported
  | .enum => true

/--
The value of an element as an integer. Whether an enum is signed is up to the compiler.
-/
def Elem.toLogic (enumSigned : Bool) : (e : Elem) → e.Value → Int
  | .enum, v => if enumSigned then v.toInt else v.toNat
  | .scalar .int32, v => v.toInt
  | .scalar .int64, v => v.toInt
  | .scalar .sint32, v => v.toInt
  | .scalar .sint64, v => v.toInt
  | .scalar .sfixed32, v => v.toInt
  | .scalar .sfixed64, v => v.toInt
  | .scalar kind, v => (v : BitVec kind.width).toNat

theorem length_varintBytes_of_le {fuel v : Nat} (h : 128 ^ fuel ≤ v) : (varintBytes fuel v).length = fuel + 1 := by
  induction fuel generalizing v with
  | zero => rfl
  | succ fuel ih =>
    rw [Nat.pow_succ] at h
    have hpos := Nat.pow_pos (a := 128) (n := fuel) (by decide)
    rw [varintBytes, if_neg (by omega), List.length_cons, ih (by omega)]

theorem logicVarintSize_toNat (v : BitVec 64) : logicVarintSize v.toNat = varintSize v := by
  rw [varintSize_eq_varintSizeCascade]
  simp only [logicVarintSize, varintSizeCascade, BitVec.lt_def, BitVec.ofNat_eq_ofNat, BitVec.toNat_ofNat,
    Nat.reducePow, Nat.reduceMod]
  norm_cast

theorem logicVarintSize_zero : logicVarintSize 0 = 1 := by
  simp [logicVarintSize]

theorem logicVarintSize_natCast (n : Nat) : logicVarintSize n = (varintBytes 9 n).length := by
  by_cases hlt : n < 2 ^ 64
  . have := logicVarintSize_toNat (BitVec.ofNat 64 n)
    rw [← length_varintBytes_word] at this
    rwa [BitVec.toNat_ofNat, Nat.mod_eq_of_lt hlt] at this
  . rw [length_varintBytes_of_le (by omega)]
    unfold logicVarintSize
    split_ifs <;> omega

theorem natCast_toNat {w : Nat} (v : BitVec w) : (v.toNat : Int) = v.toInt % (2 ^ w : Nat) := by
  rw [BitVec.toInt_eq_toNat_bmod, Int.bmod_emod, Int.emod_eq_of_lt (Int.natCast_nonneg _)]
  exact_mod_cast v.isLt

theorem natCast_toNat_signExtend {w : Nat} (hw : w ≤ 64) (v : BitVec w)
    : ((v.signExtend 64).toNat : Int) = v.toInt % 2 ^ 64 := by
  rw [natCast_toNat, BitVec.toInt_signExtend_of_le hw]
  rfl

theorem toInt_bounds {w : Nat} (v : BitVec (w + 1)) : -2 ^ w ≤ v.toInt ∧ v.toInt < 2 ^ w :=
  ⟨BitVec.le_toInt v, BitVec.toInt_lt⟩

/--
A negative number wraps around to the number with as many bits.
-/
theorem emod_two_pow_64 {v : Int} (h : -2 ^ 63 ≤ v) (h' : v < 2 ^ 64)
    : v % 2 ^ 64 = if v < 0 then v + 18446744073709551616 else v := by
  split <;> omega

theorem enumWire_toInt (v : BitVec 32) : enumWire v.toInt = v.toInt % 2 ^ 64 := by
  have := toInt_bounds v
  unfold enumWire
  split_ifs <;> omega

theorem enumWire_toNat (v : BitVec 32) : enumWire v.toNat = v.toInt % 2 ^ 64 := by
  have := v.isLt
  rw [BitVec.toInt_eq_toNat_cond]
  unfold enumWire
  split_ifs <;> omega

theorem enumWire_toLogic (enumSigned : Bool) (v : Elem.enum.Value)
    : logicVarintSize (enumWire (Elem.enum.toLogic enumSigned v)) = Elem.enum.wireSize v := by
  have hwire : enumWire (Elem.enum.toLogic enumSigned v) = ((v.signExtend 64).toNat : Int) := by
    rw [natCast_toNat_signExtend (by decide)]
    cases enumSigned with
    | true => exact enumWire_toInt v
    | false => exact enumWire_toNat v
  rw [hwire, logicVarintSize_toNat]
  rfl

theorem valueSize_toLogic {kind : ScalarKind} (hsupported : kind.supported = true) (enumSigned : Bool)
    (v : (Elem.scalar kind).Value)
    : valueSize kind ((Elem.scalar kind).toLogic enumSigned v) = (Elem.scalar kind).wireSize v := by
  cases kind with
  | int32 =>
    change logicVarintSize (v.toInt % 2 ^ 64) = varintSize (v.signExtend 64)
    rw [← natCast_toNat_signExtend (by decide), logicVarintSize_toNat]
  | int64 =>
    change logicVarintSize (v.toInt % (2 ^ 64 : Nat)) = varintSize v
    rw [← natCast_toNat, logicVarintSize_toNat]
  | uint32 =>
    change logicVarintSize v.toNat = varint32Size v
    rw [logicVarintSize_natCast, length_varintBytes_word32]
  | uint64 => exact logicVarintSize_toNat v
  | sint32 | sint64 | float | double => cases hsupported
  | fixed32 | fixed64 | sfixed32 | sfixed64 | bool => rfl

theorem elemSize_toLogic {e : Elem} (hsupported : e.supported = true)
    (enumSigned : Bool) (v : e.Value) : elemSize e (e.toLogic enumSigned v) = e.wireSize v := by
  cases e with
  | enum => exact enumWire_toLogic enumSigned v
  | scalar kind =>
    have hvalue := valueSize_toLogic hsupported enumSigned v
    cases kind with
    | int32 =>
      have := toInt_bounds v
      rw [← hvalue]
      change logicVarintSize (if v.toInt < 0 then _ else v.toInt) = logicVarintSize (v.toInt % 2 ^ 64)
      rw [emod_two_pow_64 (by omega) (by omega)]
      rfl
    | int64 =>
      have := toInt_bounds v
      rw [← hvalue]
      change logicVarintSize (if v.toInt < 0 then _ else v.toInt) = logicVarintSize (v.toInt % 2 ^ 64)
      rw [emod_two_pow_64 (by omega) (by omega)]
      rfl
    | _ => exact hvalue

theorem Elem.differs_iff {e : Elem} (hsupported : e.supported = true)
    (enumSigned : Bool) (v default : e.Value)
    : e.differs v default = true ↔ e.toLogic enumSigned v ≠ e.toLogic enumSigned default := by
  have hne (hinj : ∀ v v', e.toLogic enumSigned v = e.toLogic enumSigned v' → v = v')
      : (v != default) = true ↔ e.toLogic enumSigned v ≠ e.toLogic enumSigned default := by
    rw [bne_iff_ne]
    exact not_congr ⟨congrArg _, hinj v default⟩
  have hunsigned {w : Nat} (v v' : BitVec w) (h : (v.toNat : Int) = v'.toNat) : v = v' :=
    BitVec.eq_of_toNat_eq (by exact_mod_cast h)
  have hsigned {w : Nat} (v v' : BitVec w) (h : v.toInt = v'.toInt) : v = v' := BitVec.eq_of_toInt_eq h
  cases e with
  | enum =>
    apply hne
    cases enumSigned with
    | true => exact hsigned
    | false => exact hunsigned
  | scalar kind =>
    cases kind with
    | sint32 | sint64 | float | double => cases hsupported
    | int32 | int64 | sfixed32 | sfixed64 => exact hne hsigned
    | uint32 | uint64 | fixed32 | fixed64 | bool => exact hne hunsigned

/-! The state of a memory. -/

/--
The type `ctype` is that of an element.
-/
def Elem.HasCType (cName : NodeId → Spelling) : Elem → Spelling → Prop
  | .scalar kind, ctype => ctype = kind.cType
  | .enum, ctype => ∃ target, ctype = cName target

/--
What a contract takes from the C compiler beside the layout: whether the enum of a field is signed, the sizes
of types, and which memory can be accessed.
-/
structure Platform (cName : NodeId → Spelling) where
  enumSigned : (i j : Nat) → Bool
  elemSize : Spelling → Nat
  elemSize_scalar : ∀ kind : ScalarKind, elemSize kind.cType = (Elem.scalar kind).byteSize
  elemSize_enum : ∀ target, elemSize (cName target) = 4
  elemSize_bytes : elemSize "struct gremlin_bytes".toList = 16
  Writable : Region → Prop
  Readable : Region → Prop

theorem Platform.elemSize_eq {cName : NodeId → Spelling} (P : Platform cName) {e : Elem} {ctype : Spelling}
    (h : e.HasCType cName ctype) : P.elemSize ctype = e.byteSize := by
  cases e with
  | scalar kind =>
    cases h
    exact P.elemSize_scalar kind
  | enum =>
    obtain ⟨target, rfl⟩ := h
    exact P.elemSize_enum target

namespace Layout

variable {S : Schema} (L : Layout S) {cName : NodeId → Spelling} (P : Platform cName)

def logicValue (i j : Nat) (load : (e : Elem) → e.Value) : Int :=
  match (S i)[j]? with
  | some ⟨_, .scalar e _⟩ | some ⟨_, .repScalar e _⟩ => e.toLogic (P.enumSigned i j) (load e)
  | _ => 0

def state (mem : Mem) : LogicState where
  nodeSize := L.nodeSize
  elemSize := P.elemSize
  pointerSize := 8
  pointer i m j := L.loadWord (L.member i j m) mem
  count i m j := L.count i j m mem
  element i m j k := L.loadWord (L.element i j m 8 k mem) mem
  span i m j := L.loadSpan (L.member i j m) mem
  spanAt i m j k := L.loadSpan (L.element i j m 16 k mem) mem
  Writable := P.Writable
  Readable := P.Readable
  value i m j := logicValue (S := S) P i j fun e => L.loadElem e (L.member i j m) mem
  valueAt i m j k := logicValue (S := S) P i j fun e => L.loadElem e (L.element i j m e.byteSize k mem) mem
  cached i m := (L.loadCache i m mem).toNat

end Layout

/--
The literals that fields are compared with.
-/
def Platform.literal {cName : NodeId → Spelling} (P : Platform cName) (S : Schema) (i j : Nat) : Int :=
  match (S i)[j]? with
  | some ⟨_, .scalar e default⟩ => e.toLogic (P.enumSigned i j) default
  | _ => 0

/-! Fields with contracts. -/

/--
A field of the plan and the code that is generated for it.
-/
inductive Fits (cName : NodeId → Spelling) : EncodeField → Field → Prop where
  | scalar {kind : ScalarKind} (hsupported : kind.supported = true) (index : Nat) (default : (Elem.scalar kind).Value)
    : Fits cName (.scalar kind (tagBytes index kind.wireType)) ⟨index, .scalar (.scalar kind) default⟩
  | enum (index : Nat) (default : Elem.enum.Value)
    : Fits cName (.enum (tagBytes index .varint)) ⟨index, .scalar .enum default⟩
  | bytes (index : Nat) : Fits cName (.bytes (tagBytes index .lenPrefix)) ⟨index, .bytes []⟩
  | msg (target index : Nat) : Fits cName (.msg target (tagBytes index .lenPrefix)) ⟨index, .msgRef target⟩
  | repMsg (target index : Nat) : Fits cName (.repMsg target (tagBytes index .lenPrefix)) ⟨index, .repMsg target⟩
  | repBytes (index : Nat) : Fits cName (.repBytes (tagBytes index .lenPrefix)) ⟨index, .repBytes⟩
  | repVarint {elem : Elem} (hsupported : elem.supported = true)
    (hvarint : elem.wireType = .varint) {ctype : Spelling} (hctype : elem.HasCType cName ctype) (index : Nat)
    (packing : Packing)
    : Fits cName (.repVarint elem ctype (tagBytes index .lenPrefix) (tagBytes index .varint) packing)
        ⟨index, .repScalar elem packing⟩
  | repFixed {kind : ScalarKind} (hfixed : kind.wireType = .fixed32 ∨ kind.wireType = .fixed64) (index : Nat)
    (packing : Packing)
    : Fits cName (.repFixed kind (tagBytes index .lenPrefix) (tagBytes index kind.wireType) packing)
        ⟨index, .repScalar (.scalar kind) packing⟩

theorem sumTo_eq (term : Nat → Nat) (n : Nat) : sumTo term n = ((List.range n).map term).sum := by
  induction n with
  | zero => rfl
  | succ n ih =>
    rw [sumTo, ih, List.range_succ, List.map_append, List.sum_append, List.map_singleton, List.sum_singleton]

section Records

variable {child : MsgId → Addr → List UInt8} {index : Nat}

theorem length_record (wt : WireType) (body : List UInt8)
    : (Record.ofTag (packTag index wt) body).bytes.length = tagBytes index wt + body.length := by
  rw [length_ofTag, tagBytes_eq]

theorem length_lenPrefixed_record (payload : List UInt8)
    : (Record.ofTag (packTag index .lenPrefix) (lenPrefixed payload)).bytes.length
        = tagBytes index .lenPrefix + logicVarintSize payload.length + payload.length := by
  rw [length_record, length_lenPrefixed, logicVarintSize_natCast, Nat.add_assoc]

theorem length_singleton_record (r : Record) : (Record.concat [r]).length = r.bytes.length := by
  rw [length_concat]
  rfl

/--
What a message takes as an element, or as a field.
-/
def termLength (child : MsgId → Addr → List UInt8) (tagb target : Nat) : Option Addr → Nat
  | some p => tagb + logicVarintSize (child target p).length + (child target p).length
  | none => tagb + 1

theorem length_bytes_records (v : List UInt8)
    : (Record.concat ((Family.bytes []).records child index v)).length
        = if 0 < v.length then tagBytes index .lenPrefix + logicVarintSize v.length + v.length else 0 := by
  cases v with
  | nil => rfl
  | cons b v => exact (length_singleton_record _).trans (length_lenPrefixed_record (b :: v))

theorem length_msgRef_records (target : MsgId) (p : Option Addr)
    : (Record.concat ((Family.msgRef target).records child index p)).length
        = if p.isSome then termLength child (tagBytes index .lenPrefix) target p else 0 := by
  cases p with
  | none => rfl
  | some p => exact (length_singleton_record _).trans (length_lenPrefixed_record (child target p))

theorem length_repMsg_records (target : MsgId) (ps : List (Option Addr))
    : (Record.concat ((Family.repMsg target).records child index ps)).length
        = (ps.map (termLength child (tagBytes index .lenPrefix) target)).sum := by
  rw [length_concat, Family.records, List.map_map]
  congr 1
  apply List.map_congr_left
  intro p _
  rw [Function.comp_apply, length_lenPrefixed_record]
  cases p with
  | none =>
    rw [childPayload, List.length_nil, Nat.cast_zero, logicVarintSize_zero]
    rfl
  | some p => rfl

theorem length_repBytes_records (vs : List (List UInt8))
    : (Record.concat (Family.repBytes.records child index vs)).length
        = (vs.map fun v => tagBytes index .lenPrefix + logicVarintSize v.length + v.length).sum := by
  rw [length_concat, Family.records, List.map_map]
  simp only [Function.comp_def, length_lenPrefixed_record]

/--
The bytes of a repeated scalar field, in the form of the logic functions.
-/
theorem length_repScalar (e : Elem) (packing : Packing) (vs : List e.Value)
    : (Record.concat ((Family.repScalar e packing).records child index vs)).length
        =
      let payload := (vs.map fun v => (e.code v).length).sum
      let packed := tagBytes index .lenPrefix + logicVarintSize payload + payload
      match packing with
      | .auto => if vs.length = 1 then tagBytes index e.wireType + payload else if 1 < vs.length then packed else 0
      | .packed => if 0 < vs.length then packed else 0
      | .expanded => vs.length * tagBytes index e.wireType + payload := by
  have hpacked : (Record.concat [Record.ofTag (packTag index .lenPrefix) (lenPrefixed (vs.flatMap e.code))]).length
      = tagBytes index .lenPrefix + logicVarintSize ((vs.map fun v => (e.code v).length).sum : Nat)
        + (vs.map fun v => (e.code v).length).sum := by
    rw [length_singleton_record, length_lenPrefixed_record, List.length_flatMap]
  have hexpanded : (Record.concat (vs.map fun v => Record.ofTag (packTag index e.wireType) (e.code v))).length
      = vs.length * tagBytes index e.wireType + (vs.map fun v => (e.code v).length).sum := by
    rw [length_concat, List.map_map]
    simp only [Function.comp_def, length_record]
    rw [List.sum_map_add, List.map_const', List.sum_replicate, smul_eq_mul]
  rcases vs with _ | ⟨v, _ | ⟨v', vs⟩⟩
  . cases packing with
    | auto => rfl
    | packed => rfl
    | expanded => exact hexpanded
  . cases packing with
    | auto =>
      simp only [List.length_singleton, Nat.one_mul] at hexpanded
      exact hexpanded
    | packed => exact hpacked
    | expanded => exact hexpanded
  . cases packing with
    | auto => exact hpacked
    | packed => exact hpacked
    | expanded => exact hexpanded

end Records

section Field

variable {S : Schema} {L : Layout S} {cName : NodeId → Spelling} {P : Platform cName} {mem : Mem} {t : MsgId}
  {j : Nat} {a : Addr} {child : MsgId → Addr → List UInt8} {size : Nat → Addr → Nat}

theorem state_value {e : Elem} {default : e.Value} {index : Nat} (hget : (S t)[j]? = some ⟨index, .scalar e default⟩)
    : (L.state P mem).value t a j = e.toLogic (P.enumSigned t j) (L.loadElem e (L.member t j a) mem) := by
  change Layout.logicValue (S := S) P t j _ = _
  rw [Layout.logicValue, hget]

theorem state_valueAt {e : Elem} {packing : Packing} {index : Nat}
    (hget : (S t)[j]? = some ⟨index, .repScalar e packing⟩) (k : Nat)
    : (L.state P mem).valueAt t a j k
        = e.toLogic (P.enumSigned t j) (L.loadElem e (L.element t j a e.byteSize k mem) mem) := by
  change Layout.logicValue (S := S) P t j _ = _
  rw [Layout.logicValue, hget]

theorem literal_eq {e : Elem} {default : e.Value} {index : Nat} (hget : (S t)[j]? = some ⟨index, .scalar e default⟩)
    : P.literal S t j = e.toLogic (P.enumSigned t j) default := by
  rw [Platform.literal, hget]

/--
What an element of an array adds up to.
-/
theorem sumTo_elements {α : Type} {load : Nat → Mem → α} {term : Nat → Nat} {g : α → Nat}
    (h : ∀ k < L.count t j a mem, term k = g (load k mem))
    : sumTo term (L.count t j a mem) = ((L.elements t j a load mem).map g).sum := by
  rw [sumTo_eq, Layout.elements, List.map_map]
  congr 1
  apply List.map_congr_left
  intro k hk
  exact h k (List.mem_range.mp hk)

theorem length_scalar_records {e : Elem} {default : e.Value} {index : Nat}
    (hsupported : e.supported = true)
    (hget : (S t)[j]? = some ⟨index, .scalar e default⟩)
    : (Record.concat ((Family.scalar e default).records child index (L.loadField t j a mem (.scalar e default)))).length
        =
      if (L.state P mem).value t a j ≠ P.literal S t j then
        tagBytes index e.wireType + e.wireSize (L.loadElem e (L.member t j a) mem)
      else
        0 := by
  rw [state_value hget, literal_eq hget]
  change (Record.concat (if e.differs (L.loadElem e (L.member t j a) mem) default then _ else [])).length = _
  by_cases hdiffers : e.differs (L.loadElem e (L.member t j a) mem) default = true
  . rw [if_pos hdiffers, if_pos ((Elem.differs_iff hsupported (P.enumSigned t j) _ _).mp hdiffers),
      length_singleton_record, length_record, Elem.wireSize_eq]
    rfl
  . rw [if_neg hdiffers, if_neg (fun h => hdiffers ((Elem.differs_iff hsupported (P.enumSigned t j) _ _).mpr h))]
    rfl

/--
What a pointer adds to the size. The null pointer adds `null`.
-/
theorem ite_termSize {p : Addr} {tagb target null : Nat}
    (hsize : ∀ q, L.loadPointer p mem = some q → size target q = (child target q).length)
    : (if L.loadWord p mem ≠ 0 then termSize size tagb target (L.loadWord p mem) else null)
        = if (L.loadPointer p mem).isSome then termLength child tagb target (L.loadPointer p mem) else null := by
  unfold Layout.loadPointer at hsize ⊢
  by_cases hnull : L.loadWord p mem = 0
  . simp [hnull]
  . rw [if_pos hnull, if_neg hnull, termSize, hsize _ (if_neg hnull)]
    rfl

theorem length_code_fixed {kind : ScalarKind} (hfixed : kind.wireType = .fixed32 ∨ kind.wireType = .fixed64)
    (v : (Elem.scalar kind).Value) : ((Elem.scalar kind).code v).length = fixedWidth kind := by
  rcases hfixed with h | h
  . simp [Elem.code, Elem.wireType, fixedWidth, h]
  . simp [Elem.code, Elem.wireType, fixedWidth, h]

theorem length_loadBytes (a : Addr) : (L.loadBytes a mem).length = (L.loadSpan a mem).size := by
  rw [Layout.loadBytes, Mem.read, List.length_map, List.length_range]

theorem length_repScalar_loadField (e : Elem) (packing : Packing)
    : (L.loadField t j a mem (.repScalar e packing)).length = L.count t j a mem :=
  Layout.length_elements

/--
The size of a field is the length of its records.
-/
theorem fieldSize_eq {f : EncodeField} {F : Field} (hget : (S t)[j]? = some F) (hfits : Fits cName f F)
    (hsize : ∀ target p, (target, p) ∈ F.family.children (L.loadField t j a mem F.family)
      → size target p = (child target p).length)
    : fieldSize (L.state P mem) (P.literal S) size t a j f
        = (Record.concat (F.family.records child F.index (L.loadField t j a mem F.family))).length := by
  cases hfits with
  | @scalar kind hsupported index default =>
    rw [length_scalar_records (e := .scalar kind) hsupported hget, fieldSize]
    rw [state_value hget, valueSize_toLogic hsupported]
    rfl
  | enum index default =>
    rw [length_scalar_records rfl hget, fieldSize]
    rw [state_value hget, enumWire_toLogic]
    rfl
  | bytes index =>
    change _ = (Record.concat ((Family.bytes []).records child index (L.loadBytes (L.member t j a) mem))).length
    rw [length_bytes_records, length_loadBytes]
    rfl
  | msg target index =>
    change _ = (Record.concat ((Family.msgRef target).records child index (L.loadPointer (L.member t j a) mem))).length
    change ∀ target' p, (target', p) ∈ (L.loadPointer (L.member t j a) mem).toList.map (target, ·) → _ at hsize
    rw [length_msgRef_records]
    apply ite_termSize
    intro p hp
    exact hsize target p (List.mem_map.mpr ⟨p, Option.mem_toList.mpr hp, rfl⟩)
  | repMsg target index =>
    change _ = (Record.concat ((Family.repMsg target).records child index
      (L.elements t j a (fun k mem => L.loadPointer (L.element t j a 8 k mem) mem) mem))).length
    change ∀ target' p, (target', p) ∈ (L.elements t j a (fun k mem =>
      L.loadPointer (L.element t j a 8 k mem) mem) mem).filterMap (fun p => p.map (target, ·)) → _ at hsize
    rw [length_repMsg_records]
    apply sumTo_elements
    intro k hk
    have hchild (p : Addr) (hp : L.loadPointer (L.element t j a 8 k mem) mem = some p)
        : size target p = (child target p).length :=
      hsize target p (List.mem_filterMap.mpr ⟨some p, List.mem_map.mpr ⟨k, List.mem_range.mpr hk, hp⟩, rfl⟩)
    apply (ite_termSize hchild).trans
    cases L.loadPointer (L.element t j a 8 k mem) mem <;> rfl
  | repBytes index =>
    change _ = (Record.concat (Family.repBytes.records child index
      (L.elements t j a (fun k mem => L.loadBytes (L.element t j a 16 k mem) mem) mem))).length
    rw [length_repBytes_records]
    apply sumTo_elements
    intro k _
    rw [length_loadBytes]
    rfl
  | @repVarint elem hsupported hvarint ctype hctype index packing =>
    have hsum : sumTo (fun k => elemSize elem ((L.state P mem).valueAt t a j k)) ((L.state P mem).count t a j)
        = ((L.loadField t j a mem (.repScalar elem packing)).map fun v => (elem.code v).length).sum := by
      apply sumTo_elements
      intro k _
      rw [state_valueAt hget, elemSize_toLogic hsupported, Elem.wireSize_eq]
    have hlength := @length_repScalar child index elem packing
      (L.loadField t j a mem (.repScalar elem packing))
    simp only [length_repScalar_loadField, hvarint, ← hsum] at hlength
    rw [hlength]
    cases packing with
    | auto =>
      -- The sum of a single element is its size.
      have hone (h : (L.state P mem).count t a j = 1)
          : sumTo (fun k => elemSize elem ((L.state P mem).valueAt t a j k)) ((L.state P mem).count t a j)
            = elemSize elem ((L.state P mem).valueAt t a j 0) := by
        rw [h, sumTo, sumTo, Nat.zero_add]
      exact ite_congr rfl (fun h => by rw [hone h]) fun _ => rfl
    | packed => rfl
    | expanded => rfl
  | @repFixed kind hfixed index packing =>
    have hlength := @length_repScalar child index (.scalar kind) packing
      (L.loadField t j a mem (.repScalar (.scalar kind) packing))
    simp only [length_code_fixed hfixed, List.map_const', List.sum_replicate, smul_eq_mul] at hlength
    rw [hlength, length_repScalar_loadField]
    cases packing with
    | auto =>
      have hone (h : (L.state P mem).count t a j = 1) (n : Nat) : n = (L.state P mem).count t a j * n := by
        rw [h, Nat.one_mul]
      exact ite_congr rfl (fun h => congrArg _ (hone h _)) fun _ => rfl
    | packed => rfl
    | expanded => exact Nat.mul_add _ _ _

end Field

/-! Messages. -/

/--
The fields of the messages that get contracts are those that code is generated for.
-/
def Generates (cName : NodeId → Spelling) (messages : List EncodeMessage) (S : Schema) : Prop :=
  ∀ i, IsOk messages i → List.Forall₂ (Fits cName) (fieldsOf messages i) (S i)

namespace Generates

variable {cName : NodeId → Spelling} {messages : List EncodeMessage} {S : Schema} {i : Nat}

theorem getElem? (h : Generates cName messages S) (hok : IsOk messages i) {f : EncodeField} {j : Nat}
    (hf : (f, j) ∈ places messages i) : ∃ F, (S i)[j]? = some F ∧ Fits cName f F := by
  have hget : (fieldsOf messages i)[j]? = some f := List.mem_zipIdx_iff_getElem?.mp hf
  obtain ⟨hj, hgetElem⟩ := List.getElem?_eq_some_iff.mp hget
  have hfits := h i hok
  have hj' : j < (S i).length := hfits.length_eq ▸ hj
  refine ⟨(S i)[j], List.getElem?_eq_getElem hj', ?_⟩
  rw [← hgetElem]
  exact (List.forall₂_iff_get.mp hfits).2 j hj hj'

theorem field (h : Generates cName messages S) (hok : IsOk messages i) (j : Fin (S i).length)
    : ∃ f, (f, j.val) ∈ places messages i ∧ Fits cName f (S.field i j) := by
  have hfits := h i hok
  have hj : j.val < (fieldsOf messages i).length := by
    rw [hfits.length_eq]
    exact j.isLt
  exact ⟨_, List.mem_zipIdx_iff_getElem?.mpr (List.getElem?_eq_getElem hj),
    (List.forall₂_iff_get.mp hfits).2 j.val hj j.isLt⟩

/--
What holds of the fields one by one.
-/
theorem map_places (h : Generates cName messages S) (hok : IsOk messages i) {α : Type} {g : Place → α}
    {g' : Fin (S i).length → α}
    (heq : ∀ f (j : Fin (S i).length), (f, j.val) ∈ places messages i → Fits cName f (S.field i j)
      → g (f, j.val) = g' j)
    : (places messages i).map g = (List.finRange (S i).length).map g' := by
  have hlength := (h i hok).length_eq
  apply List.ext_getElem
  . simp [places, hlength]
  . intro j hj hj'
    simp only [List.getElem_map, List.getElem_finRange]
    have hj₁ : j < (places messages i).length := by simpa using hj
    have hj₂ : j < (S i).length := by simpa using hj'
    have hj₃ : j < (fieldsOf messages i).length := hlength ▸ hj₂
    have hplace : (places messages i)[j] = ((fieldsOf messages i)[j], j) := by
      simp [places]
    rw [hplace]
    apply heq _ ⟨j, hj₂⟩
    . rw [← hplace]
      exact List.getElem_mem hj₁
    . exact (List.forall₂_iff_get.mp (h i hok)).2 j hj₃ hj₂

end Generates

section Trees

variable {cName : NodeId → Spelling} {messages : List EncodeMessage} {S : Schema} {L : Layout S} {P : Platform cName}
  {mem : Mem} {i : Nat} {m : Addr}

/--
The messages below a field in the logic and in the code.
-/
theorem children_eq {f : EncodeField} {F : Field} (hfits : Fits cName f F) (j : Nat)
    : (match f.child? with
        | none => []
        | some c => ((L.state P mem).children i m (f, j)).map fun a => (c, a))
        = F.family.children (L.loadField i j m mem F.family) := by
  have hpointers (target : MsgId) (as : List Addr)
      : (as.map fun a => L.loadPointer a mem).filterMap (fun p => p.map (target, ·))
        = ((as.map fun a => L.loadWord a mem).filter (· ≠ 0)).map (target, ·) := by
    induction as with
    | nil => rfl
    | cons a as ih =>
      simp only [Layout.loadPointer] at ih ⊢
      by_cases hnull : L.loadWord a mem = 0
      . simpa [hnull] using ih
      . simpa [hnull] using ih
  cases hfits with
  | msg target index =>
    have := hpointers target [L.member i j m]
    change (List.filter (· ≠ 0) [L.loadWord (L.member i j m) mem]).map (fun a => (target, a))
      = (L.loadPointer (L.member i j m) mem).toList.map (target, ·)
    rw [List.map_singleton, List.map_singleton] at this
    rw [← this]
    cases L.loadPointer (L.member i j m) mem <;> rfl
  | repMsg target index =>
    have := hpointers target ((List.range (L.count i j m mem)).map fun k => L.element i j m 8 k mem)
    rw [List.map_map, List.map_map] at this
    exact this.symm
  | scalar | enum | bytes | repBytes | repVarint | repFixed => rfl

/--
The tree of the contracts is that of the code.
-/
theorem Generates.below_eq (h : Generates cName messages S) (hok : IsOk messages i)
    : below (L.state P mem).toHeap messages (i, m) = children (L.view mem) i m := by
  unfold below children
  rw [List.flatMap_def, List.flatMap_def, h.map_places hok]
  intro f j _ hfits
  exact children_eq hfits j

theorem Planned.isOk_below {H : Heap} (h : Planned messages) {n n' : Node} (hmem : n' ∈ below H messages n)
    : IsOk messages n'.1 := by
  obtain ⟨f, hf, hc, -⟩ := mem_below.mp hmem
  exact (h.child n.1 f.1 (mem_fieldsOf_of_places hf) n'.1 hc).2

theorem Generates.tsizeTo_eq (h : Generates cName messages S) (hplanned : Planned messages) (fuel : Nat)
    (hok : IsOk messages i)
    : tsizeTo (L.state P mem) (P.literal S) messages fuel i m = (wireBytes (L.view mem) fuel i m).length := by
  induction fuel generalizing i m with
  | zero => rfl
  | succ fuel ih =>
    rw [wireBytes, messageRecords_succ, Record.concat_flatMap, List.length_flatMap, tsizeTo, h.map_places hok]
    intro f j hf hfits
    apply fieldSize_eq (List.getElem?_eq_getElem j.isLt) hfits
    intro target p hp
    have hmem : (target, p) ∈ children (L.view mem) i m := mem_children_of_field hp
    rw [← h.below_eq hok (P := P)] at hmem
    exact ih (hplanned.isOk_below hmem)

/--
The messages below one that gets contracts are lower.
-/
theorem Generates.height (h : Generates cName messages S) (hplanned : Planned messages) (P : Platform cName)
    (hok : IsOk messages i) : Height (L.view mem) (i + 1) i m := by
  induction i using Nat.strong_induction_on generalizing m with
  | _ i ih =>
    intro target p hmem
    rw [← h.below_eq hok (P := P)] at hmem
    have hlt : target < i := hplanned.below_lt (i, m) _ hmem
    exact (ih target hlt (hplanned.isOk_below hmem)).mono hlt

/--
The logical size of a message is the number of its bytes on the wire.
-/
theorem Generates.tsize_eq (h : Generates cName messages S) (hplanned : Planned messages) (hok : IsOk messages i)
    (hacyclic : Acyclic (L.view mem) i m)
    : tsize (L.state P mem) (P.literal S) messages i m = (messageBytes hacyclic).length := by
  rw [messageBytes_eq hacyclic (h.height hplanned P hok), tsize, h.tsizeTo_eq hplanned (i + 1) hok]

end Trees

end Gremlin
