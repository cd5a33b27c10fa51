import Gremlin.Codegen.Includes
import Gremlin.Codegen.Integers
import Gremlin.Codegen.Strings
import Gremlin.Descriptors.Origins
import Gremlin.Reader.Absent
import Gremlin.Writer.Agreement

/-!
This module contains what the emitted code does with a singular integer, bool, enum or bytes field that is
absent or has its default, and when this is the default that the field is declared with.
-/

namespace Gremlin

open Text Parser

/-! What is declared. -/

/--
The enum that is the type of a singular field.
-/
def Pool.targetEnum (p : Pool) (fld : FieldNode) : Option EnumNode :=
  match fld.shape with
  | .enumRef target => (p.heap target.file).enums[target.index]?
  | _ => none

/--
The constant of the option `default` that is written for a field. The options of a field that an extend
block declares are in the text of the extending file.
-/
def Sources.written [Libc] (src : Sources) (fld : FieldNode) : Option Const :=
  match fld.originFile with
  | none => fld.default
  | some g => extractOption (src.text g) (src.text g).length fld.parsed.options "default"

theorem Sources.written_own [Libc] {src : Sources} {fld : FieldNode} (h : fld.originFile = none)
    : src.written fld = fld.default := by
  unfold Sources.written
  rw [h]

/--
The default that a constant of the option `default` declares for a field, or that a field without the option
has: zero, false, nothing or the first value of its enum.
-/
inductive Pool.DeclaresDefault (p : Pool) (fld : FieldNode) : (s : Slot) → Option Const → s.Value → Prop where
  | noInteger {kind : ScalarKind} {bounds : Int × Int} (hkind : fld.scalarKind = some kind)
      (hrange : kind.integerRange = some bounds) : DeclaresDefault p fld (.elem (.scalar kind)) none 0
  | integer {kind : ScalarKind} {lo hi v : Int} {c : Const} (hkind : fld.scalarKind = some kind)
      (hrange : kind.integerRange = some (lo, hi)) (hc : c.IsInt v) (hv : lo ≤ v ∧ v < hi)
      : DeclaresDefault p fld (.elem (.scalar kind)) (some c) (BitVec.ofInt kind.width v)
  | noBool (hkind : fld.scalarKind = some .bool) : DeclaresDefault p fld (.elem (.scalar .bool)) none 0
  | isTrue (hkind : fld.scalarKind = some .bool)
      : DeclaresDefault p fld (.elem (.scalar .bool)) (some (.identifier "true".toList)) 1
  | isFalse (hkind : fld.scalarKind = some .bool)
      : DeclaresDefault p fld (.elem (.scalar .bool)) (some (.identifier "false".toList)) 0
  | noValue {en : EnumNode} {v : EnumFieldParseResult} (htarget : p.targetEnum fld = some en)
      (hv : en.values.head? = some v) : DeclaresDefault p fld (.elem .enum) none (BitVec.ofInt 32 v.index)
  | valueName {en : EnumNode} {span : Span} {v : EnumFieldParseResult} (htarget : p.targetEnum fld = some en)
      (hv : en.values.find? (fun v => v.name = span) = some v)
      : DeclaresDefault p fld (.elem .enum) (some (.identifier span)) (BitVec.ofInt 32 v.index)
  | valueNumber {en : EnumNode} {c : Const} {n : Int} (htarget : p.targetEnum fld = some en) (hc : c.IsInt n)
      (hn : EnumNumber n) : DeclaresDefault p fld (.elem .enum) (some c) (BitVec.ofInt 32 n)
  | noBytes (hshape : fld.shape = .bytes) : DeclaresDefault p fld .bytes none []
  | bytes {close : Char} {items : List Item} (hshape : fld.shape = .bytes) (hitems : IsQuoted close items)
      : DeclaresDefault p fld .bytes (some (.string (itemsText items))) (itemsBytes items)

/-! What is emitted. -/

/--
Which enums the C compiler makes an `unsigned int`. The others are an `int`, such as each with a constant
that is negative.
-/
class EnumTypes where
  unsigned : EnumNode → Bool
  nonneg_of_unsigned : ∀ en, unsigned en = true → ∀ v ∈ en.values, 0 ≤ v.index

/--
A literal as a value of the C type of an integer, a bool or an enum.
-/
def literalValue (e : Elem) (literal : Span) : Option e.Value :=
  if literal = "true".toList then some (BitVec.ofNat e.width 1)
  else if literal = "false".toList then some (BitVec.ofNat e.width 0)
  else (Constants.denotes literal).map (BitVec.ofInt e.width)

/--
Whether `m->f != literal` is false. Both sides are converted to the type of the member, except that
`-2147483648` is a `long`, and no `unsigned int` is equal to it.
-/
def equalsLiteral (unsigned : Bool) (e : Elem) (v : e.Value) (literal : Span) : Bool :=
  literalValue e literal = some v && !(unsigned && Constants.denotes literal = some (-(2 ^ 31)))

def inQuotes (escaped : Span) : Span :=
  '"' :: (escaped ++ ['"'])

namespace Pool

variable (p : Pool) (fld : FieldNode)

/--
What the getter returns where the field is absent: the literal, or for bytes the array `_dv`, if it has one.
-/
def getterDefault : (s : Slot) → Option s.Value
  | .elem e => (p.dispatchResolveDefault fld).bind (literalValue e)
  | .bytes =>
    match fld.default with
    | none => some []
    | some c =>
      match constToBytes c with
      | .error _ => none
      | .ok escaped => CString.denotes (inQuotes escaped)

variable [EnumTypes]

/--
Whether the guard of a scalar or enum field is false.
-/
def elidesElem (e : Elem) (v : e.Value) : Bool :=
  match (p.dispatchResolveDefault fld).map (dispatchGuard fld) with
  | some (.differs literal) => equalsLiteral ((p.targetEnum fld).any EnumTypes.unsigned) e v literal
  | _ => false

def elidesBytes (v : List UInt8) : Bool :=
  match (p.dispatchResolveDefault fld).map (dispatchGuard fld) with
  | some .nonEmpty => v = []
  | some (.memcmp escaped) => CString.denotes (inQuotes escaped) = some v
  | _ => false

def elides : (s : Slot) → s.Value → Bool
  | .elem e, v => p.elidesElem fld e v
  | .bytes, v => p.elidesBytes fld v

/--
The statements that write the field, behind their guard.
-/
def encodeGuarded (s : Slot) (v : s.Value) (num : Nat) : Codec.Emitter Encoder := fun off =>
  if p.elides fld s v then pure off else encodeSlot num s v off

/--
A field reads as this default where it is absent, and is not written exactly where it has it.
-/
structure AbsentAsDefault (s : Slot) (default : s.Value) : Prop where
  reads : ∃ d, p.getterDefault fld s = some d
    ∧ ∀ (S : Schema) (t : MsgId) (i : Fin (S t).length), (S.field t i).family = s.family d
      → ∀ src r, readerInit S t src = .ok r → (S.field t i).AbsentFrom src
        → (S.field t i).family.got S (r.view i) = some ⟨s, default⟩
  elided : ∀ (v : s.Value) (num off : Nat) (st : Encoder),
    p.encodeGuarded fld s v num off st = some (off, st) ↔ v = default

/--
The condition under which it is the declared default: a field that has no option `default`, or that an extend
block declares, has the zero of its type; the lowest number is no default of an unsigned enum; and
the items of a string are portable.
-/
structure KeepsDefault [Libc] (src : Sources) (s : Slot) (default : s.Value) : Prop where
  zero : src.written fld = none ∨ fld.originFile ≠ none → default = s.default
  number : fld.default = some (.int (-(2 ^ 31))) → ∀ en, p.targetEnum fld = some en → EnumTypes.unsigned en = false
  portable : ∀ span, fld.default = some (.string span) → ∃ close items, IsQuoted close items
    ∧ span = itemsText items ∧ (⟨s, default⟩ : (s : Slot) × s.Value) = ⟨.bytes, itemsBytes items⟩
    ∧ ∀ item ∈ items, item.IsPortable

end Pool

def Slot.member : (s : Slot) → (default : s.Value) → s.Value → (s.family default).Value
  | .elem _, _, v => v
  | .bytes, _, v => v

/-! The literals. -/

theorem literalValue_of_denotes {e : Elem} {literal : Span} {n : Int} (h : Constants.denotes literal = some n)
    : literalValue e literal = some (BitVec.ofInt e.width n) := by
  unfold literalValue
  rw [if_neg, if_neg, h]
  . rfl
  . rintro rfl
    have hnone : Constants.denotes "false".toList = none := by decide
    rw [hnone] at h
    cases h
  . rintro rfl
    have hnone : Constants.denotes "true".toList = none := by decide
    rw [hnone] at h
    cases h

theorem equalsLiteral_iff {unsigned : Bool} {e : Elem} {v x : e.Value} {literal : Span}
    (h : literalValue e literal = some x)
    : equalsLiteral unsigned e v literal = true
        ↔ v = x ∧ ¬(unsigned = true ∧ Constants.denotes literal = some (-(2 ^ 31))) := by
  unfold equalsLiteral
  rw [h]
  simp only [Option.some.injEq, Bool.and_eq_true, decide_eq_true_eq, Bool.not_eq_true', Bool.and_eq_false_imp,
    decide_eq_false_iff_not, not_and]
  rw [eq_comm]

theorem printed_enum {n : Int} (h : EnumNumber n)
    : ∃ text, printed 32 (Printf.signed n) = some text ∧ Constants.denotes text = some n := by
  have hlower := h.1
  have hupper := h.2
  have hlength := @length_signed_le n (by omega) (by omega)
  have hne := signed_append_ne_nil n []
  have hdenotes := @Constants.denotes_signed n [] rfl (by omega) (by omega)
  rw [List.append_nil] at hne hdenotes
  exact ⟨_, printed_of_length hne (by omega), hdenotes⟩

/-! The literal of each kind of field. -/

namespace Pool

variable {p : Pool} {fld : FieldNode}

variable (p fld) in
/--
The slot of a singular integer, bool, enum or bytes field.
-/
inductive HasSlot : Slot → Prop where
  | integer {kind : ScalarKind} {bounds : Int × Int} (hkind : fld.scalarKind = some kind)
      (hrange : kind.integerRange = some bounds) : HasSlot (.elem (.scalar kind))
  | bool (hkind : fld.scalarKind = some .bool) : HasSlot (.elem (.scalar .bool))
  | enum {en : EnumNode} (htarget : p.targetEnum fld = some en) : HasSlot (.elem .enum)
  | bytes (hshape : fld.shape = .bytes) : HasSlot .bytes

theorem DeclaresDefault.hasSlot {s : Slot} {c : Option Const} {default : s.Value}
    (h : p.DeclaresDefault fld s c default) : p.HasSlot fld s := by
  cases h with
  | noInteger hkind hrange | integer hkind hrange => exact .integer hkind hrange
  | noBool hkind | isTrue hkind | isFalse hkind => exact .bool hkind
  | noValue htarget | valueName htarget | valueNumber htarget => exact .enum htarget
  | noBytes hshape | bytes hshape => exact .bytes hshape

theorem scalarKind_shape {kind : ScalarKind} (h : fld.scalarKind = some kind) : fld.shape = .scalar := by
  unfold FieldNode.scalarKind at h
  split at h
  . next hshape _ => exact hshape
  . simp at h

theorem targetEnum_shape {en : EnumNode} (h : p.targetEnum fld = some en)
    : ∃ target, fld.shape = .enumRef target ∧ (p.heap target.file).enums[target.index]? = some en := by
  unfold targetEnum at h
  split at h
  . next target hshape => exact ⟨target, hshape, h⟩
  . simp at h

theorem shape_enumRef {target : NodeId} (h : fld.shape = .enumRef target) : fld.type = .enumeration target := by
  unfold FieldNode.shape at h
  dsimp only at h
  split at h
  . simp at h
  . split at h <;> simp at h
  . next htype =>
    split at h
    . simp at h
    . rw [htype, Shape.enumRef.inj h]
  . split at h
    . split at h <;> simp at h
    . split at h <;> simp at h
  . simp at h

theorem constToEnum_int {c : Const} {n : Int} (hc : c.IsInt n) (hn : EnumNumber n) (en : EnumNode)
    : constToEnum c en = .ok n := by
  have h := constToInt32_int hc
  rw [if_pos ⟨hn.1, hn.2⟩] at h
  cases hc with
  | int => exact h
  | uint => exact h

theorem targetEnum_scalar {kind : ScalarKind} (h : fld.scalarKind = some kind) : p.targetEnum fld = none := by
  simp only [targetEnum, scalarKind_shape h]

theorem dispatchResolveDefault_enum {en : EnumNode} (h : p.targetEnum fld = some en)
    : p.dispatchResolveDefault fld = enumRefResolveDefault fld en := by
  obtain ⟨target, hshape, hen⟩ := targetEnum_shape h
  simp only [dispatchResolveDefault, hshape, hen, Option.bind_some]

theorem dispatchGuard_differs {e : Elem} (h : p.HasSlot fld (.elem e)) (literal : Span)
    : dispatchGuard fld literal = .differs literal := by
  cases h with
  | integer hkind | bool hkind => simp only [dispatchGuard, scalarKind_shape hkind]
  | enum htarget =>
    obtain ⟨target, hshape, -⟩ := targetEnum_shape htarget
    simp only [dispatchGuard, hshape]

end Pool

/-! The emitted code in terms of its literals. -/

theorem exists_emits_encodeSlot (num : Nat) (s : Slot) (v : s.Value)
    : ∃ bs : List UInt8, 0 < bs.length
        ∧ EmitsBytes (fun _ _ => 0) (fun _ _ => False) (encodeSlot num s v) bs := by
  have htag (wt : WireType) : 0 < (Codec.varintBytes 9 (packTag num wt).toNat).length :=
    Codec.length_varintBytes_pos _ _
  cases s with
  | elem e =>
    refine ⟨_, ?_, Codec.Emits.bind (emits_encodeTag num e.wireType) (emits_encodeElem e v)⟩
    rw [List.length_append]
    have := htag e.wireType
    omega
  | bytes =>
    have hlength : EmitsBytes (fun _ _ => 0) (fun _ _ => False) (encodeLength (BitVec.ofNat 64 v.length))
        (Codec.varintBytes 9 (BitVec.ofNat 64 v.length).toNat) :=
      emits_writeAt fun buf off => varintEncodeAt_eq buf off _
    have hbytes := hlength.bind (g := writeAt fun buf off => writeBytesAt buf off v)
      (emits_writeAt fun buf off => rfl)
    refine ⟨_, ?_, Codec.Emits.bind (emits_encodeTag num .lenPrefix) hbytes⟩
    rw [List.length_append]
    have := htag .lenPrefix
    omega

namespace Pool

variable {p : Pool} {fld : FieldNode} [EnumTypes]

theorem encodeGuarded_eq_self_iff {s : Slot} (v : s.Value) (num off : Nat) (st : Encoder)
    : p.encodeGuarded fld s v num off st = some (off, st) ↔ p.elides fld s v = true := by
  unfold encodeGuarded
  by_cases h : p.elides fld s v = true
  . rw [if_pos h]
    exact iff_of_true rfl h
  . rw [if_neg h]
    refine iff_of_false ?_ h
    obtain ⟨bs, hpos, hemits⟩ := exists_emits_encodeSlot num s v
    obtain ⟨st', hrun, -⟩ := hemits off st (by simp [Cached])
    rw [hrun, Option.some.injEq, Prod.mk.injEq]
    omega

variable (p fld) in
/--
What is emitted for the default: its literal is this value, and the guard is false for it alone.
-/
structure EmitsDefault (s : Slot) (default : s.Value) : Prop where
  getter : p.getterDefault fld s = some default
  guard : ∀ v, p.elides fld s v = true ↔ v = default

theorem absentAsDefault_iff_emits {s : Slot} {default : s.Value}
    : p.AbsentAsDefault fld s default ↔ p.EmitsDefault fld s default := by
  constructor
  . intro h
    refine ⟨?_, fun v => (encodeGuarded_eq_self_iff v 0 0 ⟨fun _ => 0, fun _ _ => 0⟩).symm.trans (h.elided v ..)⟩
    obtain ⟨d, hd, hreads⟩ := h.reads
    -- a message with this field alone, read from no bytes
    let S : Schema := fun _ => [⟨1, s.family d⟩]
    have hinit : readerInit S 0 [] = .ok ⟨[], fun i => (S.field 0 i).family.initial⟩ := rfl
    have habsent : (S.field 0 ⟨0, by simp [S]⟩).AbsentFrom [] := ⟨[], by simp, rfl, by simp⟩
    have hgot := hreads S 0 ⟨0, by simp [S]⟩ rfl [] _ hinit habsent
    rw [got_of_absent rfl hinit habsent, Option.some_inj, Sigma.mk.injEq] at hgot
    rw [hd, eq_of_heq hgot.2]
  . intro h
    refine ⟨⟨default, h.getter, ?_⟩, fun v num off st => (encodeGuarded_eq_self_iff v num off st).trans (h.guard v)⟩
    intro S t i hfamily src r hr habsent
    exact got_of_absent hfamily hr habsent

/--
Behind such a guard the field is written as one of the family with this default.
-/
theorem EmitsDefault.encodeField {s : Slot} {default : s.Value} (h : p.EmitsDefault fld s default)
    (hfloat : s ≠ .elem (.scalar .float)) (hdouble : s ≠ .elem (.scalar .double))
    (measure : MsgId → Addr → SizeM SizeT) (encodeMessage : MsgId → Addr → Codec.Emitter Encoder) (num : Nat)
    (v : s.Value)
    : p.encodeGuarded fld s v num
        = encodeField measure encodeMessage num (s.family default) (s.member default v) := by
  funext off
  cases s with
  | elem e =>
    have hdiffers : e.differs v default = true ↔ v ≠ default := by
      cases e with
      | enum => exact bne_iff_ne
      | scalar kind =>
        cases kind with
        | float => exact absurd rfl hfloat
        | double => exact absurd rfl hdouble
        | _ => exact bne_iff_ne
    by_cases heq : v = default
    . rw [encodeGuarded, if_pos ((h.guard v).mpr heq)]
      exact (if_neg (mt hdiffers.mp (not_not_intro heq))).symm
    . rw [encodeGuarded, if_neg (mt (h.guard v).mp heq)]
      exact (if_pos (hdiffers.mpr heq)).symm
  | bytes =>
    by_cases heq : v = default
    . rw [encodeGuarded, if_pos ((h.guard v).mpr heq)]
      exact (if_neg (not_not_intro heq)).symm
    . rw [encodeGuarded, if_neg (mt (h.guard v).mp heq)]
      exact (if_pos heq).symm

/-! The default of each kind of field. -/

theorem emitsDefault_elem_iff {e : Elem} (hslot : p.HasSlot fld (.elem e)) {literal : Span}
    (hliteral : p.dispatchResolveDefault fld = some literal) {x : e.Value} (hx : literalValue e literal = some x)
    (default : e.Value)
    : p.EmitsDefault fld (.elem e) default
        ↔ default = x ∧ ¬((p.targetEnum fld).any EnumTypes.unsigned = true
          ∧ Constants.denotes literal = some (-(2 ^ 31))) := by
  have hgetter : p.getterDefault fld (.elem e) = some x := by
    rw [getterDefault, hliteral, Option.bind_some, hx]
  have hguard (v : e.Value) : p.elides fld (.elem e) v
      = equalsLiteral ((p.targetEnum fld).any EnumTypes.unsigned) e v literal := by
    rw [elides, elidesElem, hliteral, Option.map_some, dispatchGuard_differs hslot]
  constructor
  . intro h
    have hdefault : x = default := Option.some.inj (hgetter.symm.trans h.getter)
    have helided := (h.guard default).mpr rfl
    rw [hguard, equalsLiteral_iff hx] at helided
    exact ⟨hdefault.symm, helided.2⟩
  . rintro ⟨rfl, hnot⟩
    refine ⟨hgetter, fun v => ?_⟩
    rw [hguard, equalsLiteral_iff hx, and_iff_left hnot]

theorem emitsDefault_none_iff {s : Slot} (hslot : p.HasSlot fld s) (hdefault : fld.default = none)
    (default : s.Value) : p.EmitsDefault fld s default ↔ default = s.default := by
  cases hslot with
  | @integer kind bounds hkind hrange =>
    have hliteral : p.dispatchResolveDefault fld = some "0".toList := by
      rw [dispatchResolveDefault_scalar hkind, scalarResolveDefault, hdefault]
      cases kind <;> simp only [ScalarKind.integerRange, reduceCtorEq] at hrange <;> rfl
    have hx : literalValue (.scalar kind) "0".toList = some 0 := by
      rw [literalValue_of_denotes (n := 0) (by decide)]
      rfl
    rw [emitsDefault_elem_iff (.integer hkind hrange) hliteral hx]
    exact and_iff_left fun h => absurd h.2 (by decide)
  | bool hkind =>
    have hliteral : p.dispatchResolveDefault fld = some "false".toList := by
      rw [dispatchResolveDefault_scalar hkind, scalarResolveDefault, hdefault]
      rfl
    rw [emitsDefault_elem_iff (.bool hkind) hliteral rfl]
    exact and_iff_left fun h => absurd h.2 (by decide)
  | enum htarget =>
    have hliteral : p.dispatchResolveDefault fld = some "0".toList := by
      rw [dispatchResolveDefault_enum htarget, enumRefResolveDefault, hdefault]
    rw [emitsDefault_elem_iff (.enum htarget) hliteral rfl]
    exact and_iff_left fun h => absurd h.2 (by decide)
  | bytes hshape =>
    have hgetter : p.getterDefault fld .bytes = some [] := by
      rw [getterDefault, hdefault]
    have hguard (v : List UInt8) : p.elides fld .bytes v = true ↔ v = [] := by
      simp only [elides, elidesBytes, dispatchResolveDefault, hshape, bytesResolveDefault, hdefault,
        Option.map_some, dispatchGuard, bytesPresenceGuard, decide_eq_true_eq]
    constructor
    . intro h
      exact Option.some.inj (h.getter.symm.trans hgetter)
    . rintro rfl
      exact ⟨hgetter, hguard⟩

theorem emitsDefault_integer {kind : ScalarKind} {lo hi v : Int} {c : Const} (hkind : fld.scalarKind = some kind)
    (hrange : kind.integerRange = some (lo, hi)) (hc : c.IsInt v) (hv : lo ≤ v ∧ v < hi)
    (hdefault : fld.default = some c) : p.EmitsDefault fld (.elem (.scalar kind)) (BitVec.ofInt kind.width v) := by
  have hliteral := scalarResolveDefault_int hrange hc hdefault
  rw [if_pos hv, ← dispatchResolveDefault_scalar (p := p) hkind] at hliteral
  obtain ⟨literal, hliteral, hdenotes⟩ := hliteral
  rw [emitsDefault_elem_iff (.integer hkind hrange) hliteral (literalValue_of_denotes hdenotes),
    targetEnum_scalar hkind]
  exact ⟨rfl, by simp⟩

theorem emitsDefault_bool (hkind : fld.scalarKind = some .bool) (value : Bool)
    (hdefault : fld.default = some (.identifier (if value then "true" else "false").toList))
    : p.EmitsDefault fld (.elem (.scalar .bool)) (BitVec.ofBool value) := by
  have hliteral : p.dispatchResolveDefault fld = some (if value then "true" else "false").toList := by
    rw [dispatchResolveDefault_scalar hkind, scalarResolveDefault, hdefault]
    cases value <;> rfl
  have hx : literalValue (.scalar .bool) (if value then "true" else "false").toList = some (BitVec.ofBool value) := by
    cases value <;> rfl
  rw [emitsDefault_elem_iff (.bool hkind) hliteral hx, targetEnum_scalar hkind]
  exact ⟨rfl, by simp⟩

/--
A constant of an enum field is emitted as itself, unless the compiler takes its literal for a larger type.
-/
theorem emitsDefault_enum_iff {en : EnumNode} {c : Const} {n : Int} (htarget : p.targetEnum fld = some en)
    (hc : constToEnum c en = .ok n) (hn : EnumNumber n) (hdefault : fld.default = some c)
    : p.EmitsDefault fld (.elem .enum) (BitVec.ofInt 32 n) ↔ ¬(EnumTypes.unsigned en = true ∧ n = -(2 ^ 31)) := by
  obtain ⟨literal, hprinted, hdenotes⟩ := printed_enum hn
  have hliteral : p.dispatchResolveDefault fld = some literal := by
    rw [dispatchResolveDefault_enum htarget, enumRefResolveDefault, hdefault]
    dsimp only
    rw [hc]
    exact hprinted
  rw [emitsDefault_elem_iff (.enum htarget) hliteral (literalValue_of_denotes hdenotes), htarget, hdenotes,
    Option.any_some, Option.some_inj, and_iff_right rfl]

theorem emitsDefault_bytes_iff {close : Char} {items : List Item} (hshape : fld.shape = .bytes)
    (hitems : IsQuoted close items) (hdefault : fld.default = some (.string (itemsText items)))
    : p.EmitsDefault fld .bytes (itemsBytes items) ↔ ∀ item ∈ items, item.IsPortable := by
  have hdenotes : CString.denotes (inQuotes (escapeQuestions (itemsText items))) = itemsCBytes items :=
    denotes_escaped hitems
  have hgetter : p.getterDefault fld .bytes = itemsCBytes items := by
    rw [getterDefault, hdefault]
    exact hdenotes
  have hguard (v : List UInt8) : p.elides fld .bytes v = true ↔ itemsCBytes items = some v := by
    simp only [elides, elidesBytes, dispatchResolveDefault, hshape, bytesResolveDefault, hdefault, constToBytes,
      Option.map_some, dispatchGuard, bytesPresenceGuard]
    by_cases hpos : 0 < (escapeQuestions (itemsText items)).length
    . simp only [if_pos hpos, hdenotes, decide_eq_true_eq]
    . simp only [if_neg hpos, decide_eq_true_eq]
      have hnil : escapeQuestions (itemsText items) = [] := by
        simpa using hpos
      have hempty : CString.denotes (inQuotes []) = some [] := rfl
      rw [← hdenotes, hnil, hempty, Option.some_inj, eq_comm]
  rw [← itemsCBytes_iff hitems]
  constructor
  . intro h
    exact hgetter.symm.trans h.getter
  . intro h
    refine ⟨hgetter.trans h, fun v => ?_⟩
    rw [hguard, h, Option.some_inj, eq_comm]

/-! The declared default. -/

variable [Libc] {src : Sources}

theorem emitsDefault_some_iff {c : Const} (hdefault : fld.default = some c)
    (hzero : ¬(src.written fld = none ∨ fld.originFile ≠ none))
    (hnumbers : ∀ en, p.targetEnum fld = some en → ∀ v ∈ en.values, EnumNumber v.index) {s : Slot}
    {default : s.Value} (hdeclared : p.DeclaresDefault fld s (some c) default)
    : p.EmitsDefault fld s default ↔ p.KeepsDefault fld src s default := by
  cases hdeclared with
  | integer hkind hrange hc hv =>
    refine iff_of_true (emitsDefault_integer hkind hrange hc hv hdefault) ⟨fun h => absurd h hzero, ?_, ?_⟩
    . simp [targetEnum_scalar hkind]
    . intro span hspan
      rw [hdefault, Option.some_inj] at hspan
      subst hspan
      cases hc
  | isTrue hkind =>
    refine iff_of_true (emitsDefault_bool hkind true hdefault) ⟨fun h => absurd h hzero, ?_, ?_⟩
    . simp [hdefault]
    . simp [hdefault]
  | isFalse hkind =>
    refine iff_of_true (emitsDefault_bool hkind false hdefault) ⟨fun h => absurd h hzero, ?_, ?_⟩
    . simp [hdefault]
    . simp [hdefault]
  | @valueName en span v htarget hv =>
    have hmem := List.mem_of_find?_eq_some hv
    have hc : constToEnum (.identifier span) en = .ok v.index := by
      simp only [constToEnum, hv]
    rw [emitsDefault_enum_iff htarget hc (hnumbers en htarget v hmem) hdefault]
    refine iff_of_true ?_ ⟨fun h => absurd h hzero, by simp [hdefault], by simp [hdefault]⟩
    rintro ⟨hunsigned, hmin⟩
    have := EnumTypes.nonneg_of_unsigned en hunsigned v hmem
    omega
  | @valueNumber en _ n htarget hc hn =>
    rw [emitsDefault_enum_iff htarget (constToEnum_int hc hn en) hn hdefault]
    constructor
    . intro hnot
      refine ⟨fun h => absurd h hzero, ?_, ?_⟩
      . intro hmin en' hen'
        rw [htarget, Option.some_inj] at hen'
        subst hen'
        rw [hdefault, Option.some_inj] at hmin
        subst hmin
        cases hc
        by_contra hunsigned
        exact hnot ⟨by simpa using hunsigned, rfl⟩
      . intro span hspan
        rw [hdefault, Option.some_inj] at hspan
        subst hspan
        cases hc
    . -- Only the smallest number can be compared wrongly, and it is written as a negative constant.
      rintro h ⟨hunsigned, rfl⟩
      have hmin : fld.default = some (.int (-(2 ^ 31))) := by
        rw [hdefault]
        generalize hv : (-(2 ^ 31) : Int) = v at hc
        cases hc with
        | int => rfl
        | uint => omega
      rw [h.number hmin en htarget] at hunsigned
      simp at hunsigned
  | @bytes close items hshape hitems =>
    rw [emitsDefault_bytes_iff hshape hitems hdefault]
    constructor
    . intro h
      refine ⟨fun h => absurd h hzero, by simp [hdefault], ?_⟩
      intro span hspan
      rw [hdefault, Option.some_inj, Const.string.injEq] at hspan
      exact ⟨close, items, hitems, hspan.symm, rfl, h⟩
    . intro h
      obtain ⟨close', items', hitems', htext, hbytes, hportable⟩ := h.portable _ hdefault
      -- the text and the bytes are the same, whichever items they are taken for
      rw [← itemsCBytes_iff hitems'] at hportable
      rw [← itemsCBytes_iff hitems, ← denotes_escaped hitems, htext, denotes_escaped hitems', hportable]
      rw [Sigma.mk.injEq] at hbytes
      rw [eq_of_heq hbytes.2]

/--
The default that is emitted is the declared one exactly under the condition.
-/
theorem emitsDefault_iff (hforeign : fld.NoForeignDefault)
    (hnumbers : ∀ en, p.targetEnum fld = some en → ∀ v ∈ en.values, EnumNumber v.index) {s : Slot}
    {default : s.Value} (hdeclared : p.DeclaresDefault fld s (src.written fld) default)
    : p.EmitsDefault fld s default ↔ p.KeepsDefault fld src s default := by
  cases hdefault : fld.default with
  | none =>
    rw [emitsDefault_none_iff hdeclared.hasSlot hdefault]
    have hzero : src.written fld = none ∨ fld.originFile ≠ none := by
      by_cases horigin : fld.originFile = none
      . exact .inl ((Sources.written_own horigin).trans hdefault)
      . exact .inr horigin
    constructor
    . intro h
      exact ⟨fun _ => h, by simp [hdefault], by simp [hdefault]⟩
    . intro h
      exact h.zero hzero
  | some c =>
    have horigin : fld.originFile = none := by
      by_contra hne
      rw [hforeign hne] at hdefault
      simp at hdefault
    have hwritten : src.written fld = some c := (Sources.written_own horigin).trans hdefault
    have hzero : ¬(src.written fld = none ∨ fld.originFile ≠ none) := by
      simp [hwritten, horigin]
    rw [hwritten] at hdeclared
    exact emitsDefault_some_iff hdefault hzero hnumbers hdeclared

/--
Behind the passes the default of every field is what its constant declares under the condition.
-/
theorem absentAsDefault_iff (h : src.describe = some p) {f : FileId} (hf : f ∈ p.files) {m : MessageNode}
    (hm : m ∈ (p.heap f).messages) (hfld : fld ∈ m.fields) {s : Slot} {default : s.Value}
    (hdeclared : p.DeclaresDefault fld s (src.written fld) default)
    : p.AbsentAsDefault fld s default ↔ p.KeepsDefault fld src s default := by
  rw [absentAsDefault_iff_emits]
  apply emitsDefault_iff ((Sources.sound h hf).field m hm fld hfld) _ hdeclared
  intro en hen v hv
  obtain ⟨target, hshape, hget⟩ := targetEnum_shape hen
  have htype := shape_enumRef hshape
  have hhas := (Sources.described h).2.typed f hf m hm fld hfld (.enumeration target)
    (by simp [htype, TypeRef.entities, TypeRef.named])
  exact (Sources.sound h hhas.file_mem).value en (List.mem_of_getElem? hget) v hv

end Pool

/--
An enum whose first value is not zero, and fields of it without a default and with one.
-/
def firstNotZero : Sources where
  files := [0]
  nodup := nodup_single
  path _ := "a.proto".toList
  text _ := "enum E{A=1;B=2;}message M{optional E a=1;optional E b=2[default=B];}".toList

/--
The enums without a negative constant are an `unsigned int`.
-/
@[reducible]
def leastTypes : EnumTypes where
  unsigned en := en.values.all fun v => 0 ≤ v.index
  nonneg_of_unsigned en h v hv := by simpa using List.all_eq_true.mp h v hv

def hasField [Libc] (src : Sources) (test : Pool → FieldNode → Bool) : Bool :=
  match src.describe with
  | none => false
  | some p => p.files = [0] && (p.heap 0).messages.any fun m => m.fields.any (test p)

theorem exists_of_hasField [Libc] {src : Sources} {test : Pool → FieldNode → Bool} (h : hasField src test = true)
    : ∃ p, src.describe = some p ∧ 0 ∈ p.files ∧ ∃ m ∈ (p.heap 0).messages, ∃ fld ∈ m.fields,
        test p fld = true := by
  unfold hasField at h
  split at h
  . simp at h
  . next p hdescribe =>
    simp only [Bool.and_eq_true, decide_eq_true_eq, List.any_eq_true] at h
    obtain ⟨hfiles, m, hm, fld, hfld, htest⟩ := h
    exact ⟨p, hdescribe, by simp [hfiles], m, hm, fld, hfld, htest⟩

/--
The field without a default reads as zero, and is written if it has the first value.
-/
theorem firstNotZero_not_absentAsDefault
    : ∃ p, @Sources.describe Pool.constLibc firstNotZero = some p ∧ ∃ m ∈ (p.heap 0).messages, ∃ fld ∈ m.fields,
        p.DeclaresDefault fld (.elem .enum) (@Sources.written Pool.constLibc firstNotZero fld) 1
          ∧ ¬@Pool.AbsentAsDefault p fld leastTypes (.elem .enum) 1 := by
  have hcheck : @hasField Pool.constLibc firstNotZero (fun p fld => fld.originFile = none && fld.default = none
      && (p.targetEnum fld).any fun en => (en.values.head?.map EnumFieldParseResult.index) = some 1) = true := by
    decide +kernel
  obtain ⟨p, hdescribe, -, m, hm, fld, hfld, htest⟩ := @exists_of_hasField Pool.constLibc _ _ hcheck
  simp only [Bool.and_eq_true, decide_eq_true_eq, Option.any_eq_true, Option.map_eq_some_iff] at htest
  obtain ⟨⟨horigin, hdefault⟩, en, hen, v, hv, hindex⟩ := htest
  refine ⟨p, hdescribe, m, hm, fld, hfld, ?_, ?_⟩
  . have hdeclared := Pool.DeclaresDefault.noValue hen hv
    rw [hindex] at hdeclared
    rw [@Sources.written_own Pool.constLibc _ _ horigin, hdefault]
    exact hdeclared
  . let _ : EnumTypes := leastTypes
    rw [Pool.absentAsDefault_iff_emits, Pool.emitsDefault_none_iff (.enum hen) hdefault]
    decide

theorem firstNotZero_absentAsDefault_iff
    : ∃ p, @Sources.describe Pool.constLibc firstNotZero = some p ∧ ∃ m ∈ (p.heap 0).messages, ∃ fld ∈ m.fields,
        @Pool.AbsentAsDefault p fld leastTypes (.elem .enum) 2
          ↔ @Pool.KeepsDefault p fld leastTypes Pool.constLibc firstNotZero (.elem .enum) 2 := by
  have hcheck : @hasField Pool.constLibc firstNotZero (fun p fld => fld.originFile = none
      && fld.default = some (.identifier ['B']) && (p.targetEnum fld).any fun en =>
        ((en.values.find? fun v => v.name = ['B']).map EnumFieldParseResult.index) = some 2) = true := by
    decide +kernel
  obtain ⟨p, hdescribe, hf, m, hm, fld, hfld, htest⟩ := @exists_of_hasField Pool.constLibc _ _ hcheck
  simp only [Bool.and_eq_true, decide_eq_true_eq, Option.any_eq_true, Option.map_eq_some_iff] at htest
  obtain ⟨⟨horigin, hdefault⟩, en, hen, v, hv, hindex⟩ := htest
  have hdeclared := Pool.DeclaresDefault.valueName hen hv
  rw [hindex] at hdeclared
  refine ⟨p, hdescribe, m, hm, fld, hfld, ?_⟩
  apply @Pool.absentAsDefault_iff p fld leastTypes Pool.constLibc firstNotZero hdescribe 0 hf m hm hfld
  rw [@Sources.written_own Pool.constLibc _ _ horigin, hdefault]
  exact hdeclared

end Gremlin
