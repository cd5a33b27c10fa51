import Gremlin.Codegen.Absent
import Gremlin.Codegen.Sizes

/-!
This module contains which code is generated for the fields of a message, and that a plan of contracts has
the same fields.
-/

namespace Gremlin

open Naming Text

/-! The code of a field. -/

/--
The element of a repeated field that is no message and no bytes.
-/
def TypeRef.elem : TypeRef → Option Elem
  | .enumeration _ => some .enum
  | .builtin name => (scalarLookup name).map .scalar
  | _ => none

def TypeRef.slot : TypeRef → Option Slot
  | .builtin name =>
    if builtinIsBytes name then some .bytes else (scalarLookup name).map fun kind => .elem (.scalar kind)
  | .enumeration _ => some (.elem .enum)
  | _ => none

def TypeRef.mapValue (place : NodeId → MsgId) : TypeRef → Option MapValue
  | .message target => some (.message (place target))
  | type => type.slot.map .slot

namespace Pool

variable (p : Pool) (place : NodeId → MsgId) (signed : Bool) (fld : FieldNode)

/--
The default of a scalar or enum field, where C and the specification language read its literal as the same
number.
-/
def elemDefault (e : Elem) : Option e.Value :=
  (p.dispatchResolveDefault fld).bind fun literal =>
    (Constants.denotes literal).bind fun n =>
      let default := BitVec.ofInt e.width n
      if e.toLogic signed default = n then some default else none

/--
`dispatch_size_field` and `dispatch_encode_field`. A message is named by its place in the schema. There is no
model of a singular field with a floating-point kind: its default is no integer.
-/
def dispatchFamily : Option Family :=
  match fld.shape with
  | .map key value => key.slot.bind fun key => (value.mapValue place).map fun value => .map key value
  | .repeatedBytes => some .repBytes
  | .repeatedMsg target => some (.repMsg (place target))
  | .repeatedScalar element => element.elem.map fun e => .repScalar e fld.packing
  | .msgRef target => some (.msgRef (place target))
  | .enumRef _ => (p.elemDefault signed fld .enum).map fun default => .scalar .enum default
  | .bytes => (p.getterDefault fld .bytes).map .bytes
  | .scalar =>
    fld.scalarKind.bind fun kind =>
      (p.elemDefault signed fld (.scalar kind)).map fun default => .scalar (.scalar kind) default

/--
The fields of a message with the code that is generated for them.
-/
def dispatchMessage (signed : (j : Nat) → Bool) (m : MessageNode) : Option Message :=
  m.fields.zipIdx.mapM fun (fld, j) =>
    (p.dispatchFamily place (signed j) fld).map fun family => ⟨fld.parsed.index.toNat, family⟩

end Pool

/-! The fields of the plan. -/

section Fits

variable {cName : NodeId → Spelling} {earlier : List EncodeMessage} {p : Pool} {place : NodeId → MsgId}
  {signed : Bool} {fld : FieldNode}

theorem classifyMessage_eq {target : NodeId} {rep : Bool} {tagb : WireType → Nat} {f : EncodeField}
    (h : classifyMessage earlier target rep tagb = some f)
    : ∃ child, findMsg earlier target = some child
      ∧ f = if rep then .repMsg child (tagb .lenPrefix) else .msg child (tagb .lenPrefix) := by
  simp only [classifyMessage, Option.bind_eq_bind, Option.bind_eq_some_iff] at h
  obtain ⟨child, hchild, e, -, h⟩ := h
  refine ⟨child, hchild, ?_⟩
  by_cases hok : e.ok = true
  . cases rep with
    | true =>
      by_cases hkids : e.rep || e.kids
      . simp [hok, hkids] at h
      . simpa [hok, hkids] using h.symm
    | false => simpa [hok] using h.symm
  . simp [hok] at h

/--
The element of an array of a kind with contracts.
-/
theorem fits_repScalar {kind : ScalarKind} {index : Nat} {packing : Packing} {f : EncodeField}
    (h : classifyScalar kind true packing (tagBytes index) = some f)
    : Fits cName f ⟨index, .repScalar (.scalar kind) packing⟩ := by
  unfold classifyScalar at h
  by_cases hsupported : kind.supported = true
  . simp only [hsupported, Bool.not_true, Bool.false_eq_true, if_false, if_true] at h
    cases hwire : kind.wireType with
    | fixed32 =>
      simp only [hwire, Option.some.injEq] at h
      subst h
      rw [← hwire]
      exact .repFixed (.inl hwire) index packing
    | fixed64 =>
      simp only [hwire, Option.some.injEq] at h
      subst h
      rw [← hwire]
      exact .repFixed (.inr hwire) index packing
    | varint =>
      simp only [hwire, Option.some.injEq] at h
      subst h
      exact @Fits.repVarint cName (.scalar kind) hsupported hwire _ rfl index packing
    | lenPrefix | sgroup | egroup => cases kind <;> cases hwire
  . simp [hsupported] at h

theorem fits_scalar {kind : ScalarKind} {index : Nat} {packing : Packing} {f : EncodeField}
    (h : classifyScalar kind false packing (tagBytes index) = some f) (default : (Elem.scalar kind).Value)
    : Fits cName f ⟨index, .scalar (.scalar kind) default⟩ := by
  unfold classifyScalar at h
  by_cases hsupported : kind.supported = true
  . by_cases hbool : kind = .bool
    . simp [hbool] at h
    . simp only [hsupported, hbool, Bool.not_true, Bool.false_eq_true, if_false, Option.some.injEq] at h
      subst h
      exact .scalar hsupported index default
  . simp [hsupported] at h

/--
The plan and the dispatchers tell the fields apart in the same way.
-/
theorem fits_classify {f : EncodeField} {family : Family} (h : classify cName earlier fld = some f)
    (hfamily : p.dispatchFamily place signed fld = some family)
    (hplace : ∀ target c, findMsg earlier target = some c → place target = c)
    : Fits cName f ⟨fld.parsed.index.toNat, family⟩ := by
  unfold classify at h
  unfold Pool.dispatchFamily FieldNode.shape at hfamily
  cases htype : fld.type with
  | unresolved => simp [htype] at h
  | map key value => simp [htype] at h
  | message target =>
    simp only [htype] at h
    obtain ⟨child, hchild, rfl⟩ := classifyMessage_eq h
    have htarget := hplace target child hchild
    by_cases hrep : fld.parsed.label = .repeated
    . simp only [htype, hrep, if_true, Option.some.injEq, htarget] at hfamily
      subst hfamily
      simp only [hrep, decide_true, if_true]
      exact .repMsg child _
    . simp only [htype, hrep, if_false, Option.some.injEq, htarget] at hfamily
      subst hfamily
      simp only [hrep, decide_false, Bool.false_eq_true, if_false]
      exact .msg child _
  | enumeration target =>
    by_cases hrep : fld.parsed.label = .repeated
    . simp only [htype, hrep, if_true, TypeRef.elem, Option.map_some, Option.some.injEq] at hfamily
      simp only [htype, hrep, classifyEnum, decide_true, if_true, Option.some.injEq] at h
      subst h hfamily
      exact @Fits.repVarint cName .enum rfl rfl _ ⟨target, rfl⟩ _ _
    . simp only [htype, hrep, if_false, Option.map_eq_some_iff] at hfamily
      simp only [htype, hrep, classifyEnum, decide_false, Bool.false_eq_true, if_false, Option.some.injEq] at h
      obtain ⟨default, -, rfl⟩ := hfamily
      subst h
      exact .enum _ default
  | builtin name =>
    by_cases hbytes : builtinIsBytes name = true
    . by_cases hdefault : fld.default.isSome
      . simp [htype, hbytes, hdefault] at h
      . by_cases hrep : fld.parsed.label = .repeated
        . simp only [htype, hbytes, hrep, if_true, Option.some.injEq] at hfamily
          simp only [htype, hbytes, hdefault, hrep, Bool.false_eq_true, if_true, if_false, decide_true,
            Option.some.injEq] at h
          subst h hfamily
          exact .repBytes _
        . rw [Option.not_isSome_iff_eq_none] at hdefault
          simp only [htype, hbytes, hrep, if_true, if_false, Pool.getterDefault, hdefault, Option.map_some,
            Option.some.injEq] at hfamily
          simp only [htype, hbytes, hdefault, hrep, Option.isSome_none, Bool.false_eq_true, if_true, if_false,
            decide_false, Option.some.injEq] at h
          subst h hfamily
          exact .bytes _
    . simp only [htype, hbytes, Bool.false_eq_true, if_false, Option.bind_eq_some_iff] at h
      obtain ⟨kind, hkind, h⟩ := h
      by_cases hrep : fld.parsed.label = .repeated
      . simp only [htype, hbytes, hrep, Bool.false_eq_true, if_true, if_false, TypeRef.elem, hkind, Option.map_some,
          Option.some.injEq] at hfamily
        subst hfamily
        simp only [hrep, decide_true] at h
        exact fits_repScalar h
      . simp only [htype, hbytes, hrep, Bool.false_eq_true, if_false, Option.bind_eq_some_iff, Option.map_eq_some_iff]
          at hfamily
        obtain ⟨kind', hkind', default, -, rfl⟩ := hfamily
        simp only [hrep, decide_false] at h
        have hkind'' : fld.scalarKind = some kind := by
          simp only [FieldNode.scalarKind, FieldNode.shape, htype, hbytes, hrep, Bool.false_eq_true, if_false, hkind]
        obtain rfl : kind' = kind := Option.some.inj (hkind'.symm.trans hkind'')
        exact fits_scalar h default

end Fits

/-! The messages of the plan. -/

section Plan

variable {cName : NodeId → Spelling}

/--
What the plan has of a message, behind the messages `earlier`.
-/
structure IsPlanOf (cName : NodeId → Spelling) (earlier : List EncodeMessage) (item : NodeId × MessageNode)
    (e : EncodeMessage) : Prop where
  node : e.node = item.1
  fields : e.ok = true → item.2.fields.mapM (classify cName earlier) = some e.fields

theorem isPlanOf_planMessage (earlier : List EncodeMessage) (total : Nat) (item : NodeId × MessageNode)
    : IsPlanOf cName earlier item (planMessage cName earlier total item.1 item.2).1 := by
  unfold planMessage
  split
  . exact ⟨rfl, nofun⟩
  . next fields hfields => exact ⟨rfl, fun _ => hfields⟩

theorem isPlanOf_planMessages (order : List (NodeId × MessageNode)) {i : Nat} {e : EncodeMessage}
    (h : (planMessages cName order)[i]? = some e)
    : ∃ item, order[i]? = some item ∧ IsPlanOf cName ((planMessages cName order).take i) item e := by
  have hlength (order : List (NodeId × MessageNode)) : (planMessages cName order).length = order.length := by
    induction order using List.reverseRecOn with
    | nil => rfl
    | append_singleton order item ih =>
      rw [planMessages, List.foldl_append]
      change ((planMessages cName order) ++ [_]).length = _
      simp [ih]
  induction order using List.reverseRecOn with
  | nil => simp [planMessages] at h
  | append_singleton order item ih =>
    have hconcat : ∃ total, planMessages cName (order ++ [item])
        = planMessages cName order ++ [(planMessage cName (planMessages cName order) total item.1 item.2).1] := by
      rw [planMessages, List.foldl_append]
      exact ⟨_, rfl⟩
    obtain ⟨total, hconcat⟩ := hconcat
    rw [hconcat] at h ⊢
    by_cases hi : i < (planMessages cName order).length
    . rw [List.getElem?_append_left hi] at h
      obtain ⟨item', hitem', hplan⟩ := ih h
      rw [List.take_append_of_le_length (by omega)]
      refine ⟨item', ?_, hplan⟩
      rw [List.getElem?_append_left (hlength order ▸ hi), hitem']
    . have hi' : i = (planMessages cName order).length := by
        have := (List.getElem?_eq_some_iff.mp h).1
        rw [List.length_append, List.length_singleton] at this
        omega
      subst hi'
      rw [List.getElem?_concat_length, Option.some.injEq] at h
      subst h
      rw [List.take_left', hlength, List.getElem?_concat_length]
      exact ⟨item, rfl, isPlanOf_planMessage _ total item⟩
      rfl

theorem findMsg_planMessages {order : List (NodeId × MessageNode)} {i c : Nat} {target : NodeId}
    (h : findMsg ((planMessages cName order).take i) target = some c) : ∃ m, order[c]? = some (target, m) := by
  unfold findMsg at h
  rw [List.findIdx?_eq_some_iff_getElem] at h
  obtain ⟨hlt, hnode, -⟩ := h
  have hget : (planMessages cName order)[c]? = some ((planMessages cName order).take i)[c] := by
    rw [List.getElem_take, List.getElem?_eq_getElem]
  obtain ⟨⟨node, m⟩, hitem, hplan⟩ := isPlanOf_planMessages order hget
  have heq := hplan.node
  rw [of_decide_eq_true hnode] at heq
  exact ⟨m, by rw [hitem, heq]⟩

end Plan

/--
The schema of the messages of a file. A message has the number of its place in the order, and one that gets
contracts has the fields that code is generated for.
-/
structure Generated {cName : NodeId → Spelling} (P : Platform cName) (p : Pool) (place : NodeId → MsgId)
    (order : List (NodeId × MessageNode)) (S : Schema) : Prop where
  place_eq : ∀ i node m, order[i]? = some (node, m) → place node = i
  message_eq : ∀ i node m, order[i]? = some (node, m) → IsOk (planMessages cName order) i
    → p.dispatchMessage place (P.enumSigned i) m = some (S i)

theorem Generated.generates {cName : NodeId → Spelling} {P : Platform cName} {p : Pool} {place : NodeId → MsgId}
    {order : List (NodeId × MessageNode)} {S : Schema} (h : Generated P p place order S)
    : Generates cName (planMessages cName order) S := by
  intro i hok
  obtain ⟨e, he, heok⟩ := hok
  obtain ⟨⟨node, m⟩, hitem, hplan⟩ := isPlanOf_planMessages order he
  have hclassify := List.forall₂_iff_get.mp (forall₂_of_mapM_some (hplan.fields heok))
  have hdispatch := List.forall₂_iff_get.mp (forall₂_of_mapM_some (h.message_eq i node m hitem ⟨e, he, heok⟩))
  rw [fieldsOf_eq he, List.forall₂_iff_get]
  have hlength : m.fields.length = (S i).length := List.length_zipIdx.symm.trans hdispatch.1
  refine ⟨hclassify.1.symm.trans hlength, ?_⟩
  intro j hj hj'
  have hfield : j < m.fields.length := hlength ▸ hj'
  have hfits := hclassify.2 j hfield hj
  have hfamily := hdispatch.2 j (by simpa using hfield) hj'
  simp only [List.get_eq_getElem, List.getElem_zipIdx, Nat.zero_add, Option.map_eq_some_iff] at hfits hfamily
  obtain ⟨family, hfamily, heq⟩ := hfamily
  rw [List.get_eq_getElem, List.get_eq_getElem, ← heq]
  apply fits_classify hfits hfamily
  intro target c hfind
  obtain ⟨m', hitem'⟩ := findMsg_planMessages hfind
  exact h.place_eq c target m' hitem'

end Gremlin
