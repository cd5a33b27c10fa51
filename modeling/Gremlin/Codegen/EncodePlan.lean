import Gremlin.Codegen.Contents
import Gremlin.Codegen.Defaults
import Gremlin.Graph.Saturation
import Gremlin.Writer.Encode

/-!
This module contains the plan of the contracts on the write side: which messages of a file get them,
and which predicates on two subtrees the contracts need.
-/

namespace Gremlin

open Gremlin.Graph Naming

/--
The column `c_type` of the table `SCALARS`.
-/
def ScalarKind.cType : ScalarKind → Spelling
  | .int32 | .sint32 | .sfixed32 => "int32_t".toList
  | .int64 | .sint64 | .sfixed64 => "int64_t".toList
  | .uint32 | .fixed32 => "uint32_t".toList
  | .uint64 | .fixed64 => "uint64_t".toList
  | .double => "double".toList
  | .float => "float".toList
  | .bool => "bool".toList

/--
`scalar_supported`.
-/
def ScalarKind.supported : ScalarKind → Bool
  | .sint32 | .sint64 | .float | .double => false
  | _ => true

/--
A field of a message that gets contracts, `struct ep_field`, by its kind. A message is named by its
place in the plan. The byte counts are those of the tag, which is packed for an array, and of the
tag of a single element.
-/
inductive EncodeField where
  | scalar (kind : ScalarKind) (tagb : Nat)
  | enum (tagb : Nat)
  | bytes (tagb : Nat)
  | msg (child : Nat) (tagb : Nat)
  | repMsg (child : Nat) (tagb : Nat)
  | repBytes (tagb : Nat)
  | repVarint (elem : Elem) (ctype : Spelling) (tagb utagb : Nat) (packing : Packing)
  | repFixed (kind : ScalarKind) (tagb utagb : Nat) (packing : Packing)
  deriving DecidableEq, Repr

namespace EncodeField

def isRep : EncodeField → Bool
  | repMsg .. | repBytes _ | repVarint .. | repFixed .. => true
  | _ => false

/--
The message of an `is_child` field.
-/
def child? : EncodeField → Option Nat
  | msg child _ | repMsg child _ => some child
  | _ => none

/--
The element type of an `is_array` field.
-/
def array? : EncodeField → Option Spelling
  | repBytes _ => some "struct gremlin_bytes".toList
  | repVarint _ ctype .. => some ctype
  | repFixed kind .. => some kind.cType
  | _ => none

def isRepMsg : EncodeField → Bool
  | repMsg .. => true
  | _ => false

/--
The fields whose bytes are somewhere else.
-/
def hasPayload : EncodeField → Bool
  | bytes _ | repBytes _ => true
  | _ => false

/--
The fields that count towards the weight by themselves: those of the C type of a `_size` cache.
-/
def isHeavy : EncodeField → Bool
  | scalar kind _ => kind.cType = "uint64_t".toList
  | bytes _ => true
  | f => f.isRep

end EncodeField

/--
`struct ep_msg`. One with a field that is not supported has no fields here: nothing looks at them.
-/
structure EncodeMessage where
  node : NodeId
  ok : Bool
  rep : Bool
  kids : Bool
  weight : Nat
  fields : List EncodeField
  deriving DecidableEq, Repr

def weightMax : Nat := 21

def costMax : Nat := 420

def repCostMax : Nat := 24

def fieldsMax : Nat := 16

def fileMax : Nat := 65536

section Classify

variable (cName : NodeId → Spelling) (earlier : List EncodeMessage)

def findMsg (node : NodeId) : Option Nat :=
  earlier.findIdx? (·.node = node)

def classifyMessage (target : NodeId) (rep : Bool) (tagb : WireType → Nat) : Option EncodeField := do
  let child ← findMsg earlier target
  let c ← earlier[child]?
  if !c.ok then
    none
  else if rep then
    -- A loop over elements with children of their own does not prove in time.
    if c.rep || c.kids then none else some (.repMsg child (tagb .lenPrefix))
  else
    some (.msg child (tagb .lenPrefix))

def classifyEnum (target : NodeId) (rep : Bool) (packing : Packing) (tagb : WireType → Nat) : EncodeField :=
  if rep then
    .repVarint .enum (cName target) (tagb .lenPrefix) (tagb .varint) packing
  else
    .enum (tagb .varint)

def classifyScalar (kind : ScalarKind) (rep : Bool) (packing : Packing) (tagb : WireType → Nat)
    : Option EncodeField :=
  if !kind.supported then
    none
  else if rep then
    match kind.wireType with
    | .fixed32 | .fixed64 => some (.repFixed kind (tagb .lenPrefix) (tagb kind.wireType) packing)
    | wt => some (.repVarint (.scalar kind) kind.cType (tagb .lenPrefix) (tagb wt) packing)
  else if kind = .bool then
    none
  else
    some (.scalar kind (tagb kind.wireType))

def classify (fld : FieldNode) : Option EncodeField :=
  let tagb := tagBytes fld.parsed.index.toNat
  let rep := fld.parsed.label = .repeated
  match fld.type with
  | .map .. => none
  | .message target => classifyMessage earlier target rep tagb
  | .enumeration target => some (classifyEnum cName target rep fld.packing tagb)
  | .builtin name =>
    if builtinIsBytes name then
      if fld.default.isSome then none
      else if rep then some (.repBytes (tagb .lenPrefix))
      else some (.bytes (tagb .lenPrefix))
    else
      (scalarLookup name).bind fun kind => classifyScalar kind rep fld.packing tagb
  | .unresolved => none

def childWeight (f : EncodeField) : Nat :=
  match f.child?.bind (earlier[·]?) with
  | some c => c.weight
  | none => 0

def childRep (f : EncodeField) : Bool :=
  match f.child?.bind (earlier[·]?) with
  | some c => c.rep
  | none => false

def fieldWeight (f : EncodeField) : Nat :=
  (if f.isHeavy then 1 else 0) + childWeight earlier f

def fieldCost (weight : Nat) (f : EncodeField) : Nat :=
  if f.child?.isSome ∧ weight ≤ weightMax then childWeight earlier f * weight else 0

/--
What `gremlinc_encode_plan_build` finds of a message whose fields are supported, and the cost of the
file so far.
-/
def planFields (total : Nat) (node : NodeId) (fields : List EncodeField) : EncodeMessage × Nat :=
  let weight := 1 + (fields.map (fieldWeight earlier)).sum
  let cost := (fields.map (fieldCost earlier weight)).sum
  let slots := (fields.filterMap EncodeField.child?).length
  let repSlot := fields.any EncodeField.isRepMsg
  let rep := fields.any fun f => f.isRepMsg || childRep earlier f
  let proved := !(repSlot && decide (1 < slots)) && !(repSlot && decide (repCostMax < cost))
    && decide (fields.length ≤ fieldsMax)
  let affordable := !(decide (weightMax < weight) || decide (costMax < cost) || decide (fileMax < total + cost))
  let e : EncodeMessage := ⟨node, proved && affordable, rep, decide (0 < slots), weight, fields⟩
  (e, if e.ok then total + cost else total)

def planMessage (total : Nat) (node : NodeId) (m : MessageNode) : EncodeMessage × Nat :=
  match m.fields.mapM (classify cName earlier) with
  | none => (⟨node, false, false, false, 0, []⟩, total)
  | some fields => planFields earlier total node fields

end Classify

/--
The messages of the plan, for messages in the order in which they are emitted.
-/
def planMessages (cName : NodeId → Spelling) (order : List (NodeId × MessageNode)) : List EncodeMessage :=
  (order.foldl step ([], 0)).1
where
  step (acc : List EncodeMessage × Nat) (item : NodeId × MessageNode) : List EncodeMessage × Nat :=
    let (e, total) := planMessage cName acc.1 acc.2 item.1 item.2
    (acc.1 ++ [e], total)

/--
What a subtree has to stay away from: a message of the plan, or a value array.
-/
inductive Target where
  | msg (i : Nat)
  | array (ctype : Spelling)
  deriving DecidableEq, Repr

def Target.isArray : Target → Bool
  | .array _ => true
  | .msg _ => false

/--
The subtree of a message avoids a target.
-/
abbrev AvoidPair := Nat × Target

/--
Every object of one subtree is avoided by another one.
-/
abbrev NavoidPair := Nat × Nat

abbrev Pair := AvoidPair ⊕ NavoidPair

section Pairs

variable (messages : List EncodeMessage)

def fieldsOf (i : Nat) : List EncodeField :=
  match messages[i]? with
  | some e => e.fields
  | none => []

/--
The pairs that the contracts of message `i` need for a field of it, with the fields behind that one.
-/
def slotSeeds (i : Nat) (fields : List EncodeField) (f : EncodeField) (rest : List EncodeField) : List Pair :=
  match f.child? with
  | none => []
  | some c =>
    .inl (c, .msg i)
      :: (fields.filterMap EncodeField.array?).map (fun ctype => .inl (c, .array ctype))
      ++ (rest.filterMap EncodeField.child?).map (fun d => .inr (c, d))
      ++ if f.isRepMsg then [.inr (c, c)] else []

def seedsOf (i : Nat) (fields : List EncodeField) : List EncodeField → List Pair
  | [] => []
  | f :: rest => slotSeeds i fields f rest ++ seedsOf i fields rest

def seeds : List Pair :=
  (messages.zipIdx.map fun (e, i) => if e.ok then seedsOf i e.fields e.fields else []).flatten

/--
The pairs that a pair needs in turn.
-/
def needs : Pair → List Pair
  | .inl (x, t) => ((fieldsOf messages x).filterMap EncodeField.child?).map fun c => .inl (c, t)
  | .inr (x, y) =>
    .inl (y, .msg x)
      :: (fieldsOf messages x).flatMap fun f =>
        (f.array?.map fun ctype => Sum.inl (y, .array ctype)).toList
          ++ (f.child?.map fun c => Sum.inr (c, y)).toList

def arrayTypes : List Spelling :=
  messages.flatMap fun e => e.fields.filterMap EncodeField.array?

/--
All the pairs there can be. The loops end within as many steps.
-/
def allPairs : List Pair :=
  let places := List.range messages.length
  (places.flatMap fun x =>
      (places.map (Target.msg ·) ++ (arrayTypes messages).map Target.array).map fun t => .inl (x, t))
    ++ places.flatMap fun x => places.map fun y => .inr (x, y)

end Pairs

/--
`struct gremlinc_encode_plan`.
-/
structure EncodePlan where
  messages : List EncodeMessage
  avoid : List AvoidPair
  navoid : List NavoidPair
  deriving DecidableEq, Repr

def encodePlanBuild (cName : NodeId → Spelling) (order : List (NodeId × MessageNode)) : Option EncodePlan :=
  let messages := planMessages cName order
  let limit := (allPairs messages).length + 1
  let tables := Saturation.addAll .empty (seeds messages)
  (Saturation.saturate (needs messages) limit limit tables).map fun t => ⟨messages, t.fst, t.snd⟩

/--
Message `i` is the element of a repeated field of a message that gets contracts.
-/
def EncodePlan.elem (plan : EncodePlan) (i : Nat) : Bool :=
  plan.messages.any fun e => e.ok && e.fields.any fun f => f.isRepMsg && f.child? == some i

/-! The messages of a plan. -/

/--
Message `c` gets contracts.
-/
def IsOk (messages : List EncodeMessage) (c : Nat) : Prop :=
  ∃ e, messages[c]? = some e ∧ e.ok = true

theorem IsOk.append {messages rest : List EncodeMessage} {c : Nat} (h : IsOk messages c)
    : IsOk (messages ++ rest) c := by
  obtain ⟨e, he, hok⟩ := h
  exact ⟨e, by rw [List.getElem?_append_left (List.getElem?_eq_some_iff.mp he).1, he], hok⟩

section Classified

variable {cName : NodeId → Spelling} {earlier : List EncodeMessage}

theorem classifyMessage_child {target : NodeId} {rep : Bool} {tagb : WireType → Nat} {f : EncodeField}
    (h : classifyMessage earlier target rep tagb = some f) {c : Nat} (hc : f.child? = some c)
    : ∃ e, earlier[c]? = some e ∧ e.ok = true ∧ (f.isRepMsg = true → e.kids = false) := by
  simp only [classifyMessage, Option.bind_eq_bind, Option.bind_eq_some_iff] at h
  obtain ⟨child, -, e, he, h⟩ := h
  by_cases hok : e.ok
  . by_cases hrep : rep
    . by_cases hkids : e.rep || e.kids
      . simp [hok, hrep, hkids] at h
      . simp only [hok, hrep, hkids, Bool.not_true, Bool.false_eq_true, if_false, if_true, Option.some.injEq] at h
        subst h
        cases hc
        rw [Bool.or_eq_true, not_or, Bool.not_eq_true, Bool.not_eq_true] at hkids
        exact ⟨e, he, hok, fun _ => hkids.2⟩
    . simp only [hok, hrep, Bool.not_true, Bool.false_eq_true, if_false, Option.some.injEq] at h
      subst h
      cases hc
      exact ⟨e, he, hok, nofun⟩
  . simp [hok] at h

theorem classifyEnum_child (target : NodeId) (rep : Bool) (packing : Packing) (tagb : WireType → Nat)
    : (classifyEnum cName target rep packing tagb).child? = none := by
  unfold classifyEnum
  split <;> rfl

theorem classifyScalar_child {kind : ScalarKind} {rep : Bool} {packing : Packing} {tagb : WireType → Nat}
    {f : EncodeField} (h : classifyScalar kind rep packing tagb = some f) : f.child? = none := by
  cases kind <;> cases rep <;> cases h <;> rfl

theorem classify_child {fld : FieldNode} {f : EncodeField} (h : classify cName earlier fld = some f) {c : Nat}
    (hc : f.child? = some c)
    : ∃ e, earlier[c]? = some e ∧ e.ok = true ∧ (f.isRepMsg = true → e.kids = false) := by
  unfold classify at h
  cases htype : fld.type with
  | unresolved => simp [htype] at h
  | map key value => simp [htype] at h
  | message target =>
    simp only [htype] at h
    exact classifyMessage_child h hc
  | enumeration target =>
    simp only [htype, Option.some.injEq] at h
    subst h
    simp [classifyEnum_child] at hc
  | builtin name =>
    simp only [htype] at h
    by_cases hbytes : builtinIsBytes name
    . exfalso
      by_cases hdefault : fld.default.isSome <;> by_cases hrep : fld.parsed.label = .repeated
        <;> simp only [hbytes, hdefault, hrep, Bool.false_eq_true, if_false, if_true, reduceCtorEq,
          Option.some.injEq] at h
        <;> subst h <;> simp [EncodeField.child?] at hc
    . simp only [hbytes, Bool.false_eq_true, if_false, Option.bind_eq_some_iff] at h
      obtain ⟨kind, -, h⟩ := h
      simp [classifyScalar_child h] at hc

end Classified

/--
The messages below a field come before the message it is a field of, and they get contracts. The
elements of a repeated field have no messages below them.
-/
structure Planned (messages : List EncodeMessage) : Prop where
  child : ∀ i, ∀ f ∈ fieldsOf messages i, ∀ c, f.child? = some c → c < i ∧ IsOk messages c
  element : ∀ i, ∀ f ∈ fieldsOf messages i, f.isRepMsg = true → ∀ c, f.child? = some c
    → ∀ g ∈ fieldsOf messages c, g.child? = none
  kids : ∀ e ∈ messages, e.kids = false → ∀ f ∈ e.fields, f.child? = none

/--
What `planMessage` finds of a message, behind messages of a plan.
-/
structure PlannedNext (earlier : List EncodeMessage) (e : EncodeMessage) : Prop where
  child : ∀ f ∈ e.fields, ∀ c, f.child? = some c
    → ∃ e', earlier[c]? = some e' ∧ e'.ok = true ∧ (f.isRepMsg = true → e'.kids = false)
  kids : e.kids = false → ∀ f ∈ e.fields, f.child? = none

theorem planFields_kids {earlier : List EncodeMessage} {total : Nat} {node : NodeId} {fields : List EncodeField}
    (h : (planFields earlier total node fields).1.kids = false) : ∀ f ∈ fields, f.child? = none := by
  have hslots : ¬0 < (fields.filterMap EncodeField.child?).length := of_decide_eq_false h
  have hnil : fields.filterMap EncodeField.child? = [] := List.eq_nil_of_length_eq_zero (by omega)
  exact List.filterMap_eq_nil_iff.mp hnil

theorem planMessage_next (cName : NodeId → Spelling) (earlier : List EncodeMessage) (total : Nat) (node : NodeId)
    (m : MessageNode) : PlannedNext earlier (planMessage cName earlier total node m).1 := by
  unfold planMessage
  split
  . exact ⟨nofun, nofun⟩
  . next fields hfields =>
    refine ⟨?_, planFields_kids⟩
    intro f hf c hc
    obtain ⟨fld, -, hclassify⟩ := Pool.exists_of_forall₂_mem (forall₂_of_mapM_some hfields).flip hf
    exact classify_child hclassify hc

theorem fieldsOf_eq {messages : List EncodeMessage} {i : Nat} {e : EncodeMessage} (h : messages[i]? = some e)
    : fieldsOf messages i = e.fields := by
  rw [fieldsOf, h]

theorem fieldsOf_concat_of_lt {messages : List EncodeMessage} {e : EncodeMessage} {i : Nat}
    (h : i < messages.length) : fieldsOf (messages ++ [e]) i = fieldsOf messages i := by
  rw [fieldsOf, fieldsOf, List.getElem?_append_left h]

theorem mem_fieldsOf_concat {messages : List EncodeMessage} {e : EncodeMessage} {i : Nat} {f : EncodeField}
    (h : f ∈ fieldsOf (messages ++ [e]) i)
    : i < messages.length ∧ f ∈ fieldsOf messages i ∨ i = messages.length ∧ f ∈ e.fields := by
  by_cases hi : i < messages.length
  . rw [fieldsOf_concat_of_lt hi] at h
    exact .inl ⟨hi, h⟩
  . by_cases hi' : i = messages.length
    . subst hi'
      rw [fieldsOf_eq List.getElem?_concat_length] at h
      exact .inr ⟨rfl, h⟩
    . rw [fieldsOf, List.getElem?_eq_none (by simp; omega)] at h
      simp at h

theorem Planned.concat {messages : List EncodeMessage} {e : EncodeMessage} (h : Planned messages)
    (he : PlannedNext messages e) : Planned (messages ++ [e]) := by
  refine ⟨?_, ?_, ?_⟩
  . intro i f hf c hc
    rcases mem_fieldsOf_concat hf with ⟨-, hf⟩ | ⟨rfl, hf'⟩
    . obtain ⟨hlt, hok⟩ := h.child i f hf c hc
      exact ⟨hlt, hok.append⟩
    . obtain ⟨e', he', hok, -⟩ := he.child f hf' c hc
      exact ⟨(List.getElem?_eq_some_iff.mp he').1, IsOk.append ⟨e', he', hok⟩⟩
  . intro i f hf hrep c hc
    rcases mem_fieldsOf_concat hf with ⟨hi, hf⟩ | ⟨rfl, hf'⟩
    . have hlt := (h.child i f hf c hc).1
      rw [fieldsOf_concat_of_lt (by omega)]
      exact h.element i f hf hrep c hc
    . obtain ⟨e', he', -, hkids⟩ := he.child f hf' c hc
      rw [fieldsOf_concat_of_lt (List.getElem?_eq_some_iff.mp he').1, fieldsOf_eq he']
      exact h.kids e' (List.mem_of_getElem? he') (hkids hrep)
  . intro e' he'
    rw [List.mem_append, List.mem_singleton] at he'
    rcases he' with he' | rfl
    . exact h.kids e' he'
    . exact he.kids

theorem planned_planMessages (cName : NodeId → Spelling) (order : List (NodeId × MessageNode))
    : Planned (planMessages cName order) := by
  have hgo : ∀ (order : List (NodeId × MessageNode)) (acc : List EncodeMessage × Nat), Planned acc.1
      → Planned (order.foldl (planMessages.step cName) acc).1 := by
    intro order
    induction order with
    | nil => exact fun _ h => h
    | cons item order ih => exact fun acc h => ih _ (h.concat (planMessage_next cName acc.1 acc.2 item.1 item.2))
  exact hgo order ([], 0) ⟨by simp [fieldsOf], by simp [fieldsOf], by simp⟩

/-! The pairs of a plan. -/

/--
A pair that the contracts of message `i` need themselves: what is below a field avoids the message
and its value arrays, and the objects below another field or another element avoid it.
-/
inductive Seed (i : Nat) (fields : List EncodeField) : Pair → Prop where
  | self {f : EncodeField} {c : Nat} (hf : f ∈ fields) (hc : f.child? = some c) : Seed i fields (.inl (c, .msg i))
  | array {f g : EncodeField} {c : Nat} {ctype : Spelling} (hf : f ∈ fields) (hc : f.child? = some c)
      (hg : g ∈ fields) (hctype : g.array? = some ctype) : Seed i fields (.inl (c, .array ctype))
  | sibling {f g : EncodeField} {c d : Nat} {before behind : List EncodeField}
      (hfields : fields = before ++ f :: behind) (hc : f.child? = some c) (hg : g ∈ behind)
      (hd : g.child? = some d) : Seed i fields (.inr (c, d))
  | element {f : EncodeField} {c : Nat} (hf : f ∈ fields) (hrep : f.isRepMsg = true) (hc : f.child? = some c)
      : Seed i fields (.inr (c, c))

def Seeded (messages : List EncodeMessage) (x : Pair) : Prop :=
  ∃ i e, messages[i]? = some e ∧ e.ok = true ∧ Seed i e.fields x

/--
The predicate of a pair names that of another one.
-/
inductive Needs (messages : List EncodeMessage) : Pair → Pair → Prop where
  | avoid {x c : Nat} {t : Target} {f : EncodeField} (hf : f ∈ fieldsOf messages x) (hc : f.child? = some c)
      : Needs messages (.inl (x, t)) (.inl (c, t))
  | self {x y : Nat} : Needs messages (.inr (x, y)) (.inl (y, .msg x))
  | array {x y : Nat} {ctype : Spelling} {f : EncodeField} (hf : f ∈ fieldsOf messages x)
      (hctype : f.array? = some ctype) : Needs messages (.inr (x, y)) (.inl (y, .array ctype))
  | navoid {x y c : Nat} {f : EncodeField} (hf : f ∈ fieldsOf messages x) (hc : f.child? = some c)
      : Needs messages (.inr (x, y)) (.inr (c, y))

section Tables

variable {messages : List EncodeMessage}

theorem mem_needs {a b : Pair} : b ∈ needs messages a ↔ Needs messages a b := by
  constructor
  . intro h
    obtain ⟨x, t⟩ | ⟨x, y⟩ := a
    . simp only [needs, List.mem_map, List.mem_filterMap] at h
      obtain ⟨c, ⟨f, hf, hc⟩, rfl⟩ := h
      exact .avoid hf hc
    . simp only [needs, List.mem_cons, List.mem_flatMap, List.mem_append, Option.mem_toList, Option.map_eq_some_iff]
        at h
      rcases h with rfl | ⟨f, hf, ⟨ctype, hctype, rfl⟩ | ⟨c, hc, rfl⟩⟩
      . exact .self
      . exact .array hf hctype
      . exact .navoid hf hc
  . intro h
    cases h with
    | avoid hf hc =>
      simp only [needs, List.mem_map, List.mem_filterMap]
      exact ⟨_, ⟨_, hf, hc⟩, rfl⟩
    | self => exact List.mem_cons_self
    | array hf hctype =>
      apply List.mem_cons_of_mem
      simp only [List.mem_flatMap, List.mem_append, Option.mem_toList, Option.map_eq_some_iff]
      exact ⟨_, hf, .inl ⟨_, hctype, rfl⟩⟩
    | navoid hf hc =>
      apply List.mem_cons_of_mem
      simp only [List.mem_flatMap, List.mem_append, Option.mem_toList, Option.map_eq_some_iff]
      exact ⟨_, hf, .inr ⟨_, hc, rfl⟩⟩

theorem mem_seedsOf {i : Nat} {fields rest : List EncodeField} {x : Pair}
    : x ∈ seedsOf i fields rest
        ↔ ∃ before f behind, rest = before ++ f :: behind ∧ x ∈ slotSeeds i fields f behind := by
  induction rest with
  | nil => simp [seedsOf]
  | cons f rest ih =>
    rw [seedsOf, List.mem_append, ih]
    constructor
    . rintro (h | ⟨before, g, behind, rfl, h⟩)
      . exact ⟨[], f, rest, rfl, h⟩
      . exact ⟨f :: before, g, behind, rfl, h⟩
    . rintro ⟨before, g, behind, heq, h⟩
      cases before with
      | nil =>
        rw [List.nil_append, List.cons.injEq] at heq
        obtain ⟨rfl, rfl⟩ := heq
        exact .inl h
      | cons f' before =>
        rw [List.cons_append, List.cons.injEq] at heq
        exact .inr ⟨before, g, behind, heq.2, h⟩

theorem mem_slotSeeds {i : Nat} {fields rest : List EncodeField} {f : EncodeField} {x : Pair}
    : x ∈ slotSeeds i fields f rest
        ↔ ∃ c, f.child? = some c
          ∧ (x = .inl (c, .msg i)
            ∨ (∃ g ∈ fields, ∃ ctype, g.array? = some ctype ∧ x = .inl (c, .array ctype))
            ∨ (∃ g ∈ rest, ∃ d, g.child? = some d ∧ x = .inr (c, d))
            ∨ f.isRepMsg = true ∧ x = .inr (c, c)) := by
  unfold slotSeeds
  cases hc : f.child? with
  | none => simp
  | some c =>
    have helement : x ∈ (if f.isRepMsg then [.inr (c, c)] else []) ↔ f.isRepMsg = true ∧ x = .inr (c, c) := by
      split <;> simp_all
    simp only [List.mem_append, List.mem_cons, List.mem_map, List.mem_filterMap, helement, Option.some.injEq,
      exists_eq_left', or_assoc]
    grind

theorem mem_seeds {x : Pair} : x ∈ seeds messages ↔ Seeded messages x := by
  have hmem : x ∈ seeds messages
      ↔ ∃ i e, messages[i]? = some e ∧ e.ok = true ∧ x ∈ seedsOf i e.fields e.fields := by
    simp only [seeds, List.mem_flatten, List.mem_map, Prod.exists, List.mem_zipIdx_iff_getElem?]
    constructor
    . rintro ⟨_, ⟨e, i, hi, rfl⟩, hx⟩
      by_cases hok : e.ok
      . rw [if_pos hok] at hx
        exact ⟨i, e, hi, hok, hx⟩
      . simp [hok] at hx
    . rintro ⟨i, e, hi, hok, hx⟩
      exact ⟨_, ⟨e, i, hi, rfl⟩, by rwa [if_pos hok]⟩
  rw [hmem]
  constructor
  . rintro ⟨i, e, hi, hok, hx⟩
    refine ⟨i, e, hi, hok, ?_⟩
    obtain ⟨before, f, behind, hfields, hx⟩ := mem_seedsOf.mp hx
    have hf : f ∈ e.fields := by simp [hfields]
    obtain ⟨c, hc, rfl | ⟨g, hg, ctype, hctype, rfl⟩ | ⟨g, hg, d, hd, rfl⟩ | ⟨hrep, rfl⟩⟩ := mem_slotSeeds.mp hx
    . exact .self hf hc
    . exact .array hf hc hg hctype
    . exact .sibling hfields hc hg hd
    . exact .element hf hrep hc
  . rintro ⟨i, e, hi, hok, hseed⟩
    refine ⟨i, e, hi, hok, mem_seedsOf.mpr ?_⟩
    cases hseed with
    | self hf hc =>
      obtain ⟨before, behind, hfields⟩ := List.append_of_mem hf
      exact ⟨before, _, behind, hfields, mem_slotSeeds.mpr ⟨_, hc, .inl rfl⟩⟩
    | array hf hc hg hctype =>
      obtain ⟨before, behind, hfields⟩ := List.append_of_mem hf
      exact ⟨before, _, behind, hfields, mem_slotSeeds.mpr ⟨_, hc, .inr (.inl ⟨_, hg, _, hctype, rfl⟩)⟩⟩
    | sibling hfields hc hg hd =>
      exact ⟨_, _, _, hfields, mem_slotSeeds.mpr ⟨_, hc, .inr (.inr (.inl ⟨_, hg, _, hd, rfl⟩))⟩⟩
    | element hf hrep hc =>
      obtain ⟨before, behind, hfields⟩ := List.append_of_mem hf
      exact ⟨before, _, behind, hfields, mem_slotSeeds.mpr ⟨_, hc, .inr (.inr (.inr ⟨hrep, rfl⟩))⟩⟩

/--
The messages of a pair get contracts, and the element types are those of value arrays.
-/
def Pair.Ok (messages : List EncodeMessage) : Pair → Prop
  | .inl (x, .msg i) => IsOk messages x ∧ IsOk messages i
  | .inl (x, .array ctype) => IsOk messages x ∧ ctype ∈ arrayTypes messages
  | .inr (x, y) => IsOk messages x ∧ IsOk messages y

theorem IsOk.lt {c : Nat} (h : IsOk messages c) : c < messages.length := by
  obtain ⟨e, he, -⟩ := h
  exact (List.getElem?_eq_some_iff.mp he).1

theorem mem_arrayTypes {i : Nat} {f : EncodeField} {ctype : Spelling} (hf : f ∈ fieldsOf messages i)
    (hctype : f.array? = some ctype) : ctype ∈ arrayTypes messages := by
  unfold fieldsOf at hf
  split at hf
  . next e he => exact List.mem_flatMap.mpr ⟨e, List.mem_of_getElem? he, List.mem_filterMap.mpr ⟨f, hf, hctype⟩⟩
  . simp at hf

theorem Pair.Ok.mem_allPairs {x : Pair} (h : x.Ok messages) : x ∈ allPairs messages := by
  unfold allPairs
  rw [List.mem_append]
  obtain ⟨x, i | ctype⟩ | ⟨x, y⟩ := x
  . refine .inl (List.mem_flatMap.mpr ⟨x, List.mem_range.mpr h.1.lt, List.mem_map.mpr ⟨.msg i, ?_, rfl⟩⟩)
    exact List.mem_append.mpr (.inl (List.mem_map.mpr ⟨i, List.mem_range.mpr h.2.lt, rfl⟩))
  . refine .inl (List.mem_flatMap.mpr ⟨x, List.mem_range.mpr h.1.lt, List.mem_map.mpr ⟨.array ctype, ?_, rfl⟩⟩)
    exact List.mem_append.mpr (.inr (List.mem_map.mpr ⟨ctype, h.2, rfl⟩))
  . refine .inr (List.mem_flatMap.mpr ⟨x, List.mem_range.mpr h.1.lt, ?_⟩)
    exact List.mem_map.mpr ⟨y, List.mem_range.mpr h.2.lt, rfl⟩

theorem Seeded.ok (h : Planned messages) {x : Pair} (hx : Seeded messages x) : x.Ok messages := by
  obtain ⟨i, e, hi, hok, hseed⟩ := hx
  have hfields := fieldsOf_eq hi
  have hchild {f : EncodeField} {c : Nat} (hf : f ∈ e.fields) (hc : f.child? = some c) : IsOk messages c :=
    (h.child i f (hfields ▸ hf) c hc).2
  cases hseed with
  | self hf hc => exact ⟨hchild hf hc, e, hi, hok⟩
  | array hf hc hg hctype => exact ⟨hchild hf hc, mem_arrayTypes (hfields ▸ hg) hctype⟩
  | sibling heq hc hg hd => exact ⟨hchild (by simp [heq]) hc, hchild (by simp [heq, hg]) hd⟩
  | element hf _ hc => exact ⟨hchild hf hc, hchild hf hc⟩

theorem Needs.ok (h : Planned messages) {x y : Pair} (hneeds : Needs messages x y) (hx : x.Ok messages)
    : y.Ok messages := by
  cases hneeds with
  | @avoid _ c t _ hf hc =>
    have hc := (h.child _ _ hf _ hc).2
    cases t with
    | msg i => exact ⟨hc, hx.2⟩
    | array ctype => exact ⟨hc, hx.2⟩
  | self => exact ⟨hx.2, hx.1⟩
  | array hf hctype => exact ⟨hx.2, mem_arrayTypes hf hctype⟩
  | navoid hf hc => exact ⟨(h.child _ _ hf _ hc).2, hx.2⟩

end Tables

namespace EncodePlan

/--
A pair is in the table of its kind.
-/
def Has (plan : EncodePlan) : Pair → Prop
  | .inl pr => pr ∈ plan.avoid
  | .inr pr => pr ∈ plan.navoid

/--
The tables of a plan hold what the contracts need, directly or through other predicates, and each
pair once.
-/
structure Sound (plan : EncodePlan) : Prop where
  planned : Planned plan.messages
  avoid_nodup : plan.avoid.Nodup
  navoid_nodup : plan.navoid.Nodup
  has_iff : ∀ x, plan.Has x ↔ ∃ y, Seeded plan.messages y ∧ Relation.ReflTransGen (Needs plan.messages) y x

variable {plan : EncodePlan}

theorem Sound.seeded (h : plan.Sound) {x : Pair} (hx : Seeded plan.messages x) : plan.Has x :=
  (h.has_iff x).mpr ⟨x, hx, .refl⟩

theorem Sound.needs (h : plan.Sound) {x y : Pair} (hx : plan.Has x) (hneeds : Needs plan.messages x y)
    : plan.Has y := by
  obtain ⟨z, hz, hpath⟩ := (h.has_iff x).mp hx
  exact (h.has_iff y).mpr ⟨z, hz, hpath.tail hneeds⟩

theorem Sound.ok (h : plan.Sound) {x : Pair} (hx : plan.Has x) : x.Ok plan.messages := by
  obtain ⟨y, hy, hpath⟩ := (h.has_iff x).mp hx
  induction hpath with
  | refl => exact hy.ok h.planned
  | tail hpath hneeds ih => exact hneeds.ok h.planned (ih ((h.has_iff _).mpr ⟨y, hy, hpath⟩))

end EncodePlan

/--
A plan is built for every order of messages.
-/
theorem encodePlanBuild_sound (cName : NodeId → Spelling) (order : List (NodeId × MessageNode))
    : ∃ plan, encodePlanBuild cName order = some plan ∧ plan.messages = planMessages cName order ∧ plan.Sound := by
  have hplanned := planned_planMessages cName order
  generalize hmessages : planMessages cName order = messages at hplanned
  -- The tables stay among the pairs of messages that get contracts.
  classical
  let all := (allPairs messages).filter (Pair.Ok messages)
  have hmem {x : Pair} : x ∈ all ↔ x.Ok messages := by
    simp only [all, List.mem_filter, decide_eq_true_eq]
    exact and_iff_right_of_imp Pair.Ok.mem_allPairs
  have hlength : all.length ≤ (allPairs messages).length := List.length_filter_le _ _
  have hlimit : all.length < (allPairs messages).length + 1 := by omega
  have hall : ∀ x ∈ all, needs messages x ⊆ all := fun x hx y hy =>
    hmem.mpr ((mem_needs.mp hy).ok hplanned (hmem.mp hx))
  have htables := Saturation.addAll_extends .empty (seeds messages)
  have hentries {x : Pair} : x ∈ (Saturation.addAll .empty (seeds messages)).entries ↔ Seeded messages x := by
    rw [Saturation.mem_entries_addAll, Saturation.Tables.entries_empty, or_iff_right (List.not_mem_nil), mem_seeds]
  obtain ⟨t, hsaturate, hsaturated⟩ := Saturation.saturate_saturated hall hlimit (Nat.lt_add_right _ hlimit)
    (htables.nodup (by simp)) (fun x hx => hmem.mpr ((hentries.mp hx).ok hplanned))
  refine ⟨⟨messages, t.fst, t.snd⟩, ?_, rfl, hplanned, ?_, ?_, ?_⟩
  . rw [encodePlanBuild, hmessages, hsaturate, Option.map_some]
  . exact (Saturation.nodup_entries.mp hsaturated.nodup).1
  . exact (Saturation.nodup_entries.mp hsaturated.nodup).2
  . intro x
    have hiff := hsaturated.mem_iff x
    have hsucc : (fun a b => b ∈ needs messages a) = Needs messages := by
      funext a b
      rw [mem_needs]
    simp only [hentries, hsucc] at hiff
    rw [← hiff]
    cases x with
    | inl pr => exact Saturation.Tables.inl_mem_entries.symm
    | inr pr => exact Saturation.Tables.inr_mem_entries.symm

end Gremlin
