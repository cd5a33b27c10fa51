import Gremlin.Codegen.EncodePlan
import Gremlin.Graph.Unfold
import Gremlin.Logic.Definitions
import Gremlin.Memory.Regions
import Mathlib.Data.Prod.Lex

/-!
This module contains the predicates that the contracts on the write side are made of: how they are
emitted, and what they say of the memory that a message and the messages below it take up.
-/

namespace Gremlin

open Memory Naming

/-! Predicates. -/

/--
A predicate of the contracts: that of a pair, or `_valid` or `_bufsep` of a message.
-/
inductive LogicPred where
  | pair (x : Pair)
  | valid (i : Nat)
  | bufsep (i : Nat)
  deriving DecidableEq, Repr

/--
A field with its position.
-/
abbrev Place := EncodeField × Nat

def places (messages : List EncodeMessage) (i : Nat) : List Place :=
  (fieldsOf messages i).zipIdx

/--
What a predicate is applied to besides the message: nothing, what it was itself applied to, the
message, or a value array of the message and its count.
-/
inductive Rest where
  | nothing
  | same
  | node
  | array (g : Place)
  deriving DecidableEq, Repr

/--
A conjunct of a predicate about a message `m`. The target is what the predicate is applied to besides.
-/
inductive Clause where
  /-- `\separated(target, m)` -/
  | apart
  /-- `m->f_count == 0 || \separated(target, m->f + (0 .. m->f_count - 1))` -/
  | apartArray (f : Place)
  /-- `\separated(target, ...)` for the bytes of `m->f` or of each of its elements -/
  | apartPayload (f : Place)
  /-- `each_child` -/
  | each (f : Place) (callee : LogicPred) (rest : Rest)
  /-- The target is the message that the predicate is applied to. -/
  | swapped (callee : LogicPred) (rest : Rest)
  /-- `\valid(m)` -/
  | validNode
  /-- `m->f_count == 0 || \valid_read(m->f + (0 .. m->f_count - 1))` -/
  | readableArray (f : Place)
  | readablePayload (f : Place)
  /-- `m->f_count == 0 || \separated(m, m->f + (0 .. m->f_count - 1))` -/
  | ownArray (f : Place)
  | arrays (f g : Place)
  /-- The subtrees of two fields. -/
  | siblings (f g : Place) (callee : LogicPred)
  /-- Two elements of a field. -/
  | elements (f : Place) (callee : LogicPred)
  deriving DecidableEq, Repr

/--
The body of a predicate. One with a guard holds of an empty target.
-/
structure LogicBody where
  guarded : Bool
  clauses : List Clause
  deriving DecidableEq, Repr

section Emit

variable (messages : List EncodeMessage) (named : List LogicPred)

/--
`avoid_name` and `navoid_name`, and the names of `_valid` and `_bufsep`. There is no name as long as the
predicate has not been emitted.
-/
def findName (callee : LogicPred) : Option LogicPred :=
  if callee ∈ named then some callee else none

def avoidClauses (t : Target) (f : Place) : Option (List Clause) :=
  if f.1.array?.isSome then
    some [.apartArray f]
  else
    match f.1.child? with
    | none => some []
    | some c => (findName named (.pair (.inl (c, t)))).map fun callee => [.each f callee .same]

def emitAvoid (x : Nat) (t : Target) : Option LogicBody := do
  let clauses ← (places messages x).mapM (avoidClauses named t)
  some ⟨t.isArray, .apart :: clauses.flatten⟩

def navoidClauses (y : Nat) (f : Place) : Option (List Clause) :=
  match f.1.array?, f.1.child? with
  | some ctype, _ =>
    (findName named (.pair (.inl (y, .array ctype)))).map fun callee => [.swapped callee (.array f)]
  | none, some c => (findName named (.pair (.inr (c, y)))).map fun callee => [.each f callee .same]
  | none, none => some []

def emitNavoid (x y : Nat) : Option LogicBody := do
  let self ← findName named (.pair (.inl (y, .msg x)))
  let clauses ← (places messages x).mapM (navoidClauses named y)
  some ⟨false, .swapped self .node :: clauses.flatten⟩

/--
The first loop of `valid_clauses`: the message and its arrays.
-/
def ownClauses : List Place → List Clause
  | [] => []
  | f :: rest =>
    (if f.1.isRep then [.readableArray f] else [])
      ++ (if f.1.hasPayload then [.readablePayload f] else [])
      ++ (if f.1.array?.isSome then
          .ownArray f :: (rest.filter (·.1.array?.isSome)).map (.arrays f)
        else
          [])
      ++ ownClauses rest

def arrayClauses (f : Place) (c : Nat) (g : Place) : Option (List Clause) :=
  match g.1.array? with
  | none => some []
  | some ctype => (findName named (.pair (.inl (c, .array ctype)))).map fun callee => [.each f callee (.array g)]

/--
The second loop: the subtree of a field, and the message and its arrays.
-/
def childClauses (i : Nat) (f : Place) : Option (List Clause) :=
  match f.1.child? with
  | none => some []
  | some c => do
    let self ← findName named (.pair (.inl (c, .msg i)))
    let valid ← findName named (.valid c)
    let arrays ← (places messages i).mapM (arrayClauses named f c)
    some (.each f valid .nothing :: .each f self .node :: arrays.flatten)

def siblingClause (f : Place) (c : Nat) (g : Place) : Option (List Clause) :=
  match g.1.child? with
  | none => some []
  | some d => (findName named (.pair (.inr (c, d)))).map fun callee => [.siblings f g callee]

def elementClause (f : Place) (c : Nat) : Option (List Clause) :=
  if f.1.isRepMsg then
    (findName named (.pair (.inr (c, c)))).map fun callee => [.elements f callee]
  else
    some []

/--
The third loop: the subtrees of two fields, and of two elements of a field.
-/
def siblingClauses : List Place → Option (List Clause)
  | [] => some []
  | f :: rest =>
    match f.1.child? with
    | none => siblingClauses rest
    | some c => do
      let own ← elementClause named f c
      let others ← rest.mapM (siblingClause named f c)
      let behind ← siblingClauses rest
      some (own ++ others.flatten ++ behind)

def emitValid (i : Nat) : Option LogicBody := do
  let children ← (places messages i).mapM (childClauses messages named i)
  let siblings ← siblingClauses named (places messages i)
  some ⟨false, .validNode :: ownClauses (places messages i) ++ children.flatten ++ siblings⟩

def bufsepClauses (f : Place) : Option (List Clause) := do
  let array := if f.1.isRep then [.apartArray f] else []
  let payload := if f.1.hasPayload then [.apartPayload f] else []
  match f.1.child? with
  | none => some (array ++ payload)
  | some c => (findName named (.bufsep c)).map fun callee => array ++ payload ++ [.each f callee .same]

def emitBufsep (i : Nat) : Option LogicBody := do
  let clauses ← (places messages i).mapM (bufsepClauses named)
  some ⟨true, .apart :: clauses.flatten⟩

def emitBody : LogicPred → Option LogicBody
  | .pair (.inl (x, t)) => emitAvoid messages named x t
  | .pair (.inr (x, y)) => emitNavoid messages named x y
  | .valid i => emitValid messages named i
  | .bufsep i => emitBufsep messages named i

end Emit

/--
`pair_pos`: the message whose logic a pair is emitted with.
-/
def Pair.pos : Pair → Nat
  | .inl (x, .msg i) => max x i
  | .inl (x, .array _) => x
  | .inr (x, y) => max x y

/--
A loop of `emit_pairs`, over the pairs of one of the tables.
-/
def stageOf {γ : Type} (table : List (Nat × γ)) (inj : Nat × γ → Pair) (z : Nat) : List Pair :=
  (List.range (z + 1)).flatMap fun x => (table.filter fun pr => pr.1 = x ∧ (inj pr).pos = z).map inj

namespace EncodePlan

variable (plan : EncodePlan)

/--
`emit_pairs`.
-/
def stagePairs (z : Nat) : List Pair :=
  stageOf plan.avoid .inl z ++ stageOf plan.navoid .inr z

/--
The predicates that `gremlinc_espec_emit_logic` emits with a message, in order.
-/
def stage (z : Nat) : List LogicPred :=
  (plan.stagePairs z).map .pair ++ [.valid z, .bufsep z]

def isOk (i : Nat) : Bool :=
  match plan.messages[i]? with
  | some e => e.ok
  | none => false

/--
The predicates of a file in the order in which they are emitted.
-/
def script : List LogicPred :=
  ((List.range plan.messages.length).filter plan.isOk).flatMap plan.stage

/--
The predicates of a file with their bodies. There are none if a name is missing.
-/
def emitLogic : Option (List (LogicPred × LogicBody)) :=
  Logic.emit (emitBody plan.messages) [] plan.script

end EncodePlan

/-! Memory. -/

/--
What a predicate can read: the sizes of the types, the members of the messages, and which memory
may be accessed. A member is that of a message of the plan at an address, at a position.
-/
structure Heap where
  nodeSize : Nat → Nat
  elemSize : Spelling → Nat
  pointerSize : Nat
  pointer : (i : Nat) → Addr → (j : Nat) → Addr
  count : (i : Nat) → Addr → (j : Nat) → Nat
  element : (i : Nat) → Addr → (j k : Nat) → Addr
  span : (i : Nat) → Addr → (j : Nat) → Region
  spanAt : (i : Nat) → Addr → (j k : Nat) → Region
  Writable : Region → Prop
  Readable : Region → Prop

/--
The arguments of a predicate behind the message.
-/
inductive Arg where
  | nothing
  | node (i : Nat) (p : Addr)
  | array (ctype : Spelling) (p : Addr) (n : Nat)
  | buffer (b : Addr) (lo hi : Int)

def Arg.IsEmpty : Arg → Prop
  | .array _ _ n => n = 0
  | .buffer _ lo hi => hi < lo
  | _ => False

def Separated (r s : Region) : Prop :=
  Disjoint r.addresses s.addresses

namespace Heap

variable (H : Heap)

def node (i : Nat) (m : Addr) : Region :=
  ⟨m, H.nodeSize i⟩

/--
`m->f + (0 .. m->f_count - 1)`.
-/
def array (i : Nat) (m : Addr) (f : Place) : Region :=
  let size := match f.1.array? with
    | some ctype => H.elemSize ctype
    | none => H.pointerSize
  ⟨H.pointer i m f.2, H.count i m f.2 * size⟩

/--
The messages below a field that are there.
-/
def children (i : Nat) (m : Addr) (f : Place) : List Addr :=
  match f.1 with
  | .msg .. => [H.pointer i m f.2].filter (· ≠ 0)
  | .repMsg .. => ((List.range (H.count i m f.2)).map (H.element i m f.2)).filter (· ≠ 0)
  | _ => []

/--
The bytes that a field or its elements point to.
-/
def payloads (i : Nat) (m : Addr) (f : Place) : List Region :=
  match f.1 with
  | .bytes _ => [H.span i m f.2]
  | .repBytes _ => (List.range (H.count i m f.2)).map (H.spanAt i m f.2)
  | _ => []

end Heap

def Arg.region (H : Heap) : Arg → Region
  | .nothing => ⟨0, 0⟩
  | .node i p => H.node i p
  | .array ctype p n => ⟨p, n * H.elemSize ctype⟩
  | .buffer b lo hi => ⟨(b + lo).toNat, (hi - lo + 1).toNat⟩

def Rest.arg (H : Heap) (i : Nat) (m : Addr) (arg : Arg) : Rest → Arg
  | .nothing => .nothing
  | .same => arg
  | .node => .node i m
  | .array g =>
    match g.1.array? with
    | some ctype => .array ctype (H.pointer i m g.2) (H.count i m g.2)
    | none => .nothing

/--
The meaning of a predicate: the message, and what else it is applied to.
-/
abbrev Meaning := Addr → Arg → Prop

/--
The message that a predicate is about.
-/
def LogicPred.subject : LogicPred → Nat
  | .pair (.inl (x, _)) => x
  | .pair (.inr (x, _)) => x
  | .valid i => i
  | .bufsep i => i

/--
A message below a field, as an argument of its type.
-/
def Place.arg (g : Place) (b : Addr) : Arg :=
  match g.1.child? with
  | some d => .node d b
  | none => .nothing

section Meaning

variable (H : Heap) (env : LogicPred → Meaning) (i : Nat) (m : Addr) (arg : Arg)

def Clause.Holds : Clause → Prop
  | apart => Separated (arg.region H) (H.node i m)
  | apartArray f => H.count i m f.2 = 0 ∨ Separated (arg.region H) (H.array i m f)
  | apartPayload f => ∀ r ∈ H.payloads i m f, r.size = 0 ∨ Separated (arg.region H) r
  | each f callee rest => ∀ a ∈ H.children i m f, env callee a (rest.arg H i m arg)
  | swapped callee rest =>
    match arg with
    | .node _ t => env callee t (rest.arg H i m arg)
    | _ => False
  | validNode => H.Writable (H.node i m)
  | readableArray f => H.count i m f.2 = 0 ∨ H.Readable (H.array i m f)
  | readablePayload f => ∀ r ∈ H.payloads i m f, r.size = 0 ∨ H.Readable r
  | ownArray f => H.count i m f.2 = 0 ∨ Separated (H.node i m) (H.array i m f)
  | arrays f g => H.count i m f.2 = 0 ∨ H.count i m g.2 = 0 ∨ Separated (H.array i m f) (H.array i m g)
  | siblings f g callee => ∀ a ∈ H.children i m f, ∀ b ∈ H.children i m g, env callee a (Place.arg g b)
  | elements f callee =>
    ∀ k < H.count i m f.2, ∀ l < H.count i m f.2, k ≠ l → H.element i m f.2 k ≠ 0 → H.element i m f.2 l ≠ 0
      → env callee (H.element i m f.2 k) (Place.arg f (H.element i m f.2 l))

def LogicBody.Holds (body : LogicBody) : Prop :=
  body.guarded = true ∧ arg.IsEmpty ∨ ∀ c ∈ body.clauses, c.Holds H env i m arg

end Meaning

/--
The meanings of the predicates of a file in a memory.
-/
def meaning (H : Heap) (defs : List (LogicPred × LogicBody)) : LogicPred → Meaning :=
  Logic.denote (fun env p body m arg => body.Holds H env p.subject m arg) (fun _ _ => False) defs

/-! References. -/

def Clause.callee? : Clause → Option LogicPred
  | each _ callee _ | swapped callee _ | siblings _ _ callee | elements _ callee => some callee
  | _ => none

/-! What is emitted when no name is missing. -/

def refsOf (clauses : List Clause) : List LogicPred :=
  clauses.filterMap Clause.callee?

@[simp]
theorem refsOf_append (cs cs' : List Clause) : refsOf (cs ++ cs') = refsOf cs ++ refsOf cs' :=
  List.filterMap_append

/--
`o` gives the clauses `cs`, if all the names in them are there.
-/
def EmitsClauses (named : List LogicPred) (o : Option (List Clause)) (cs : List Clause) : Prop :=
  ∀ cs', o = some cs' ↔ cs' = cs ∧ refsOf cs ⊆ named

theorem findName_eq_some_iff {named : List LogicPred} {callee c : LogicPred}
    : findName named callee = some c ↔ c = callee ∧ callee ∈ named := by
  unfold findName
  by_cases hmem : callee ∈ named
  . simp [hmem, eq_comm]
  . simp [hmem]

namespace EmitsClauses

variable {named : List LogicPred}

theorem pure {cs : List Clause} (h : refsOf cs = []) : EmitsClauses named (some cs) cs := by
  intro cs'
  simp [h, eq_comm]

theorem lookup {callee : LogicPred} {g : LogicPred → List Clause} (h : refsOf (g callee) = [callee])
    : EmitsClauses named ((findName named callee).map g) (g callee) := by
  intro cs'
  unfold findName
  by_cases hmem : callee ∈ named
  . simp [h, hmem, eq_comm]
  . simp [h, hmem]

theorem mapM {l : List Place} {g : Place → Option (List Clause)} {g' : Place → List Clause}
    (h : ∀ f ∈ l, EmitsClauses named (g f) (g' f))
    : EmitsClauses named ((l.mapM g).map List.flatten) (l.flatMap g') := by
  induction l with
  | nil => exact pure rfl
  | cons f l ih =>
    intro cs'
    have hhead := h f List.mem_cons_self
    have htail := ih fun f' hf' => h f' (List.mem_cons_of_mem _ hf')
    simp only [List.mapM_cons, Option.bind_eq_bind, Option.map_eq_some_iff, Option.bind_eq_some_iff,
      Option.pure_def, Option.some.injEq, List.flatMap_cons, refsOf_append, List.append_subset]
    constructor
    . rintro ⟨_, ⟨cs, hcs, css, hcss, rfl⟩, rfl⟩
      obtain ⟨rfl, hsub⟩ := (hhead cs).mp hcs
      obtain ⟨heq, hsub'⟩ := (htail css.flatten).mp (by rw [hcss, Option.map_some])
      exact ⟨by rw [List.flatten_cons, heq], hsub, hsub'⟩
    . rintro ⟨rfl, hsub, hsub'⟩
      have hcs := (hhead _).mpr ⟨rfl, hsub⟩
      have hcss := (htail _).mpr ⟨rfl, hsub'⟩
      rw [Option.map_eq_some_iff] at hcss
      obtain ⟨css, hcss, heq⟩ := hcss
      exact ⟨g' f :: css, ⟨g' f, hcs, css, hcss, rfl⟩, by rw [List.flatten_cons, heq]⟩

end EmitsClauses

section Bodies

variable (messages : List EncodeMessage)

def avoidOf (t : Target) (f : Place) : List Clause :=
  if f.1.array?.isSome then
    [.apartArray f]
  else
    match f.1.child? with
    | none => []
    | some c => [.each f (.pair (.inl (c, t))) .same]

def navoidOf (y : Nat) (f : Place) : List Clause :=
  match f.1.array?, f.1.child? with
  | some ctype, _ => [.swapped (.pair (.inl (y, .array ctype))) (.array f)]
  | none, some c => [.each f (.pair (.inr (c, y))) .same]
  | none, none => []

def arraysOf (f : Place) (c : Nat) (g : Place) : List Clause :=
  match g.1.array? with
  | none => []
  | some ctype => [.each f (.pair (.inl (c, .array ctype))) (.array g)]

def childOf (i : Nat) (f : Place) : List Clause :=
  match f.1.child? with
  | none => []
  | some c =>
    .each f (.valid c) .nothing :: .each f (.pair (.inl (c, .msg i))) .node
      :: (places messages i).flatMap (arraysOf f c)

def siblingOf (f : Place) (c : Nat) (g : Place) : List Clause :=
  match g.1.child? with
  | none => []
  | some d => [.siblings f g (.pair (.inr (c, d)))]

def elementOf (f : Place) (c : Nat) : List Clause :=
  if f.1.isRepMsg then [.elements f (.pair (.inr (c, c)))] else []

def siblingsOf : List Place → List Clause
  | [] => []
  | f :: rest =>
    match f.1.child? with
    | none => siblingsOf rest
    | some c => elementOf f c ++ rest.flatMap (siblingOf f c) ++ siblingsOf rest

def bufsepOf (f : Place) : List Clause :=
  (if f.1.isRep then [.apartArray f] else [])
    ++ (if f.1.hasPayload then [.apartPayload f] else [])
    ++ match f.1.child? with
      | none => []
      | some c => [.each f (.bufsep c) .same]

def logicBody : LogicPred → LogicBody
  | .pair (.inl (x, t)) => ⟨t.isArray, .apart :: (places messages x).flatMap (avoidOf t)⟩
  | .pair (.inr (x, y)) =>
    ⟨false, .swapped (.pair (.inl (y, .msg x))) .node :: (places messages x).flatMap (navoidOf y)⟩
  | .valid i =>
    ⟨false, .validNode :: ownClauses (places messages i) ++ (places messages i).flatMap (childOf messages i)
      ++ siblingsOf (places messages i)⟩
  | .bufsep i => ⟨true, .apart :: (places messages i).flatMap bufsepOf⟩

variable (named : List LogicPred)

theorem emits_avoidClauses (t : Target) (f : Place) : EmitsClauses named (avoidClauses named t f) (avoidOf t f) := by
  unfold avoidClauses avoidOf
  split
  . exact .pure rfl
  . split
    . exact .pure rfl
    . exact .lookup rfl

theorem emits_navoidClauses (y : Nat) (f : Place) : EmitsClauses named (navoidClauses named y f) (navoidOf y f) := by
  unfold navoidClauses navoidOf
  split
  . exact .lookup rfl
  . exact .lookup rfl
  . exact .pure rfl

theorem emits_arrayClauses (f : Place) (c : Nat) (g : Place)
    : EmitsClauses named (arrayClauses named f c g) (arraysOf f c g) := by
  unfold arrayClauses arraysOf
  split
  . exact .pure rfl
  . exact .lookup rfl

theorem emits_siblingClause (f : Place) (c : Nat) (g : Place)
    : EmitsClauses named (siblingClause named f c g) (siblingOf f c g) := by
  unfold siblingClause siblingOf
  split
  . exact .pure rfl
  . exact .lookup rfl

theorem emits_elementClause (f : Place) (c : Nat) : EmitsClauses named (elementClause named f c) (elementOf f c) := by
  unfold elementClause elementOf
  split
  . exact .lookup rfl
  . exact .pure rfl

theorem emits_childClauses (i : Nat) (f : Place)
    : EmitsClauses named (childClauses messages named i f) (childOf messages i f) := by
  unfold childClauses childOf
  split
  . exact .pure rfl
  . next c _ =>
    have harrays : EmitsClauses named (((places messages i).mapM (arrayClauses named f c)).map List.flatten)
        ((places messages i).flatMap (arraysOf f c)) := .mapM fun g _ => emits_arrayClauses named f c g
    intro cs'
    have hrefs (cs : List Clause)
        : refsOf (.each f (.valid c) .nothing :: .each f (.pair (.inl (c, .msg i))) .node :: cs) ⊆ named
            ↔ .valid c ∈ named ∧ .pair (.inl (c, .msg i)) ∈ named ∧ refsOf cs ⊆ named := by
      change _ :: _ :: refsOf cs ⊆ named ↔ _
      rw [List.cons_subset, List.cons_subset]
    rw [hrefs]
    simp only [Option.bind_eq_bind, Option.bind_eq_some_iff, findName_eq_some_iff, Option.some.injEq]
    constructor
    . rintro ⟨_, ⟨rfl, hself⟩, _, ⟨rfl, hvalid⟩, css, hcss, rfl⟩
      obtain ⟨heq, hsub⟩ := (harrays css.flatten).mp (by rw [hcss, Option.map_some])
      exact ⟨by rw [heq], hvalid, hself, hsub⟩
    . rintro ⟨rfl, hvalid, hself, hsub⟩
      have hcss := (harrays _).mpr ⟨rfl, hsub⟩
      rw [Option.map_eq_some_iff] at hcss
      obtain ⟨css, hcss, heq⟩ := hcss
      exact ⟨_, ⟨rfl, hself⟩, _, ⟨rfl, hvalid⟩, css, hcss, by rw [heq]⟩

theorem emits_siblingClauses (fs : List Place) : EmitsClauses named (siblingClauses named fs) (siblingsOf fs) := by
  induction fs with
  | nil => exact .pure rfl
  | cons f rest ih =>
    unfold siblingClauses siblingsOf
    split
    . exact ih
    . next c _ =>
      have hown := emits_elementClause named f c
      have hothers : EmitsClauses named ((rest.mapM (siblingClause named f c)).map List.flatten)
          (rest.flatMap (siblingOf f c)) := .mapM fun g _ => emits_siblingClause named f c g
      intro cs'
      simp only [Option.bind_eq_bind, Option.bind_eq_some_iff, Option.some.injEq, refsOf_append, List.append_subset]
      constructor
      . rintro ⟨own, hown', others, hothers', behind, hbehind, rfl⟩
        obtain ⟨rfl, hsub⟩ := (hown own).mp hown'
        obtain ⟨heq, hsub'⟩ := (hothers others.flatten).mp (by rw [hothers', Option.map_some])
        obtain ⟨rfl, hsub''⟩ := (ih behind).mp hbehind
        exact ⟨by rw [heq], ⟨hsub, hsub'⟩, hsub''⟩
      . rintro ⟨rfl, ⟨hsub, hsub'⟩, hsub''⟩
        have hothers' := (hothers _).mpr ⟨rfl, hsub'⟩
        rw [Option.map_eq_some_iff] at hothers'
        obtain ⟨others, hothers', heq⟩ := hothers'
        exact ⟨_, (hown _).mpr ⟨rfl, hsub⟩, others, hothers', _, (ih _).mpr ⟨rfl, hsub''⟩, by rw [heq]⟩

theorem refsOf_ownClauses (fs : List Place) : refsOf (ownClauses fs) = [] := by
  induction fs with
  | nil => rfl
  | cons f rest ih =>
    have harrays (gs : List Place) : refsOf (gs.map (.arrays f)) = [] := by
      simp [refsOf, Clause.callee?, List.filterMap_map]
    have hown (gs : List Place) : refsOf (.ownArray f :: gs.map (.arrays f)) = [] := harrays gs
    simp only [ownClauses, refsOf_append, ih, List.append_nil, List.append_eq_nil_iff]
    refine ⟨⟨?_, ?_⟩, ?_⟩
    . split <;> rfl
    . split <;> rfl
    . split
      . exact hown _
      . rfl

theorem emits_bufsepClauses (f : Place) : EmitsClauses named (bufsepClauses named f) (bufsepOf f) := by
  have hpure : refsOf ((if f.1.isRep then [.apartArray f] else [])
      ++ if f.1.hasPayload then [.apartPayload f] else []) = [] := by
    rw [refsOf_append, List.append_eq_nil_iff]
    constructor <;> split <;> rfl
  unfold bufsepClauses bufsepOf
  cases f.1.child? with
  | none =>
    rw [List.append_nil]
    exact .pure hpure
  | some c =>
    refine .lookup (g := fun callee => _ ++ _ ++ [.each f callee .same]) ?_
    rw [refsOf_append, hpure]
    rfl

theorem EmitsClauses.exists_flatten {o : Option (List (List Clause))} {cs cs' : List Clause}
    (h : EmitsClauses named (o.map List.flatten) cs)
    : (∃ css, o = some css ∧ css.flatten = cs') ↔ cs' = cs ∧ refsOf cs ⊆ named := by
  rw [← h cs', Option.map_eq_some_iff]

/--
A predicate can be emitted exactly if the names of those it refers to are there.
-/
theorem emitBody_eq_some_iff (p : LogicPred) (body : LogicBody)
    : emitBody messages named p = some body
        ↔ body = logicBody messages p ∧ refsOf (logicBody messages p).clauses ⊆ named := by
  obtain (⟨x, t⟩ | ⟨x, y⟩) | i | i := p
  . have hclauses : EmitsClauses named (((places messages x).mapM (avoidClauses named t)).map List.flatten)
        ((places messages x).flatMap (avoidOf t)) := .mapM fun f _ => emits_avoidClauses named t f
    simp only [emitBody, emitAvoid, logicBody, Option.bind_eq_bind, Option.bind_eq_some_iff, Option.some.injEq]
    constructor
    . rintro ⟨css, hcss, rfl⟩
      obtain ⟨heq, hsub⟩ := hclauses.exists_flatten.mp ⟨css, hcss, rfl⟩
      exact ⟨by rw [heq], hsub⟩
    . rintro ⟨rfl, hsub⟩
      obtain ⟨css, hcss, heq⟩ := hclauses.exists_flatten.mpr ⟨rfl, hsub⟩
      exact ⟨css, hcss, by rw [heq]⟩
  . have hclauses : EmitsClauses named (((places messages x).mapM (navoidClauses named y)).map List.flatten)
        ((places messages x).flatMap (navoidOf y)) := .mapM fun f _ => emits_navoidClauses named y f
    simp only [emitBody, emitNavoid, logicBody, Option.bind_eq_bind, Option.bind_eq_some_iff, Option.some.injEq,
      findName_eq_some_iff]
    change _ ↔ _ ∧ _ :: refsOf _ ⊆ named
    rw [List.cons_subset]
    constructor
    . rintro ⟨_, ⟨rfl, hself⟩, css, hcss, rfl⟩
      obtain ⟨heq, hsub⟩ := hclauses.exists_flatten.mp ⟨css, hcss, rfl⟩
      exact ⟨by rw [heq], hself, hsub⟩
    . rintro ⟨rfl, hself, hsub⟩
      obtain ⟨css, hcss, heq⟩ := hclauses.exists_flatten.mpr ⟨rfl, hsub⟩
      exact ⟨_, ⟨rfl, hself⟩, css, hcss, by rw [heq]⟩
  . have hchildren : EmitsClauses named (((places messages i).mapM (childClauses messages named i)).map List.flatten)
        ((places messages i).flatMap (childOf messages i)) := .mapM fun f _ => emits_childClauses messages named i f
    have hsiblings := emits_siblingClauses named (places messages i)
    simp only [emitBody, emitValid, logicBody, Option.bind_eq_bind, Option.bind_eq_some_iff, Option.some.injEq]
    change _ ↔ _ ∧ refsOf (ownClauses _ ++ _ ++ _) ⊆ named
    rw [refsOf_append, refsOf_append, refsOf_ownClauses, List.nil_append, List.append_subset]
    constructor
    . rintro ⟨css, hcss, cs, hcs, rfl⟩
      obtain ⟨heq, hsub⟩ := hchildren.exists_flatten.mp ⟨css, hcss, rfl⟩
      obtain ⟨rfl, hsub'⟩ := (hsiblings cs).mp hcs
      exact ⟨by rw [heq], hsub, hsub'⟩
    . rintro ⟨rfl, hsub, hsub'⟩
      obtain ⟨css, hcss, heq⟩ := hchildren.exists_flatten.mpr ⟨rfl, hsub⟩
      exact ⟨css, hcss, _, (hsiblings _).mpr ⟨rfl, hsub'⟩, by rw [heq]⟩
  . have hclauses : EmitsClauses named (((places messages i).mapM (bufsepClauses named)).map List.flatten)
        ((places messages i).flatMap bufsepOf) := .mapM fun f _ => emits_bufsepClauses named f
    simp only [emitBody, emitBufsep, logicBody, Option.bind_eq_bind, Option.bind_eq_some_iff, Option.some.injEq]
    constructor
    . rintro ⟨css, hcss, rfl⟩
      obtain ⟨heq, hsub⟩ := hclauses.exists_flatten.mp ⟨css, hcss, rfl⟩
      exact ⟨by rw [heq], hsub⟩
    . rintro ⟨rfl, hsub⟩
      obtain ⟨css, hcss, heq⟩ := hclauses.exists_flatten.mpr ⟨rfl, hsub⟩
      exact ⟨css, hcss, by rw [heq]⟩

end Bodies

/-! The order of the predicates. -/

/--
The message that a predicate is emitted with, its kind, and the first message of a pair.
-/
def LogicPred.rank : LogicPred → ℕ ×ₗ ℕ ×ₗ ℕ
  | .pair (.inl (x, t)) => toLex (Pair.pos (.inl (x, t)), toLex (0, x))
  | .pair (.inr (x, y)) => toLex (Pair.pos (.inr (x, y)), toLex (1, x))
  | .valid i => toLex (i, toLex (2, 0))
  | .bufsep i => toLex (i, toLex (3, 0))

theorem rank_lt_iff {a b c a' b' c' : ℕ}
    : (toLex (a, toLex (b, c)) : ℕ ×ₗ ℕ ×ₗ ℕ) < toLex (a', toLex (b', c'))
        ↔ a < a' ∨ a = a' ∧ (b < b' ∨ b = b' ∧ c < c') := by
  simp [Prod.Lex.lt_iff]

theorem rank_le_iff {a b c a' b' c' : ℕ}
    : (toLex (a, toLex (b, c)) : ℕ ×ₗ ℕ ×ₗ ℕ) ≤ toLex (a', toLex (b', c'))
        ↔ a < a' ∨ a = a' ∧ (b < b' ∨ b = b' ∧ c ≤ c') := by
  simp [Prod.Lex.le_iff]

theorem rank_inl (pr : AvoidPair) : (LogicPred.pair (.inl pr)).rank = toLex (Pair.pos (.inl pr), toLex (0, pr.1)) :=
  rfl

theorem rank_inr (pr : NavoidPair) : (LogicPred.pair (.inr pr)).rank = toLex (Pair.pos (.inr pr), toLex (1, pr.1)) :=
  rfl

section Stage

variable {γ : Type} {table : List (Nat × γ)} {inj : Nat × γ → Pair} {z : Nat}

theorem mem_stageOf (hle : ∀ pr, pr.1 ≤ (inj pr).pos) {x : Pair}
    : x ∈ stageOf table inj z ↔ ∃ pr ∈ table, (inj pr).pos = z ∧ inj pr = x := by
  simp only [stageOf, List.mem_flatMap, List.mem_range, List.mem_map, List.mem_filter, decide_eq_true_eq]
  constructor
  . rintro ⟨x', -, pr, ⟨hpr, -, hpos⟩, rfl⟩
    exact ⟨pr, hpr, hpos, rfl⟩
  . rintro ⟨pr, hpr, rfl, rfl⟩
    have := hle pr
    exact ⟨pr.1, by omega, pr, ⟨hpr, rfl, rfl⟩, rfl⟩

theorem stageOf_sorted {kind : ℕ}
    (hrank : ∀ pr, (LogicPred.pair (inj pr)).rank = toLex ((inj pr).pos, toLex (kind, pr.1)))
    : (stageOf table inj z).Pairwise fun a b => (LogicPred.pair a).rank ≤ (LogicPred.pair b).rank := by
  unfold stageOf
  rw [List.pairwise_flatMap]
  constructor
  . intro x _
    rw [List.pairwise_map, List.pairwise_iff_forall_sublist]
    intro pr pr' hsub
    have hpr := hsub.subset List.mem_cons_self
    have hpr' := hsub.subset (List.mem_cons_of_mem _ List.mem_cons_self)
    simp only [List.mem_filter, decide_eq_true_eq] at hpr hpr'
    rw [hrank, hrank, rank_le_iff]
    omega
  . apply List.pairwise_lt_range.imp
    simp only [List.mem_map, List.mem_filter, decide_eq_true_eq]
    rintro x x' hlt _ ⟨pr, hpr, rfl⟩ _ ⟨pr', hpr', rfl⟩
    rw [hrank, hrank, rank_le_iff]
    omega

theorem stageOf_nodup (hinj : Function.Injective inj) (hnodup : table.Nodup) : (stageOf table inj z).Nodup := by
  unfold stageOf
  rw [List.nodup_flatMap]
  constructor
  . intro x _
    exact (hnodup.filter _).map hinj
  . apply List.pairwise_lt_range.imp
    intro x x' hlt y hy hy'
    simp only [List.mem_map, List.mem_filter, decide_eq_true_eq] at hy hy'
    obtain ⟨pr, hpr, rfl⟩ := hy
    obtain ⟨pr', hpr', heq⟩ := hy'
    have := hinj heq
    subst this
    omega

end Stage

namespace EncodePlan

variable {plan : EncodePlan}

theorem isOk_eq_true_iff {i : Nat} : plan.isOk i = true ↔ IsOk plan.messages i := by
  unfold isOk IsOk
  split <;> simp_all

theorem inl_le_pos (pr : AvoidPair) : pr.1 ≤ Pair.pos (.inl pr) := by
  obtain ⟨x, t⟩ := pr
  cases t <;> simp [Pair.pos]

theorem inr_le_pos (pr : NavoidPair) : pr.1 ≤ Pair.pos (.inr pr) := by
  simp [Pair.pos]

theorem mem_stagePairs {z : Nat} {x : Pair} : x ∈ plan.stagePairs z ↔ plan.Has x ∧ x.pos = z := by
  rw [stagePairs, List.mem_append, mem_stageOf inl_le_pos, mem_stageOf inr_le_pos]
  cases x with
  | inl pr => simp [Has]
  | inr pr => simp [Has]

theorem mem_script_iff {p : LogicPred}
    : p ∈ plan.script
        ↔ match p with
          | .pair x => plan.Has x ∧ IsOk plan.messages x.pos
          | .valid i => IsOk plan.messages i
          | .bufsep i => IsOk plan.messages i := by
  have hlt {i : Nat} (h : IsOk plan.messages i) : i < plan.messages.length := h.lt
  simp only [script, stage, List.mem_flatMap, List.mem_filter, List.mem_range, isOk_eq_true_iff, List.mem_append,
    List.mem_map, List.mem_cons, List.not_mem_nil, or_false, mem_stagePairs]
  cases p with
  | pair x => grind
  | valid i => grind
  | bufsep i => grind

theorem Sound.isOk_pos (h : plan.Sound) {x : Pair} (hx : plan.Has x) : IsOk plan.messages x.pos := by
  have hok := h.ok hx
  obtain ⟨x, i | ctype⟩ | ⟨x, y⟩ := x
  . change IsOk plan.messages (max x i)
    rcases max_choice x i with heq | heq <;> rw [heq]
    . exact hok.1
    . exact hok.2
  . exact hok.1
  . change IsOk plan.messages (max x y)
    rcases max_choice x y with heq | heq <;> rw [heq]
    . exact hok.1
    . exact hok.2

theorem rank_stagePairs {z : Nat} {x : Pair} (hx : x ∈ plan.stagePairs z)
    : ∃ b c, b < 2 ∧ (LogicPred.pair x).rank = toLex (z, toLex (b, c)) := by
  have hpos := (mem_stagePairs.mp hx).2
  cases x with
  | inl pr => exact ⟨0, pr.1, by omega, by rw [rank_inl, hpos]⟩
  | inr pr => exact ⟨1, pr.1, by omega, by rw [rank_inr, hpos]⟩

theorem stagePairs_sorted (z : Nat)
    : (plan.stagePairs z).Pairwise fun a b => (LogicPred.pair a).rank ≤ (LogicPred.pair b).rank := by
  rw [stagePairs, List.pairwise_append]
  refine ⟨stageOf_sorted rank_inl, stageOf_sorted rank_inr, ?_⟩
  intro x hx y hy
  obtain ⟨pr, -, hpos, rfl⟩ := (mem_stageOf inl_le_pos).mp hx
  obtain ⟨pr', -, hpos', rfl⟩ := (mem_stageOf inr_le_pos).mp hy
  rw [rank_inl, rank_inr, rank_le_iff]
  omega

theorem stage_rank {z : Nat} {p : LogicPred} (hp : p ∈ plan.stage z) : ∃ b c, p.rank = toLex (z, toLex (b, c)) := by
  rcases List.mem_append.mp hp with hp | hp
  . obtain ⟨x, hx, rfl⟩ := List.mem_map.mp hp
    obtain ⟨b, c, -, hrank⟩ := rank_stagePairs hx
    exact ⟨b, c, hrank⟩
  . simp only [List.mem_cons, List.not_mem_nil, or_false] at hp
    rcases hp with rfl | rfl <;> exact ⟨_, _, rfl⟩

theorem stage_sorted (z : Nat) : (plan.stage z).Pairwise fun p q => p.rank ≤ q.rank := by
  rw [stage, List.pairwise_append, List.pairwise_map]
  refine ⟨stagePairs_sorted z, ?_, ?_⟩
  . simp [LogicPred.rank, rank_le_iff]
  . intro _ hp q hq
    obtain ⟨x, hx, rfl⟩ := List.mem_map.mp hp
    obtain ⟨b, c, hb, hrank⟩ := rank_stagePairs hx
    simp only [List.mem_cons, List.not_mem_nil, or_false] at hq
    rw [hrank]
    rcases hq with rfl | rfl <;> rw [LogicPred.rank, rank_le_iff] <;> omega

theorem script_sorted (plan : EncodePlan) : plan.script.Pairwise fun p q => p.rank ≤ q.rank := by
  rw [script, List.pairwise_flatMap]
  refine ⟨fun z _ => stage_sorted z, ?_⟩
  apply (List.pairwise_lt_range.filter _).imp
  intro z z' hlt p hp q hq
  obtain ⟨b, c, hp⟩ := stage_rank hp
  obtain ⟨b', c', hq⟩ := stage_rank hq
  rw [hp, hq, rank_le_iff]
  omega

theorem Sound.stage_nodup (h : plan.Sound) (z : Nat) : (plan.stage z).Nodup := by
  have hpairs : (plan.stagePairs z).Nodup := by
    rw [stagePairs, List.nodup_append']
    refine ⟨stageOf_nodup Sum.inl_injective h.avoid_nodup, stageOf_nodup Sum.inr_injective h.navoid_nodup, ?_⟩
    intro x hx hy
    obtain ⟨pr, -, -, rfl⟩ := (mem_stageOf inl_le_pos).mp hx
    obtain ⟨pr', -, -, heq⟩ := (mem_stageOf inr_le_pos).mp hy
    cases heq
  rw [stage, List.nodup_append']
  refine ⟨hpairs.map fun x y heq => by cases heq; rfl, by simp, ?_⟩
  intro p hp hp'
  obtain ⟨x, -, rfl⟩ := List.mem_map.mp hp
  simp at hp'

theorem Sound.script_nodup (h : plan.Sound) : plan.script.Nodup := by
  rw [script, List.nodup_flatMap]
  refine ⟨fun z _ => h.stage_nodup z, ?_⟩
  apply (List.pairwise_lt_range.filter _).imp
  intro z z' hlt p hp hp'
  obtain ⟨b, c, hp⟩ := stage_rank hp
  obtain ⟨b', c', hp'⟩ := stage_rank hp'
  rw [hp, toLex_inj, Prod.mk.injEq] at hp'
  omega

end EncodePlan

/-! References. -/

/--
Predicate `p` names predicate `q`.
-/
inductive RefersTo (messages : List EncodeMessage) : LogicPred → LogicPred → Prop where
  | pair {x y : Pair} (h : Needs messages x y) : RefersTo messages (.pair x) (.pair y)
  | seed {i : Nat} {x : Pair} (h : Seed i (fieldsOf messages i) x) : RefersTo messages (.valid i) (.pair x)
  | valid {i c : Nat} {f : EncodeField} (hf : f ∈ fieldsOf messages i) (hc : f.child? = some c)
      : RefersTo messages (.valid i) (.valid c)
  | bufsep {i c : Nat} {f : EncodeField} (hf : f ∈ fieldsOf messages i) (hc : f.child? = some c)
      : RefersTo messages (.bufsep i) (.bufsep c)

section References

variable {messages : List EncodeMessage}

theorem places_fst (i : Nat) : (places messages i).map Prod.fst = fieldsOf messages i :=
  List.zipIdx_map_fst 0 _

theorem mem_fieldsOf_of_places {i : Nat} {f : Place} (hf : f ∈ places messages i) : f.1 ∈ fieldsOf messages i := by
  rw [← places_fst]
  exact List.mem_map_of_mem hf

theorem mem_refsOf_flatMap {l : List Place} {g : Place → List Clause} {q : LogicPred}
    : q ∈ refsOf (l.flatMap g) ↔ ∃ f ∈ l, q ∈ refsOf (g f) := by
  simp only [refsOf, List.mem_filterMap, List.mem_flatMap]
  grind

theorem mem_refsOf_avoidOf {t : Target} {f : Place} {q : LogicPred} (h : q ∈ refsOf (avoidOf t f))
    : ∃ c, f.1.child? = some c ∧ q = .pair (.inl (c, t)) := by
  unfold avoidOf at h
  split at h
  . simp [refsOf, Clause.callee?] at h
  . split at h
    . simp [refsOf] at h
    . next c hc => exact ⟨c, hc, by simpa [refsOf, Clause.callee?] using h⟩

theorem mem_refsOf_navoidOf {y : Nat} {f : Place} {q : LogicPred} (h : q ∈ refsOf (navoidOf y f))
    : (∃ ctype, f.1.array? = some ctype ∧ q = .pair (.inl (y, .array ctype)))
      ∨ ∃ c, f.1.child? = some c ∧ q = .pair (.inr (c, y)) := by
  unfold navoidOf at h
  split at h
  . next ctype hctype => exact .inl ⟨ctype, hctype, by simpa [refsOf, Clause.callee?] using h⟩
  . next c _ hc => exact .inr ⟨c, hc, by simpa [refsOf, Clause.callee?] using h⟩
  . simp [refsOf] at h

theorem mem_refsOf_childOf {i : Nat} {f : Place} {q : LogicPred} (h : q ∈ refsOf (childOf messages i f))
    : ∃ c, f.1.child? = some c
      ∧ (q = .valid c ∨ q = .pair (.inl (c, .msg i))
        ∨ ∃ g ∈ places messages i, ∃ ctype, g.1.array? = some ctype ∧ q = .pair (.inl (c, .array ctype))) := by
  unfold childOf at h
  split at h
  . simp [refsOf] at h
  . next c hc =>
    refine ⟨c, hc, ?_⟩
    change q ∈ _ :: _ :: refsOf _ at h
    rw [List.mem_cons, List.mem_cons, mem_refsOf_flatMap] at h
    rcases h with rfl | rfl | ⟨g, hg, h⟩
    . exact .inl rfl
    . exact .inr (.inl rfl)
    . unfold arraysOf at h
      split at h
      . simp [refsOf] at h
      . next ctype hctype => exact .inr (.inr ⟨g, hg, ctype, hctype, by simpa [refsOf, Clause.callee?] using h⟩)

theorem mem_refsOf_siblingsOf {fs : List Place} {q : LogicPred} (h : q ∈ refsOf (siblingsOf fs))
    : ∃ before f behind c, fs = before ++ f :: behind ∧ f.1.child? = some c
      ∧ (f.1.isRepMsg = true ∧ q = .pair (.inr (c, c))
        ∨ ∃ g ∈ behind, ∃ d, g.1.child? = some d ∧ q = .pair (.inr (c, d))) := by
  induction fs with
  | nil => simp [siblingsOf, refsOf] at h
  | cons f rest ih =>
    have hrest (h : q ∈ refsOf (siblingsOf rest)) : ∃ before f' behind c, f :: rest = before ++ f' :: behind
        ∧ f'.1.child? = some c ∧ (f'.1.isRepMsg = true ∧ q = .pair (.inr (c, c))
          ∨ ∃ g ∈ behind, ∃ d, g.1.child? = some d ∧ q = .pair (.inr (c, d))) := by
      obtain ⟨before, f', behind, c, rfl, h'⟩ := ih h
      exact ⟨f :: before, f', behind, c, rfl, h'⟩
    unfold siblingsOf at h
    split at h
    . exact hrest h
    . next c hc =>
      rw [refsOf_append, refsOf_append, List.mem_append, List.mem_append, mem_refsOf_flatMap] at h
      rcases h with (h | ⟨g, hg, h⟩) | h
      . unfold elementOf at h
        split at h
        . next hrep => exact ⟨[], f, rest, c, rfl, hc, .inl ⟨hrep, by simpa [refsOf, Clause.callee?] using h⟩⟩
        . simp [refsOf] at h
      . unfold siblingOf at h
        split at h
        . simp [refsOf] at h
        . next d hd =>
          exact ⟨[], f, rest, c, rfl, hc, .inr ⟨g, hg, d, hd, by simpa [refsOf, Clause.callee?] using h⟩⟩
      . exact hrest h

theorem mem_refsOf_bufsepOf {f : Place} {q : LogicPred} (h : q ∈ refsOf (bufsepOf f))
    : ∃ c, f.1.child? = some c ∧ q = .bufsep c := by
  unfold bufsepOf at h
  rw [refsOf_append, refsOf_append, List.mem_append, List.mem_append] at h
  rcases h with (h | h) | h
  . split at h <;> simp [refsOf, Clause.callee?] at h
  . split at h <;> simp [refsOf, Clause.callee?] at h
  . split at h
    . simp [refsOf] at h
    . next c hc => exact ⟨c, hc, by simpa [refsOf, Clause.callee?] using h⟩

theorem refersTo_of_mem {p q : LogicPred} (h : q ∈ refsOf (logicBody messages p).clauses) : RefersTo messages p q := by
  obtain (⟨x, t⟩ | ⟨x, y⟩) | i | i := p
  . change q ∈ refsOf (List.flatMap _ _) at h
    obtain ⟨f, hf, h⟩ := mem_refsOf_flatMap.mp h
    obtain ⟨c, hc, rfl⟩ := mem_refsOf_avoidOf h
    exact .pair (.avoid (mem_fieldsOf_of_places hf) hc)
  . change q ∈ _ :: refsOf (List.flatMap _ _) at h
    rw [List.mem_cons] at h
    rcases h with rfl | h
    . exact .pair .self
    . obtain ⟨f, hf, h⟩ := mem_refsOf_flatMap.mp h
      rcases mem_refsOf_navoidOf h with ⟨ctype, hctype, rfl⟩ | ⟨c, hc, rfl⟩
      . exact .pair (.array (mem_fieldsOf_of_places hf) hctype)
      . exact .pair (.navoid (mem_fieldsOf_of_places hf) hc)
  . change q ∈ refsOf (ownClauses _ ++ _ ++ _) at h
    rw [refsOf_append, refsOf_append, refsOf_ownClauses, List.nil_append, List.mem_append] at h
    rcases h with h | h
    . obtain ⟨f, hf, h⟩ := mem_refsOf_flatMap.mp h
      have hf := mem_fieldsOf_of_places hf
      obtain ⟨c, hc, rfl | rfl | ⟨g, hg, ctype, hctype, rfl⟩⟩ := mem_refsOf_childOf h
      . exact .valid hf hc
      . exact .seed (.self hf hc)
      . exact .seed (.array hf hc (mem_fieldsOf_of_places hg) hctype)
    . obtain ⟨before, f, behind, c, heq, hc, h⟩ := mem_refsOf_siblingsOf h
      have hfields : fieldsOf messages i = before.map Prod.fst ++ f.1 :: behind.map Prod.fst := by
        rw [← places_fst, heq, List.map_append, List.map_cons]
      rcases h with ⟨hrep, rfl⟩ | ⟨g, hg, d, hd, rfl⟩
      . exact .seed (.element (by simp [hfields]) hrep hc)
      . exact .seed (.sibling hfields hc (List.mem_map_of_mem hg) hd)
  . change q ∈ refsOf (List.flatMap _ _) at h
    obtain ⟨f, hf, h⟩ := mem_refsOf_flatMap.mp h
    obtain ⟨c, hc, rfl⟩ := mem_refsOf_bufsepOf h
    exact .bufsep (mem_fieldsOf_of_places hf) hc

theorem Needs.rank_lt (h : Planned messages) {x y : Pair} (hneeds : Needs messages x y)
    : (LogicPred.pair y).rank < (LogicPred.pair x).rank := by
  cases hneeds with
  | @avoid x c t f hf hc =>
    have hlt := (h.child x f hf c hc).1
    rw [rank_inl, rank_inl, rank_lt_iff]
    cases t <;> simp only [Pair.pos, true_and] <;> omega
  | self =>
    rw [rank_inl, rank_inr, rank_lt_iff]
    simp only [Pair.pos]
    omega
  | array =>
    rw [rank_inl, rank_inr, rank_lt_iff]
    simp only [Pair.pos]
    omega
  | @navoid x y c f hf hc =>
    have hlt := (h.child x f hf c hc).1
    rw [rank_inr, rank_inr, rank_lt_iff]
    simp only [Pair.pos, true_and]
    omega

theorem Seed.rank_lt (h : Planned messages) {i : Nat} {x : Pair} (hseed : Seed i (fieldsOf messages i) x)
    : (LogicPred.pair x).rank < (LogicPred.valid i).rank := by
  have hvalid : (LogicPred.valid i).rank = toLex (i, toLex (2, 0)) := rfl
  have hchild {f : EncodeField} {c : Nat} (hf : f ∈ fieldsOf messages i) (hc : f.child? = some c) : c < i :=
    (h.child i f hf c hc).1
  cases hseed with
  | self hf hc =>
    have := hchild hf hc
    rw [rank_inl, hvalid, rank_lt_iff]
    simp only [Pair.pos]
    omega
  | array hf hc =>
    have := hchild hf hc
    rw [rank_inl, hvalid, rank_lt_iff]
    simp only [Pair.pos]
    omega
  | sibling hfields hc hg hd =>
    have := hchild (by simp [hfields]) hc
    have := hchild (by simp [hfields, hg]) hd
    rw [rank_inr, hvalid, rank_lt_iff]
    simp only [Pair.pos]
    omega
  | element hf _ hc =>
    have := hchild hf hc
    rw [rank_inr, hvalid, rank_lt_iff]
    simp only [Pair.pos]
    omega

end References

namespace EncodePlan

variable {plan : EncodePlan}

theorem Sound.refersTo (h : plan.Sound) {p q : LogicPred} (hp : p ∈ plan.script) (href : RefersTo plan.messages p q)
    : q ∈ plan.script ∧ q.rank < p.rank := by
  rw [mem_script_iff] at hp ⊢
  cases href with
  | pair hneeds =>
    have hy := h.needs hp.1 hneeds
    exact ⟨⟨hy, h.isOk_pos hy⟩, hneeds.rank_lt h.planned⟩
  | @seed i x hseed =>
    obtain ⟨e, he, hok⟩ := hp
    have hx := h.seeded ⟨i, e, he, hok, fieldsOf_eq he ▸ hseed⟩
    exact ⟨⟨hx, h.isOk_pos hx⟩, hseed.rank_lt h.planned⟩
  | @valid i c f hf hc =>
    obtain ⟨hlt, hok⟩ := h.planned.child i f hf c hc
    refine ⟨hok, ?_⟩
    rw [LogicPred.rank, LogicPred.rank, rank_lt_iff]
    exact .inl hlt
  | @bufsep i c f hf hc =>
    obtain ⟨hlt, hok⟩ := h.planned.child i f hf c hc
    refine ⟨hok, ?_⟩
    rw [LogicPred.rank, LogicPred.rank, rank_lt_iff]
    exact .inl hlt

/--
What the emission of a file leaves: the predicates of the script, each with its body, and behind those
that it names.
-/
structure Emitted (plan : EncodePlan) (defs : List (LogicPred × LogicBody)) : Prop where
  names : defs.map Prod.fst = plan.script
  body : ∀ d ∈ defs, d.2 = logicBody plan.messages d.1
  ordered : Logic.Ordered (fun body : LogicBody => refsOf body.clauses) defs

theorem Sound.exists_emitLogic (h : plan.Sound) : ∃ defs, plan.emitLogic = some defs ∧ plan.Emitted defs := by
  have hnext : ∀ before p behind, plan.script = before ++ p :: behind
      → ∃ body, emitBody plan.messages ([] ++ before) p = some body := by
    intro before p behind heq
    refine ⟨logicBody plan.messages p, (emitBody_eq_some_iff _ _ _ _).mpr ⟨rfl, ?_⟩⟩
    intro q hq
    obtain ⟨hmem, hlt⟩ := h.refersTo (by simp [heq]) (refersTo_of_mem hq)
    exact Logic.mem_before_of_rank_lt plan.script_sorted heq hmem hlt
  have hempty : Logic.MadeInOrder (emitBody plan.messages) [] := by
    intro before d behind heq
    simp at heq
  obtain ⟨defs, hemit, hnames, hmade⟩ := Logic.exists_emit [] hempty hnext
  rw [List.map_nil, List.nil_append] at hnames
  have hbody (before : List (LogicPred × LogicBody)) (d : LogicPred × LogicBody)
      (behind : List (LogicPred × LogicBody)) (heq : defs = before ++ d :: behind) :=
    (emitBody_eq_some_iff _ _ _ _).mp (hmade before d behind heq)
  refine ⟨defs, hemit, hnames, ?_, hnames ▸ h.script_nodup, ?_⟩
  . intro d hd
    obtain ⟨before, behind, heq⟩ := List.append_of_mem hd
    exact (hbody before d behind heq).1
  . intro before d behind heq
    obtain ⟨hd, hsub⟩ := hbody before d behind heq
    rwa [hd]

end EncodePlan

end Gremlin
