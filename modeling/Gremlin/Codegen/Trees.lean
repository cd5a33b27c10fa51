import Gremlin.Codegen.Separation

/-!
This module contains what the predicates of the contracts mean: of the tree of messages that hangs on
a message, that its objects are apart from a target, from another tree and from each other.
-/

namespace Gremlin

open Gremlin.Graph Memory Naming

/-! The tree of a message. -/

/--
A message of the plan at an address.
-/
abbrev Node := Nat × Addr

section Tree

variable (H : Heap) (messages : List EncodeMessage)

def below (n : Node) : List Node :=
  (places messages n.1).flatMap fun f =>
    match f.1.child? with
    | none => []
    | some c => (H.children n.1 n.2 f).map fun a => (c, a)

/--
The struct of a message and its value arrays.
-/
def own (n : Node) : List Region :=
  H.node n.1 n.2
    :: ((places messages n.1).filter fun f => f.1.array?.isSome && H.count n.1 n.2 f.2 != 0).map (H.array n.1 n.2)

/--
What the encoder reads of a message: its struct, its arrays and the bytes that it points to.
-/
def extent (n : Node) : List Region :=
  H.node n.1 n.2
    :: ((places messages n.1).filter fun f => f.1.isRep && H.count n.1 n.2 f.2 != 0).map (H.array n.1 n.2)
    ++ ((places messages n.1).flatMap (H.payloads n.1 n.2)).filter fun r => r.size != 0

def treeNodes (i : Nat) (m : Addr) : List Node :=
  Unfold.nodes (below H messages) Prod.fst (i, m)

def treeObjects (i : Nat) (m : Addr) : List Region :=
  Unfold.objects (below H messages) Prod.fst (own H messages) (i, m)

/--
The struct of a message can be written, for its `_size`, and all else can be read.
-/
structure Accessible (n : Node) : Prop where
  node : H.Writable (H.node n.1 n.2)
  array : ∀ f ∈ places messages n.1, f.1.isRep = true → H.count n.1 n.2 f.2 ≠ 0 → H.Readable (H.array n.1 n.2 f)
  payload : ∀ f ∈ places messages n.1, ∀ r ∈ H.payloads n.1 n.2 f, r.size ≠ 0 → H.Readable r

end Tree

section Below

variable {H : Heap} {messages : List EncodeMessage}

theorem mem_below {n n' : Node}
    : n' ∈ below H messages n
        ↔ ∃ f ∈ places messages n.1, f.1.child? = some n'.1 ∧ n'.2 ∈ H.children n.1 n.2 f := by
  simp only [below, List.mem_flatMap]
  apply exists_congr
  intro f
  apply and_congr_right'
  cases f.1.child? with
  | none => simp
  | some c =>
    obtain ⟨c', a⟩ := n'
    simp only [List.mem_map, Prod.mk.injEq, Option.some.injEq]
    grind

theorem forall_below {n : Node} {P : Node → Prop}
    : (∀ n' ∈ below H messages n, P n')
        ↔ ∀ f ∈ places messages n.1, ∀ c, f.1.child? = some c → ∀ a ∈ H.children n.1 n.2 f, P (c, a) := by
  constructor
  . intro h f hf c hc a ha
    exact h (c, a) (mem_below.mpr ⟨f, hf, hc, ha⟩)
  . rintro h ⟨c, a⟩ hn'
    obtain ⟨f, hf, hc, ha⟩ := mem_below.mp hn'
    exact h f hf c hc a ha

theorem Planned.below_lt (h : Planned messages) (n : Node) : ∀ n' ∈ below H messages n, n'.1 < n.1 := by
  intro n' hn'
  obtain ⟨f, hf, hc, -⟩ := mem_below.mp hn'
  exact (h.child n.1 f.1 (mem_fieldsOf_of_places hf) n'.1 hc).1

theorem Planned.forall_treeObjects (h : Planned messages) {i : Nat} {m : Addr} {P : Region → Prop}
    : (∀ r ∈ treeObjects H messages i m, P r)
        ↔ (∀ r ∈ own H messages (i, m), P r)
          ∧ ∀ f ∈ places messages i, ∀ c, f.1.child? = some c
            → ∀ a ∈ H.children i m f, ∀ r ∈ treeObjects H messages c a, P r := by
  unfold treeObjects
  rw [Unfold.forall_objects_iff h.below_lt, forall_below]

theorem Planned.forall_treeNodes (h : Planned messages) {i : Nat} {m : Addr} {P : Node → Prop}
    : (∀ n ∈ treeNodes H messages i m, P n)
        ↔ P (i, m)
          ∧ ∀ f ∈ places messages i, ∀ c, f.1.child? = some c
            → ∀ a ∈ H.children i m f, ∀ n ∈ treeNodes H messages c a, P n := by
  unfold treeNodes
  rw [Unfold.forall_nodes_iff h.below_lt, forall_below]

theorem forall_own {i : Nat} {m : Addr} {P : Region → Prop}
    : (∀ r ∈ own H messages (i, m), P r)
        ↔ P (H.node i m)
          ∧ ∀ f ∈ places messages i, f.1.array?.isSome = true → H.count i m f.2 = 0 ∨ P (H.array i m f) := by
  rw [own, List.forall_mem_cons]
  apply and_congr_right'
  simp only [List.forall_mem_map, List.mem_filter, Bool.and_eq_true, bne_iff_ne]
  grind

end Below

/-! The equations of the predicates. -/

theorem separated_of_size_eq_zero {r s : Region} (h : r.size = 0) : Separated r s := by
  unfold Separated Region.addresses
  rw [h, Nat.add_zero, Finset.Ico_self]
  exact disjoint_bot_left

theorem Separated.symm {r s : Region} (h : Separated r s) : Separated s r :=
  Disjoint.symm h

theorem Arg.IsEmpty.size_eq_zero {H : Heap} {arg : Arg} (h : arg.IsEmpty) : (arg.region H).size = 0 := by
  cases arg with
  | nothing => exact h.elim
  | node i p => exact h.elim
  | array ctype p n =>
    change n * H.elemSize ctype = 0
    rw [show n = 0 from h, Nat.zero_mul]
  | buffer b lo hi =>
    change (hi - lo + 1).toNat = 0
    have : hi < lo := h
    omega

theorem Clause.holds_congr {H : Heap} {env env' : LogicPred → Meaning} {i : Nat} {m : Addr} {arg : Arg} {c : Clause}
    (h : ∀ q, c.callee? = some q → env q = env' q) : c.Holds H env i m arg ↔ c.Holds H env' i m arg := by
  cases c with
  | each f callee rest => simp only [Holds, h callee rfl]
  | swapped callee rest => simp only [Holds, h callee rfl]
  | siblings f g callee => simp only [Holds, h callee rfl]
  | elements f callee => simp only [Holds, h callee rfl]
  | _ => rfl

theorem LogicBody.local_holds (H : Heap)
    : Logic.Local (fun env (p : LogicPred) (body : LogicBody) m arg => body.Holds H env p.subject m arg)
        fun body => refsOf body.clauses := by
  intro env env' p body h
  funext m arg
  have hclauses : (∀ c ∈ body.clauses, c.Holds H env p.subject m arg)
      ↔ ∀ c ∈ body.clauses, c.Holds H env' p.subject m arg := by
    apply forall₂_congr
    intro c hc
    exact Clause.holds_congr fun q hq => h q (List.mem_filterMap.mpr ⟨c, hc, hq⟩)
  exact propext (or_congr_right hclauses)

theorem LogicBody.holds_of_unguarded {H : Heap} {env : LogicPred → Meaning} {i : Nat} {m : Addr} {arg : Arg}
    {body : LogicBody} (h : body.guarded = false)
    : body.Holds H env i m arg ↔ ∀ c ∈ body.clauses, c.Holds H env i m arg := by
  simp [LogicBody.Holds, h]

theorem EncodePlan.Emitted.meaning_iff {plan : EncodePlan} {defs : List (LogicPred × LogicBody)}
    (h : plan.Emitted defs) {H : Heap} {p : LogicPred} (hp : p ∈ plan.script) (m : Addr) (arg : Arg)
    : meaning H defs p m arg ↔ (logicBody plan.messages p).Holds H (meaning H defs) p.subject m arg := by
  rw [← h.names, List.mem_map] at hp
  obtain ⟨⟨p, body⟩, hd, rfl⟩ := hp
  have heq : meaning H defs p = fun m arg => body.Holds H (meaning H defs) p.subject m arg :=
    h.ordered.denote_eq (LogicBody.local_holds H) hd
  have hbody : body = logicBody plan.messages p := h.body _ hd
  change meaning H defs p m arg ↔ _
  rw [← hbody, heq]

/-! What the predicates mean. -/

theorem forall_mem_flatMap {l : List Place} {g : Place → List Clause} {P : Clause → Prop}
    : (∀ c ∈ l.flatMap g, P c) ↔ ∀ f ∈ l, ∀ c ∈ g f, P c := by
  simp only [List.mem_flatMap]
  grind

section Meaning

variable {plan : EncodePlan} {defs : List (LogicPred × LogicBody)} {H : Heap}

theorem avoidOf_holds {env : LogicPred → Meaning} {i : Nat} {m : Addr} {arg : Arg} {t : Target} {f : Place}
    : (∀ c ∈ avoidOf t f, c.Holds H env i m arg)
        ↔ (f.1.array?.isSome = true → H.count i m f.2 = 0 ∨ Separated (arg.region H) (H.array i m f))
          ∧ ∀ c, f.1.child? = some c → ∀ a ∈ H.children i m f, env (.pair (.inl (c, t))) a arg := by
  obtain ⟨f, j⟩ := f
  cases f <;> simp [avoidOf, EncodeField.array?, EncodeField.child?, Clause.Holds, Rest.arg, Heap.children]

theorem EncodePlan.Emitted.avoid_iff (h : plan.Emitted defs) (hsound : plan.Sound) {x : Nat} {t : Target}
    (hx : plan.Has (.inl (x, t))) (m : Addr) (arg : Arg)
    : meaning H defs (.pair (.inl (x, t))) m arg
        ↔ ∀ r ∈ treeObjects H plan.messages x m, Separated (arg.region H) r := by
  induction x using Nat.strong_induction_on generalizing m with
  | _ x ih =>
    have hscript : LogicPred.pair (.inl (x, t)) ∈ plan.script := EncodePlan.mem_script_iff.mpr ⟨hx, hsound.isOk_pos hx⟩
    have hclauses : (∀ c ∈ (logicBody plan.messages (.pair (.inl (x, t)))).clauses,
          c.Holds H (meaning H defs) x m arg)
        ↔ ∀ r ∈ treeObjects H plan.messages x m, Separated (arg.region H) r := by
      rw [hsound.planned.forall_treeObjects, forall_own, and_assoc]
      change (∀ c ∈ Clause.apart :: _, _) ↔ _
      rw [List.forall_mem_cons, forall_mem_flatMap]
      apply and_congr_right'
      rw [← forall₂_and]
      apply forall₂_congr
      intro f hf
      rw [avoidOf_holds]
      apply and_congr_right'
      apply forall₄_congr
      intro c hc a ha
      have hf := mem_fieldsOf_of_places hf
      exact ih c (hsound.planned.child x f.1 hf c hc).1 (hsound.needs hx (.avoid hf hc)) a
    rw [h.meaning_iff hscript]
    unfold LogicBody.Holds
    rw [LogicPred.subject, hclauses, or_iff_right_of_imp]
    rintro ⟨-, hempty⟩ r -
    exact separated_of_size_eq_zero hempty.size_eq_zero

theorem navoidOf_holds {env : LogicPred → Meaning} {i y y' : Nat} {m t : Addr} {f : Place}
    : (∀ c ∈ navoidOf y f, c.Holds H env i m (.node y' t))
        ↔ (∀ ctype, f.1.array? = some ctype → env (.pair (.inl (y, .array ctype))) t
              (.array ctype (H.pointer i m f.2) (H.count i m f.2)))
          ∧ ∀ c, f.1.child? = some c → ∀ a ∈ H.children i m f, env (.pair (.inr (c, y))) a (.node y' t) := by
  obtain ⟨f, j⟩ := f
  cases f <;> simp [navoidOf, EncodeField.array?, EncodeField.child?, Clause.Holds, Rest.arg, Heap.children]

theorem region_array {i : Nat} {m : Addr} {f : Place} {ctype : Spelling} (h : f.1.array? = some ctype)
    : (Arg.array ctype (H.pointer i m f.2) (H.count i m f.2)).region H = H.array i m f := by
  rw [Arg.region, Heap.array, h]

theorem size_array_eq_zero {i : Nat} {m : Addr} {f : Place} (h : H.count i m f.2 = 0) : (H.array i m f).size = 0 := by
  rw [Heap.array, h, Nat.zero_mul]

theorem EncodePlan.Emitted.navoid_iff (h : plan.Emitted defs) (hsound : plan.Sound) {x y : Nat}
    (hx : plan.Has (.inr (x, y))) (m t : Addr)
    : meaning H defs (.pair (.inr (x, y))) m (.node y t)
        ↔ ∀ r ∈ treeObjects H plan.messages x m, ∀ r' ∈ treeObjects H plan.messages y t, Separated r r' := by
  induction x using Nat.strong_induction_on generalizing m with
  | _ x ih =>
    have hscript : LogicPred.pair (.inr (x, y)) ∈ plan.script := EncodePlan.mem_script_iff.mpr ⟨hx, hsound.isOk_pos hx⟩
    rw [h.meaning_iff hscript, LogicBody.holds_of_unguarded rfl]
    change (∀ c ∈ Clause.swapped _ _ :: _, _) ↔ _
    rw [List.forall_mem_cons, forall_mem_flatMap, hsound.planned.forall_treeObjects,
      forall_own, and_assoc]
    refine and_congr (h.avoid_iff hsound (hsound.needs hx .self) t _) ?_
    rw [← forall₂_and]
    apply forall₂_congr
    intro f hf
    have hf' := mem_fieldsOf_of_places hf
    rw [navoidOf_holds]
    apply and_congr
    . -- An empty array is apart from everything.
      rw [Option.isSome_iff_exists]
      constructor
      . rintro harray ⟨ctype, hctype⟩
        have := harray ctype hctype
        rw [h.avoid_iff hsound (hsound.needs hx (.array hf' hctype)), region_array hctype] at this
        exact .inr this
      . rintro harray ctype hctype
        rw [h.avoid_iff hsound (hsound.needs hx (.array hf' hctype)), region_array hctype]
        rcases harray ⟨ctype, hctype⟩ with hcount | hsep
        . exact fun r _ => separated_of_size_eq_zero (size_array_eq_zero hcount)
        . exact hsep
    . apply forall₄_congr
      intro c hc a ha
      exact ih c (hsound.planned.child x f.1 hf' c hc).1 (hsound.needs hx (.navoid hf' hc)) a

theorem bufsepOf_holds {env : LogicPred → Meaning} {i : Nat} {m : Addr} {arg : Arg} {f : Place}
    : (∀ c ∈ bufsepOf f, c.Holds H env i m arg)
        ↔ ((f.1.isRep = true → H.count i m f.2 = 0 ∨ Separated (arg.region H) (H.array i m f))
            ∧ ∀ r ∈ H.payloads i m f, r.size = 0 ∨ Separated (arg.region H) r)
          ∧ ∀ c, f.1.child? = some c → ∀ a ∈ H.children i m f, env (.bufsep c) a arg := by
  obtain ⟨f, j⟩ := f
  cases f <;> simp [bufsepOf, EncodeField.isRep, EncodeField.hasPayload, EncodeField.child?, Clause.Holds, Rest.arg,
    Heap.payloads]

theorem forall_extent {messages : List EncodeMessage} {i : Nat} {m : Addr} {P : Region → Prop}
    : (∀ r ∈ extent H messages (i, m), P r)
        ↔ P (H.node i m)
          ∧ ∀ f ∈ places messages i, (f.1.isRep = true → H.count i m f.2 = 0 ∨ P (H.array i m f))
            ∧ ∀ r ∈ H.payloads i m f, r.size = 0 ∨ P r := by
  simp only [extent, List.cons_append, List.forall_mem_cons, List.forall_mem_append, List.forall_mem_map,
    List.mem_filter, Bool.and_eq_true, bne_iff_ne, List.mem_flatMap]
  grind

theorem EncodePlan.Emitted.bufsep_iff (h : plan.Emitted defs) (hsound : plan.Sound) {i : Nat}
    (hi : IsOk plan.messages i) (m b : Addr) (lo hi' : Int)
    : meaning H defs (.bufsep i) m (.buffer b lo hi')
        ↔ ∀ n ∈ treeNodes H plan.messages i m, ∀ r ∈ extent H plan.messages n,
            Separated ((Arg.buffer b lo hi').region H) r := by
  induction i using Nat.strong_induction_on generalizing m with
  | _ i ih =>
    have hscript : LogicPred.bufsep i ∈ plan.script := EncodePlan.mem_script_iff.mpr hi
    have hclauses : (∀ c ∈ (logicBody plan.messages (.bufsep i)).clauses,
          c.Holds H (meaning H defs) i m (.buffer b lo hi'))
        ↔ ∀ n ∈ treeNodes H plan.messages i m, ∀ r ∈ extent H plan.messages n,
            Separated ((Arg.buffer b lo hi').region H) r := by
      rw [hsound.planned.forall_treeNodes, forall_extent, and_assoc]
      change (∀ c ∈ Clause.apart :: _, _) ↔ _
      rw [List.forall_mem_cons, forall_mem_flatMap]
      apply and_congr_right'
      rw [← forall₂_and]
      apply forall₂_congr
      intro f hf
      rw [bufsepOf_holds]
      apply and_congr_right'
      apply forall₄_congr
      intro c hc a ha
      obtain ⟨hlt, hok⟩ := hsound.planned.child i f.1 (mem_fieldsOf_of_places hf) c hc
      exact ih c hlt hok a
    rw [h.meaning_iff hscript]
    unfold LogicBody.Holds
    rw [LogicPred.subject, hclauses, or_iff_right_of_imp]
    rintro ⟨-, hempty⟩ n - r -
    exact separated_of_size_eq_zero hempty.size_eq_zero

/--
A field and one behind it satisfy a condition on value arrays.
-/
theorem forall_mem_map_arrays {f : Place} {rest : List Place} {P : Clause → Prop}
    : (∀ c ∈ (rest.filter (·.1.array?.isSome)).map (Clause.arrays f), P c)
        ↔ ∀ g ∈ rest, g.1.array?.isSome = true → P (.arrays f g) := by
  simp only [List.forall_mem_map, List.mem_filter, and_imp]

theorem ownClauses_holds {env : LogicPred → Meaning} {i : Nat} {m : Addr} {arg : Arg} {fs : List Place}
    : (∀ c ∈ ownClauses fs, c.Holds H env i m arg)
        ↔ ((∀ f ∈ fs, f.1.isRep = true → H.count i m f.2 = 0 ∨ H.Readable (H.array i m f))
            ∧ ∀ f ∈ fs, ∀ r ∈ H.payloads i m f, r.size = 0 ∨ H.Readable r)
          ∧ (∀ f ∈ fs, f.1.array?.isSome = true → H.count i m f.2 = 0 ∨ Separated (H.node i m) (H.array i m f))
          ∧ fs.Pairwise fun f g => f.1.array?.isSome = true → g.1.array?.isSome = true
            → H.count i m f.2 = 0 ∨ H.count i m g.2 = 0 ∨ Separated (H.array i m f) (H.array i m g) := by
  induction fs with
  | nil => simp [ownClauses]
  | cons f rest ih =>
    have hrep : (∀ c ∈ (if f.1.isRep then [Clause.readableArray f] else []), c.Holds H env i m arg)
        ↔ (f.1.isRep = true → H.count i m f.2 = 0 ∨ H.Readable (H.array i m f)) := by
      split <;> simp_all [Clause.Holds]
    have hpayload : (∀ c ∈ (if f.1.hasPayload then [Clause.readablePayload f] else []),
          c.Holds H env i m arg)
        ↔ ∀ r ∈ H.payloads i m f, r.size = 0 ∨ H.Readable r := by
      obtain ⟨f, j⟩ := f
      cases f <;> simp [EncodeField.hasPayload, Clause.Holds, Heap.payloads]
    have harray : (∀ c ∈ (if f.1.array?.isSome then
            Clause.ownArray f :: (rest.filter (·.1.array?.isSome)).map (.arrays f)
          else
            []), c.Holds H env i m arg)
        ↔ (f.1.array?.isSome = true → H.count i m f.2 = 0 ∨ Separated (H.node i m) (H.array i m f))
          ∧ ∀ g ∈ rest, f.1.array?.isSome = true → g.1.array?.isSome = true
            → H.count i m f.2 = 0 ∨ H.count i m g.2 = 0 ∨ Separated (H.array i m f) (H.array i m g) := by
      by_cases hf : f.1.array?.isSome
      . rw [if_pos hf, List.forall_mem_cons, forall_mem_map_arrays]
        simp [Clause.Holds, hf]
      . rw [if_neg hf]
        simp [hf]
    rw [ownClauses, List.forall_mem_append, List.forall_mem_append, List.forall_mem_append, ih, hrep, hpayload, harray,
      List.forall_mem_cons, List.forall_mem_cons, List.forall_mem_cons, List.pairwise_cons]
    tauto

theorem own_pairwise {messages : List EncodeMessage} {i : Nat} {m : Addr}
    : (own H messages (i, m)).Pairwise Separated
        ↔ (∀ f ∈ places messages i, f.1.array?.isSome = true
            → H.count i m f.2 = 0 ∨ Separated (H.node i m) (H.array i m f))
          ∧ (places messages i).Pairwise fun f g => f.1.array?.isSome = true → g.1.array?.isSome = true
            → H.count i m f.2 = 0 ∨ H.count i m g.2 = 0 ∨ Separated (H.array i m f) (H.array i m g) := by
  rw [own, List.pairwise_cons, List.pairwise_map, List.pairwise_filter]
  simp only [List.forall_mem_map, List.mem_filter, Bool.and_eq_true, bne_iff_ne, ne_eq, and_imp]
  apply and_congr
  . grind
  . apply List.Pairwise.iff
    grind

theorem below_pairwise {messages : List EncodeMessage} {i : Nat} {m : Addr} {R : Node → Node → Prop}
    : (below H messages (i, m)).Pairwise R
        ↔ (∀ f ∈ places messages i, ∀ c, f.1.child? = some c
            → (H.children i m f).Pairwise fun a b => R (c, a) (c, b))
          ∧ (places messages i).Pairwise fun f g => ∀ c d, f.1.child? = some c → g.1.child? = some d
            → ∀ a ∈ H.children i m f, ∀ b ∈ H.children i m g, R (c, a) (d, b) := by
  rw [below, List.pairwise_flatMap]
  apply and_congr
  . apply forall₂_congr
    intro f _
    cases f.1.child? <;> simp [List.pairwise_map]
  . apply List.Pairwise.iff
    intro f g
    cases f.1.child? <;> cases g.1.child? <;> simp

theorem children_pairwise {i : Nat} {m : Addr} {f : Place} {R : Addr → Addr → Prop} (hR : ∀ a b, R a b → R b a)
    : (H.children i m f).Pairwise R
        ↔ (f.1.isRepMsg = true → ∀ k < H.count i m f.2, ∀ l < H.count i m f.2, k ≠ l → H.element i m f.2 k ≠ 0
          → H.element i m f.2 l ≠ 0 → R (H.element i m f.2 k) (H.element i m f.2 l)) := by
  obtain ⟨f, j⟩ := f
  have hsingle (a : Addr) : ([a].filter (· ≠ 0)).Pairwise R := (List.pairwise_singleton R a).filter _
  cases f with
  | msg child tagb => exact iff_of_true (hsingle _) nofun
  | repMsg child tagb =>
    simp only [Heap.children, EncodeField.isRepMsg, forall_const, List.pairwise_filter, List.pairwise_map,
      decide_eq_true_eq]
    constructor
    . intro h k hk l hl hne
      rw [List.pairwise_iff_getElem] at h
      simp only [List.length_range, List.getElem_range] at h
      rcases Nat.lt_or_gt_of_ne hne with hlt | hlt
      . exact h k l hk hl hlt
      . exact fun hk' hl' => hR _ _ (h l k hl hk hlt hl' hk')
    . intro h
      rw [List.pairwise_iff_getElem]
      simp only [List.length_range, List.getElem_range]
      intro k l hk hl hlt
      exact h k hk l hl (by omega)
  | _ => exact iff_of_true List.Pairwise.nil nofun

theorem childOf_holds {env : LogicPred → Meaning} {messages : List EncodeMessage} {i : Nat} {m : Addr} {arg : Arg}
    {f : Place}
    : (∀ c ∈ childOf messages i f, c.Holds H env i m arg)
        ↔ ∀ c, f.1.child? = some c → ∀ a ∈ H.children i m f,
            env (.valid c) a .nothing
            ∧ env (.pair (.inl (c, .msg i))) a (.node i m)
            ∧ ∀ g ∈ places messages i, ∀ ctype, g.1.array? = some ctype
              → env (.pair (.inl (c, .array ctype))) a (.array ctype (H.pointer i m g.2) (H.count i m g.2)) := by
  unfold childOf
  split
  . next hc => simp [hc]
  . next c hc =>
    have harrays (g : Place) : (∀ cl ∈ arraysOf f c g, cl.Holds H env i m arg)
        ↔ ∀ ctype, g.1.array? = some ctype → ∀ a ∈ H.children i m f,
            env (.pair (.inl (c, .array ctype))) a (.array ctype (H.pointer i m g.2) (H.count i m g.2)) := by
      unfold arraysOf
      split
      . next hg => simp [hg]
      . next ctype hg => simp [hg, Clause.Holds, Rest.arg]
    rw [List.forall_mem_cons, List.forall_mem_cons, forall_mem_flatMap]
    simp only [harrays]
    simp only [Clause.Holds, Rest.arg, hc, Option.some.injEq, forall_eq']
    grind

theorem siblingsOf_holds {env : LogicPred → Meaning} {i : Nat} {m : Addr} {arg : Arg} {fs : List Place}
    : (∀ c ∈ siblingsOf fs, c.Holds H env i m arg)
        ↔ (∀ f ∈ fs, ∀ c, f.1.child? = some c → f.1.isRepMsg = true
            → ∀ k < H.count i m f.2, ∀ l < H.count i m f.2, k ≠ l → H.element i m f.2 k ≠ 0 → H.element i m f.2 l ≠ 0
            → env (.pair (.inr (c, c))) (H.element i m f.2 k) (.node c (H.element i m f.2 l)))
          ∧ fs.Pairwise fun f g => ∀ c d, f.1.child? = some c → g.1.child? = some d
            → ∀ a ∈ H.children i m f, ∀ b ∈ H.children i m g, env (.pair (.inr (c, d))) a (.node d b) := by
  induction fs with
  | nil => simp [siblingsOf]
  | cons f rest ih =>
    unfold siblingsOf
    split
    . next hc =>
      rw [ih, List.forall_mem_cons, List.pairwise_cons]
      simp [hc]
    . next c hc =>
      have hown : (∀ cl ∈ elementOf f c, cl.Holds H env i m arg)
          ↔ (f.1.isRepMsg = true → ∀ k < H.count i m f.2, ∀ l < H.count i m f.2, k ≠ l → H.element i m f.2 k ≠ 0
            → H.element i m f.2 l ≠ 0
            → env (.pair (.inr (c, c))) (H.element i m f.2 k) (.node c (H.element i m f.2 l))) := by
        unfold elementOf
        split
        . next hrep => simp [hrep, Clause.Holds, Place.arg, hc]
        . next hrep => simp [hrep]
      have hothers (g : Place) : (∀ cl ∈ siblingOf f c g, cl.Holds H env i m arg)
          ↔ ∀ d, g.1.child? = some d
            → ∀ a ∈ H.children i m f, ∀ b ∈ H.children i m g, env (.pair (.inr (c, d))) a (.node d b) := by
        unfold siblingOf
        split
        . next hg => simp [hg]
        . next d hg => simp [hg, Clause.Holds, Place.arg]
      rw [List.forall_mem_append, List.forall_mem_append, forall_mem_flatMap, ih, hown, List.forall_mem_cons,
        List.pairwise_cons]
      simp only [hothers, hc, Option.some.injEq, forall_eq']
      grind

theorem accessible_iff {messages : List EncodeMessage} {i : Nat} {m : Addr}
    : Accessible H messages (i, m)
        ↔ H.Writable (H.node i m)
          ∧ (∀ f ∈ places messages i, f.1.isRep = true → H.count i m f.2 = 0 ∨ H.Readable (H.array i m f))
          ∧ ∀ f ∈ places messages i, ∀ r ∈ H.payloads i m f, r.size = 0 ∨ H.Readable r := by
  simp only [or_iff_not_imp_left]
  constructor
  . rintro ⟨hnode, harray, hpayload⟩
    exact ⟨hnode, harray, hpayload⟩
  . rintro ⟨hnode, harray, hpayload⟩
    exact ⟨hnode, harray, hpayload⟩

theorem forall_apart_own {i : Nat} {m : Addr}
    : (∀ n ∈ below H plan.messages (i, m), ∀ r ∈ own H plan.messages (i, m),
          ∀ r' ∈ treeObjects H plan.messages n.1 n.2, Separated r r')
        ↔ ∀ f ∈ places plan.messages i, ∀ c, f.1.child? = some c → ∀ a ∈ H.children i m f,
            (∀ r ∈ treeObjects H plan.messages c a, Separated (H.node i m) r)
            ∧ ∀ g ∈ places plan.messages i, ∀ ctype, g.1.array? = some ctype
              → ∀ r ∈ treeObjects H plan.messages c a, Separated (H.array i m g) r := by
  rw [forall_below]
  apply forall₂_congr
  intro f _
  apply forall₄_congr
  intro c _ a _
  rw [forall_own]
  apply and_congr_right'
  apply forall₂_congr
  intro g _
  rw [Option.isSome_iff_exists]
  constructor
  . rintro harray ctype hctype r hr
    rcases harray ⟨ctype, hctype⟩ with hcount | hsep
    . exact separated_of_size_eq_zero (size_array_eq_zero hcount)
    . exact hsep r hr
  . rintro harray ⟨ctype, hctype⟩
    exact .inr (harray ctype hctype)

theorem sibling_of_sublist {messages : List EncodeMessage} {i c d : Nat} {f g : Place}
    (hsub : [f, g].Sublist (places messages i)) (hc : f.1.child? = some c) (hd : g.1.child? = some d)
    : Seed i (fieldsOf messages i) (.inr (c, d)) := by
  obtain ⟨r₁, r₂, heq, hf, hg⟩ := List.cons_sublist_iff.mp hsub
  obtain ⟨before, behind, rfl⟩ := List.append_of_mem hf
  have hfields : fieldsOf messages i = before.map Prod.fst ++ f.1 :: (behind ++ r₂).map Prod.fst := by
    rw [← places_fst, heq]
    simp
  exact .sibling hfields hc (List.mem_map_of_mem (List.mem_append.mpr (.inr (List.singleton_sublist.mp hg)))) hd

theorem EncodePlan.Emitted.valid_iff (h : plan.Emitted defs) (hsound : plan.Sound) {i : Nat}
    (hi : IsOk plan.messages i) (m : Addr)
    : meaning H defs (.valid i) m .nothing
        ↔ (∀ n ∈ treeNodes H plan.messages i m, Accessible H plan.messages n)
          ∧ (treeObjects H plan.messages i m).Pairwise Separated := by
  induction i using Nat.strong_induction_on generalizing m with
  | _ i ih =>
    have hscript : LogicPred.valid i ∈ plan.script := EncodePlan.mem_script_iff.mpr hi
    obtain ⟨e, he, hok⟩ := hi
    have hseed {x : Pair} (hx : Seed i (fieldsOf plan.messages i) x) : plan.Has x :=
      hsound.seeded ⟨i, e, he, hok, fieldsOf_eq he ▸ hx⟩
    have hchildren : (∀ f ∈ places plan.messages i, ∀ cl ∈ childOf plan.messages i f,
          cl.Holds H (meaning H defs) i m .nothing)
        ↔ (∀ f ∈ places plan.messages i, ∀ c, f.1.child? = some c → ∀ a ∈ H.children i m f,
              (∀ n ∈ treeNodes H plan.messages c a, Accessible H plan.messages n)
                ∧ (treeObjects H plan.messages c a).Pairwise Separated)
          ∧ ∀ n ∈ below H plan.messages (i, m), ∀ r ∈ own H plan.messages (i, m),
              ∀ r' ∈ treeObjects H plan.messages n.1 n.2, Separated r r' := by
      rw [forall_apart_own, ← forall₂_and]
      apply forall₂_congr
      intro f hf
      have hf' := mem_fieldsOf_of_places hf
      rw [childOf_holds]
      simp only [← forall_and]
      apply forall₄_congr
      intro c hc a _
      obtain ⟨hlt, hok'⟩ := hsound.planned.child i f.1 hf' c hc
      refine and_congr (ih c hlt hok' a) (and_congr (h.avoid_iff hsound (hseed (.self hf' hc)) a _) ?_)
      apply forall₄_congr
      intro g hg ctype hctype
      rw [h.avoid_iff hsound (hseed (.array hf' hc (mem_fieldsOf_of_places hg) hctype)), region_array hctype]
    have hsiblings : (∀ cl ∈ siblingsOf (places plan.messages i), cl.Holds H (meaning H defs) i m .nothing)
        ↔ (below H plan.messages (i, m)).Pairwise fun n n' => ∀ r ∈ treeObjects H plan.messages n.1 n.2,
            ∀ r' ∈ treeObjects H plan.messages n'.1 n'.2, Separated r r' := by
      have hR (c : Nat) (a b : Addr) (hab : ∀ r ∈ treeObjects H plan.messages c a,
          ∀ r' ∈ treeObjects H plan.messages c b, Separated r r')
          : ∀ r ∈ treeObjects H plan.messages c b, ∀ r' ∈ treeObjects H plan.messages c a, Separated r r' :=
        fun r hr r' hr' => (hab r' hr' r hr).symm
      rw [siblingsOf_holds, below_pairwise]
      apply and_congr
      . apply forall₄_congr
        intro f hf c hc
        rw [children_pairwise (hR c)]
        apply forall_congr'
        intro hrep
        simp only [h.navoid_iff hsound (hseed (.element (mem_fieldsOf_of_places hf) hrep hc))]
      . rw [List.pairwise_iff_forall_sublist, List.pairwise_iff_forall_sublist]
        apply forall_congr'
        intro f
        apply forall₄_congr
        intro g hsub c d
        apply forall₂_congr
        intro hc hd
        have hnavoid := hseed (sibling_of_sublist hsub hc hd)
        simp only [h.navoid_iff hsound hnavoid]
    rw [h.meaning_iff hscript, LogicBody.holds_of_unguarded rfl, LogicPred.subject]
    change (∀ c ∈ Clause.validNode :: ownClauses _ ++ _ ++ siblingsOf _, _) ↔ _
    rw [List.forall_mem_append, hsiblings, List.cons_append, List.forall_mem_cons, List.forall_mem_append,
      forall_mem_flatMap, hchildren, ownClauses_holds, hsound.planned.forall_treeNodes, accessible_iff, treeObjects,
      Unfold.pairwise_objects_iff hsound.planned.below_lt, own_pairwise]
    constructor
    . rintro ⟨⟨hnode, ⟨⟨harray, hpayload⟩, hown, harrays⟩, hchildren, hapart⟩, hsiblings⟩
      exact ⟨⟨⟨hnode, harray, hpayload⟩, fun f hf c hc a ha => (hchildren f hf c hc a ha).1⟩, ⟨hown, harrays⟩,
        forall_below.mpr fun f hf c hc a ha => (hchildren f hf c hc a ha).2, hapart, hsiblings⟩
    . rintro ⟨⟨⟨hnode, harray, hpayload⟩, haccessible⟩, ⟨hown, harrays⟩, hpairwise, hapart, hsiblings⟩
      exact ⟨⟨hnode, ⟨⟨harray, hpayload⟩, hown, harrays⟩,
        fun f hf c hc a ha => ⟨haccessible f hf c hc a ha, forall_below.mp hpairwise f hf c hc a ha⟩, hapart⟩,
        hsiblings⟩

end Meaning

/-! The contracts of a file. -/

/--
The predicates of a file can always be written.
-/
theorem exists_logic (cName : NodeId → Spelling) (order : List (NodeId × MessageNode))
    : ∃ plan defs, encodePlanBuild cName order = some plan ∧ plan.emitLogic = some defs
      ∧ (defs.map Prod.fst).Nodup
      ∧ (∀ before d behind, defs = before ++ d :: behind → refsOf d.2.clauses ⊆ before.map Prod.fst)
      ∧ (∀ i, (.valid i ∈ defs.map Prod.fst ↔ IsOk plan.messages i)
          ∧ (.bufsep i ∈ defs.map Prod.fst ↔ IsOk plan.messages i))
      ∧ ∀ x, .pair x ∈ defs.map Prod.fst
        ↔ ∃ y, Seeded plan.messages y ∧ Relation.ReflTransGen (Needs plan.messages) y x := by
  obtain ⟨plan, hbuild, -, hsound⟩ := encodePlanBuild_sound cName order
  obtain ⟨defs, hemit, hemitted⟩ := hsound.exists_emitLogic
  refine ⟨plan, defs, hbuild, hemit, hemitted.ordered.nodup, hemitted.ordered.refs_subset, ?_, ?_⟩
  . intro i
    rw [hemitted.names]
    exact ⟨EncodePlan.mem_script_iff, EncodePlan.mem_script_iff⟩
  . intro x
    rw [hemitted.names, EncodePlan.mem_script_iff, ← hsound.has_iff]
    exact and_iff_left_of_imp hsound.isOk_pos

/--
The predicates of a file mean that trees are apart.
-/
theorem logic_meaning (cName : NodeId → Spelling) (order : List (NodeId × MessageNode))
    : ∃ plan defs, encodePlanBuild cName order = some plan ∧ plan.emitLogic = some defs
      ∧ ∀ H i, IsOk plan.messages i → ∀ m,
        (meaning H defs (.valid i) m .nothing
          ↔ (∀ n ∈ treeNodes H plan.messages i m, Accessible H plan.messages n)
            ∧ (treeObjects H plan.messages i m).Pairwise Separated)
        ∧ ∀ b lo hi, meaning H defs (.bufsep i) m (.buffer b lo hi)
          ↔ ∀ n ∈ treeNodes H plan.messages i m, ∀ r ∈ extent H plan.messages n,
              Separated ((Arg.buffer b lo hi).region H) r := by
  obtain ⟨plan, hbuild, -, hsound⟩ := encodePlanBuild_sound cName order
  obtain ⟨defs, hemit, hemitted⟩ := hsound.exists_emitLogic
  refine ⟨plan, defs, hbuild, hemit, fun H i hi m => ⟨hemitted.valid_iff hsound hi m, fun b lo hi' => ?_⟩⟩
  exact hemitted.bufsep_iff hsound hi m b lo hi'

end Gremlin
