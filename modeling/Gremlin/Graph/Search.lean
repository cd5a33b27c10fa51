import Mathlib.Algebra.BigOperators.Fin
import Mathlib.Algebra.Order.BigOperators.Group.Finset
import Mathlib.Data.Fintype.Card
import Mathlib.Logic.Relation

/-!
This module contains an iterative depth-first search with three colours and an explicit stack, over
a finite graph in which the edges of a node are ordered and some of them lead nowhere.
-/

namespace Gremlin.Graph

abbrev Edges (n : Nat) := Fin n → List (Option (Fin n))

inductive Color where
  | white
  | gray
  | black
  deriving DecidableEq, Repr

structure Frame (n : Nat) where
  node : Fin n
  next : Nat
  deriving DecidableEq, Repr

/--
The state of the search: the stack from its top downwards, the nodes that are finished in the order
in which they were, and the nodes that a back edge leads to.
-/
structure Search (n : Nat) where
  color : Fin n → Color
  stack : List (Frame n)
  order : List (Fin n)
  marked : Fin n → Bool
  root : Nat

/--
What an iteration of one of the two loops does. A back edge leads to a node on the stack.
-/
inductive Event (n : Nat) where
  | done
  | step (s : Search n)
  | back (s : Search n) (child : Fin n)

namespace Search

variable {n : Nat}

def initial : Search n where
  color := fun _ => .white
  stack := []
  order := []
  marked := fun _ => false
  root := 0

def mark (s : Search n) (child : Fin n) : Search n :=
  { s with marked := Function.update s.marked child true }

def push (s : Search n) (node : Fin n) (stack : List (Frame n)) : Search n :=
  { s with color := Function.update s.color node .gray, stack := ⟨node, 0⟩ :: stack }

def pop (s : Search n) (node : Fin n) (stack : List (Frame n)) : Search n :=
  { s with
    color := Function.update s.color node .black
    stack
    order := s.order ++ [node] }

variable (edges : Edges n)

/--
With an empty stack this is the loop over the roots, and else the loop over the top frame.
-/
def next (s : Search n) : Event n :=
  match s.stack with
  | [] =>
    if h : s.root < n then
      if s.color ⟨s.root, h⟩ = .white then
        .step (s.push ⟨s.root, h⟩ [])
      else
        .step { s with root := s.root + 1 }
    else
      .done
  | frame :: stack =>
    match (edges frame.node)[frame.next]? with
    | none => .step (s.pop frame.node stack)
    | some target =>
      let s := { s with stack := { frame with next := frame.next + 1 } :: stack }
      match target with
      | none => .step s
      | some child =>
        match s.color child with
        | .gray => .back s child
        | .black => .step s
        | .white => .step (s.push child s.stack)

/--
The search, which is either halted by the first back edge or goes on and marks its target.
-/
def run (halt : Bool) : (fuel : Nat) → Search n → Option (Except (Fin n) (Search n))
  | 0, _ => none
  | fuel + 1, s =>
    match s.next edges with
    | .done => some (.ok s)
    | .step s' => run halt fuel s'
    | .back s' child => if halt then some (.error child) else run halt fuel (s'.mark child)

/--
What the nodes that the search has not reached add to its length.
-/
def whiteWeight (color : Fin n → Color) : Nat :=
  ∑ v, if color v = .white then (edges v).length + 2 else 0

def potential (s : Search n) : Nat :=
  whiteWeight edges s.color
    + (s.stack.map fun frame => (edges frame.node).length - frame.next + 1).sum
    + (n - s.root)

/--
The states that the search goes through.
-/
inductive Reaches : Search n → Search n → Prop where
  | refl {s : Search n} : Reaches s s
  | step {s s' s'' : Search n} (h : Reaches s s') (hnext : s'.next edges = .step s'')
      : Reaches s s''
  | back {s s' s'' : Search n} {child : Fin n} (h : Reaches s s')
      (hnext : s'.next edges = .back s'' child)
      : Reaches s (s''.mark child)

def search (halt : Bool) : Option (Except (Fin n) (Search n)) :=
  run edges halt (potential edges initial + 1) initial

end Search

def Edge {n : Nat} (edges : Edges n) (u v : Fin n) : Prop :=
  some v ∈ edges u

/--
`v` is in the list, and strictly before `u`.
-/
def Before {n : Nat} (order : List (Fin n)) (v u : Fin n) : Prop :=
  order.idxOf v < order.idxOf u

instance {n : Nat} (order : List (Fin n)) (v u : Fin n) : Decidable (Before order v u) :=
  inferInstanceAs (Decidable (_ < _))

namespace Search

variable {n : Nat} {edges : Edges n}

/-! Termination. -/

variable (edges) in
theorem whiteWeight_gray {color : Fin n → Color} {v : Fin n} (h : color v = .white)
    : whiteWeight edges color
        =
      (edges v).length + 2 + whiteWeight edges (Function.update color v .gray) := by
  have hmem := Finset.mem_univ v
  have hrest : ∑ u ∈ Finset.univ.erase v, (if color u = .white then (edges u).length + 2 else 0)
      = ∑ u ∈ Finset.univ.erase v,
          (if Function.update color v .gray u = .white then (edges u).length + 2 else 0) := by
    apply Finset.sum_congr rfl
    intro u hu
    rw [Function.update_of_ne (Finset.ne_of_mem_erase hu)]
  unfold whiteWeight
  rw [← Finset.add_sum_erase _ _ hmem, hrest]
  conv_rhs => rw [← Finset.add_sum_erase _ _ hmem]
  simp [h]

variable (edges) in
theorem whiteWeight_black (color : Fin n → Color) (v : Fin n)
    : whiteWeight edges (Function.update color v .black) ≤ whiteWeight edges color := by
  unfold whiteWeight
  apply Finset.sum_le_sum
  intro u _
  by_cases hu : u = v
  . subst hu
    simp
  . rw [Function.update_of_ne hu]

/--
What an iteration can do.
-/
inductive Next (edges : Edges n) (s : Search n) : Event n → Prop where
  | done (hstack : s.stack = []) (hroot : n ≤ s.root) : Next edges s .done
  | root (hroot : s.root < n) (hstack : s.stack = []) (hwhite : s.color ⟨s.root, hroot⟩ = .white)
      : Next edges s (.step (s.push ⟨s.root, hroot⟩ []))
  | skipRoot (hroot : s.root < n) (hstack : s.stack = [])
      (hwhite : s.color ⟨s.root, hroot⟩ ≠ .white)
      : Next edges s (.step { s with root := s.root + 1 })
  | pop {frame : Frame n} {stack : List (Frame n)} (hstack : s.stack = frame :: stack)
      (hedge : (edges frame.node)[frame.next]? = none)
      : Next edges s (.step (s.pop frame.node stack))
  | skip {frame : Frame n} {stack : List (Frame n)} {target : Option (Fin n)}
      (hstack : s.stack = frame :: stack) (hedge : (edges frame.node)[frame.next]? = some target)
      (hblack : ∀ child, target = some child → s.color child = .black)
      : Next edges s (.step { s with stack := { frame with next := frame.next + 1 } :: stack })
  | back {frame : Frame n} {stack : List (Frame n)} {child : Fin n}
      (hstack : s.stack = frame :: stack)
      (hedge : (edges frame.node)[frame.next]? = some (some child))
      (hgray : s.color child = .gray)
      : Next edges s
          (.back { s with stack := { frame with next := frame.next + 1 } :: stack } child)
  | push {frame : Frame n} {stack : List (Frame n)} {child : Fin n}
      (hstack : s.stack = frame :: stack)
      (hedge : (edges frame.node)[frame.next]? = some (some child))
      (hwhite : s.color child = .white)
      : Next edges s
          (.step (s.push child ({ frame with next := frame.next + 1 } :: stack)))

variable (edges) in
theorem next_cases (s : Search n) : Next edges s (s.next edges) := by
  obtain ⟨color, stack, order, marked, root⟩ := s
  unfold next
  cases stack with
  | nil =>
    simp only
    split
    . next hroot =>
      split
      . next hwhite => exact .root hroot rfl hwhite
      . next hwhite => exact .skipRoot hroot rfl hwhite
    . next hroot => exact .done rfl (by simpa using hroot)
  | cons frame stack =>
    simp only
    cases hedge : (edges frame.node)[frame.next]? with
    | none => exact .pop rfl hedge
    | some target =>
      cases target with
      | none => exact .skip rfl hedge (by simp)
      | some child =>
        simp only
        cases hcolor : color child with
        | gray => exact .back rfl hedge hcolor
        | black => exact .skip rfl hedge (by simpa using hcolor)
        | white => exact .push rfl hedge hcolor

theorem potential_step {s s' : Search n} (h : Next edges s (.step s'))
    : s'.potential edges < s.potential edges := by
  cases h with
  | root hroot hstack hwhite =>
    have hweight := whiteWeight_gray edges hwhite
    simp only [potential, push, hstack, List.map_cons, List.map_nil, List.sum_cons, List.sum_nil]
    omega
  | skipRoot hroot hstack hwhite =>
    simp only [potential]
    omega
  | @pop frame stack hstack hedge =>
    have hweight := whiteWeight_black edges s.color frame.node
    simp only [potential, pop, hstack, List.map_cons, List.sum_cons]
    omega
  | @skip frame stack target hstack hedge hblack =>
    have hlt : frame.next < (edges frame.node).length := by
      rw [List.getElem?_eq_some_iff] at hedge
      exact hedge.1
    simp only [potential, hstack, List.map_cons, List.sum_cons]
    omega
  | @push frame stack child hstack hedge hwhite =>
    have hlt : frame.next < (edges frame.node).length := by
      rw [List.getElem?_eq_some_iff] at hedge
      exact hedge.1
    have hweight := whiteWeight_gray edges hwhite
    simp only [potential, push, hstack, List.map_cons, List.sum_cons]
    omega

theorem potential_back {s s' : Search n} {child : Fin n} (h : Next edges s (.back s' child))
    : s'.potential edges < s.potential edges := by
  cases h with
  | @back frame stack _ hstack hedge hgray =>
    have hlt : frame.next < (edges frame.node).length := by
      rw [List.getElem?_eq_some_iff] at hedge
      exact hedge.1
    simp only [potential, hstack, List.map_cons, List.sum_cons]
    omega

theorem exists_run (halt : Bool) {fuel : Nat} {s : Search n} (h : s.potential edges < fuel)
    : ∃ result, run edges halt fuel s = some result := by
  induction fuel generalizing s with
  | zero => omega
  | succ fuel ih =>
    have hnext := next_cases edges s
    rw [run]
    cases hevent : s.next edges with
    | done => exact ⟨_, rfl⟩
    | step s' =>
      rw [hevent] at hnext
      have := potential_step hnext
      exact ih (by omega)
    | back s' child =>
      rw [hevent] at hnext
      have hlt := potential_back hnext
      cases halt with
      | true => exact ⟨_, rfl⟩
      | false =>
        apply ih
        show s'.potential edges < fuel
        omega

theorem Reaches.trans {s s' s'' : Search n} (h : Reaches edges s s') (h' : Reaches edges s' s'')
    : Reaches edges s s'' := by
  induction h' with
  | refl => exact h
  | step _ hnext ih => exact .step ih hnext
  | back _ hnext ih => exact .back ih hnext

theorem run_ok {halt : Bool} {fuel : Nat} {s final : Search n}
    (h : run edges halt fuel s = some (.ok final))
    : Reaches edges s final ∧ final.next edges = .done := by
  induction fuel generalizing s with
  | zero => simp [run] at h
  | succ fuel ih =>
    rw [run] at h
    cases hevent : s.next edges with
    | done =>
      simp only [hevent, Option.some.injEq, Except.ok.injEq] at h
      subst h
      exact ⟨.refl, hevent⟩
    | step s' =>
      simp only [hevent] at h
      obtain ⟨hreaches, hdone⟩ := ih h
      exact ⟨.trans (.step .refl hevent) hreaches, hdone⟩
    | back s' child =>
      simp only [hevent] at h
      cases halt with
      | true => simp at h
      | false =>
        simp only [Bool.false_eq_true, ↓reduceIte] at h
        obtain ⟨hreaches, hdone⟩ := ih h
        exact ⟨.trans (.back .refl hevent) hreaches, hdone⟩

theorem run_error {halt : Bool} {fuel : Nat} {s : Search n} {child : Fin n}
    (h : run edges halt fuel s = some (.error child))
    : halt = true ∧ ∃ s' s'', Reaches edges s s' ∧ s'.next edges = .back s'' child := by
  induction fuel generalizing s with
  | zero => simp [run] at h
  | succ fuel ih =>
    rw [run] at h
    cases hevent : s.next edges with
    | done => simp [hevent] at h
    | step s' =>
      simp only [hevent] at h
      obtain ⟨hhalt, t, t', hreaches, hback⟩ := ih h
      exact ⟨hhalt, t, t', .trans (.step .refl hevent) hreaches, hback⟩
    | back s' c =>
      simp only [hevent] at h
      cases halt with
      | true =>
        simp only [↓reduceIte, Option.some.injEq, Except.error.injEq] at h
        subst h
        exact ⟨rfl, s, s', .refl, hevent⟩
      | false =>
        simp only [Bool.false_eq_true, ↓reduceIte] at h
        obtain ⟨hhalt, t, t', hreaches, hback⟩ := ih h
        exact ⟨hhalt, t, t', .trans (.back .refl hevent) hreaches, hback⟩

theorem marked_of_halt {fuel : Nat} {s final : Search n}
    (h : run edges true fuel s = some (.ok final))
    : final.marked = s.marked := by
  induction fuel generalizing s with
  | zero => simp [run] at h
  | succ fuel ih =>
    rw [run] at h
    have hnext := next_cases edges s
    cases hevent : s.next edges with
    | done =>
      simp only [hevent, Option.some.injEq, Except.ok.injEq] at h
      rw [h]
    | step s' =>
      simp only [hevent] at h
      rw [hevent] at hnext
      rw [ih h]
      cases hnext <;> rfl
    | back s' child => simp [hevent] at h

/-! The invariant. -/

def nodes (s : Search n) : List (Fin n) :=
  s.stack.map Frame.node

/--
The edges that the frames have passed lead to nodes that are finished, to the node above or to
nodes that are marked.
-/
def Passed (edges : Edges n) (order : List (Fin n)) (marked : Fin n → Bool)
    : (above : Option (Fin n)) → List (Frame n) → Prop
  | _, [] => True
  | above, frame :: stack =>
    (∀ j < frame.next, ∀ v, (edges frame.node)[j]? = some (some v) →
        v ∈ order ∨ above = some v ∨ marked v = true)
      ∧ Passed edges order marked (some frame.node) stack

/--
An edge from `u` to `v` that does not have `v` before `u`, or will not have it.
-/
def Late (s : Search n) (v u : Fin n) : Prop :=
  (u ∈ s.order ∧ ¬Before s.order v u)
    ∨ ∃ above below, s.nodes = above ++ u :: below ∧ v ∈ u :: below

structure Inv (edges : Edges n) (s : Search n) : Prop where
  gray : ∀ v, s.color v = .gray ↔ v ∈ s.nodes
  black : ∀ v, s.color v = .black ↔ v ∈ s.order
  nodup : s.nodes.Nodup
  order_nodup : s.order.Nodup
  roots : ∀ v : Fin n, v.val < s.root → s.color v ≠ .white
  path : s.nodes.IsChain fun child parent => Edge edges parent child
  passed : Passed edges s.order s.marked none s.stack
  finished : ∀ u ∈ s.order, ∀ v, Edge edges u v → ¬Before s.order v u → s.marked v = true
  marked : ∀ v, s.marked v = true →
    Relation.TransGen (Edge edges) v v ∧ ∃ u, Edge edges u v ∧ s.Late v u

theorem Passed.mono {order order' : List (Fin n)} {marked marked' : Fin n → Bool}
    {above : Option (Fin n)} {stack : List (Frame n)} (h : Passed edges order marked above stack)
    (horder : ∀ v ∈ order, v ∈ order') (hmarked : ∀ v, marked v = true → marked' v = true)
    : Passed edges order' marked' above stack := by
  induction stack generalizing above with
  | nil => trivial
  | cons frame stack ih =>
    refine ⟨?_, ih h.2⟩
    intro j hj v hv
    rcases h.1 j hj v hv with hmem | habove | hmark
    . exact .inl (horder v hmem)
    . exact .inr (.inl habove)
    . exact .inr (.inr (hmarked v hmark))

theorem Passed.finish {order : List (Fin n)} {marked : Fin n → Bool} {node : Fin n}
    {stack : List (Frame n)} (h : Passed edges order marked (some node) stack) (hmem : node ∈ order)
    : Passed edges order marked none stack := by
  cases stack with
  | nil => trivial
  | cons frame stack =>
    refine ⟨?_, h.2⟩
    intro j hj v hv
    rcases h.1 j hj v hv with hv | habove | hv
    . exact .inl hv
    . rw [Option.some.injEq] at habove
      subst habove
      exact .inl hmem
    . exact .inr (.inr hv)

theorem Passed.bump {order : List (Fin n)} {marked : Fin n → Bool} {frame : Frame n}
    {stack : List (Frame n)} {target : Option (Fin n)} {above : Option (Fin n)}
    (h : Passed edges order marked none (frame :: stack))
    (hedge : (edges frame.node)[frame.next]? = some target)
    (htarget : ∀ v, target = some v → v ∈ order ∨ above = some v ∨ marked v = true)
    : Passed edges order marked above ({ frame with next := frame.next + 1 } :: stack) := by
  refine ⟨?_, h.2⟩
  intro j hj v hv
  dsimp only at hj hv
  by_cases hlast : j = frame.next
  . subst hlast
    rw [hedge, Option.some.injEq] at hv
    exact htarget v hv
  . rcases h.1 j (by omega) v hv with hv | habove | hv
    . exact .inl hv
    . simp at habove
    . exact .inr (.inr hv)

theorem before_append {order : List (Fin n)} {u : Fin n} (hu : u ∈ order) (w v : Fin n)
    : Before (order ++ [w]) v u ↔ Before order v u := by
  unfold Before
  rw [List.idxOf_append_of_mem hu]
  have hlt := List.idxOf_lt_length_of_mem hu
  by_cases hv : v ∈ order
  . rw [List.idxOf_append_of_mem hv]
  . rw [List.idxOf_append_of_notMem hv, List.idxOf_eq_length hv]
    omega

theorem before_append_self {order : List (Fin n)} {u : Fin n} (hu : u ∉ order) (v : Fin n)
    : Before (order ++ [u]) v u ↔ v ∈ order := by
  unfold Before
  rw [List.idxOf_append_of_notMem hu, List.idxOf_cons_self, Nat.add_zero]
  constructor
  . intro h
    by_contra hv
    rw [List.idxOf_append_of_notMem hv] at h
    omega
  . intro hv
    rw [List.idxOf_append_of_mem hv]
    exact List.idxOf_lt_length_of_mem hv

theorem inv_initial : Inv edges (initial : Search n) where
  gray v := by simp [initial, nodes]
  black v := by simp [initial]
  nodup := by simp [initial, nodes]
  order_nodup := by simp [initial]
  roots v hv := by simp [initial] at hv
  path := by simp [initial, nodes]
  passed := trivial
  finished u hu := by simp [initial] at hu
  marked v hv := by simp [initial] at hv

theorem reaches_top {path : List (Fin n)} {u : Fin n}
    (h : (u :: path).IsChain fun child parent => Edge edges parent child) {v : Fin n}
    (hv : v ∈ u :: path)
    : Relation.ReflTransGen (Edge edges) v u := by
  induction path generalizing u with
  | nil =>
    rw [List.mem_singleton] at hv
    rw [hv]
  | cons w path ih =>
    rw [List.isChain_cons_cons] at h
    rw [List.mem_cons] at hv
    rcases hv with rfl | hv
    . exact .refl
    . exact .tail (ih h.2 hv) h.1

theorem Late.push {s : Search n} {v u child : Fin n} {stack : List (Frame n)} (h : s.Late v u)
    (hstack : s.nodes = stack.map Frame.node)
    : (s.push child stack).Late v u := by
  rcases h with hdone | ⟨above, below, hnodes, hv⟩
  . exact .inl hdone
  . refine .inr ⟨child :: above, below, ?_, hv⟩
    simp only [nodes, Search.push, List.map_cons, List.cons_append]
    rw [← hstack, hnodes]

theorem Late.of_nodes {s s' : Search n} {v u : Fin n} (h : s.Late v u)
    (hnodes : s'.nodes = s.nodes) (horder : s'.order = s.order)
    : s'.Late v u := by
  unfold Late at h ⊢
  rwa [hnodes, horder]

/--
A node is pushed that is white, from the root loop or along an edge of the top frame.
-/
theorem Inv.push {s : Search n} (h : Inv edges s) {child : Fin n} {stack : List (Frame n)}
    (hwhite : s.color child = .white) (hstack : s.nodes = stack.map Frame.node)
    (hpath : (child :: s.nodes).IsChain fun child parent => Edge edges parent child)
    (hpassed : Passed edges s.order s.marked (some child) stack)
    : Inv edges (s.push child stack) where
  gray v := by
    simp only [Search.push, nodes, List.map_cons, List.mem_cons]
    rw [← hstack]
    by_cases heq : v = child
    . simp [heq]
    . rw [Function.update_of_ne heq, h.gray v]
      simp [heq]
  black v := by
    simp only [Search.push]
    by_cases heq : v = child
    . subst heq
      rw [← h.black v, hwhite]
      simp
    . rw [Function.update_of_ne heq, h.black v]
  nodup := by
    simp only [Search.push, nodes, List.map_cons, List.nodup_cons]
    rw [← hstack]
    refine ⟨?_, h.nodup⟩
    rw [← h.gray child, hwhite]
    decide
  order_nodup := h.order_nodup
  roots v hv := by
    simp only [Search.push]
    by_cases heq : v = child
    . simp [heq]
    . rw [Function.update_of_ne heq]
      exact h.roots v hv
  path := by
    simp only [Search.push, nodes, List.map_cons]
    rwa [← hstack]
  passed := ⟨by simp, hpassed⟩
  finished := h.finished
  marked v hv := by
    obtain ⟨hcycle, u, hedge, hlate⟩ := h.marked v hv
    exact ⟨hcycle, u, hedge, hlate.push hstack⟩

theorem Inv.pop {s : Search n} (h : Inv edges s) {frame : Frame n} {stack : List (Frame n)}
    (hstack : s.stack = frame :: stack) (hedge : (edges frame.node)[frame.next]? = none)
    : Inv edges (s.pop frame.node stack) := by
  have hnodes : s.nodes = frame.node :: stack.map Frame.node := by
    rw [nodes, hstack, List.map_cons]
  have hnodup := h.nodup
  rw [hnodes, List.nodup_cons] at hnodup
  have hgray : s.color frame.node = .gray := by
    rw [h.gray, hnodes]
    simp
  have hfresh : frame.node ∉ s.order := by
    rw [← h.black, hgray]
    decide
  have hpassed := h.passed
  rw [hstack] at hpassed
  constructor
  case gray =>
    intro v
    simp only [Search.pop, nodes]
    by_cases heq : v = frame.node
    . subst heq
      simpa using hnodup.1
    . rw [Function.update_of_ne heq, h.gray v, hnodes]
      simp [heq]
  case black =>
    intro v
    simp only [Search.pop, List.mem_append, List.mem_singleton]
    by_cases heq : v = frame.node
    . simp [heq]
    . rw [Function.update_of_ne heq, h.black v]
      simp [heq]
  case nodup => exact hnodup.2
  case order_nodup =>
    simp only [Search.pop]
    rw [List.nodup_append]
    refine ⟨h.order_nodup, by simp, ?_⟩
    intro a ha b hb heq
    rw [List.mem_singleton] at hb
    subst heq
    subst hb
    exact hfresh ha
  case roots =>
    intro v hv
    simp only [Search.pop]
    by_cases heq : v = frame.node
    . simp [heq]
    . rw [Function.update_of_ne heq]
      exact h.roots v hv
  case path =>
    have hpath := h.path
    rw [hnodes] at hpath
    exact hpath.tail
  case passed =>
    have hmono : Passed edges (s.order ++ [frame.node]) s.marked (some frame.node) stack :=
      hpassed.2.mono (fun v hv => List.mem_append_left _ hv) (fun v hv => hv)
    exact hmono.finish (by simp)
  case finished =>
    intro u hu v huv hnot
    simp only [Search.pop, List.mem_append, List.mem_singleton] at hu hnot ⊢
    rcases hu with hu | rfl
    . rw [before_append hu] at hnot
      exact h.finished u hu v huv hnot
    . rw [before_append_self hfresh] at hnot
      unfold Edge at huv
      rw [List.mem_iff_getElem?] at huv
      obtain ⟨j, hj⟩ := huv
      -- All the edges of the node have been passed.
      have hlt : j < frame.next := by
        rw [List.getElem?_eq_none_iff] at hedge
        rw [List.getElem?_eq_some_iff] at hj
        obtain ⟨hj, -⟩ := hj
        omega
      rcases hpassed.1 j hlt v hj with hmem | habove | hmarked
      . exact absurd hmem hnot
      . simp at habove
      . exact hmarked
  case marked =>
    intro v hv
    obtain ⟨hcycle, u, huv, hlate⟩ := h.marked v hv
    refine ⟨hcycle, u, huv, ?_⟩
    rcases hlate with ⟨hu, hnot⟩ | ⟨above, below, hsplit, hmem⟩
    . refine .inl ⟨by simp [Search.pop, hu], ?_⟩
      rwa [Search.pop, before_append hu]
    . -- Either the node that is popped is the one that has the late edge, or it is above it.
      cases above with
      | nil =>
        rw [hnodes, List.nil_append, List.cons.injEq] at hsplit
        obtain ⟨rfl, hbelow⟩ := hsplit
        refine .inl ⟨by simp [Search.pop], ?_⟩
        rw [Search.pop, before_append_self hfresh, ← h.black]
        have : s.color v = .gray := by
          rw [h.gray, hnodes, hbelow]
          exact hmem
        rw [this]
        decide
      | cons w above =>
        rw [hnodes, List.cons_append, List.cons.injEq] at hsplit
        exact .inr ⟨above, below, hsplit.2, hmem⟩

/--
The top frame passes an edge, to a node that is finished or marked or to nowhere.
-/
theorem Inv.bump {s : Search n} (h : Inv edges s) {frame : Frame n} {stack : List (Frame n)}
    {target : Option (Fin n)} (hstack : s.stack = frame :: stack)
    (hedge : (edges frame.node)[frame.next]? = some target)
    (htarget : ∀ v, target = some v → v ∈ s.order ∨ s.marked v = true)
    : Inv edges { s with stack := { frame with next := frame.next + 1 } :: stack } := by
  have hnodes : s.nodes = frame.node :: stack.map Frame.node := by
    rw [nodes, hstack, List.map_cons]
  constructor
  case gray =>
    intro v
    have := h.gray v
    rwa [hnodes] at this
  case black => exact h.black
  case nodup =>
    have := h.nodup
    rwa [hnodes] at this
  case order_nodup => exact h.order_nodup
  case roots => exact h.roots
  case path =>
    have := h.path
    rwa [hnodes] at this
  case passed =>
    have hpassed := h.passed
    rw [hstack] at hpassed
    apply hpassed.bump hedge
    intro v hv
    rcases htarget v hv with hmem | hmarked
    . exact .inl hmem
    . exact .inr (.inr hmarked)
  case finished => exact h.finished
  case marked =>
    intro v hv
    obtain ⟨hcycle, u, huv, hlate⟩ := h.marked v hv
    exact ⟨hcycle, u, huv, hlate.of_nodes hnodes.symm rfl⟩

theorem Inv.step {s s' : Search n} (h : Inv edges s) (hnext : Next edges s (.step s'))
    : Inv edges s' := by
  cases hnext with
  -- A search starts at a white root, with nothing on the stack.
  | root hroot hstack hwhite =>
    have hnodes : s.nodes = List.map Frame.node [] := by
      rw [nodes, hstack]
    apply h.push hwhite hnodes
    . rw [hnodes]
      simp
    . trivial
  | skipRoot hroot hstack hwhite =>
    constructor
    case gray => exact h.gray
    case black => exact h.black
    case nodup => exact h.nodup
    case order_nodup => exact h.order_nodup
    case roots =>
      intro v hv
      dsimp only at hv
      by_cases heq : v.val = s.root
      . have : v = ⟨s.root, hroot⟩ := Fin.ext heq
        rw [this]
        exact hwhite
      . exact h.roots v (by omega)
    case path => exact h.path
    case passed => exact h.passed
    case finished => exact h.finished
    case marked =>
      intro v hv
      obtain ⟨hcycle, u, huv, hlate⟩ := h.marked v hv
      exact ⟨hcycle, u, huv, hlate.of_nodes rfl rfl⟩
  | pop hstack hedge => exact h.pop hstack hedge
  | skip hstack hedge hblack =>
    apply h.bump hstack hedge
    intro v hv
    exact .inl ((h.black v).mp (hblack v hv))
  | @push frame stack child hstack hedge hwhite =>
    have hnodes : s.nodes = frame.node :: stack.map Frame.node := by
      rw [nodes, hstack, List.map_cons]
    have hpassed := h.passed
    rw [hstack] at hpassed
    apply h.push hwhite
    . simpa using hnodes
    . have hpath := h.path
      rw [hnodes] at hpath ⊢
      exact .cons_cons (List.mem_of_getElem? hedge) hpath
    . apply hpassed.bump hedge
      intro v hv
      exact .inr (.inl hv)

theorem Inv.cycle {s s' : Search n} {child : Fin n} (h : Inv edges s)
    (hnext : Next edges s (.back s' child))
    : Relation.TransGen (Edge edges) child child := by
  cases hnext with
  | @back frame stack _ hstack hedge hgray =>
    have hpath := h.path
    rw [h.gray] at hgray
    rw [nodes, hstack, List.map_cons] at hpath hgray
    exact .tail' (reaches_top hpath hgray) (List.mem_of_getElem? hedge)

theorem Inv.back {s s' : Search n} {child : Fin n} (h : Inv edges s)
    (hnext : Next edges s (.back s' child))
    : Inv edges (s'.mark child) := by
  have hcycle := h.cycle hnext
  cases hnext with
  | @back frame stack _ hstack hedge hgray =>
    have hnodes : s.nodes = frame.node :: stack.map Frame.node := by
      rw [nodes, hstack, List.map_cons]
    have hmark : Inv edges (s.mark child) := by
      have hmono : ∀ v, s.marked v = true → (s.mark child).marked v = true := by
        intro v hv
        simp only [mark]
        by_cases heq : v = child
        . simp [heq]
        . rwa [Function.update_of_ne heq]
      constructor
      case gray => exact h.gray
      case black => exact h.black
      case nodup => exact h.nodup
      case order_nodup => exact h.order_nodup
      case roots => exact h.roots
      case path => exact h.path
      case passed => exact h.passed.mono (fun v hv => hv) hmono
      case finished =>
        intro u hu v huv hnot
        exact hmono v (h.finished u hu v huv hnot)
      case marked =>
        intro v hv
        by_cases heq : v = child
        . subst heq
          refine ⟨hcycle, frame.node, List.mem_of_getElem? hedge, .inr ⟨[], _, hnodes, ?_⟩⟩
          rw [h.gray, hnodes] at hgray
          exact hgray
        . simp only [mark, Function.update_of_ne heq] at hv
          obtain ⟨hcycle, u, huv, hlate⟩ := h.marked v hv
          exact ⟨hcycle, u, huv, hlate.of_nodes rfl rfl⟩
    refine hmark.bump hstack hedge ?_
    intro v hv
    rw [Option.some.injEq] at hv
    subst hv
    simp [mark]

theorem Inv.reaches {s s' : Search n} (h : Inv edges s) (hreaches : Reaches edges s s')
    : Inv edges s' := by
  induction hreaches with
  | refl => exact h
  | step _ hnext ih =>
    apply ih.step
    rw [← hnext]
    exact next_cases edges _
  | back _ hnext ih =>
    apply ih.back
    rw [← hnext]
    exact next_cases edges _

/-! What the search computes. -/

theorem inv_of_reaches {s : Search n} (h : Reaches edges initial s) : Inv edges s :=
  inv_initial.reaches h

/--
The stack never has more frames than there are nodes, nor has the order more elements.
-/
theorem bounds_of_reaches {s : Search n} (h : Reaches edges initial s)
    : s.stack.length ≤ n ∧ s.order.length ≤ n := by
  have hinv := inv_of_reaches h
  have hstack := hinv.nodup.length_le_card
  have horder := hinv.order_nodup.length_le_card
  rw [Fintype.card_fin] at hstack horder
  rw [nodes, List.length_map] at hstack
  exact ⟨hstack, horder⟩

theorem mem_order_of_done {s : Search n} (hinv : Inv edges s) (hdone : s.next edges = .done)
    (v : Fin n)
    : v ∈ s.order := by
  have hnext := next_cases edges s
  rw [hdone] at hnext
  cases hnext with
  | done hstack hroot =>
    have hgray := hinv.gray v
    rw [nodes, hstack, List.map_nil] at hgray
    have hwhite := hinv.roots v (by omega)
    rw [← hinv.black]
    cases hcolor : s.color v with
    | white => exact absurd hcolor hwhite
    | gray => simp [hcolor] at hgray
    | black => rfl

variable (edges) in
theorem exists_search (halt : Bool) : ∃ result, search edges halt = some result :=
  exists_run halt (Nat.lt_succ_self _)

/--
What a search that is not halted by a back edge returns: all nodes in an order in which the targets
of edges come first, but for those that are marked, which lie on a cycle.
-/
structure Sorted (edges : Edges n) (s : Search n) : Prop where
  nodup : s.order.Nodup
  complete : ∀ v, v ∈ s.order
  marked_iff : ∀ v, s.marked v = true ↔ ∃ u, Edge edges u v ∧ ¬Before s.order v u
  cycle : ∀ v, s.marked v = true → Relation.TransGen (Edge edges) v v

theorem sorted_of_search {halt : Bool} {s : Search n} (h : search edges halt = some (.ok s))
    : Sorted edges s := by
  obtain ⟨hreaches, hdone⟩ := run_ok h
  have hinv := inv_of_reaches hreaches
  have hcomplete := mem_order_of_done hinv hdone
  refine ⟨hinv.order_nodup, hcomplete, ?_, fun v hv => (hinv.marked v hv).1⟩
  intro v
  constructor
  . intro hv
    obtain ⟨-, u, huv, hlate⟩ := hinv.marked v hv
    refine ⟨u, huv, ?_⟩
    rcases hlate with ⟨-, hnot⟩ | ⟨above, below, hsplit, -⟩
    . exact hnot
    . have hgray := (hinv.gray u).mpr (by rw [hsplit]; simp)
      rw [(hinv.black u).mpr (hcomplete u)] at hgray
      simp at hgray
  . rintro ⟨u, huv, hnot⟩
    exact hinv.finished u (hcomplete u) v huv hnot

theorem Sorted.perm {s : Search n} (h : Sorted edges s) : s.order.Perm (List.finRange n) := by
  rw [List.perm_ext_iff_of_nodup h.nodup (List.nodup_finRange n)]
  intro v
  simp [h.complete v]

theorem Sorted.before {s : Search n} (h : Sorted edges s) (hmarked : ∀ v, s.marked v = false)
    {u v : Fin n} (huv : Relation.TransGen (Edge edges) u v)
    : Before s.order v u := by
  have hedge {u v : Fin n} (huv : Edge edges u v) : Before s.order v u := by
    by_contra hnot
    have := (h.marked_iff v).mpr ⟨u, huv, hnot⟩
    simp [hmarked v] at this
  induction huv with
  | single huv => exact hedge huv
  | tail _ hvw ih => exact Nat.lt_trans (hedge hvw) ih

theorem search_true_eq_ok {s : Search n} (h : search edges true = some (.ok s)) (v : Fin n)
    : ¬Relation.TransGen (Edge edges) v v := by
  intro hcycle
  have hmarked : ∀ v, s.marked v = false := by
    intro v
    rw [marked_of_halt h]
    rfl
  exact Nat.lt_irrefl _ ((sorted_of_search h).before hmarked hcycle)

theorem search_true_eq_error {child : Fin n} (h : search edges true = some (.error child))
    : Relation.TransGen (Edge edges) child child := by
  obtain ⟨-, s', s'', hreaches, hback⟩ := run_error h
  have hnext := next_cases edges s'
  rw [hback] at hnext
  exact (inv_of_reaches hreaches).cycle hnext

variable (edges) in
theorem exists_search_false : ∃ s, search edges false = some (.ok s) := by
  obtain ⟨result, hresult⟩ := exists_search edges false
  cases result with
  | ok s => exact ⟨s, hresult⟩
  | error child =>
    obtain ⟨hhalt, -⟩ := run_error hresult
    simp at hhalt

end Search

end Gremlin.Graph
