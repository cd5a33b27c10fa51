import Gremlin.Descriptors.Nodes
import Gremlin.Graph.Search

/-!
This module contains the passes that search the import graph of a set of files or the reference
graph of the messages of a file: the check for cycles and the two topological sorts.
-/

namespace Gremlin

open Gremlin.Graph

namespace Pool

variable (p : Pool)

def fileIndex (f : FileId) : Option (Fin p.files.length) :=
  p.files.finIdxOf? f

/--
The imports of every file, in order. One that is not linked leads nowhere.
-/
def importEdges : Edges p.files.length := fun i =>
  (p.heap p.files[i]).imports.map fun imp => imp.resolved.bind p.fileIndex

def checkNoCycles : Option (Except Failure Unit) :=
  (Search.search p.importEdges true).map fun
    | .error child => .error ⟨.circularImport, child⟩
    | .ok _ => .ok ()

def topoSortFiles : Option (List FileId) :=
  match Search.search p.importEdges false with
  | some (.ok s) => some (s.order.map fun i => p.files[i])
  | _ => none

end Pool

/--
`field_target_msg_idx`, for an array of `n` messages of `file`.
-/
def fieldTargetMsgIdx (file : FileId) (n : Nat) : TypeRef → Option (Fin n)
  | .message target => inFile target
  | .map _ (.message target) => inFile target
  | _ => none
where
  inFile (target : NodeId) : Option (Fin n) :=
    if h : target.file = file ∧ target.index < n then some ⟨target.index, h.2⟩ else none

/--
The fields of every message, in order. One whose type is no message of the file leads nowhere.
-/
def fieldEdges (file : FileId) (messages : List MessageNode) : Edges messages.length := fun i =>
  messages[i].fields.map fun fld => fieldTargetMsgIdx file messages.length fld.type

/--
`struct gremlind_message_order`, with the messages by their indices.
-/
structure MessageOrder (n : Nat) where
  items : List (Fin n)
  predeclare : List (Fin n)
  deriving DecidableEq, Repr

def topoSortMessages (file : FileId) (messages : List MessageNode)
    : Option (MessageOrder messages.length) :=
  match Search.search (fieldEdges file messages) false with
  | some (.ok s) => some ⟨s.order, (List.finRange messages.length).filter s.marked⟩
  | _ => none

/-! The graphs. -/

namespace Pool

variable {p : Pool}

variable (p) in
/--
`f` imports `g`, which is one of the files.
-/
def Imports (f g : FileId) : Prop :=
  g ∈ p.files ∧ ∃ imp ∈ (p.heap f).imports, imp.resolved = some g

theorem fileIndex_eq_some_iff {f : FileId} {i : Fin p.files.length}
    : p.fileIndex f = some i ↔ p.files[i] = f := by
  unfold fileIndex
  rw [List.finIdxOf?_eq_some_iff]
  constructor
  . rintro ⟨heq, -⟩
    exact heq
  . intro heq
    refine ⟨heq, ?_⟩
    intro j hj hne
    have := (List.Nodup.getElem_inj_iff p.nodup).mp (hne.trans heq.symm)
    omega

theorem edge_iff (i j : Fin p.files.length)
    : Edge p.importEdges i j ↔ p.Imports p.files[i] p.files[j] := by
  unfold Edge importEdges Imports
  rw [List.mem_map]
  constructor
  . rintro ⟨imp, himp, heq⟩
    rw [Option.bind_eq_some_iff] at heq
    obtain ⟨g, hg, hindex⟩ := heq
    rw [fileIndex_eq_some_iff] at hindex
    exact ⟨List.getElem_mem _, imp, himp, by rw [hg, hindex]⟩
  . rintro ⟨-, imp, himp, heq⟩
    refine ⟨imp, himp, ?_⟩
    rw [heq, Option.bind_some, fileIndex_eq_some_iff]

theorem transGen_of_edges {i j : Fin p.files.length}
    (h : Relation.TransGen (Edge p.importEdges) i j)
    : Relation.TransGen p.Imports p.files[i] p.files[j] := by
  induction h with
  | single hedge => exact .single ((edge_iff _ _).mp hedge)
  | tail _ hedge ih => exact .tail ih ((edge_iff _ _).mp hedge)

theorem edges_of_transGen {i : Fin p.files.length} {g : FileId}
    (h : Relation.TransGen p.Imports p.files[i] g)
    : ∃ j : Fin p.files.length, p.files[j] = g ∧ Relation.TransGen (Edge p.importEdges) i j := by
  induction h with
  | single himports =>
    obtain ⟨k, hk, rfl⟩ := List.getElem_of_mem himports.1
    exact ⟨⟨k, hk⟩, rfl, .single ((edge_iff _ _).mpr himports)⟩
  | tail _ himports ih =>
    obtain ⟨j, rfl, hpath⟩ := ih
    obtain ⟨k, hk, rfl⟩ := List.getElem_of_mem himports.1
    exact ⟨⟨k, hk⟩, rfl, .tail hpath ((edge_iff _ ⟨k, hk⟩).mpr himports)⟩

theorem cycle_iff (i : Fin p.files.length)
    : Relation.TransGen (Edge p.importEdges) i i ↔ Relation.TransGen p.Imports p.files[i] p.files[i] := by
  constructor
  . exact transGen_of_edges
  . intro h
    obtain ⟨j, hj, hpath⟩ := edges_of_transGen h
    have : i = j := Fin.ext ((List.Nodup.getElem_inj_iff p.nodup).mp hj.symm)
    rwa [← this] at hpath

theorem checkNoCycles_eq_ok_iff
    : p.checkNoCycles = some (.ok ()) ↔ ∀ f ∈ p.files, ¬Relation.TransGen p.Imports f f := by
  unfold checkNoCycles
  obtain ⟨result, hresult⟩ := Search.exists_search p.importEdges true
  rw [hresult]
  cases result with
  | ok s =>
    simp only [Option.map_some, true_iff]
    intro f hf hcycle
    obtain ⟨i, hi, rfl⟩ := List.getElem_of_mem hf
    exact Search.search_true_eq_ok hresult ⟨i, hi⟩ ((cycle_iff ⟨i, hi⟩).mpr hcycle)
  | error child =>
    have hcycle := (cycle_iff child).mp (Search.search_true_eq_error hresult)
    simp only [Option.map_some, Option.some.injEq, reduceCtorEq, false_iff]
    intro h
    exact h _ (List.getElem_mem _) hcycle

theorem checkNoCycles_eq_error {e : Failure} (h : p.checkNoCycles = some (.error e))
    : e.error = .circularImport
        ∧ ∃ f, p.files[e.failedSourceIdx]? = some f ∧ Relation.TransGen p.Imports f f := by
  unfold checkNoCycles at h
  obtain ⟨result, hresult⟩ := Search.exists_search p.importEdges true
  rw [hresult] at h
  cases result with
  | ok s => simp at h
  | error child =>
    simp only [Option.map_some, Option.some.injEq, Except.error.injEq] at h
    subst h
    refine ⟨rfl, p.files[child], ?_, (cycle_iff child).mp (Search.search_true_eq_error hresult)⟩
    simp

theorem exists_checkNoCycles : ∃ result, p.checkNoCycles = some result := by
  unfold checkNoCycles
  obtain ⟨result, hresult⟩ := Search.exists_search p.importEdges true
  exact ⟨_, by rw [hresult, Option.map_some]⟩

variable (p) in
/--
The check ends. It succeeds exactly where no file imports itself over any number of steps, and else
reports a file that does. Its stack never has more frames than there are files.
-/
theorem checkNoCycles_exact
    : (p.checkNoCycles = some (.ok ()) ∧ (∀ f ∈ p.files, ¬Relation.TransGen p.Imports f f)
          ∨ ∃ i f, p.checkNoCycles = some (.error ⟨.circularImport, i⟩) ∧ p.files[i]? = some f
              ∧ Relation.TransGen p.Imports f f)
        ∧ ∀ s, Search.Reaches p.importEdges Search.initial s → s.stack.length ≤ p.files.length := by
  refine ⟨?_, fun s hs => (Search.bounds_of_reaches hs).1⟩
  obtain ⟨result, hresult⟩ := exists_checkNoCycles (p := p)
  cases result with
  | ok _ => exact .inl ⟨hresult, checkNoCycles_eq_ok_iff.mp hresult⟩
  | error e =>
    obtain ⟨herror, f, hf, hcycle⟩ := checkNoCycles_eq_error hresult
    refine .inr ⟨e.failedSourceIdx, f, ?_, hf, hcycle⟩
    rw [hresult, ← herror]

theorem topoSortFiles_eq
    : ∃ s, Search.search p.importEdges false = some (.ok s) ∧ Search.Sorted p.importEdges s
        ∧ p.topoSortFiles = some (s.order.map fun i => p.files[i]) := by
  obtain ⟨s, hs⟩ := Search.exists_search_false p.importEdges
  refine ⟨s, hs, Search.sorted_of_search hs, ?_⟩
  unfold topoSortFiles
  rw [hs]

theorem map_getElem_perm {order : List (Fin p.files.length)}
    (h : order.Perm (List.finRange p.files.length))
    : (order.map fun i => p.files[i]).Perm p.files := by
  have hmap : (List.finRange p.files.length).map (fun i => p.files[i]) = p.files := by
    apply List.ext_getElem <;> simp
  conv_rhs => rw [← hmap]
  exact h.map _

theorem idxOf_map_getElem (order : List (Fin p.files.length)) (i : Fin p.files.length)
    : (order.map fun j => p.files[j]).idxOf p.files[i] = order.idxOf i := by
  have hinj (j : Fin p.files.length) : p.files[j] = p.files[i] ↔ j = i := by
    rw [Fin.ext_iff]
    exact List.Nodup.getElem_inj_iff p.nodup
  unfold List.idxOf
  rw [List.findIdx_map]
  congr 1
  funext j
  simp only [Function.comp_apply, beq_eq_decide, hinj]

/--
Where no file imports itself over any number of steps, every file comes exactly once and strictly
after those it imports. The stack never has more frames than there are files.
-/
theorem topoSortFiles_sorted (hacyclic : ∀ f ∈ p.files, ¬Relation.TransGen p.Imports f f)
    : (∃ order, p.topoSortFiles = some order ∧ order.Perm p.files
          ∧ ∀ f ∈ p.files, ∀ g, p.Imports f g → order.idxOf g < order.idxOf f)
        ∧ ∀ s, Search.Reaches p.importEdges Search.initial s → s.stack.length ≤ p.files.length := by
  refine ⟨?_, fun s hs => (Search.bounds_of_reaches hs).1⟩
  obtain ⟨s, -, hsorted, heq⟩ := topoSortFiles_eq (p := p)
  refine ⟨_, heq, map_getElem_perm hsorted.perm, ?_⟩
  have hmarked : ∀ i, s.marked i = false := by
    intro i
    rw [Bool.eq_false_iff]
    intro hi
    exact hacyclic _ (List.getElem_mem i.isLt) ((cycle_iff i).mp (hsorted.cycle i hi))
  intro f hf g himports
  obtain ⟨i, hi, rfl⟩ := List.getElem_of_mem hf
  obtain ⟨j, hj, rfl⟩ := List.getElem_of_mem himports.1
  have hedge := (edge_iff ⟨i, hi⟩ ⟨j, hj⟩).mpr himports
  have hbefore := hsorted.before hmarked (.single hedge)
  have hi' := idxOf_map_getElem s.order ⟨i, hi⟩
  have hj' := idxOf_map_getElem s.order ⟨j, hj⟩
  dsimp only [Fin.getElem_fin] at hi' hj' ⊢
  rw [hi', hj']
  exact hbefore

def fork : Pool where
  files := [0, 1, 2]
  nodup := by decide
  heap f := {
    FileNode.empty with
    imports := if f = 0 then [⟨⟨[], .typeRegular⟩, some 2⟩, ⟨⟨[], .typePublic⟩, some 1⟩] else []
  }

theorem fork_topoSortFiles_sorted
    : (∃ order, fork.topoSortFiles = some order ∧ order.Perm fork.files
          ∧ ∀ f ∈ fork.files, ∀ g, fork.Imports f g → order.idxOf g < order.idxOf f)
        ∧ ∀ s, Search.Reaches fork.importEdges Search.initial s
          → s.stack.length ≤ fork.files.length :=
  topoSortFiles_sorted (checkNoCycles_eq_ok_iff.mp (by decide +kernel))

end Pool

namespace MessageOrder

variable {file : FileId} {messages : List MessageNode}

/--
The type of a field of `u`, or that of the values of one of its maps, is `v`.
-/
def Refers (file : FileId) (messages : List MessageNode) (u v : Fin messages.length) : Prop :=
  ∃ fld ∈ messages[u].fields,
    fld.type = .message ⟨file, v⟩ ∨ ∃ key, fld.type = .map key (.message ⟨file, v⟩)

theorem fieldTargetMsgIdx_eq_some_iff {n : Nat} {type : TypeRef} {v : Fin n}
    : fieldTargetMsgIdx file n type = some v
        ↔ type = .message ⟨file, v⟩ ∨ ∃ key, type = .map key (.message ⟨file, v⟩) := by
  have hin (target : NodeId)
      : fieldTargetMsgIdx.inFile file n target = some v ↔ target = ⟨file, v⟩ := by
    obtain ⟨f, i⟩ := target
    unfold fieldTargetMsgIdx.inFile
    simp only [Option.dite_none_right_eq_some, Option.some.injEq, NodeId.mk.injEq, Fin.ext_iff]
    have := v.isLt
    grind
  cases type with
  | message target => simp [fieldTargetMsgIdx, hin]
  | map key value => cases value <;> simp [fieldTargetMsgIdx, hin]
  | unresolved => simp [fieldTargetMsgIdx]
  | builtin name => simp [fieldTargetMsgIdx]
  | enumeration target => simp [fieldTargetMsgIdx]

theorem edge_iff (u v : Fin messages.length)
    : Edge (fieldEdges file messages) u v ↔ Refers file messages u v := by
  unfold Edge fieldEdges Refers
  simp only [List.mem_map, fieldTargetMsgIdx_eq_some_iff]

theorem edge_eq : Edge (fieldEdges file messages) = Refers file messages := by
  funext u v
  rw [edge_iff]

theorem items_perm {order : MessageOrder messages.length}
    (h : topoSortMessages file messages = some order)
    : order.items.Perm (List.finRange messages.length) := by
  obtain ⟨s, hs⟩ := Search.exists_search_false (fieldEdges file messages)
  unfold topoSortMessages at h
  rw [hs, Option.some_inj] at h
  subst h
  exact (Search.sorted_of_search hs).perm

variable (file messages) in
/--
The messages are ordered. Those to predeclare are those that some message refers to without coming
after them. Without a cycle there are none. The stack never has more frames than there are messages.
-/
theorem topoSortMessages_declarable
    : (∃ order, topoSortMessages file messages = some order
          ∧ order.items.Perm (List.finRange messages.length)
          ∧ order.predeclare.Nodup
          ∧ (∀ v, v ∈ order.predeclare
              ↔ ∃ u, Refers file messages u v ∧ ¬order.items.idxOf v < order.items.idxOf u)
          ∧ ((∀ v, ¬Relation.TransGen (Refers file messages) v v) → order.predeclare = []
              ∧ ∀ u v, Refers file messages u v → order.items.idxOf v < order.items.idxOf u))
        ∧ ∀ s, Search.Reaches (fieldEdges file messages) Search.initial s
            → s.stack.length ≤ messages.length := by
  refine ⟨?_, fun s hs => (Search.bounds_of_reaches hs).1⟩
  obtain ⟨s, hs⟩ := Search.exists_search_false (fieldEdges file messages)
  have hsorted := Search.sorted_of_search hs
  refine ⟨⟨s.order, (List.finRange messages.length).filter s.marked⟩, ?_, hsorted.perm,
    (List.nodup_finRange _).filter _, ?_, ?_⟩
  . unfold topoSortMessages
    rw [hs]
  . intro v
    have := hsorted.marked_iff v
    rw [edge_eq] at this
    simpa [Before] using this
  . intro hacyclic
    have hmarked : ∀ v, s.marked v = false := by
      intro v
      rw [Bool.eq_false_iff]
      intro hv
      apply hacyclic v
      rw [← edge_eq]
      exact hsorted.cycle v hv
    constructor
    . simp [hmarked]
    . intro u v huv
      exact hsorted.before hmarked (.single ((edge_iff u v).mpr huv))

end MessageOrder

end Gremlin
