import Gremlin.Codegen.Sizes

/-!
This module contains what the contracts say about two memories: that the tree of a message is the same in
both, and the lemmas about that which are emitted with the predicates.
-/

namespace Gremlin

open Gremlin.Graph Memory Naming

/-! Predicates about two memories. -/

section Predicates

variable (messages : List EncodeMessage) (s s' : LogicState)

def SameElement (i : Nat) (m : Addr) (j k : Nat) : EncodeField → Prop
  | .repMsg .. => s.element i m j k = s'.element i m j k
  | .repBytes _ => s.spanAt i m j k = s'.spanAt i m j k
  | _ => s.valueAt i m j k = s'.valueAt i m j k

/--
A conjunct of `emit_own`. The members of a `struct gremlin_bytes` are compared, and not its bytes.
-/
def SameMember (i : Nat) (m : Addr) (j : Nat) : EncodeField → Prop
  | .scalar .. | .enum _ => s.value i m j = s'.value i m j
  | .msg .. => s.pointer i m j = s'.pointer i m j
  | .bytes _ => s.span i m j = s'.span i m j
  | f =>
    s.pointer i m j = s'.pointer i m j ∧ s.count i m j = s'.count i m j
      ∧ ∀ k < s.count i m j, SameElement s s' i m j k f

/--
`emit_own`.
-/
def SameOwn (n : Node) : Prop :=
  ∀ f ∈ places messages n.1, SameMember s s' n.1 n.2 f.2 f.1

/--
`dsame`. The pointers are read in the first memory.
-/
def Dsame (i : Nat) (m : Addr) : Prop :=
  Unfold.Every (below s.toHeap messages) (SameOwn messages s s') (i + 1) (i, m)

def Csame (i : Nat) (m : Addr) : Prop :=
  Unfold.Every (below s.toHeap messages) (fun n => s.cached n.1 n.2 = s'.cached n.1 n.2) (i + 1) (i, m)

/--
`sized`.
-/
def IsSized (literal : (i j : Nat) → Int) (i : Nat) (m : Addr) : Prop :=
  Unfold.Every (below s.toHeap messages)
    (fun n => s.cached n.1 n.2 = tsize s literal messages n.1 n.2) (i + 1) (i, m)

end Predicates

section Trees

variable {messages : List EncodeMessage} {s s' s'' : LogicState} {literal : (i j : Nat) → Int} {i : Nat} {m : Addr}

theorem dsame_iff : Dsame messages s s' i m ↔ ∀ n ∈ treeNodes s.toHeap messages i m, SameOwn messages s s' n :=
  Unfold.every_iff

theorem csame_iff
    : Csame messages s s' i m ↔ ∀ n ∈ treeNodes s.toHeap messages i m, s.cached n.1 n.2 = s'.cached n.1 n.2 :=
  Unfold.every_iff

theorem isSized_iff
    : IsSized messages s literal i m
        ↔ ∀ n ∈ treeNodes s.toHeap messages i m, s.cached n.1 n.2 = tsize s literal messages n.1 n.2 :=
  Unfold.every_iff

/-! The same members. -/

theorem SameMember.children_eq {f : EncodeField} {j : Nat} (h : SameMember s s' i m j f)
    : s.children i m (f, j) = s'.children i m (f, j) := by
  cases f with
  | msg child tagb =>
    have hpointer : s.pointer i m j = s'.pointer i m j := h
    simp only [Heap.children, hpointer]
  | repMsg child tagb =>
    obtain ⟨-, hcount, helement⟩ := h
    have hmap : (List.range (s.count i m j)).map (s.element i m j)
        = (List.range (s'.count i m j)).map (s'.element i m j) := by
      rw [← hcount]
      apply List.map_congr_left
      intro k hk
      exact helement k (List.mem_range.mp hk)
    simp only [Heap.children, hmap]
  | _ => rfl

theorem SameOwn.below_eq {n : Node} (h : SameOwn messages s s' n)
    : below s.toHeap messages n = below s'.toHeap messages n := by
  unfold below
  apply List.flatMap_congr
  intro f hf
  rw [(h f hf).children_eq]

theorem Dsame.treeNodes_eq (h : Dsame messages s s' i m)
    : treeNodes s.toHeap messages i m = treeNodes s'.toHeap messages i m :=
  Unfold.unfold_congr fun n hn => (dsame_iff.mp h n hn).below_eq

theorem Planned.treeNodes_subset {H : Heap} (h : Planned messages) {n : Node} (hn : n ∈ treeNodes H messages i m)
    : treeNodes H messages n.1 n.2 ⊆ treeNodes H messages i m :=
  Unfold.nodes_subset h.below_lt hn

theorem Dsame.node (h : Dsame messages s s' i m) (hplanned : Planned messages) {n : Node}
    (hn : n ∈ treeNodes s.toHeap messages i m) : Dsame messages s s' n.1 n.2 :=
  dsame_iff.mpr fun n' hn' => dsame_iff.mp h n' (hplanned.treeNodes_subset hn hn')

/-! The emitted lemmas. -/

section Sums

variable {size size' : Nat → Addr → Nat} {j : Nat}

/--
The frame lemma of a sum. What it asks of the elements is that they add the same.
-/
theorem fieldSum_frame {f : EncodeField} {n : Nat}
    (h : ∀ k < n, sumTerm s size i m j f k = sumTerm s' size' i m j f k)
    : fieldSum s size i m j f n = fieldSum s' size' i m j f n := by
  unfold fieldSum
  rw [sumTo_eq, sumTo_eq]
  congr 1
  apply List.map_congr_left
  intro k hk
  exact h k (List.mem_range.mp hk)

theorem sumTerm_frame {f : EncodeField} {k : Nat} (h : SameElement s s' i m j k f)
    (hsize : f.isRepMsg = true → s.element i m j k ≠ 0 → ∀ c, f.child? = some c
      → size c (s.element i m j k) = size' c (s.element i m j k))
    : sumTerm s size i m j f k = sumTerm s' size' i m j f k := by
  cases f with
  | repMsg child tagb =>
    have helement : s.element i m j k = s'.element i m j k := h
    unfold sumTerm
    rw [← helement]
    apply ite_congr rfl
    . intro hnull
      rw [termSize, termSize, hsize rfl hnull child rfl]
    . exact fun _ => rfl
  | repBytes tagb =>
    have hspan : s.spanAt i m j k = s'.spanAt i m j k := h
    simp only [sumTerm, hspan]
  | repVarint elem ctype tagb utagb packing =>
    have hvalue : s.valueAt i m j k = s'.valueAt i m j k := h
    simp only [sumTerm, hvalue]
  | _ => rfl

theorem mem_children_of_element {child tagb k : Nat} (hk : k < s.count i m j) (hnull : s.element i m j k ≠ 0)
    : s.element i m j k ∈ s.children i m (.repMsg child tagb, j) := by
  simp only [Heap.children, List.mem_filter, List.mem_map, List.mem_range]
  exact ⟨⟨k, hk, rfl⟩, by simpa using hnull⟩

/--
The size of a field depends on the members and on the sizes of the messages below it.
-/
theorem fieldSize_congr {f : EncodeField} (h : SameMember s s' i m j f)
    (hsize : ∀ c, f.child? = some c → ∀ a ∈ s.children i m (f, j), size c a = size' c a)
    : fieldSize s literal size i m j f = fieldSize s' literal size' i m j f := by
  have hsum (hcount : s.count i m j = s'.count i m j) (helement : ∀ k < s.count i m j, SameElement s s' i m j k f)
      (hrep : f.isRepMsg = true → ∀ k < s.count i m j, s.element i m j k ≠ 0
        → s.element i m j k ∈ s.children i m (f, j))
      : fieldSum s size i m j f (s.count i m j) = fieldSum s' size' i m j f (s'.count i m j) := by
    rw [← hcount]
    apply fieldSum_frame
    intro k hk
    apply sumTerm_frame (helement k hk)
    intro hrepMsg hnull c hc
    exact hsize c hc _ (hrep hrepMsg k hk hnull)
  cases f with
  | scalar kind tagb | enum tagb =>
    have hvalue : s.value i m j = s'.value i m j := h
    simp only [fieldSize, hvalue]
  | bytes tagb =>
    have hspan : s.span i m j = s'.span i m j := h
    simp only [fieldSize, hspan]
  | msg child tagb =>
    have hpointer : s.pointer i m j = s'.pointer i m j := h
    simp only [fieldSize, ← hpointer]
    apply ite_congr rfl
    . intro hnull
      rw [termSize, termSize, hsize child rfl]
      simpa [Heap.children] using hnull
    . exact fun _ => rfl
  | repMsg child tagb =>
    obtain ⟨-, hcount, helement⟩ := h
    exact hsum hcount helement fun _ k hk hnull => mem_children_of_element hk hnull
  | repBytes tagb =>
    obtain ⟨-, hcount, helement⟩ := h
    exact hsum hcount helement fun hrepMsg => absurd hrepMsg Bool.false_ne_true
  | repVarint elem ctype tagb utagb packing =>
    obtain ⟨-, hcount, helement⟩ := h
    have hsum := hsum hcount helement fun hrepMsg => absurd hrepMsg Bool.false_ne_true
    unfold fieldSize
    simp only [hsum]
    cases packing with
    | auto =>
      simp only [← hcount]
      apply ite_congr rfl
      . intro hone
        have hvalue : s.valueAt i m j 0 = s'.valueAt i m j 0 := helement 0 (by omega)
        rw [hvalue]
      . exact fun _ => rfl
    | packed => simp only [← hcount]
    | expanded => simp only [← hcount]
  | repFixed kind tagb utagb packing =>
    obtain ⟨-, hcount, -⟩ := h
    simp only [fieldSize, hcount]

end Sums

theorem SameMember.refl {j : Nat} (f : EncodeField) : SameMember s s i m j f := by
  cases f with
  | scalar | enum | msg | bytes => rfl
  | repMsg | repBytes | repVarint | repFixed => exact ⟨rfl, rfl, fun _ _ => rfl⟩

theorem Planned.tsizeTo_eq (h : Planned messages) {fuel fuel' : Nat} (hfuel : i < fuel) (hfuel' : i < fuel')
    : tsizeTo s literal messages fuel i m = tsizeTo s literal messages fuel' i m := by
  induction fuel generalizing fuel' i m with
  | zero => omega
  | succ fuel ih =>
    cases fuel' with
    | zero => omega
    | succ fuel' =>
      rw [tsizeTo, tsizeTo]
      apply congrArg List.sum
      apply List.map_congr_left
      intro f hf
      apply fieldSize_congr (SameMember.refl f.1)
      intro c hc a _
      have hlt := (h.child i f.1 (mem_fieldsOf_of_places hf) c hc).1
      exact ih (by omega) (by omega)

/--
The equation that `tsize` is emitted with.
-/
theorem Planned.tsize_eq_sum (h : Planned messages)
    : tsize s literal messages i m
        = ((places messages i).map fun f => fieldSize s literal (tsize s literal messages) i m f.2 f.1).sum := by
  rw [tsize, tsizeTo]
  apply congrArg List.sum
  apply List.map_congr_left
  intro f hf
  apply fieldSize_congr (SameMember.refl f.1)
  intro c hc a _
  exact h.tsizeTo_eq (h.child i f.1 (mem_fieldsOf_of_places hf) c hc).1 (Nat.lt_succ_self c)

theorem tsizeTo_frame {fuel : Nat} (h : Unfold.Every (below s.toHeap messages) (SameOwn messages s s') fuel (i, m))
    : tsizeTo s literal messages fuel i m = tsizeTo s' literal messages fuel i m := by
  induction fuel generalizing i m with
  | zero => rfl
  | succ fuel ih =>
    obtain ⟨hown, hbelow⟩ := h
    rw [tsizeTo, tsizeTo]
    apply congrArg List.sum
    apply List.map_congr_left
    intro f hf
    apply fieldSize_congr (hown f hf)
    intro c hc a ha
    apply ih
    exact hbelow (c, a) (mem_below.mpr ⟨f, hf, hc, ha⟩)

/--
`tsize_frame`.
-/
theorem Dsame.tsize_eq (h : Dsame messages s s' i m) : tsize s literal messages i m = tsize s' literal messages i m :=
  tsizeTo_frame h

/--
The frame lemma of the size of a field.
-/
theorem Dsame.fieldSize_eq (h : Dsame messages s s' i m) (hplanned : Planned messages) {f : Place}
    (hf : f ∈ places messages i)
    : fieldSize s literal (tsize s literal messages) i m f.2 f.1
        = fieldSize s' literal (tsize s' literal messages) i m f.2 f.1 := by
  apply fieldSize_congr (h.1 f hf)
  intro c hc a ha
  have hbelow : (c, a) ∈ below s.toHeap messages (i, m) := mem_below.mpr ⟨f, hf, hc, ha⟩
  have hnode : (c, a) ∈ treeNodes s.toHeap messages i m := by
    unfold treeNodes
    rw [Unfold.nodes_eq hplanned.below_lt]
    apply List.mem_cons_of_mem
    refine List.mem_flatMap.mpr ⟨(c, a), hbelow, ?_⟩
    rw [Unfold.nodes_eq hplanned.below_lt]
    exact List.mem_cons_self
  exact (h.node hplanned hnode).tsize_eq

/--
`sized_frame`.
-/
theorem IsSized.frame (h : IsSized messages s literal i m) (hplanned : Planned messages)
    (hdsame : Dsame messages s s' i m) (hcsame : Csame messages s s' i m) : IsSized messages s' literal i m := by
  rw [isSized_iff, ← hdsame.treeNodes_eq]
  intro n hn
  rw [← csame_iff.mp hcsame n hn, isSized_iff.mp h n hn]
  exact congrArg _ (hdsame.node hplanned hn).tsize_eq

theorem SameMember.trans {f : EncodeField} {j : Nat} (h : SameMember s s' i m j f) (h' : SameMember s' s'' i m j f)
    : SameMember s s'' i m j f := by
  cases f with
  | scalar | enum | msg | bytes => exact Eq.trans h h'
  | repMsg | repBytes | repVarint | repFixed =>
    obtain ⟨hpointer, hcount, helement⟩ := h
    obtain ⟨hpointer', hcount', helement'⟩ := h'
    refine ⟨hpointer.trans hpointer', hcount.trans hcount', fun k hk => ?_⟩
    exact Eq.trans (helement k hk) (helement' k (hcount ▸ hk))

/--
`dsame_trans`.
-/
theorem Dsame.trans (h : Dsame messages s s' i m) (h' : Dsame messages s' s'' i m) : Dsame messages s s'' i m := by
  rw [dsame_iff]
  intro n hn f hf
  exact (dsame_iff.mp h n hn f hf).trans (dsame_iff.mp h' n (h.treeNodes_eq ▸ hn) f hf)

/-! The same objects. -/

/--
Two memories with the same types, where the same can be accessed.
-/
structure SameTypes (s s' : LogicState) : Prop where
  nodeSize : s.nodeSize = s'.nodeSize
  elemSize : s.elemSize = s'.elemSize
  pointerSize : s.pointerSize = s'.pointerSize
  writable : s.Writable = s'.Writable
  readable : s.Readable = s'.Readable

theorem SameMember.array_eq {f : EncodeField} {j : Nat} (h : SameMember s s' i m j f) (htypes : SameTypes s s')
    (hrep : f.isRep = true) : s.count i m j = s'.count i m j ∧ s.array i m (f, j) = s'.array i m (f, j) := by
  have harray (hpointer : s.pointer i m j = s'.pointer i m j) (hcount : s.count i m j = s'.count i m j)
      : s.array i m (f, j) = s'.array i m (f, j) := by
    simp only [Heap.array, hpointer, hcount, htypes.elemSize, htypes.pointerSize]
  cases f with
  | scalar | enum | msg | bytes => cases hrep
  | repMsg | repBytes | repVarint | repFixed => exact ⟨h.2.1, harray h.1 h.2.1⟩

theorem EncodeField.isRep_of_array {f : EncodeField} (h : f.array?.isSome = true) : f.isRep = true := by
  cases f <;> first | rfl | cases h

theorem SameMember.payloads_eq {f : EncodeField} {j : Nat} (h : SameMember s s' i m j f)
    : s.payloads i m (f, j) = s'.payloads i m (f, j) := by
  cases f with
  | bytes tagb =>
    have hspan : s.span i m j = s'.span i m j := h
    simp only [Heap.payloads, hspan]
  | repBytes tagb =>
    obtain ⟨-, hcount, helement⟩ := h
    simp only [Heap.payloads, ← hcount]
    apply List.map_congr_left
    intro k hk
    exact helement k (List.mem_range.mp hk)
  | _ => rfl

/--
The arrays of a message that are not empty.
-/
theorem SameOwn.arrays_eq {n : Node} (h : SameOwn messages s s' n) (htypes : SameTypes s s') {p : EncodeField → Bool}
    (hp : ∀ f, p f = true → f.isRep = true)
    : ((places messages n.1).filter fun f => p f.1 && s.count n.1 n.2 f.2 != 0).map (s.array n.1 n.2)
        = ((places messages n.1).filter fun f => p f.1 && s'.count n.1 n.2 f.2 != 0).map (s'.array n.1 n.2) := by
  have hfilter : ((places messages n.1).filter fun f => p f.1 && s.count n.1 n.2 f.2 != 0)
      = (places messages n.1).filter fun f => p f.1 && s'.count n.1 n.2 f.2 != 0 := by
    apply List.filter_congr
    intro f hf
    by_cases hf' : p f.1 = true
    . rw [((h f hf).array_eq htypes (hp _ hf')).1]
    . simp [hf']
  rw [hfilter]
  apply List.map_congr_left
  intro f hf
  rw [List.mem_filter, Bool.and_eq_true] at hf
  exact ((h f hf.1).array_eq htypes (hp _ hf.2.1)).2

theorem SameTypes.node_eq (htypes : SameTypes s s') (n : Node) : s.node n.1 n.2 = s'.node n.1 n.2 := by
  rw [Heap.node, Heap.node, htypes.nodeSize]

theorem SameOwn.own_eq {n : Node} (h : SameOwn messages s s' n) (htypes : SameTypes s s')
    : own s.toHeap messages n = own s'.toHeap messages n := by
  unfold own
  rw [htypes.node_eq, h.arrays_eq htypes (p := fun f => f.array?.isSome) fun f => EncodeField.isRep_of_array]

theorem SameOwn.extent_eq {n : Node} (h : SameOwn messages s s' n) (htypes : SameTypes s s')
    : extent s.toHeap messages n = extent s'.toHeap messages n := by
  unfold extent
  rw [htypes.node_eq, h.arrays_eq htypes (p := EncodeField.isRep) fun _ => id]
  have hpayloads : (places messages n.1).flatMap (s.payloads n.1 n.2)
      = (places messages n.1).flatMap (s'.payloads n.1 n.2) := by
    apply List.flatMap_congr
    intro f hf
    exact (h f hf).payloads_eq
  rw [hpayloads]

theorem SameOwn.accessible {n : Node} (h : SameOwn messages s s' n) (htypes : SameTypes s s')
    (haccessible : Accessible s.toHeap messages n) : Accessible s'.toHeap messages n where
  node := by
    rw [← htypes.node_eq, ← htypes.writable]
    exact haccessible.node
  array := by
    intro f hf hrep hcount
    obtain ⟨hcount', harray⟩ := (h f hf).array_eq htypes hrep
    rw [← harray, ← htypes.readable]
    exact haccessible.array f hf hrep (hcount' ▸ hcount)
  payload := by
    intro f hf r hr hsize
    rw [← (h f hf).payloads_eq] at hr
    rw [← htypes.readable]
    exact haccessible.payload f hf r hr hsize

theorem Dsame.treeObjects_eq (h : Dsame messages s s' i m) (htypes : SameTypes s s')
    : treeObjects s.toHeap messages i m = treeObjects s'.toHeap messages i m := by
  have hnodes := h.treeNodes_eq
  unfold treeNodes at hnodes
  unfold treeObjects Unfold.objects
  rw [← hnodes]
  apply List.flatMap_congr
  intro n hn
  exact (dsame_iff.mp h n hn).own_eq htypes

section Meaning

variable {plan : EncodePlan} {defs : List (LogicPred × LogicBody)}

/--
What a size function leaves as it was is still valid.
-/
theorem Dsame.valid (h : Dsame plan.messages s s' i m) (htypes : SameTypes s s') (hemitted : plan.Emitted defs)
    (hsound : plan.Sound) (hok : IsOk plan.messages i) (hvalid : meaning s.toHeap defs (.valid i) m .nothing)
    : meaning s'.toHeap defs (.valid i) m .nothing := by
  rw [hemitted.valid_iff hsound hok] at hvalid ⊢
  obtain ⟨haccessible, hpairwise⟩ := hvalid
  rw [← h.treeNodes_eq, ← h.treeObjects_eq htypes]
  exact ⟨fun n hn => (dsame_iff.mp h n hn).accessible htypes (haccessible n hn), hpairwise⟩

theorem Dsame.bufsep (h : Dsame plan.messages s s' i m) (htypes : SameTypes s s') (hemitted : plan.Emitted defs)
    (hsound : plan.Sound) (hok : IsOk plan.messages i) {b : Addr} {lo hi : Int}
    (hbufsep : meaning s.toHeap defs (.bufsep i) m (.buffer b lo hi))
    : meaning s'.toHeap defs (.bufsep i) m (.buffer b lo hi) := by
  rw [hemitted.bufsep_iff hsound hok] at hbufsep ⊢
  rw [← h.treeNodes_eq]
  intro n hn
  rw [← (dsame_iff.mp h n hn).extent_eq htypes]
  exact hbufsep n hn

/--
`bufsep_sub`.
-/
theorem EncodePlan.Emitted.bufsep_sub {H : Heap} (hemitted : plan.Emitted defs) (hsound : plan.Sound)
    (hok : IsOk plan.messages i) {b : Addr} {lo hi lo' hi' : Int} (hlo : lo ≤ lo') (hhi : hi' ≤ hi)
    (hbufsep : meaning H defs (.bufsep i) m (.buffer b lo hi)) : meaning H defs (.bufsep i) m (.buffer b lo' hi') := by
  rw [hemitted.bufsep_iff hsound hok] at hbufsep ⊢
  intro n hn r hr
  apply Finset.disjoint_of_subset_left _ (hbufsep n hn r hr)
  intro x hx
  simp only [Arg.region, Region.addresses, Finset.mem_Ico] at hx ⊢
  omega

end Meaning

end Trees

/--
The lemmas that are emitted with the predicates hold in all memories.
-/
theorem logic_lemmas (cName : NodeId → Spelling) (order : List (NodeId × MessageNode))
    : ∃ plan defs, encodePlanBuild cName order = some plan ∧ plan.emitLogic = some defs
      ∧ ∀ i, IsOk plan.messages i → ∀ m literal,
        (∀ s, tsize s literal plan.messages i m
          = ((places plan.messages i).map fun f =>
              fieldSize s literal (tsize s literal plan.messages) i m f.2 f.1).sum)
        ∧ (∀ s s', Dsame plan.messages s s' i m
          → (∀ f ∈ places plan.messages i,
              fieldSize s literal (tsize s literal plan.messages) i m f.2 f.1
                = fieldSize s' literal (tsize s' literal plan.messages) i m f.2 f.1)
            ∧ tsize s literal plan.messages i m = tsize s' literal plan.messages i m
            ∧ (Csame plan.messages s s' i m → IsSized plan.messages s literal i m
              → IsSized plan.messages s' literal i m)
            ∧ ∀ s'', Dsame plan.messages s' s'' i m → Dsame plan.messages s s'' i m)
        ∧ ∀ (H : Heap) b lo hi lo' hi', lo ≤ lo' → hi' ≤ hi → meaning H defs (.bufsep i) m (.buffer b lo hi)
          → meaning H defs (.bufsep i) m (.buffer b lo' hi') := by
  obtain ⟨plan, hbuild, -, hsound⟩ := encodePlanBuild_sound cName order
  obtain ⟨defs, hemit, hemitted⟩ := hsound.exists_emitLogic
  refine ⟨plan, defs, hbuild, hemit, fun i hok m literal => ⟨fun s => hsound.planned.tsize_eq_sum, ?_, ?_⟩⟩
  . intro s s' hdsame
    exact ⟨fun f hf => hdsame.fieldSize_eq hsound.planned hf, hdsame.tsize_eq,
      fun hcsame hsized => hsized.frame hsound.planned hdsame hcsame, fun s'' hdsame' => hdsame.trans hdsame'⟩
  . intro H b lo hi lo' hi' hlo hhi
    exact hemitted.bufsep_sub hsound hok hlo hhi

end Gremlin
