import Gremlin.Codegen.Dispatch
import Gremlin.Codegen.Frames
import Gremlin.Machine.Contracts

/-!
This module contains that the generated size and encode functions meet the contracts that are generated for
them.
-/

namespace Gremlin

open Codec Gremlin.Graph Machine Memory Naming

/-! The tree of a message. -/

section Trees

variable {H : Heap} {messages : List EncodeMessage} {i : Nat} {m : Addr}

theorem Planned.mem_treeNodes (h : Planned messages) {n x : Node}
    : n ∈ treeNodes H messages x.1 x.2 ↔ n = x ∨ ∃ y ∈ below H messages x, n ∈ treeNodes H messages y.1 y.2 := by
  unfold treeNodes
  rw [Unfold.nodes_eq h.below_lt, List.mem_cons, List.mem_flatMap]

theorem Planned.self_mem_treeNodes (h : Planned messages) (n : Node) : n ∈ treeNodes H messages n.1 n.2 :=
  h.mem_treeNodes.mpr (.inl rfl)

theorem Planned.below_subset (h : Planned messages) (n : Node) : below H messages n ⊆ treeNodes H messages n.1 n.2 :=
  fun n' hn' => h.mem_treeNodes.mpr (.inr ⟨n', hn', h.self_mem_treeNodes n'⟩)

theorem Planned.isOk_treeNodes (h : Planned messages) (hok : IsOk messages i)
    : ∀ n ∈ treeNodes H messages i m, IsOk messages n.1 := by
  induction i using Nat.strong_induction_on generalizing m with
  | _ i ih =>
    rw [h.forall_treeNodes]
    refine ⟨hok, ?_⟩
    intro f hf c hc a _
    obtain ⟨hlt, hok⟩ := h.child i f.1 (mem_fieldsOf_of_places hf) c hc
    exact ih c hlt hok

/--
The objects of two messages of a tree are apart.
-/
theorem own_apart (h : (treeObjects H messages i m).Pairwise Separated) {n n' : Node}
    (hn : n ∈ treeNodes H messages i m) (hn' : n' ∈ treeNodes H messages i m) (hne : n ≠ n')
    : ∀ r ∈ own H messages n, ∀ r' ∈ own H messages n', Separated r r' := by
  have hpairwise := (List.pairwise_flatMap.mp h).2
  have hsymm : Std.Symm fun n n' => ∀ r ∈ own H messages n, ∀ r' ∈ own H messages n', Separated r r' :=
    ⟨fun n n' hapart r hr r' hr' => (hapart r' hr' r hr).symm⟩
  exact hpairwise.forall hn hn' hne

theorem own_pairwise_of_treeObjects (h : (treeObjects H messages i m).Pairwise Separated) {n : Node}
    (hn : n ∈ treeNodes H messages i m) : (own H messages n).Pairwise Separated :=
  (List.pairwise_flatMap.mp h).1 n hn

theorem node_mem_own (n : Node) : H.node n.1 n.2 ∈ own H messages n :=
  List.mem_cons_self

theorem array_mem_own {n : Node} {f : Place} (hf : f ∈ places messages n.1) (harray : f.1.array?.isSome = true)
    (hcount : H.count n.1 n.2 f.2 ≠ 0) : H.array n.1 n.2 f ∈ own H messages n := by
  apply List.mem_cons_of_mem
  apply List.mem_map_of_mem
  rw [List.mem_filter, Bool.and_eq_true, bne_iff_ne]
  exact ⟨hf, harray, hcount⟩

/--
An array of a message is apart from the struct of any message of the tree.
-/
theorem array_apart (h : (treeObjects H messages i m).Pairwise Separated) {n n' : Node}
    (hn : n ∈ treeNodes H messages i m) (hn' : n' ∈ treeNodes H messages i m) {f : Place}
    (hf : f ∈ places messages n.1) (harray : f.1.array?.isSome = true)
    : Separated (H.array n.1 n.2 f) (H.node n'.1 n'.2) := by
  by_cases hcount : H.count n.1 n.2 f.2 = 0
  . exact separated_of_size_eq_zero (size_array_eq_zero hcount)
  . have hmem := array_mem_own hf harray hcount
    by_cases hne : n = n'
    . subst hne
      have hpairwise := own_pairwise_of_treeObjects h hn
      unfold own at hpairwise hmem
      rw [List.pairwise_cons] at hpairwise
      apply Separated.symm
      apply hpairwise.1
      apply List.mem_map_of_mem
      rw [List.mem_filter, Bool.and_eq_true, bne_iff_ne]
      exact ⟨hf, harray, hcount⟩
    . exact own_apart h hn hn' hne _ hmem _ (node_mem_own n')

end Trees

section Memories

variable {cName : NodeId → Spelling} {messages : List EncodeMessage} {S : Schema} {L : Layout S} {P : Platform cName}
  {mem mem' : Mem} {i : Nat} {m : Addr}

theorem Generates.mem_treeNodes_iff (h : Generates cName messages S) (hplanned : Planned messages)
    (hok : IsOk messages i) (t : MsgId) (a : Addr)
    : (t, a) ∈ treeNodes (L.state P mem).toHeap messages i m ↔ Reaches (L.view mem) i m t a := by
  constructor
  . intro hmem
    induction i using Nat.strong_induction_on generalizing m with
    | _ i ih =>
      rcases (hplanned.mem_treeNodes (x := (i, m))).mp hmem with heq | ⟨⟨c, b⟩, hbelow, hmem⟩
      . cases heq
        exact .refl t a
      . have hlt : c < i := hplanned.below_lt (i, m) _ hbelow
        have hchild := hbelow
        rw [h.below_eq hok] at hchild
        exact .step hchild (ih c hlt (hplanned.isOk_below hbelow) hmem)
  . intro hreach
    induction hreach with
    | refl t a => exact hplanned.self_mem_treeNodes (t, a)
    | @step t a target b t' a' hchild _ ih =>
      rw [← h.below_eq hok (P := P)] at hchild
      exact hplanned.treeNodes_subset (hplanned.below_subset (t, a) hchild) (ih (hplanned.isOk_below hchild))

/-! What the logic and the code read. -/

section Field

variable {t : MsgId} {j : Nat} {a : Addr} {f : EncodeField} {F : Field}

/--
Arrays have the same regions in the logic and in the code.
-/
theorem array_eq (hfits : Fits cName f F) (hrep : f.isRep = true)
    : (L.state P mem).array t a (f, j) = L.arrayRegion t j a F.family mem := by
  cases hfits with
  | scalar | enum | bytes | msg => cases hrep
  | repMsg target index => rfl
  | repBytes index =>
    change (⟨_, _ * P.elemSize "struct gremlin_bytes".toList⟩ : Region) = _
    rw [P.elemSize_bytes]
    rfl
  | @repVarint elem _ _ ctype hctype index packing =>
    change (⟨_, _ * P.elemSize ctype⟩ : Region) = _
    rw [P.elemSize_eq hctype]
    rfl
  | @repFixed kind _ index packing =>
    change (⟨_, _ * P.elemSize kind.cType⟩ : Region) = _
    rw [P.elemSize_scalar]
    rfl

theorem hasCount_eq (hfits : Fits cName f F) : F.family.hasCount = f.isRep := by
  cases hfits <;> rfl

theorem comparedRegions_eq (hfits : Fits cName f F) : L.comparedRegions t j a F.family mem = [] := by
  cases hfits <;> rfl

theorem payloads_eq (hfits : Fits cName f F)
    : L.payloads t j a F.family mem = (L.state P mem).payloads t a (f, j) := by
  cases hfits with
  | repBytes index =>
    change ((List.range _).map fun k => [L.loadSpan (L.element t j a 16 k mem) mem]).flatten = (List.range _).map _
    rw [← List.flatMap_def]
    exact List.map_eq_flatMap.symm
  | _ => rfl

theorem sameValueAt {e : Elem} {packing : Packing} {index k : Nat}
    (hget : (S t)[j]? = some ⟨index, .repScalar e packing⟩) (h : L.SameField t j a (.repScalar e packing) mem' mem)
    (hk : k < L.count t j a mem) : (L.state P mem).valueAt t a j k = (L.state P mem').valueAt t a j k := by
  have hagree : AgreeOn mem' mem ⟨L.element t j a e.byteSize k mem, e.byteSize⟩ := h.agree_element rfl hk
  rw [state_valueAt hget, state_valueAt hget, h.element rfl, Layout.loadElem_congr hagree]

/--
A field with the same bytes has the same members.
-/
theorem sameMember_of_sameField (hget : (S t)[j]? = some F) (hfits : Fits cName f F)
    (h : L.SameField t j a F.family mem' mem) : SameMember (L.state P mem) (L.state P mem') t a j f := by
  have hmember := h.member
  have hpointer (hcount : F.family.hasCount = true)
      : L.loadWord (L.member t j a) mem = L.loadWord (L.member t j a) mem' ∧ L.count t j a mem = L.count t j a mem' :=
    ⟨(h.array hcount).symm, (h.count hcount).symm⟩
  cases hfits with
  | scalar | enum =>
    change (L.state P mem).value t a j = (L.state P mem').value t a j
    rw [state_value hget, state_value hget, Layout.loadElem_congr hmember]
  | bytes index => exact (Layout.loadSpan_congr hmember).symm
  | msg target index => exact (Layout.loadWord_congr hmember).symm
  | repMsg target index =>
    refine ⟨(hpointer rfl).1, (hpointer rfl).2, ?_⟩
    intro k hk
    have hagree : AgreeOn mem' mem ⟨L.element t j a 8 k mem, 8⟩ := h.agree_element rfl hk
    change L.loadWord (L.element t j a 8 k mem) mem = L.loadWord (L.element t j a 8 k mem') mem'
    rw [h.element rfl, Layout.loadWord_congr hagree]
  | repBytes index =>
    refine ⟨(hpointer rfl).1, (hpointer rfl).2, ?_⟩
    intro k hk
    have hagree : AgreeOn mem' mem ⟨L.element t j a 16 k mem, 16⟩ := h.agree_element rfl hk
    change L.loadSpan (L.element t j a 16 k mem) mem = L.loadSpan (L.element t j a 16 k mem') mem'
    rw [h.element rfl, Layout.loadSpan_congr hagree]
  | repVarint | repFixed => exact ⟨(hpointer rfl).1, (hpointer rfl).2, fun k hk => sameValueAt hget h hk⟩

end Field

/-! Apart. -/

theorem Layout.cacheRegion_within (t : MsgId) (a : Addr) : (L.cacheRegion t a).Within ((L.state P mem).node t a) := by
  apply Region.within_of_le
  exact L.cache_within t

/--
A region in the struct of a message, beside its `_size`.
-/
theorem disjoint_cacheRegion (h : (treeObjects (L.state P mem).toHeap messages i m).Pairwise Separated) {n n' : Node}
    (hn : n ∈ treeNodes (L.state P mem).toHeap messages i m)
    (hn' : n' ∈ treeNodes (L.state P mem).toHeap messages i m) {offset size : Nat}
    (hwithin : offset + size ≤ L.nodeSize n.1)
    (hapart : offset + size ≤ L.cacheAt n.1 ∨ L.cacheAt n.1 + 8 ≤ offset)
    : Disjoint (⟨n.2 + offset, size⟩ : Region).addresses (L.cacheRegion n'.1 n'.2).addresses := by
  by_cases hne : n = n'
  . subst hne
    apply Region.disjoint_of_offsets
    exact hapart
  . apply Region.disjoint_within (own_apart h hn hn' hne _ (node_mem_own n) _ (node_mem_own n'))
    . apply Region.within_of_le
      exact hwithin
    . exact Layout.cacheRegion_within n'.1 n'.2

variable (L P messages mem i m) in
/--
Arrays of pointers to messages do not overlap with `_size` members. The contracts do not say so: objects of
these types do not overlap in C.
-/
def PointersApart : Prop :=
  ∀ n ∈ treeNodes (L.state P mem).toHeap messages i m, ∀ n' ∈ treeNodes (L.state P mem).toHeap messages i m,
    ∀ f ∈ places messages n.1, f.1.isRepMsg = true
      → Separated ((L.state P mem).array n.1 n.2 f) (L.cacheRegion n'.1 n'.2)

theorem EncodeField.isRep_cases {f : EncodeField} (h : f.isRep = true)
    : f.array?.isSome = true ∨ f.isRepMsg = true := by
  cases f <;> first | exact .inl rfl | exact .inr rfl | cases h

theorem Generates.cachesApart (h : Generates cName messages S) (hplanned : Planned messages) (hok : IsOk messages i)
    (hobjects : (treeObjects (L.state P mem).toHeap messages i m).Pairwise Separated)
    (hpointers : PointersApart messages L P mem i m) : CachesApart L (Reaches (L.view mem) i m) mem where
  fields := by
    intro t a ht j r hr t' a' ht'
    rw [← h.mem_treeNodes_iff hplanned hok (P := P)] at ht ht'
    obtain ⟨f, hf, hfits⟩ := h.field (hplanned.isOk_treeNodes hok _ ht) j
    rw [Layout.fieldRegions, comparedRegions_eq hfits, List.append_nil, List.mem_cons] at hr
    rcases hr with rfl | hr
    . exact disjoint_cacheRegion hobjects ht ht' (L.member_within t j) (L.member_apart t j)
    . by_cases hcount : (S.field t j).family.hasCount = true
      . rw [if_pos hcount, List.mem_cons, List.mem_singleton] at hr
        rcases hr with rfl | rfl
        . exact disjoint_cacheRegion hobjects ht ht' (L.count_within t j hcount) (L.count_apart t j hcount)
        . have hrep : f.isRep = true := by rw [← hasCount_eq hfits, hcount]
          rw [← array_eq (P := P) hfits hrep]
          rcases EncodeField.isRep_cases hrep with harray | hrepMsg
          . exact Finset.disjoint_of_subset_right (Layout.cacheRegion_within t' a').subset
              (array_apart hobjects ht ht' hf harray)
          . exact hpointers _ ht _ ht' _ hf hrepMsg
      . simp [hcount] at hr
  caches := by
    intro t a t' a' ht ht'
    rw [← h.mem_treeNodes_iff hplanned hok (P := P)] at ht ht'
    by_cases heq : t = t' ∧ a = a'
    . exact .inl heq
    . right
      have hne : (t, a) ≠ (t', a') := fun h => heq (Prod.mk.injEq _ _ _ _ ▸ h)
      exact Region.disjoint_within (own_apart hobjects ht ht' hne _ (node_mem_own _) _ (node_mem_own _))
        (Layout.cacheRegion_within t a) (Layout.cacheRegion_within t' a')

theorem Generates.bufferApart (h : Generates cName messages S) (hplanned : Planned messages) (hok : IsOk messages i)
    {buf off size : Nat}
    (hbuffer : ∀ n ∈ treeNodes (L.state P mem).toHeap messages i m, ∀ r ∈ extent (L.state P mem).toHeap messages n,
      Separated ⟨buf + off, size⟩ r)
    : BufferApart L (Reaches (L.view mem) i m) mem buf off (off + size) := by
  have hwindow : window buf off (off + size) = ⟨buf + off, size⟩ := by
    rw [window, Nat.add_sub_cancel_left]
  have hextent (t : MsgId) (a : Addr) (ht : Reaches (L.view mem) i m t a)
      : (t, a) ∈ treeNodes (L.state P mem).toHeap messages i m
        ∧ Separated ⟨buf + off, size⟩ ((L.state P mem).node t a)
        ∧ ∀ f ∈ places messages t, (f.1.isRep = true → (L.state P mem).count t a f.2 = 0
              ∨ Separated ⟨buf + off, size⟩ ((L.state P mem).array t a f))
          ∧ ∀ r ∈ (L.state P mem).payloads t a f, r.size = 0 ∨ Separated ⟨buf + off, size⟩ r := by
    rw [← h.mem_treeNodes_iff hplanned hok (P := P)] at ht
    exact ⟨ht, forall_extent.mp (hbuffer (t, a) ht)⟩
  rw [hwindow.symm] at hextent
  constructor
  . intro t a ht j r hr
    obtain ⟨hmem, hnode, hfields⟩ := hextent t a ht
    obtain ⟨f, hf, hfits⟩ := h.field (hplanned.isOk_treeNodes hok _ hmem) j
    obtain ⟨harray, hpayloads⟩ := hfields _ hf
    have hwithin {offset size' : Nat} (hle : offset + size' ≤ L.nodeSize t)
        : Disjoint (⟨a + offset, size'⟩ : Region).addresses (window buf off (off + size)).addresses :=
      Finset.disjoint_of_subset_left (Region.within_of_le hle).subset hnode.symm
    rw [Layout.fieldRegions, comparedRegions_eq hfits, List.append_nil, List.cons_append, List.mem_cons,
      List.mem_append, payloads_eq hfits] at hr
    rcases hr with rfl | hr | hr
    . exact hwithin (L.member_within t j)
    . by_cases hcount : (S.field t j).family.hasCount = true
      . rw [if_pos hcount, List.mem_cons, List.mem_singleton] at hr
        rcases hr with rfl | rfl
        . exact hwithin (L.count_within t j hcount)
        . have hrep : f.isRep = true := by rw [← hasCount_eq hfits, hcount]
          rw [← array_eq (P := P) hfits hrep]
          rcases harray hrep with hempty | hsep
          . exact separated_of_size_eq_zero (size_array_eq_zero hempty)
          . exact hsep.symm
      . simp [hcount] at hr
    . rcases hpayloads r hr with hempty | hsep
      . exact separated_of_size_eq_zero hempty
      . exact hsep.symm
  . intro t a ht
    obtain ⟨-, hnode, -⟩ := hextent t a ht
    exact Finset.disjoint_of_subset_left (Layout.cacheRegion_within t a).subset hnode.symm

/-! What stays as it was. -/

/--
Where nothing but `_size` members was written, the tree is the same.
-/
theorem Generates.dsame (h : Generates cName messages S) (hplanned : Planned messages) (hok : IsOk messages i)
    (hapart : CachesApart L (Reaches (L.view mem) i m) mem) (honly : OnlyCaches L (Reaches (L.view mem) i m) mem mem')
    : Dsame messages (L.state P mem) (L.state P mem') i m := by
  have hcache : HasCache L (Reaches (L.view mem) i m) mem mem' fun t a => L.loadCache t a mem' :=
    ⟨honly, fun _ _ _ => rfl⟩
  rw [dsame_iff]
  rintro ⟨t, a⟩ hmem ⟨f, j⟩ hf
  have hreach := (h.mem_treeNodes_iff hplanned hok t a).mp hmem
  obtain ⟨F, hget, hfits⟩ := h.getElem? (hplanned.isOk_treeNodes hok _ hmem) hf
  obtain ⟨hj, rfl⟩ := List.getElem?_eq_some_iff.mp hget
  exact sameMember_of_sameField hget hfits (hcache.sameFields hapart (SameFields.refl mem) t a hreach ⟨j, hj⟩)

theorem sameTypes_state (mem mem' : Mem) : SameTypes (L.state P mem) (L.state P mem') :=
  ⟨rfl, rfl, rfl, rfl, rfl⟩

/-! Sizes. -/

theorem Generates.isSized (h : Generates cName messages S) (hplanned : Planned messages) (hok : IsOk messages i)
    (hacyclic : Acyclic (L.view mem) i m) (hset : SizesSet L hacyclic mem')
    (hdsame : Dsame messages (L.state P mem) (L.state P mem') i m)
    : IsSized messages (L.state P mem') (P.literal S) i m := by
  rw [isSized_iff, ← hdsame.treeNodes_eq]
  rintro ⟨t, a⟩ hmem
  have hreach := (h.mem_treeNodes_iff hplanned hok t a).mp hmem
  rw [← (hdsame.node hplanned hmem).tsize_eq]
  rw [h.tsize_eq hplanned (hplanned.isOk_treeNodes hok _ hmem) (hacyclic.reached hreach)]
  exact congrArg Nat.cast (hset t a hreach)

theorem Generates.sizesSet (h : Generates cName messages S) (hplanned : Planned messages) (hok : IsOk messages i)
    (hacyclic : Acyclic (L.view mem) i m) (hsized : IsSized messages (L.state P mem) (P.literal S) i m)
    : SizesSet L hacyclic mem := by
  intro t a hreach
  have hmem := (h.mem_treeNodes_iff hplanned hok (P := P) t a).mpr hreach
  have hcached := isSized_iff.mp hsized (t, a) hmem
  rw [h.tsize_eq hplanned (hplanned.isOk_treeNodes hok _ hmem) (hacyclic.reached hreach)] at hcached
  exact Int.natCast_inj.mp hcached

end Memories

/-! The write set. -/

section WriteSet

variable (H : Heap) (messages : List EncodeMessage) (root : Node)

/--
`ws_collect`. `guard` is whether the path to the base is there. Where it is not, the location of a field is
that of the root.
-/
def wsCollect : (fuel : Nat) → (base : Node) → (guard : Bool) → List Node
  | 0, _, _ => []
  | fuel + 1, base, guard =>
    (places messages base.1).flatMap fun f =>
      match f.1 with
      | .msg child _ =>
        let sub := (child, H.pointer base.1 base.2 f.2)
        (if guard then sub else root) :: wsCollect fuel sub (guard && sub.2 != 0)
      | .repMsg child _ =>
        (List.range (if guard then H.count base.1 base.2 f.2 else 0)).map fun k =>
          (child, H.element base.1 base.2 f.2 k)
      | _ => []

/--
`emit_wset`: the messages whose `_size` may be written.
-/
def writeSet (n : Node) : List Node :=
  n :: wsCollect H messages n (n.1 + 1) n true

end WriteSet

section WriteSet

variable {H : Heap} {messages : List EncodeMessage}

theorem Planned.mem_wsCollect (h : Planned messages) (root : Node) {fuel : Nat} {base : Node} (hfuel : base.1 < fuel)
    {n : Node} (hn : n ∈ treeNodes H messages base.1 base.2)
    : n = base ∨ n ∈ wsCollect H messages root fuel base true := by
  induction fuel generalizing base with
  | zero => omega
  | succ fuel ih =>
    rcases h.mem_treeNodes.mp hn with rfl | ⟨⟨c, a⟩, hbelow, hn⟩
    . exact .inl rfl
    . right
      obtain ⟨⟨f, j⟩, hf, hc, ha⟩ := mem_below.mp hbelow
      have hlt := h.below_lt base _ hbelow
      refine List.mem_flatMap.mpr ⟨(f, j), hf, ?_⟩
      cases f with
      | msg child tagb =>
        cases hc
        simp only [Heap.children, List.mem_filter, List.mem_singleton, decide_eq_true_eq] at ha
        obtain ⟨rfl, hnull⟩ := ha
        have hguard : (true && H.pointer base.1 base.2 j != 0) = true := by simpa using hnull
        simp only [if_true, hguard]
        exact List.mem_cons.mpr (ih (Nat.lt_of_lt_of_le hlt (Nat.le_of_lt_succ hfuel)) hn)
      | repMsg child tagb =>
        cases hc
        simp only [Heap.children, List.mem_filter, List.mem_map, List.mem_range] at ha
        obtain ⟨⟨k, hk, rfl⟩, -⟩ := ha
        -- An element has no messages below it.
        rcases h.mem_treeNodes.mp hn with rfl | ⟨y, hy, -⟩
        . exact List.mem_map.mpr ⟨k, List.mem_range.mpr hk, rfl⟩
        . obtain ⟨g, hg, hchild, -⟩ := mem_below.mp hy
          have hnone := h.element base.1 _ (mem_fieldsOf_of_places hf) rfl _ rfl g.1 (mem_fieldsOf_of_places hg)
          rw [hnone] at hchild
          cases hchild
      | _ => cases hc

theorem Planned.subset_writeSet (h : Planned messages) (x : Node)
    : treeNodes H messages x.1 x.2 ⊆ writeSet H messages x := by
  intro n hn
  rcases h.mem_wsCollect x (Nat.lt_succ_self x.1) hn with rfl | hmem
  . exact List.mem_cons_self
  . exact List.mem_cons_of_mem _ hmem

end WriteSet

/-! The contracts. -/

section Contracts

variable {cName : NodeId → Spelling} {plan : EncodePlan} {defs : List (LogicPred × LogicBody)} {S : Schema}
  {L : Layout S} {P : Platform cName} {mem : Mem} {i : Nat} {m : Addr}

/--
What a message that is valid gives the size and the encode function.
-/
theorem EncodePlan.Emitted.cachesApart (hemitted : plan.Emitted defs) (hsound : plan.Sound)
    (hgenerates : Generates cName plan.messages S) (hok : IsOk plan.messages i)
    (hpointers : PointersApart plan.messages L P mem i m)
    (hvalid : meaning (L.state P mem).toHeap defs (.valid i) m .nothing)
    : CachesApart L (Reaches (L.view mem) i m) mem := by
  rw [hemitted.valid_iff hsound hok] at hvalid
  exact hgenerates.cachesApart hsound.planned hok hvalid.2 hpointers

theorem EncodePlan.Emitted.size_meets (hemitted : plan.Emitted defs) (hsound : plan.Sound)
    (hgenerates : Generates cName plan.messages S) (hok : IsOk plan.messages i)
    (hpointers : PointersApart plan.messages L P mem i m)
    (hvalid : meaning (L.state P mem).toHeap defs (.valid i) m .nothing)
    (hsize : tsize (L.state P mem) (P.literal S) plan.messages i m ≤ 0x7fffffffffffffff) {fuel : Nat}
    (hfuel : i + 1 ≤ fuel)
    : ∃ result mem',
        sizeAt L (2 ^ 64 + fuel) i m mem = some (result, mem')
          ∧ result.toNat = tsize (L.state P mem) (P.literal S) plan.messages i m
          ∧ IsSized plan.messages (L.state P mem') (P.literal S) i m
          ∧ Dsame plan.messages (L.state P mem) (L.state P mem') i m
          ∧ OnlyCaches L (Reaches (L.view mem) i m) mem mem' := by
  have hplanned := hsound.planned
  have hapart := hemitted.cachesApart hsound hgenerates hok hpointers hvalid
  have hheight : Height (L.view mem) (i + 1) i m := hgenerates.height hplanned P hok
  rw [hgenerates.tsize_eq hplanned hok hheight.acyclic] at hsize ⊢
  have hlen : (messageBytes hheight.acyclic).length < 2 ^ 64 := by omega
  obtain ⟨result, mem', hrun, hresult, hset, honly⟩ := sizeAt_of_apart hheight.acyclic hapart hlen hheight hfuel
  have hdsame := hgenerates.dsame hplanned hok hapart honly (P := P)
  exact ⟨result, mem', hrun, hresult, hgenerates.isSized hplanned hok hheight.acyclic hset hdsame, hdsame, honly⟩

theorem EncodePlan.Emitted.encode_meets (hemitted : plan.Emitted defs) (hsound : plan.Sound)
    (hgenerates : Generates cName plan.messages S) (hok : IsOk plan.messages i) {buf off : Nat}
    (hsized : IsSized plan.messages (L.state P mem) (P.literal S) i m)
    (hoff : off + (L.loadCache i m mem).toNat ≤ 0x7fffffffffffffff)
    (hbufsep : meaning (L.state P mem).toHeap defs (.bufsep i) m
      (.buffer buf off (off + (L.loadCache i m mem).toNat - 1))) {fuel : Nat} (hfuel : i + 1 ≤ fuel)
    : (wireBytes (L.view mem) (i + 1) i m).length = (L.loadCache i m mem).toNat
      ∧ encodeIntoAt L buf (2 ^ 64 + fuel) i m off mem
        = some (off + (L.loadCache i m mem).toNat, mem.write (buf + off) (wireBytes (L.view mem) (i + 1) i m)) := by
  have hplanned := hsound.planned
  have hheight : Height (L.view mem) (i + 1) i m := hgenerates.height hplanned P hok
  have hset := hgenerates.sizesSet hplanned hok hheight.acyclic hsized
  have hcached : (L.loadCache i m mem).toNat = (messageBytes hheight.acyclic).length := hset i m (.refl i m)
  rw [hcached] at hoff hbufsep ⊢
  rw [← messageBytes_eq hheight.acyclic hheight]
  refine ⟨rfl, ?_⟩
  rw [hemitted.bufsep_iff hsound hok] at hbufsep
  have hregion : (Arg.buffer buf off (off + (messageBytes hheight.acyclic).length - 1)).region (L.state P mem).toHeap
      = ⟨buf + off, (messageBytes hheight.acyclic).length⟩ := by
    change (⟨((buf : Int) + off).toNat, _⟩ : Region) = _
    rw [Region.mk.injEq]
    omega
  rw [hregion] at hbufsep
  have hbuffer := hgenerates.bufferApart hplanned hok hbufsep
  have hlen : (messageBytes hheight.acyclic).length < 2 ^ 64 :=
    Nat.lt_of_le_of_lt (Nat.le_trans (Nat.le_add_left _ off) hoff) (by decide)
  exact encodeIntoAt_of_sameContents hheight.acyclic hbuffer (SameContents.refl mem) hset hlen hheight hfuel

end Contracts

/-! A file with the two messages of the sample. -/

def pairField (label : FieldLabel) (index : Int) (type : TypeRef) : FieldNode where
  parsed := ⟨label, .named [], [], index, ⟨0, 0, 0⟩⟩
  type := type
  default := none
  packing := .auto
  originFile := none
  originScope := none

def pairOrder : List (NodeId × MessageNode) :=
  [(⟨0, 0⟩, ⟨⟨[], 0, 0⟩,
      [pairField .none 1 (.builtin "int32".toList), pairField .none 2 (.builtin "bytes".toList)], none, ⟨[], false⟩⟩),
    (⟨0, 1⟩, ⟨⟨[], 0, 0⟩,
      [pairField .none 1 (.message ⟨0, 0⟩), pairField .repeated 2 (.builtin "uint32".toList)], none, ⟨[], false⟩⟩)]

def pairPool : Pool where
  files := [0]
  nodup := nodup_single
  heap _ := { FileNode.empty with messages := pairOrder.map Prod.snd }

def pairName (_ : NodeId) : Spelling :=
  []

def pairElemSize (ctype : Spelling) : Nat :=
  if ctype = "struct gremlin_bytes".toList then 16
  else if ctype = "bool".toList then 1
  else if ctype = "int64_t".toList ∨ ctype = "uint64_t".toList ∨ ctype = "double".toList then 8
  else 4

theorem pairElemSize_scalar (kind : ScalarKind) : pairElemSize kind.cType = (Elem.scalar kind).byteSize := by
  cases kind <;> decide +kernel

theorem pairElemSize_name (target : NodeId) : pairElemSize (pairName target) = 4 :=
  rfl

theorem pairElemSize_bytes : pairElemSize "struct gremlin_bytes".toList = 16 :=
  if_pos rfl

/--
Any memory can be accessed.
-/
def pairPlatform : Platform pairName where
  enumSigned _ _ := true
  elemSize := pairElemSize
  elemSize_scalar := pairElemSize_scalar
  elemSize_enum := pairElemSize_name
  elemSize_bytes := pairElemSize_bytes
  Writable _ := True
  Readable _ := True

theorem pairPlatform_generated : Generated pairPlatform pairPool NodeId.index pairOrder pairSchema where
  place_eq i node m h := by
    match i with
    | 0 =>
      cases h
      rfl
    | 1 =>
      cases h
      rfl
    | _ + 2 => cases h
  message_eq i node m h _ := by
    match i with
    | 0 =>
      cases h
      rfl
    | 1 =>
      cases h
      rfl
    | _ + 2 => cases h

theorem pairOrder_isOk : IsOk (planMessages pairName pairOrder) 1 :=
  ⟨_, rfl, rfl⟩

def pairState (sized : Bool) : LogicState :=
  pairLayout.state pairPlatform (pairMemory sized)

/--
The size of the message and its `_size` members, and that nothing of it overlaps with anything else or with the
buffer, evaluated at once.
-/
theorem pairState_facts (sized : Bool)
    : (tsize (pairState sized) (pairPlatform.literal pairSchema) (planMessages pairName pairOrder) 1 64 = 14
        ∧ (∀ n ∈ treeNodes (pairState true).toHeap (planMessages pairName pairOrder) 1 64,
          (pairState true).cached n.1 n.2
            = tsize (pairState true) (pairPlatform.literal pairSchema) (planMessages pairName pairOrder) n.1 n.2)
        ∧ (pairLayout.loadCache 1 64 (pairMemory true)).toNat = 14)
      ∧ PointersApart (planMessages pairName pairOrder) pairLayout pairPlatform (pairMemory sized) 1 64
      ∧ (treeObjects (pairState sized).toHeap (planMessages pairName pairOrder) 1 64).Pairwise Separated
      ∧ ∀ n ∈ treeNodes (pairState sized).toHeap (planMessages pairName pairOrder) 1 64,
        ∀ r ∈ extent (pairState sized).toHeap (planMessages pairName pairOrder) n,
          Separated ((Arg.buffer 144 0 (((0 : Nat) : Int) + (14 : Nat) - 1)).region (pairState sized).toHeap) r := by
  unfold PointersApart Separated
  revert sized
  decide +kernel

theorem pairState_accessible (sized : Bool) (n : Node)
    : Accessible (pairState sized).toHeap (planMessages pairName pairOrder) n where
  node := trivial
  array _ _ _ _ := trivial
  payload _ _ _ _ _ := trivial

/--
What the contracts ask of the message, for the plan and the logic of the file.
-/
theorem pairState_meets (sized : Bool) {plan : EncodePlan} {defs : List (LogicPred × LogicBody)}
    (hbuild : encodePlanBuild pairName pairOrder = some plan) (hemit : plan.emitLogic = some defs)
    : IsOk plan.messages 1
      ∧ PointersApart plan.messages pairLayout pairPlatform (pairMemory sized) 1 64
      ∧ meaning (pairState sized).toHeap defs (.valid 1) 64 .nothing
      ∧ tsize (pairState sized) (pairPlatform.literal pairSchema) plan.messages 1 64 = 14
      ∧ IsSized plan.messages (pairState true) (pairPlatform.literal pairSchema) 1 64
      ∧ meaning (pairState sized).toHeap defs (.bufsep 1) 64 (.buffer 144 0 (((0 : Nat) : Int) + (14 : Nat) - 1)) := by
  obtain ⟨plan', hbuild', hmessages, hsound⟩ := encodePlanBuild_sound pairName pairOrder
  cases hbuild.symm.trans hbuild'
  obtain ⟨defs', hemit', hemitted⟩ := hsound.exists_emitLogic
  cases hemit.symm.trans hemit'
  have hok : IsOk plan.messages 1 := hmessages ▸ pairOrder_isOk
  obtain ⟨⟨htsize, hsized, -⟩, hpointers, hobjects, hbuffer⟩ := pairState_facts sized
  rw [hemitted.valid_iff hsound hok, hemitted.bufsep_iff hsound hok, isSized_iff, hmessages]
  exact ⟨pairOrder_isOk, hpointers, ⟨fun n _ => pairState_accessible sized n, hobjects⟩, htsize, hsized, hbuffer⟩

/-! The contracts of a file. -/

/--
The size function meets its contract.
-/
theorem size_meets_contract (cName : NodeId → Spelling) (order : List (NodeId × MessageNode))
    : ∃ plan defs, encodePlanBuild cName order = some plan ∧ plan.emitLogic = some defs
      ∧ ∀ (P : Platform cName) (p : Pool) (place : NodeId → MsgId) (S : Schema) (L : Layout S) (mem : Mem) (i : Nat)
        (m : Addr), Generated P p place order S → IsOk plan.messages i → PointersApart plan.messages L P mem i m
        → meaning (L.state P mem).toHeap defs (.valid i) m .nothing
        → tsize (L.state P mem) (P.literal S) plan.messages i m ≤ 0x7fffffffffffffff
        → ∃ depth, ∀ fuel, depth ≤ fuel → ∃ result mem',
          sizeAt L fuel i m mem = some (result, mem')
            ∧ result.toNat = tsize (L.state P mem) (P.literal S) plan.messages i m
            ∧ IsSized plan.messages (L.state P mem') (P.literal S) i m
            ∧ Dsame plan.messages (L.state P mem) (L.state P mem') i m
            ∧ ∀ x, (∀ n ∈ writeSet (L.state P mem).toHeap plan.messages (i, m), x ∉ (L.cacheRegion n.1 n.2).addresses)
              → mem' x = mem x := by
  obtain ⟨plan, hbuild, hmessages, hsound⟩ := encodePlanBuild_sound cName order
  obtain ⟨defs, hemit, hemitted⟩ := hsound.exists_emitLogic
  refine ⟨plan, defs, hbuild, hemit, ?_⟩
  intro P p place S L mem i m hgenerated hok hpointers hvalid hsize
  have hgenerates : Generates cName plan.messages S := hmessages ▸ hgenerated.generates
  apply exists_depth (i + 1)
  intro fuel hfuel
  obtain ⟨result, mem', hrun, hresult, hsized, hdsame, honly⟩ :=
    hemitted.size_meets hsound hgenerates hok hpointers hvalid hsize hfuel
  refine ⟨result, mem', hrun, hresult, hsized, hdsame, ?_⟩
  intro x hx
  apply honly
  intro t a hreach
  rw [← hgenerates.mem_treeNodes_iff hsound.planned hok (P := P)] at hreach
  exact hx (t, a) (hsound.planned.subset_writeSet (i, m) hreach)

theorem size_meets_contract_pairMemory
    : ∃ depth, ∀ fuel, depth ≤ fuel → ∃ result mem',
        sizeAt pairLayout fuel 1 64 (pairMemory false) = some (result, mem') ∧ result.toNat = 14 := by
  obtain ⟨plan, defs, hbuild, hemit, hmeets⟩ := size_meets_contract pairName pairOrder
  obtain ⟨hok, hpointers, hvalid, htsize, -⟩ := pairState_meets false hbuild hemit
  have hmeets := hmeets pairPlatform pairPool NodeId.index pairSchema pairLayout (pairMemory false) 1 64
    pairPlatform_generated hok hpointers hvalid
  rw [← pairState, htsize] at hmeets
  obtain ⟨depth, hdepth⟩ := hmeets (by decide)
  refine ⟨depth, ?_⟩
  intro fuel hfuel
  obtain ⟨result, mem', hrun, hresult, -⟩ := hdepth fuel hfuel
  exact ⟨result, mem', hrun, hresult⟩

/--
The encode function meets its contract, and writes the bytes of the message. Of the precondition it takes no
more than `_sized` and `_bufsep`.
-/
theorem encode_meets_contract (cName : NodeId → Spelling) (order : List (NodeId × MessageNode))
    : ∃ plan defs, encodePlanBuild cName order = some plan ∧ plan.emitLogic = some defs
      ∧ ∀ (P : Platform cName) (p : Pool) (place : NodeId → MsgId) (S : Schema) (L : Layout S) (mem : Mem) (i : Nat)
        (m : Addr) (buf off : Nat), Generated P p place order S → IsOk plan.messages i
        → IsSized plan.messages (L.state P mem) (P.literal S) i m
        → off + (L.loadCache i m mem).toNat ≤ 0x7fffffffffffffff
        → meaning (L.state P mem).toHeap defs (.bufsep i) m (.buffer buf off (off + (L.loadCache i m mem).toNat - 1))
        → (wireBytes (L.view mem) (i + 1) i m).length = (L.loadCache i m mem).toNat
          ∧ ∃ depth, ∀ fuel, depth ≤ fuel
            → encodeIntoAt L buf fuel i m off mem
              = some (off + (L.loadCache i m mem).toNat,
                  mem.write (buf + off) (wireBytes (L.view mem) (i + 1) i m)) := by
  obtain ⟨plan, hbuild, hmessages, hsound⟩ := encodePlanBuild_sound cName order
  obtain ⟨defs, hemit, hemitted⟩ := hsound.exists_emitLogic
  refine ⟨plan, defs, hbuild, hemit, ?_⟩
  intro P p place S L mem i m buf off hgenerated hok hsized hoff hbufsep
  have hgenerates : Generates cName plan.messages S := hmessages ▸ hgenerated.generates
  have hmeets {fuel : Nat} (hfuel : i + 1 ≤ fuel) :=
    hemitted.encode_meets hsound hgenerates hok hsized hoff hbufsep hfuel
  refine ⟨(hmeets (Nat.le_refl _)).1, ?_⟩
  apply exists_depth (i + 1)
  intro fuel hfuel
  exact (hmeets hfuel).2

theorem encode_meets_contract_pairMemory
    : ∃ depth, ∀ fuel, depth ≤ fuel
        → encodeIntoAt pairLayout 144 fuel 1 64 0 (pairMemory true)
          = some (0 + 14,
              (pairMemory true).write (144 + 0) (wireBytes (pairLayout.view (pairMemory true)) 2 1 64)) := by
  obtain ⟨plan, defs, hbuild, hemit, hmeets⟩ := encode_meets_contract pairName pairOrder
  obtain ⟨hok, -, -, -, hsized, hbufsep⟩ := pairState_meets true hbuild hemit
  have hmeets := hmeets pairPlatform pairPool NodeId.index pairSchema pairLayout (pairMemory true) 1 64 144 0
    pairPlatform_generated hok hsized
  rw [← pairState, (pairState_facts true).1.2.2] at hmeets
  exact (hmeets (by decide) hbufsep).2

/--
After the size function the contract of the encode function is met, for a buffer that is apart from the message
before.
-/
theorem size_encode_meet_contracts (cName : NodeId → Spelling) (order : List (NodeId × MessageNode))
    : ∃ plan defs, encodePlanBuild cName order = some plan ∧ plan.emitLogic = some defs
      ∧ ∀ (P : Platform cName) (p : Pool) (place : NodeId → MsgId) (S : Schema) (L : Layout S) (mem : Mem) (i : Nat)
        (m : Addr) (buf off : Nat), Generated P p place order S → IsOk plan.messages i
        → PointersApart plan.messages L P mem i m
        → meaning (L.state P mem).toHeap defs (.valid i) m .nothing
        → off + tsize (L.state P mem) (P.literal S) plan.messages i m ≤ 0x7fffffffffffffff
        → meaning (L.state P mem).toHeap defs (.bufsep i) m
            (.buffer buf off (off + tsize (L.state P mem) (P.literal S) plan.messages i m - 1))
        → ∃ depth, ∀ fuel, depth ≤ fuel → ∃ result mem',
          sizeAt L fuel i m mem = some (result, mem')
            ∧ result.toNat = tsize (L.state P mem) (P.literal S) plan.messages i m
            ∧ meaning (L.state P mem').toHeap defs (.valid i) m .nothing
            ∧ IsSized plan.messages (L.state P mem') (P.literal S) i m
            ∧ meaning (L.state P mem').toHeap defs (.bufsep i) m
                (.buffer buf off (off + (L.loadCache i m mem').toNat - 1))
            ∧ (wireBytes (L.view mem') (i + 1) i m).length = result.toNat
            ∧ encodeIntoAt L buf fuel i m off mem'
              = some (off + result.toNat, mem'.write (buf + off) (wireBytes (L.view mem') (i + 1) i m)) := by
  obtain ⟨plan, hbuild, hmessages, hsound⟩ := encodePlanBuild_sound cName order
  obtain ⟨defs, hemit, hemitted⟩ := hsound.exists_emitLogic
  refine ⟨plan, defs, hbuild, hemit, ?_⟩
  intro P p place S L mem i m buf off hgenerated hok hpointers hvalid hsize hbufsep
  have hgenerates : Generates cName plan.messages S := hmessages ▸ hgenerated.generates
  apply exists_depth (i + 1)
  intro fuel hfuel
  have hsize' := Nat.le_trans (Nat.le_add_left _ off) hsize
  obtain ⟨result, mem', hrun, hresult, hsized, hdsame, -⟩ :=
    hemitted.size_meets hsound hgenerates hok hpointers hvalid hsize' hfuel
  -- The `_size` of the message is what was returned.
  have hcached : (L.loadCache i m mem').toNat = result.toNat := by
    have hself := Int.natCast_inj.mp (isSized_iff.mp hsized (i, m) (hsound.planned.self_mem_treeNodes (i, m)))
    rw [hself, hresult, hdsame.tsize_eq]
  have hvalid' := hdsame.valid (sameTypes_state mem mem') hemitted hsound hok hvalid
  have hbufsep' := hdsame.bufsep (sameTypes_state mem mem') hemitted hsound hok hbufsep
  rw [← hresult, ← hcached] at hbufsep' hsize
  obtain ⟨hlength, hencode⟩ := hemitted.encode_meets hsound hgenerates hok hsized hsize hbufsep' hfuel
  rw [hcached] at hlength hencode
  exact ⟨result, mem', hrun, hresult, hvalid', hsized, hbufsep', hlength, hencode⟩

theorem pairMemory_meets_contracts
    : ∃ depth, ∀ fuel, depth ≤ fuel → ∃ result mem',
        sizeAt pairLayout fuel 1 64 (pairMemory false) = some (result, mem')
          ∧ result.toNat = 14
          ∧ encodeIntoAt pairLayout 144 fuel 1 64 0 mem'
              = some (0 + result.toNat, mem'.write (144 + 0) (wireBytes (pairLayout.view mem') 2 1 64)) := by
  obtain ⟨plan, defs, hbuild, hemit, hmeets⟩ := size_encode_meet_contracts pairName pairOrder
  obtain ⟨hok, hpointers, hvalid, htsize, -, hbufsep⟩ := pairState_meets false hbuild hemit
  have hmeets := hmeets pairPlatform pairPool NodeId.index pairSchema pairLayout (pairMemory false) 1 64 144 0
    pairPlatform_generated hok hpointers hvalid
  rw [← pairState, htsize] at hmeets
  obtain ⟨depth, hdepth⟩ := hmeets (by decide) hbufsep
  refine ⟨depth, ?_⟩
  intro fuel hfuel
  obtain ⟨result, mem', hrun, hresult, -, -, -, -, hencode⟩ := hdepth fuel hfuel
  exact ⟨result, mem', hrun, hresult, hencode⟩

end Gremlin
