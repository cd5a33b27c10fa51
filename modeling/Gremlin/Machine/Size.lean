import Gremlin.Machine.Layout
import Gremlin.Machine.Refines
import Gremlin.Writer.Agreement

/-!
This module contains the generated size function on the memory of a machine. It reads the members of a
message again wherever the code names them, also behind the calls that have written `_size` members.
Where these are apart from what it reads, it refines the size function on message values.
-/

namespace Gremlin

open Codec Machine Memory

abbrev MachineM := StateT Mem Option

section Code

variable {S : Schema} (L : Layout S) (messageSize : MsgId → Addr → MachineM SizeT) (fuel : Nat)
variable (t : MsgId) (i : Nat) (a : Addr) (index : Nat)

/--
The statements of a field without messages or map entries. They call nothing and write nothing, so that they
read one memory.
-/
def sizeLeaf (f : Family) (s : SizeT) : MachineM SizeT := fun mem =>
  ((sizeField (fun _ _ => failure) index f (L.loadField t i a mem f) s).run' fun _ _ => 0).map fun s => (s, mem)

/--
What a message adds to the accumulator.
-/
def addChild (s childSize : SizeT) : SizeT :=
  s + (BitVec.ofNat 64 (tagBytes index .lenPrefix) + BitVec.ofNat 64 (varintSize childSize) + childSize)

def sizeOrZeroAt (target : MsgId) (p : Mem → Option Addr) : MachineM SizeT :=
  reads p >>= fun
    | some p => messageSize target p
    | none => pure 0

/--
`_inner` of a map entry. A reference to a message is read for every call.
-/
def entrySizeAt (key : Slot) : (value : MapValue) → (k : Nat) → MachineM SizeT
  | .slot s, k =>
    reads fun mem => slotSize 2 s (L.value t i a k (.slot s) mem) (slotSize 1 key (L.key t i a k key mem) 0)
  | .message target, k =>
    reads (fun mem => slotSize 1 key (L.key t i a k key mem) 0) >>= fun inner =>
      sizeOrZeroAt messageSize target (L.value t i a k (.message target)) >>= fun forPrefix =>
        sizeOrZeroAt messageSize target (L.value t i a k (.message target)) >>= fun forPayload =>
          pure
            (inner + (BitVec.ofNat 64 (tagBytes 2 .lenPrefix) + BitVec.ofNat 64 (varintSize forPrefix) + forPayload))

/--
`sizeField` on a memory. A loop has `fuel` turns at most.
-/
def sizeFieldAt : Family → SizeT → MachineM SizeT
  | .msgRef target, s =>
    reads (L.loadPointer (L.member t i a)) >>= fun
      | none => pure s
      | some p => messageSize target p >>= fun childSize => pure (addChild index s childSize)
  | .repMsg target, s =>
    loop (L.count t i a)
      (fun k s =>
        reads (fun mem => L.loadPointer (L.element t i a 8 k mem) mem) >>= fun
          | some p => messageSize target p >>= fun childSize => pure (addChild index s childSize)
          | none => pure (s + BitVec.ofNat 64 (tagBytes index .lenPrefix + 1)))
      fuel 0 s
  | .map key value, s =>
    loop (L.count t i a)
      (fun k s => entrySizeAt L messageSize t i a key value k >>= fun inner => pure (addChild index s inner))
      fuel 0 s
  | f, s => sizeLeaf L t i a index f s

end Code

/--
The generated size function on a memory. `fuel` bounds the depth of the recursion and the turns of the loops.
-/
def sizeAt {S : Schema} (L : Layout S) : (fuel : Nat) → MsgId → Addr → MachineM SizeT
  | 0, _, _ => failure
  | fuel + 1, t, a => do
    let s ← (List.finRange (S t).length).foldlM
      (fun s (i : Fin (S t).length) =>
        sizeFieldAt L (sizeAt L fuel) fuel t i a (S.field t i).index (S.field t i).family s)
      0
    modify (L.storeCache t a s)
    return s

/-! Values that take as many bytes. -/

def Slot.Alike : (s : Slot) → s.Value → s.Value → Prop
  | .elem _, v, v' => v = v'
  | .bytes, v, v' => v.length = v'.length

def MapValue.Alike : (value : MapValue) → value.Value → value.Value → Prop
  | .slot s => s.Alike
  | .message _ => Eq

/--
The values of a field are the same up to the contents of bytes that are not compared with a default.
-/
def Family.Alike : (f : Family) → f.Value → f.Value → Prop
  | .bytes default, v, v' => v.length = v'.length ∧ (default ≠ [] → v = v')
  | .repBytes, vs, vs' => List.Forall₂ (fun v v' => v.length = v'.length) vs vs'
  | _, v, v' => v = v'

def Family.isLeaf : Family → Bool
  | .msgRef _ | .repMsg _ | .map .. => false
  | _ => true

theorem Slot.Alike.slotSize {s : Slot} {v v' : s.Value} (h : s.Alike v v') (num : Nat) (inner : SizeT)
    : slotSize num s v inner = slotSize num s v' inner := by
  cases s with
  | elem e =>
    obtain rfl : v = v' := h
    rfl
  | bytes =>
    have hlength : v.length = v'.length := h
    simp only [Gremlin.slotSize, hlength]

/--
A fold over lists whose elements add the same.
-/
theorem exists_foldlM_eq {α ι : Type} {f : ι → SizeT → α → SizeM SizeT} {P : α → α → Prop}
    (hf : ∀ s x x', P x x' → ∃ y, ∀ j, f j s x = pure y ∧ f j s x' = pure y) {xs xs' : List α}
    (h : List.Forall₂ P xs xs') (s : SizeT)
    : ∃ y, ∀ j, xs.foldlM (f j) s = pure y ∧ xs'.foldlM (f j) s = pure y := by
  induction h generalizing s with
  | nil => exact ⟨s, fun _ => ⟨rfl, rfl⟩⟩
  | cons hx _ ih =>
    obtain ⟨s₁, hs₁⟩ := hf s _ _ hx
    obtain ⟨y, hy⟩ := ih s₁
    refine ⟨y, fun j => ?_⟩
    rw [List.foldlM_cons, List.foldlM_cons, (hs₁ j).1, (hs₁ j).2, pure_bind]
    exact hy j

/--
The size of a field without messages takes no calls, and depends on no contents of bytes but those that are
compared with a default.
-/
theorem Family.Alike.sizeField {f : Family} (hleaf : f.isLeaf = true) {v v' : f.Value} (h : f.Alike v v')
    (index : Nat) (s : SizeT)
    : ∃ x, ∀ messageSize, sizeField messageSize index f v s = pure x
      ∧ sizeField messageSize index f v' s = pure x := by
  cases f with
  | scalar e default =>
    obtain rfl : v = v' := h
    by_cases hdiffers : e.differs v default
    . exact ⟨_, fun _ => ⟨if_pos hdiffers, if_pos hdiffers⟩⟩
    . exact ⟨_, fun _ => ⟨if_neg hdiffers, if_neg hdiffers⟩⟩
  | bytes default =>
    obtain ⟨hlength, hcontents⟩ := h
    have hne : v ≠ default ↔ v' ≠ default := by
      by_cases hdefault : default = []
      . rw [hdefault, ← List.length_pos_iff, ← List.length_pos_iff, hlength]
      . rw [hcontents hdefault]
    by_cases hv : v ≠ default
    . refine ⟨_, fun _ => ⟨if_pos hv, ?_⟩⟩
      rw [hlength]
      exact if_pos (hne.mp hv)
    . exact ⟨_, fun _ => ⟨if_neg hv, if_neg (fun h => hv (hne.mpr h))⟩⟩
  | repScalar e packing =>
    obtain rfl : v = v' := h
    rcases v with _ | ⟨v, _ | ⟨v', vs⟩⟩ <;> cases packing <;> exact ⟨_, fun _ => ⟨rfl, rfl⟩⟩
  | repBytes =>
    have hlengths : List.Forall₂ (fun v v' : List UInt8 => v.length = v'.length) v v' := h
    apply exists_foldlM_eq _ hlengths
    intro s v v' hlength
    refine ⟨_, fun _ => ⟨rfl, ?_⟩⟩
    rw [hlength]
  | msgRef target => cases hleaf
  | repMsg target => cases hleaf
  | map key value => cases hleaf

namespace Layout

variable {S : Schema} {L : Layout S}

/--
The members of a map entry are inside of its struct.
-/
def EntryFits (L : Layout S) (t : MsgId) (i : Nat) (f : Family) : Prop :=
  ∀ key value, f = .map key value
    → L.keyAt t i + key.memberSize ≤ L.entrySize t i ∧ L.valueAt t i + value.memberSize ≤ L.entrySize t i

theorem entryFits (t : MsgId) (i : Fin (S t).length) : L.EntryFits t i (S.field t i).family :=
  fun key value h => ⟨L.key_within t i key value h, L.value_within t i key value h⟩

theorem alike_loadSlot {s : Slot} {a : Addr} {mem mem' : Mem} (h : AgreeOn mem mem' ⟨a, s.memberSize⟩)
    : s.Alike (L.loadSlot s a mem) (L.loadSlot s a mem') := by
  cases s with
  | elem e => exact loadElem_congr h
  | bytes =>
    have hspan := loadSpan_congr (L := L) h
    change (Mem.read _ _ _).length = (Mem.read _ _ _).length
    rw [Mem.read, Mem.read, List.length_map, List.length_map, hspan]

theorem alike_loadMapValue {value : MapValue} {a : Addr} {mem mem' : Mem}
    (h : AgreeOn mem mem' ⟨a, value.memberSize⟩)
    : value.Alike (L.loadMapValue value a mem) (L.loadMapValue value a mem') := by
  cases value with
  | slot s => exact alike_loadSlot h
  | message target => exact loadPointer_congr h

section Field

variable {t : MsgId} {i : Nat} {a : Addr} {mem mem' : Mem}

/--
The key and the value of an entry have the same bytes.
-/
theorem SameField.agree_entry {key : Slot} {value : MapValue} (h : L.SameField t i a (.map key value) mem mem')
    (hentry : L.EntryFits t i (.map key value)) {k : Nat} (hk : k < L.count t i a mem')
    : AgreeOn mem mem' ⟨L.element t i a (L.entrySize t i) k mem' + L.keyAt t i, key.memberSize⟩
      ∧ AgreeOn mem mem' ⟨L.element t i a (L.entrySize t i) k mem' + L.valueAt t i, value.memberSize⟩ := by
  have hagree := h.agree_element rfl hk
  obtain ⟨hkey, hvalue⟩ := hentry key value rfl
  change AgreeOn mem mem' ⟨L.element t i a (L.entrySize t i) k mem', L.entrySize t i⟩ at hagree
  constructor
  . apply hagree.within
    exact ⟨Nat.le_add_right _ _, by rw [Nat.add_assoc]; exact Nat.add_le_add_left hkey _⟩
  . apply hagree.within
    exact ⟨Nat.le_add_right _ _, by rw [Nat.add_assoc]; exact Nat.add_le_add_left hvalue _⟩

theorem SameField.alike_entry {key : Slot} {value : MapValue} (h : L.SameField t i a (.map key value) mem mem')
    (hentry : L.EntryFits t i (.map key value)) {k : Nat} (hk : k < L.count t i a mem')
    : key.Alike (L.key t i a k key mem) (L.key t i a k key mem')
      ∧ value.Alike (L.value t i a k value mem) (L.value t i a k value mem') := by
  obtain ⟨hkey, hvalue⟩ := h.agree_entry hentry hk
  unfold Layout.key Layout.value
  rw [h.element rfl]
  exact ⟨alike_loadSlot hkey, alike_loadMapValue hvalue⟩

/--
What a field holds depends on what is read of it, up to the contents of bytes.
-/
theorem SameField.alike {f : Family} (hleaf : f.isLeaf = true) (h : L.SameField t i a f mem mem')
    : f.Alike (L.loadField t i a mem f) (L.loadField t i a mem' f) := by
  have hmember := h.member
  cases f with
  | scalar e default => exact loadElem_congr hmember
  | bytes default =>
    have hspan : L.loadSpan (L.member t i a) mem = L.loadSpan (L.member t i a) mem' := loadSpan_congr hmember
    constructor
    . change (Mem.read _ _ _).length = (Mem.read _ _ _).length
      rw [Mem.read, Mem.read, List.length_map, List.length_map, hspan]
    . intro hdefault
      obtain ⟨b, bs, rfl⟩ := List.exists_cons_of_ne_nil hdefault
      change Mem.read _ _ _ = Mem.read _ _ _
      rw [hspan]
      apply AgreeOn.read
      apply h.compared
      exact List.mem_singleton_self _
  | msgRef target => cases hleaf
  | repScalar e packing =>
    apply h.elements_eq rfl
    intro k hk
    rw [h.element rfl]
    exact loadElem_congr (h.agree_element rfl hk)
  | repBytes =>
    apply h.elements rfl
    intro k hk
    have hagree : AgreeOn mem mem' ⟨L.element t i a 16 k mem', 16⟩ := h.agree_element rfl hk
    rw [h.element rfl]
    exact alike_loadSlot (s := .bytes) hagree
  | repMsg target => cases hleaf
  | map key value => cases hleaf

end Field

end Layout

/-! The refinement. -/

section Refinement

variable {S : Schema} (L : Layout S) (T : MsgId → Addr → Prop) (mem₀ start : Mem)

/--
What the size function reads of the messages in `T` does not overlap with their `_size` members, and neither
do these with one another.
-/
structure CachesApart : Prop where
  fields : ∀ t a, T t a → ∀ (i : Fin (S t).length), ∀ r ∈ L.fieldRegions t i a (S.field t i).family mem₀,
    ∀ t' a', T t' a' → Disjoint r.addresses (L.cacheRegion t' a').addresses
  caches : ∀ t a t' a', T t a → T t' a' → t = t' ∧ a = a'
    ∨ Disjoint (L.cacheRegion t a).addresses (L.cacheRegion t' a').addresses

/--
Nothing was written but `_size` members of messages in `T`.
-/
def OnlyCaches (mem : Mem) : Prop :=
  ∀ x, (∀ t a, T t a → x ∉ (L.cacheRegion t a).addresses) → mem x = start x

/--
A memory that holds these `_size` members and is otherwise as it was at the start.
-/
structure HasCache (mem : Mem) (cache : Cache) : Prop where
  only : OnlyCaches L T start mem
  cache : ∀ t a, T t a → L.loadCache t a mem = cache t a

/--
Two memories have the same fields of the messages in `T`.
-/
def SameFields (mem mem' : Mem) : Prop :=
  ∀ t a, T t a → ∀ i : Fin (S t).length, L.SameField t i a (S.field t i).family mem mem'

variable {L T mem₀ start}

theorem SameFields.refl (mem : Mem) : SameFields L T mem mem :=
  fun _ _ _ _ _ _ _ _ => rfl

theorem HasCache.sameFields {mem : Mem} {cache : Cache} (h : HasCache L T start mem cache)
    (hapart : CachesApart L T mem₀) (hstart : SameFields L T start mem₀) : SameFields L T mem mem₀ := by
  intro t a ht i r hr x hx
  have hsame : mem x = start x := by
    apply h.only
    intro t' a' ht'
    exact Finset.disjoint_left.mp (hapart.fields t a ht i r hr t' a' ht') hx
  rw [hsame]
  exact hstart t a ht i r hr x hx

theorem HasCache.storeCache {mem : Mem} {cache : Cache} (h : HasCache L T start mem cache)
    (hapart : CachesApart L T mem₀) {t : MsgId} {a : Addr} (ht : T t a) (size : SizeT)
    : HasCache L T start (L.storeCache t a size mem) (cache.set t a size) where
  only := by
    intro x hx
    rw [Layout.storeCache_of_notMem (hx t a ht)]
    exact h.only x hx
  cache := by
    intro t' a' ht'
    unfold Cache.set
    split
    . next heq =>
      obtain ⟨rfl, rfl⟩ := heq
      exact Layout.loadCache_storeCache t' a' size mem
    . next hne =>
      have hdisjoint := (hapart.caches t' a' t a ht' ht).resolve_left hne
      rw [← h.cache t' a' ht']
      have hagree : AgreeOn (L.storeCache t a size mem) mem (L.cacheRegion t' a') := fun x hx =>
        Layout.storeCache_of_notMem (Finset.disjoint_left.mp hdisjoint hx) size mem
      exact Layout.loadCache_congr hagree

section Field

variable {messageSize : MsgId → Addr → SizeM SizeT} {messageSizeAt : MsgId → Addr → MachineM SizeT} {fuel : Nat}
  {t : MsgId} {a : Addr} {R : Mem → Cache → Prop}

theorem refines_sizeLeaf (messageSize : MsgId → Addr → SizeM SizeT)
    (hfields : ∀ mem cache, R mem cache → SameFields L T mem mem₀) (ht : T t a)
    (i : Fin (S t).length) (index : Nat)
    (hleaf : (S.field t i).family.isLeaf = true) (s : SizeT)
    : Refines R (sizeLeaf L t i a index (S.field t i).family s)
        (sizeField messageSize index (S.field t i).family (L.view mem₀ t a i) s) := by
  intro mem cache hR x cache' hrun
  have halike := (hfields mem cache hR t a ht i).alike hleaf
  obtain ⟨y, hy⟩ := halike.sizeField hleaf index s
  have hview : sizeField messageSize index (S.field t i).family (L.view mem₀ t a i) s = pure y := (hy messageSize).2
  rw [hview] at hrun
  cases hrun
  refine ⟨mem, ?_, hR⟩
  unfold sizeLeaf
  rw [(hy _).1]
  rfl

theorem refines_sizeOrZeroAt {target : MsgId} {p : Mem → Option Addr} {v : Option Addr}
    (hp : ∀ mem cache, R mem cache → p mem = v)
    (hsize : ∀ q, v = some q → Refines R (messageSizeAt target q) (messageSize target q))
    : Refines R (sizeOrZeroAt messageSizeAt target p) (sizeOrZero messageSize target v) := by
  apply Refines.reads_bind hp
  cases v with
  | none => exact Refines.pure 0
  | some q => exact hsize q rfl

theorem refines_entrySizeAt (messageSize : MsgId → Addr → SizeM SizeT)
    (messageSizeAt : MsgId → Addr → MachineM SizeT)
    (hfields : ∀ mem cache, R mem cache → SameFields L T mem mem₀) (ht : T t a) (i : Fin (S t).length)
    {key : Slot} {value : MapValue} (hfamily : (S.field t i).family = .map key value) {k : Nat}
    (hk : k < L.count t i a mem₀)
    (hsize : ∀ target p, (target, p) ∈ value.children (L.value t i a k value mem₀)
      → Refines R (messageSizeAt target p) (messageSize target p))
    : Refines R (entrySizeAt L messageSizeAt t i a key value k)
        (entrySize messageSize key value (L.key t i a k key mem₀, L.value t i a k value mem₀)) := by
  have hentry := L.entryFits t i
  rw [hfamily] at hentry
  have halike {mem : Mem} {cache : Cache} (hR : R mem cache)
      : key.Alike (L.key t i a k key mem) (L.key t i a k key mem₀)
        ∧ value.Alike (L.value t i a k value mem) (L.value t i a k value mem₀) := by
    have hsame := hfields mem cache hR t a ht i
    rw [hfamily] at hsame
    exact hsame.alike_entry hentry hk
  cases value with
  | slot s =>
    apply Refines.reads
    intro mem cache hR
    rw [(halike hR).1.slotSize]
    exact Slot.Alike.slotSize (halike hR).2 2 _
  | message target =>
    have hvalue : Refines R
        (sizeOrZeroAt messageSizeAt target (L.value t i a k (.message target)))
        (sizeOrZero messageSize target (L.value t i a k (.message target) mem₀)) := by
      apply refines_sizeOrZeroAt
      . intro mem cache hR
        exact (halike hR).2
      . intro p hp
        apply hsize
        rw [hp]
        exact List.mem_singleton_self _
    apply Refines.reads_bind
    . intro mem cache hR
      exact (halike hR).1.slotSize 1 0
    . exact Refines.bind hvalue fun _ => Refines.bind hvalue fun _ => Refines.pure _

theorem refines_sizeFieldAt (hfields : ∀ mem cache, R mem cache → SameFields L T mem mem₀) (ht : T t a)
    (i : Fin (S t).length) (index : Nat)
    (hfuel : 2 ^ 64 ≤ fuel)
    (hsize : ∀ target p, (target, p) ∈ (S.field t i).family.children (L.view mem₀ t a i)
      → Refines R (messageSizeAt target p) (messageSize target p)) (s : SizeT)
    : Refines R (sizeFieldAt L messageSizeAt fuel t i a index (S.field t i).family s)
        (sizeField messageSize index (S.field t i).family (L.view mem₀ t a i) s) := by
  have hleaf (hleaf : (S.field t i).family.isLeaf = true) :=
    refines_sizeLeaf messageSize hfields ht i index hleaf s
  have hinner (key : Slot) (value : MapValue) (hfamily : (S.field t i).family = .map key value) (k : Nat) :=
    refines_entrySizeAt messageSize messageSizeAt hfields ht i hfamily (k := k)
  have hsame {mem : Mem} {cache : Cache} (hR : R mem cache) := hfields mem cache hR t a ht i
  have hlt : L.count t i a mem₀ < 2 ^ 64 := Layout.loadWord_lt _ _
  unfold Layout.view at hleaf hsize ⊢
  generalize (S.field t i).family = f at *
  cases f with
  | scalar e default => exact hleaf rfl
  | bytes default => exact hleaf rfl
  | repScalar e packing => exact hleaf rfl
  | repBytes => exact hleaf rfl
  | msgRef target =>
    change Refines _ _ (sizeField messageSize index (.msgRef target) (L.loadPointer (L.member t i a) mem₀) s)
    apply Refines.reads_bind (v := L.loadPointer (L.member t i a) mem₀)
    . intro mem cache hR
      exact Layout.loadPointer_congr (hsame hR).member
    . cases hp : L.loadPointer (L.member t i a) mem₀ with
      | none => exact Refines.pure s
      | some p =>
        have hchild : Refines R (messageSizeAt target p) (messageSize target p) := by
          apply hsize
          simp [Family.children, Layout.loadField, hp]
        exact Refines.bind hchild fun childSize => Refines.pure _
  | repMsg target =>
    let ps := L.elements t i a (fun k mem => L.loadPointer (L.element t i a 8 k mem) mem) mem₀
    have hlength : ps.length = L.count t i a mem₀ := Layout.length_elements
    change Refines _ _ (sizeField messageSize index (.repMsg target) ps s)
    apply Refines.loop
    . intro mem cache hR
      rw [hlength]
      exact (hsame hR).count rfl
    . intro k hk s
      apply Refines.reads_bind (v := ps[k])
      . intro mem cache hR
        rw [Layout.getElem_elements hk, (hsame hR).element rfl]
        exact Layout.loadPointer_congr ((hsame hR).agree_element rfl (hlength ▸ hk))
      . have hmem := List.getElem_mem hk
        cases hp : ps[k] with
        | none => exact Refines.pure _
        | some p =>
          rw [hp] at hmem
          have hchild : Refines R (messageSizeAt target p) (messageSize target p) := by
            apply hsize
            exact List.mem_filterMap.mpr ⟨some p, hmem, rfl⟩
          exact Refines.bind hchild fun childSize => Refines.pure _
    . omega
  | map key value =>
    let es := L.elements t i a (fun k mem => (L.key t i a k key mem, L.value t i a k value mem)) mem₀
    have hlength : es.length = L.count t i a mem₀ := Layout.length_elements
    change Refines _ _ (sizeField messageSize index (.map key value) es s)
    apply Refines.loop
    . intro mem cache hR
      rw [hlength]
      exact (hsame hR).count rfl
    . intro k hk s
      have hentry : es[k] = (L.key t i a k key mem₀, L.value t i a k value mem₀) := Layout.getElem_elements hk
      rw [hentry]
      apply Refines.bind _ fun inner => Refines.pure _
      apply hinner key value rfl k (hlength ▸ hk)
      intro target p hp
      apply hsize
      rw [map_children]
      exact List.mem_flatMap.mpr ⟨es[k], List.getElem_mem hk, by rw [hentry]; exact hp⟩
    . omega

end Field

/--
The size function on a memory refines the one on the messages that are there, under any relation that keeps
their fields and that the sizes it stores do not break.
-/
theorem refines_sizeAt {R : Mem → Cache → Prop} (hfields : ∀ mem cache, R mem cache → SameFields L T mem mem₀)
    (hstore : ∀ {k fuel t a}, T t a → Height (L.view mem₀) k t a → k ≤ fuel
      → ∀ {cache size cache'}, messageSize (L.view mem₀) fuel t a cache = some (size, cache')
      → ∀ {mem cache}, R mem cache → R (L.storeCache t a size mem) (cache.set t a size))
    (hclosed : ∀ t a, T t a → ∀ target p, (target, p) ∈ children (L.view mem₀) t a → T target p)
    {k fuel : Nat} {t : MsgId} {a : Addr} (ht : T t a) (hk : Height (L.view mem₀) k t a) (hfuel : k ≤ fuel)
    : Refines R (sizeAt L (2 ^ 64 + fuel) t a) (messageSize (L.view mem₀) fuel t a) := by
  induction fuel generalizing k t a with
  | zero =>
    intro mem cache _ x cache' hrun
    cases hrun
  | succ fuel ih =>
    cases k with
    | zero => exact hk.elim
    | succ k =>
      intro mem cache hR x cache' hrun
      obtain ⟨size, cache₁, hfold, hrest⟩ := bind_eq_some_iff.mp hrun
      have hbody : Refines R
          ((List.finRange (S t).length).foldlM (fun s (i : Fin (S t).length) =>
            sizeFieldAt L (sizeAt L (2 ^ 64 + fuel)) (2 ^ 64 + fuel) t i a (S.field t i).index
              (S.field t i).family s) 0)
          ((List.finRange (S t).length).foldlM (fun s (i : Fin (S t).length) =>
            sizeField (messageSize (L.view mem₀) fuel) (S.field t i).index (S.field t i).family
              (L.view mem₀ t a i) s) 0) := by
        apply Refines.foldlM
        intro i _ s
        apply refines_sizeFieldAt hfields ht i _ (Nat.le_add_right _ _)
        intro target p hchild
        have hmem := mem_children_of_field hchild
        exact ih (hclosed t a ht target p hmem) (hk target p hmem) (by omega)
      obtain ⟨mem₁, hrunAt, hR₁⟩ := hbody mem cache hR size cache₁ hfold
      cases hrest
      exact ⟨_, bind_eq_some_iff.mpr ⟨x, mem₁, hrunAt, rfl⟩, hstore ht hk hfuel hrun hR₁⟩

end Refinement

end Gremlin
