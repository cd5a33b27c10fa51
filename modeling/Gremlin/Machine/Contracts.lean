import Gremlin.Machine.Encode

/-!
This module contains what the generated size and encode functions do to the memory of a machine: the size
function sets `_size` members, the encode function writes the bytes of a message into its buffer, and
neither changes anything else.
-/

namespace Gremlin

open Codec Machine Memory

section Buffered

variable {S : Schema} {L : Layout S} {T : MsgId → Addr → Prop} {mem₀ start mem : Mem}
  {size : MsgId → Addr → SizeT} {buf lo hi : Nat} {st : Encoder} {t : MsgId} {a : Addr}

theorem SameContents.refl (mem : Mem) : SameContents L T mem mem :=
  fun _ _ _ _ _ _ _ _ => rfl

namespace Buffered

theorem agree (hR : Buffered T start size buf lo hi mem st) {r : Region}
    (h : Disjoint r.addresses (window buf lo hi).addresses) : AgreeOn mem start r :=
  fun x hx => hR.only x (Finset.disjoint_left.mp h hx)

/--
What the encode function reads is as it was.
-/
theorem sameContents (hR : Buffered T start size buf lo hi mem st) (hbuffer : BufferApart L T mem₀ buf lo hi)
    (hstart : SameContents L T start mem₀) : SameContents L T mem mem₀ := by
  intro t a ht i r hr x hx
  rw [hR.agree (hbuffer.fields t a ht i r hr) x hx]
  exact hstart t a ht i r hr x hx

theorem loadCache (hR : Buffered T start size buf lo hi mem st) (hbuffer : BufferApart L T mem₀ buf lo hi)
    (hsized : ∀ t a, T t a → L.loadCache t a start = size t a) (ht : T t a) : L.loadCache t a mem = st.cache t a := by
  rw [hR.cache t a ht, ← hsized t a ht]
  exact Layout.loadCache_congr (hR.agree (hbuffer.caches t a ht))

end Buffered

theorem SameContents.sameFields (h : SameContents L T mem mem₀) : SameFields L T mem mem₀ :=
  fun t a ht i r hr => h t a ht i r (List.mem_append_left _ hr)

theorem SameContents.loadField (h : SameContents L T mem mem₀) (ht : T t a) (i : Fin (S t).length)
    : L.loadField t i a mem (S.field t i).family = L.loadField t i a mem₀ (S.field t i).family := by
  apply Layout.loadField_congr (L.entryFits t i) (h.sameFields t a ht i)
  intro r hr
  exact h t a ht i r (List.mem_append_right _ hr)

variable (T size) in
/--
Nothing is written while right sizes are stored where right ones are.
-/
structure Steady (start mem : Mem) (cache : Cache) : Prop where
  same : mem = start
  cache : ∀ t a, T t a → cache t a = size t a

theorem Steady.storeCache {cache : Cache} (h : Steady T size start mem cache)
    (hcached : L.loadCache t a start = size t a)
    : Steady T size start (L.storeCache t a (size t a) mem) (cache.set t a (size t a)) where
  same := by
    rw [h.same]
    exact Layout.storeCache_self hcached
  cache := by
    intro t' a' ht'
    unfold Cache.set
    split
    . next heq =>
      obtain ⟨rfl, rfl⟩ := heq
      rfl
    . exact h.cache t' a' ht'

/--
A computation that stores no size but right ones changes no byte.
-/
theorem refines_onCache {mAt : MachineM SizeT} {m : SizeM SizeT}
    (hm : ∀ mem st, Buffered T start size buf lo hi mem st → Refines (Steady T size mem) mAt m)
    : Refines (Buffered T start size buf lo hi) mAt (onCache m) := by
  intro mem st hR x st' hrun
  unfold onCache at hrun
  cases hm' : m st.cache with
  | none => simp [hm'] at hrun
  | some p =>
    rw [hm'] at hrun
    cases hrun
    obtain ⟨mem', hrunAt, hsame, hcache⟩ := hm mem st hR mem st.cache ⟨rfl, hR.cache⟩ _ _ hm'
    rw [hsame] at hrunAt
    exact ⟨mem, hrunAt, hR.only, hR.buf, hcache⟩

end Buffered

/-! Messages and their children. -/

section Children

variable {S : Schema} {store : Store S} {child : MsgId → Addr → List UInt8}

theorem length_child_le {index : Nat} {f : Family} {v : f.Value} {target : MsgId} {p : Addr}
    (h : (target, p) ∈ f.children v) : (child target p).length ≤ (Record.concat (f.records child index v)).length := by
  have hpayload (payload : List UInt8) (hle : (child target p).length ≤ payload.length)
      (hmem : Record.ofTag (packTag index .lenPrefix) (lenPrefixed payload) ∈ f.records child index v)
      : (child target p).length ≤ (Record.concat (f.records child index v)).length := by
    have := Record.length_bytes_le hmem
    rw [length_ofTag, length_lenPrefixed] at this
    omega
  cases f with
  | scalar e default => cases h
  | bytes default => cases h
  | repScalar e packing => cases h
  | repBytes => cases h
  | msgRef target' =>
    obtain ⟨q, hq, heq⟩ := List.mem_map.mp h
    cases heq
    exact hpayload _ (Nat.le_refl _) (List.mem_map.mpr ⟨p, hq, rfl⟩)
  | repMsg target' =>
    obtain ⟨q, hq, heq⟩ := List.mem_filterMap.mp h
    cases q with
    | none => cases heq
    | some q =>
      cases heq
      exact hpayload _ (Nat.le_refl _) (List.mem_map.mpr ⟨some p, hq, rfl⟩)
  | map key value =>
    rw [map_children] at h
    obtain ⟨e, he, hp⟩ := List.mem_flatMap.mp h
    cases value with
    | slot s => cases hp
    | message target' =>
      obtain ⟨q, hq, heq⟩ := List.mem_map.mp hp
      cases heq
      apply hpayload _ _ (List.mem_map.mpr ⟨e, he, rfl⟩)
      have hvalue : e.2 = some p := Option.mem_toList.mp hq
      rw [length_entryPayload, MapValue.record, hvalue, length_ofTag, length_lenPrefixed, childPayload_some]
      omega

/--
The messages that are reached are lower and not longer.
-/
theorem Reaches.bounds {height : Nat} {t : MsgId} {a : Addr} {t' : MsgId} {a' : Addr} (h : Reaches store t a t' a')
    {k : Nat} (hk : Height store k t a) (hle : k ≤ height)
    : (∃ k' ≤ k, Height store k' t' a')
      ∧ (wireBytes store height t' a').length ≤ (wireBytes store height t a).length := by
  induction h generalizing k with
  | refl => exact ⟨⟨k, Nat.le_refl _, hk⟩, Nat.le_refl _⟩
  | @step t a target b t' a' hmem htail ih =>
    cases k with
    | zero => exact hk.elim
    | succ k =>
      obtain ⟨⟨k', hk', hheight⟩, hlen⟩ := ih (hk target b hmem) (by omega)
      refine ⟨⟨k', by omega, hheight⟩, Nat.le_trans hlen ?_⟩
      simp only [children, List.mem_flatMap] at hmem
      obtain ⟨i, hi, hfield⟩ := hmem
      rw [wireBytes_eq hk hle, List.length_flatMap]
      exact Nat.le_trans (length_child_le hfield) (le_sum_of_mem (f := fun i =>
        (Record.concat ((S.field t i).family.records (wireBytes store height)
          (S.field t i).index (store t a i))).length) hi)

end Children

/-! Map entries in memory. -/

section Entries

variable {S : Schema} {L : Layout S} {mem : Mem} {t : MsgId} {a : Addr} {i : Fin (S t).length} {key : Slot}
  {value : MapValue} {k : Nat}

theorem mem_children_of_entry (hfamily : (S.field t i).family = .map key value) (hk : k < L.count t i a mem)
    {c : MsgId × Addr} (hc : c ∈ value.children (L.value t i a k value mem)) : c ∈ children (L.view mem) t a := by
  apply mem_children_of_field (i := i)
  unfold Layout.view
  rw [hfamily, map_children]
  exact List.mem_flatMap.mpr ⟨_, List.mem_map.mpr ⟨k, List.mem_range.mpr hk, rfl⟩, hc⟩

end Entries

/-! Messages in memory. -/

section Message

variable {S : Schema} {L : Layout S} {mem₀ start : Mem} {buf lo hi : Nat} {t₀ : MsgId} {a₀ : Addr}

theorem Reaches.closed {store : Store S} {t : MsgId} {a : Addr} (h : Reaches store t₀ a₀ t a) {target : MsgId}
    {p : Addr} (hchild : (target, p) ∈ children store t a) : Reaches store t₀ a₀ target p :=
  h.trans (.step hchild (.refl target p))

/--
Where the `_size` members are right, the size function of a message below stores what is there.
-/
theorem refines_steady {mem : Mem} {height k fuel : Nat} {t target : MsgId} {a p : Addr}
    (hcached : ∀ {t a}, Reaches (L.view mem₀) t₀ a₀ t a → L.loadCache t a mem = wireSize (L.view mem₀) height t a)
    (hfields : SameFields L (Reaches (L.view mem₀) t₀ a₀) mem mem₀) (h : Height (L.view mem₀) (k + 1) t a)
    (hheight : k + 1 ≤ height) (hreach : Reaches (L.view mem₀) t₀ a₀ t a)
    (hlen : (wireBytes (L.view mem₀) height t a).length < 2 ^ 64)
    (hmem : (target, p) ∈ children (L.view mem₀) t a) (hfuel : k ≤ fuel)
    : Refines (Steady (Reaches (L.view mem₀) t₀ a₀) (wireSize (L.view mem₀) height) mem)
        (sizeAt L (2 ^ 64 + fuel) target p) (messageSize (L.view mem₀) fuel target p) := by
  have hbelow {t' : MsgId} {a' : Addr} (hreach' : Reaches (L.view mem₀) target p t' a')
      : Reaches (L.view mem₀) t a t' a' := .step hmem hreach'
  apply refines_sizeAt (T := Reaches (L.view mem₀) target p) _ _
    (fun t a ht target p hmem => ht.closed hmem) (.refl target p) (h target p hmem) hfuel
  . intro mem' cache hsteady t' a' hreach'
    rw [hsteady.same]
    exact hfields t' a' (hreach.trans (hbelow hreach'))
  . intro k' fuel' t' a' hreach' hk' hfuel' cache size cache' hrun mem' cache'' hsteady
    obtain ⟨⟨k'', hle, hk''⟩, hshorter⟩ := (hbelow hreach').bounds h hheight
    have hmin : Height (L.view mem₀) (min k' k'') t' a' := by
      rcases Nat.le_total k' k'' with hle | hle
      . rwa [Nat.min_eq_left hle]
      . rwa [Nat.min_eq_right hle]
    have hfuelmin : min k' k'' ≤ fuel' := Nat.le_trans (Nat.min_le_left _ _) hfuel'
    obtain ⟨cache₁, hrun', -⟩ := measures_messageSize hmin (by omega) hfuelmin
      (Nat.lt_of_le_of_lt hshorter hlen) cache
    rw [hrun] at hrun'
    cases hrun'
    exact hsteady.storeCache (hcached (hreach.trans (hbelow hreach')))

/--
The encode function on a memory refines the one on the messages that are there, between two offsets of a
buffer that is apart from them.
-/
theorem refines_encodeIntoAt {height k fuel : Nat} {t : MsgId} {a : Addr}
    (hbuffer : BufferApart L (Reaches (L.view mem₀) t₀ a₀) mem₀ buf lo hi)
    (hstart : SameContents L (Reaches (L.view mem₀) t₀ a₀) start mem₀)
    (hsized : ∀ t a, Reaches (L.view mem₀) t₀ a₀ t a → L.loadCache t a start = wireSize (L.view mem₀) height t a)
    (h : Height (L.view mem₀) k t a) (hheight : k ≤ height) (hfuel : k ≤ fuel)
    (hreach : Reaches (L.view mem₀) t₀ a₀ t a) (hlen : (wireBytes (L.view mem₀) height t a).length < 2 ^ 64)
    : RefinesWithin lo hi
        (Buffered (Reaches (L.view mem₀) t₀ a₀) start (wireSize (L.view mem₀) height) buf lo hi)
        (encodeIntoAt L buf (2 ^ 64 + fuel) t a) (encodeAt (L.view mem₀) fuel t a) := by
  induction k generalizing fuel t a with
  | zero => exact h.elim
  | succ k ih =>
    cases fuel with
    | zero => omega
    | succ fuel =>
      have hbelow {target : MsgId} {p : Addr} (hmem : (target, p) ∈ children (L.view mem₀) t a)
          : Reaches (L.view mem₀) t₀ a₀ target p ∧ (wireBytes (L.view mem₀) height target p).length < 2 ^ 64 := by
        refine ⟨hreach.closed hmem, Nat.lt_of_le_of_lt ?_ hlen⟩
        exact (Reaches.bounds (.step hmem (.refl target p)) h hheight).2
      apply RefinesWithin.foldlM
      intro i hi
      apply refines_encodeFieldAt
      . intro mem st hR
        exact (hR.sameContents hbuffer hstart).loadField hreach i
      . rfl
      . exact Nat.le_add_right _ _
      . intro key value hfamily j hj
        apply refines_onCache
        intro mem st hR
        have hfields := (hR.sameContents hbuffer hstart).sameFields
        have hcached {t : MsgId} {a : Addr} (ht : Reaches (L.view mem₀) t₀ a₀ t a)
            : L.loadCache t a mem = wireSize (L.view mem₀) height t a := by
          rw [hR.loadCache hbuffer hsized ht, hR.cache _ _ ht]
        refine refines_entrySizeAt _ _ ?_ hreach i hfamily hj ?_
        . intro mem' cache hsteady
          rw [hsteady.same]
          exact hfields
        . intro target p hp
          have hmem := mem_children_of_entry hfamily hj hp
          exact refines_steady hcached hfields h hheight hreach hlen hmem (by omega)
      . intro target p hp
        have hmem := mem_children_of_field hp
        exact ⟨fun mem st hR => hR.loadCache hbuffer hsized (hbelow hmem).1,
          ih (h target p hmem) (by omega) (by omega) (hbelow hmem).1 (hbelow hmem).2⟩

end Message

/-! What the functions do where sizes, members and buffer are apart. -/

section Contracts

variable {S : Schema} {L : Layout S} {mem : Mem} {t : MsgId} {a : Addr}

/--
What holds from a fuel on that is beyond the turns of all loops.
-/
theorem exists_depth {Q : Nat → Prop} (k : Nat) (h : ∀ fuel, k ≤ fuel → Q (2 ^ 64 + fuel))
    : ∃ depth, ∀ fuel, depth ≤ fuel → Q fuel := by
  refine ⟨2 ^ 64 + k, ?_⟩
  intro fuel hfuel
  obtain ⟨fuel, rfl⟩ := Nat.exists_eq_add_of_le (Nat.le_trans (Nat.le_add_right _ _) hfuel)
  exact h fuel (by omega)

theorem Acyclic.reached {store : Store S} {t' : MsgId} {a' : Addr} (h : Acyclic store t a)
    (hreach : Reaches store t a t' a') : Acyclic store t' a' := by
  induction hreach with
  | refl => exact h
  | step hmem _ ih =>
    cases h with
    | intro h => exact ih (h _ _ hmem)

/--
The `_size` members of a message and of all that it reaches hold the number of their bytes.
-/
def SizesSet (L : Layout S) (h : Acyclic (L.view mem) t a) (mem' : Mem) : Prop :=
  ∀ t' a' (hreach : Reaches (L.view mem) t a t' a'),
    (L.loadCache t' a' mem').toNat = (messageBytes (h.reached hreach)).length

theorem toNat_wireSize {store : Store S} (h : Acyclic store t a) (hlen : (messageBytes h).length < 2 ^ 64)
    {t' : MsgId} {a' : Addr} (hreach : Reaches store t a t' a')
    : (wireSize store h.height t' a').toNat = (messageBytes (h.reached hreach)).length := by
  obtain ⟨⟨k, hle, hheight⟩, hshorter⟩ := hreach.bounds h.height_spec (Nat.le_refl _)
  rw [messageBytes_eq _ (hheight.mono hle), wireSize, BitVec.toNat_ofNat, Nat.mod_eq_of_lt]
  exact Nat.lt_of_le_of_lt hshorter hlen

theorem SizesSet.loadCache {h : Acyclic (L.view mem) t a} {mem' : Mem} (hset : SizesSet L h mem')
    (hlen : (messageBytes h).length < 2 ^ 64) {t' : MsgId} {a' : Addr} (hreach : Reaches (L.view mem) t a t' a')
    : L.loadCache t' a' mem' = wireSize (L.view mem) h.height t' a' := by
  apply BitVec.eq_of_toNat_eq
  rw [hset t' a' hreach, toNat_wireSize h hlen hreach]

/--
A depth that is enough is not greater than the height of a message.
-/
theorem Acyclic.exists_height_le {store : Store S} (h : Acyclic store t a) {k fuel : Nat} (hk : Height store k t a)
    (hfuel : k ≤ fuel) : ∃ k', Height store k' t a ∧ k' ≤ h.height ∧ k' ≤ fuel := by
  rcases Nat.le_total k h.height with hle | hle
  . exact ⟨k, hk, hle, hfuel⟩
  . exact ⟨h.height, h.height_spec, Nat.le_refl _, Nat.le_trans hle hfuel⟩

theorem sizeAt_of_apart (h : Acyclic (L.view mem) t a) (hapart : CachesApart L (Reaches (L.view mem) t a) mem)
    (hlen : (messageBytes h).length < 2 ^ 64) {k fuel : Nat} (hk : Height (L.view mem) k t a) (hfuel : k ≤ fuel)
    : ∃ size mem',
        sizeAt L (2 ^ 64 + fuel) t a mem = some (size, mem')
          ∧ size.toNat = (messageBytes h).length
          ∧ SizesSet L h mem'
          ∧ OnlyCaches L (Reaches (L.view mem) t a) mem mem' := by
  let T := Reaches (L.view mem) t a
  let cache : Cache := fun t a => L.loadCache t a mem
  obtain ⟨k', hk', hheight, hfuel'⟩ := h.exists_height_le hk hfuel
  obtain ⟨cache', hrun, hsettles⟩ := measures_messageSize hk' hheight hfuel' hlen cache
  have hrefines : Refines (HasCache L T mem) (sizeAt L (2 ^ 64 + fuel) t a) (messageSize (L.view mem) fuel t a) :=
    refines_sizeAt (fun _ _ hR => hR.sameFields hapart (SameFields.refl mem))
      (fun ht _ _ _ _ _ _ _ _ hR => hR.storeCache hapart ht _)
      (fun t a ht target p hmem => ht.closed hmem) (.refl t a) hk hfuel
  have hstart : HasCache L T mem mem cache := ⟨fun _ _ => rfl, fun _ _ _ => rfl⟩
  obtain ⟨mem', hrunAt, hafter⟩ := hrefines mem cache hstart _ _ hrun
  refine ⟨_, mem', hrunAt, ?_, ?_, hafter.only⟩
  . exact toNat_wireSize h hlen (.refl t a)
  . intro t' a' hreach
    rw [hafter.cache t' a' hreach, hsettles.settled t' a' hreach]
    exact toNat_wireSize h hlen hreach

/--
The encode function from a memory that has the contents of another one and right `_size` members.
-/
theorem encodeIntoAt_of_sameContents {start : Mem} {buf off : Nat} (h : Acyclic (L.view mem) t a)
    (hbuffer : BufferApart L (Reaches (L.view mem) t a) mem buf off (off + (messageBytes h).length))
    (hstart : SameContents L (Reaches (L.view mem) t a) start mem) (hset : SizesSet L h start)
    (hlen : (messageBytes h).length < 2 ^ 64) {k fuel : Nat} (hk : Height (L.view mem) k t a) (hfuel : k ≤ fuel)
    : encodeIntoAt L buf (2 ^ 64 + fuel) t a off start
        = some (off + (messageBytes h).length, start.write (buf + off) (messageBytes h)) := by
  let T := Reaches (L.view mem) t a
  let st : Encoder := ⟨fun k => start (buf + k), wireSize (L.view mem) h.height⟩
  have hcached : Cached (wireSize (L.view mem) h.height) T st := fun _ _ _ => rfl
  obtain ⟨k', hk', hheight, hfuel'⟩ := h.exists_height_le hk hfuel
  obtain ⟨st', hrun, hbytes, -⟩ := emits_encodeAt hk' hheight hfuel' (.refl t a) hlen off st hcached
  have hrefines := refines_encodeIntoAt hbuffer hstart (fun t' a' hreach => hset.loadCache hlen hreach)
    hk' hheight hfuel' (.refl t a) hlen
  have hbuffered : Buffered T start (wireSize (L.view mem) h.height) buf off (off + (messageBytes h).length) start st :=
    ⟨fun _ _ => rfl, rfl, fun _ _ _ => rfl⟩
  obtain ⟨mem', hrunAt, hafter⟩ :=
    hrefines.refines off start st (Nat.le_refl _) hbuffered _ st' hrun (Nat.le_refl _)
  rw [hrunAt]
  have hmem : mem' = start.write (buf + off) (messageBytes h) := by
    funext x
    have hbuf := hafter.buf
    rw [hbytes] at hbuf
    by_cases hx : buf + off ≤ x ∧ x < buf + off + (messageBytes h).length
    . have hget := congrFun hbuf (x - buf)
      have hsub : buf + (x - buf) = x := by omega
      have hsub' : x - buf - off = x - (buf + off) := by omega
      have hle : off ≤ x - buf := by omega
      simp only [hsub] at hget
      rw [← hget]
      simp only [Mem.write, if_pos hx.1, if_pos hle, hsub, hsub', st, messageBytes]
    . rw [hafter.only]
      . by_cases hlt : x < buf + off
        . rw [Mem.write_of_lt _ _ hlt]
        . rw [Mem.write_of_le _ _ (by omega)]
      . rw [window, Region.addresses, Finset.mem_Ico]
        change ¬(buf + off ≤ x ∧ x < buf + off + (off + (messageBytes h).length - off))
        omega
  rw [hmem]
  rfl

/--
The bytes that messages in `T` point to do not overlap with their `_size` members.
-/
def PayloadsApart (L : Layout S) (T : MsgId → Addr → Prop) (mem : Mem) : Prop :=
  ∀ t a, T t a → ∀ i : Fin (S t).length, ∀ r ∈ L.payloads t i a (S.field t i).family mem,
    ∀ t' a', T t' a' → Disjoint r.addresses (L.cacheRegion t' a').addresses

theorem OnlyCaches.sameContents {T : MsgId → Addr → Prop} {mem' : Mem} (h : OnlyCaches L T mem mem')
    (hapart : CachesApart L T mem) (hpayloads : PayloadsApart L T mem) : SameContents L T mem' mem := by
  intro t a ht i r hr x hx
  apply h
  intro t' a' ht'
  rcases List.mem_append.mp hr with hr | hr
  . exact Finset.disjoint_left.mp (hapart.fields t a ht i r hr t' a' ht') hx
  . exact Finset.disjoint_left.mp (hpayloads t a ht i r hr t' a' ht') hx

end Contracts

/-! A message with another one in a memory, and a map with both. -/

/--
A message with a number and bytes, one with a message and an array, and one with a map.
-/
def pairSchema : Schema
  | 0 => [⟨1, .scalar (.scalar .int32) 0⟩, ⟨2, .bytes []⟩]
  | 1 => [⟨1, .msgRef 0⟩, ⟨2, .repScalar (.scalar .uint32) .auto⟩]
  | 2 => [⟨1, .map (.elem (.scalar .int32)) (.message 1)⟩]
  | _ => []

theorem forall_pairSchema {Q : (t : MsgId) → Fin (pairSchema t).length → Prop} (h₀ : ∀ i, Q 0 i) (h₁ : ∀ i, Q 1 i)
    (h₂ : ∀ i, Q 2 i) : ∀ t i, Q t i
  | 0 => h₀
  | 1 => h₁
  | 2 => h₂
  | _ + 3 => fun i => i.elim0

theorem pairSchema_map {t : MsgId} {i : Fin (pairSchema t).length} {key : Slot} {value : MapValue}
    (h : (pairSchema.field t i).family = .map key value) : key.memberSize ≤ 16 ∧ 8 + value.memberSize ≤ 16 := by
  revert t i
  apply forall_pairSchema
  . intro i h
    match i with
    | ⟨0, _⟩ => cases h
    | ⟨1, _⟩ => cases h
  . intro i h
    match i with
    | ⟨0, _⟩ => cases h
    | ⟨1, _⟩ => cases h
  . intro i h
    match i with
    | ⟨0, _⟩ =>
      cases h
      decide

def pairLayout : Layout pairSchema where
  bigEndian := false
  nodeSize _ := 32
  cacheAt _ := 24
  memberAt _ i := 8 * i
  countAt _ _ := 16
  entrySize _ _ := 16
  keyAt _ _ := 0
  valueAt _ _ := 8
  cache_within _ := by decide
  member_within := forall_pairSchema (by decide) (by decide) (by decide)
  member_apart := forall_pairSchema (by decide) (by decide) (by decide)
  count_within := forall_pairSchema (by decide) (by decide) (by decide)
  count_apart := forall_pairSchema (by decide) (by decide) (by decide)
  key_within _ _ _ _ h := (Nat.zero_add _).trans_le (pairSchema_map h).1
  value_within _ _ _ _ h := (pairSchema_map h).2

/--
The message with the map at 160 and its entry at 192, the other messages at 64 and 96, the array at 128 and the
bytes at 136, before and after the size function.
-/
def pairMemory (sized : Bool) : Mem :=
  [(64, 96), (72, 128), (80, 2), (88, if sized then 14 else 0),
    (96, 5), (104, 136), (112, 3), (120, if sized then 7 else 0),
    (160, 192), (176, 1), (184, if sized then 20 else 0), (192, 7), (200, 64)].foldr
    (fun (a, v) mem => storeNat false a 8 v mem)
    ((Mem.write · 136 [97, 98, 99]) <| storeNat false 128 4 1 <| storeNat false 132 4 300 fun _ => 0)

def pairMessages : List (MsgId × Addr) :=
  [(2, 160), (1, 64), (0, 96)]

section Pair

variable (sized : Bool)

/--
What is in the memory, evaluated at once: the messages below, the lengths, the `_size` members, and that nothing
overlaps with these or with 20 bytes from 208 on.
-/
theorem pairMemory_facts (sized : Bool)
    : (children (pairLayout.view (pairMemory sized)) 2 160 = [(1, 64)]
        ∧ children (pairLayout.view (pairMemory sized)) 1 64 = [(0, 96)]
        ∧ children (pairLayout.view (pairMemory sized)) 0 96 = [])
      ∧ ((wireBytes (pairLayout.view (pairMemory sized)) 3 2 160).length = 20
        ∧ (wireBytes (pairLayout.view (pairMemory sized)) 2 1 64).length = 14
        ∧ (wireBytes (pairLayout.view (pairMemory sized)) 1 0 96).length = 7)
      ∧ ((pairLayout.loadCache 2 160 (pairMemory true)).toNat = 20
        ∧ (pairLayout.loadCache 1 64 (pairMemory true)).toNat = 14
        ∧ (pairLayout.loadCache 0 96 (pairMemory true)).toNat = 7)
      ∧ (∀ n ∈ pairMessages, ∀ i : Fin (pairSchema n.1).length,
        ∀ r ∈ pairLayout.fieldRegions n.1 i n.2 (pairSchema.field n.1 i).family (pairMemory sized)
          ++ pairLayout.payloads n.1 i n.2 (pairSchema.field n.1 i).family (pairMemory sized),
        (∀ n' ∈ pairMessages, Disjoint r.addresses (pairLayout.cacheRegion n'.1 n'.2).addresses)
          ∧ Disjoint r.addresses (window 208 0 20).addresses)
      ∧ ∀ n ∈ pairMessages,
        (∀ n' ∈ pairMessages, n.1 = n'.1 ∧ n.2 = n'.2
          ∨ Disjoint (pairLayout.cacheRegion n.1 n.2).addresses (pairLayout.cacheRegion n'.1 n'.2).addresses)
        ∧ Disjoint (pairLayout.cacheRegion n.1 n.2).addresses (window 208 0 20).addresses := by
  revert sized
  decide +kernel

theorem pairMemory_children
    : children (pairLayout.view (pairMemory sized)) 2 160 = [(1, 64)]
      ∧ children (pairLayout.view (pairMemory sized)) 1 64 = [(0, 96)]
      ∧ children (pairLayout.view (pairMemory sized)) 0 96 = [] :=
  (pairMemory_facts sized).1

theorem pairMemory_height_bytes : Height (pairLayout.view (pairMemory sized)) 1 0 96 := by
  intro target p hmem
  rw [(pairMemory_children sized).2.2] at hmem
  cases hmem

theorem pairMemory_height_child : Height (pairLayout.view (pairMemory sized)) 2 1 64 := by
  intro target p hmem
  rw [(pairMemory_children sized).2.1, List.mem_singleton] at hmem
  cases hmem
  exact pairMemory_height_bytes sized

theorem pairMemory_height : Height (pairLayout.view (pairMemory sized)) 3 2 160 := by
  intro target p hmem
  rw [(pairMemory_children sized).1, List.mem_singleton] at hmem
  cases hmem
  exact pairMemory_height_child sized

theorem pairMemory_closed {n c : MsgId × Addr} (hn : n ∈ pairMessages)
    (hc : c ∈ children (pairLayout.view (pairMemory sized)) n.1 n.2) : c ∈ pairMessages := by
  simp only [pairMessages, List.mem_cons, List.not_mem_nil, or_false] at hn
  rcases hn with rfl | rfl | rfl
  . rw [(pairMemory_children sized).1] at hc
    exact List.mem_cons_of_mem _ (List.mem_cons.mpr (.inl (List.mem_singleton.mp hc)))
  . rw [(pairMemory_children sized).2.1] at hc
    exact List.mem_cons_of_mem _ (List.mem_cons_of_mem _ hc)
  . rw [(pairMemory_children sized).2.2] at hc
    cases hc

theorem pairMemory_reaches {t : MsgId} {a : Addr} (h : Reaches (pairLayout.view (pairMemory sized)) 2 160 t a)
    : (t, a) ∈ pairMessages := by
  have hgo {n : MsgId × Addr} {t : MsgId} {a : Addr}
      (h : Reaches (pairLayout.view (pairMemory sized)) n.1 n.2 t a) (hn : n ∈ pairMessages)
      : (t, a) ∈ pairMessages := by
    generalize hid : n.1 = t₀ at h
    generalize haddr : n.2 = a₀ at h
    induction h generalizing n with
    | refl =>
      subst hid haddr
      exact hn
    | @step _ _ target p _ _ hmem _ ih =>
      subst hid haddr
      exact ih (n := (target, p)) (pairMemory_closed sized hn hmem) rfl rfl
  exact hgo (n := (2, 160)) h List.mem_cons_self

theorem pairMemory_length : (messageBytes (pairMemory_height sized).acyclic).length = 20 := by
  rw [messageBytes_eq _ (pairMemory_height sized)]
  exact (pairMemory_facts sized).2.1.1

theorem pairMemory_cachesApart
    : CachesApart pairLayout (Reaches (pairLayout.view (pairMemory sized)) 2 160) (pairMemory sized) := by
  constructor
  . intro t a ht i r hr t' a' ht'
    have hfields := (pairMemory_facts sized).2.2.2.1 _ (pairMemory_reaches sized ht) i r (List.mem_append_left _ hr)
    exact hfields.1 _ (pairMemory_reaches sized ht')
  . intro t a t' a' ht ht'
    exact ((pairMemory_facts sized).2.2.2.2 _ (pairMemory_reaches sized ht)).1 _ (pairMemory_reaches sized ht')

theorem pairMemory_payloadsApart
    : PayloadsApart pairLayout (Reaches (pairLayout.view (pairMemory sized)) 2 160) (pairMemory sized) := by
  intro t a ht i r hr t' a' ht'
  have hfields := (pairMemory_facts sized).2.2.2.1 _ (pairMemory_reaches sized ht) i r (List.mem_append_right _ hr)
  exact hfields.1 _ (pairMemory_reaches sized ht')

theorem pairMemory_bufferApart
    : BufferApart pairLayout (Reaches (pairLayout.view (pairMemory sized)) 2 160) (pairMemory sized) 208 0
        (0 + (messageBytes (pairMemory_height sized).acyclic).length) := by
  rw [pairMemory_length]
  constructor
  . intro t a ht i r hr
    exact ((pairMemory_facts sized).2.2.2.1 _ (pairMemory_reaches sized ht) i r hr).2
  . intro t a ht
    exact ((pairMemory_facts sized).2.2.2.2 _ (pairMemory_reaches sized ht)).2

theorem pairMemory_sizesSet
    : SizesSet pairLayout (pairMemory_height true).acyclic (pairMemory true) := by
  obtain ⟨-, ⟨hlength, hlength', hlength''⟩, ⟨hcache, hcache', hcache''⟩, -⟩ := pairMemory_facts true
  intro t a hreach
  have hmem := pairMemory_reaches true hreach
  simp only [pairMessages, List.mem_cons, List.not_mem_nil, or_false] at hmem
  rcases hmem with heq | heq | heq
  . cases heq
    rw [messageBytes_eq _ (pairMemory_height true)]
    exact hcache.trans hlength.symm
  . cases heq
    rw [messageBytes_eq _ (pairMemory_height_child true)]
    exact hcache'.trans hlength'.symm
  . cases heq
    rw [messageBytes_eq _ (pairMemory_height_bytes true)]
    exact hcache''.trans hlength''.symm

end Pair

/-! The contracts of the generated functions. -/

section Contracts

variable {S : Schema} {L : Layout S} {mem : Mem} {t : MsgId} {a : Addr}

/--
Where the `_size` members of the messages that are reached are apart from what the size function reads, it
returns the number of bytes of the message, sets these members, and changes no other byte.
-/
theorem sizeAt_contract (h : Acyclic (L.view mem) t a) (hapart : CachesApart L (Reaches (L.view mem) t a) mem)
    (hlen : (messageBytes h).length < 2 ^ 64)
    : ∃ depth, ∀ fuel, depth ≤ fuel → ∃ size mem',
        sizeAt L fuel t a mem = some (size, mem')
          ∧ size.toNat = (messageBytes h).length
          ∧ SizesSet L h mem'
          ∧ OnlyCaches L (Reaches (L.view mem) t a) mem mem' := by
  apply exists_depth h.height
  intro fuel hfuel
  exact sizeAt_of_apart h hapart hlen h.height_spec hfuel

theorem sizeAt_contract_pairMemory
    : ∃ depth, ∀ fuel, depth ≤ fuel → ∃ size mem',
        sizeAt pairLayout fuel 2 160 (pairMemory false) = some (size, mem')
          ∧ size.toNat = (messageBytes (pairMemory_height false).acyclic).length
          ∧ SizesSet pairLayout (pairMemory_height false).acyclic mem'
          ∧ OnlyCaches pairLayout (Reaches (pairLayout.view (pairMemory false)) 2 160) (pairMemory false) mem' := by
  apply sizeAt_contract _ (pairMemory_cachesApart false)
  rw [pairMemory_length]
  decide

/--
Where the `_size` members are right and the buffer is apart from what is read, the encode function writes the
bytes of the message into the buffer, and changes no other byte.
-/
theorem encodeIntoAt_contract {buf off : Nat} (h : Acyclic (L.view mem) t a)
    (hbuffer : BufferApart L (Reaches (L.view mem) t a) mem buf off (off + (messageBytes h).length))
    (hset : SizesSet L h mem) (hlen : (messageBytes h).length < 2 ^ 64)
    : ∃ depth, ∀ fuel, depth ≤ fuel
        → encodeIntoAt L buf fuel t a off mem
            = some (off + (messageBytes h).length, mem.write (buf + off) (messageBytes h)) := by
  apply exists_depth h.height
  intro fuel hfuel
  exact encodeIntoAt_of_sameContents h hbuffer (SameContents.refl mem) hset hlen h.height_spec hfuel

theorem encodeIntoAt_contract_pairMemory
    : ∃ depth, ∀ fuel, depth ≤ fuel
        → encodeIntoAt pairLayout 208 fuel 2 160 0 (pairMemory true)
            = some (0 + (messageBytes (pairMemory_height true).acyclic).length,
                (pairMemory true).write (208 + 0) (messageBytes (pairMemory_height true).acyclic)) := by
  apply encodeIntoAt_contract _ (pairMemory_bufferApart true) pairMemory_sizesSet
  rw [pairMemory_length]
  decide

/--
Where messages, `_size` members and buffer are apart, the size function and then the encode function write
the bytes that the message had before, and change no other byte but `_size` members.
-/
theorem size_encode_contract {buf off : Nat} (h : Acyclic (L.view mem) t a)
    (hapart : CachesApart L (Reaches (L.view mem) t a) mem)
    (hpayloads : PayloadsApart L (Reaches (L.view mem) t a) mem)
    (hbuffer : BufferApart L (Reaches (L.view mem) t a) mem buf off (off + (messageBytes h).length))
    (hlen : (messageBytes h).length < 2 ^ 64)
    : ∃ depth, ∀ fuel, depth ≤ fuel → ∃ size mem',
        sizeAt L fuel t a mem = some (size, mem')
          ∧ size.toNat = (messageBytes h).length
          ∧ OnlyCaches L (Reaches (L.view mem) t a) mem mem'
          ∧ encodeIntoAt L buf fuel t a off mem'
              = some (off + size.toNat, mem'.write (buf + off) (messageBytes h)) := by
  apply exists_depth h.height
  intro fuel hfuel
  obtain ⟨size, mem', hrun, hsize, hset, honly⟩ := sizeAt_of_apart h hapart hlen h.height_spec hfuel
  refine ⟨size, mem', hrun, hsize, honly, ?_⟩
  rw [hsize]
  exact encodeIntoAt_of_sameContents h hbuffer (honly.sameContents hapart hpayloads) hset hlen h.height_spec
    hfuel

theorem size_encode_contract_pairMemory
    : ∃ depth, ∀ fuel, depth ≤ fuel → ∃ size mem',
        sizeAt pairLayout fuel 2 160 (pairMemory false) = some (size, mem')
          ∧ size.toNat = (messageBytes (pairMemory_height false).acyclic).length
          ∧ OnlyCaches pairLayout (Reaches (pairLayout.view (pairMemory false)) 2 160) (pairMemory false) mem'
          ∧ encodeIntoAt pairLayout 208 fuel 2 160 0 mem'
              = some (0 + size.toNat, mem'.write (208 + 0) (messageBytes (pairMemory_height false).acyclic)) := by
  apply size_encode_contract _ (pairMemory_cachesApart false) (pairMemory_payloadsApart false)
    (pairMemory_bufferApart false)
  rw [pairMemory_length]
  decide

end Contracts

end Gremlin
