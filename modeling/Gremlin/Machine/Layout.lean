import Gremlin.Codec.LittleEndian
import Gremlin.Memory.Regions
import Gremlin.Schema

/-!
This module contains how the structs of messages stand in the memory of a machine with pointers and sizes
of 64 bits: where the members are, what their bytes mean, and which bytes that depends on.
-/

namespace Gremlin

open Codec Memory

/-! Numbers in memory. -/

def inOrder (bigEndian : Bool) (bs : List UInt8) : List UInt8 :=
  if bigEndian then bs.reverse else bs

/--
The number in the `n` bytes from an address on.
-/
def loadNat (bigEndian : Bool) (a n : Nat) (mem : Mem) : Nat :=
  leValue (inOrder bigEndian (mem.read a n))

def storeNat (bigEndian : Bool) (a n v : Nat) (mem : Mem) : Mem :=
  mem.write a (inOrder bigEndian (leBytes n v))

/--
Two memories have the same bytes in a region.
-/
def AgreeOn (mem mem' : Mem) (r : Region) : Prop :=
  ∀ x ∈ r.addresses, mem x = mem' x

@[simp]
theorem length_inOrder (bigEndian : Bool) (bs : List UInt8) : (inOrder bigEndian bs).length = bs.length := by
  unfold inOrder
  split <;> simp

@[simp]
theorem inOrder_inOrder (bigEndian : Bool) (bs : List UInt8) : inOrder bigEndian (inOrder bigEndian bs) = bs := by
  unfold inOrder
  split <;> simp

theorem AgreeOn.read {mem mem' : Mem} {r : Region} (h : AgreeOn mem mem' r)
    : mem.read r.base r.size = mem'.read r.base r.size := by
  unfold Mem.read
  apply List.map_congr_left
  intro i hi
  apply h
  rw [List.mem_range] at hi
  unfold Region.addresses
  rw [Finset.mem_Ico]
  omega

theorem AgreeOn.loadNat {mem mem' : Mem} {a n : Nat} (h : AgreeOn mem mem' ⟨a, n⟩) (bigEndian : Bool)
    : loadNat bigEndian a n mem = loadNat bigEndian a n mem' := by
  unfold Gremlin.loadNat
  rw [h.read]

theorem AgreeOn.within {mem mem' : Mem} {r s : Region} (h : AgreeOn mem mem' s) (hsub : r.Within s)
    : AgreeOn mem mem' r :=
  fun x hx => h x (hsub.subset hx)

theorem loadNat_storeNat {bigEndian : Bool} {a n v : Nat} (h : v < 256 ^ n) (mem : Mem)
    : loadNat bigEndian a n (storeNat bigEndian a n v mem) = v := by
  have hlength : (inOrder bigEndian (leBytes n v)).length = n := by simp
  have hread := mem.read_write a (inOrder bigEndian (leBytes n v))
  rw [hlength] at hread
  rw [loadNat, storeNat, hread, inOrder_inOrder, leValue_leBytes h]

theorem storeNat_of_notMem {bigEndian : Bool} {a n v x : Nat} (h : x ∉ (⟨a, n⟩ : Region).addresses) (mem : Mem)
    : storeNat bigEndian a n v mem x = mem x := by
  rw [Region.addresses, Finset.mem_Ico, not_and] at h
  have hlength : (inOrder bigEndian (leBytes n v)).length = n := by simp
  by_cases hlt : x < a
  . apply Mem.write_of_lt
    exact hlt
  . apply Mem.write_of_le
    rw [hlength]
    have := h (Nat.le_of_not_lt hlt)
    exact Nat.le_of_not_lt this

theorem loadNat_lt (bigEndian : Bool) (a n : Nat) (mem : Mem) : loadNat bigEndian a n mem < 256 ^ n := by
  have hgeneral : ∀ bs : List UInt8, leValue bs < 256 ^ bs.length := by
    intro bs
    induction bs with
    | nil => decide
    | cons b bs ih =>
      have := b.toNat_lt
      rw [leValue, List.length_cons, Nat.pow_succ]
      omega
  have := hgeneral (inOrder bigEndian (mem.read a n))
  rwa [length_inOrder, Mem.read, List.length_map, List.length_range] at this

theorem leValue_inj {bs bs' : List UInt8} (hlength : bs.length = bs'.length) (h : leValue bs = leValue bs')
    : bs = bs' := by
  induction bs generalizing bs' with
  | nil => exact (List.eq_nil_of_length_eq_zero hlength.symm).symm
  | cons b bs ih =>
    obtain ⟨b', bs', rfl⟩ := List.exists_cons_of_length_eq_add_one hlength.symm
    have hb := b.toNat_lt
    have hb' := b'.toNat_lt
    unfold leValue at h
    have hhead : b = b' := UInt8.toNat_inj.mp (by omega)
    have htail : bs = bs' := ih (by simpa using hlength) (by omega)
    rw [hhead, htail]

/--
Memories with the same number have the same bytes there.
-/
theorem agreeOn_of_loadNat_eq {bigEndian : Bool} {a n : Nat} {mem mem' : Mem}
    (h : loadNat bigEndian a n mem = loadNat bigEndian a n mem') : AgreeOn mem mem' ⟨a, n⟩ := by
  have hordered := leValue_inj (by simp [Mem.read]) h
  have hread : mem.read a n = mem'.read a n := by
    rw [← inOrder_inOrder bigEndian (mem.read a n), hordered, inOrder_inOrder]
  intro x hx
  rw [Region.addresses, Finset.mem_Ico] at hx
  change a ≤ x ∧ x < a + n at hx
  have hget := congrArg (fun bs => bs[x - a]?) hread
  have hsub : a + (x - a) = x := by omega
  have hlt : x - a < n := by omega
  simpa [Mem.read, hlt, hsub] using hget

/-! Structs. -/

/--
The bytes of a value of its C type. A `bool` has one.
-/
def Elem.byteSize (e : Elem) : Nat :=
  (e.width + 7) / 8

/--
The bytes of the first member of a field: a value, a `struct gremlin_bytes` or a pointer.
-/
def Family.memberSize : Family → Nat
  | .scalar e _ => e.byteSize
  | .bytes _ => 16
  | _ => 8

def Slot.memberSize : Slot → Nat
  | .elem e => e.byteSize
  | .bytes => 16

def MapValue.memberSize : MapValue → Nat
  | .slot s => s.memberSize
  | .message _ => 8

/--
The field has a second member, the count of its array.
-/
def Family.hasCount : Family → Bool
  | .repScalar .. | .repBytes | .repMsg _ | .map .. => true
  | _ => false

/--
How the C compiler lays out the structs of the messages and of the map entries. The members are inside of
the struct, and those of a message are apart from `_size`.
-/
structure Layout (S : Schema) where
  bigEndian : Bool
  nodeSize : MsgId → Nat
  cacheAt : MsgId → Nat
  memberAt : MsgId → Nat → Nat
  countAt : MsgId → Nat → Nat
  entrySize : MsgId → Nat → Nat
  keyAt : MsgId → Nat → Nat
  valueAt : MsgId → Nat → Nat
  cache_within : ∀ t, cacheAt t + 8 ≤ nodeSize t
  member_within : ∀ t (i : Fin (S t).length), memberAt t i + (S.field t i).family.memberSize ≤ nodeSize t
  member_apart : ∀ t (i : Fin (S t).length),
    memberAt t i + (S.field t i).family.memberSize ≤ cacheAt t ∨ cacheAt t + 8 ≤ memberAt t i
  count_within : ∀ t (i : Fin (S t).length), (S.field t i).family.hasCount = true → countAt t i + 8 ≤ nodeSize t
  count_apart : ∀ t (i : Fin (S t).length), (S.field t i).family.hasCount = true
    → countAt t i + 8 ≤ cacheAt t ∨ cacheAt t + 8 ≤ countAt t i
  key_within : ∀ t (i : Fin (S t).length) key value, (S.field t i).family = .map key value
    → keyAt t i + key.memberSize ≤ entrySize t i
  value_within : ∀ t (i : Fin (S t).length) key value, (S.field t i).family = .map key value
    → valueAt t i + value.memberSize ≤ entrySize t i

namespace Layout

variable {S : Schema} (L : Layout S)

/-! Reading. -/

def loadWord (a : Addr) (mem : Mem) : Nat :=
  loadNat L.bigEndian a 8 mem

def loadElem (e : Elem) (a : Addr) (mem : Mem) : e.Value :=
  BitVec.ofNat e.width (loadNat L.bigEndian a e.byteSize mem)

/--
The pointer and the length of a `struct gremlin_bytes`.
-/
def loadSpan (a : Addr) (mem : Mem) : Region :=
  ⟨L.loadWord a mem, L.loadWord (a + 8) mem⟩

def loadBytes (a : Addr) (mem : Mem) : List UInt8 :=
  mem.read (L.loadSpan a mem).base (L.loadSpan a mem).size

def loadPointer (a : Addr) (mem : Mem) : Option Addr :=
  if L.loadWord a mem = 0 then none else some (L.loadWord a mem)

def loadSlot : (s : Slot) → Addr → Mem → s.Value
  | .elem e => L.loadElem e
  | .bytes => L.loadBytes

def loadMapValue : (value : MapValue) → Addr → Mem → value.Value
  | .slot s => L.loadSlot s
  | .message _ => L.loadPointer

section Members

variable (t : MsgId) (i : Nat) (a : Addr)

def member : Addr :=
  a + L.memberAt t i

/--
`m->f_count`.
-/
def count (mem : Mem) : Nat :=
  L.loadWord (a + L.countAt t i) mem

/--
`&m->f[k]`, for elements of a size.
-/
def element (stride k : Nat) (mem : Mem) : Addr :=
  L.loadWord (L.member t i a) mem + stride * k

def key (k : Nat) (key : Slot) (mem : Mem) : key.Value :=
  L.loadSlot key (L.element t i a (L.entrySize t i) k mem + L.keyAt t i) mem

def value (k : Nat) (value : MapValue) (mem : Mem) : value.Value :=
  L.loadMapValue value (L.element t i a (L.entrySize t i) k mem + L.valueAt t i) mem

def elements {α : Type} (load : Nat → Mem → α) (mem : Mem) : List α :=
  (List.range (L.count t i a mem)).map fun k => load k mem

/--
What a field holds.
-/
def loadField (mem : Mem) : (f : Family) → f.Value
  | .scalar e _ => L.loadElem e (L.member t i a) mem
  | .bytes _ => L.loadBytes (L.member t i a) mem
  | .msgRef _ => L.loadPointer (L.member t i a) mem
  | .repScalar e _ => L.elements t i a (fun k mem => L.loadElem e (L.element t i a e.byteSize k mem) mem) mem
  | .repBytes => L.elements t i a (fun k mem => L.loadBytes (L.element t i a 16 k mem) mem) mem
  | .repMsg _ => L.elements t i a (fun k mem => L.loadPointer (L.element t i a 8 k mem) mem) mem
  | .map key value => L.elements t i a (fun k mem => (L.key t i a k key mem, L.value t i a k value mem)) mem

end Members

/--
The messages in a memory.
-/
def view (mem : Mem) : Store S :=
  fun t a i => L.loadField t i a mem (S.field t i).family

/-! The `_size` member. -/

def cacheRegion (t : MsgId) (a : Addr) : Region :=
  ⟨a + L.cacheAt t, 8⟩

def loadCache (t : MsgId) (a : Addr) (mem : Mem) : BitVec 64 :=
  BitVec.ofNat 64 (L.loadWord (a + L.cacheAt t) mem)

def storeCache (t : MsgId) (a : Addr) (size : BitVec 64) (mem : Mem) : Mem :=
  storeNat L.bigEndian (a + L.cacheAt t) 8 size.toNat mem

variable {L}

theorem loadWord_lt (a : Addr) (mem : Mem) : L.loadWord a mem < 2 ^ 64 :=
  loadNat_lt L.bigEndian a 8 mem

theorem loadCache_storeCache (t : MsgId) (a : Addr) (size : BitVec 64) (mem : Mem)
    : L.loadCache t a (L.storeCache t a size mem) = size := by
  unfold loadCache storeCache loadWord
  rw [loadNat_storeNat size.isLt, BitVec.ofNat_toNat, BitVec.setWidth_eq]

theorem agreeOn_of_loadCache_eq {t : MsgId} {a : Addr} {mem mem' : Mem}
    (h : L.loadCache t a mem = L.loadCache t a mem') : AgreeOn mem mem' (L.cacheRegion t a) := by
  apply agreeOn_of_loadNat_eq
  have htoNat := congrArg BitVec.toNat h
  unfold loadCache at htoNat
  rwa [BitVec.toNat_ofNat, BitVec.toNat_ofNat, Nat.mod_eq_of_lt (loadWord_lt _ _),
    Nat.mod_eq_of_lt (loadWord_lt _ _)] at htoNat

theorem loadCache_congr {t : MsgId} {a : Addr} {mem mem' : Mem} (h : AgreeOn mem mem' (L.cacheRegion t a))
    : L.loadCache t a mem = L.loadCache t a mem' := by
  unfold loadCache loadWord
  rw [AgreeOn.loadNat h]

theorem storeCache_of_notMem {t : MsgId} {a : Addr} {x : Nat} (h : x ∉ (L.cacheRegion t a).addresses)
    (size : BitVec 64) (mem : Mem) : L.storeCache t a size mem x = mem x :=
  storeNat_of_notMem h mem

theorem storeCache_self {t : MsgId} {a : Addr} {size : BitVec 64} {mem : Mem} (h : L.loadCache t a mem = size)
    : L.storeCache t a size mem = mem := by
  funext x
  by_cases hx : x ∈ (L.cacheRegion t a).addresses
  . apply agreeOn_of_loadCache_eq _ x hx
    rw [loadCache_storeCache, h]
  . exact storeCache_of_notMem hx size mem

@[simp]
theorem length_elements {α : Type} {t : MsgId} {i : Nat} {a : Addr} {load : Nat → Mem → α} {mem : Mem}
    : (L.elements t i a load mem).length = L.count t i a mem := by
  unfold elements
  rw [List.length_map, List.length_range]

theorem getElem_elements {α : Type} {t : MsgId} {i : Nat} {a : Addr} {load : Nat → Mem → α} {mem : Mem} {k : Nat}
    (hk : k < (L.elements t i a load mem).length) : (L.elements t i a load mem)[k] = load k mem := by
  unfold elements at hk ⊢
  rw [List.getElem_map, List.getElem_range]

theorem elements_length {α : Type} {t : MsgId} {i : Nat} {a : Addr} {load : Nat → Mem → α} {mem : Mem} {xs : List α}
    (h : L.elements t i a load mem = xs) : L.count t i a mem = xs.length := by
  rw [← h, length_elements]

theorem elements_apply {α : Type} {t : MsgId} {i : Nat} {a : Addr} {load : Nat → Mem → α} {mem : Mem} {xs : List α}
    (h : L.elements t i a load mem = xs) {k : Nat} (hk : k < xs.length) : load k mem = xs[k] := by
  subst h
  exact (getElem_elements hk).symm

/-! What a field depends on. -/

variable (L)

/--
The bytes of an element of an array.
-/
def stride (t : MsgId) (i : Nat) : Family → Nat
  | .repScalar e _ => e.byteSize
  | .repBytes => 16
  | .map .. => L.entrySize t i
  | _ => 8

def arrayRegion (t : MsgId) (i : Nat) (a : Addr) (f : Family) (mem : Mem) : Region :=
  ⟨L.loadWord (L.member t i a) mem, L.count t i a mem * L.stride t i f⟩

/--
The bytes that the size function compares with the default of a field.
-/
def comparedRegions (t : MsgId) (i : Nat) (a : Addr) (f : Family) (mem : Mem) : List Region :=
  match f with
  | .bytes (_ :: _) => [L.loadSpan (L.member t i a) mem]
  | _ => []

/--
What the size function reads of a field: its members, its array, and what is compared with a default.
-/
def fieldRegions (t : MsgId) (i : Nat) (a : Addr) (f : Family) (mem : Mem) : List Region :=
  ⟨L.member t i a, f.memberSize⟩
    :: (if f.hasCount then [⟨a + L.countAt t i, 8⟩, L.arrayRegion t i a f mem] else [])
      ++ L.comparedRegions t i a f mem

/--
Two memories have the same bytes in what the size function reads of a field.
-/
def SameField (t : MsgId) (i : Nat) (a : Addr) (f : Family) (mem mem' : Mem) : Prop :=
  ∀ r ∈ L.fieldRegions t i a f mem', AgreeOn mem mem' r

variable {L} {t : MsgId} {i : Nat} {a : Addr} {f : Family} {mem mem' : Mem}

theorem loadWord_congr {a : Addr} (h : AgreeOn mem mem' ⟨a, 8⟩) : L.loadWord a mem = L.loadWord a mem' :=
  h.loadNat L.bigEndian

theorem loadElem_congr {e : Elem} {a : Addr} (h : AgreeOn mem mem' ⟨a, e.byteSize⟩)
    : L.loadElem e a mem = L.loadElem e a mem' := by
  unfold loadElem
  rw [h.loadNat]

theorem loadPointer_congr {a : Addr} (h : AgreeOn mem mem' ⟨a, 8⟩) : L.loadPointer a mem = L.loadPointer a mem' := by
  unfold loadPointer
  rw [loadWord_congr h]

theorem loadSpan_congr {a : Addr} (h : AgreeOn mem mem' ⟨a, 16⟩) : L.loadSpan a mem = L.loadSpan a mem' := by
  unfold loadSpan
  rw [loadWord_congr (h.within ⟨Nat.le_refl _, by simp⟩), loadWord_congr (h.within ⟨by simp, by simp⟩)]

namespace SameField

theorem member (h : L.SameField t i a f mem mem') : AgreeOn mem mem' ⟨L.member t i a, f.memberSize⟩ := by
  apply h
  exact List.mem_cons_self

theorem count (h : L.SameField t i a f mem mem') (hcount : f.hasCount = true)
    : L.count t i a mem = L.count t i a mem' := by
  apply loadWord_congr
  apply h
  simp [fieldRegions, hcount]

theorem array (h : L.SameField t i a f mem mem') (hcount : f.hasCount = true)
    : L.loadWord (L.member t i a) mem = L.loadWord (L.member t i a) mem' := by
  have hmember := h.member
  apply loadWord_congr
  cases f <;> first | exact hmember | simp [Family.hasCount] at hcount

theorem compared (h : L.SameField t i a f mem mem') {r : Region} (hr : r ∈ L.comparedRegions t i a f mem')
    : AgreeOn mem mem' r := by
  apply h
  exact List.mem_append_right _ hr

theorem element (h : L.SameField t i a f mem mem') (hcount : f.hasCount = true) (stride k : Nat)
    : L.element t i a stride k mem = L.element t i a stride k mem' := by
  unfold Layout.element
  rw [h.array hcount]

/--
The elements of the array have the same bytes.
-/
theorem agree_element (h : L.SameField t i a f mem mem') (hcount : f.hasCount = true) {k : Nat}
    (hk : k < L.count t i a mem') : AgreeOn mem mem' ⟨L.element t i a (L.stride t i f) k mem', L.stride t i f⟩ := by
  have harray : AgreeOn mem mem' (L.arrayRegion t i a f mem') := by
    apply h
    simp [fieldRegions, hcount]
  apply harray.within
  constructor
  . exact Nat.le_add_right _ _
  . change L.loadWord _ mem' + L.stride t i f * k + L.stride t i f
      ≤ L.loadWord _ mem' + L.count t i a mem' * L.stride t i f
    have := Nat.mul_le_mul_left (L.stride t i f) (Nat.succ_le_of_lt hk)
    rw [Nat.mul_succ, Nat.mul_comm _ (L.count t i a mem')] at this
    omega

/--
What holds of the elements one by one.
-/
theorem elements {α : Type} {load : Nat → Mem → α} {P : α → α → Prop} (h : L.SameField t i a f mem mem')
    (hcount : f.hasCount = true) (hload : ∀ k < L.count t i a mem', P (load k mem) (load k mem'))
    : List.Forall₂ P (L.elements t i a load mem) (L.elements t i a load mem') := by
  unfold Layout.elements
  rw [h.count hcount, List.forall₂_map_left_iff, List.forall₂_map_right_iff, List.forall₂_same]
  intro k hk
  apply hload
  rwa [List.mem_range] at hk

theorem elements_eq {α : Type} {load : Nat → Mem → α} (h : L.SameField t i a f mem mem')
    (hcount : f.hasCount = true) (hload : ∀ k < L.count t i a mem', load k mem = load k mem')
    : L.elements t i a load mem = L.elements t i a load mem' := by
  have := h.elements (P := Eq) hcount hload
  rwa [List.forall₂_eq_eq_eq] at this

end SameField

end Layout

end Gremlin
