import Gremlin.Reader.RoundTrip
import Gremlin.Writer.References
import Mathlib.Algebra.Order.BigOperators.Group.List
import Mathlib.Data.Fintype.Card

/-!
This module contains when messages survive the references that their size and encode functions are made of:
exactly if the names of all repeated scalars and of all maps leave room for these.
-/

namespace Gremlin

open Codec Naming

/-! Values that a cut reference does not tell apart. -/

/--
The value that nothing is written for, unless it is a NaN.
-/
def Family.blank : (f : Family) → f.Value
  | .scalar _ default => default
  | .bytes default => default
  | .msgRef _ => none
  | .repScalar _ _ => []
  | .repBytes => []
  | .repMsg _ => []
  | .map _ _ => []

def Slot.one : (s : Slot) → s.Value
  | .elem _ => 1
  | .bytes => [0]

def MapValue.blank : (value : MapValue) → value.Value
  | .slot s => s.default
  | .message _ => none

/--
Two values of a field that are read back differently, of which the templates see the same.
-/
structure Family.Twins (fname : Spelling) (f : Family) (x y : f.Value) : Prop where
  leaf : f.children x = [] ∧ f.children y = []
  short : ∀ child index, (Record.concat (f.records child index x)).length ≤ 64
    ∧ (Record.concat (f.records child index y)).length ≤ 64
  members : ∀ address, f.members fname address x = f.members fname address y
  seen : ∀ abi lookup, f.seen abi lookup fname x = f.seen abi lookup fname y
  apart : ∀ {S : Schema} (Child Child' : (target : MsgId) → Addr → Except Error (Reader S target) → Prop)
    (view : f.View S), f.ReadsBack Child x view → ¬f.ReadsBack Child' y view

theorem length_code_le (e : Elem) (v : e.Value) : (e.code v).length ≤ 10 := by
  unfold Elem.code
  split
  . simp
  . simp
  . exact length_varintBytes_le 9 _

theorem length_ofTag_le (tag : BitVec 32) (body : List UInt8)
    : (Record.ofTag tag body).bytes.length ≤ 10 + body.length := by
  have := length_varintBytes_le 9 tag.toNat
  rw [length_ofTag]
  omega

theorem length_lenPrefixed_le (payload : List UInt8) : (lenPrefixed payload).length ≤ 10 + payload.length := by
  have := length_varintBytes_le 9 payload.length
  rw [length_lenPrefixed]
  omega

theorem Slot.length_record_le (num : Nat) (s : Slot) (v : s.Value) (hv : v = s.default ∨ v = s.one)
    : (s.record num v).bytes.length ≤ 21 := by
  have hbody : (s.body v).length ≤ 11 := by
    cases s with
    | elem e =>
      have := length_code_le e v
      rw [Slot.body]
      omega
    | bytes => rcases hv with rfl | rfl <;> decide
  have := length_ofTag_le (packTag num s.wireType) (s.body v)
  rw [Slot.record]
  omega

theorem MapValue.length_record_le (child : MsgId → Addr → List UInt8) (num : Nat) (value : MapValue)
    : (value.record child num value.blank).bytes.length ≤ 21 := by
  cases value with
  | slot s => exact Slot.length_record_le num s _ (.inl rfl)
  | message target =>
    have := length_ofTag_le (packTag num .lenPrefix) (lenPrefixed [])
    have := length_lenPrefixed_le []
    rw [List.length_nil] at this
    show (Record.ofTag (packTag num .lenPrefix) (lenPrefixed [])).bytes.length ≤ 21
    omega

theorem Family.length_blank_le (child : MsgId → Addr → List UInt8) (index : Nat) (f : Family)
    : (Record.concat (f.records child index f.blank)).length ≤ 64 := by
  cases f with
  | scalar e default =>
    rw [Family.records, Family.blank]
    by_cases hdiffers : e.differs default default = true
    . have := length_ofTag_le (packTag index e.wireType) (e.code default)
      have := length_code_le e default
      rw [if_pos hdiffers, Record.concat_cons, Record.concat_nil, List.append_nil]
      omega
    . rw [if_neg hdiffers]
      simp
  | bytes default => simp [Family.records, Family.blank]
  | msgRef | repScalar | repBytes | repMsg | map => simp [Family.records, Family.blank]

theorem Family.children_blank (f : Family) : f.children f.blank = [] := by
  cases f with
  | map key value => cases value <;> rfl
  | scalar | bytes | msgRef | repScalar | repBytes | repMsg => rfl

theorem length_repScalar_le (child : MsgId → Addr → List UInt8) (index : Nat) (e : Elem) (packing : Packing)
    (v : e.Value) : (Record.concat ((Family.repScalar e packing).records child index [v])).length ≤ 64 := by
  have hcode := length_code_le e v
  simp only [Family.records, List.cons_ne_nil, ↓reduceIte]
  split
  . have := length_ofTag_le (packTag index .lenPrefix) (lenPrefixed (e.code v))
    have := length_lenPrefixed_le (e.code v)
    rw [List.flatMap_singleton, Record.concat_cons, Record.concat_nil, List.append_nil]
    omega
  . have := length_ofTag_le (packTag index e.wireType) (e.code v)
    rw [List.map_singleton, Record.concat_cons, Record.concat_nil, List.append_nil]
    omega

theorem length_map_le (child : MsgId → Addr → List UInt8) (index : Nat) (key : Slot) (value : MapValue)
    (k : key.Value) (hk : k = key.default ∨ k = key.one)
    : (Record.concat ((Family.map key value).records child index [(k, value.blank)])).length ≤ 64 := by
  have hkey := Slot.length_record_le 1 key k hk
  have hvalue := MapValue.length_record_le child 2 value
  have hentry : (entryPayload child key value (k, value.blank)).length
      = (key.record 1 k).bytes.length + (value.record child 2 value.blank).bytes.length :=
    length_entryPayload child key value (k, value.blank)
  have := length_ofTag_le (packTag index .lenPrefix) (lenPrefixed (entryPayload child key value (k, value.blank)))
  have := length_lenPrefixed_le (entryPayload child key value (k, value.blank))
  rw [Family.records, List.map_singleton, Record.concat_cons, Record.concat_nil, List.append_nil]
  omega

theorem Slot.default_ne_one (s : Slot) : s.default ≠ s.one := by
  cases s with
  | elem e =>
    intro heq
    have := congrArg BitVec.toNat heq
    cases e with
    | enum => simp [Slot.default, Slot.one] at this
    | scalar kind => cases kind <;> simp [Slot.default, Slot.one] at this
  | bytes => simp [Slot.default, Slot.one]

/--
What stands in the place of an element does not depend on it.
-/
theorem Elem.seen_const {abi : Abi} {lookup : Spelling → Option Operand} {e : Elem} {ref : Reference}
    (href : ref ≠ .whole) {seen : (e' : Elem) × (e.Value → e'.Value)} (h : e.seen abi lookup ref = some seen)
    (v v' : e.Value) : seen.2 v = seen.2 v' := by
  cases ref with
  | whole => exact absurd rfl href
  | member name =>
    rw [Elem.seen, Option.map_eq_some_iff] at h
    obtain ⟨_, -, rfl⟩ := h
    rfl
  | malformed => simp [Elem.seen] at h

theorem Slot.seen_const {abi : Abi} {lookup : Spelling → Option Operand} {s : Slot} {ref : Reference}
    (href : ref ≠ .whole) {seen : (s' : Slot) × (s.Value → s'.Value)} (h : s.seen abi lookup ref = some seen)
    (v v' : s.Value) : seen.2 v = seen.2 v' := by
  cases s with
  | elem e =>
    rw [Slot.seen, Option.map_eq_some_iff] at h
    obtain ⟨seen', hseen', rfl⟩ := h
    exact Elem.seen_const href hseen' v v'
  | bytes =>
    cases ref with
    | whole => exact absurd rfl href
    | member name =>
      rw [Slot.seen] at h
      split at h
      . rw [Option.some_inj] at h
        subst h
        rfl
      . simp at h
    | malformed => simp [Slot.seen] at h

theorem Family.twins_repScalar {fname : Spelling} {e : Elem} {packing : Packing} (h : 120 < fname.length)
    : (Family.repScalar e packing).Twins fname [Slot.default (.elem e)] [Slot.one (.elem e)] where
  leaf := ⟨rfl, rfl⟩
  short child index := ⟨length_repScalar_le .., length_repScalar_le ..⟩
  members _ := rfl
  seen abi lookup := by
    have href : readReference fname "[_i]".toList ≠ .whole := by
      rw [ne_eq, readReference_eq_whole_iff, not_le]
      exact Nat.add_lt_add_right h 4
    rw [Family.seen, Family.seen]
    cases hseen : e.seen abi lookup (readReference fname "[_i]".toList) with
    | none => rfl
    | some seen =>
      rw [Option.map_some, Option.map_some, List.map_singleton, List.map_singleton,
        Elem.seen_const href hseen]
  apart Child Child' view := by
    rintro ⟨-, hx⟩ ⟨-, hy⟩
    have heq := (hx 0).symm.trans (hy 0)
    simp only [List.getElem?_cons_zero, Option.map_some, Option.getD_some, Except.ok.injEq] at heq
    exact Slot.default_ne_one (.elem e) heq

/--
A name that does not leave room for `.value` leaves none for `.key`, or makes no expression of it.
-/
theorem Family.twins_map {fname : Spelling} {key : Slot} {value : MapValue} (h : 114 < fname.length)
    : (Family.map key value).Twins fname [(key.default, value.blank)] [(key.one, value.blank)] where
  leaf := by
    cases value with
    | slot s => exact ⟨rfl, rfl⟩
    | message target => exact ⟨rfl, rfl⟩
  short child index := ⟨length_map_le _ _ _ _ _ (.inl rfl), length_map_le _ _ _ _ _ (.inr rfl)⟩
  members _ := rfl
  seen abi lookup := by
    rw [Family.seen, Family.seen]
    by_cases hlong : fname.length < 124
    . have hvalue : value.seen abi lookup (readReference fname "[_i].value".toList) = none := by
        have hcut : 124 < fname.length + "[_i].value".toList.length := Nat.add_lt_add_right h 10
        rw [readReference_of_bracket hlong hcut rfl]
        cases value with
        | slot s => cases s <;> rfl
        | message target => rfl
      rw [hvalue]
      rfl
    . have href : readReference fname "[_i].key".toList ≠ .whole := by
        rw [ne_eq, readReference_eq_whole_iff, not_le]
        exact Nat.lt_of_lt_of_le (by decide : 124 < 124 + 8) (Nat.add_le_add_right (not_lt.mp hlong) 8)
      cases hseen : key.seen abi lookup (readReference fname "[_i].key".toList) with
      | none => rfl
      | some seen =>
        rw [Option.bind_some, Option.bind_some]
        simp only [List.map_singleton, Prod.map, Slot.seen_const href hseen key.default key.one]
  apart Child Child' view := by
    rintro ⟨-, hx⟩ ⟨-, hy⟩
    obtain ⟨out, hout, -⟩ := hx 0 _ rfl
    obtain ⟨out', hout', -⟩ := hy 0 _ rfl
    rw [hout, Except.ok.injEq, Prod.mk.injEq] at hout'
    exact Slot.default_ne_one key hout'.1

theorem Family.exists_twins {fname : Spelling} {f : Family} (h : ¬f.Fits fname)
    : ∃ x y, f.Twins fname x y := by
  cases f with
  | repScalar e packing => exact ⟨_, _, Family.twins_repScalar (not_le.mp h)⟩
  | map key value => exact ⟨_, _, Family.twins_map (not_le.mp h)⟩
  | scalar | bytes | msgRef | repBytes | repMsg => exact absurd trivial h

/-! Messages that differ in one field. -/

variable {S : Schema}

/--
All messages of one type have this value in one field, and nothing anywhere else.
-/
def Store.only (t : MsgId) (i : Fin (S t).length) (x : (S.field t i).family.Value) : Store S :=
  Function.update (fun t _ i => (S.field t i).family.blank) t
    fun _ => Function.update (fun j => (S.field t j).family.blank) i x

section Only

variable {t : MsgId} {i : Fin (S t).length} {x y : (S.field t i).family.Value}

theorem Store.only_self (a : Addr) : Store.only t i x t a i = x := by
  rw [Store.only, Function.update_self, Function.update_self]

theorem Store.only_of_field_ne (a : Addr) {j : Fin (S t).length} (hne : j ≠ i)
    : Store.only t i x t a j = (S.field t j).family.blank := by
  rw [Store.only, Function.update_self, Function.update_of_ne hne]

theorem Store.only_of_type_ne {t' : MsgId} (hne : t' ≠ t)
    : Store.only t i x t' = fun _ j => (S.field t' j).family.blank := by
  rw [Store.only, Function.update_of_ne hne]

theorem Store.only_height (hleaf : (S.field t i).family.children x = []) (a : Addr)
    : Height (Store.only t i x) 1 t a := by
  have hchildren : children (Store.only t i x) t a = [] := by
    rw [children, List.flatMap_eq_nil_iff]
    intro j _
    by_cases hji : j = i
    . subst hji
      rw [Store.only_self, hleaf]
    . rw [Store.only_of_field_ne a hji, Family.children_blank]
  intro target b hmem
  rw [hchildren] at hmem
  simp at hmem

theorem Schema.Numbered.length_lt (hS : S.Numbered) (t : MsgId) : (S t).length < 2 ^ 29 := by
  have hinj : Function.Injective fun i : Fin (S t).length =>
      (⟨(S.field t i).index - 1, by have := hS.lt t i; omega⟩ : Fin (2 ^ 29 - 1)) := by
    intro i j heq
    have := hS.pos t i
    have := hS.pos t j
    rw [Fin.mk.injEq] at heq
    exact hS.inj t i j (by omega)
  have := Fintype.card_le_of_injective _ hinj
  rw [Fintype.card_fin, Fintype.card_fin] at this
  omega

theorem Store.only_short (hS : S.Numbered)
    (hshort : ∀ child index, (Record.concat ((S.field t i).family.records child index x)).length ≤ 64) (a : Addr)
    : (wireBytes (Store.only t i x) 1 t a).length < 2 ^ 64 := by
  have hlength := hS.length_lt t
  rw [wireBytes, messageRecords_succ, Record.concat_flatMap, List.length_flatMap]
  have hfield : ∀ n ∈ (List.finRange (S t).length).map fun j => (Record.concat ((S.field t j).family.records
      (wireBytes (Store.only t i x) 0) (S.field t j).index (Store.only t i x t a j))).length, n ≤ 64 := by
    intro n hn
    obtain ⟨j, -, rfl⟩ := List.mem_map.mp hn
    by_cases hji : j = i
    . subst hji
      rw [Store.only_self]
      exact hshort _ _
    . rw [Store.only_of_field_ne a hji]
      exact Family.length_blank_le _ _ _
  have hsum := List.sum_le_card_nsmul _ 64 hfield
  rw [List.length_map, List.length_finRange, Nat.nsmul_eq_mul] at hsum
  omega

theorem Store.only_seen {abi : Abi} {names : FieldNames S}
    (h : (S.field t i).family.Twins (names t i) x y)
    : (Store.only t i x).seen abi names = (Store.only t i y).seen abi names := by
  funext t' a
  by_cases ht : t' = t
  . subst ht
    have hmembers : Struct.members abi names t' a (Store.only t' i x t' a)
        = Struct.members abi names t' a (Store.only t' i y t' a) := by
      apply List.flatMap_congr
      intro j _
      by_cases hji : j = i
      . subst hji
        rw [Store.only_self, Store.only_self, h.members]
      . rw [Store.only_of_field_ne a hji, Store.only_of_field_ne a hji]
    funext j
    rw [Store.seen, Store.seen, hmembers]
    by_cases hji : j = i
    . subst hji
      rw [Store.only_self, Store.only_self, h.seen]
    . rw [Store.only_of_field_ne a hji, Store.only_of_field_ne a hji]
  . funext j
    rw [Store.seen, Store.seen, Store.only_of_type_ne ht, Store.only_of_type_ne ht]

end Only

/-! The round trip. -/

/--
The size and encode functions of a message with these names write bytes that are read back as the message.
-/
def RoundTrips (abi : Abi) (names : FieldNames S) {store : Store S} {t : MsgId} {a : Addr}
    (h : Acyclic store t a) : Prop :=
  ∃ height, ∀ fuel, height ≤ fuel → ∀ cache buf off, ∃ bytes,
    writtenBytesOf (store.seen abi names) fuel t a cache buf off = some bytes
      ∧ ReadsBack store h.height t a (readerInit S t bytes)

theorem ReadsBack.field {store : Store S} {n : Nat} {t : MsgId} {a : Addr} {res : Except Error (Reader S t)}
    (h : ReadsBack store n t a res)
    : ∃ r fuel, res = .ok r ∧ ∀ i, (S.field t i).family.ReadsBack (ReadsBack store fuel) (store t a i) (r.view i) := by
  cases n with
  | zero => exact h.elim
  | succ n =>
    obtain ⟨r, hr, hfields⟩ := h
    exact ⟨r, n, hr, hfields⟩

theorem ReadsBack.apart {t : MsgId} {i : Fin (S t).length} {fname : Spelling} {x y : (S.field t i).family.Value}
    (h : (S.field t i).family.Twins fname x y) {m n : Nat} {a : Addr} {res : Except Error (Reader S t)}
    (hx : ReadsBack (Store.only t i x) m t a res) (hy : ReadsBack (Store.only t i y) n t a res) : False := by
  obtain ⟨r, m', hr, hfields⟩ := hx.field
  obtain ⟨r', n', hr', hfields'⟩ := hy.field
  rw [hr, Except.ok.injEq] at hr'
  subst hr'
  have hview := hfields i
  have hview' := hfields' i
  rw [Store.only_self] at hview hview'
  exact h.apart _ _ _ hview hview'

/--
The bytes that a generated writer produces are read back as the message it was run on, for every message
that is finite and small enough for the machine, exactly if the names of its repeated scalars and of its maps
leave room for the references to their elements.
-/
theorem written_readsBack_iff (hS : S.Numbered) (abi : Abi) (names : FieldNames S)
    : (∀ (store : Store S) (t : MsgId) (a : Addr) (h : Acyclic store t a), (messageBytes h).length < 2 ^ 64
          → RoundTrips abi names h)
        ↔ NamesFit names := by
  constructor
  . intro hall t i
    by_contra hfits
    obtain ⟨x, y, htwins⟩ := Family.exists_twins hfits
    have hheight (z : (S.field t i).family.Value) (hz : (S.field t i).family.children z = []) :=
      Store.only_height hz 0
    have hx := hheight x htwins.leaf.1
    have hy := hheight y htwins.leaf.2
    obtain ⟨m, hm⟩ := hall _ t 0 hx.acyclic <| by
      rw [messageBytes_eq _ hx]
      exact Store.only_short hS (fun child index => (htwins.short child index).1) 0
    obtain ⟨n, hn⟩ := hall _ t 0 hy.acyclic <| by
      rw [messageBytes_eq _ hy]
      exact Store.only_short hS (fun child index => (htwins.short child index).2) 0
    -- The same bytes are written for both.
    obtain ⟨bytes, hbytes, hback⟩ := hm (max m n) (Nat.le_max_left m n) (fun _ _ => 0) (fun _ => 0) 0
    obtain ⟨bytes', hbytes', hback'⟩ := hn (max m n) (Nat.le_max_right m n) (fun _ _ => 0) (fun _ => 0) 0
    rw [Store.only_seen htwins, hbytes', Option.some_inj] at hbytes
    subst hbytes
    exact ReadsBack.apart htwins hback hback'
  . intro hfits store t a h hlen
    obtain ⟨height, hwritten⟩ := written_readsBack hS h hlen
    refine ⟨height, ?_⟩
    intro fuel hfuel cache buf off
    obtain ⟨bytes, hbytes, hback⟩ := hwritten fuel hfuel cache buf off
    refine ⟨bytes, ?_, hback⟩
    rw [writtenBytesOf_of_fits (seen_of_namesFit hfits abi store), hbytes]

def sharedNames : FieldNames sharedSchema
  | 0, ⟨0, _⟩ => "child".toList
  | 0, ⟨1, _⟩ => "children".toList
  | 0, ⟨2, _⟩ => "by_id".toList
  | _ + 1, ⟨0, _⟩ => "id".toList
  | _ + 1, ⟨1, _⟩ => "kinds".toList

theorem sharedNames_fit : NamesFit sharedNames
  | 0, ⟨0, _⟩ => trivial
  | 0, ⟨1, _⟩ => trivial
  | 0, ⟨2, _⟩ => (by decide : "by_id".toList.length ≤ 114)
  | _ + 1, ⟨0, _⟩ => trivial
  | _ + 1, ⟨1, _⟩ => (by decide : "kinds".toList.length ≤ 120)

/--
A machine with all arrays at one place, on which all conversions give zero.
-/
def flatAbi : Abi where
  arrayAt _ _ _ := 0x1000
  messageAt _ _ := 0x2000
  convert _ _ := 0

theorem sharedStore_roundTrips
    : NamesFit sharedNames ∧ RoundTrips flatAbi sharedNames sharedStore_height.acyclic := by
  refine ⟨sharedNames_fit, ?_⟩
  apply (written_readsBack_iff sharedSchema_numbered flatAbi sharedNames).mpr sharedNames_fit
  rw [messageBytes_eq _ sharedStore_height]
  decide +kernel

/--
A `repeated int32` whose name fills the buffer to its end, so that the array stands for each element.
-/
def arraySchema : Schema := fun _ => [⟨1, .repScalar (.scalar .int32) .auto⟩]

def arrayNames : FieldNames arraySchema := fun _ _ => List.replicate 124 'a'

def arrayStore : Store arraySchema
  | _, _, ⟨0, _⟩ => [5, 7]

theorem arrayStore_height : Height arrayStore 1 0 0 := by
  intro target b hmem
  have hchildren : children arrayStore 0 0 = [] := by decide +kernel
  rw [hchildren] at hmem
  simp at hmem

theorem arraySchema_numbered : arraySchema.Numbered where
  pos t := by
    show ∀ i : Fin 1, 1 ≤ (arraySchema.field 0 i).index
    decide
  lt t := by
    show ∀ i : Fin 1, (arraySchema.field 0 i).index < 2 ^ 29
    decide
  inj t := by
    show ∀ i j : Fin 1, (arraySchema.field 0 i).index = (arraySchema.field 0 j).index → i = j
    decide

/--
Both elements are written as the place of the array, whatever they are.
-/
theorem arrayStore_writtenBytes (fuel : Nat)
    : writtenBytesOf (arrayStore.seen flatAbi arrayNames) (fuel + 1) 0 0 (fun _ _ => 0) (fun _ => 0) 0
        = some [0x0A, 4, 0x80, 0x20, 0x80, 0x20] := by
  rfl

theorem arrayStore_not_roundTrips
    : arraySchema.Numbered ∧ (messageBytes arrayStore_height.acyclic).length < 2 ^ 64
        ∧ ¬RoundTrips flatAbi arrayNames arrayStore_height.acyclic := by
  refine ⟨arraySchema_numbered, ?_, ?_⟩
  . rw [messageBytes_eq _ arrayStore_height]
    decide +kernel
  . rintro ⟨height, hwritten⟩
    obtain ⟨bytes, hbytes, hback⟩ := hwritten (height + 1) (Nat.le_succ _) (fun _ _ => 0) (fun _ => 0) 0
    rw [arrayStore_writtenBytes, Option.some_inj] at hbytes
    subst hbytes
    obtain ⟨r, fuel, hr, hfields⟩ := hback.field
    obtain ⟨-, hview⟩ := hfields ⟨0, by decide⟩
    have hread : (readerInit arraySchema 0 [0x0A, 4, 0x80, 0x20, 0x80, 0x20]).map
        (fun r => (r.view ⟨0, by decide⟩).2 0) = .ok (.ok 0x1000#32) := by
      rfl
    rw [hr] at hread
    have hfirst : (r.view ⟨0, by decide⟩).2 0 = .ok 0x1000#32 := Except.ok.inj hread
    have heq := (hview 0).symm.trans hfirst
    revert heq
    decide

end Gremlin
