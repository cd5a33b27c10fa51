import Gremlin.Reader.Written

/-!
This module contains the round trip of a whole message: the reader of the bytes that the size and
encode functions produce shows the message that they were run on.
-/

namespace Gremlin

open Codec

/--
The numbers of the fields of a message are pairwise distinct and in the range of field numbers.
-/
structure Schema.Numbered (S : Schema) : Prop where
  pos : ∀ t i, 1 ≤ (S.field t i).index
  lt : ∀ t i, (S.field t i).index < 2 ^ 29
  inj : ∀ t i j, (S.field t i).index = (S.field t j).index → i = j

variable {S : Schema}

theorem owner_eq (hS : S.Numbered) {t : MsgId} {i : Fin (S t).length} {tag : BitVec 32}
    (h : (S.field t i).hasTag tag = true)
    : owner S t tag = some i := by
  cases howner : owner S t tag with
  | none =>
    unfold owner at howner
    rw [List.find?_eq_none] at howner
    exact absurd h (howner i (List.mem_finRange i))
  | some j =>
    obtain ⟨wt, rfl, -, -⟩ := hasTag_wireType h
    obtain ⟨wt', heq, -, -⟩ := hasTag_wireType (hasTag_of_owner howner)
    rw [hS.inj t j i (packTag_inj (hS.lt t j) (hS.lt t i) heq.symm).1]

theorem filter_flatMap_finRange {α : Type} {n : Nat} {f : Fin n → List α} {p : Fin n → α → Bool}
    (h : ∀ i j, ∀ x ∈ f j, p i x = decide (j = i)) (i : Fin n)
    : ((List.finRange n).flatMap f).filter (p i) = f i := by
  have hmem := List.mem_finRange i
  have hnodup := List.nodup_finRange n
  generalize List.finRange n = js at hmem hnodup
  have hfilter (j : Fin n) : (f j).filter (p i) = if j = i then f i else [] := by
    split
    . next heq =>
      subst heq
      rw [List.filter_eq_self]
      intro x hx
      simp [h j j x hx]
    . next hne =>
      rw [List.filter_eq_nil_iff]
      intro x hx
      simp [h i j x hx, hne]
  induction js with
  | nil => simp at hmem
  | cons j js ih =>
    rw [List.flatMap_cons, List.filter_append, hfilter]
    rw [List.nodup_cons] at hnodup
    rw [List.mem_cons] at hmem
    by_cases hji : j = i
    . subst hji
      have hrest : (js.flatMap f).filter (p j) = [] := by
        rw [List.filter_eq_nil_iff]
        intro x hx
        rw [List.mem_flatMap] at hx
        obtain ⟨k, hk, hx⟩ := hx
        have hne : k ≠ j := by
          rintro rfl
          exact hnodup.1 hk
        simp [h j k x hx, hne]
      simp [hrest]
    . rw [if_neg hji, List.nil_append]
      exact ih (hmem.resolve_left (Ne.symm hji)) hnodup.2

section Message

variable {store : Store S} {n : Nat} {t : MsgId} {a : Addr}

theorem mem_messageRecords {i : Fin (S t).length} {r : Record}
    (h : r ∈ (S.field t i).family.records (wireBytes store n) (S.field t i).index (store t a i))
    : r ∈ messageRecords store (n + 1) t a := by
  rw [messageRecords_succ, List.mem_flatMap]
  exact ⟨i, List.mem_finRange i, h⟩

theorem length_field_record {i : Fin (S t).length} {r : Record}
    (hlen : (wireBytes store (n + 1) t a).length < 2 ^ 64)
    (h : r ∈ (S.field t i).family.records (wireBytes store n) (S.field t i).index (store t a i))
    : r.bytes.length < 2 ^ 64 := by
  have := Record.length_bytes_le (mem_messageRecords h)
  rw [wireBytes] at hlen
  omega

/--
The records of a message are valid, and each is dispatched to the field it was written for.
-/
theorem messageRecords_valid (hS : S.Numbered)
    (hlen : (wireBytes store (n + 1) t a).length < 2 ^ 64)
    : ∀ r ∈ messageRecords store (n + 1) t a, r.Valid ∧ ∃ i, owner S t r.tag = some i := by
  intro r hr
  rw [messageRecords_succ, List.mem_flatMap] at hr
  obtain ⟨i, -, hr⟩ := hr
  obtain ⟨hvalid, htag⟩ := Family.records_valid (fun _ h => length_field_record hlen h) r hr
  exact ⟨hvalid, i, owner_eq hS htag⟩

theorem filter_messageRecords (hS : S.Numbered)
    (hlen : (wireBytes store (n + 1) t a).length < 2 ^ 64) (i : Fin (S t).length)
    : (messageRecords store (n + 1) t a).filter (owns S t i)
        =
      (S.field t i).family.records (wireBytes store n) (S.field t i).index (store t a i) := by
  rw [messageRecords_succ]
  apply filter_flatMap_finRange (p := owns S t)
  intro i j r hr
  obtain ⟨-, htag⟩ := Family.records_valid (fun _ h => length_field_record hlen h) r hr
  rw [owns_of_owner (owner_eq hS htag)]
  simp [eq_comm]

/--
The reader accepts what is written and sees each field as its value is read back.
-/
theorem readerInit_wireBytes (hS : S.Numbered)
    (hlen : (wireBytes store (n + 1) t a).length < 2 ^ 64)
    : ∃ r : Reader S t, readerInit S t (wireBytes store (n + 1) t a) = .ok r
        ∧ ∀ i,
          (S.field t i).family.EntriesOk S
              ((S.field t i).family.records (wireBytes store n) (S.field t i).index (store t a i))
            → r.view i = (S.field t i).family.reread S (wireBytes store n) (store t a i) := by
  have hvalid : ∀ r ∈ messageRecords store (n + 1) t a, r.Valid :=
    fun r hr => (messageRecords_valid hS hlen r hr).1
  have hviews (i : Fin (S t).length)
      : (S.field t i).family.viewOf S (S.field t i).index
            ((messageRecords store (n + 1) t a).filter (owns S t i))
          =
        .ok ((S.field t i).family.reread S (wireBytes store n) (store t a i)) := by
    rw [filter_messageRecords hS hlen]
    exact Family.viewOf_records fun _ h => length_field_record hlen h
  have hok : ∃ r : Reader S t, readerInit S t (wireBytes store (n + 1) t a) = .ok r := by
    rw [wireBytes, readerInit_isOk_iff hvalid]
    refine ⟨?_, fun i => ⟨_, hviews i⟩⟩
    intro r hr hnone
    obtain ⟨i, hi⟩ := (messageRecords_valid hS hlen r hr).2
    rw [hnone] at hi
    simp at hi
  obtain ⟨r, hr⟩ := hok
  refine ⟨r, hr, ?_⟩
  intro i hentries
  rw [← filter_messageRecords hS hlen] at hentries
  have hview := Reader.viewOf_eq hvalid hr i hentries
  rw [hviews i, Except.ok.injEq] at hview
  exact hview.symm

end Message

/-! What it means that a message reads back. -/

/--
The value is the negative zero of a floating-point type.
-/
def Elem.isNegZero : (e : Elem) → e.Value → Bool
  | .scalar .float, v => v == 0x80000000#32
  | .scalar .double, v => v == 0x8000000000000000#64
  | .enum, _ => false
  | .scalar .int32, _ | .scalar .int64, _ | .scalar .uint32, _ | .scalar .uint64, _
  | .scalar .sint32, _ | .scalar .sint64, _ | .scalar .bool, _ | .scalar .fixed32, _
  | .scalar .sfixed32, _ | .scalar .fixed64, _ | .scalar .sfixed64, _ => false

variable (S) in
/--
What a caller sees of a field that is not there.
-/
def Family.Absent : (f : Family) → f.View S → Prop
  | .scalar _ default, view => view = default
  | .bytes default, view => view = default
  | .msgRef _, view => view.1 = false
  | .repScalar _ _, view => view.1 = 0
  | .repBytes, view => view.1 = 0
  | .repMsg _, view => view.1 = 0
  | .map _ _, view => view.1 = 0

def EmptyMessage {t : MsgId} (res : Except Error (Reader S t)) : Prop :=
  ∃ r, res = .ok r ∧ ∀ i, (S.field t i).family.Absent S (r.view i)

section ReadsBack

variable (Child : (target : MsgId) → Addr → Except Error (Reader S target) → Prop)

/--
A message pointer is read back as its message, and `NULL` as an empty message.
-/
def PointerReadsBack {target : MsgId} (p : Option Addr) (res : Except Error (Reader S target))
    : Prop :=
  match p with
  | some p => Child target p res
  | none => EmptyMessage res

def MapValue.ReadsBack : (value : MapValue) → value.Value → value.Out S → Prop
  | .slot _, v, out => out = v
  | .message _, p, out => PointerReadsBack Child p (.ok out)

/--
A field is read back as its value. A scalar that is not written is read as the default, which is
the value itself unless one of them is the negative zero.
-/
def Family.ReadsBack : (f : Family) → f.Value → f.View S → Prop
  | .scalar e default, v, view =>
    view = (if e.differs v default then v else default)
      ∧ (e.isNegZero v = false → e.isNegZero default = false → view = v)
  | .bytes _, v, view => view = v
  | .msgRef _, p, view => view.1 = p.isSome ∧ PointerReadsBack Child p view.2
  | .repScalar _ _, vs, view =>
    view.1 = vs.length ∧ ∀ k, view.2 k = (vs[k]?.map .ok).getD (.ok 0)
  | .repBytes, vs, view => view.1 = vs.length ∧ ∀ k, view.2 k = (vs[k]?.map .ok).getD (.ok [])
  | .repMsg _, ps, view =>
    view.1 = ps.length ∧ ∀ k p, ps[k]? = some p → PointerReadsBack Child p (view.2 k)
  | .map _ value, es, view =>
    view.1 = es.length
      ∧ ∀ k e, es[k]? = some e → ∃ out, view.2 k = .ok (e.1, out) ∧ value.ReadsBack Child e.2 out

end ReadsBack

/--
The reader is there and every field of it is read back as the value in the message. `fuel` bounds
the depth.
-/
def ReadsBack (store : Store S) : (fuel : Nat) → (t : MsgId) → Addr → Except Error (Reader S t) →
    Prop
  | 0, _, _, _ => False
  | fuel + 1, t, a, res =>
    ∃ r, res = .ok r
      ∧ ∀ i, (S.field t i).family.ReadsBack (ReadsBack store fuel) (store t a i) (r.view i)

theorem shiftLeft_one_eq_zero {w : Nat} (hw : 0 < w) {v : BitVec w} (h : v <<< 1 = 0#w)
    : v.toNat = 0 ∨ v.toNat = 2 ^ (w - 1) := by
  have hlt := v.isLt
  have hpow : 2 ^ w = 2 * 2 ^ (w - 1) := by
    rw [← Nat.pow_succ']
    congr 1
    omega
  have hzero := congrArg BitVec.toNat h
  rw [BitVec.toNat_shiftLeft, Nat.shiftLeft_eq, BitVec.toNat_ofNat, Nat.zero_mod, hpow] at hzero
  rw [hpow] at hlt
  have hdvd := Nat.dvd_of_mod_eq_zero hzero
  obtain ⟨k, hk⟩ := hdvd
  have hk' : v.toNat = 2 ^ (w - 1) * k := by
    have : v.toNat * 2 = 2 * (2 ^ (w - 1) * k) := by
      rw [← Nat.mul_assoc, ← hk, Nat.pow_one]
    omega
  match k, hk' with
  | 0, hk' => exact .inl (by simpa using hk')
  | 1, hk' => exact .inr (by simpa using hk')
  | k + 2, hk' =>
    have : 2 ^ (w - 1) * (k + 2) = 2 ^ (w - 1) * k + 2 * 2 ^ (w - 1) := by
      rw [Nat.mul_add, Nat.mul_comm _ 2]
    omega

theorem Elem.eq_of_not_differs {e : Elem} {v default : e.Value}
    (h : e.differs v default = false) (hv : e.isNegZero v = false)
    (hdefault : e.isNegZero default = false)
    : v = default := by
  cases e with
  | enum => simpa [differs] using h
  | scalar kind =>
    cases kind with
    | float =>
      simp only [differs, f32Eq, Bool.not_eq_false', Bool.and_eq_true, Bool.or_eq_true,
        beq_iff_eq] at h
      simp only [isNegZero, beq_eq_false_iff_ne, ne_eq] at hv hdefault
      rcases h.2 with heq | ⟨hz, hz'⟩
      . exact heq
      . have hne : v.toNat ≠ 2 ^ 31 := fun heq => hv (BitVec.eq_of_toNat_eq heq)
        have hne' : default.toNat ≠ 2 ^ 31 := fun heq => hdefault (BitVec.eq_of_toNat_eq heq)
        apply BitVec.eq_of_toNat_eq
        rw [(shiftLeft_one_eq_zero (by decide) hz).resolve_right hne,
          (shiftLeft_one_eq_zero (by decide) hz').resolve_right hne']
    | double =>
      simp only [differs, f64Eq, Bool.not_eq_false', Bool.and_eq_true, Bool.or_eq_true,
        beq_iff_eq] at h
      simp only [isNegZero, beq_eq_false_iff_ne, ne_eq] at hv hdefault
      rcases h.2 with heq | ⟨hz, hz'⟩
      . exact heq
      . have hne : v.toNat ≠ 2 ^ 63 := fun heq => hv (BitVec.eq_of_toNat_eq heq)
        have hne' : default.toNat ≠ 2 ^ 63 := fun heq => hdefault (BitVec.eq_of_toNat_eq heq)
        apply BitVec.eq_of_toNat_eq
        rw [(shiftLeft_one_eq_zero (by decide) hz).resolve_right hne,
          (shiftLeft_one_eq_zero (by decide) hz').resolve_right hne']
    | int32 | int64 | uint32 | uint64 | sint32 | sint64 | fixed32 | fixed64 | sfixed32 | sfixed64
    | bool => simpa [differs] using h

theorem emptyMessage_nil (t : MsgId) : EmptyMessage (readerInit S t []) := by
  have hnil : readerInit S t (Record.concat [])
      = .ok ⟨[], fun i => (S.field t i).family.initial⟩ := by
    rw [readerInit_concat (by simp)]
    rfl
  refine ⟨_, hnil, ?_⟩
  intro i
  rw [Reader.view]
  dsimp only
  generalize S.field t i = f
  obtain ⟨index, family⟩ := f
  cases family <;> rfl

/-! The round trip. -/

section RoundTrip

variable {Child : (target : MsgId) → Addr → Except Error (Reader S target) → Prop}
variable {child : MsgId → Addr → List UInt8}

theorem pointerReadsBack {target : MsgId} {p : Option Addr}
    (h : ∀ q, p = some q → Child target q (readerInit S target (child target q)))
    : PointerReadsBack Child p (readerInit S target (childPayload child target p)) := by
  cases p with
  | none => exact emptyMessage_nil target
  | some q => exact h q rfl

theorem PointerReadsBack.isOk (hok : ∀ target q res, Child target q res → ∃ r, res = .ok r)
    {target : MsgId} {p : Option Addr} {res : Except Error (Reader S target)}
    (h : PointerReadsBack Child p res)
    : ∃ r, res = .ok r := by
  cases p with
  | none =>
    obtain ⟨r, hr, -⟩ := h
    exact ⟨r, hr⟩
  | some q => exact hok target q res h

theorem Family.mem_children_map {key : Slot} {target : MsgId}
    {es : List (key.Value × Option Addr)} {k : key.Value} {p : Addr} (h : (k, some p) ∈ es)
    : (target, p) ∈ (Family.map key (.message target)).children es := by
  simp only [Family.children, List.mem_filterMap]
  exact ⟨(k, some p), h, rfl⟩

theorem MapValue.reread_readsBack {key : Slot} {value : MapValue}
    (hok : ∀ target q res, Child target q res → ∃ r, res = .ok r)
    {es : List (key.Value × value.Value)}
    (hchild : ∀ target p, (target, p) ∈ (Family.map key value).children es →
      Child target p (readerInit S target (child target p)))
    {e : key.Value × value.Value} (he : e ∈ es)
    : ∃ out, value.reread S child e.2 = .ok out ∧ value.ReadsBack Child e.2 out := by
  cases value with
  | slot s => exact ⟨e.2, rfl, rfl⟩
  | message target =>
    have hback : PointerReadsBack Child e.2
        (readerInit S target (childPayload child target e.2)) := by
      apply pointerReadsBack
      intro q hq
      apply hchild
      apply Family.mem_children_map (k := e.1)
      rw [← hq]
      exact he
    obtain ⟨r, hr⟩ := hback.isOk hok
    rw [hr] at hback
    exact ⟨r, hr, hback⟩

/--
Where the children are read back, what is written for a value is read back as the value.
-/
theorem Family.reread_readsBack {f : Family} {v : f.Value}
    (hok : ∀ target q res, Child target q res → ∃ r, res = .ok r)
    (hchild : ∀ target p, (target, p) ∈ f.children v →
      Child target p (readerInit S target (child target p)))
    : f.ReadsBack Child v (f.reread S child v) := by
  cases f with
  | scalar e default =>
    refine ⟨rfl, ?_⟩
    intro hv hdefault
    simp only [Family.reread]
    split
    . rfl
    . next hsame => exact (Elem.eq_of_not_differs (by simpa using hsame) hv hdefault).symm
  | bytes default => rfl
  | msgRef target =>
    refine ⟨rfl, pointerReadsBack ?_⟩
    rintro q rfl
    exact hchild target q (by simp [Family.children])
  | repScalar e packing => exact ⟨rfl, fun _ => rfl⟩
  | repBytes => exact ⟨rfl, fun _ => rfl⟩
  | repMsg target =>
    refine ⟨rfl, ?_⟩
    intro k p hp
    simp only [Family.reread, hp, Option.map_some, Option.getD_some]
    apply pointerReadsBack
    rintro q rfl
    exact hchild target q (by simpa [Family.children] using List.mem_of_getElem? hp)
  | map key value =>
    refine ⟨rfl, ?_⟩
    intro k e he
    obtain ⟨out, hout, hback⟩ :=
      MapValue.reread_readsBack hok hchild (List.mem_of_getElem? he)
    refine ⟨out, ?_, hback⟩
    simp [Family.reread, he, hout]

theorem Family.entriesDecode_records {f : Family} {index : Nat} {v : f.Value}
    (hok : ∀ target q res, Child target q res → ∃ r, res = .ok r)
    (hchild : ∀ target p, (target, p) ∈ f.children v →
      Child target p (readerInit S target (child target p)))
    (hlen : ∀ r ∈ f.records child index v, r.bytes.length < 2 ^ 64)
    : f.EntriesDecode S (f.records child index v) := by
  cases f with
  | map key value =>
    intro r hr
    have hle := hlen r hr
    simp only [Family.records, List.mem_map] at hr
    obtain ⟨e, he, rfl⟩ := hr
    have hle' := length_le_lenPrefixed (packTag index .lenPrefix) (entryPayload child key value e)
    obtain ⟨out, hout, -⟩ := MapValue.reread_readsBack hok hchild he
    refine ⟨(e.1, out), ?_⟩
    rw [Record.content_ofTag (by omega), decodeEntry_entryPayload (by omega), hout]
  | scalar | bytes | msgRef | repScalar | repBytes | repMsg => trivial

theorem Family.length_child {f : Family} {index : Nat} {v : f.Value}
    (hlen : ∀ r ∈ f.records child index v, r.bytes.length < 2 ^ 64) {target : MsgId} {p : Addr}
    (h : (target, p) ∈ f.children v)
    : (child target p).length < 2 ^ 64 := by
  have hrecord (payload : List UInt8)
      (hmem : Record.ofTag (packTag index .lenPrefix) (lenPrefixed payload)
        ∈ f.records child index v)
      : payload.length < 2 ^ 64 := by
    have := length_le_lenPrefixed (packTag index .lenPrefix) payload
    have := hlen _ hmem
    omega
  cases f with
  | scalar | bytes | repScalar | repBytes => simp [Family.children] at h
  | msgRef target' =>
    cases v with
    | none => simp [Family.children] at h
    | some q =>
      simp only [Family.children, Option.toList_some, List.map_cons, List.map_nil,
        List.mem_singleton, Prod.mk.injEq] at h
      obtain ⟨rfl, rfl⟩ := h
      exact hrecord _ (by simp [Family.records])
  | repMsg target' =>
    simp only [Family.children, List.mem_filterMap, Option.map_eq_some_iff] at h
    obtain ⟨q, hq, r, rfl, heq⟩ := h
    simp only [Prod.mk.injEq] at heq
    obtain ⟨rfl, rfl⟩ := heq
    exact hrecord _ (List.mem_map_of_mem (f := fun p => Record.ofTag (packTag index .lenPrefix)
      (lenPrefixed (childPayload child target' p))) hq)
  | map key value =>
    cases value with
    | slot s => simp [Family.children] at h
    | message target' =>
      simp only [Family.children, List.mem_filterMap, Option.map_eq_some_iff] at h
      obtain ⟨e, he, r, hr, heq⟩ := h
      simp only [Prod.mk.injEq] at heq
      obtain ⟨rfl, rfl⟩ := heq
      have hpayload := hrecord (entryPayload child key (.message target') e)
        (List.mem_map_of_mem (f := fun e => Record.ofTag (packTag index .lenPrefix)
          (lenPrefixed (entryPayload child key (.message target') e))) he)
      have hle : (childPayload child target' e.2).length
          ≤ (entryPayload child key (.message target') e).length := by
        have hvalue := length_le_lenPrefixed (packTag 2 .lenPrefix) (childPayload child target' e.2)
        simp only [entryPayload, MapValue.record, Record.concat_cons, List.length_append]
        omega
      rw [hr, childPayload_some] at hle
      omega

theorem ReadsBack.isOk {store : Store S} {n : Nat} {t : MsgId} {a : Addr}
    {res : Except Error (Reader S t)} (h : ReadsBack store n t a res)
    : ∃ r, res = .ok r := by
  cases n with
  | zero => exact h.elim
  | succ n =>
    obtain ⟨r, hr, -⟩ := h
    exact ⟨r, hr⟩

theorem readsBack_wireBytes (hS : S.Numbered) {store : Store S} {n : Nat} {t : MsgId} {a : Addr}
    (h : Height store n t a) (hlen : (wireBytes store n t a).length < 2 ^ 64)
    : ReadsBack store n t a (readerInit S t (wireBytes store n t a)) := by
  induction n generalizing t a with
  | zero => exact h.elim
  | succ n ih =>
    obtain ⟨r, hr, hviews⟩ := readerInit_wireBytes hS hlen
    refine ⟨r, hr, ?_⟩
    intro i
    have hrecords := fun r hmem => length_field_record (i := i) (r := r) hlen hmem
    have hchild : ∀ target p, (target, p) ∈ (S.field t i).family.children (store t a i) →
        ReadsBack store n target p (readerInit S target (wireBytes store n target p)) := by
      intro target p hmem
      exact ih (h target p (mem_children_of_field hmem)) (Family.length_child hrecords hmem)
    have hok : ∀ target q (res : Except Error (Reader S target)), ReadsBack store n target q res →
        ∃ r, res = .ok r := fun target q res h => h.isOk
    rw [hviews i (Family.entriesDecode_records hok hchild hrecords).entriesOk]
    exact Family.reread_readsBack hok hchild

end RoundTrip

/--
Where the size and encode functions are run on a message, which the machine can do if its size fits
in a `size_t`, the reader accepts the bytes they write and shows the message: every value, in order,
and nothing more.
-/
theorem written_readsBack (hS : S.Numbered) {store : Store S} {t : MsgId} {a : Addr}
    (h : Acyclic store t a) (hlen : (messageBytes h).length < 2 ^ 64)
    : ∃ height, ∀ fuel, height ≤ fuel → ∀ cache buf off, ∃ bytes,
        writtenBytes store fuel t a cache buf off = some bytes
          ∧ ReadsBack store h.height t a (readerInit S t bytes) := by
  refine ⟨h.height, ?_⟩
  intro fuel hfuel cache buf off
  refine ⟨messageBytes h, writtenBytes_eq h.height_spec hfuel hlen cache buf off, ?_⟩
  exact readsBack_wireBytes hS h.height_spec hlen

theorem sharedSchema_numbered : sharedSchema.Numbered := by
  constructor
  . intro t
    cases t with
    | zero => decide
    | succ t =>
      show ∀ i : Fin 2, 1 ≤ (sharedSchema.field 1 i).index
      decide
  . intro t
    cases t with
    | zero => decide
    | succ t =>
      show ∀ i : Fin 2, (sharedSchema.field 1 i).index < 2 ^ 29
      decide
  . intro t
    cases t with
    | zero => decide
    | succ t =>
      show ∀ i j : Fin 2, (sharedSchema.field 1 i).index = (sharedSchema.field 1 j).index → i = j
      decide

end Gremlin
