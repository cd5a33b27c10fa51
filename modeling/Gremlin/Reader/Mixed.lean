import Gremlin.Reader.WellFormed

/-!
This module contains the analysis of repeated scalar and enum fields that occur in the packed and
in the unpacked form: which sequences of the two forms the reader accepts.
-/

namespace Gremlin

open Codec

/--
The field occurs as a packed and as an unpacked record.
-/
def Field.Mixed (f : Field) (rs : List Record) : Prop :=
  match f.family with
  | .repScalar e _ =>
    (∃ r ∈ rs, r.tag = packTag f.index .lenPrefix) ∧ ∃ r ∈ rs, r.tag = packTag f.index e.wireType
  | _ => False

/--
Packed records without elements, then an unpacked record, then packed records only.
-/
def Field.LateUnpacked (f : Field) (rs : List Record) : Prop :=
  match f.family with
  | .repScalar e _ =>
    ∃ pre r post, rs = pre ++ r :: post ∧ pre ≠ []
      ∧ (∀ q ∈ pre, q.tag = packTag f.index .lenPrefix ∧ e.blockCount q.content = 0)
      ∧ r.tag ≠ packTag f.index .lenPrefix ∧ ∀ q ∈ post, q.tag = packTag f.index .lenPrefix
  | _ => False

/--
A singular field that is read as a varint of at most five bytes has a longer one.
-/
def Field.Overlong (f : Field) (rs : List Record) : Prop :=
  match f.family with
  | .scalar e _ => e.usesVarint32 = true ∧ ∃ r ∈ rs, 5 < r.body.length
  | _ => False

theorem packTag_lenPrefix_ne (index : Nat) (e : Elem)
    : packTag index e.wireType ≠ packTag index .lenPrefix := by
  intro heq
  have := packTag_wireType index e.wireType
  rw [heq, packTag_wireType, Option.some.injEq] at this
  exact e.wireType_ne_lenPrefix this.symm

theorem Field.not_mixed_iff {index : Nat} {e : Elem} (packing : Packing) {rs : List Record}
    (htags : ∀ r ∈ rs, r.tag = packTag index .lenPrefix ∨ r.tag = packTag index e.wireType)
    : ¬Field.Mixed ⟨index, .repScalar e packing⟩ rs
        ↔
      (∀ r ∈ rs, r.tag = packTag index .lenPrefix) ∨ ∀ r ∈ rs, r.tag ≠ packTag index .lenPrefix := by
  have hne := packTag_lenPrefix_ne index e
  simp only [Field.Mixed]
  constructor
  . intro h
    by_cases hpacked : ∃ r ∈ rs, r.tag = packTag index .lenPrefix
    . refine .inl ?_
      intro r hr
      rcases htags r hr with htag | htag
      . exact htag
      . exact absurd ⟨hpacked, r, hr, htag⟩ h
    . refine .inr ?_
      intro r hr htag
      exact hpacked ⟨r, hr, htag⟩
  . rintro (hall | hall) ⟨⟨r, hr, hpacked⟩, q, hq, hunpacked⟩
    . exact hne (hunpacked.symm.trans (hall q hq))
    . exact hall r hr hpacked

/-! The outcome of a log. -/

section Run

variable {index : Nat} {e : Elem}

/--
Once there are elements and the flag is set, only packed records are accepted.
-/
theorem ScalarLog.run_of_packed {log : ScalarLog} (hpos : 0 < log.count)
    (hpacked : log.packed = true) (rs : List Record)
    : log.run index e rs
        =
      if ∀ r ∈ rs, r.tag = packTag index .lenPrefix then
        .ok ⟨log.count + (rs.map fun r => e.blockCount r.content).sum, true, log.rest⟩
      else
        .error .invalidWireType := by
  have hzero : log.count ≠ 0 := by omega
  induction rs generalizing log with
  | nil =>
    simp only [ScalarLog.run, List.not_mem_nil, false_implies, implies_true, ↓reduceIte,
      List.map_nil, List.sum_nil, Nat.add_zero, ← hpacked]
  | cons r rs ih =>
    unfold ScalarLog.run
    by_cases htag : r.tag = packTag index .lenPrefix
    . have hnot : ¬(log.count > 0 ∧ log.packed = false) := by simp [hpacked]
      rw [if_pos htag, if_neg hnot, ih (by dsimp only; omega) (by simp [hpacked])
        (by dsimp only; omega)]
      simp only [List.forall_mem_cons, htag, true_and, hzero, ↓reduceIte, List.map_cons,
        List.sum_cons, Nat.add_assoc]
    . rw [if_neg htag, if_pos ⟨hpos, hpacked⟩, if_neg]
      intro hall
      exact htag (hall r (by simp))

/--
Once there are elements and the flag is not set, only unpacked records are accepted.
-/
theorem ScalarLog.run_of_unpacked {log : ScalarLog} (hpos : 0 < log.count)
    (hpacked : log.packed = false) (rs : List Record)
    : (∃ log', log.run index e rs = .ok log') ↔ ∀ r ∈ rs, r.tag ≠ packTag index .lenPrefix := by
  constructor
  . rintro ⟨log', h⟩
    exact (ScalarLog.run_unpacked hpos hpacked h).1
  . intro h
    induction rs generalizing log with
    | nil => exact ⟨log, rfl⟩
    | cons r rs ih =>
      unfold ScalarLog.run
      rw [if_neg (h r (by simp)), if_neg (by simp [hpacked])]
      apply ih
      . dsimp only
        omega
      . exact hpacked
      . intro q hq
        exact h q (by simp [hq])

/--
As long as there are no elements and the flag is set, an unpacked record is accepted and leaves the
flag as it is.
-/
theorem ScalarLog.run_of_empty {log : ScalarLog} (hzero : log.count = 0)
    (hpacked : log.packed = true) (rs : List Record)
    : (∃ log', log.run index e rs = .ok log')
        ↔
      (∀ r ∈ rs, r.tag = packTag index .lenPrefix)
        ∨ ∃ pre r post, rs = pre ++ r :: post
            ∧ (∀ q ∈ pre, q.tag = packTag index .lenPrefix ∧ e.blockCount q.content = 0)
            ∧ r.tag ≠ packTag index .lenPrefix ∧ ∀ q ∈ post, q.tag = packTag index .lenPrefix := by
  induction rs generalizing log with
  | nil => simp [ScalarLog.run]
  | cons r rs ih =>
    unfold ScalarLog.run
    have hnot : ¬(log.count > 0 ∧ log.packed = false) := by simp [hpacked]
    have hnot' : ¬(log.count > 0 ∧ log.packed = true) := by simp [hzero]
    by_cases htag : r.tag = packTag index .lenPrefix
    . rw [if_pos htag, if_neg hnot]
      -- A block without elements leaves the log empty, and the mode open.
      by_cases hblock : e.blockCount r.content = 0
      . rw [ih (by simp [hzero, hblock]) (by simp [hpacked])]
        constructor
        . rintro (hall | ⟨pre, q, post, rfl, hpre, hq, hpost⟩)
          . exact .inl (by simpa [htag] using hall)
          . refine .inr ⟨r :: pre, q, post, rfl, ?_, hq, hpost⟩
            simpa [htag, hblock] using hpre
        . rintro (hall | ⟨pre, q, post, heq, hpre, hq, hpost⟩)
          . exact .inl (by simpa [htag] using hall)
          . cases pre with
            | nil =>
              simp only [List.nil_append, List.cons.injEq] at heq
              rw [← heq.1] at hq
              exact absurd htag hq
            | cons p pre =>
              simp only [List.cons_append, List.cons.injEq] at heq
              refine .inr ⟨pre, q, post, heq.2, ?_, hq, hpost⟩
              intro q' hq'
              exact hpre q' (by simp [hq'])
      . -- A block with elements fixes the mode: only blocks may follow.
        rw [ScalarLog.run_of_packed (by dsimp only; omega) (by simp [hpacked])]
        constructor
        . rintro ⟨log', h⟩
          split at h
          . next hall => exact .inl (by simpa [htag] using hall)
          . simp at h
        . rintro (hall | ⟨pre, q, post, heq, hpre, hq, hpost⟩)
          . rw [if_pos (by simpa [htag] using hall)]
            exact ⟨_, rfl⟩
          . cases pre with
            | nil =>
              simp only [List.nil_append, List.cons.injEq] at heq
              rw [← heq.1] at hq
              exact absurd htag hq
            | cons p pre =>
              simp only [List.cons_append, List.cons.injEq] at heq
              have := (hpre p (by simp)).2
              rw [← heq.1] at this
              exact absurd this hblock
    . -- A single element makes the count positive while the flag stays set.
      rw [if_neg htag, if_neg hnot', ScalarLog.run_of_packed (Nat.succ_pos _) (by exact hpacked)]
      constructor
      . rintro ⟨log', h⟩
        split at h
        . next hall => exact .inr ⟨[], r, rs, rfl, by simp, htag, hall⟩
        . simp at h
      . rintro (hall | ⟨pre, q, post, heq, hpre, hq, hpost⟩)
        . exact absurd (hall r (by simp)) htag
        . cases pre with
          | nil =>
            simp only [List.nil_append, List.cons.injEq] at heq
            rw [heq.2, if_pos hpost]
            exact ⟨_, rfl⟩
          | cons p pre =>
            simp only [List.cons_append, List.cons.injEq] at heq
            have := (hpre p (by simp)).1
            rw [← heq.1] at this
            exact absurd this htag

theorem ScalarLog.run_initial_isOk_iff (packing : Packing) (rs : List Record)
    : (∃ log, ScalarLog.initial.run index e rs = .ok log)
        ↔
      (∀ r ∈ rs, r.tag = packTag index .lenPrefix)
        ∨ (∀ r ∈ rs, r.tag ≠ packTag index .lenPrefix)
        ∨ Field.LateUnpacked ⟨index, .repScalar e packing⟩ rs := by
  cases rs with
  | nil => simp [ScalarLog.run]
  | cons r rs =>
    unfold ScalarLog.run Field.LateUnpacked
    dsimp only
    have hinit (p : Bool) : ¬(ScalarLog.initial.count > 0 ∧ ScalarLog.initial.packed = p) := by
      simp [ScalarLog.initial]
    rw [if_neg (hinit false), if_neg (hinit true)]
    by_cases htag : r.tag = packTag index .lenPrefix
    . rw [if_pos htag]
      have hunpacked : ¬∀ q ∈ r :: rs, q.tag ≠ packTag index .lenPrefix := by
        intro hall
        exact hall r (by simp) htag
      simp only [hunpacked, false_or]
      -- The flag is set by the first block, also if it has no elements.
      by_cases hblock : e.blockCount r.content = 0
      . rw [ScalarLog.run_of_empty (by simp [ScalarLog.initial, hblock])
          (by simp [ScalarLog.initial])]
        simp only [List.forall_mem_cons, htag, true_and]
        apply or_congr_right
        constructor
        . rintro ⟨pre, q, post, rfl, hpre, hq, hpost⟩
          refine ⟨r :: pre, q, post, rfl, by simp, ?_, hq, hpost⟩
          simpa [htag, hblock] using hpre
        . rintro ⟨pre, q, post, heq, hne, hpre, hq, hpost⟩
          cases pre with
          | nil => exact absurd rfl hne
          | cons p pre =>
            simp only [List.cons_append, List.cons.injEq] at heq
            refine ⟨pre, q, post, heq.2, ?_, hq, hpost⟩
            intro q' hq'
            exact hpre q' (by simp [hq'])
      . rw [ScalarLog.run_of_packed (by dsimp only [ScalarLog.initial]; omega)
          (by simp [ScalarLog.initial])]
        constructor
        . rintro ⟨log', h⟩
          split at h
          . next hall => exact .inl (by simpa [htag] using hall)
          . simp at h
        . rintro (hall | ⟨pre, q, post, heq, hne, hpre, -, -⟩)
          . rw [if_pos (by simpa [htag] using hall)]
            exact ⟨_, rfl⟩
          . cases pre with
            | nil => exact absurd rfl hne
            | cons p pre =>
              simp only [List.cons_append, List.cons.injEq] at heq
              have := (hpre p (by simp)).2
              rw [← heq.1] at this
              exact absurd this hblock
    . rw [if_neg htag, ScalarLog.run_of_unpacked (by simp [ScalarLog.initial]) rfl]
      have hpacked : ¬∀ q ∈ r :: rs, q.tag = packTag index .lenPrefix := by
        intro hall
        exact htag (hall r (by simp))
      rw [or_iff_right hpacked]
      simp only [List.forall_mem_cons, ne_eq, htag, not_false_eq_true, true_and, iff_self_or]
      rintro ⟨pre, q, post, heq, hne, hpre, -, -⟩
      cases pre with
      | nil => exact absurd rfl hne
      | cons p pre =>
        simp only [List.cons_append, List.cons.injEq] at heq
        have := (hpre p (by simp)).1
        rw [← heq.1] at this
        exact absurd this htag

end Run

/-! The outcome of a field. -/

theorem Elem.readSingular_eq {e : Elem} {index : Nat} {r : Record} (hr : r.Valid)
    (htag : r.tag = packTag index e.wireType)
    : if e.usesVarint32 = true ∧ 5 < r.body.length then e.readSingular r = .error .overflow
      else ∃ v, e.readSingular r = .ok v := by
  have hne : e.wireType ≠ .sgroup := by
    rcases e.wireType_cases with hwt | hwt | hwt <;> simp [hwt]
  have hwt : WireType.ofNat? (r.tag.toNat % 8) = some e.wireType := by rw [htag, packTag_wireType]
  have hskip := hr.skip_body hwt []
  rw [List.append_nil, skipData_of_ne_sgroup hne] at hskip
  unfold readSingular
  rcases decodeSingular_cases e with ⟨huses, hwt, f, hf⟩ | ⟨huses, heq⟩
  . rw [hwt] at hskip
    obtain ⟨hvarint, -⟩ := isVarint_of_skipFlat hskip
    rw [hf]
    split
    . next hlong =>
      have := varint32Decode_overflow hvarint hlong.2 []
      rw [List.append_nil] at this
      simp [Decoder.map, Decoder.bind, this, Except.map]
    . next hshort =>
      have := varint32Decode_append hvarint (by simp only [huses, true_and] at hshort; omega) []
      rw [List.append_nil] at this
      simp [Decoder.map, Decoder.bind, Decoder.pure, this, Except.map]
  . rw [if_neg (by simp [huses]), heq]
    obtain ⟨v, hv⟩ := decode_of_skipFlat hskip
    exact ⟨v, by simp [hv, Except.map]⟩

theorem lastValue_isOk {α : Type} {read : Record → Except Error α} {rs : List Record}
    (h : ∀ r ∈ rs, ∃ v, read r = .ok v) (st : Option α)
    : ∃ v, lastValue read st rs = .ok v := by
  induction rs generalizing st with
  | nil => exact ⟨st, rfl⟩
  | cons r rs ih =>
    obtain ⟨v, hv⟩ := h r (by simp)
    unfold lastValue
    rw [hv]
    apply ih
    intro q hq
    exact h q (by simp [hq])

theorem lastValue_eq_error {α : Type} {read : Record → Except Error α} {rs : List Record}
    {err : Error} {st : Option α} (h : lastValue read st rs = .error err)
    : ∃ r ∈ rs, read r = .error err := by
  induction rs generalizing st with
  | nil => simp [lastValue] at h
  | cons r rs ih =>
    unfold lastValue at h
    cases hr : read r with
    | error e =>
      simp only [hr, Except.error.injEq] at h
      exact ⟨r, by simp, by rw [hr, h]⟩
    | ok v =>
      simp only [hr] at h
      obtain ⟨q, hq, hread⟩ := ih h
      exact ⟨q, by simp [hq], hread⟩

theorem lastValue_isOk_iff {α : Type} {read : Record → Except Error α} {rs : List Record}
    (st : Option α)
    : (∃ v, lastValue read st rs = .ok v) ↔ ∀ r ∈ rs, ∃ v, read r = .ok v := by
  constructor
  . intro h
    induction rs generalizing st with
    | nil => simp
    | cons r rs ih =>
      unfold lastValue at h
      cases hr : read r with
      | error e => simp [hr] at h
      | ok v =>
        simp only [hr] at h
        rw [List.forall_mem_cons]
        exact ⟨⟨v, hr⟩, ih _ h⟩
  . intro h
    exact lastValue_isOk h st

theorem readSpan_isOk {index : Nat} {r : Record} (hr : r.Valid)
    (htag : r.tag = packTag index .lenPrefix)
    : readSpan r = .ok r.content := by
  unfold readSpan
  rw [hr.bytesDecode_body (by rw [htag, packTag_lenPrefix])]
  rfl

variable {S : Schema}

theorem exists_map_ok_iff {ε α β : Type} {x : Except ε α} {f : α → β}
    : (∃ v, x.map f = .ok v) ↔ ∃ v, x = .ok v := by
  cases x <;> simp [Except.map]

/--
The records of a field have a view unless one is too long or the two forms are mixed in a way that
is noticed.
-/
theorem Field.viewOf_isOk_iff {f : Field} {rs : List Record} (hvalid : ∀ r ∈ rs, r.Valid)
    (htags : ∀ r ∈ rs, f.hasTag r.tag = true)
    : (∃ v, f.family.viewOf S f.index rs = .ok v)
        ↔
      ¬f.Overlong rs ∧ (f.Mixed rs → f.LateUnpacked rs) := by
  obtain ⟨index, family⟩ := f
  cases family with
  | scalar e default =>
    have htags : ∀ r ∈ rs, r.tag = packTag index e.wireType := by simpa [hasTag] using htags
    simp only [Family.viewOf, exists_map_ok_iff, lastValue_isOk_iff, Overlong, Mixed,
      false_implies, and_true, not_and, not_exists, Nat.not_lt]
    constructor
    . intro h huses r hr
      by_contra hlong
      have hread := Elem.readSingular_eq (hvalid r hr) (htags r hr)
      rw [if_pos ⟨huses, by omega⟩] at hread
      obtain ⟨v, hv⟩ := h r hr
      rw [hread] at hv
      simp at hv
    . intro h r hr
      have hread := Elem.readSingular_eq (hvalid r hr) (htags r hr)
      rwa [if_neg] at hread
      rintro ⟨huses, hlong⟩
      have := h huses r hr
      omega
  | bytes default =>
    have htags : ∀ r ∈ rs, r.tag = packTag index .lenPrefix := by simpa [hasTag] using htags
    simp only [Family.viewOf, exists_map_ok_iff, lastValue_isOk_iff, Overlong, Mixed,
      false_implies, not_false_eq_true, and_true, iff_true]
    intro r hr
    exact ⟨_, readSpan_isOk (hvalid r hr) (htags r hr)⟩
  | msgRef target =>
    have htags : ∀ r ∈ rs, r.tag = packTag index .lenPrefix := by simpa [hasTag] using htags
    simp only [Family.viewOf, exists_map_ok_iff, lastValue_isOk_iff, Overlong, Mixed,
      false_implies, not_false_eq_true, and_true, iff_true]
    intro r hr
    exact ⟨_, readSpan_isOk (hvalid r hr) (htags r hr)⟩
  | repScalar e packing =>
    have htags : ∀ r ∈ rs, r.tag = packTag index .lenPrefix ∨ r.tag = packTag index e.wireType := by
      simpa [hasTag] using htags
    simp only [Family.viewOf, exists_map_ok_iff, Overlong, not_false_eq_true, true_and]
    rw [ScalarLog.run_initial_isOk_iff packing, ← or_assoc, 
      ← not_mixed_iff packing htags]
    exact imp_iff_not_or.symm
  | repBytes => simp [Family.viewOf, Overlong, Mixed]
  | repMsg target => simp [Family.viewOf, Overlong, Mixed]
  | map key value => simp [Family.viewOf, Overlong, Mixed]

/--
An unknown wire type is reported for the records of a field only where the two forms are mixed.
-/
theorem Field.mixed_of_viewOf_error {f : Field} {rs : List Record} (hvalid : ∀ r ∈ rs, r.Valid)
    (htags : ∀ r ∈ rs, f.hasTag r.tag = true)
    (h : f.family.viewOf S f.index rs = .error .invalidWireType)
    : f.Mixed rs := by
  have hnot : ¬∃ v, f.family.viewOf S f.index rs = .ok v := by
    simp [h]
  rw [Field.viewOf_isOk_iff hvalid htags, not_and_or, Classical.not_not, Classical.not_imp] at hnot
  rcases hnot with hlong | hmixed
  . obtain ⟨index, family⟩ := f
    cases family with
    | scalar e default =>
      have htags : ∀ r ∈ rs, r.tag = packTag index e.wireType := by simpa [hasTag] using htags
      simp only [Family.viewOf] at h
      cases hlast : lastValue e.readSingular none rs with
      | ok v => simp [hlast, Except.map] at h
      | error err =>
        simp only [hlast, Except.map, Except.error.injEq] at h
        obtain ⟨r, hr, hread⟩ := lastValue_eq_error hlast
        have hspec := Elem.readSingular_eq (hvalid r hr) (htags r hr)
        split at hspec
        . rw [hread, h] at hspec
          simp at hspec
        . obtain ⟨v, hv⟩ := hspec
          rw [hread] at hv
          simp at hv
    | bytes | msgRef | repScalar | repBytes | repMsg | map => exact hlong.elim
  . exact hmixed.1

/-! The outcome of `reader_init`. -/

variable {t : MsgId}

theorem readerInit_overlong {rs : List Record} (hvalid : ∀ r ∈ rs, r.Valid) {r : Record}
    (hhead : IsVarint r.head) (hlong : 5 < r.head.length) (tail : List UInt8)
    : readerInit S t (Record.concat rs ++ (r.bytes ++ tail))
        =
      match readerInit S t (Record.concat rs) with
      | .error e => .error e
      | .ok _ => .error .overflow := by
  rw [readerInit_concat hvalid, readerInit]
  obtain ⟨fuel, hfuel, hloop⟩ := readerInitLoop_append 0 (fun i => (S.field t i).family.initial)
    (r.bytes ++ tail) hvalid (Nat.le_refl _)
  rw [List.length_append, hloop]
  cases initRecords S t 0 (fun i => (S.field t i).family.initial) rs with
  | error e => rfl
  | ok fields =>
    have hbytes : r.bytes ++ tail = r.head ++ (r.body ++ tail) := by simp [Record.bytes]
    have hne : r.head ++ (r.body ++ tail) ≠ [] := by
      intro hnil
      have := congrArg List.length hnil
      simp only [List.length_append, List.length_nil] at this
      omega
    dsimp only
    rw [hbytes] at hfuel ⊢
    cases fuel with
    | zero => simp only [List.length_append] at hfuel; omega
    | succ fuel =>
      rw [readerInitLoop, if_neg hne, varint32Decode_overflow hhead hlong]

theorem hasTag_of_owns {i : Fin (S t).length} {r : Record} (h : owns S t i r = true)
    : (S.field t i).hasTag r.tag = true :=
  hasTag_of_taken h

variable (S t) in
/--
Some repeated scalar or enum field occurs in both forms.
-/
def OccursMixed (rs : List Record) : Prop :=
  ∃ i, (S.field t i).Mixed (rs.filter (owns S t i))

variable (S t) in
/--
There is another reason to reject the records: a tag or a singular field is too long a varint, or
one of the mixed fields has a sequence of forms that is noticed.
-/
def RejectedAnyway (rs : List Record) : Prop :=
  (∃ r ∈ rs, 5 < r.head.length)
    ∨ ∃ i, (S.field t i).Overlong (rs.filter (owns S t i))
        ∨ (S.field t i).Mixed (rs.filter (owns S t i))
          ∧ ¬(S.field t i).LateUnpacked (rs.filter (owns S t i))

theorem Field.Mixed.mono {f : Field} {rs rs' : List Record} (h : f.Mixed rs)
    (hsub : ∀ r ∈ rs, r ∈ rs')
    : f.Mixed rs' := by
  unfold Mixed at h ⊢
  split
  . next e packing heq =>
    simp only [heq] at h
    obtain ⟨⟨r, hr, hpacked⟩, q, hq, hunpacked⟩ := h
    exact ⟨⟨r, hsub r hr, hpacked⟩, q, hsub q hq, hunpacked⟩
  . next hne =>
    split at h
    . next e packing heq => exact absurd heq (hne e packing)
    . exact h

theorem readerInit_isOk_iff_of_short {levels : Nat} {rs : List Record}
    (hwf : ∀ r ∈ rs, r.WellFormed levels) (hlevels : levels < 2 ^ 32)
    (hshort : ∀ r ∈ rs, r.head.length ≤ 5)
    : (∃ r, readerInit S t (Record.concat rs) = .ok r)
        ↔
      ∀ i, ¬(S.field t i).Overlong (rs.filter (owns S t i))
        ∧ ((S.field t i).Mixed (rs.filter (owns S t i))
            → (S.field t i).LateUnpacked (rs.filter (owns S t i))) := by
  have hvalid : ∀ r ∈ rs, r.Valid := fun r hr => (hwf r hr).valid hlevels (hshort r hr)
  rw [readerInit_isOk_iff hvalid]
  constructor
  . rintro ⟨-, hviews⟩ i
    rw [← Field.viewOf_isOk_iff (S := S)]
    . exact hviews i
    . intro r hr
      exact hvalid r (List.mem_filter.mp hr).1
    . intro r hr
      exact hasTag_of_owns (List.mem_filter.mp hr).2
  . intro h
    refine ⟨fun r hr _ => (hwf r hr).num_pos, ?_⟩
    intro i
    rw [Field.viewOf_isOk_iff]
    . exact h i
    . intro r hr
      exact hvalid r (List.mem_filter.mp hr).1
    . intro r hr
      exact hasTag_of_owns (List.mem_filter.mp hr).2

theorem occursMixed_of_invalidWireType {rs : List Record} (hvalid : ∀ r ∈ rs, r.Valid)
    (h : readerInit S t (Record.concat rs) = .error .invalidWireType)
    : OccursMixed S t rs := by
  rcases readerInit_eq_error hvalid h with hnum | ⟨i, hi⟩
  . simp at hnum
  . refine ⟨i, Field.mixed_of_viewOf_error (S := S) ?_ ?_ hi⟩
    . intro r hr
      exact hvalid r (List.mem_filter.mp hr).1
    . intro r hr
      exact hasTag_of_owns (List.mem_filter.mp hr).2

/--
Mixed fields are rejected, and an unknown wire type is never reported without one, exactly where a
mixed field comes with another reason to reject the records or with a sequence of forms other than
packed records without elements, one unpacked record and packed records.
-/
theorem mixed_rejected_iff {levels : Nat} {rs : List Record} (hwf : ∀ r ∈ rs, r.WellFormed levels)
    (hlevels : levels < 2 ^ 32)
    : ((OccursMixed S t rs → ∀ r, readerInit S t (Record.concat rs) ≠ .ok r)
          ∧ (¬OccursMixed S t rs → readerInit S t (Record.concat rs) ≠ .error .invalidWireType))
        ↔
      (OccursMixed S t rs → RejectedAnyway S t rs) := by
  cases hfind : rs.find? fun r => 5 < r.head.length with
  | none =>
    have hshort : ∀ r ∈ rs, r.head.length ≤ 5 := by
      simpa using hfind
    have hvalid : ∀ r ∈ rs, r.Valid := fun r hr => (hwf r hr).valid hlevels (hshort r hr)
    have hok := readerInit_isOk_iff_of_short (S := S) (t := t) hwf hlevels hshort
    constructor
    . rintro ⟨hreject, -⟩ hmixed
      have hnot : ¬∃ r, readerInit S t (Record.concat rs) = .ok r := by
        rintro ⟨r, hr⟩
        exact hreject hmixed r hr
      rw [hok] at hnot
      simp only [not_forall, not_and_or, Classical.not_not, exists_prop] at hnot
      exact .inr hnot
    . intro h
      refine ⟨?_, ?_⟩
      . intro hmixed r hr
        have hviews := hok.mp ⟨r, hr⟩
        rcases h hmixed with ⟨q, hq, hlong⟩ | ⟨i, hlong | ⟨hi, hlate⟩⟩
        . have := hshort q hq
          omega
        . exact (hviews i).1 hlong
        . exact hlate ((hviews i).2 hi)
      . intro hnot h
        exact hnot (occursMixed_of_invalidWireType hvalid h)
  | some w =>
    rw [List.find?_eq_some_iff_append] at hfind
    obtain ⟨hlong, pre, post, rfl, hpre⟩ := hfind
    have hlong : 5 < w.head.length := by simpa using hlong
    have hvalid : ∀ r ∈ pre, r.Valid := by
      intro r hr
      have : r.head.length ≤ 5 := by simpa using hpre r hr
      exact (hwf r (by simp [hr])).valid hlevels this
    have hinit := readerInit_overlong (S := S) (t := t) hvalid (hwf w (by simp)).head_varint hlong
      (Record.concat post)
    rw [← Record.concat_cons, ← Record.concat_append] at hinit
    rw [hinit]
    constructor
    . intro _ _
      exact .inl ⟨w, by simp, hlong⟩
    . intro _
      refine ⟨?_, ?_⟩
      . intro _ r hr
        split at hr <;> simp at hr
      . intro hnot h
        split at h
        . next e herror =>
          simp only [Except.error.injEq] at h
          subst h
          obtain ⟨i, hi⟩ := occursMixed_of_invalidWireType hvalid herror
          refine hnot ⟨i, hi.mono ?_⟩
          intro r hr
          rw [List.mem_filter] at hr ⊢
          exact ⟨by simp [hr.1], hr.2⟩
        . simp at h

def repeatedSchema : Schema :=
  fun _ => [⟨1, .repScalar (.scalar .int32) .auto⟩]

/--
A packed record without elements and an unpacked record.
-/
def lateRecords : List Record :=
  [⟨packTag 1 .lenPrefix, [10], [0]⟩, ⟨packTag 1 .varint, [8], [5]⟩]

theorem lateRecords_wellFormed : ∀ r ∈ lateRecords, r.WellFormed 0 := by
  simp only [lateRecords, List.forall_mem_cons, List.not_mem_nil, false_implies, implies_true,
    and_true]
  refine ⟨.flat ⟨by decide, by decide, rfl, by decide, by decide⟩ rfl ?_,
    .flat ⟨by decide, by decide, rfl, by decide, by decide⟩ rfl (.varint (by decide) (by decide))⟩
  exact IsData.lenPrefix (by decide : IsVarint [0]) (by decide) (rfl : _ = List.length []) (by decide)

theorem lateRecords_mixed : OccursMixed repeatedSchema 0 lateRecords := by
  have hfilter : lateRecords.filter (owns repeatedSchema 0 ⟨0, by decide⟩) = lateRecords := by
    decide +kernel
  refine ⟨⟨0, by decide⟩, ?_⟩
  rw [hfilter]
  exact ⟨⟨_, List.mem_cons_self, rfl⟩, _, List.mem_cons_of_mem _ List.mem_cons_self, rfl⟩

/--
The reader accepts the records although the field occurs in both forms.
-/
theorem lateRecords_accepted
    : (∀ r ∈ lateRecords, r.WellFormed 0) ∧ OccursMixed repeatedSchema 0 lateRecords
        ∧ ∃ r, readerInit repeatedSchema 0 (Record.concat lateRecords) = .ok r := by
  refine ⟨lateRecords_wellFormed, lateRecords_mixed, ?_⟩
  have hok : (readerInit repeatedSchema 0 (Record.concat lateRecords)).isOk = true := by
    decide +kernel
  cases hinit : readerInit repeatedSchema 0 (Record.concat lateRecords) with
  | ok r => exact ⟨r, rfl⟩
  | error err => simp [hinit, Except.isOk, Except.toBool] at hok

theorem lateRecords_rejected_iff
    : ((OccursMixed repeatedSchema 0 lateRecords
            → ∀ r, readerInit repeatedSchema 0 (Record.concat lateRecords) ≠ .ok r)
          ∧ (¬OccursMixed repeatedSchema 0 lateRecords
            → readerInit repeatedSchema 0 (Record.concat lateRecords) ≠ .error .invalidWireType))
        ↔
      (OccursMixed repeatedSchema 0 lateRecords → RejectedAnyway repeatedSchema 0 lateRecords) :=
  mixed_rejected_iff lateRecords_wellFormed (by decide)

end Gremlin
