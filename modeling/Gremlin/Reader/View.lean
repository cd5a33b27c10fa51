import Gremlin.Reader.Scan

/-!
This module contains what a caller sees of a reader: the results of the getters, the counts and the
results of all calls of the iterators. All this is shown to be a function of the records of the
field, in their order, whatever other records lie between them.
-/

namespace Gremlin

open Codec

variable (S : Schema)

/--
What a caller sees of a field. The results of an iterator are those of the calls number 0, 1, 2 and
so on of `next`, beyond the count too.
-/
abbrev Family.View : Family → Type
  | .scalar e _ => e.Value
  | .bytes _ => List UInt8
  | .msgRef target => Bool × Except Error (Reader S target)
  | .repScalar e _ => Nat × (Nat → Except Error e.Value)
  | .repBytes => Nat × (Nat → Except Error (List UInt8))
  | .repMsg target => Nat × (Nat → Except Error (Reader S target))
  | .map key value => Nat × (Nat → Except Error (key.Value × value.Out S))

def Family.view (index : Nat) (src : List UInt8) : (f : Family) → f.State → f.View S
  | .scalar _ default, st => getter default st
  | .bytes default, st => getter default st
  | .msgRef target, st => (st.isSome, messageGetter S target st)
  | .repScalar e _, st =>
    (st.count, fun k => result (nextScalar index e) k (ScalarIter.begin src st))
  | .repBytes, st => (st.count, fun k => result (nextBytes index) k (Iter.begin src st))
  | .repMsg target, st =>
    (st.count, fun k => result (nextMessage S index target) k (Iter.begin src st))
  | .map key value, st =>
    (st.count, fun k => result (nextEntry S index key value) k (Iter.begin src st))

variable {S}

def Reader.view {t : MsgId} (r : Reader S t) (i : Fin (S t).length) : (S.field t i).family.View S :=
  (S.field t i).family.view S (S.field t i).index r.src (r.fields i)

/-! The records of a field alone. -/

def lastValue {α : Type} (read : Record → Except Error α) : Option α → List Record →
    Except Error (Option α)
  | st, [] => .ok st
  | _, r :: rs =>
    match read r with
    | .error e => .error e
    | .ok v => lastValue read (some v) rs

def Elem.readSingular (e : Elem) (r : Record) : Except Error e.Value :=
  (e.decodeSingular r.body).map Prod.fst

def readSpan (r : Record) : Except Error (List UInt8) :=
  (bytesDecode r.body).map Prod.fst

/--
What is known of a repeated scalar or enum field: the members of the reader, with the records from
the first one with elements on in the place of its offset.
-/
structure ScalarLog where
  count : Nat
  packed : Bool
  rest : List Record

def ScalarLog.run (index : Nat) (e : Elem) : ScalarLog → List Record → Except Error ScalarLog
  | log, [] => .ok log
  | log, r :: rs =>
    if r.tag = packTag index .lenPrefix then
      if log.count > 0 ∧ log.packed = false then
        .error .invalidWireType
      else
        ScalarLog.run index e
          { count := log.count + e.blockCount r.content
            packed := if log.count = 0 then true else log.packed
            rest := if log.count = 0 then r :: rs else log.rest }
          rs
    else if log.count > 0 ∧ log.packed = true then
      .error .invalidWireType
    else
      ScalarLog.run index e
        { count := log.count + 1
          packed := log.packed
          rest := if log.count = 0 then r :: rs else log.rest }
        rs

def ScalarLog.initial : ScalarLog :=
  ⟨0, false, []⟩

/--
The results of the iterator of a repeated scalar or enum field.
-/
def ScalarLog.results (index : Nat) (e : Elem) (log : ScalarLog) (k : Nat)
    : Except Error e.Value :=
  if log.count = 0 then
    .ok 0
  else if log.packed then
    result (PackedCursor.next e) k ⟨[], contents (packTag index .lenPrefix) log.rest, log.count⟩
  else
    ((bodies (packTag index e.wireType) log.rest)[k]?.map e.decodeBody).getD (.ok 0)

/--
The results of an iterator that delivers one element for each record.
-/
def deliveries {α : Type} (deliver : List UInt8 → Except Error α) (rs : List Record) (k : Nat)
    : Except Error α :=
  ((rs.map Record.content)[k]?.map deliver).getD (deliver [])

variable (S) in
/--
What a caller sees of a field whose records are `rs`, or the error for which one is rejected.
-/
def Family.viewOf (index : Nat) : (f : Family) → (rs : List Record) → Except Error (f.View S)
  | .scalar e default, rs => (lastValue e.readSingular none rs).map (getter default)
  | .bytes default, rs => (lastValue readSpan none rs).map (getter default)
  | .msgRef target, rs =>
    (lastValue readSpan none rs).map fun st => (st.isSome, messageGetter S target st)
  | .repScalar e _, rs =>
    (ScalarLog.initial.run index e rs).map fun log => (log.count, log.results index e)
  | .repBytes, rs => .ok (rs.length, deliveries .ok rs)
  | .repMsg target, rs => .ok (rs.length, deliveries (readerInit S target) rs)
  | .map key value, rs => .ok (rs.length, deliveries (decodeEntry S key value) rs)

/-! The arms on the records of the field. -/

section Fold

variable {index : Nat} {M : BitVec 32 → Bool}

theorem eq_lastValue {α : Type} {read : Record → Except Error α}
    {F : Nat → Option α → List Record → Except Error (Option α)}
    (hnil : ∀ off st, F off st [] = .ok st)
    (hcons : ∀ off st r rs, F off st (r :: rs)
      = if M r.tag then
          match read r with
          | .error e => .error e
          | .ok v => F (off + r.bytes.length) (some v) rs
        else
          F (off + r.bytes.length) st rs)
    (off : Nat) (st : Option α) (rs : List Record)
    : F off st rs = lastValue read st (rs.filter fun r => M r.tag) := by
  induction rs generalizing off st with
  | nil => exact hnil off st
  | cons r rs ih =>
    rw [hcons]
    by_cases hm : M r.tag
    . simp only [hm, ↓reduceIte, List.filter_cons_of_pos, lastValue]
      cases read r with
      | error err => rfl
      | ok v => exact ih ..
    . simp only [hm, Bool.false_eq_true, ↓reduceIte, not_false_eq_true, List.filter_cons_of_neg]
      exact ih ..

theorem fold_scalar {e : Elem} {default : e.Value} (off : Nat) (st : Option e.Value)
    (rs : List Record)
    : Field.fold ⟨index, .scalar e default⟩ (fun r => M r.tag) off st rs
        =
      lastValue e.readSingular st (rs.filter fun r => M r.tag) := by
  apply eq_lastValue (F := Field.fold ⟨index, .scalar e default⟩ fun r => M r.tag)
  . intros
    rfl
  . intro off st r rs
    simp only [Field.fold, Field.absorb, Family.arm, Decoder.map, Decoder.bind, Decoder.pure,
      Elem.readSingular]
    cases e.decodeSingular r.body <;> rfl

theorem fold_bytes {default : List UInt8} (off : Nat) (st : Option (List UInt8)) (rs : List Record)
    : Field.fold ⟨index, .bytes default⟩ (fun r => M r.tag) off st rs
        =
      lastValue readSpan st (rs.filter fun r => M r.tag) := by
  apply eq_lastValue (F := Field.fold ⟨index, .bytes default⟩ fun r => M r.tag)
  . intros
    rfl
  . intro off st r rs
    simp only [Field.fold, Field.absorb, Family.arm, Decoder.map, Decoder.bind, Decoder.pure,
      readSpan]
    cases bytesDecode r.body <;> rfl

theorem fold_msgRef {target : MsgId} (off : Nat) (st : Option (List UInt8)) (rs : List Record)
    : Field.fold ⟨index, .msgRef target⟩ (fun r => M r.tag) off st rs
        =
      lastValue readSpan st (rs.filter fun r => M r.tag) := by
  apply eq_lastValue (F := Field.fold ⟨index, .msgRef target⟩ fun r => M r.tag)
  . intros
    rfl
  . intro off st r rs
    simp only [Field.fold, Field.absorb, Family.arm, Decoder.map, Decoder.bind, Decoder.pure,
      readSpan]
    cases bytesDecode r.body <;> rfl

/--
The arms of the repeated fields that are length-delimited.
-/
def repFold (M : BitVec 32 → Bool) : (off : Nat) → RepState → List Record → RepState
  | _, st, [] => st
  | off, st, r :: rs =>
    if M r.tag then
      repFold M (off + r.bytes.length)
        { count := st.count + 1
          firstOffset := if st.count = 0 then off + r.head.length else st.firstOffset }
        rs
    else
      repFold M (off + r.bytes.length) st rs

theorem repArm_of_valid {off : Nat} {st : RepState} {r : Record} (hr : r.Valid)
    (htag : r.tag = packTag index .lenPrefix)
    : repArm off st r.body
        =
      .ok ({ count := st.count + 1
             firstOffset := if st.count = 0 then off else st.firstOffset }, r.body.length) := by
  unfold repArm
  rw [Decoder.map_eq_ok_iff]
  exact ⟨r.content, hr.bytesDecode_body (by rw [htag, packTag_lenPrefix]), rfl⟩

theorem eq_repFold {F : Nat → RepState → List Record → Except Error RepState}
    (hnil : ∀ off st, F off st [] = .ok st)
    (hcons : ∀ off st r rs, F off st (r :: rs)
      = if M r.tag then
          match repArm (off + r.head.length) st r.body with
          | .error e => .error e
          | .ok (st, _) => F (off + r.bytes.length) st rs
        else
          F (off + r.bytes.length) st rs)
    (hM : ∀ tag, M tag → tag = packTag index .lenPrefix) {rs : List Record}
    (hvalid : ∀ r ∈ rs, r.Valid) (off : Nat) (st : RepState)
    : F off st rs = .ok (repFold M off st rs) := by
  induction rs generalizing off st with
  | nil => exact hnil off st
  | cons r rs ih =>
    have hrs : ∀ r ∈ rs, r.Valid := fun r hmem => hvalid r (by simp [hmem])
    rw [hcons, repFold]
    by_cases hm : M r.tag
    . simp only [hm, ↓reduceIte, repArm_of_valid (hvalid r (by simp)) (hM r.tag hm)]
      exact ih hrs ..
    . simp only [hm, Bool.false_eq_true, ↓reduceIte]
      exact ih hrs ..

theorem fold_repBytes (hM : ∀ tag, M tag → tag = packTag index .lenPrefix) {rs : List Record}
    (hvalid : ∀ r ∈ rs, r.Valid) (off : Nat) (st : RepState)
    : Field.fold ⟨index, .repBytes⟩ (fun r => M r.tag) off st rs = .ok (repFold M off st rs) := by
  apply eq_repFold (F := Field.fold ⟨index, .repBytes⟩ fun r => M r.tag) _ _ hM hvalid
  . intros
    rfl
  . intro off st r rs
    simp only [Field.fold, Field.absorb, Family.arm]
    cases repArm (off + r.head.length) st r.body <;> rfl

theorem fold_repMsg {target : MsgId} (hM : ∀ tag, M tag → tag = packTag index .lenPrefix)
    {rs : List Record} (hvalid : ∀ r ∈ rs, r.Valid) (off : Nat) (st : RepState)
    : Field.fold ⟨index, .repMsg target⟩ (fun r => M r.tag) off st rs
        =
      .ok (repFold M off st rs) := by
  apply eq_repFold (F := Field.fold ⟨index, .repMsg target⟩ fun r => M r.tag) _ _ hM hvalid
  . intros
    rfl
  . intro off st r rs
    simp only [Field.fold, Field.absorb, Family.arm]
    cases repArm (off + r.head.length) st r.body <;> rfl

theorem fold_map {key : Slot} {value : MapValue}
    (hM : ∀ tag, M tag → tag = packTag index .lenPrefix) {rs : List Record}
    (hvalid : ∀ r ∈ rs, r.Valid) (off : Nat) (st : RepState)
    : Field.fold ⟨index, .map key value⟩ (fun r => M r.tag) off st rs
        =
      .ok (repFold M off st rs) := by
  apply eq_repFold (F := Field.fold ⟨index, .map key value⟩ fun r => M r.tag) _ _ hM hvalid
  . intros
    rfl
  . intro off st r rs
    simp only [Field.fold, Field.absorb, Family.arm]
    cases repArm (off + r.head.length) st r.body <;> rfl

theorem repFold_of_pos {off : Nat} {st : RepState} (h : 0 < st.count) (rs : List Record)
    : repFold M off st rs = ⟨st.count + (rs.filter fun r => M r.tag).length, st.firstOffset⟩ := by
  induction rs generalizing off st with
  | nil => rfl
  | cons r rs ih =>
    have hne : st.count ≠ 0 := by omega
    unfold repFold
    by_cases hm : M r.tag
    . simp only [hm, ↓reduceIte, hne, List.filter_cons_of_pos, List.length_cons]
      rw [ih (by dsimp only; omega)]
      simp only [RepState.mk.injEq, and_true]
      omega
    . simp only [hm, Bool.false_eq_true, ↓reduceIte, not_false_eq_true, List.filter_cons_of_neg]
      exact ih h

/--
The count is the number of records of the field, and the offset that of the data of the first one.
-/
theorem repFold_initial (off n : Nat) (rs : List Record)
    : (repFold M off ⟨0, n⟩ rs).count = (rs.filter fun r => M r.tag).length
        ∧ (rs.filter (fun r => M r.tag) ≠ [] → ∃ pre r post, rs = pre ++ r :: post
            ∧ (∀ q ∈ pre, M q.tag = false) ∧ M r.tag
            ∧ (repFold M off ⟨0, n⟩ rs).firstOffset
                = off + (Record.concat pre).length + r.head.length) := by
  induction rs generalizing off with
  | nil => simp [repFold]
  | cons r rs ih =>
    unfold repFold
    by_cases hm : M r.tag
    . simp only [hm, ↓reduceIte, List.filter_cons_of_pos, List.length_cons]
      rw [repFold_of_pos (by simp)]
      refine ⟨by dsimp only; omega, fun _ => ⟨[], r, rs, rfl, by simp, hm, by simp⟩⟩
    . simp only [hm, Bool.false_eq_true, ↓reduceIte, not_false_eq_true, List.filter_cons_of_neg]
      obtain ⟨hcount, hfirst⟩ := ih (off + r.bytes.length)
      refine ⟨hcount, ?_⟩
      intro hne
      obtain ⟨pre, q, post, rfl, hpre, hq, hoffset⟩ := hfirst hne
      refine ⟨r :: pre, q, post, rfl, ?_, hq, ?_⟩
      . intro q' hq'
        rw [List.mem_cons] at hq'
        rcases hq' with rfl | hq'
        . simpa using hm
        . exact hpre q' hq'
      . rw [hoffset]
        simp [Nat.add_assoc]

theorem filter_tag {tag : BitVec 32} (hM : ∀ tag', M tag' → tag' = tag) (hmine : M tag)
    (rs : List Record)
    : rs.filter (fun r => M r.tag) = rs.filter fun r => r.tag = tag := by
  congr 1
  funext r
  rw [Bool.eq_iff_iff, decide_eq_true_iff]
  constructor
  . exact hM r.tag
  . intro h
    rwa [h]

theorem begin_at {rs : List Record} (hvalid : ∀ r ∈ rs, r.Valid)
    (hM : ∀ tag, M tag → tag = packTag index .lenPrefix)
    : (Iter.begin (Record.concat rs) (repFold M 0 ⟨0, 0⟩ rs)).At index
        ((rs.filter fun r => M r.tag).map Record.content) := by
  obtain ⟨hcount, hfirst⟩ := repFold_initial (M := M) 0 0 rs
  unfold Iter.begin
  by_cases hnil : rs.filter (fun r => M r.tag) = []
  . have hzero : (repFold M 0 ⟨0, 0⟩ rs).count = 0 := by rw [hcount, hnil]; rfl
    simp only [hzero, ↓reduceIte, hnil]
    exact ⟨rfl, by simp⟩
  . have hpos : (repFold M 0 ⟨0, 0⟩ rs).count ≠ 0 := by
      rw [hcount]
      simpa using hnil
    simp only [hpos, ↓reduceIte]
    refine ⟨by simp [hcount], ?_⟩
    intro _
    obtain ⟨pre, r, post, rfl, hpre, hr, hoffset⟩ := hfirst hnil
    have hfilter (rs : List Record)
        : (rs.filter fun r => M r.tag).map Record.content
            =
          contents (packTag index .lenPrefix) rs := by
      rw [contents, filter_tag hM (hM r.tag hr ▸ hr)]
    refine ⟨pre, r, post, ?_, rfl, ?_, hM r.tag hr, ?_⟩
    . intro q hq
      exact hvalid q (List.mem_append_right pre hq)
    . dsimp only
      rw [hoffset, Nat.zero_add]
    . rw [← hfilter post, List.filter_append]
      have hskip : pre.filter (fun r => M r.tag) = [] := by
        rw [List.filter_eq_nil_iff]
        intro q hq
        simp [hpre q hq]
      simp [hskip, hr]

/-! Repeated scalar and enum fields. -/

/--
The members of the reader after the records before `off`, against the log of these records. The
offset is the start of a record of `all`.
-/
structure ScalarLog.Fits (index : Nat) (e : Elem) (M : BitVec 32 → Bool) (all : List Record)
    (log : ScalarLog) (st : RepScalarState) : Prop where
  count : st.count = log.count
  packed : st.packed = log.packed
  owned : log.count > 0 →
    if log.packed then M (packTag index .lenPrefix) = true
    else M (packTag index e.wireType) = true
  first : log.count > 0 → ∃ pre suf, all = pre ++ suf
    ∧ st.firstOffset = (Record.concat pre).length ∧ log.rest = suf.filter fun r => M r.tag
  flag : log.packed = true → M (packTag index .lenPrefix) = true

theorem packedArm_of_valid {tagOffset : Nat} {e : Elem} {st : RepScalarState} {r : Record}
    (hr : r.Valid) (htag : r.tag = packTag index .lenPrefix)
    : packedArm tagOffset e st r.body
        =
      if st.count > 0 ∧ st.packed = false then
        .error .invalidWireType
      else
        .ok ({ count := st.count + e.blockCount r.content
               firstOffset := if st.count = 0 then tagOffset else st.firstOffset
               packed := if st.count = 0 then true else st.packed }, r.body.length) := by
  unfold packedArm
  split
  . rfl
  . rw [Decoder.map_eq_ok_iff]
    exact ⟨r.content, hr.bytesDecode_body (by rw [htag, packTag_lenPrefix]), rfl⟩

theorem unpackedArm_of_valid {tagOffset : Nat} {e : Elem} {st : RepScalarState} {r : Record}
    (hr : r.Valid) (htag : r.tag = packTag index e.wireType)
    : unpackedArm tagOffset e st r.body
        =
      if st.count > 0 ∧ st.packed = true then
        .error .invalidWireType
      else
        .ok ({ count := st.count + 1
               firstOffset := if st.count = 0 then tagOffset else st.firstOffset
               packed := st.packed }, r.body.length) := by
  unfold unpackedArm
  split
  . rfl
  . obtain ⟨v, hv⟩ := Elem.decode_body hr htag
    rw [Decoder.map_eq_ok_iff]
    exact ⟨(), skipFlat_of_decode hv, rfl⟩

/--
A repeated scalar or enum field rejects the records that its log rejects, and otherwise keeps what
the log says.
-/
theorem fold_repScalar {e : Elem} (packing : Packing) {pre rs : List Record}
    (hM : ∀ tag, M tag → tag = packTag index .lenPrefix ∨ tag = packTag index e.wireType)
    (hvalid : ∀ r ∈ rs, r.Valid) {log : ScalarLog} {st : RepScalarState}
    (hfits : log.Fits index e M (pre ++ rs) st)
    : match log.run index e (rs.filter fun r => M r.tag) with
      | .error err =>
        Field.fold ⟨index, .repScalar e packing⟩ (fun r => M r.tag) (Record.concat pre).length st rs
          =
        .error err
      | .ok log' => ∃ st',
        Field.fold ⟨index, .repScalar e packing⟩ (fun r => M r.tag) (Record.concat pre).length st rs
          =
        .ok st' ∧ log'.Fits index e M (pre ++ rs) st' := by
  induction rs generalizing pre log st with
  | nil => exact ⟨st, rfl, hfits⟩
  | cons r rs ih =>
    have hr := hvalid r (by simp)
    have hrs : ∀ r ∈ rs, r.Valid := fun r hmem => hvalid r (by simp [hmem])
    have happ : pre ++ r :: rs = pre ++ [r] ++ rs := by simp
    have hoff : (Record.concat pre).length + r.bytes.length
        = (Record.concat (pre ++ [r])).length := by
      simp
    unfold Field.fold
    by_cases hm : M r.tag
    . simp only [hm, ↓reduceIte, List.filter_cons_of_pos]
      unfold ScalarLog.run Field.absorb
      simp only [Family.arm]
      have hrest : r :: rs.filter (fun r => M r.tag) = (r :: rs).filter fun r => M r.tag := by
        simp [hm]
      -- The first record that is taken is where the reading begins.
      have hfirst : ∃ before suf, pre ++ r :: rs = before ++ suf
          ∧ (if log.count = 0 then (Record.concat pre).length else st.firstOffset)
            = (Record.concat before).length
          ∧ (if log.count = 0 then r :: rs.filter (fun r => M r.tag) else log.rest)
            = suf.filter fun r => M r.tag := by
        by_cases hzero : log.count = 0
        . simp only [hzero, ↓reduceIte]
          exact ⟨pre, r :: rs, rfl, rfl, hrest⟩
        . simp only [hzero, ↓reduceIte]
          exact hfits.first (by omega)
      -- The two tags differ, so the first test decides which arm takes the record.
      by_cases htag : r.tag = packTag index .lenPrefix
      . simp only [htag, ↓reduceIte, packedArm_of_valid hr htag, hfits.count, hfits.packed]
        by_cases hconflict : log.count > 0 ∧ log.packed = false
        . rw [if_pos hconflict, if_pos hconflict]
        . rw [if_neg hconflict, if_neg hconflict]
          dsimp only
          rw [hoff, happ]
          apply ih hrs
          rw [← happ]
          refine ⟨rfl, rfl, ?_, ?_, ?_⟩
          . intro _
            have hpacked : (if log.count = 0 then true else log.packed) = true := by
              split
              . rfl
              . next hzero =>
                rw [← Bool.not_eq_false]
                intro hfalse
                exact hconflict ⟨by omega, hfalse⟩
            simp only [hpacked, ↓reduceIte]
            rwa [← htag]
          . exact fun _ => hfirst
          . intro _
            rwa [← htag]
      . have htag' : r.tag = packTag index e.wireType := by
          rcases hM r.tag hm with h | h
          . exact absurd h htag
          . exact h
        simp only [htag, ↓reduceIte, unpackedArm_of_valid hr htag', hfits.count, hfits.packed]
        by_cases hconflict : log.count > 0 ∧ log.packed = true
        . rw [if_pos hconflict, if_pos hconflict]
        . rw [if_neg hconflict, if_neg hconflict]
          dsimp only
          rw [hoff, happ]
          apply ih hrs
          rw [← happ]
          refine ⟨rfl, rfl, ?_, ?_, hfits.flag⟩
          . intro _
            dsimp only
            split
            . next hp => exact hfits.flag hp
            . rwa [← htag']
          . exact fun _ => hfirst
    . simp only [hm, Bool.false_eq_true, ↓reduceIte, not_false_eq_true, List.filter_cons_of_neg]
      rw [hoff]
      rw [happ] at hfits ⊢
      exact ih hrs hfits

theorem ScalarLog.run_packed {e : Elem} {log log' : ScalarLog} {rs : List Record}
    (hpacked : log.packed = true) (h : log.run index e rs = .ok log')
    : log'.packed = true := by
  induction rs generalizing log with
  | nil =>
    simp only [ScalarLog.run, Except.ok.injEq] at h
    rwa [← h]
  | cons r rs ih =>
    unfold ScalarLog.run at h
    split at h
    . split at h
      . simp at h
      . apply ih _ h
        simp [hpacked]
    . split at h
      . simp at h
      . apply ih _ h
        exact hpacked

/--
Once there are elements and the flag is not set, only unpacked records are accepted.
-/
theorem ScalarLog.run_unpacked {e : Elem} {log log' : ScalarLog} {rs : List Record}
    (hpos : 0 < log.count) (hpacked : log.packed = false) (h : log.run index e rs = .ok log')
    : (∀ r ∈ rs, r.tag ≠ packTag index .lenPrefix)
        ∧ log' = ⟨log.count + rs.length, false, log.rest⟩ := by
  have hzero : log.count ≠ 0 := by omega
  induction rs generalizing log with
  | nil =>
    simp only [ScalarLog.run, Except.ok.injEq] at h
    subst h
    refine ⟨by simp, ?_⟩
    rw [← hpacked]
    rfl
  | cons r rs ih =>
    unfold ScalarLog.run at h
    by_cases htag : r.tag = packTag index .lenPrefix
    . rw [if_pos htag, if_pos ⟨hpos, hpacked⟩] at h
      simp at h
    . rw [if_neg htag, if_neg (by simp [hpacked])] at h
      simp only [hpacked, hzero, ↓reduceIte] at h
      obtain ⟨hall, rfl⟩ := ih (Nat.succ_pos _) rfl h (Nat.succ_ne_zero _)
      refine ⟨by simpa [htag] using hall, ?_⟩
      simp only [List.length_cons, ScalarLog.mk.injEq, and_self, and_true]
      omega

theorem ScalarLog.run_initial_unpacked {e : Elem} {log : ScalarLog} {rs : List Record}
    (h : ScalarLog.initial.run index e rs = .ok log) (hpacked : log.packed = false)
    : (∀ r ∈ rs, r.tag ≠ packTag index .lenPrefix) ∧ log = ⟨rs.length, false, rs⟩ := by
  cases rs with
  | nil =>
    simp only [ScalarLog.run, ScalarLog.initial, Except.ok.injEq] at h
    subst h
    simp
  | cons r rs =>
    simp only [ScalarLog.run, ScalarLog.initial, gt_iff_lt, Nat.lt_irrefl, false_and, ↓reduceIte]
      at h
    split at h
    . have := ScalarLog.run_packed (by rfl) h
      rw [this] at hpacked
      simp at hpacked
    . next htag =>
      obtain ⟨hall, rfl⟩ := ScalarLog.run_unpacked (by simp) rfl h
      refine ⟨by simpa [htag] using hall, ?_⟩
      simp only [List.length_cons, ScalarLog.mk.injEq, and_self, and_true]
      omega

theorem contents_filter {tag : BitVec 32} (h : M tag = true) (rs : List Record)
    : contents tag (rs.filter fun r => M r.tag) = contents tag rs := by
  unfold contents
  rw [List.filter_filter]
  congr 2
  funext r
  by_cases htag : r.tag = tag
  . simp [htag, h]
  . simp [htag]

theorem bodies_filter {tag : BitVec 32} (h : M tag = true) (rs : List Record)
    : bodies tag (rs.filter fun r => M r.tag) = bodies tag rs := by
  unfold bodies
  rw [List.filter_filter]
  congr 2
  funext r
  by_cases htag : r.tag = tag
  . simp [htag, h]
  . simp [htag]

theorem bodies_of_forall {tag : BitVec 32} {rs : List Record} (h : ∀ r ∈ rs, r.tag = tag)
    : bodies tag rs = rs.map Record.body := by
  unfold bodies
  congr 1
  rw [List.filter_eq_self]
  simpa using h

theorem begin_scalar {e : Elem} {rs : List Record}
    (hM : ∀ tag, M tag → tag = packTag index .lenPrefix ∨ tag = packTag index e.wireType)
    (hvalid : ∀ r ∈ rs, r.Valid) {log : ScalarLog} {st : RepScalarState}
    (hrun : ScalarLog.initial.run index e (rs.filter fun r => M r.tag) = .ok log)
    (hfits : log.Fits index e M rs st) (k : Nat)
    : result (nextScalar index e) k (ScalarIter.begin (Record.concat rs) st)
        =
      log.results index e k := by
  unfold ScalarIter.begin ScalarLog.results
  rw [hfits.count, hfits.packed]
  by_cases hzero : log.count = 0
  . simp only [hzero, ↓reduceIte]
    induction k with
    | zero => rfl
    | succ k ih => exact ih
  . simp only [hzero, ↓reduceIte]
    obtain ⟨pre, suf, rfl, hoffset, hrest⟩ := hfits.first (by omega)
    have hsuf : ∀ q ∈ suf, q.Valid := fun q hq => hvalid q (List.mem_append_right pre hq)
    cases hpacked : log.packed with
    -- The blocks are read one by one from the first record of the field on.
    | true =>
      simp only [↓reduceIte]
      rw [hrest, contents_filter (hfits.flag hpacked)]
      apply result_congr (R := ScalarIter.AtPacked index) (fun it c h => nextPacked_spec h)
      refine ⟨rfl, rfl, pre, suf, hsuf, rfl, rfl, ?_, ?_, ?_⟩
      . simpa using hoffset
      . simp
      . simp
    -- Only single elements have been taken, so all the records have the tag of the element.
    | false =>
      obtain ⟨hall, hlog⟩ := ScalarLog.run_initial_unpacked hrun hpacked
      have hmine := hfits.owned (by omega)
      simp only [hpacked, Bool.false_eq_true, ↓reduceIte] at hmine ⊢
      have hbodies : bodies (packTag index e.wireType) log.rest = log.rest.map Record.body := by
        apply bodies_of_forall
        intro r hr
        have hr' : r ∈ (pre ++ suf).filter fun r => M r.tag := by
          rwa [hlog] at hr
        rcases hM r.tag (List.mem_filter.mp hr').2 with htag | htag
        . exact absurd htag (hall r hr')
        . exact htag
      have hlength : log.count = (log.rest.map Record.body).length := by
        rw [hlog]
        simp
      apply result_eq (A := ScalarIter.AtUnpacked index e) (G := fun _ => True)
        (fun it h => ⟨it, nextUnpacked_done h, h⟩)
      . intro it x xs h _
        exact nextUnpacked_spec h
      . refine ⟨rfl, ?_, pre, suf, hsuf, rfl, hoffset, ?_⟩
        . rw [hbodies]
          exact hlength
        . rw [hrest, bodies_filter hmine]
      . simp

end Fold

/-! The view of a field is that of its records. -/

variable (S) in
/--
Every entry of a map field can be decoded, except perhaps for the last one.
-/
def Family.EntriesOk (rs : List Record) : Family → Prop
  | .map key value =>
    ∀ content ∈ (rs.map Record.content).dropLast, ∃ out, decodeEntry S key value content = .ok out
  | _ => True

variable (S) in
def Family.EntriesDecode (rs : List Record) : Family → Prop
  | .map key value => ∀ r ∈ rs, ∃ out, decodeEntry S key value r.content = .ok out
  | _ => True

theorem Family.EntriesDecode.entriesOk {f : Family} {rs : List Record} (h : f.EntriesDecode S rs)
    : f.EntriesOk S rs := by
  cases f with
  | map key value =>
    intro content hcontent
    have hmem := List.dropLast_subset _ hcontent
    rw [List.mem_map] at hmem
    obtain ⟨r, hr, rfl⟩ := hmem
    exact h r hr
  | scalar | bytes | msgRef | repScalar | repBytes | repMsg => trivial

theorem Family.EntriesDecode.append {f : Family} {rs rs' : List Record}
    (h : f.EntriesDecode S rs) (h' : f.EntriesDecode S rs')
    : f.EntriesDecode S (rs ++ rs') := by
  cases f with
  | map key value =>
    intro r hr
    rw [List.mem_append] at hr
    rcases hr with hr | hr
    . exact h r hr
    . exact h' r hr
  | scalar | bytes | msgRef | repScalar | repBytes | repMsg => trivial

section View

variable {M : BitVec 32 → Bool}

theorem begin_deliveries {index : Nat} {α : Type} {next : Iter → Step Iter α}
    {deliver : List UInt8 → Except Error α} {G : List UInt8 → Prop} {rs : List Record}
    (hM : ∀ tag, M tag → tag = packTag index .lenPrefix) (hvalid : ∀ r ∈ rs, r.Valid)
    (hnil : ∀ it, it.countRemaining = 0 → next it = (deliver [], it))
    (hcons : ∀ it content todo, Iter.At index it (content :: todo) → todo = [] ∨ G content →
      ∃ it', next it = (deliver content, it') ∧ it'.At index todo)
    (hgood : ∀ x ∈ ((rs.filter fun r => M r.tag).map Record.content).dropLast, G x) (k : Nat)
    : result next k (Iter.begin (Record.concat rs) (repFold M 0 ⟨0, 0⟩ rs))
        =
      deliveries deliver (rs.filter fun r => M r.tag) k := by
  apply result_eq (A := Iter.At index) (G := G) _ hcons (begin_at hvalid hM) hgood
  intro it hat
  exact ⟨it, hnil it hat.eq_zero, hat⟩

/--
A field's arms accept its records exactly where they have a view, which is then what a caller sees.
-/
theorem Field.view_fold {f : Field} (hM : ∀ tag, M tag → f.hasTag tag) {rs : List Record}
    (hvalid : ∀ r ∈ rs, r.Valid) (hentries : f.family.EntriesOk S (rs.filter fun r => M r.tag))
    : f.family.viewOf S f.index (rs.filter fun r => M r.tag)
        =
      (f.fold (fun r => M r.tag) 0 f.family.initial rs).map
        (f.family.view S f.index (Record.concat rs)) := by
  obtain ⟨index, family⟩ := f
  cases family with
  | scalar e default =>
    rw [fold_scalar]
    rfl
  | bytes default =>
    rw [fold_bytes]
    rfl
  | msgRef target =>
    rw [fold_msgRef]
    rfl
  | repBytes =>
    have hM : ∀ tag, M tag → tag = packTag index .lenPrefix := by simpa [Field.hasTag] using hM
    have hcount := (repFold_initial (M := M) 0 0 rs).1
    rw [fold_repBytes hM hvalid]
    simp only [Family.viewOf, Except.map, Family.view, Family.initial, hcount, Except.ok.injEq,
      Prod.mk.injEq, true_and]
    funext k
    symm
    apply begin_deliveries (G := fun _ => True) hM hvalid
    . intro it h
      simp [nextBytes, h]
    . intro it content todo hat _
      exact nextBytes_spec hat
    . simp
  | repMsg target =>
    have hM : ∀ tag, M tag → tag = packTag index .lenPrefix := by simpa [Field.hasTag] using hM
    have hcount := (repFold_initial (M := M) 0 0 rs).1
    rw [fold_repMsg hM hvalid]
    simp only [Family.viewOf, Except.map, Family.view, Family.initial, hcount, Except.ok.injEq,
      Prod.mk.injEq, true_and]
    funext k
    symm
    apply begin_deliveries (G := fun _ => True) hM hvalid
    . intro it h
      simp [nextMessage, h]
    . intro it content todo hat _
      exact nextMessage_spec hat
    . simp
  | map key value =>
    have hM : ∀ tag, M tag → tag = packTag index .lenPrefix := by simpa [Field.hasTag] using hM
    have hcount := (repFold_initial (M := M) 0 0 rs).1
    rw [fold_map hM hvalid]
    simp only [Family.viewOf, Except.map, Family.view, Family.initial, hcount, Except.ok.injEq,
      Prod.mk.injEq, true_and]
    funext k
    symm
    apply begin_deliveries (G := fun x => ∃ out, decodeEntry S key value x = .ok out) hM hvalid
    . intro it h
      simp [nextEntry, h]
    . intro it content todo hat hlast
      exact nextEntry_spec hat hlast
    . exact hentries
  -- The log of the records says which of them are rejected, and what the state is behind them.
  | repScalar e packing =>
    have hM : ∀ tag, M tag → tag = packTag index .lenPrefix ∨ tag = packTag index e.wireType := by
      simpa [Field.hasTag] using hM
    have hfits : ScalarLog.initial.Fits index e M ([] ++ rs) ⟨0, 0, false⟩ := by
      constructor <;> simp [ScalarLog.initial]
    have hfold := fold_repScalar packing hM hvalid hfits
    simp only [Family.viewOf, Family.initial]
    cases hrun : ScalarLog.initial.run index e (rs.filter fun r => M r.tag) with
    | error err =>
      rw [hrun] at hfold
      dsimp only [Record.concat_nil, List.length_nil] at hfold
      rw [hfold]
      rfl
    | ok log =>
      rw [hrun] at hfold
      obtain ⟨st, hst, hfits'⟩ := hfold
      dsimp only [Record.concat_nil, List.length_nil] at hst
      rw [hst]
      simp only [Except.map, Family.view, Except.ok.injEq, Prod.mk.injEq]
      refine ⟨hfits'.count.symm, ?_⟩
      funext k
      exact (begin_scalar hM hvalid hrun hfits' k).symm

theorem Field.fold_outcome {f : Field} (hM : ∀ tag, M tag → f.hasTag tag) {rs : List Record}
    (hvalid : ∀ r ∈ rs, r.Valid)
    : (f.fold (fun r => M r.tag) 0 f.family.initial rs).map (fun _ => ())
        =
      (f.family.viewOf S f.index (rs.filter fun r => M r.tag)).map fun _ => () := by
  obtain ⟨index, family⟩ := f
  have hview (hentries : family.EntriesOk S (rs.filter fun r => M r.tag))
      : ((Field.mk index family).fold (fun r => M r.tag) 0 family.initial rs).map (fun _ => ())
          =
        (family.viewOf S index (rs.filter fun r => M r.tag)).map fun _ => () := by
    have := Field.view_fold (f := ⟨index, family⟩) hM hvalid hentries
    dsimp only at this
    rw [this]
    cases Field.fold ⟨index, family⟩ (fun r => M r.tag) 0 family.initial rs <;> rfl
  cases family with
  | map key value =>
    have hM : ∀ tag, M tag → tag = packTag index .lenPrefix := by simpa [Field.hasTag] using hM
    rw [fold_map hM hvalid]
    rfl
  | scalar e default => exact hview trivial
  | bytes default => exact hview trivial
  | msgRef target => exact hview trivial
  | repScalar e packing => exact hview trivial
  | repBytes => exact hview trivial
  | repMsg target => exact hview trivial

end View

variable {t : MsgId}

theorem Reader.viewOf_eq {rs : List Record} (hvalid : ∀ r ∈ rs, r.Valid) {r : Reader S t}
    (h : readerInit S t (Record.concat rs) = .ok r) (i : Fin (S t).length)
    (hentries : (S.field t i).family.EntriesOk S (rs.filter (owns S t i)))
    : (S.field t i).family.viewOf S (S.field t i).index (rs.filter (owns S t i))
        =
      .ok (r.view i) := by
  rw [readerInit_eq_ok_iff hvalid] at h
  obtain ⟨hsrc, -, hfields⟩ := h
  have hfold := Field.view_fold (M := taken S t i) (fun _ => hasTag_of_taken) hvalid hentries
  refine hfold.trans ?_
  rw [show (fun r : Record => taken S t i r.tag) = owns S t i from rfl, hfields i, Reader.view, hsrc]
  rfl

theorem Reader.fold_outcome {rs : List Record} (hvalid : ∀ r ∈ rs, r.Valid)
    (i : Fin (S t).length)
    : ((S.field t i).fold (owns S t i) 0 (S.field t i).family.initial rs).map (fun _ => ())
        =
      ((S.field t i).family.viewOf S (S.field t i).index (rs.filter (owns S t i))).map
        fun _ => () := by
  exact Field.fold_outcome (M := taken S t i) (fun _ => hasTag_of_taken) hvalid

/--
`reader_init` accepts the records exactly where those of each field have a view.
-/
theorem readerInit_isOk_iff {rs : List Record} (hvalid : ∀ r ∈ rs, r.Valid)
    : (∃ r, readerInit S t (Record.concat rs) = .ok r)
        ↔
      NumbersOk S t rs
        ∧ ∀ i, ∃ v, (S.field t i).family.viewOf S (S.field t i).index (rs.filter (owns S t i))
            = .ok v := by
  constructor
  . rintro ⟨r, hr⟩
    rw [readerInit_eq_ok_iff hvalid] at hr
    refine ⟨hr.2.1, ?_⟩
    intro i
    have houtcome := Reader.fold_outcome hvalid i
    rw [hr.2.2 i] at houtcome
    cases hview : (S.field t i).family.viewOf S (S.field t i).index (rs.filter (owns S t i)) with
    | ok v => exact ⟨v, rfl⟩
    | error err => simp [hview, Except.map] at houtcome
  . rintro ⟨hnumbers, hviews⟩
    have hfields : ∀ i, ∃ st,
        (S.field t i).fold (owns S t i) 0 (S.field t i).family.initial rs = .ok st := by
      intro i
      obtain ⟨v, hv⟩ := hviews i
      have houtcome := Reader.fold_outcome hvalid i
      rw [hv] at houtcome
      cases hfold : (S.field t i).fold (owns S t i) 0 (S.field t i).family.initial rs with
      | ok st => exact ⟨st, rfl⟩
      | error err => simp [hfold, Except.map] at houtcome
    refine ⟨⟨Record.concat rs, fun i => (hfields i).choose⟩, ?_⟩
    rw [readerInit_eq_ok_iff hvalid]
    exact ⟨rfl, hnumbers, fun i => (hfields i).choose_spec⟩

/--
Where `reader_init` rejects the records, those of a field have no view for the same reason, or a
record that is left to the skipper has field number 0.
-/
theorem readerInit_eq_error {rs : List Record} (hvalid : ∀ r ∈ rs, r.Valid) {err : Error}
    (h : readerInit S t (Record.concat rs) = .error err)
    : err = .invalidFieldNum
        ∨ ∃ i, (S.field t i).family.viewOf S (S.field t i).index (rs.filter (owns S t i))
            = .error err := by
  rw [readerInit_concat hvalid] at h
  split at h
  . next e hinit =>
    simp only [Except.error.injEq] at h
    subst h
    rcases initRecords_eq_error hinit with hnum | ⟨i, hi⟩
    . exact .inl hnum
    . refine .inr ⟨i, ?_⟩
      have houtcome := Reader.fold_outcome hvalid i
      rw [hi] at houtcome
      cases hview : (S.field t i).family.viewOf S (S.field t i).index (rs.filter (owns S t i)) with
      | ok v => simp [hview, Except.map] at houtcome
      | error e => simpa [hview, Except.map] using houtcome.symm
  . simp at h

end Gremlin
