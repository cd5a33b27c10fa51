import Gremlin.Reader.WellFormed

/-!
This module contains what the reader makes of records whose field numbers are not declared: they
change nothing of what a caller sees of the declared fields.
-/

namespace Gremlin

open Codec

/--
`zs` consists of the elements of `xs` and those of `ys`, each in their order.
-/
inductive Interleaved {α : Type} : (xs ys zs : List α) → Prop where
  | nil : Interleaved [] [] []
  | left {x : α} {xs ys zs : List α} (h : Interleaved xs ys zs) : Interleaved (x :: xs) ys (x :: zs)
  | right {y : α} {xs ys zs : List α} (h : Interleaved xs ys zs)
      : Interleaved xs (y :: ys) (y :: zs)

namespace Interleaved

variable {α : Type} {xs ys zs : List α}

theorem mem_iff (h : Interleaved xs ys zs) {a : α} : a ∈ zs ↔ a ∈ xs ∨ a ∈ ys := by
  induction h with
  | nil => simp
  | left _ ih =>
    rw [List.mem_cons, List.mem_cons, ih]
    tauto
  | right _ ih =>
    rw [List.mem_cons, List.mem_cons, ih]
    tauto

theorem filter_eq (h : Interleaved xs ys zs) {p : α → Bool} (hp : ∀ y ∈ ys, p y = false)
    : zs.filter p = xs.filter p := by
  induction h with
  | nil => rfl
  | @left x xs ys zs _ ih => rw [List.filter_cons, List.filter_cons, ih hp]
  | @right y xs ys zs _ ih =>
    rw [List.forall_mem_cons] at hp
    rw [List.filter_cons, hp.1, ih hp.2]
    rfl

end Interleaved

variable (S : Schema) (t : MsgId)

/--
A record of the grammar with a tag of at most five bytes and a field number that is not declared.
-/
structure Record.IsUnknown (r : Record) : Prop where
  wellFormed : ∃ levels, r.WellFormed levels
  short : r.head.length ≤ 5
  undeclared : ∀ i, (S.field t i).index ≠ r.tag.toNat / 8

/--
No field has the number of a record with a wire type of its own.
-/
def Record.Unowned (r : Record) : Prop :=
  ∀ i, r.tag ∉ (S.field t i).tags

variable {S} {t}

/--
What a caller sees of a field is the same. The iterator of a map is compared up to the first call
that fails.
-/
def Family.SameUntilError : (f : Family) → f.View S → f.View S → Prop
  | .map _ _, v, v' => v'.1 = v.1 ∧ ∀ k, (∀ j < k, ∃ out, v.2 j = .ok out) → v'.2 k = v.2 k
  | .scalar _ _, v, v' => v' = v
  | .bytes _, v, v' => v' = v
  | .msgRef _, v, v' => v' = v
  | .repScalar _ _, v, v' => v' = v
  | .repBytes, v, v' => v' = v
  | .repMsg _, v, v' => v' = v

theorem Record.IsUnknown.unowned {r : Record} (h : r.IsUnknown S t)
    (hnums : ∀ i, (S.field t i).index < 2 ^ 29)
    : r.Unowned S t := by
  intro i hmem
  obtain ⟨wt, heq, -, -⟩ := hasTag_wireType (show (S.field t i).hasTag r.tag = true by
    rwa [Field.hasTag_eq, List.contains_iff_mem])
  have := h.undeclared i
  rw [heq, packTag_div, Nat.mod_eq_of_lt (hnums i)] at this
  exact this rfl

/-! The iterator of a map up to an entry that cannot be decoded. -/

theorem nextEntry_fst {index : Nat} {key : Slot} {value : MapValue} {it : Iter}
    {content : List UInt8} {todo : List (List UInt8)} (h : it.At index (content :: todo))
    : (nextEntry S index key value it).1 = decodeEntry S key value content := by
  obtain ⟨it', it'', helement, hadvance, -⟩ := h.advance
  unfold nextEntry
  simp only [h.ne_zero, ↓reduceIte, helement]
  cases decodeEntry S key value content with
  | error e => rfl
  | ok out => simp [hadvance]

theorem result_nextEntry {index : Nat} {key : Slot} {value : MapValue} {it : Iter}
    {todo : List (List UInt8)} (hat : it.At index todo) {k : Nat}
    (hok : ∀ j < k, ∃ out, ((todo[j]?.map (decodeEntry S key value)).getD
      (decodeEntry S key value [])) = .ok out)
    : result (nextEntry S index key value) k it
        =
      (todo[k]?.map (decodeEntry S key value)).getD (decodeEntry S key value []) := by
  induction k generalizing it todo with
  | zero =>
    cases todo with
    | nil => simp [result, nextEntry, hat.eq_zero]
    | cons content todo => simp [result, nextEntry_fst hat]
  | succ k ih =>
    cases todo with
    | nil =>
      have hnext : nextEntry S index key value it = (decodeEntry S key value [], it) := by
        simp [nextEntry, hat.eq_zero]
      simp only [result, hnext]
      simpa using ih hat (fun j hj => by simpa using hok j (by omega))
    | cons content todo =>
      have hfirst : ∃ out, decodeEntry S key value content = .ok out := by
        simpa using hok 0 (by omega)
      obtain ⟨it', hnext, hat'⟩ := nextEntry_spec hat (.inr hfirst)
      simp only [result, hnext, List.getElem?_cons_succ]
      apply ih hat'
      intro j hj
      simpa using hok (j + 1) (by omega)

/--
Where the calls before call `k` succeed, so do the deliveries they stand for.
-/
theorem deliveries_of_results {index : Nat} {key : Slot} {value : MapValue} {it : Iter}
    {todo : List (List UInt8)} (hat : it.At index todo) {k : Nat}
    (hok : ∀ j < k, ∃ out, result (nextEntry S index key value) j it = .ok out)
    : ∀ j < k, ∃ out, ((todo[j]?.map (decodeEntry S key value)).getD
        (decodeEntry S key value [])) = .ok out := by
  induction k with
  | zero =>
    intro j hj
    omega
  | succ k ih =>
    have ih := ih (fun j hj => hok j (by omega))
    intro j hj
    by_cases hlast : j = k
    . subst hlast
      obtain ⟨out, hout⟩ := hok j (by omega)
      rw [result_nextEntry hat ih] at hout
      exact ⟨out, hout⟩
    . exact ih j (by omega)

section Fold

variable {M : BitVec 32 → Bool}

theorem Field.sameUntilError {f : Field} (hM : ∀ tag, M tag → f.hasTag tag) {rs rs' : List Record}
    (hvalid : ∀ r ∈ rs, r.Valid) (hvalid' : ∀ r ∈ rs', r.Valid)
    (hfilter : (rs'.filter fun r => M r.tag) = rs.filter fun r => M r.tag)
    {st st' : f.family.State} (h : f.fold (fun r => M r.tag) 0 f.family.initial rs = .ok st)
    (h' : f.fold (fun r => M r.tag) 0 f.family.initial rs' = .ok st')
    : Family.SameUntilError f.family (f.family.view S f.index (Record.concat rs) st)
        (f.family.view S f.index (Record.concat rs') st') := by
  have hsame (hentries : f.family.EntriesOk S (rs.filter fun r => M r.tag))
      : f.family.view S f.index (Record.concat rs') st'
          =
        f.family.view S f.index (Record.concat rs) st := by
    have hview := Field.view_fold hM hvalid hentries
    rw [← hfilter] at hentries
    have hview' := Field.view_fold hM hvalid' hentries
    rw [h] at hview
    rw [h', hfilter, hview] at hview'
    simpa [Except.map] using hview'.symm
  obtain ⟨index, family⟩ := f
  cases family with
  | map key value =>
    have hM : ∀ tag, M tag → tag = packTag index .lenPrefix := by simpa [Field.hasTag] using hM
    rw [fold_map hM hvalid, Except.ok.injEq] at h
    rw [fold_map hM hvalid', Except.ok.injEq] at h'
    subst h
    subst h'
    have hat := begin_at hvalid hM
    have hat' := begin_at hvalid' hM
    rw [hfilter] at hat'
    refine ⟨?_, ?_⟩
    . simp only [Family.view, Family.initial]
      rw [(repFold_initial (M := M) 0 0 rs).1, (repFold_initial (M := M) 0 0 rs').1, hfilter]
    . intro k hok
      have hdeliveries := deliveries_of_results hat hok
      simp only [Family.view, Family.initial]
      rw [result_nextEntry hat hdeliveries, result_nextEntry hat' hdeliveries]
  | scalar e default => exact hsame trivial
  | bytes default => exact hsame trivial
  | msgRef target => exact hsame trivial
  | repScalar e packing => exact hsame trivial
  | repBytes => exact hsame trivial
  | repMsg target => exact hsame trivial

end Fold

theorem Record.IsUnknown.valid {r : Record} (h : r.IsUnknown S t) (hlen : r.bytes.length ≤ 2 ^ 31)
    : r.Valid := by
  obtain ⟨levels, hwf⟩ := h.wellFormed
  exact hwf.exists_le_length.valid (by omega) h.short

theorem filter_owns_of_unowned {rs added rs' : List Record} (hins : Interleaved rs added rs')
    (hunowned : ∀ q ∈ added, q.Unowned S t) (i : Fin (S t).length)
    : rs'.filter (owns S t i) = rs.filter (owns S t i) := by
  apply hins.filter_eq
  intro q hq
  rw [owns, taken_eq, owner_eq_none_iff.mpr (hunowned q hq)]
  rfl

/--
Records with undeclared numbers, put between the records of an input that is accepted, leave it
accepted and leave what a caller sees of every field, as long as none of them has a declared field's
tag. A map iterator is only good up to an entry that it cannot decode.
-/
theorem inserted_transparent {rs added rs' : List Record} (hvalid : ∀ q ∈ rs, q.Valid)
    {r : Reader S t} (h : readerInit S t (Record.concat rs) = .ok r)
    (hins : Interleaved rs added rs') (hunknown : ∀ q ∈ added, q.IsUnknown S t)
    (hlen : (Record.concat rs').length ≤ 2 ^ 31) (hunowned : ∀ q ∈ added, q.Unowned S t)
    : ∃ r', readerInit S t (Record.concat rs') = .ok r'
        ∧ ∀ i, Family.SameUntilError (S.field t i).family (r.view i) (r'.view i)
            ∧ ((S.field t i).family.EntriesOk S (rs.filter (owns S t i))
              → r'.view i = r.view i) := by
  have hvalid' : ∀ q ∈ rs', q.Valid := by
    intro q hq
    rcases hins.mem_iff.mp hq with hmem | hmem
    . exact hvalid q hmem
    . have := Record.length_bytes_le hq
      exact (hunknown q hmem).valid (by omega)
  have hfilter := filter_owns_of_unowned hins hunowned
  have haccepted : ∃ r', readerInit S t (Record.concat rs') = .ok r' := by
    have hok := (readerInit_isOk_iff hvalid).mp ⟨r, h⟩
    rw [readerInit_isOk_iff hvalid']
    refine ⟨?_, ?_⟩
    . intro q hq hnone
      rcases hins.mem_iff.mp hq with hmem | hmem
      . exact hok.1 q hmem hnone
      . obtain ⟨levels, hwf⟩ := (hunknown q hmem).wellFormed
        exact hwf.num_pos
    . intro i
      rw [hfilter i]
      exact hok.2 i
  obtain ⟨r', h'⟩ := haccepted
  refine ⟨r', h', ?_⟩
  intro i
  refine ⟨?_, ?_⟩
  . have hfields := (readerInit_eq_ok_iff hvalid).mp h
    have hfields' := (readerInit_eq_ok_iff hvalid').mp h'
    rw [Reader.view, Reader.view, hfields.1, hfields'.1]
    exact Field.sameUntilError (M := taken S t i) (fun _ => hasTag_of_taken) hvalid hvalid' (hfilter i)
      (hfields.2.2 i) (hfields'.2.2 i)
  . intro hentries
    have hview := Reader.viewOf_eq hvalid h i hentries
    rw [← hfilter i] at hentries
    have hview' := Reader.viewOf_eq hvalid' h' i hentries
    rw [hfilter i, hview, Except.ok.injEq] at hview'
    exact hview'.symm

def mapSchema : Schema :=
  fun _ => [⟨5, .map (.elem (.scalar .int32)) (.slot (.elem (.scalar .int32)))⟩]

def goodEntry : Record :=
  ⟨packTag 5 .lenPrefix, [0x2A], [4, 8, 1, 16, 2]⟩

def badEntry : Record :=
  ⟨packTag 5 .lenPrefix, [0x2A], [1, 8]⟩

/--
A record of field 1 whose bytes look like an entry to a cursor that stands on its tag.
-/
def forgedEntry : Record :=
  ⟨packTag 1 .lenPrefix, [0x0A], [8, 7, 16, 9, 24, 0, 24, 0, 24]⟩

theorem forgedEntry_isUnknown : forgedEntry.IsUnknown mapSchema 0 := by
  refine ⟨⟨0, .flat ⟨by decide, by decide, rfl, by decide, by decide⟩ rfl ?_⟩, by decide, ?_⟩
  . exact IsData.lenPrefix (by decide : IsVarint [8]) (by decide)
      (rfl : _ = List.length [7, 16, 9, 24, 0, 24, 0, 24]) (by decide)
  . decide

theorem goodEntry_valid : goodEntry.Valid :=
  ⟨by decide +kernel, .lenPrefix, by decide +kernel, by decide +kernel⟩

theorem exists_reader (src : List UInt8) (h : (readerInit mapSchema 0 src).isOk = true)
    : ∃ r, readerInit mapSchema 0 src = .ok r := by
  cases hinit : readerInit mapSchema 0 src with
  | ok r => exact ⟨r, rfl⟩
  | error err => simp [hinit, Except.isOk, Except.toBool] at h

theorem goodEntry_transparent
    : ∃ r r', readerInit mapSchema 0 (Record.concat [goodEntry]) = .ok r
        ∧ readerInit mapSchema 0 (Record.concat [forgedEntry, goodEntry]) = .ok r'
        ∧ r'.view ⟨0, by decide⟩ = r.view ⟨0, by decide⟩ := by
  obtain ⟨r, hr⟩ := exists_reader (Record.concat [goodEntry]) (by decide +kernel)
  have hvalid : ∀ q ∈ [goodEntry], q.Valid := by
    simpa using goodEntry_valid
  have hunknown : ∀ q ∈ [forgedEntry], q.IsUnknown mapSchema 0 := by
    simpa using forgedEntry_isUnknown
  have hunowned : ∀ q ∈ [forgedEntry], q.Unowned mapSchema 0 := by
    simpa using forgedEntry_isUnknown.unowned (by decide)
  obtain ⟨r', hr', hviews⟩ :=
    inserted_transparent hvalid hr (.right (.left .nil)) hunknown (by decide) hunowned
  refine ⟨r, r', hr, hr', (hviews ⟨0, by decide⟩).2 ?_⟩
  have hfilter : [goodEntry].filter (owns mapSchema 0 ⟨0, by decide⟩) = [goodEntry] := by
    decide +kernel
  rw [hfilter]
  intro content hcontent
  simp at hcontent

/--
After an entry that cannot be decoded the cursor stands on the next tag, and the next call takes an
unknown record for an entry.
-/
theorem forgedEntry_delivered
    : ∃ r r', readerInit mapSchema 0 (Record.concat [badEntry, goodEntry]) = .ok r
        ∧ Interleaved [badEntry, goodEntry] [forgedEntry] [badEntry, forgedEntry, goodEntry]
        ∧ forgedEntry.IsUnknown mapSchema 0
        ∧ readerInit mapSchema 0 (Record.concat [badEntry, forgedEntry, goodEntry]) = .ok r'
        ∧ r'.view ⟨0, by decide⟩ ≠ r.view ⟨0, by decide⟩ := by
  obtain ⟨r, hr⟩ := exists_reader (Record.concat [badEntry, goodEntry]) (by decide +kernel)
  obtain ⟨r', hr'⟩ := exists_reader (Record.concat [badEntry, forgedEntry, goodEntry])
    (by decide +kernel)
  refine ⟨r, r', hr, .left (.right (.left .nil)), forgedEntry_isUnknown, hr', ?_⟩
  intro heq
  have hcheck : (readerInit mapSchema 0 (Record.concat [badEntry, goodEntry])).toOption.map
      (fun r => ((r.view ⟨0, by decide⟩).2 1).isOk) = some false := by
    decide +kernel
  have hcheck' : (readerInit mapSchema 0
      (Record.concat [badEntry, forgedEntry, goodEntry])).toOption.map
        (fun r => ((r.view ⟨0, by decide⟩).2 1).isOk) = some true := by
    decide +kernel
  rw [hr] at hcheck
  rw [hr'] at hcheck'
  have hfalse : ((r.view ⟨0, by decide⟩).2 1).isOk = false := Option.some.inj hcheck
  have htrue : ((r'.view ⟨0, by decide⟩).2 1).isOk = true := Option.some.inj hcheck'
  rw [heq, hfalse] at htrue
  exact absurd htrue (by decide)

end Gremlin
