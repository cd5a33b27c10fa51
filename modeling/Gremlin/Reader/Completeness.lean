import Gremlin.Reader.Mixed

/-!
This module contains the relation between the elements that a repeated scalar or enum field has on
the wire and those its iterator delivers.
-/

namespace Gremlin

open Codec

namespace Elem

variable (e : Elem)

/--
The blocks split into whole elements, which together are `vs`.
-/
def Blocks : List (List UInt8) → List e.Value → Prop
  | [], vs => vs = []
  | block :: blocks, vs =>
    ∃ as vs', e.decode.Parses block as ∧ Blocks blocks vs' ∧ vs = as ++ vs'

/--
The elements of the records of a field: those of a packed record are the ones of its block, and an
unpacked record is one element.
-/
def Elements (index : Nat) : List Record → List e.Value → Prop
  | [], vs => vs = []
  | r :: rs, vs =>
    ∃ as vs',
      (if r.tag = packTag index .lenPrefix then e.decode.Parses r.content as
        else ∃ v, e.decodeBody r.body = .ok v ∧ as = [v])
      ∧ Elements index rs vs' ∧ vs = as ++ vs'

variable {e}

theorem countP_of_isVarint {bs : List UInt8} (h : IsVarint bs)
    : bs.countP (fun b => b &&& 0x80 = 0) = 1 := by
  induction bs with
  | nil => exact absurd h isVarint_nil
  | cons b bs ih =>
    by_cases hb : b < 128
    . rw [isVarint_cons_last hb] at h
      subst h
      simp [and_0x80_eq_zero_iff, hb]
    . rw [isVarint_cons_cont hb] at h
      simpa [List.countP_cons, and_0x80_eq_zero_iff, hb] using ih h

/--
The rule that counts the elements of a block is right where the block splits into whole elements.
-/
theorem blockCount_of_parses {block : List UInt8} {as : List e.Value}
    (h : e.decode.Parses block as)
    : e.blockCount block = as.length := by
  induction h with
  | nil => rcases e.wireType_cases with hwt | hwt | hwt <;> simp [blockCount, hwt]
  | @cons bs a n as hne hd _ ih =>
    have hskip := skipFlat_of_decode hd
    rw [List.length_cons, ← ih]
    rcases e.wireType_cases with hwt | hwt | hwt
    . rw [hwt, skipFlat_varint_iff] at hskip
      obtain ⟨v, hv⟩ := hskip
      rw [varintDecode_eq_ok_iff] at hv
      obtain ⟨head, tail, rfl, hvarint, -, rfl, -⟩ := hv
      simp only [blockCount, hwt, List.countP_append, countP_of_isVarint hvarint, List.drop_left]
      omega
    . rw [hwt, skipFlat_fixed32_iff] at hskip
      simp only [blockCount, hwt, List.length_drop]
      omega
    . rw [hwt, skipFlat_fixed64_iff] at hskip
      simp only [blockCount, hwt, List.length_drop]
      omega

end Elem

/-! The cursor of a packed field. -/

section Cursor

variable {e : Elem}

theorem Elem.blocks_dropWhile {blocks : List (List UInt8)} {vs : List e.Value}
    (h : e.Blocks blocks vs)
    : e.Blocks (blocks.dropWhile (· = [])) vs := by
  induction blocks generalizing vs with
  | nil => exact h
  | cons block blocks ih =>
    by_cases hblock : block = []
    . obtain ⟨as, vs', has, hvs', rfl⟩ := h
      subst hblock
      rw [has.unique .nil, List.nil_append]
      simpa using ih hvs'
    . simpa [hblock] using h

theorem PackedCursor.refill_blocks {c : PackedCursor} {vs : List e.Value}
    (h : e.Blocks (c.block :: c.todo) vs)
    : e.Blocks (c.refill.block :: c.refill.todo) vs ∧ (c.refill.block = [] → vs = []) := by
  unfold refill
  split
  . next hblock =>
    obtain ⟨as, vs', has, hvs', rfl⟩ := h
    rw [hblock] at has
    rw [has.unique .nil, List.nil_append]
    have hdrop := Elem.blocks_dropWhile hvs'
    split
    . next hnil =>
      rw [hnil] at hdrop
      simp only [Elem.Blocks] at hdrop
      subst hdrop
      refine ⟨⟨[], [], ?_, rfl, rfl⟩, fun _ => rfl⟩
      rw [hblock]
      exact .nil
    . next block todo hcons =>
      rw [hcons] at hdrop
      refine ⟨hdrop, ?_⟩
      intro hempty
      have := List.head?_dropWhile_not (· = []) c.todo
      rw [hcons] at this
      simp only [List.head?_cons, decide_eq_false_iff_not] at this
      exact absurd hempty this
  . next hblock => exact ⟨h, fun hnil => absurd hnil hblock⟩

theorem PackedCursor.next_cons {c : PackedCursor} {v : e.Value} {vs : List e.Value}
    (h : e.Blocks (c.block :: c.todo) (v :: vs)) (hpos : c.remaining ≠ 0)
    : ∃ c', c.next e = (.ok v, c') ∧ e.Blocks (c'.block :: c'.todo) vs
        ∧ c'.remaining = c.remaining - 1 := by
  obtain ⟨hblocks, hne⟩ := refill_blocks h
  have hblock : c.refill.block ≠ [] := by
    intro hnil
    simpa using hne hnil
  obtain ⟨as, vs', has, hvs', heq⟩ := hblocks
  generalize hrefill : c.refill.block = block at has
  cases has with
  | nil => exact absurd hrefill hblock
  | @cons _ a n as _ hd htail =>
    simp only [List.cons_append, List.cons.injEq] at heq
    obtain ⟨rfl, rfl⟩ := heq
    refine ⟨⟨block.drop n, c.refill.todo, c.remaining - 1⟩, ?_, ⟨as, vs', htail, hvs', rfl⟩, rfl⟩
    unfold PackedCursor.next
    rw [hrefill] at hblock
    simp only [hpos, ↓reduceIte, hrefill, hblock, hd, PackedCursor.refill_remaining]

theorem PackedCursor.next_nil {c : PackedCursor} (h : e.Blocks (c.block :: c.todo) [])
    (hpos : c.remaining ≠ 0)
    : c.next e = (.error .truncated, c.refill) ∧ e.Blocks (c.refill.block :: c.refill.todo) [] := by
  obtain ⟨hblocks, -⟩ := refill_blocks h
  refine ⟨?_, hblocks⟩
  obtain ⟨as, vs', has, hvs', heq⟩ := hblocks
  obtain ⟨rfl, rfl⟩ := List.append_eq_nil_iff.mp heq.symm
  have hblock : c.refill.block = [] := by
    generalize hrefill : c.refill.block = block at has
    cases has
    rfl
  unfold PackedCursor.next
  simp only [hpos, ↓reduceIte, hblock]

/--
A cursor over blocks of whole elements delivers the elements, and fails where it was told that there
are more of them.
-/
theorem PackedCursor.result_eq {c : PackedCursor} {vs : List e.Value} (extra : Nat)
    (h : e.Blocks (c.block :: c.todo) vs) (hremaining : c.remaining = vs.length + extra) (k : Nat)
    : result (PackedCursor.next e) k c
        =
      (vs[k]?.map .ok).getD (if extra = 0 then .ok 0 else .error .truncated) := by
  apply Gremlin.result_eq (G := fun _ => True)
    (A := fun c vs => e.Blocks (c.block :: c.todo) vs ∧ c.remaining = vs.length + extra)
  . rintro c ⟨hblocks, hcount⟩
    by_cases hextra : extra = 0
    . refine ⟨c, ?_, hblocks, hcount⟩
      unfold PackedCursor.next
      simp [hcount, hextra]
    . obtain ⟨hnext, hblocks'⟩ := PackedCursor.next_nil hblocks (by simpa [hcount] using hextra)
      refine ⟨c.refill, ?_, hblocks', ?_⟩
      . rw [hnext, if_neg hextra]
      . rw [PackedCursor.refill_remaining, hcount]
  . rintro c v vs ⟨hblocks, hcount⟩ -
    obtain ⟨c', hnext, hblocks', hcount'⟩ :=
      PackedCursor.next_cons hblocks (by simp only [hcount, List.length_cons]; omega)
    refine ⟨c', hnext, hblocks', ?_⟩
    rw [hcount', hcount, List.length_cons]
    omega
  . exact ⟨h, hremaining⟩
  . simp

end Cursor

/-! The log of a field. -/

section Log

variable {index : Nat} {e : Elem}

theorem Elem.elements_of_packed {rs : List Record}
    (hall : ∀ r ∈ rs, r.tag = packTag index .lenPrefix) {vs : List e.Value}
    : e.Elements index rs vs ↔ e.Blocks (rs.map Record.content) vs := by
  induction rs generalizing vs with
  | nil => rfl
  | cons r rs ih =>
    rw [List.forall_mem_cons] at hall
    simp only [Elem.Elements, hall.1, ↓reduceIte, List.map_cons, Elem.Blocks, ih hall.2]

theorem Elem.exists_elements_of_unpacked {rs : List Record}
    (hall : ∀ r ∈ rs, r.tag ≠ packTag index .lenPrefix)
    (hbody : ∀ r ∈ rs, ∃ v, e.decodeBody r.body = .ok v)
    : ∃ vs, e.Elements index rs vs
        ∧ rs.map (fun r => e.decodeBody r.body) = vs.map Except.ok := by
  induction rs with
  | nil => exact ⟨[], rfl, rfl⟩
  | cons r rs ih =>
    rw [List.forall_mem_cons] at hall hbody
    obtain ⟨vs, hvs, hmap⟩ := ih hall.2 hbody.2
    obtain ⟨v, hv⟩ := hbody.1
    refine ⟨v :: vs, ⟨[v], vs, ?_, hvs, rfl⟩, by simp [hv, hmap]⟩
    rw [if_neg hall.1]
    exact ⟨v, hv, rfl⟩

theorem Elem.exists_blocks {blocks : List (List UInt8)}
    (h : ∀ block ∈ blocks, ∃ as, e.decode.Parses block as)
    : ∃ vs, e.Blocks blocks vs := by
  induction blocks with
  | nil => exact ⟨[], rfl⟩
  | cons block blocks ih =>
    rw [List.forall_mem_cons] at h
    obtain ⟨as, has⟩ := h.1
    obtain ⟨vs, hvs⟩ := ih h.2
    exact ⟨as ++ vs, as, vs, has, hvs, rfl⟩

theorem Elem.parses_of_elements {rs : List Record} {vs : List e.Value}
    (h : e.Elements index rs vs)
    : ∀ r ∈ rs, r.tag = packTag index .lenPrefix → ∃ as, e.decode.Parses r.content as := by
  induction rs generalizing vs with
  | nil => simp
  | cons r rs ih =>
    obtain ⟨as, vs', has, hvs', -⟩ := h
    rw [List.forall_mem_cons]
    refine ⟨?_, ih hvs'⟩
    intro htag
    rw [if_pos htag] at has
    exact ⟨as, has⟩

theorem Elem.blocks_length {blocks : List (List UInt8)} {vs : List e.Value}
    (h : e.Blocks blocks vs)
    : (blocks.map e.blockCount).sum = vs.length := by
  induction blocks generalizing vs with
  | nil =>
    simp only [Elem.Blocks] at h
    simp [h]
  | cons block blocks ih =>
    obtain ⟨as, vs', has, hvs', rfl⟩ := h
    rw [List.map_cons, List.sum_cons, ih hvs', Elem.blockCount_of_parses has, List.length_append]

theorem Elem.blocks_of_empty {pre blocks : List (List UInt8)} {vs : List e.Value}
    (hpre : ∀ block ∈ pre, e.blockCount block = 0) (h : e.Blocks (pre ++ blocks) vs)
    : e.Blocks blocks vs := by
  induction pre generalizing vs with
  | nil => exact h
  | cons block pre ih =>
    rw [List.forall_mem_cons] at hpre
    obtain ⟨as, vs', has, hvs', rfl⟩ := h
    have hlen := Elem.blockCount_of_parses has
    rw [hpre.1] at hlen
    rw [List.eq_nil_of_length_eq_zero hlen.symm, List.nil_append]
    exact ih hpre.2 hvs'

/--
A field with packed records only is counted by its blocks, and its offset is passed over blocks
that are counted as empty.
-/
theorem ScalarLog.run_packed_of_empty (log : ScalarLog) (hzero : log.count = 0) {rs : List Record}
    (hne : rs ≠ []) (hall : ∀ r ∈ rs, r.tag = packTag index .lenPrefix)
    : ∃ pre rest, rs = pre ++ rest ∧ (∀ q ∈ pre, e.blockCount q.content = 0)
        ∧ log.run index e rs
            =
          .ok ⟨(rs.map fun r => e.blockCount r.content).sum, true, rest⟩ := by
  induction rs generalizing log with
  | nil => exact absurd rfl hne
  | cons r rs ih =>
    rw [List.forall_mem_cons] at hall
    unfold ScalarLog.run
    rw [if_pos hall.1, if_neg (by simp [hzero])]
    simp only [hzero, ↓reduceIte, Nat.zero_add]
    by_cases hblock : e.blockCount r.content = 0
    . by_cases hnil : rs = []
      . subst hnil
        refine ⟨[], [r], rfl, by simp, ?_⟩
        simp [ScalarLog.run, hblock]
      . obtain ⟨pre, rest, rfl, hpre, hrun⟩ :=
          ih ⟨e.blockCount r.content, true, r :: rs⟩ hblock hnil hall.2
        refine ⟨r :: pre, rest, rfl, by simpa [hblock] using hpre, ?_⟩
        rw [hrun]
        simp [hblock]
    . refine ⟨[], r :: rs, rfl, by simp, ?_⟩
      rw [ScalarLog.run_of_packed (by dsimp only; omega) rfl, if_pos hall.2, List.map_cons,
        List.sum_cons]

theorem ScalarLog.run_late {log : ScalarLog} (hzero : log.count = 0) {pre post : List Record}
    {r : Record} (hpacked : log.packed = true ∨ pre ≠ [])
    (hpre : ∀ q ∈ pre, q.tag = packTag index .lenPrefix ∧ e.blockCount q.content = 0)
    (hr : r.tag ≠ packTag index .lenPrefix) (hpost : ∀ q ∈ post, q.tag = packTag index .lenPrefix)
    : log.run index e (pre ++ r :: post)
        =
      .ok ⟨1 + (post.map fun q => e.blockCount q.content).sum, true, r :: post⟩ := by
  induction pre generalizing log with
  | nil =>
    have hpacked : log.packed = true := by simpa using hpacked
    rw [List.nil_append]
    unfold ScalarLog.run
    rw [if_neg hr, if_neg (by simp [hzero]), ScalarLog.run_of_packed (Nat.succ_pos _)
      (by exact hpacked), if_pos hpost]
    simp [hzero]
  | cons q pre ih =>
    rw [List.forall_mem_cons] at hpre
    rw [List.cons_append]
    unfold ScalarLog.run
    rw [if_pos hpre.1.1, if_neg (by simp [hzero])]
    simp only [hzero, ↓reduceIte, hpre.1.2]
    exact ih (by exact rfl) (.inl (by exact rfl)) hpre.2

end Log

/-! Completeness. -/

variable {S : Schema}

variable (S) in
/--
The elements of the field's records, in order, are as many as the count says, and they are what the
first calls of `next` deliver.
-/
def Family.IterComplete (index : Nat) (rs : List Record) : (f : Family) → f.View S → Prop
  | .repScalar e _, view =>
    ∃ vs, e.Elements index rs vs ∧ view.1 = vs.length
      ∧ ∀ k v, vs[k]? = some v → view.2 k = .ok v
  | .scalar _ _, _ | .bytes _, _ | .msgRef _, _ | .repBytes, _ | .repMsg _, _ | .map _ _, _ => True

/--
Every packed block of the field splits into whole elements.
-/
def Field.WholeBlocks (f : Field) (rs : List Record) : Prop :=
  match f.family with
  | .repScalar e _ =>
    ∀ r ∈ rs, r.tag = packTag f.index .lenPrefix → ∃ as, e.decode.Parses r.content as
  | _ => True

section Complete

variable {index : Nat} {e : Elem} {rs : List Record} {log : ScalarLog}

theorem ScalarLog.complete_of_packed (hall : ∀ r ∈ rs, r.tag = packTag index .lenPrefix)
    (hrun : ScalarLog.initial.run index e rs = .ok log) {vs : List e.Value}
    (hvs : e.Elements index rs vs)
    : log.count = vs.length
        ∧ ∀ k, log.results index e k = (vs[k]?.map .ok).getD (.ok 0) := by
  rw [Elem.elements_of_packed hall] at hvs
  by_cases hnil : rs = []
  . subst hnil
    simp only [ScalarLog.run, Except.ok.injEq] at hrun
    simp only [List.map_nil, Elem.Blocks] at hvs
    subst hvs hrun
    exact ⟨rfl, fun _ => rfl⟩
  . obtain ⟨pre, rest, rfl, hpre, hlog⟩ :=
      ScalarLog.run_packed_of_empty (e := e) .initial rfl hnil hall
    rw [hlog, Except.ok.injEq] at hrun
    subst hrun
    have hcount : ((pre ++ rest).map fun r => e.blockCount r.content).sum = vs.length := by
      rw [← Elem.blocks_length hvs, List.map_map]
      rfl
    refine ⟨hcount, ?_⟩
    intro k
    unfold ScalarLog.results
    dsimp only
    by_cases hzero : vs.length = 0
    . rw [if_pos (by omega), List.eq_nil_of_length_eq_zero hzero]
      rfl
    . have hrest : e.Blocks (contents (packTag index .lenPrefix) rest) vs := by
        have hcontents : contents (packTag index .lenPrefix) rest = rest.map Record.content := by
          unfold contents
          congr 1
          rw [List.filter_eq_self]
          intro r hr
          simpa using hall r (by simp [hr])
        rw [hcontents]
        rw [List.map_append] at hvs
        apply Elem.blocks_of_empty _ hvs
        simpa using hpre
      have hcursor : e.Blocks ([] :: contents (packTag index .lenPrefix) rest) vs :=
        ⟨[], vs, .nil, hrest, rfl⟩
      rw [if_neg (by omega), if_pos rfl, PackedCursor.result_eq 0 hcursor hcount, if_pos rfl]

theorem ScalarLog.complete_of_unpacked (hvalid : ∀ r ∈ rs, r.Valid)
    (hall : ∀ r ∈ rs, r.tag ≠ packTag index .lenPrefix)
    (htags : ∀ r ∈ rs, r.tag = packTag index e.wireType)
    (hrun : ScalarLog.initial.run index e rs = .ok log)
    : ∃ vs, e.Elements index rs vs ∧ log.count = vs.length
        ∧ ∀ k, log.results index e k = (vs[k]?.map .ok).getD (.ok 0) := by
  have hbody : ∀ r ∈ rs, ∃ v, e.decodeBody r.body = .ok v := by
    intro r hr
    obtain ⟨v, hv⟩ := Elem.decode_body (hvalid r hr) (htags r hr)
    exact ⟨v, by simp [Elem.decodeBody, hv, Except.map]⟩
  have hpacked : log.packed = false := by
    cases rs with
    | nil =>
      simp only [ScalarLog.run, Except.ok.injEq] at hrun
      rw [← hrun]
      rfl
    | cons r rs =>
      rw [List.forall_mem_cons] at hall
      unfold ScalarLog.run at hrun
      rw [if_neg hall.1, if_neg (by simp [ScalarLog.initial])] at hrun
      rw [(ScalarLog.run_unpacked (Nat.succ_pos _) (by rfl) hrun).2]
  obtain ⟨-, rfl⟩ := ScalarLog.run_initial_unpacked hrun hpacked
  obtain ⟨vs, hvs, hmap⟩ := Elem.exists_elements_of_unpacked hall hbody
  have hlen : rs.length = vs.length := by
    simpa using congrArg List.length hmap
  refine ⟨vs, hvs, hlen, ?_⟩
  intro k
  unfold ScalarLog.results
  dsimp only
  by_cases hzero : vs.length = 0
  . rw [if_pos (by omega), List.eq_nil_of_length_eq_zero hzero]
    rfl
  . have hbodies : (bodies (packTag index e.wireType) rs).map e.decodeBody = vs.map Except.ok := by
      rw [bodies_of_forall htags, List.map_map, ← hmap]
      rfl
    rw [if_neg (by omega), if_neg (by simp), ← List.getElem?_map, hbodies, List.getElem?_map]

theorem Elem.elements_unique {vs vs' : List e.Value} (h : e.Elements index rs vs)
    (h' : e.Elements index rs vs')
    : vs = vs' := by
  induction rs generalizing vs vs' with
  | nil => exact h.trans h'.symm
  | cons r rs ih =>
    obtain ⟨as, ws, has, hws, rfl⟩ := h
    obtain ⟨as', ws', has', hws', rfl⟩ := h'
    rw [ih hws hws']
    congr 1
    split at has
    . next htag =>
      rw [if_pos htag] at has'
      exact has.unique has'
    . next htag =>
      rw [if_neg htag] at has'
      obtain ⟨v, hv, rfl⟩ := has
      obtain ⟨v', hv', rfl⟩ := has'
      rw [hv, Except.ok.injEq] at hv'
      rw [hv']

theorem Family.viewOf_of_elements {packing : Packing} (hvalid : ∀ r ∈ rs, r.Valid)
    (htags : ∀ r ∈ rs, r.tag = packTag index .lenPrefix ∨ r.tag = packTag index e.wireType)
    (hmixed : ¬Field.Mixed ⟨index, .repScalar e packing⟩ rs) {vs : List e.Value}
    (hvs : e.Elements index rs vs)
    : (Family.repScalar e packing).viewOf S index rs
        =
      .ok (vs.length, fun k => (vs[k]?.map .ok).getD (.ok 0)) := by
  rw [Field.not_mixed_iff packing htags] at hmixed
  have hok : ∃ log, ScalarLog.initial.run index e rs = .ok log := by
    rw [ScalarLog.run_initial_isOk_iff packing, ← or_assoc]
    exact .inl hmixed
  obtain ⟨log, hrun⟩ := hok
  have hcomplete : log.count = vs.length
      ∧ ∀ k, log.results index e k = (vs[k]?.map .ok).getD (.ok 0) := by
    rcases hmixed with hall | hall
    . exact ScalarLog.complete_of_packed hall hrun hvs
    . have htags' : ∀ r ∈ rs, r.tag = packTag index e.wireType := by
        intro r hr
        exact (htags r hr).resolve_left (hall r hr)
      obtain ⟨vs', hvs', hcomplete⟩ := ScalarLog.complete_of_unpacked hvalid hall htags' hrun
      rwa [Elem.elements_unique hvs hvs']
  simp only [Family.viewOf, hrun, Except.map, Except.ok.injEq, Prod.mk.injEq]
  exact ⟨hcomplete.1, funext hcomplete.2⟩

theorem ScalarLog.incomplete_of_late {packing : Packing}
    (hlate : Field.LateUnpacked ⟨index, .repScalar e packing⟩ rs)
    (hrun : ScalarLog.initial.run index e rs = .ok log) {vs : List e.Value}
    (hvs : e.Elements index rs vs)
    : ¬∀ k v, vs[k]? = some v → log.results index e k = .ok v := by
  obtain ⟨pre, r, post, rfl, hne, hpre, hr, hpost⟩ := hlate
  rw [ScalarLog.run_late rfl (.inr hne) hpre hr hpost, Except.ok.injEq] at hrun
  subst hrun
  have hsplit : ∃ v vs', e.Blocks (post.map Record.content) vs' ∧ vs = v :: vs' := by
    clear hne
    induction pre generalizing vs with
    | nil =>
      obtain ⟨as, vs', has, hvs', rfl⟩ := hvs
      rw [if_neg hr] at has
      obtain ⟨v, -, rfl⟩ := has
      exact ⟨v, vs', (Elem.elements_of_packed hpost).mp hvs', rfl⟩
    | cons q pre ih =>
      rw [List.forall_mem_cons] at hpre
      obtain ⟨as, vs', has, hvs', rfl⟩ := hvs
      rw [if_pos hpre.1.1] at has
      have hlen := Elem.blockCount_of_parses has
      rw [hpre.1.2] at hlen
      rw [List.eq_nil_of_length_eq_zero hlen.symm, List.nil_append]
      exact ih hvs' hpre.2
  obtain ⟨v, vs', hvs', rfl⟩ := hsplit
  have hlen := Elem.blocks_length hvs'
  rw [List.map_map] at hlen
  intro hall
  have hlast : ∃ w, (v :: vs')[vs'.length]? = some w := by
    rw [List.getElem?_eq_getElem (by simp)]
    exact ⟨_, rfl⟩
  obtain ⟨w, hw⟩ := hlast
  have hresult := hall _ _ hw
  have hcontents : contents (packTag index .lenPrefix) (r :: post) = post.map Record.content := by
    rw [contents_cons_of_ne _ hr]
    unfold contents
    congr 1
    rw [List.filter_eq_self]
    simpa using hpost
  have hcursor : e.Blocks ([] :: post.map Record.content) vs' :=
    ⟨[], vs', .nil, hvs', rfl⟩
  have hcount : 1 + (post.map fun q => e.blockCount q.content).sum = vs'.length + 1 := by
    rw [← hlen]
    exact Nat.add_comm _ _
  unfold ScalarLog.results at hresult
  dsimp only at hresult
  rw [if_neg (by omega), if_pos rfl, hcontents, PackedCursor.result_eq 1 hcursor hcount] at hresult
  simp at hresult

end Complete

theorem Field.complete_iff {f : Field} {rs : List Record} (hvalid : ∀ r ∈ rs, r.Valid)
    (htags : ∀ r ∈ rs, f.hasTag r.tag = true) {view : f.family.View S}
    (hview : f.family.EntriesOk S rs → f.family.viewOf S f.index rs = .ok view)
    : f.family.IterComplete S f.index rs view ↔ f.WholeBlocks rs ∧ ¬f.Mixed rs := by
  obtain ⟨index, family⟩ := f
  cases family with
  | scalar e default => simp [Family.IterComplete, WholeBlocks, Mixed]
  | bytes default => simp [Family.IterComplete, WholeBlocks, Mixed]
  | msgRef target => simp [Family.IterComplete, WholeBlocks, Mixed]
  | repBytes => simp [Family.IterComplete, WholeBlocks, Mixed]
  | repMsg target => simp [Family.IterComplete, WholeBlocks, Mixed]
  | map key value => simp [Family.IterComplete, WholeBlocks, Mixed]
  | repScalar e packing =>
    have hview := hview trivial
    have hok := (Field.viewOf_isOk_iff (S := S) hvalid htags).mp ⟨view, hview⟩
    have htags : ∀ r ∈ rs, r.tag = packTag index .lenPrefix ∨ r.tag = packTag index e.wireType := by
      simpa [hasTag] using htags
    simp only [Family.viewOf] at hview
    cases hrun : ScalarLog.initial.run index e rs with
    | error err => simp [hrun, Except.map] at hview
    | ok log =>
      simp only [hrun, Except.map, Except.ok.injEq] at hview
      subst hview
      simp only [Family.IterComplete, WholeBlocks]
      constructor
      . -- The only mixture that is accepted is a late unpacked record, and there the last call fails.
        rintro ⟨vs, hvs, hcount, hresults⟩
        refine ⟨Elem.parses_of_elements hvs, ?_⟩
        intro hmixed
        exact ScalarLog.incomplete_of_late (hok.2 hmixed) hrun hvs hresults
      . -- In one form, all the blocks or all the bodies are read.
        rintro ⟨hwhole, hmixed⟩
        have helements : ∃ vs, e.Elements index rs vs := by
          rw [not_mixed_iff packing htags] at hmixed
          rcases hmixed with hall | hall
          . have hblocks : ∃ vs, e.Blocks (rs.map Record.content) vs := by
              apply Elem.exists_blocks
              intro block hblock
              rw [List.mem_map] at hblock
              obtain ⟨r, hr, rfl⟩ := hblock
              exact hwhole r hr (hall r hr)
            obtain ⟨vs, hvs⟩ := hblocks
            exact ⟨vs, (Elem.elements_of_packed hall).mpr hvs⟩
          . have htags' : ∀ r ∈ rs, r.tag = packTag index e.wireType := by
              intro r hr
              exact (htags r hr).resolve_left (hall r hr)
            obtain ⟨vs, hvs, -⟩ := ScalarLog.complete_of_unpacked hvalid hall htags' hrun
            exact ⟨vs, hvs⟩
        obtain ⟨vs, hvs⟩ := helements
        have hview := Family.viewOf_of_elements (S := S) hvalid htags hmixed hvs
        simp only [Family.viewOf, hrun, Except.map, Except.ok.injEq, Prod.mk.injEq] at hview
        refine ⟨vs, hvs, hview.1, ?_⟩
        intro k v hv
        rw [hview.2]
        simp [hv]

variable {t : MsgId}

/--
For an input that is accepted, the iterator of a repeated scalar or enum field delivers the elements
of the field exactly where its packed blocks split into whole elements and the field does not occur
in both forms.
-/
theorem iterator_complete_iff {src : List UInt8} {r : Reader S t} (h : readerInit S t src = .ok r)
    : ∃ rs, (∀ q ∈ rs, q.Valid) ∧ src = Record.concat rs
        ∧ ∀ i, (S.field t i).family.IterComplete S (S.field t i).index (rs.filter (owns S t i))
              (r.view i)
            ↔
          (S.field t i).WholeBlocks (rs.filter (owns S t i))
            ∧ ¬(S.field t i).Mixed (rs.filter (owns S t i)) := by
  obtain ⟨rs, hvalid, rfl⟩ := exists_records_of_readerInit h
  refine ⟨rs, hvalid, rfl, ?_⟩
  intro i
  apply Field.complete_iff
  . intro q hq
    exact hvalid q (List.mem_filter.mp hq).1
  . intro q hq
    exact hasTag_of_owns (List.mem_filter.mp hq).2
  . intro hentries
    exact Reader.viewOf_eq hvalid h i hentries

def overlongBlock : List UInt8 :=
  [10, 11] ++ List.replicate 10 0x80 ++ [1]

theorem overlongBlock_accepted : ∃ r, readerInit repeatedSchema 0 overlongBlock = .ok r := by
  have hok : (readerInit repeatedSchema 0 overlongBlock).isOk = true := by
    decide +kernel
  cases hinit : readerInit repeatedSchema 0 overlongBlock with
  | ok r => exact ⟨r, rfl⟩
  | error err => simp [hinit, Except.isOk, Except.toBool] at hok

/--
The reader accepts the block and counts one element, but the first call of `next` fails.
-/
theorem overlongBlock_incomplete
    : ∃ r, readerInit repeatedSchema 0 overlongBlock = .ok r ∧ (r.view ⟨0, by decide⟩).1 = 1
        ∧ ∀ v, (r.view ⟨0, by decide⟩).2 0 ≠ .ok v := by
  have hcheck : (readerInit repeatedSchema 0 overlongBlock).toOption.map
      (fun r => ((r.view ⟨0, by decide⟩).1, ((r.view ⟨0, by decide⟩).2 0).isOk))
        = some (1, false) := by
    decide +kernel
  obtain ⟨r, hr⟩ := overlongBlock_accepted
  rw [hr] at hcheck
  have hview : ((r.view ⟨0, by decide⟩).1, ((r.view ⟨0, by decide⟩).2 0).isOk) = (1, false) :=
    Option.some.inj hcheck
  rw [Prod.mk.injEq] at hview
  refine ⟨r, hr, hview.1, ?_⟩
  intro v hv
  rw [hv] at hview
  exact absurd hview.2 (by simp [Except.isOk, Except.toBool])

theorem overlongBlock_complete_iff
    : ∃ r, readerInit repeatedSchema 0 overlongBlock = .ok r
        ∧ ∃ rs, (∀ q ∈ rs, q.Valid) ∧ overlongBlock = Record.concat rs
            ∧ ∀ i, (repeatedSchema.field 0 i).family.IterComplete repeatedSchema
                  (repeatedSchema.field 0 i).index (rs.filter (owns repeatedSchema 0 i)) (r.view i)
                ↔
              (repeatedSchema.field 0 i).WholeBlocks (rs.filter (owns repeatedSchema 0 i))
                ∧ ¬(repeatedSchema.field 0 i).Mixed (rs.filter (owns repeatedSchema 0 i)) := by
  obtain ⟨r, hr⟩ := overlongBlock_accepted
  exact ⟨r, hr, iterator_complete_iff hr⟩

end Gremlin
