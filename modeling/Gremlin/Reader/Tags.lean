import Gremlin.Reader.Completeness

/-!
This module contains the tags that the reader meets, at the top and inside groups, and what has to
be true of them for an input that is accepted to be a message of the grammar.
-/

namespace Gremlin

open Codec

def varintSpan : Decoder UInt8 Error (List UInt8) := fun buf =>
  match varintDecode buf with
  | .error e => .error e
  | .ok (_, n) => .ok (buf.take n, n)

/--
The data behind a tag that denotes `tag`, where the mark of a group has none. The result is this
number and the one that the length of length-delimited data denotes.
-/
def wireData (tag : Nat) : Decoder UInt8 Error (Nat × Nat) :=
  match WireType.ofNat? (tag % 8) with
  | none => Decoder.fail .invalidWireType
  | some .sgroup => Decoder.pure (tag, 0)
  | some .egroup => Decoder.pure (tag, 0)
  | some .lenPrefix =>
    varintSpan.bind fun len =>
      (Decoder.take (varintValue len % 2 ^ 64) .truncated).map fun _ => (tag, varintValue len)
  | some wt => (skipFlat wt).map fun _ => (tag, 0)

def wireItem : Decoder UInt8 Error (Nat × Nat) :=
  varintSpan.bind fun head => wireData (varintValue head)

/--
Every end tag has the number of the innermost of the open groups, and no group stays open.
-/
def GroupsMatch : (stack : List Nat) → List (Nat × Nat) → Prop
  | stack, [] => stack = []
  | stack, (tag, _) :: items =>
    if tag % 8 = 3 then
      GroupsMatch (tag / 8 :: stack) items
    else if tag % 8 = 4 then
      match stack with
      | [] => False
      | num :: stack => tag / 8 = num ∧ GroupsMatch stack items
    else
      GroupsMatch stack items

/--
Every tag denotes a field number in range, every length fits in 64 bits and the groups match.
-/
structure ItemsOk (items : List (Nat × Nat)) : Prop where
  tags : ∀ item ∈ items, 8 ≤ item.1 ∧ item.1 < 2 ^ 32
  lengths : ∀ item ∈ items, item.2 < 2 ^ 64
  groups : GroupsMatch [] items

theorem varintSpan_eq_ok_iff {buf bs : List UInt8} {n : Nat}
    : varintSpan buf = .ok (bs, n)
        ↔
      IsVarint bs ∧ bs.length ≤ 10 ∧ n = bs.length ∧ ∃ tail, buf = bs ++ tail := by
  unfold varintSpan
  constructor
  . intro h
    split at h
    . simp at h
    . next v k hread =>
      simp only [Except.ok.injEq, Prod.mk.injEq] at h
      obtain ⟨rfl, rfl⟩ := h
      rw [varintDecode_eq_ok_iff] at hread
      obtain ⟨head, tail, rfl, hvarint, hle, rfl, -⟩ := hread
      rw [List.take_left]
      exact ⟨hvarint, hle, rfl, tail, rfl⟩
  . rintro ⟨hvarint, hle, rfl, tail, rfl⟩
    have hread : varintDecode (bs ++ tail) = .ok (BitVec.ofNat 64 (varintValue bs), bs.length) := by
      rw [varintDecode_eq_ok_iff]
      exact ⟨bs, tail, rfl, hvarint, hle, rfl, rfl⟩
    simp only [hread, List.take_left]

instance : LawfulDecoder varintSpan where
  consumed_le h := by
    rw [varintSpan_eq_ok_iff] at h
    obtain ⟨-, -, rfl, tail, rfl⟩ := h
    simp
  stable h rest := by
    rw [varintSpan_eq_ok_iff] at h ⊢
    obtain ⟨hvarint, hle, rfl, tail, rfl⟩ := h
    refine ⟨hvarint, hle, rfl, rest, ?_⟩
    rw [List.take_left]

instance (tag : Nat) : LawfulDecoder (wireData tag) := by
  unfold wireData
  split <;> infer_instance

instance : LawfulDecoder wireItem :=
  inferInstanceAs (LawfulDecoder (Decoder.bind _ _))

/-! An item is a tag and its data. -/

theorem varintSpan_append {bs : List UInt8} (h : IsVarint bs) (hle : bs.length ≤ 10)
    (tail : List UInt8)
    : varintSpan (bs ++ tail) = .ok (bs, bs.length) := by
  rw [varintSpan_eq_ok_iff]
  exact ⟨h, hle, rfl, tail, rfl⟩

theorem wireItem_append {head body : List UInt8} (h : IsVarint head) (hle : head.length ≤ 10)
    {item : Nat × Nat} {n : Nat} (hdata : wireData (varintValue head) body = .ok (item, n))
    : wireItem (head ++ body) = .ok (item, head.length + n) := by
  unfold wireItem
  rw [Decoder.bind_eq_ok_iff]
  refine ⟨head, head.length, n, varintSpan_append h hle body, ?_, rfl⟩
  rwa [List.drop_left]

theorem wireData_mark {tag : Nat} {wt : WireType} (hwt : WireType.ofNat? (tag % 8) = some wt)
    (hmark : wt = .sgroup ∨ wt = .egroup) (bs : List UInt8)
    : wireData tag bs = .ok ((tag, 0), 0) := by
  unfold wireData
  rcases hmark with rfl | rfl <;> simp [hwt, Decoder.pure]

theorem wireData_flat {tag : Nat} {wt : WireType} (hwt : WireType.ofNat? (tag % 8) = some wt)
    {body : List UInt8} {n : Nat} (hskip : skipFlat wt body = .ok ((), n))
    : ∃ len, wireData tag body = .ok ((tag, len), n) := by
  unfold wireData
  simp only [hwt]
  cases wt with
  | sgroup | egroup => simp [skipFlat] at hskip
  | lenPrefix =>
    rw [skipFlat_lenPrefix_iff] at hskip
    obtain ⟨content, hcontent⟩ := hskip
    unfold bytesDecode at hcontent
    rw [Decoder.bind_eq_ok_iff] at hcontent
    obtain ⟨v, k, m, hread, htake, rfl⟩ := hcontent
    rw [varintDecode_eq_ok_iff] at hread
    obtain ⟨len, tail, rfl, hlen, hlenle, rfl, rfl⟩ := hread
    refine ⟨varintValue len, ?_⟩
    rw [Decoder.bind_eq_ok_iff]
    refine ⟨len, len.length, m, varintSpan_append hlen hlenle tail, ?_, rfl⟩
    rw [Decoder.map_eq_ok_iff]
    rw [BitVec.toNat_ofNat] at htake
    exact ⟨content, htake, rfl⟩
  | varint | fixed64 | fixed32 =>
    refine ⟨0, ?_⟩
    simp only
    rw [Decoder.map_eq_ok_iff]
    exact ⟨(), hskip, rfl⟩

theorem wireData_of_isData {tag : Nat} {wt : WireType} (hwt : WireType.ofNat? (tag % 8) = some wt)
    {body : List UInt8} (hbody : IsData wt body)
    : ∃ len, len < 2 ^ 64 ∧ wireData tag body = .ok ((tag, len), body.length) := by
  have hskip := hbody.skipFlat
  unfold wireData
  simp only [hwt]
  cases hbody with
  | @lenPrefix len content h hle hlen hlt =>
    refine ⟨varintValue len, by omega, ?_⟩
    simp only
    rw [Decoder.bind_eq_ok_iff]
    refine ⟨len, len.length, content.length, varintSpan_append h hle content, ?_, by simp⟩
    rw [Decoder.map_eq_ok_iff]
    refine ⟨content, ?_, rfl⟩
    rw [Decoder.take_eq_ok_iff, List.drop_left, hlen, Nat.mod_eq_of_lt hlt]
    exact ⟨Nat.le_refl _, (List.take_length).symm, rfl⟩
  | varint | fixed64 | fixed32 =>
    refine ⟨0, by decide, ?_⟩
    simp only
    rw [Decoder.map_eq_ok_iff]
    exact ⟨(), hskip, rfl⟩

theorem isData_of_skipFlat {wt : WireType} (hwt : wt ≠ .lenPrefix) {bs : List UInt8} {n : Nat}
    (h : skipFlat wt bs = .ok ((), n))
    : IsData wt (bs.take n) := by
  cases wt with
  | varint =>
    rw [skipFlat_varint_iff] at h
    obtain ⟨v, hv⟩ := h
    rw [varintDecode_eq_ok_iff] at hv
    obtain ⟨body, tail, rfl, hvarint, hle, rfl, -⟩ := hv
    rw [List.take_left]
    exact .varint hvarint hle
  | fixed64 =>
    rw [skipFlat_fixed64_iff] at h
    obtain ⟨hle, rfl⟩ := h
    exact .fixed64 (by rw [List.length_take]; omega)
  | fixed32 =>
    rw [skipFlat_fixed32_iff] at h
    obtain ⟨hle, rfl⟩ := h
    exact .fixed32 (by rw [List.length_take]; omega)
  | lenPrefix => exact absurd rfl hwt
  | sgroup | egroup => simp [skipFlat] at h

theorem IsData.mod_ne_group {wt : WireType} {body : List UInt8} (h : IsData wt body) {tag : Nat}
    (hwt : WireType.ofNat? (tag % 8) = some wt)
    : tag % 8 ≠ 3 ∧ tag % 8 ≠ 4 := by
  have hnot := h.not_group
  constructor
  . intro heq
    rw [heq] at hwt
    exact hnot.1 (Option.some.inj hwt).symm
  . intro heq
    rw [heq] at hwt
    exact hnot.2 (Option.some.inj hwt).symm

theorem wireItem_cases {bs : List UInt8} {tag len n : Nat}
    (h : wireItem bs = .ok ((tag, len), n))
    : ∃ head rest wt, bs = head ++ rest ∧ IsVarint head ∧ head.length ≤ 10
        ∧ tag = varintValue head ∧ WireType.ofNat? (tag % 8) = some wt
        ∧ ((wt = .sgroup ∨ wt = .egroup) ∧ n = head.length
            ∨ ∃ m, n = head.length + m ∧ skipFlat wt rest = .ok ((), m)
              ∧ (len < 2 ^ 64 → IsData wt (rest.take m))) := by
  unfold wireItem at h
  rw [Decoder.bind_eq_ok_iff] at h
  obtain ⟨head, k, m, hhead, hrest, rfl⟩ := h
  rw [varintSpan_eq_ok_iff] at hhead
  obtain ⟨hvarint, hle, rfl, rest, rfl⟩ := hhead
  rw [List.drop_left] at hrest
  unfold wireData at hrest
  cases hwt : WireType.ofNat? (varintValue head % 8) with
  | none => simp [hwt] at hrest
  | some wt =>
    cases wt with
    | sgroup | egroup =>
      simp only [hwt, Decoder.pure_eq_ok_iff, Prod.mk.injEq] at hrest
      obtain ⟨⟨rfl, rfl⟩, rfl⟩ := hrest
      exact ⟨head, rest, _, rfl, hvarint, hle, rfl, hwt, .inl ⟨by simp, rfl⟩⟩
    | varint | fixed64 | fixed32 =>
      simp only [hwt, Decoder.map_eq_ok_iff, Prod.mk.injEq] at hrest
      obtain ⟨_, hskip, rfl, rfl⟩ := hrest
      refine ⟨head, rest, _, rfl, hvarint, hle, rfl, hwt, .inr ⟨m, rfl, hskip, ?_⟩⟩
      intro _
      exact isData_of_skipFlat (by decide) hskip
    -- The length counts as read modulo 2^64, so it is the length of the data only if it fits.
    | lenPrefix =>
      simp only [hwt, Decoder.bind_eq_ok_iff, Decoder.map_eq_ok_iff, Prod.mk.injEq] at hrest
      obtain ⟨bytes, j, l, hlen, ⟨content, htake, rfl, rfl⟩, rfl⟩ := hrest
      rw [varintSpan_eq_ok_iff] at hlen
      obtain ⟨hvarint', hle', rfl, tail, rfl⟩ := hlen
      rw [List.drop_left] at htake
      have hbytes : skipFlat .lenPrefix (bytes ++ tail) = .ok ((), bytes.length + l) := by
        rw [skipFlat_lenPrefix_iff]
        refine ⟨content, ?_⟩
        unfold bytesDecode
        rw [Decoder.bind_eq_ok_iff]
        refine ⟨BitVec.ofNat 64 (varintValue bytes), bytes.length, l, ?_, ?_, rfl⟩
        . rw [varintDecode_eq_ok_iff]
          exact ⟨bytes, tail, rfl, hvarint', hle', rfl, rfl⟩
        . rwa [List.drop_left, BitVec.toNat_ofNat]
      refine ⟨head, _, _, rfl, hvarint, hle, rfl, hwt, .inr ⟨_, rfl, hbytes, ?_⟩⟩
      intro hlt
      rw [Decoder.take_eq_ok_iff, Nat.mod_eq_of_lt hlt] at htake
      obtain ⟨hcontent, rfl, rfl⟩ := htake
      rw [List.take_length_add_append]
      apply IsData.lenPrefix hvarint' hle'
      . rw [List.length_take]
        omega
      . rw [List.length_take]
        omega

/-! Well-formed inputs by their items. -/

/--
The bytes close the open groups, from the innermost one outwards, and end the message.
-/
def Closes : (stack : List Nat) → List UInt8 → Prop
  | [], bs => ∃ levels, WireSeq levels none bs
  | num :: stack, bs =>
    ∃ as cs levels, bs = as ++ cs ∧ WireSeq levels (some num) as ∧ Closes stack cs

theorem Closes.record {stack : List Nat} {levels : Nat} {r : Record} {rest : List UInt8}
    (hr : r.WellFormed levels) (h : Closes stack rest)
    : Closes stack (r.bytes ++ rest) := by
  cases stack with
  | nil =>
    obtain ⟨l, hrest⟩ := h
    exact ⟨max levels l, .append_record (hr.mono (by omega)) (hrest.mono (by omega))⟩
  | cons num stack =>
    obtain ⟨as, cs, l, rfl, has, hcs⟩ := h
    refine ⟨r.bytes ++ as, cs, max levels l, by simp, ?_, hcs⟩
    exact .append_record (hr.mono (by omega)) (has.mono (by omega))

theorem isTag_of_varint {head : List UInt8} {wt : WireType} (h : IsVarint head)
    (hle : head.length ≤ 10) (hwt : WireType.ofNat? (varintValue head % 8) = some wt)
    (hlo : 8 ≤ varintValue head) (hhi : varintValue head < 2 ^ 32)
    : IsTag (varintValue head / 8) wt head := by
  have := WireType.toNat_of_ofNat?_eq_some hwt
  exact ⟨h, hle, by omega, by omega, by omega⟩

theorem closes_of_parses {bs : List UInt8} {items : List (Nat × Nat)}
    (h : wireItem.Parses bs items) (htags : ∀ item ∈ items, 8 ≤ item.1 ∧ item.1 < 2 ^ 32)
    (hlengths : ∀ item ∈ items, item.2 < 2 ^ 64) {stack : List Nat}
    (hgroups : GroupsMatch stack items)
    : Closes stack bs := by
  induction h generalizing stack with
  | nil =>
    simp only [GroupsMatch] at hgroups
    subst hgroups
    exact ⟨0, .nil⟩
  | @cons bs item n items hne hd htail ih =>
    obtain ⟨tag, len⟩ := item
    rw [List.forall_mem_cons] at htags hlengths
    have ih : ∀ {stack}, GroupsMatch stack items → Closes stack (bs.drop n) :=
      ih htags.2 hlengths.2
    obtain ⟨head, rest, wt, rfl, hvarint, hle, rfl, hwt, hdata⟩ := wireItem_cases hd
    have htag := isTag_of_varint hvarint hle hwt htags.1.1 htags.1.2
    have hmod := WireType.toNat_of_ofNat?_eq_some hwt
    simp only [GroupsMatch] at hgroups
    rcases hdata with ⟨hmark, rfl⟩ | ⟨m, rfl, hskip, hdata⟩
    . rw [List.drop_left] at ih
      -- The mark of a group is pushed on the stack or taken off it; the data of any other record leaves it
      -- alone.
      rcases hmark with rfl | rfl
      . have hthree : varintValue head % 8 = 3 := hmod
        rw [if_pos hthree] at hgroups
        obtain ⟨as, cs, l, rfl, has, hcs⟩ := ih hgroups
        have hgroup : (Record.mk (packTag (varintValue head / 8) .sgroup) head as).WellFormed
            (l + 1) := .group htag rfl has (by omega)
        have := Closes.record hgroup hcs
        rwa [Record.bytes, List.append_assoc] at this
      . have hfour : varintValue head % 8 = 4 := hmod
        rw [if_neg (by omega), if_pos hfour] at hgroups
        cases stack with
        | nil => exact hgroups.elim
        | cons num stack =>
          obtain ⟨rfl, hgroups⟩ := hgroups
          exact ⟨head, rest, 0, rfl, .close htag, ih hgroups⟩
    . have hdata := hdata hlengths.1
      obtain ⟨hthree, hfour⟩ := hdata.mod_ne_group hwt
      rw [if_neg hthree, if_neg hfour] at hgroups
      rw [← List.drop_drop, List.drop_left] at ih
      have hrecord : (Record.mk (packTag (varintValue head / 8) wt) head (rest.take m)).WellFormed 0 :=
        .flat htag rfl hdata
      have := Closes.record hrecord (ih hgroups)
      rwa [Record.bytes, List.append_assoc, List.take_append_drop] at this

theorem IsTag.item {num : Nat} {wt : WireType} {head : List UInt8} (h : IsTag num wt head)
    : 8 ≤ varintValue head ∧ varintValue head < 2 ^ 32 ∧ varintValue head / 8 = num
        ∧ varintValue head % 8 = wt.toNat ∧ WireType.ofNat? (varintValue head % 8) = some wt := by
  have hwt := wt.toNat_lt
  have hpos := h.pos
  have hlt := h.lt
  have hmod : varintValue head % 8 = wt.toNat := by
    rw [h.value]
    omega
  refine ⟨?_, ?_, ?_, hmod, ?_⟩
  . rw [h.value]
    omega
  . rw [h.value]
    omega
  . rw [h.value]
    omega
  . rw [hmod, WireType.ofNat?_toNat]

theorem WireSeq.exists_items {levels : Nat} {group : Option Nat} {bs : List UInt8}
    (h : WireSeq levels group bs)
    : ∃ items, wireItem.Parses bs items ∧ (∀ item ∈ items, 8 ≤ item.1 ∧ item.1 < 2 ^ 32)
        ∧ (∀ item ∈ items, item.2 < 2 ^ 64)
        ∧ ∀ stack more, GroupsMatch stack more →
          GroupsMatch (group.toList ++ stack) (items ++ more) := by
  induction h with
  | nil => exact ⟨[], .nil, by simp, by simp, fun _ _ hmore => hmore⟩
  -- The end of a group takes its number off the stack.
  | @close levels num head hhead =>
    obtain ⟨hlo, hhi, hdiv, hmod, hwt⟩ := hhead.item
    have hitem := wireItem_append hhead.varint hhead.length_le (wireData_mark hwt (by simp) [])
    rw [List.append_nil] at hitem
    have hne := List.ne_nil_of_length_pos hhead.head_pos
    refine ⟨[(varintValue head, 0)], .singleton hne hitem, by simp; omega, by simp, ?_⟩
    intro stack more hmore
    have hfour : varintValue head % 8 = 4 := hmod
    simp only [Option.toList_some, List.cons_append, List.nil_append, GroupsMatch, hdiv]
    rw [if_neg (by omega), if_pos hfour]
    exact ⟨trivial, hmore⟩
  | @flat levels num wt head body rest group hhead hbody hrest ih =>
    obtain ⟨items, hitems, htags, hlengths, hgroups⟩ := ih
    obtain ⟨hlo, hhi, hdiv, hmod, hwt⟩ := hhead.item
    obtain ⟨len, hlen, hdata⟩ := wireData_of_isData hwt hbody
    have hitem := wireItem_append hhead.varint hhead.length_le hdata
    rw [← List.length_append] at hitem
    have hne : head ++ body ≠ [] := by
      simp [List.ne_nil_of_length_pos hhead.head_pos]
    refine ⟨(varintValue head, len) :: items, ?_, ?_, ?_, ?_⟩
    . rw [← List.append_assoc]
      exact Decoder.Parses.append (.singleton hne hitem) hitems
    . rw [List.forall_mem_cons]
      exact ⟨⟨hlo, hhi⟩, htags⟩
    . rw [List.forall_mem_cons]
      exact ⟨hlen, hlengths⟩
    . intro stack more hmore
      -- The wire type is neither that of a start nor of an end.
      obtain ⟨hthree, hfour⟩ := hbody.mod_ne_group hwt
      simp only [List.cons_append, GroupsMatch]
      rw [if_neg hthree, if_neg hfour]
      exact hgroups stack more hmore
  -- The start of a group puts its number on the stack, which the end of its body takes off again.
  | @group levels num head body rest group hhead hbody hrest ihbody ihrest =>
    obtain ⟨items, hitems, htags, hlengths, hgroups⟩ := ihbody
    obtain ⟨items', hitems', htags', hlengths', hgroups'⟩ := ihrest
    obtain ⟨hlo, hhi, hdiv, hmod, hwt⟩ := hhead.item
    have hitem := wireItem_append hhead.varint hhead.length_le (wireData_mark hwt (by simp) [])
    rw [List.append_nil] at hitem
    have hne := List.ne_nil_of_length_pos hhead.head_pos
    refine ⟨(varintValue head, 0) :: (items ++ items'), ?_, ?_, ?_, ?_⟩
    . exact Decoder.Parses.append (.singleton hne hitem) (hitems.append hitems')
    . rw [List.forall_mem_cons, List.forall_mem_append]
      exact ⟨⟨hlo, hhi⟩, htags, htags'⟩
    . rw [List.forall_mem_cons, List.forall_mem_append]
      exact ⟨Nat.two_pow_pos 64, hlengths, hlengths'⟩
    . intro stack more hmore
      have hthree : varintValue head % 8 = 3 := hmod
      simp only [List.cons_append, GroupsMatch]
      rw [if_pos hthree, hdiv, List.append_assoc]
      exact hgroups _ _ (hgroups' stack more hmore)

theorem wireSeq_iff {bs : List UInt8} {items : List (Nat × Nat)} (h : wireItem.Parses bs items)
    : (∃ levels, WireSeq levels none bs) ↔ ItemsOk items := by
  constructor
  . rintro ⟨levels, hseq⟩
    obtain ⟨items', hitems', htags, hlengths, hgroups⟩ := hseq.exists_items
    rw [h.unique hitems']
    have := hgroups [] [] rfl
    rw [Option.toList_none, List.append_nil, List.append_nil] at this
    exact ⟨htags, hlengths, this⟩
  . intro hok
    exact closes_of_parses h hok.tags hok.lengths hok.groups

/-! The items of an accepted input. -/

theorem exists_items_of_skipGroup {fuel depth n : Nat} {bs : List UInt8}
    (h : skipGroup fuel depth bs = .ok ((), n))
    : ∃ items, wireItem.Parses (bs.take n) items := by
  induction fuel generalizing depth bs n with
  | zero => simp [skipGroup] at h
  | succ fuel ih =>
    by_cases hdepth : depth = 0
    . simp only [skipGroup, hdepth, ↓reduceIte, Decoder.pure_eq_ok_iff] at h
      rw [h.2, List.take_zero]
      exact ⟨[], .nil⟩
    . rw [skipGroup_succ_eq_ok_iff hdepth] at h
      obtain ⟨t, k, wt, m, ht, hwt, rfl, hrest⟩ := h
      rw [varintDecode_eq_ok_iff] at ht
      obtain ⟨head, tail, rfl, hvarint, hle, rfl, rfl⟩ := ht
      have hwt' : WireType.ofNat? (varintValue head % 8) = some wt := by
        rw [BitVec.toNat_ofNat, Nat.mod_mod_of_dvd _ (by decide)] at hwt
        exact hwt
      have hne := List.ne_nil_of_length_pos hvarint.length_pos
      rw [List.drop_left] at hrest
      rw [List.take_length_add_append]
      have hgroup (hmark : wt = .sgroup ∨ wt = .egroup) {depth' : Nat}
          (hloop : skipGroup fuel depth' tail = .ok ((), m))
          : ∃ items, wireItem.Parses (head ++ tail.take m) items := by
        obtain ⟨items, hitems⟩ := ih hloop
        have hitem := wireItem_append hvarint hle (wireData_mark hwt' hmark [])
        rw [List.append_nil] at hitem
        exact ⟨_, Decoder.Parses.append (.singleton hne hitem) hitems⟩
      have hflat (hbind : ((skipFlat wt).bind fun _ => skipGroup fuel depth) tail = .ok ((), m))
          : ∃ items, wireItem.Parses (head ++ tail.take m) items := by
        rw [Decoder.bind_eq_ok_iff] at hbind
        obtain ⟨_, i, j, hskip, hloop, rfl⟩ := hbind
        obtain ⟨items, hitems⟩ := ih hloop
        have hi := LawfulDecoder.consumed_le hskip
        have hskip' := LawfulDecoder.take (skipFlat wt) hskip
        obtain ⟨len, hdata⟩ := wireData_flat hwt' hskip'
        have hitem := wireItem_append hvarint hle hdata
        have hlen : head.length + i = (head ++ tail.take i).length := by
          rw [List.length_append, List.length_take, Nat.min_eq_left hi]
        rw [hlen] at hitem
        have := Decoder.Parses.append (.singleton (by simp [hne]) hitem) hitems
        rw [List.append_assoc, ← List.take_add] at this
        exact ⟨_, this⟩
      cases wt with
      | sgroup => exact hgroup (by simp) hrest
      | egroup => exact hgroup (by simp) hrest
      | varint | fixed64 | lenPrefix | fixed32 => exact hflat hrest

theorem Record.Valid.exists_items {r : Record} (h : r.Valid)
    : ∃ items, wireItem.Parses r.bytes items ∧ ∃ item ∈ items, item.1 = varintValue r.head := by
  have hhead := h.head
  rw [varint32Decode_eq_ok_iff] at hhead
  obtain ⟨bs, tail, heq, hvarint, hle, hlen, htag⟩ := hhead
  have htail : tail = [] := by
    have := congrArg List.length heq
    simp only [List.length_append] at this
    exact List.eq_nil_of_length_eq_zero (by omega)
  rw [htail, List.append_nil] at heq
  subst heq
  obtain ⟨wt, hwt, hskip⟩ := h.body
  have hwt' : WireType.ofNat? (varintValue r.head % 8) = some wt := by
    rw [htag, BitVec.toNat_ofNat, Nat.mod_mod_of_dvd _ (by decide)] at hwt
    exact hwt
  have hne := List.ne_nil_of_length_pos hvarint.length_pos
  by_cases hgroup : wt = .sgroup
  . subst hgroup
    rw [skipData_sgroup_eq_ok_iff] at hskip
    obtain ⟨fuel, hskip⟩ := hskip
    obtain ⟨items, hitems⟩ := exists_items_of_skipGroup hskip
    rw [List.take_length] at hitems
    have hitem := wireItem_append hvarint (by omega) (wireData_mark hwt' (by simp) [])
    rw [List.append_nil] at hitem
    refine ⟨_, Decoder.Parses.append (.singleton hne hitem) hitems, (varintValue r.head, 0), ?_, rfl⟩
    simp
  . rw [skipData_of_ne_sgroup hgroup] at hskip
    obtain ⟨len, hdata⟩ := wireData_flat hwt' hskip
    have hitem := wireItem_append hvarint (by omega) hdata
    rw [← List.length_append] at hitem
    have hne : r.head ++ r.body ≠ [] := by
      simp [hne]
    refine ⟨_, .singleton hne hitem, (varintValue r.head, len), ?_, rfl⟩
    simp

theorem exists_items_concat {rs : List Record} (h : ∀ r ∈ rs, r.Valid)
    : ∃ items, wireItem.Parses (Record.concat rs) items
        ∧ ∀ r ∈ rs, ∃ item ∈ items, item.1 = varintValue r.head := by
  induction rs with
  | nil => exact ⟨[], .nil, by simp⟩
  | cons r rs ih =>
    rw [List.forall_mem_cons] at h
    obtain ⟨items, hitems, hmem⟩ := h.1.exists_items
    obtain ⟨items', hitems', hmem'⟩ := ih h.2
    refine ⟨items ++ items', hitems.append hitems', ?_⟩
    rw [List.forall_mem_cons]
    refine ⟨?_, ?_⟩
    . obtain ⟨item, hitem, heq⟩ := hmem
      exact ⟨item, by simp [hitem], heq⟩
    . intro q hq
      obtain ⟨item, hitem, heq⟩ := hmem' q hq
      exact ⟨item, by simp [hitem], heq⟩

variable {S : Schema} {t : MsgId}

/--
An input that is accepted is a message of the grammar, and none of its tags that denotes a number
of more than 32 bits is taken for a declared field, exactly where every tag denotes a field number
in range, every length fits in 64 bits and every group is closed by its own end tag.
-/
theorem accepted_wellFormed_iff {src : List UInt8} {r : Reader S t}
    (h : readerInit S t src = .ok r)
    : ∃ items, wireItem.Parses src items
        ∧ ((∃ levels, WireSeq levels none src)
              ∧ (∀ rs, (∀ q ∈ rs, Record.Valid q) → src = Record.concat rs →
                ∀ q ∈ rs, 2 ^ 32 ≤ varintValue q.head → owner S t q.tag = none)
            ↔
          ItemsOk items) := by
  obtain ⟨rs, hvalid, rfl⟩ := exists_records_of_readerInit h
  obtain ⟨items, hitems, -⟩ := exists_items_concat hvalid
  refine ⟨items, hitems, ?_⟩
  rw [wireSeq_iff hitems]
  refine ⟨fun hok => hok.1, fun hok => ⟨hok, ?_⟩⟩
  intro rs' hvalid' heq q hq hlarge
  obtain ⟨items', hitems', hmem⟩ := exists_items_concat hvalid'
  rw [heq] at hitems
  obtain ⟨item, hitem, hvalue⟩ := hmem q hq
  rw [hitems'.unique hitems] at hitem
  have := (hok.tags item hitem).2
  omega

/--
The start tag of group 1, then the end tag of group 2.
-/
def mismatchedGroup : List UInt8 :=
  [0x0B, 0x14]

theorem mismatchedGroup_accepted : ∃ r, readerInit repeatedSchema 0 mismatchedGroup = .ok r := by
  have hok : (readerInit repeatedSchema 0 mismatchedGroup).isOk = true := by
    decide +kernel
  cases hinit : readerInit repeatedSchema 0 mismatchedGroup with
  | ok r => exact ⟨r, rfl⟩
  | error err => simp [hinit, Except.isOk, Except.toBool] at hok

theorem mismatchedGroup_items : wireItem.Parses mismatchedGroup [(11, 0), (20, 0)] := by
  apply Decoder.Parses.cons (by simp [mismatchedGroup])
  . show wireItem mismatchedGroup = .ok ((11, 0), 1)
    decide +kernel
  . apply Decoder.Parses.singleton (by simp [mismatchedGroup])
    decide +kernel

/--
The reader accepts a group that another group's end tag closes.
-/
theorem mismatchedGroup_not_wellFormed
    : ∃ r, readerInit repeatedSchema 0 mismatchedGroup = .ok r
        ∧ ¬∃ levels, WireSeq levels none mismatchedGroup := by
  obtain ⟨r, hr⟩ := mismatchedGroup_accepted
  refine ⟨r, hr, ?_⟩
  rw [wireSeq_iff mismatchedGroup_items]
  intro hok
  have := hok.groups
  simp [GroupsMatch] at this

theorem mismatchedGroup_wellFormed_iff
    : ∃ r, readerInit repeatedSchema 0 mismatchedGroup = .ok r
        ∧ ∃ items, wireItem.Parses mismatchedGroup items
            ∧ ((∃ levels, WireSeq levels none mismatchedGroup)
                  ∧ (∀ rs, (∀ q ∈ rs, Record.Valid q) → mismatchedGroup = Record.concat rs →
                    ∀ q ∈ rs, 2 ^ 32 ≤ varintValue q.head → owner repeatedSchema 0 q.tag = none)
                ↔
              ItemsOk items) := by
  obtain ⟨r, hr⟩ := mismatchedGroup_accepted
  exact ⟨r, hr, accepted_wellFormed_iff hr⟩

end Gremlin
