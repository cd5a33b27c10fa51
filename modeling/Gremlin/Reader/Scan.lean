import Gremlin.Reader.Records
import Gremlin.Reader.Iter

/-!
This module contains the analysis of the iterators by records: from the end of a record, `next`
behaves as if the records that are not of its field were not there.
-/

namespace Gremlin

open Codec

namespace Record

/--
The bytes behind the length of a length-delimited record.
-/
def content (r : Record) : List UInt8 :=
  match bytesDecode r.body with
  | .ok (bytes, _) => bytes
  | .error _ => []

theorem Valid.bytesDecode_body {r : Record} (h : r.Valid)
    (hwt : WireType.ofNat? (r.tag.toNat % 8) = some .lenPrefix)
    : bytesDecode r.body = .ok (r.content, r.body.length) := by
  obtain ⟨wt, hwt', hskip⟩ := h.body
  rw [hwt, Option.some.injEq] at hwt'
  subst hwt'
  rw [skipData_of_ne_sgroup (by decide), skipFlat_lenPrefix_iff] at hskip
  obtain ⟨bytes, hbytes⟩ := hskip
  simp only [content, hbytes]

theorem Valid.exists_length {r : Record} (h : r.Valid)
    (hwt : WireType.ofNat? (r.tag.toNat % 8) = some .lenPrefix)
    : ∃ len m, varintDecode r.body = .ok (len, m) ∧ len.toNat = r.content.length
        ∧ r.body.drop m = r.content ∧ m + r.content.length = r.body.length := by
  have hbytes := h.bytesDecode_body hwt
  unfold bytesDecode at hbytes
  rw [Decoder.bind_eq_ok_iff] at hbytes
  obtain ⟨len, m, k, hlen, htake, hsum⟩ := hbytes
  rw [Decoder.take_eq_ok_iff] at htake
  obtain ⟨hle, hcontent, rfl⟩ := htake
  have hm := LawfulDecoder.consumed_le hlen
  rw [List.length_drop] at hle
  have hall : r.body.drop m = r.content := by
    rw [hcontent, List.take_of_length_le]
    rw [List.length_drop]
    omega
  have hlength : r.content.length = len.toNat := by
    rw [← hall, List.length_drop]
    omega
  exact ⟨len, m, hlen, hlength.symm, hall, by omega⟩

theorem drop_concat (pre : List Record) (rs : List Record)
    : (concat (pre ++ rs)).drop (concat pre).length = concat rs := by
  simp

end Record

theorem packTag_lenPrefix (index : Nat)
    : WireType.ofNat? ((packTag index .lenPrefix).toNat % 8) = some .lenPrefix :=
  packTag_wireType index .lenPrefix

/--
The scan from the end of a record stops behind the next occurrence of the tag, or at the end.
-/
theorem scanTag_concat {fuel : Nat} (tag : BitVec 32) (pre : List Record) {rs : List Record}
    (hvalid : ∀ r ∈ rs, r.Valid) (hfuel : (Record.concat rs).length ≤ fuel)
    : ((∀ r ∈ rs, r.tag ≠ tag)
          ∧ scanTag tag (Record.concat (pre ++ rs)) fuel (Record.concat pre).length
              =
            (.ok false, (Record.concat (pre ++ rs)).length))
        ∨ ∃ skipped r post, rs = skipped ++ r :: post ∧ (∀ q ∈ skipped, q.tag ≠ tag) ∧ r.tag = tag
            ∧ scanTag tag (Record.concat (pre ++ rs)) fuel (Record.concat pre).length
                =
              (.ok true, (Record.concat (pre ++ skipped)).length + r.head.length) := by
  induction rs generalizing fuel pre with
  | nil =>
    refine .inl ⟨by simp, ?_⟩
    cases fuel <;> simp [scanTag]
  | cons r rs ih =>
    have hr := hvalid r (by simp)
    have hhead := List.length_pos_iff.mpr hr.head_ne_nil
    have hrs : ∀ r ∈ rs, r.Valid := fun r hmem => hvalid r (by simp [hmem])
    rw [Record.concat_cons, List.length_append, Record.length_bytes] at hfuel
    cases fuel with
    | zero => omega
    | succ fuel =>
      have hlt : (Record.concat pre).length < (Record.concat (pre ++ r :: rs)).length := by
        simp
        omega
      have hdrop : (Record.concat (pre ++ r :: rs)).drop ((Record.concat pre).length
          + r.head.length) = r.body ++ Record.concat rs := by
        rw [← List.drop_drop, Record.drop_concat, Record.concat_cons, Record.Valid.drop_head]
      unfold scanTag
      simp only [hlt, ↓reduceIte, Record.drop_concat, Record.concat_cons, hr.read_head]
      -- The scan stops behind the tag of the first record that has it.
      by_cases htag : r.tag = tag
      . refine .inr ⟨[], r, rs, rfl, by simp, htag, ?_⟩
        simp [htag]
      . obtain ⟨wt, hwt, -⟩ := hr.body
        simp only [htag, ↓reduceIte, hwt, hdrop, hr.skip_body hwt]
        have hstep : (Record.concat pre).length + r.head.length + r.body.length
            = (Record.concat (pre ++ [r])).length := by
          simp [Nat.add_assoc]
        have happ : pre ++ r :: rs = pre ++ [r] ++ rs := by simp
        rw [hstep, happ]
        rcases ih (pre ++ [r]) hrs (by omega : (Record.concat rs).length ≤ fuel) with
          ⟨hnone, hscan⟩ | hsome
        . refine .inl ⟨?_, hscan⟩
          intro q hq
          rw [List.mem_cons] at hq
          rcases hq with rfl | hq
          . exact htag
          . exact hnone q hq
        . obtain ⟨skipped, q, post, rfl, hskipped, hq, hscan⟩ := hsome
          refine .inr ⟨r :: skipped, q, post, rfl, ?_, hq, ?_⟩
          . intro q' hq'
            rw [List.mem_cons] at hq'
            rcases hq' with rfl | hq'
            . exact htag
            . exact hskipped q' hq'
          . simpa using hscan

/-! Length-delimited elements. -/

def contents (tag : BitVec 32) (rs : List Record) : List (List UInt8) :=
  (rs.filter fun r => r.tag = tag).map Record.content

/--
The iterator is to deliver `todo`: its cursor is behind the tag of the record with the first of
them, and the others are in the records that follow it.
-/
def Iter.At (index : Nat) (it : Iter) (todo : List (List UInt8)) : Prop :=
  it.countRemaining = todo.length
    ∧ (todo ≠ [] → ∃ pre r post,
        (∀ q ∈ r :: post, q.Valid) ∧ it.src = Record.concat (pre ++ r :: post)
          ∧ it.offset = (Record.concat pre).length + r.head.length
          ∧ r.tag = packTag index .lenPrefix
          ∧ todo = r.content :: contents (packTag index .lenPrefix) post)

section Located

variable {tag : BitVec 32} {pre post : List Record} {q : Record}

/--
The element at a cursor behind the tag of a record is the content of the record, and ends with it.
-/
theorem Iter.element_concat (hq : q.Valid) (hwt : WireType.ofNat? (q.tag.toNat % 8) = some .lenPrefix)
    (count : Nat)
    : Iter.element ⟨Record.concat (pre ++ q :: post), (Record.concat pre).length + q.head.length, count⟩
        =
      (.ok q.content,
        ⟨Record.concat (pre ++ q :: post), (Record.concat (pre ++ [q])).length, count - 1⟩) := by
  have hbytes := hq.bytesDecode_body hwt
  have hdrop : (Record.concat (pre ++ q :: post)).drop ((Record.concat pre).length + q.head.length)
      = q.body ++ Record.concat post := by
    rw [← List.drop_drop, Record.drop_concat, Record.concat_cons, Record.Valid.drop_head]
  unfold Iter.element
  simp only [hdrop, LawfulDecoder.append bytesDecode hbytes]
  simp [Nat.add_assoc]

theorem first_unique {p : Record → Prop} {as bs cs ds : List Record} {a b : Record}
    (h : as ++ a :: cs = bs ++ b :: ds) (has : ∀ x ∈ as, ¬p x) (hbs : ∀ x ∈ bs, ¬p x) (ha : p a)
    (hb : p b)
    : as = bs ∧ a = b ∧ cs = ds := by
  induction as generalizing bs with
  | nil =>
    cases bs with
    | nil => simpa using h
    | cons x bs =>
      simp only [List.nil_append, List.cons_append, List.cons.injEq] at h
      exact absurd (h.1 ▸ ha) (hbs x (by simp))
  | cons x as ih =>
    cases bs with
    | nil =>
      simp only [List.nil_append, List.cons_append, List.cons.injEq] at h
      exact absurd (h.1 ▸ hb) (has x (by simp))
    | cons y bs =>
      simp only [List.cons_append, List.cons.injEq] at h
      rw [List.forall_mem_cons] at has hbs
      obtain ⟨rfl, hcs⟩ := ih h.2 has.2 hbs.2
      exact ⟨by rw [h.1], hcs⟩

theorem Iter.advance_zero {it : Iter} (tag : BitVec 32) (h : it.countRemaining = 0)
    : it.advance tag = (.ok (), it) := by
  simp [Iter.advance, h]

/--
From the end of a record the iterator moves behind the next occurrence of the tag.
-/
theorem Iter.advance_concat (pre : List Record) {skipped : List Record} (hvalid : ∀ r ∈ skipped ++ q :: post, r.Valid)
    (hskipped : ∀ r ∈ skipped, r.tag ≠ tag) (hq : q.tag = tag) {count : Nat} (hcount : count ≠ 0)
    : Iter.advance ⟨Record.concat (pre ++ (skipped ++ q :: post)), (Record.concat pre).length, count⟩ tag
        =
      (.ok (),
        ⟨Record.concat (pre ++ (skipped ++ q :: post)),
          (Record.concat (pre ++ skipped)).length + q.head.length, count⟩) := by
  have hfuel : (Record.concat (skipped ++ q :: post)).length
      ≤ (Record.concat (pre ++ (skipped ++ q :: post))).length := by
    rw [Record.concat_append pre, List.length_append]
    omega
  rcases scanTag_concat tag pre hvalid hfuel with ⟨hnone, -⟩ | ⟨skipped', q', post', heq, hskipped', hq', hscan⟩
  . exact absurd hq (hnone q (by simp))
  . obtain ⟨rfl, rfl, -⟩ := first_unique heq hskipped hskipped' hq hq'
    have hpos : count > 0 := by omega
    unfold Iter.advance
    simp only [hpos, ↓reduceIte, hscan]

end Located

theorem Iter.At.advance {index : Nat} {it : Iter} {content : List UInt8} {todo : List (List UInt8)}
    (h : it.At index (content :: todo))
    : ∃ it' it'', it.element = (.ok content, it')
        ∧ it'.advance (packTag index .lenPrefix) = (.ok (), it'') ∧ it''.At index todo := by
  obtain ⟨src, offset, count⟩ := it
  obtain ⟨hcount, hcursor⟩ := h
  obtain ⟨pre, r, post, hvalid, rfl, rfl, htag, htodo⟩ := hcursor (by simp)
  dsimp only at hcount
  simp only [List.cons.injEq] at htodo
  obtain ⟨rfl, rfl⟩ := htodo
  have hr := hvalid r (by simp)
  have hpost : ∀ q ∈ post, q.Valid := fun q hq => hvalid q (by simp [hq])
  have helement := @Iter.element_concat pre post r hr (by rw [htag, packTag_lenPrefix]) count
  rw [List.length_cons] at hcount
  have happ : pre ++ r :: post = pre ++ [r] ++ post := by simp
  by_cases hzero : contents (packTag index .lenPrefix) post = []
  . have hlast : count - 1 = 0 := by simp [hcount, hzero]
    refine ⟨_, _, helement, Iter.advance_zero _ hlast, ?_⟩
    exact ⟨by simp [hcount], fun hne => absurd hzero hne⟩
  . have hsome : post.filter (fun r => decide (r.tag = packTag index .lenPrefix)) ≠ [] := by
      simpa [contents] using hzero
    cases hfilter : post.filter (fun r => decide (r.tag = packTag index .lenPrefix)) with
    | nil => exact absurd hfilter hsome
    | cons q rest =>
      obtain ⟨skipped, post', rfl, hskipped, hq, hrest⟩ := List.filter_eq_cons_iff.mp hfilter
      have hskipped : ∀ q ∈ skipped, q.tag ≠ packTag index .lenPrefix := by simpa using hskipped
      have hq : q.tag = packTag index .lenPrefix := by simpa using hq
      have hne : count - 1 ≠ 0 := by
        have := List.length_pos_iff.mpr hzero
        omega
      have hadvance := Iter.advance_concat (pre ++ [r]) hpost hskipped hq hne
      rw [← happ] at hadvance
      refine ⟨_, _, helement, hadvance, by simp [hcount], ?_⟩
      intro _
      refine ⟨pre ++ [r] ++ skipped, q, post', ?_, by simp, rfl, hq, ?_⟩
      . intro q' hq'
        exact hpost q' (List.mem_append_right skipped hq')
      . simp [contents, hfilter, hrest]

theorem Iter.At.eq_zero {index : Nat} {it : Iter} (h : it.At index []) : it.countRemaining = 0 :=
  h.1

theorem Iter.At.ne_zero {index : Nat} {it : Iter} {content : List UInt8} {todo : List (List UInt8)}
    (h : it.At index (content :: todo))
    : it.countRemaining ≠ 0 := by
  rw [h.1]
  simp

theorem nextBytes_spec {index : Nat} {it : Iter} {content : List UInt8} {todo : List (List UInt8)}
    (h : it.At index (content :: todo))
    : ∃ it', nextBytes index it = (.ok content, it') ∧ it'.At index todo := by
  obtain ⟨it', it'', helement, hadvance, hat⟩ := h.advance
  refine ⟨it'', ?_, hat⟩
  unfold nextBytes
  simp only [h.ne_zero, ↓reduceIte, helement, hadvance]

variable {S : Schema}

theorem nextMessage_spec {index : Nat} {target : MsgId} {it : Iter} {content : List UInt8}
    {todo : List (List UInt8)} (h : it.At index (content :: todo))
    : ∃ it', nextMessage S index target it = (readerInit S target content, it')
        ∧ it'.At index todo := by
  obtain ⟨it', it'', helement, hadvance, hat⟩ := h.advance
  refine ⟨it'', ?_, hat⟩
  unfold nextMessage
  simp only [h.ne_zero, ↓reduceIte, helement, hadvance]

/--
A map iterator moves on to the next entry only where it could decode this one.
-/
theorem nextEntry_spec {index : Nat} {key : Slot} {value : MapValue} {it : Iter}
    {content : List UInt8} {todo : List (List UInt8)} (h : it.At index (content :: todo))
    (hlast : todo = [] ∨ ∃ out, decodeEntry S key value content = .ok out)
    : ∃ it', nextEntry S index key value it = (decodeEntry S key value content, it')
        ∧ it'.At index todo := by
  obtain ⟨it', it'', helement, hadvance, hat⟩ := h.advance
  unfold nextEntry
  simp only [h.ne_zero, ↓reduceIte, helement]
  cases hdecode : decodeEntry S key value content with
  | ok out =>
    refine ⟨it'', ?_, hat⟩
    simp [hadvance]
  | error e =>
    rcases hlast with rfl | ⟨out, hout⟩
    . refine ⟨it', rfl, ?_, by simp⟩
      have hcount := h.1
      unfold Iter.element at helement
      split at helement
      . simp at helement
      . simp only [Prod.mk.injEq] at helement
        rw [← helement.2]
        simp [hcount]
    . rw [hdecode] at hout
      simp at hout

/--
The results of calls that deliver one element each, and a default when there are no more.
-/
theorem result_eq {σ α β : Type} {next : σ → Step σ α} {A : σ → List β → Prop}
    {deliver : β → Except Error α} {default : Except Error α} {G : β → Prop}
    (hnil : ∀ it, A it [] → ∃ it', next it = (default, it') ∧ A it' [])
    (hcons : ∀ it x xs, A it (x :: xs) → xs = [] ∨ G x →
      ∃ it', next it = (deliver x, it') ∧ A it' xs)
    {it : σ} {todo : List β} (hat : A it todo) (hgood : ∀ x ∈ todo.dropLast, G x) (k : Nat)
    : result next k it = (todo[k]?.map deliver).getD default := by
  induction k generalizing it todo with
  | zero =>
    cases todo with
    | nil =>
      obtain ⟨it', hnext, -⟩ := hnil it hat
      simp [result, hnext]
    | cons x xs =>
      have hx : xs = [] ∨ G x := by
        cases xs with
        | nil => exact .inl rfl
        | cons y ys => exact .inr (hgood x (by simp))
      obtain ⟨it', hnext, -⟩ := hcons it x xs hat hx
      simp [result, hnext]
  | succ k ih =>
    cases todo with
    | nil =>
      obtain ⟨it', hnext, hat'⟩ := hnil it hat
      simp only [result, hnext]
      simpa using ih hat' hgood
    | cons x xs =>
      have hx : xs = [] ∨ G x := by
        cases xs with
        | nil => exact .inl rfl
        | cons y ys => exact .inr (hgood x (by simp))
      obtain ⟨it', hnext, hat'⟩ := hcons it x xs hat hx
      simp only [result, hnext, List.getElem?_cons_succ]
      apply ih hat'
      intro y hy
      apply hgood
      cases xs with
      | nil => simp at hy
      | cons z zs => simp [hy]

/-! Scalar elements, unpacked. -/

def bodies (tag : BitVec 32) (rs : List Record) : List (List UInt8) :=
  (rs.filter fun r => r.tag = tag).map Record.body

/--
The iterator is at the end of a record, and `todo` is the data of the unpacked records that follow.
-/
def ScalarIter.AtUnpacked (index : Nat) (e : Elem) (it : ScalarIter) (todo : List (List UInt8))
    : Prop :=
  it.isPacked = false ∧ it.countRemaining = todo.length
    ∧ ∃ pre post, (∀ q ∈ post, Record.Valid q) ∧ it.src = Record.concat (pre ++ post)
        ∧ it.offset = (Record.concat pre).length ∧ todo = bodies (packTag index e.wireType) post

def Elem.decodeBody (e : Elem) (body : List UInt8) : Except Error e.Value :=
  (e.decode body).map Prod.fst

theorem Elem.decode_body {e : Elem} {index : Nat} {r : Record} (hr : r.Valid)
    (htag : r.tag = packTag index e.wireType)
    : ∃ v, e.decode r.body = .ok (v, r.body.length) := by
  have hne : e.wireType ≠ .sgroup := by
    rcases e.wireType_cases with hwt | hwt | hwt <;> simp [hwt]
  have hwt : WireType.ofNat? (r.tag.toNat % 8) = some e.wireType := by rw [htag, packTag_wireType]
  have hskip := hr.skip_body hwt []
  rw [List.append_nil, skipData_of_ne_sgroup hne] at hskip
  exact decode_of_skipFlat hskip

theorem nextUnpacked_spec {index : Nat} {e : Elem} {it : ScalarIter} {body : List UInt8}
    {todo : List (List UInt8)} (h : it.AtUnpacked index e (body :: todo))
    : ∃ it', nextScalar index e it = (e.decodeBody body, it') ∧ it'.AtUnpacked index e todo := by
  obtain ⟨hpacked, hcount, pre, post, hvalid, hsrc, hoffset, htodo⟩ := h
  have hfuel : (Record.concat post).length ≤ it.src.length := by
    rw [hsrc]
    simp
  have hscan := scanTag_concat (packTag index e.wireType) pre hvalid hfuel
  rw [← hsrc, ← hoffset] at hscan
  rcases hscan with ⟨hnone, -⟩ | ⟨skipped, r, rest, rfl, hskipped, hr, hscan⟩
  . have hnil : bodies (packTag index e.wireType) post = [] := by
      rw [bodies, List.map_eq_nil_iff, List.filter_eq_nil_iff]
      simpa using hnone
    simp [hnil] at htodo
  . have hfilter : skipped.filter (fun r => decide (r.tag = packTag index e.wireType)) = [] := by
      rw [List.filter_eq_nil_iff]
      simpa using hskipped
    simp only [bodies, List.filter_append, hfilter, List.nil_append, List.filter_cons, hr,
      decide_true, ↓reduceIte, List.map_cons, List.cons.injEq] at htodo
    obtain ⟨rfl, rfl⟩ := htodo
    have hrvalid := hvalid r (by simp)
    obtain ⟨v, hv⟩ := Elem.decode_body hrvalid hr
    have hdrop : it.src.drop ((Record.concat (pre ++ skipped)).length + r.head.length)
        = r.body ++ Record.concat rest := by
      rw [hsrc, ← List.append_assoc, ← List.drop_drop, Record.drop_concat, Record.concat_cons,
        Record.Valid.drop_head]
    have hne : it.countRemaining ≠ 0 := by
      rw [hcount]
      simp
    refine ⟨⟨it.src, (Record.concat (pre ++ skipped ++ [r])).length, it.blockEnd,
      it.countRemaining - 1, it.isPacked⟩, ?_, hpacked, ?_, pre ++ skipped ++ [r], rest, ?_, ?_,
      rfl, rfl⟩
    . unfold nextScalar nextUnpacked Elem.decodeBody
      simp only [hne, ↓reduceIte, hpacked, Bool.false_eq_true, hscan, hdrop,
        LawfulDecoder.append e.decode hv, hv, Except.map]
      simp [Nat.add_assoc]
    . simp [hcount]
    . intro q hq
      exact hvalid q (by simp [hq])
    . simp [hsrc]

theorem nextUnpacked_done {index : Nat} {e : Elem} {it : ScalarIter}
    (h : it.AtUnpacked index e [])
    : nextScalar index e it = (.ok 0, it) := by
  unfold nextScalar
  simp [h.2.1]

/-! Scalar elements, packed. -/

/--
What a packed iterator is to deliver: the rest of the block it is in, the blocks that follow, and
how many elements of them.
-/
structure PackedCursor where
  block : List UInt8
  todo : List (List UInt8)
  remaining : Nat

/--
Enter the next block that is not empty, if the last one has been left.
-/
def PackedCursor.refill (c : PackedCursor) : PackedCursor :=
  if c.block = [] then
    match c.todo.dropWhile (· = []) with
    | [] => { c with todo := [] }
    | block :: todo => { c with block, todo }
  else
    c

def PackedCursor.next (e : Elem) (c : PackedCursor) : Step PackedCursor e.Value :=
  if c.remaining = 0 then
    (.ok 0, c)
  else
    let c := c.refill
    if c.block = [] then
      (.error .truncated, c)
    else
      match e.decode c.block with
      | .error err => (.error err, c)
      | .ok (v, n) => (.ok v, { c with block := c.block.drop n, remaining := c.remaining - 1 })

/--
The iterator is in the block of the cursor, or at the end of a record if that is empty.
-/
def ScalarIter.AtPacked (index : Nat) (it : ScalarIter) (c : PackedCursor) : Prop :=
  it.isPacked = true ∧ it.countRemaining = c.remaining
    ∧ ∃ pre post, (∀ q ∈ post, Record.Valid q) ∧ it.src = Record.concat (pre ++ post)
        ∧ c.todo = contents (packTag index .lenPrefix) post
        ∧ it.offset + c.block.length = (Record.concat pre).length
        ∧ (c.block = [] → it.blockEnd ≤ it.offset)
        ∧ (c.block ≠ [] → it.blockEnd = (Record.concat pre).length
            ∧ (it.src.take it.blockEnd).drop it.offset = c.block)

theorem contents_cons_of_eq {tag : BitVec 32} {r : Record} (rs : List Record) (h : r.tag = tag)
    : contents tag (r :: rs) = r.content :: contents tag rs := by
  simp [contents, h]

theorem contents_cons_of_ne {tag : BitVec 32} {r : Record} (rs : List Record) (h : r.tag ≠ tag)
    : contents tag (r :: rs) = contents tag rs := by
  simp [contents, h]

theorem scanBlock_spec (index : Nat) {fuel : Nat} {it : ScalarIter} {pre post : List Record}
    (hvalid : ∀ q ∈ post, q.Valid) (hfuel : (Record.concat post).length ≤ fuel)
    (hpacked : it.isPacked = true) (hsrc : it.src = Record.concat (pre ++ post))
    (hoffset : it.offset = (Record.concat pre).length) (hend : it.blockEnd ≤ it.offset)
    : ∃ it', scanBlock (packTag index .lenPrefix) fuel it = (.ok (), it')
        ∧ it'.AtPacked index
            (PackedCursor.refill
              ⟨[], contents (packTag index .lenPrefix) post, it.countRemaining⟩) := by
  induction post generalizing fuel it pre with
  | nil =>
    refine ⟨it, ?_, hpacked, rfl, pre, [], by simp, hsrc, rfl, ?_, ?_, ?_⟩
    . have : ¬it.offset < it.src.length := by
        rw [hsrc, hoffset]
        simp
      cases fuel <;> simp [scanBlock, this]
    . simpa [PackedCursor.refill, contents] using hoffset
    . intro _
      exact hend
    . simp [PackedCursor.refill, contents]
  | cons r rs ih =>
    have hr := hvalid r (by simp)
    have hrs : ∀ q ∈ rs, q.Valid := fun q hq => hvalid q (by simp [hq])
    have hhead := List.length_pos_iff.mpr hr.head_ne_nil
    rw [Record.concat_cons, List.length_append, Record.length_bytes] at hfuel
    have hsrc' : it.src = Record.concat (pre ++ [r] ++ rs) := by
      rw [hsrc]
      simp
    have hlen : (Record.concat (pre ++ [r])).length
        = (Record.concat pre).length + r.head.length + r.body.length := by
      simp [Nat.add_assoc]
    cases fuel with
    | zero => omega
    | succ fuel =>
      -- The scan is at the record `r`, and reads its tag first.
      have hlt : it.offset < it.src.length := by
        rw [hsrc, hoffset]
        simp
        omega
      have hdrop : it.src.drop it.offset = r.bytes ++ Record.concat rs := by
        rw [hsrc, hoffset, Record.drop_concat, Record.concat_cons]
      have hdrop' : it.src.drop (it.offset + r.head.length) = r.body ++ Record.concat rs := by
        rw [← List.drop_drop, hdrop, Record.Valid.drop_head]
      unfold scanBlock
      simp only [hlt, ↓reduceIte, hdrop, hr.read_head, hdrop']
      -- A block of the field ends the scan unless it is empty. Any other record is skipped.
      by_cases htag : r.tag = packTag index .lenPrefix
      . obtain ⟨len, m, hread, hvalue, hcontent, hsum⟩ :=
          hr.exists_length (by rw [htag, packTag_lenPrefix])
        -- The length does not lead past the end of the source, since the record is valid.
        have hle : ¬len.toNat > it.src.length - (it.offset + r.head.length + m) := by
          rw [hsrc', hvalue, hoffset]
          simp only [Record.concat_append, List.length_append] at hlen ⊢
          omega
        have hblockEnd : it.offset + r.head.length + m + len.toNat
            = (Record.concat (pre ++ [r])).length := by
          rw [hlen, hoffset, hvalue]
          omega
        simp only [htag, ↓reduceIte, LawfulDecoder.append varintDecode hread, hle]
        rw [contents_cons_of_eq _ htag]
        by_cases hempty : r.content = []
        . have hzero : len.toNat = 0 := by
            rw [hvalue, hempty]
            rfl
          have hnot : ¬it.offset + r.head.length + m + len.toNat > it.offset + r.head.length + m := by
            omega
          simp only [hnot, ↓reduceIte]
          have hrefill (rem : Nat)
              : PackedCursor.refill ⟨[], r.content :: contents (packTag index .lenPrefix) rs, rem⟩
                  =
                PackedCursor.refill ⟨[], contents (packTag index .lenPrefix) rs, rem⟩ := by
            simp [PackedCursor.refill, hempty]
          rw [hrefill]
          exact ih hrs (by omega) hpacked hsrc' (by dsimp only; omega)
            (by dsimp only; omega)
        . have hpos := List.length_pos_iff.mpr hempty
          have hyes : it.offset + r.head.length + m + len.toNat > it.offset + r.head.length + m := by
            omega
          simp only [hyes, ↓reduceIte]
          have hrefill (rem : Nat)
              : PackedCursor.refill ⟨[], r.content :: contents (packTag index .lenPrefix) rs, rem⟩
                  =
                ⟨r.content, contents (packTag index .lenPrefix) rs, rem⟩ := by
            simp [PackedCursor.refill, hempty]
          rw [hrefill]
          refine ⟨_, rfl, hpacked, rfl, pre ++ [r], rs, hrs, hsrc', rfl, ?_, ?_, ?_⟩
          . dsimp only
            omega
          . intro hnil
            exact absurd hnil hempty
          . intro _
            refine ⟨hblockEnd, ?_⟩
            dsimp only
            rw [List.drop_take, ← List.drop_drop, hdrop', List.drop_append_of_le_length (by omega),
              hcontent, Nat.add_sub_cancel_left, hvalue, List.take_left]
      . obtain ⟨wt, hwt, -⟩ := hr.body
        simp only [htag, ↓reduceIte, hwt, hr.skip_body hwt]
        rw [contents_cons_of_ne _ htag]
        exact ih hrs (by omega) hpacked hsrc' (by dsimp only; omega)
          (by dsimp only; omega)

theorem PackedCursor.refill_of_block {c : PackedCursor} (h : c.block ≠ []) : c.refill = c := by
  simp [refill, h]

theorem PackedCursor.refill_remaining (c : PackedCursor) : c.refill.remaining = c.remaining := by
  unfold refill
  split
  . split <;> rfl
  . rfl

theorem nextInBlock_spec {index : Nat} {e : Elem} {it : ScalarIter} {c : PackedCursor}
    (h : it.AtPacked index c) (hblock : c.block ≠ []) (hne : c.remaining ≠ 0)
    : (nextInBlock e it).1 = (c.next e).1 ∧ (nextInBlock e it).2.AtPacked index (c.next e).2 := by
  have hat := h
  obtain ⟨hpacked, hcount, pre, post, hvalid, hsrc, htodo, hoffset, -, hin⟩ := h
  obtain ⟨hend, hbytes⟩ := hin hblock
  have hpos := List.length_pos_iff.mpr hblock
  unfold nextInBlock PackedCursor.next
  simp only [hne, ↓reduceIte, PackedCursor.refill_of_block hblock, hblock, hbytes]
  cases hdecode : e.decode c.block with
  | error err => exact ⟨rfl, hat⟩
  | ok res =>
    obtain ⟨v, n⟩ := res
    have hn := LawfulDecoder.consumed_le hdecode
    refine ⟨rfl, hpacked, ?_, pre, post, hvalid, hsrc, htodo, ?_, ?_, ?_⟩
    . simp [hcount]
    . dsimp only
      rw [List.length_drop]
      omega
    . dsimp only
      intro hnil
      have hlen := congrArg List.length hnil
      rw [List.length_drop, List.length_nil] at hlen
      have hge : it.offset + n ≥ it.blockEnd := by omega
      simp [hge]
    . dsimp only
      intro hcons
      have hlen := List.length_pos_iff.mpr hcons
      rw [List.length_drop] at hlen
      have hlt : ¬it.offset + n ≥ it.blockEnd := by omega
      simp only [hlt, ↓reduceIte]
      refine ⟨hend, ?_⟩
      rw [← List.drop_drop, hbytes]

theorem nextPacked_spec {index : Nat} {e : Elem} {it : ScalarIter} {c : PackedCursor}
    (h : it.AtPacked index c)
    : (nextScalar index e it).1 = (c.next e).1
        ∧ (nextScalar index e it).2.AtPacked index (c.next e).2 := by
  by_cases hzero : c.remaining = 0
  . have hcount : it.countRemaining = 0 := by rw [h.2.1, hzero]
    unfold nextScalar PackedCursor.next
    simp only [hcount, hzero, ↓reduceIte]
    exact ⟨trivial, h⟩
  . have hcount : it.countRemaining ≠ 0 := by rwa [h.2.1]
    unfold nextScalar
    simp only [hcount, ↓reduceIte, h.1]
    unfold nextPacked
    by_cases hblock : c.block = []
    . -- The block is used up, so the next one with elements is searched for.
      obtain ⟨hpacked, hrem, pre, post, hvalid, hsrc, htodo, hoffset, hend, -⟩ := h
      rw [hblock, List.length_nil, Nat.add_zero] at hoffset
      have hfuel : (Record.concat post).length ≤ it.src.length := by
        rw [hsrc]
        simp
      obtain ⟨it', hscan, hat⟩ :=
        scanBlock_spec index hvalid hfuel hpacked hsrc hoffset (hend hblock)
      have hrefill : PackedCursor.refill
          ⟨[], contents (packTag index .lenPrefix) post, it.countRemaining⟩ = c.refill := by
        rw [← htodo, hrem, ← hblock]
      rw [hrefill] at hat
      have hrem' : c.refill.remaining ≠ 0 := by
        rwa [PackedCursor.refill_remaining]
      simp only [hend hblock, ↓reduceIte, hscan]
      by_cases hnone : c.refill.block = []
      . have hle : it'.blockEnd ≤ it'.offset := hat.2.2.choose_spec.choose_spec.2.2.2.2.1 hnone
        unfold PackedCursor.next
        simp only [hle, ↓reduceIte, hzero, hnone]
        exact ⟨trivial, hat⟩
      . have hlt : ¬it'.blockEnd ≤ it'.offset := by
          obtain ⟨-, -, pre', post', -, -, -, hoffset', -, hin⟩ := hat
          have := List.length_pos_iff.mpr hnone
          have := (hin hnone).1
          omega
        have hnext : c.refill.next e = c.next e := by
          unfold PackedCursor.next
          simp only [hrem', hzero, ↓reduceIte, PackedCursor.refill_of_block hnone]
        simp only [hlt, ↓reduceIte]
        rw [← hnext]
        exact nextInBlock_spec hat hnone hrem'
    . have hlt : ¬it.blockEnd ≤ it.offset := by
        obtain ⟨-, -, pre, post, -, -, -, hoffset, -, hin⟩ := h
        have := List.length_pos_iff.mpr hblock
        have := (hin hblock).1
        omega
      simp only [hlt, ↓reduceIte]
      exact nextInBlock_spec h hblock hzero

theorem result_congr {σ τ α : Type} {next : σ → Step σ α} {next' : τ → Step τ α}
    {R : σ → τ → Prop}
    (hstep : ∀ it c, R it c → (next it).1 = (next' c).1 ∧ R (next it).2 (next' c).2) {it : σ}
    {c : τ} (h : R it c) (k : Nat)
    : result next k it = result next' k c := by
  induction k generalizing it c with
  | zero => exact (hstep it c h).1
  | succ k ih => exact ih (hstep it c h).2

end Gremlin
