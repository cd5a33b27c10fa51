import Gremlin.Reader.Unknown

/-!
This module contains where the iterators over spans stand after every call: behind the tag of the
next record of their field, and behind the last record once there is no other.
-/

namespace Gremlin

open Codec

/--
The state after `k` calls of `next`.
-/
def after {σ α : Type} (next : σ → Step σ α) : (k : Nat) → σ → σ
  | 0, it => it
  | k + 1, it => after next k (next it).2

section After

variable {σ α : Type} (next : σ → Step σ α)

theorem after_succ (k : Nat) (it : σ) : after next (k + 1) it = (next (after next k it)).2 := by
  induction k generalizing it with
  | zero => rfl
  | succ k ih => exact ih (next it).2

theorem result_eq_after (k : Nat) (it : σ) : result next k it = (next (after next k it)).1 := by
  induction k generalizing it with
  | zero => rfl
  | succ k ih => exact ih (next it).2

end After

/--
The members of a field whose elements are spans. Other fields have no such members.
-/
def Family.spans : (f : Family) → f.State → RepState
  | .repBytes, st => st
  | .repMsg _, st => st
  | .map _ _, st => st
  | .scalar _ _, _ => ⟨0, 0⟩
  | .bytes _, _ => ⟨0, 0⟩
  | .msgRef _, _ => ⟨0, 0⟩
  | .repScalar _ _, _ => ⟨0, 0⟩

/--
The iterator that `begin` returns for a field whose elements are spans.
-/
def Reader.iter {S : Schema} {t : MsgId} (r : Reader S t) (i : Fin (S t).length) : Iter :=
  Iter.begin r.src ((S.field t i).family.spans (r.fields i))

section Iterates

variable (M : BitVec 32 → Bool)

/--
The records with a tag that the arm of a field takes.
-/
def mine (rs : List Record) : List Record :=
  rs.filter fun r => M r.tag

/--
The iterator behind the tag of a record, with this and the later records of the field to come.
-/
def Iter.behind (pre : List Record) (q : Record) (post : List Record) : Iter where
  src := Record.concat (pre ++ q :: post)
  offset := (Record.concat pre).length + q.head.length
  countRemaining := (mine M (q :: post)).length

def Iter.endOf (pre : List Record) (q : Record) (post : List Record) : Iter where
  src := Record.concat (pre ++ q :: post)
  offset := (Record.concat (pre ++ [q])).length
  countRemaining := (mine M post).length

/--
The calls of `next` deliver what the records of a field contain, one after the other. Before the
call for a record the cursor is behind its tag, and after the last call at its end.
-/
structure Iterates {α : Type} (next : Iter → Step Iter α) (deliver : List UInt8 → Except Error α)
    (rs : List Record) (it : Iter) : Prop where
  count : it.countRemaining = (mine M rs).length
  results : ∀ k (hk : k < (mine M rs).length),
    result next k it = deliver ((mine M rs).get ⟨k, hk⟩).content
  cursor : ∀ pre q post, rs = pre ++ q :: post → M q.tag = true →
    after next (mine M pre).length it = Iter.behind M pre q post
  last : ∀ pre q post, rs = pre ++ q :: post → M q.tag = true → mine M post = [] →
    after next (mine M rs).length it = Iter.endOf M pre q post

/--
The elements at the cursors are spans of the input that end with their records.
-/
def Enclosed (rs : List Record) : Prop :=
  ∀ pre q post, rs = pre ++ q :: post → M q.tag = true →
    ∃ start, (Iter.behind M pre q post).element = (.ok q.content, Iter.endOf M pre q post)
      ∧ start + q.content.length = (Iter.endOf M pre q post).offset
      ∧ (Iter.endOf M pre q post).offset ≤ (Record.concat rs).length
      ∧ q.content = ((Record.concat rs).drop start).take q.content.length

/--
A call decodes the element at the cursor and then moves to the next tag where `moves` says so.
-/
def Calls {α : Type} (tag : BitVec 32) (next : Iter → Step Iter α)
    (deliver : List UInt8 → Except Error α) (moves : List UInt8 → Bool) : Prop :=
  ∀ it bytes it' it'', it.countRemaining ≠ 0 → it.element = (.ok bytes, it') →
    it'.advance tag = (.ok (), it'') →
      next it = (deliver bytes, if moves bytes then it'' else it')

end Iterates

theorem calls_nextBytes (index : Nat)
    : Calls (packTag index .lenPrefix) (nextBytes index) .ok fun _ => true := by
  intro it bytes it' it'' hcount helement hadvance
  unfold nextBytes
  simp only [hcount, ↓reduceIte, helement, hadvance]

theorem calls_nextMessage (S : Schema) (index : Nat) (target : MsgId)
    : Calls (packTag index .lenPrefix) (nextMessage S index target) (readerInit S target)
        fun _ => true := by
  intro it bytes it' it'' hcount helement hadvance
  unfold nextMessage
  simp only [hcount, ↓reduceIte, helement, hadvance]

/--
The iterator of a map stays where it is after an entry that cannot be decoded.
-/
theorem calls_nextEntry (S : Schema) (index : Nat) (key : Slot) (value : MapValue)
    : Calls (packTag index .lenPrefix) (nextEntry S index key value) (decodeEntry S key value)
        fun bytes => (decodeEntry S key value bytes).isOk := by
  intro it bytes it' it'' hcount helement hadvance
  unfold nextEntry
  simp only [hcount, ↓reduceIte, helement]
  have hcases : (∃ e, decodeEntry S key value bytes = .error e)
      ∨ ∃ out, decodeEntry S key value bytes = .ok out := by
    cases decodeEntry S key value bytes <;> simp
  rcases hcases with ⟨e, hdecode⟩ | ⟨out, hdecode⟩
  . simp [hdecode, Except.isOk, Except.toBool]
  . simp [hdecode, hadvance, Except.isOk, Except.toBool]

section Run

variable {M : BitVec 32 → Bool} {index : Nat} {α : Type} {next : Iter → Step Iter α}
  {deliver : List UInt8 → Except Error α} {moves : List UInt8 → Bool} {rs pre post : List Record}
  {q : Record}

theorem mine_cons (h : M q.tag = true) (rs : List Record) : mine M (q :: rs) = q :: mine M rs := by
  simp [mine, h]

theorem mine_append (rs rs' : List Record) : mine M (rs ++ rs') = mine M rs ++ mine M rs' :=
  List.filter_append ..

theorem tag_ne_of_mine (hM : ∀ tag, M tag = true → tag = packTag index .lenPrefix) (hq : M q.tag = true)
    {skipped : List Record} (hskipped : mine M skipped = [])
    : ∀ r ∈ skipped, r.tag ≠ packTag index .lenPrefix := by
  intro r hr htag
  apply List.filter_eq_nil_iff.mp hskipped r hr
  rw [htag, ← hM q.tag hq]
  exact hq

theorem element_behind (hvalid : ∀ r ∈ pre ++ q :: post, r.Valid)
    (hM : ∀ tag, M tag = true → tag = packTag index .lenPrefix) (hq : M q.tag = true)
    : (Iter.behind M pre q post).element = (.ok q.content, Iter.endOf M pre q post) := by
  have hwt : WireType.ofNat? (q.tag.toNat % 8) = some .lenPrefix := by rw [hM q.tag hq, packTag_lenPrefix]
  unfold Iter.behind Iter.endOf
  rw [Iter.element_concat (hvalid q (by simp)) hwt, mine_cons hq]
  rfl

theorem next_behind (hcalls : Calls (packTag index .lenPrefix) next deliver moves)
    (hM : ∀ tag, M tag = true → tag = packTag index .lenPrefix) {skipped : List Record} {q' : Record}
    (hvalid : ∀ r ∈ pre ++ q :: (skipped ++ q' :: post), r.Valid) (hq : M q.tag = true)
    (hskipped : mine M skipped = []) (hq' : M q'.tag = true)
    : next (Iter.behind M pre q (skipped ++ q' :: post))
        =
      (deliver q.content,
        if moves q.content then
          Iter.behind M (pre ++ q :: skipped) q' post
        else
          Iter.endOf M pre q (skipped ++ q' :: post)) := by
  apply hcalls
  . simp [Iter.behind, mine_cons hq]
  . exact element_behind hvalid hM hq
  . have htail : ∀ r ∈ skipped ++ q' :: post, r.Valid := by
      intro r hr
      exact hvalid r (by simp only [List.mem_append, List.mem_cons] at hr ⊢; tauto)
    have hcount : (mine M (skipped ++ q' :: post)).length ≠ 0 := by
      rw [mine_append, mine_cons hq']
      simp
    have hadvance := Iter.advance_concat (pre ++ [q]) htail (tag_ne_of_mine hM hq hskipped)
      (hM q'.tag hq') hcount
    unfold Iter.endOf Iter.behind
    rw [mine_append, hskipped, List.nil_append] at hadvance ⊢
    simpa using hadvance

theorem next_behind_last (hcalls : Calls (packTag index .lenPrefix) next deliver moves)
    (hM : ∀ tag, M tag = true → tag = packTag index .lenPrefix)
    (hvalid : ∀ r ∈ pre ++ q :: post, r.Valid) (hq : M q.tag = true) (hpost : mine M post = [])
    : next (Iter.behind M pre q post) = (deliver q.content, Iter.endOf M pre q post) := by
  have hzero : (Iter.endOf M pre q post).countRemaining = 0 := by
    rw [Iter.endOf, hpost]
    rfl
  have hcount : (Iter.behind M pre q post).countRemaining ≠ 0 := by
    simp [Iter.behind, mine_cons hq]
  have hnext := hcalls _ _ _ _ hcount (element_behind hvalid hM hq) (Iter.advance_zero _ hzero)
  rwa [ite_self] at hnext

theorem begin_behind (hpre : mine M pre = []) (hq : M q.tag = true)
    : Iter.begin (Record.concat (pre ++ q :: post)) (repFold M 0 ⟨0, 0⟩ (pre ++ q :: post))
        =
      Iter.behind M pre q post := by
  obtain ⟨hcount, hfirst⟩ := repFold_initial (M := M) 0 0 (pre ++ q :: post)
  have hmine : (pre ++ q :: post).filter (fun r => M r.tag) = q :: mine M post := by
    have := mine_append (M := M) pre (q :: post)
    rwa [hpre, mine_cons hq] at this
  obtain ⟨pre', q', post', heq, hpre', hq', hoffset⟩ := hfirst (by simp [hmine])
  obtain ⟨rfl, rfl, rfl⟩ := first_unique (p := fun r => M r.tag = true) heq
    (fun r hr => List.filter_eq_nil_iff.mp hpre r hr) (fun r hr => by simp [hpre' r hr]) hq hq'
  have hne : (repFold M 0 ⟨0, 0⟩ (pre ++ q :: post)).count ≠ 0 := by
    rw [hcount, hmine]
    simp
  unfold Iter.begin Iter.behind
  rw [if_neg hne, hoffset, hcount, hmine, mine_cons hq, Nat.zero_add]

/--
A record of the field is the first one, or follows another one of the field.
-/
theorem mine_cases (pre : List Record)
    : mine M pre = []
        ∨ ∃ pre' q skipped, pre = pre' ++ q :: skipped ∧ M q.tag = true ∧ mine M skipped = [] := by
  induction pre with
  | nil => exact .inl rfl
  | cons r pre ih =>
    rcases ih with hnil | ⟨pre', q, skipped, rfl, hq, hskipped⟩
    . by_cases hr : M r.tag = true
      . exact .inr ⟨[], r, pre, rfl, hr, hnil⟩
      . refine .inl ?_
        simpa [mine, hr] using hnil
    . exact .inr ⟨r :: pre', q, skipped, rfl, hq, hskipped⟩

/--
As long as the calls move on, the cursor is behind the tag of the record that is next.
-/
theorem after_eq_behind (hcalls : Calls (packTag index .lenPrefix) next deliver moves)
    (hM : ∀ tag, M tag = true → tag = packTag index .lenPrefix) (hvalid : ∀ r ∈ rs, r.Valid)
    (heq : rs = pre ++ q :: post) (hq : M q.tag = true) (hmoves : ∀ r ∈ mine M pre, moves r.content = true)
    : after next (mine M pre).length (Iter.begin (Record.concat rs) (repFold M 0 ⟨0, 0⟩ rs))
        =
      Iter.behind M pre q post := by
  generalize hk : (mine M pre).length = k
  induction k generalizing pre q post with
  | zero =>
    subst heq
    exact begin_behind (List.eq_nil_of_length_eq_zero hk) hq
  | succ k ih =>
    rcases mine_cases (M := M) pre with hnil | ⟨pre', q', skipped, rfl, hq', hskipped⟩
    . rw [hnil] at hk
      simp at hk
    . -- the record before is the one of the call before
      rw [mine_append, mine_cons hq', hskipped] at hk hmoves
      have hsplit : rs = pre' ++ q' :: (skipped ++ q :: post) := by
        rw [heq]
        simp
      have hprevious := ih hsplit hq' (fun r hr => hmoves r (by simp [hr])) (by simpa using hk)
      rw [hsplit] at hvalid
      rw [after_succ, hprevious, next_behind hcalls hM hvalid hq' hskipped hq, hmoves q' (by simp)]
      rfl

theorem mine_mem_dropLast {r : Record} (h : r ∈ (mine M rs).dropLast)
    : ∃ pre skipped q' post, rs = pre ++ r :: (skipped ++ q' :: post) ∧ M r.tag = true
        ∧ mine M skipped = [] ∧ M q'.tag = true := by
  obtain ⟨as, bs, hsplit⟩ := List.append_of_mem h
  have hne : mine M rs ≠ [] := by
    intro hnil
    rw [hnil] at h
    simp at h
  have hall := List.dropLast_append_getLast hne
  rw [hsplit, List.append_assoc, List.cons_append] at hall
  obtain ⟨pre, rest, rfl, -, hrest⟩ := List.filter_eq_append_iff.mp hall.symm
  obtain ⟨before, tail, rfl, hbefore, hr, htail⟩ := List.filter_eq_cons_iff.mp hrest
  cases hmine : bs ++ [(mine M (pre ++ (before ++ r :: tail))).getLast hne] with
  | nil => simp at hmine
  | cons q' more =>
    rw [hmine] at htail
    obtain ⟨skipped, post, rfl, hskipped, hq', -⟩ := List.filter_eq_cons_iff.mp htail
    refine ⟨pre ++ before, skipped, q', post, by simp, hr, ?_, hq'⟩
    exact List.filter_eq_nil_iff.mpr hskipped

/--
The iterator goes from record to record exactly if every call but the last moves on.
-/
theorem iterates_iff (hcalls : Calls (packTag index .lenPrefix) next deliver moves)
    (hM : ∀ tag, M tag = true → tag = packTag index .lenPrefix) (hvalid : ∀ r ∈ rs, r.Valid)
    : Iterates M next deliver rs (Iter.begin (Record.concat rs) (repFold M 0 ⟨0, 0⟩ rs))
        ↔
      ∀ r ∈ (mine M rs).dropLast, moves r.content = true := by
  constructor
  . intro h r hr
    obtain ⟨pre, skipped, q', post, rfl, hq, hskipped, hq'⟩ := mine_mem_dropLast hr
    have hhere := h.cursor pre r _ rfl hq
    have hthere := h.cursor (pre ++ r :: skipped) q' post (by simp) hq'
    have hcount : (mine M (pre ++ r :: skipped)).length = (mine M pre).length + 1 := by
      rw [mine_append, mine_cons hq, hskipped]
      simp
    rw [hcount, after_succ, hhere, next_behind hcalls hM hvalid hq hskipped hq'] at hthere
    -- An iterator that stays would be both behind `r` and behind the next record of the field.
    by_contra hstays
    simp only [hstays, ↓reduceIte] at hthere
    have hoffset := congrArg Iter.offset hthere
    have hhead := List.length_pos_iff.mpr (hvalid q' (by simp)).head_ne_nil
    simp only [Iter.endOf, Iter.behind, Record.concat_append, Record.concat_cons, Record.concat_nil,
      List.length_append, List.length_nil] at hoffset
    omega
  . -- Where all the contents but the last one move the iterator, it is behind a record after as many calls
    -- as there are records of the field before it.
    intro hmoves
    have hbefore {pre post : List Record} {q : Record} (heq : rs = pre ++ q :: post) (hq : M q.tag = true)
        : ∀ r ∈ mine M pre, moves r.content = true := by
      intro r hr
      apply hmoves
      rw [heq, mine_append, mine_cons hq, List.dropLast_append_of_ne_nil (by simp)]
      exact List.mem_append_left _ hr
    have hcursor {pre post : List Record} {q : Record} (heq : rs = pre ++ q :: post) (hq : M q.tag = true) :=
      after_eq_behind hcalls hM hvalid heq hq (hbefore heq hq)
    have hlast {pre post : List Record} {q : Record} (heq : rs = pre ++ q :: post) (hq : M q.tag = true)
        : (next (Iter.behind M pre q post)).1 = deliver q.content := by
      subst heq
      cases hpost : mine M post with
      | nil => rw [next_behind_last hcalls hM hvalid hq hpost]
      | cons q' more =>
        obtain ⟨skipped, rest, rfl, hskipped, hq', -⟩ := List.filter_eq_cons_iff.mp hpost
        rw [next_behind hcalls hM hvalid hq (List.filter_eq_nil_iff.mpr hskipped) hq']
    refine ⟨?_, ?_, fun pre q post heq hq => hcursor heq hq, ?_⟩
    . cases hmine : mine M rs with
      | nil =>
        have hzero : (repFold M 0 ⟨0, 0⟩ rs).count = 0 := by
          rw [(repFold_initial (M := M) 0 0 rs).1]
          exact congrArg List.length hmine
        simp [Iter.begin, hzero]
      | cons q more =>
        obtain ⟨pre, post, rfl, hpre, hq, hmore⟩ := List.filter_eq_cons_iff.mp hmine
        rw [begin_behind (List.filter_eq_nil_iff.mpr hpre) hq, Iter.behind, mine_cons hq, ← hmore]
        rfl
    . intro k hk
      have hsplit : mine M rs = (mine M rs).take k ++ (mine M rs).get ⟨k, hk⟩ :: (mine M rs).drop (k + 1) := by
        rw [List.get_eq_getElem, List.getElem_cons_drop, List.take_append_drop]
      obtain ⟨front, back, heq, hfront, hback⟩ := List.filter_eq_append_iff.mp hsplit
      obtain ⟨skipped, post, rfl, hskipped, hq, -⟩ := List.filter_eq_cons_iff.mp hback
      have hcount : (mine M (front ++ skipped)).length = k := by
        have hnil : mine M skipped = [] := List.filter_eq_nil_iff.mpr hskipped
        have hmine : mine M front = (mine M rs).take k := hfront
        rw [mine_append, hnil, hmine, List.append_nil, List.length_take]
        omega
      have hplace : rs = front ++ skipped ++ (mine M rs).get ⟨k, hk⟩ :: post := by
        rw [List.append_assoc]
        exact heq
      have hbehind := hcursor hplace hq
      rw [hcount] at hbehind
      rw [result_eq_after, hbehind, hlast hplace hq]
    . intro pre q post heq hq hpost
      have hcount : (mine M rs).length = (mine M pre).length + 1 := by
        rw [heq, mine_append, mine_cons hq, hpost]
        simp
      rw [hcount, after_succ, hcursor heq hq]
      subst heq
      rw [next_behind_last hcalls hM hvalid hq hpost]

theorem inside_of_valid (hM : ∀ tag, M tag = true → tag = packTag index .lenPrefix)
    (hvalid : ∀ r ∈ rs, r.Valid)
    : Enclosed M rs := by
  rintro pre q post rfl hq
  have hr := hvalid q (by simp)
  obtain ⟨len, m, -, -, hcontent, hlength⟩ := hr.exists_length (by rw [hM q.tag hq, packTag_lenPrefix])
  refine ⟨(Record.concat pre).length + q.head.length + m, element_behind hvalid hM hq, ?_, ?_, ?_⟩
  . simp only [Iter.endOf, Record.concat_append, Record.concat_cons, Record.concat_nil, List.length_append,
      List.append_nil, Record.length_bytes]
    omega
  . simp only [Iter.endOf, Record.concat_append, Record.concat_cons, Record.concat_nil, List.length_append,
      List.append_nil]
    omega
  . have hdrop : (Record.concat (pre ++ q :: post)).drop ((Record.concat pre).length + q.head.length)
        = q.body ++ Record.concat post := by
      rw [← List.drop_drop, Record.drop_concat, Record.concat_cons, Record.Valid.drop_head]
    rw [← List.drop_drop, hdrop, List.drop_append_of_le_length (by omega), hcontent, List.take_left]

theorem Field.spans_fold {f : Field} (hM : ∀ tag, M tag = true → f.hasTag tag = true)
    (hvalid : ∀ r ∈ rs, r.Valid) {st : f.family.State}
    (h : f.fold (fun r => M r.tag) 0 f.family.initial rs = .ok st)
    (hfamily : f.family = .repBytes ∨ (∃ target, f.family = .repMsg target)
      ∨ ∃ key value, f.family = .map key value)
    : f.family.spans st = repFold M 0 ⟨0, 0⟩ rs ∧ ∀ tag, M tag = true → tag = packTag f.index .lenPrefix := by
  obtain ⟨index, family⟩ := f
  dsimp only at hfamily
  rcases hfamily with rfl | ⟨target, rfl⟩ | ⟨key, value, rfl⟩
  . have hM : ∀ tag, M tag = true → tag = packTag index .lenPrefix := by simpa [Field.hasTag] using hM
    rw [fold_repBytes hM hvalid, Except.ok.injEq] at h
    exact ⟨h.symm, hM⟩
  . have hM : ∀ tag, M tag = true → tag = packTag index .lenPrefix := by simpa [Field.hasTag] using hM
    rw [fold_repMsg hM hvalid, Except.ok.injEq] at h
    exact ⟨h.symm, hM⟩
  . have hM : ∀ tag, M tag = true → tag = packTag index .lenPrefix := by simpa [Field.hasTag] using hM
    rw [fold_map hM hvalid, Except.ok.injEq] at h
    exact ⟨h.symm, hM⟩

end Run

section Reader

variable {S : Schema} {t : MsgId}

theorem Reader.spans_eq {rs : List Record} (hvalid : ∀ q ∈ rs, q.Valid) {r : Reader S t}
    (h : readerInit S t (Record.concat rs) = .ok r) (i : Fin (S t).length)
    (hfamily : (S.field t i).family = .repBytes ∨ (∃ target, (S.field t i).family = .repMsg target)
      ∨ ∃ key value, (S.field t i).family = .map key value)
    : (S.field t i).family.spans (r.fields i) = repFold (taken S t i) 0 ⟨0, 0⟩ rs
        ∧ r.iter i = Iter.begin (Record.concat rs) (repFold (taken S t i) 0 ⟨0, 0⟩ rs)
        ∧ ∀ tag, taken S t i tag = true → tag = packTag (S.field t i).index .lenPrefix := by
  have hfields := (readerInit_eq_ok_iff hvalid).mp h
  obtain ⟨hspans, htag⟩ := Field.spans_fold (fun _ => hasTag_of_taken) hvalid (hfields.2.2 i) hfamily
  exact ⟨hspans, by rw [Reader.iter, hspans, hfields.1], htag⟩

/--
What the iterator over a repeated field of byte strings or messages goes through: as many spans as
the reader has counted, which lie inside the input, in the order of the records of the field. A call
for a message fails only where the reader of the element cannot be initialised.
-/
structure SpansComplete (r : Reader S t) (rs : List Record) (i : Fin (S t).length) : Prop where
  bytes : (S.field t i).family = .repBytes →
    ((S.field t i).family.spans (r.fields i)).count = (mine (taken S t i) rs).length
      ∧ Iterates (taken S t i) (nextBytes (S.field t i).index) .ok rs (r.iter i)
      ∧ Enclosed (taken S t i) rs
  messages : ∀ target, (S.field t i).family = .repMsg target →
    ((S.field t i).family.spans (r.fields i)).count = (mine (taken S t i) rs).length
      ∧ Iterates (taken S t i) (nextMessage S (S.field t i).index target) (readerInit S target) rs
          (r.iter i)
      ∧ Enclosed (taken S t i) rs

/--
The span iterators of an accepted input are complete.
-/
theorem spans_complete {src : List UInt8} {r : Reader S t} (h : readerInit S t src = .ok r)
    : (∃ rs, (∀ q ∈ rs, Record.Valid q) ∧ src = Record.concat rs)
        ∧ ∀ rs, (∀ q ∈ rs, Record.Valid q) → src = Record.concat rs → ∀ i, SpansComplete r rs i := by
  refine ⟨exists_records_of_readerInit h, ?_⟩
  rintro rs hvalid rfl i
  constructor
  . intro hfamily
    obtain ⟨hspans, hiter, htag⟩ := Reader.spans_eq hvalid h i (.inl hfamily)
    refine ⟨?_, ?_, inside_of_valid htag hvalid⟩
    . rw [hspans, (repFold_initial (M := taken S t i) 0 0 rs).1]
      rfl
    . rw [hiter, iterates_iff (calls_nextBytes _) htag hvalid]
      intro _ _
      rfl
  . intro target hfamily
    obtain ⟨hspans, hiter, htag⟩ := Reader.spans_eq hvalid h i (.inr (.inl ⟨target, hfamily⟩))
    refine ⟨?_, ?_, inside_of_valid htag hvalid⟩
    . rw [hspans, (repFold_initial (M := taken S t i) 0 0 rs).1]
      rfl
    . rw [hiter, iterates_iff (calls_nextMessage S _ target) htag hvalid]
      intro _ _
      rfl

/--
The iterator of a map goes through the entries as long as they can be decoded, and no further.
-/
theorem entries_iterate_iff {rs : List Record} (hvalid : ∀ q ∈ rs, q.Valid) {r : Reader S t}
    (h : readerInit S t (Record.concat rs) = .ok r) {i : Fin (S t).length} {key : Slot} {value : MapValue}
    (hfamily : (S.field t i).family = .map key value)
    : Iterates (taken S t i) (nextEntry S (S.field t i).index key value) (decodeEntry S key value) rs
          (r.iter i)
        ↔
      ∀ q ∈ (mine (taken S t i) rs).dropLast, ∃ out, decodeEntry S key value q.content = .ok out := by
  obtain ⟨-, hiter, htag⟩ := Reader.spans_eq hvalid h i (.inr (.inr ⟨key, value, hfamily⟩))
  have hok {x : Except Error (key.Value × value.Out S)} : x.isOk = true ↔ ∃ out, x = .ok out := by
    cases x <;> simp [Except.isOk, Except.toBool]
  rw [hiter, iterates_iff (calls_nextEntry S _ key value) htag hvalid]
  simp only [hok]

end Reader

/--
A message with repeated byte strings and repeated messages.
-/
def spanSchema : Schema :=
  fun _ => [⟨1, .repBytes⟩, ⟨2, .repMsg 0⟩]

/--
Two byte strings and two messages, the first of which is none, and an unknown number between them.
-/
def spanRecords : List Record :=
  [⟨packTag 1 .lenPrefix, [0x0A], [1, 7]⟩, ⟨packTag 2 .lenPrefix, [0x12], [1, 8]⟩, ⟨packTag 9 .varint, [0x48], [5]⟩,
    ⟨packTag 1 .lenPrefix, [0x0A], [0]⟩, ⟨packTag 2 .lenPrefix, [0x12], [0]⟩]

theorem exists_spanReader : ∃ r, readerInit spanSchema 0 (Record.concat spanRecords) = .ok r := by
  have hok : (readerInit spanSchema 0 (Record.concat spanRecords)).isOk = true := by decide +kernel
  cases hinit : readerInit spanSchema 0 (Record.concat spanRecords) with
  | ok r => exact ⟨r, rfl⟩
  | error err => simp [hinit, Except.isOk, Except.toBool] at hok

theorem spanRecords_valid : ∀ q ∈ spanRecords, q.Valid := by
  intro q hq
  simp only [spanRecords, List.mem_cons, List.not_mem_nil, or_false] at hq
  rcases hq with rfl | rfl | rfl | rfl | rfl
  . exact ⟨by decide +kernel, .lenPrefix, by decide +kernel, by decide +kernel⟩
  . exact ⟨by decide +kernel, .lenPrefix, by decide +kernel, by decide +kernel⟩
  . exact ⟨by decide +kernel, .varint, by decide +kernel, by decide +kernel⟩
  . exact ⟨by decide +kernel, .lenPrefix, by decide +kernel, by decide +kernel⟩
  . exact ⟨by decide +kernel, .lenPrefix, by decide +kernel, by decide +kernel⟩

/--
The byte strings are delivered, and the message behind the one that is none.
-/
theorem spanRecords_complete
    : ∃ r, readerInit spanSchema 0 (Record.concat spanRecords) = .ok r
        ∧ (∀ i, SpansComplete r spanRecords i)
        ∧ (Family.repBytes.spans (r.fields ⟨0, by decide⟩)).count = 2
        ∧ (result (nextBytes 1) 0 (r.iter ⟨0, by decide⟩)).toOption = some [7]
        ∧ (result (nextBytes 1) 1 (r.iter ⟨0, by decide⟩)).toOption = some []
        ∧ ((Family.repMsg 0).spans (r.fields ⟨1, by decide⟩)).count = 2
        ∧ (result (nextMessage spanSchema 2 0) 0 (r.iter ⟨1, by decide⟩)).isOk = false
        ∧ (result (nextMessage spanSchema 2 0) 1 (r.iter ⟨1, by decide⟩)).isOk = true := by
  obtain ⟨r, hr⟩ := exists_spanReader
  refine ⟨r, hr, (spans_complete hr).2 spanRecords spanRecords_valid rfl, ?_⟩
  have hcheck : (readerInit spanSchema 0 (Record.concat spanRecords)).toOption.all (fun r =>
      (Family.repBytes.spans (r.fields ⟨0, by decide⟩)).count = 2
        ∧ (result (nextBytes 1) 0 (r.iter ⟨0, by decide⟩)).toOption = some [7]
        ∧ (result (nextBytes 1) 1 (r.iter ⟨0, by decide⟩)).toOption = some []
        ∧ ((Family.repMsg 0).spans (r.fields ⟨1, by decide⟩)).count = 2
        ∧ (result (nextMessage spanSchema 2 0) 0 (r.iter ⟨1, by decide⟩)).isOk = false
        ∧ (result (nextMessage spanSchema 2 0) 1 (r.iter ⟨1, by decide⟩)).isOk = true) = true := by
    decide +kernel
  rw [hr] at hcheck
  exact of_decide_eq_true hcheck

theorem badEntry_valid : badEntry.Valid :=
  ⟨by decide +kernel, .lenPrefix, by decide +kernel, by decide +kernel⟩

/--
A bad entry at the end is no obstacle.
-/
theorem badLast_iterates
    : ∃ r, readerInit mapSchema 0 (Record.concat [goodEntry, badEntry]) = .ok r
        ∧ Iterates (taken mapSchema 0 ⟨0, by decide⟩)
            (nextEntry mapSchema 5 (.elem (.scalar .int32)) (.slot (.elem (.scalar .int32))))
            (decodeEntry mapSchema (.elem (.scalar .int32)) (.slot (.elem (.scalar .int32))))
            [goodEntry, badEntry] (r.iter ⟨0, by decide⟩) := by
  obtain ⟨r, hr⟩ := exists_reader (Record.concat [goodEntry, badEntry]) (by decide +kernel)
  have hvalid : ∀ q ∈ [goodEntry, badEntry], q.Valid := by
    simpa using ⟨goodEntry_valid, badEntry_valid⟩
  refine ⟨r, hr, ?_⟩
  have hfamily : (mapSchema.field 0 ⟨0, by decide⟩).family
      = .map (.elem (.scalar .int32)) (.slot (.elem (.scalar .int32))) := rfl
  apply (entries_iterate_iff hvalid hr hfamily).mpr
  have hmine : (mine (taken mapSchema 0 ⟨0, by decide⟩) [goodEntry, badEntry]).dropLast = [goodEntry] := by
    decide +kernel
  rw [hmine]
  intro q hq
  rw [List.mem_singleton] at hq
  subst hq
  exact ⟨(1, 2), by decide +kernel⟩

/--
After a bad entry the good one behind it is not delivered.
-/
theorem badFirst_not_iterates
    : ∃ r, readerInit mapSchema 0 (Record.concat [badEntry, goodEntry]) = .ok r
        ∧ ¬Iterates (taken mapSchema 0 ⟨0, by decide⟩)
            (nextEntry mapSchema 5 (.elem (.scalar .int32)) (.slot (.elem (.scalar .int32))))
            (decodeEntry mapSchema (.elem (.scalar .int32)) (.slot (.elem (.scalar .int32))))
            [badEntry, goodEntry] (r.iter ⟨0, by decide⟩) := by
  obtain ⟨r, hr⟩ := exists_reader (Record.concat [badEntry, goodEntry]) (by decide +kernel)
  refine ⟨r, hr, ?_⟩
  intro h
  have hmine : mine (taken mapSchema 0 ⟨0, by decide⟩) [badEntry, goodEntry] = [badEntry, goodEntry] := by
    decide +kernel
  have hone : 1 < (mine (taken mapSchema 0 ⟨0, by decide⟩) [badEntry, goodEntry]).length := by
    rw [hmine]
    decide
  have hresult := h.results 1 hone
  have hget : ((mine (taken mapSchema 0 ⟨0, by decide⟩) [badEntry, goodEntry]).get ⟨1, hone⟩).content
      = goodEntry.content := by
    rw [List.get_of_eq hmine ⟨1, hone⟩]
    rfl
  have hdecode : decodeEntry mapSchema (.elem (.scalar .int32)) (.slot (.elem (.scalar .int32)))
      goodEntry.content = .ok (1, 2) := by
    decide +kernel
  have hcheck : (readerInit mapSchema 0 (Record.concat [badEntry, goodEntry])).toOption.map
      (fun r => (result (nextEntry mapSchema 5 (.elem (.scalar .int32)) (.slot (.elem (.scalar .int32)))) 1
        (r.iter ⟨0, by decide⟩)).isOk) = some false := by
    decide +kernel
  rw [hr] at hcheck
  have hfalse := Option.some.inj hcheck
  dsimp only at hfalse
  rw [hresult, hget, hdecode] at hfalse
  simp [Except.isOk, Except.toBool] at hfalse

end Gremlin
