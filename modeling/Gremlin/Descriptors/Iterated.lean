import Gremlin.Descriptors.Pipeline
import Gremlin.Parser.Made

/-!
This module contains the agreement of the two walks over a body: the one that accepts it and the one
that takes the next entry again and again.
-/

namespace Gremlin

open Text Parser Buffer

/-! Stray semicolons. -/

theorem progress_semicolonStep : Progress semicolonStep :=
  fun _ => goes_test shiftIf_length (goes_done _)

theorem skipSemicolons_done {b b₁ : Buffer} (hspaces : skipSpaces.run b = (.ok (), b₁))
    (hsemicolon : (checkAndShift ';').run b₁ = (.ok false, b₁)) : skipSemicolons.run b = (.ok (), b₁) := by
  simp only [skipSemicolons, bind_eq]
  rw [andThen_of_ok (skipSpacesUnchecked_of_ok hspaces), loop_ok_iff progress_semicolonStep]
  left
  simp only [semicolonStep, bind_eq]
  rw [andThen_of_ok hsemicolon]
  rfl

theorem skipSemicolons_stray {b b₁ b₂ : Buffer} (hspaces : skipSpaces.run b = (.ok (), b₁))
    (hsemicolon : (checkAndShift ';').run b₁ = (.ok true, b₂)) : skipSemicolons.run b = skipSemicolons.run b₂ := by
  simp only [skipSemicolons, bind_eq]
  rw [andThen_of_ok (skipSpacesUnchecked_of_ok hspaces), loop_run progress_semicolonStep]
  simp only [semicolonStep, bind_eq, andThen_assoc]
  rw [andThen_of_ok hsemicolon]
  rfl

/-! The iterating walk. -/

section Walk

variable {α : Type} {next item : EntryParser α}

theorem entries_go_fuel (hnext : Eager next) {fuel fuel' : Nat} {b : Buffer} (h : b.rest.length < fuel)
    (h' : b.rest.length < fuel') : entries.go next fuel b = entries.go next fuel' b := by
  induction fuel generalizing fuel' b with
  | zero => omega
  | succ fuel ih =>
    cases fuel' with
    | zero => omega
    | succ fuel' =>
      rw [entries.go, entries.go]
      rcases hrun : next.run b with ⟨e | a, b'⟩
      . rfl
      . have := hnext _ _ _ hrun
        dsimp only
        rw [@ih fuel' b' (by omega) (by omega)]

theorem entries_of_ok (hnext : Eager next) {b b' : Buffer} {a : α} (h : next.run b = (.ok a, b'))
    : entries next b = (a :: (entries next b').1, (entries next b').2) := by
  have := hnext _ _ _ h
  simp only [entries]
  rw [entries.go, h]
  dsimp only
  rw [@entries_go_fuel _ _ hnext b.rest.length (b'.rest.length + 1) b' (by omega) (by omega)]

theorem entries_of_error {b b' : Buffer} {e : ParsingError} (h : next.run b = (.error e, b'))
    : entries next b = ([], if atEof b' then none else some e) := by
  simp only [entries]
  rw [entries.go, h]

/--
What is known of the entries of a body.
-/
structure Itemized (item : EntryParser α) : Prop where
  eager : Eager item
  narrow : ∀ after, Narrow ('}' :: after) '/' item
  ends : Ends '/' item
  slash : ∀ {b : Buffer}, LoneSlash b.rest → Never b item

theorem Body.exists_before {b b' : Buffer} {es : List α} {k bodyEnd : Nat} (h : Body item b es k bodyEnd b')
    : ∃ c : Buffer, b = c.before ('}' :: b'.rest) := by
  obtain ⟨d, hforward, -, hd⟩ := h.advances
  have hd' : d = Buffer.before ⟨d.offset, []⟩ ('}' :: b'.rest) := by
    rw [before, List.nil_append, ← hd]
  rw [hd'] at hforward
  exact hforward.exists_before

theorem Body.rest_ne (hitem : Itemized item) {b b' : Buffer} {es : List α} {k bodyEnd : Nat}
    (h : Body item b es k bodyEnd b') (rest : List Char) : b.rest ≠ '/' :: '}' :: rest := by
  intro heq
  have hspaces' : skipSpaces.run b = (.ok (), b) := by
    rw [skipSpaces_ok, heq]
    exact ⟨skip_slash (by decide) (by decide) rest, rfl⟩
  cases h with
  | closed hspaces hclosing =>
    rw [hspaces', Prod.mk.injEq] at hspaces
    have hrest := (closing_true hclosing).1
    rw [← hspaces.2, heq] at hrest
    exact absurd (List.cons.inj hrest).1 (by decide)
  | stray hspaces hsemicolon _ =>
    rw [hspaces', Prod.mk.injEq] at hspaces
    have hrest := (checkAndShift_true hsemicolon).1
    rw [← hspaces.2, heq] at hrest
    exact absurd (List.cons.inj hrest).1 (by decide)
  | entry hspaces _ _ hrun _ =>
    rw [hspaces', Prod.mk.injEq] at hspaces
    rw [← hspaces.2] at hrun
    exact hitem.slash (heq ▸ loneSlash_bracket rest) _ _ hrun

/--
What a clamped body is made of, up to its end: these entries, and `k` stray semicolons behind the last of
them.
-/
inductive ClampedBody (item : EntryParser α) : (c : Buffer) → (es : List α) → (k : Nat) → Prop where
  | closed {c c₁ : Buffer} (hspaces : skipSpaces.run c = (.ok (), c₁)) (hend : c₁.rest = [])
      : ClampedBody item c [] 0
  | stray {c c₁ c₂ : Buffer} {es : List α} {k : Nat} (hspaces : skipSpaces.run c = (.ok (), c₁))
      (hsemicolon : (checkAndShift ';').run c₁ = (.ok true, c₂)) (hrest : ClampedBody item c₂ es k)
      : ClampedBody item c es (if es.isEmpty then k + 1 else k)
  | entry {c c₁ c₂ : Buffer} {a : α} {es : List α} {k : Nat} (hspaces : skipSpaces.run c = (.ok (), c₁))
      (hsemicolon : (checkAndShift ';').run c₁ = (.ok false, c₁)) (hrun : item.run c₁ = (.ok a, c₂))
      (hrest : ClampedBody item c₂ es k) : ClampedBody item c (a :: es) k

theorem Body.clamped (hitem : Itemized item) {b b' : Buffer} {es : List α} {k bodyEnd : Nat}
    (h : Body item b es k bodyEnd b') {c : Buffer} (hb : b = c.before ('}' :: b'.rest)) : ClampedBody item c es k := by
  induction h generalizing c with
  | @closed b b₁ b' hspaces hclosing =>
    have hb₁ : b₁ = Buffer.before ⟨b₁.offset, []⟩ ('}' :: b'.rest) := by
      rw [before, List.nil_append, ← (closing_true hclosing).1]
    rw [hb, hb₁] at hspaces
    exact .closed (skipSpaces_of_before (by simp) hspaces) rfl
  | @stray b b₁ b₂ b' es k bodyEnd hspaces hsemicolon hrest ih =>
    obtain ⟨c₂, hc₂⟩ := hrest.exists_before
    rw [hc₂] at hsemicolon
    obtain ⟨c₁, hc₁⟩ := (Parser.advances hsemicolon).exists_before
    rw [hc₁] at hsemicolon hspaces
    rw [hb] at hspaces
    have hsemicolon := (exact_checkAndShift (by decide)).of_before hsemicolon
    have hstart := (checkAndShift_true hsemicolon).1
    exact .stray (skipSpaces_of_before (by simp [hstart]) hspaces) hsemicolon (ih hc₂)
  | @entry b b₁ b₂ b' a es k bodyEnd hspaces hclosing hsemicolon hrun hrest ih =>
    obtain ⟨c₂, hc₂⟩ := hrest.exists_before
    rw [hc₂] at hrun
    obtain ⟨c₁, hc₁⟩ := (Parser.advances hrun).exists_before
    rw [hc₁] at hrun hspaces hsemicolon
    rw [hb] at hspaces
    have hapart : Severed '/' c₁ c₂ := by
      apply hitem.ends.apart hrun
      intro hslash
      apply hrest.rest_ne hitem b'.rest
      rw [hc₂, before, hslash]
      rfl
    have hrun := hitem.narrow _ _ _ _ hapart hrun
    have hstart := (hapart.left (Parser.advances hrun)).rest_ne (.refl c₁)
    have hsemicolon := (exact_checkAndShift (by decide)).of_before hsemicolon
    exact .entry (skipSpaces_of_before hstart hspaces) hsemicolon hrun (ih hc₂)

section Next

variable (heager : Eager item) (hnext : next = (skipSemicolons.andThen fun _ => item).restoring)
  {c c₁ c₂ : Buffer} (hspaces : skipSpaces.run c = (.ok (), c₁))

include hnext hspaces

theorem next_of_item (hsemicolon : (checkAndShift ';').run c₁ = (.ok false, c₁)) {a : α}
    (hrun : item.run c₁ = (.ok a, c₂)) : next.run c = (.ok a, c₂) := by
  rw [hnext]
  apply restoring_ok.mpr
  apply andThen_ok.mpr
  exact ⟨(), c₁, skipSemicolons_done hspaces hsemicolon, hrun⟩

theorem next_stray_ok (hsemicolon : (checkAndShift ';').run c₁ = (.ok true, c₂)) {a : α} {c' : Buffer}
    (hrun : next.run c₂ = (.ok a, c')) : next.run c = (.ok a, c') := by
  rw [hnext] at hrun ⊢
  rw [restoring_ok] at hrun ⊢
  simp only [andThen, skipSemicolons_stray hspaces hsemicolon] at hrun ⊢
  exact hrun

theorem next_stray_error (hsemicolon : (checkAndShift ';').run c₁ = (.ok true, c₂)) {e : ParsingError}
    {c' : Buffer} (hrun : next.run c₂ = (.error e, c')) : next.run c = (.error e, c) := by
  rw [hnext] at hrun ⊢
  obtain ⟨-, d, hrun⟩ := restoring_error hrun
  simp only [restoring, andThen, skipSemicolons_stray hspaces hsemicolon] at hrun ⊢
  rw [hrun]

include heager

theorem next_at_end (hend : c₁.rest = []) : ∃ e, next.run c = (.error e, c) := by
  have hsemicolon : (checkAndShift ';').run c₁ = (.ok false, c₁) := by
    obtain ⟨offset, rest⟩ := c₁
    dsimp only at hend
    rw [hend]
    rfl
  rcases hrun : next.run c with ⟨e | a, c'⟩
  . rw [hnext] at hrun
    rw [(restoring_error hrun).1]
    exact ⟨e, rfl⟩
  . rw [hnext] at hrun
    obtain ⟨_, d, hskip, hrun⟩ := andThen_ok.mp (restoring_ok.mp hrun)
    rw [skipSemicolons_done hspaces hsemicolon, Prod.mk.injEq] at hskip
    rw [← hskip.2] at hrun
    have := heager _ _ _ hrun
    rw [hend, List.length_nil] at this
    omega

end Next

/--
The walk takes the entries that the body is made of. It ends well unless semicolons are behind them.
-/
theorem ClampedBody.entries (heager : Eager item)
    (hnext : next = (skipSemicolons.andThen fun _ => item).restoring) {c : Buffer} {es : List α} {k : Nat}
    (h : ClampedBody item c es k)
    : (Gremlin.entries next c).1 = es ∧ ((Gremlin.entries next c).2 = none ↔ k = 0) := by
  have hnext' : Eager next := by
    rw [hnext]
    exact (eager_andThen _ fun _ => heager).restoring
  induction h with
  | @closed c c₁ hspaces hend =>
    obtain ⟨e, herror⟩ := next_at_end heager hnext hspaces hend
    rw [entries_of_error herror]
    simp [atEof, hspaces, hend]
  | @stray c c₁ c₂ es k hspaces hsemicolon hrest ih =>
    obtain ⟨hes, hend⟩ := ih
    rcases hrun : next.run c₂ with ⟨e | a, c'⟩
    . have hstart := (checkAndShift_true hsemicolon).1
      rw [entries_of_error hrun] at hes
      rw [entries_of_error (next_stray_error hnext hspaces hsemicolon hrun), ← hes]
      simp [atEof, hspaces, hstart]
    . rw [entries_of_ok hnext' hrun] at hes hend
      rw [entries_of_ok hnext' (next_stray_ok hnext hspaces hsemicolon hrun), ← hes]
      exact ⟨rfl, hend⟩
  | @entry c c₁ c₂ a es k hspaces hsemicolon hrun hrest ih =>
    obtain ⟨hes, hend⟩ := ih
    rw [entries_of_ok hnext' (next_of_item hnext hspaces hsemicolon hrun), hes]
    exact ⟨rfl, hend⟩

end Walk

section Kinds

variable [Libc]

theorem itemized_enumEntry : Itemized enumEntry where
  eager := eager_enumEntry
  narrow := fun _ => narrow_enumEntry
  ends := ends_enumEntry
  slash := never_enumEntry_slash

theorem itemized_oneofEntry : Itemized oneofEntry where
  eager := eager_oneofEntry
  narrow := fun _ => narrow_oneofEntry
  ends := ends_oneofEntry
  slash := never_oneofEntry_slash

theorem itemized_messageEntry : Itemized messageEntry where
  eager := eager_messageEntry
  narrow := fun _ => narrow_messageEntry
  ends := ends_messageEntry
  slash := never_messageEntry_slash

end Kinds

/-! The bodies of a text. -/

/--
The part of a text up to a bracket does not depend on how far the text goes on behind it.
-/
theorem eq_between_of_before {text : List Char} {start stop : Nat} {c : Buffer} {after : List Char}
    (h : between text start stop = c.before ('}' :: after))
    : c = between text start (c.offset + c.rest.length) := by
  obtain ⟨offset, rest⟩ := c
  simp only [between, before, Buffer.mk.injEq] at h ⊢
  obtain ⟨rfl, hrest⟩ := h
  refine ⟨rfl, ?_⟩
  have hlength := congrArg List.length hrest
  simp only [List.length_drop, List.length_take, List.length_append, List.length_cons] at hlength
  have hle : start + rest.length ≤ stop := by omega
  have htake := congrArg (List.take rest.length) hrest
  rw [List.take_left, List.take_drop, List.take_take, Nat.min_eq_left hle] at htake
  exact htake.symm

section Agreement

variable {α : Type} {parse : EntryParser BodyParseResult} {next item : EntryParser α}

/--
The builder's walk over a body takes these entries and then finds the end of the body.
-/
def WalksThrough (next : EntryParser α) (body : Buffer) (es : List α) : Prop :=
  entries next body = (es, none)
    ∧ ∀ (σ : Type) (act : σ → α → Except Stop σ) (s : σ), walk next act body s = es.foldlM act s

theorem walksThrough_iff (hnext : Eager next) {body : Buffer} {es : List α}
    : WalksThrough next body es ↔ (entries next body).1 = es ∧ (entries next body).2 = none := by
  constructor
  . rintro ⟨heq, -⟩
    rw [heq]
    exact ⟨rfl, rfl⟩
  . rintro ⟨hes, hend⟩
    refine ⟨Prod.ext hes hend, ?_⟩
    intro σ act s
    rw [walk_eq hnext, hes, hend]
    exact bind_pure _

def Bodies (parse : EntryParser BodyParseResult) (item : EntryParser α) : Prop :=
  ∀ {b b' : Buffer} {parsed : BodyParseResult}, parse.run b = (.ok parsed, b')
    → ∃ b₁ es k, Opened b b₁ ∧ b₁.offset = parsed.bodyStart ∧ Body item b₁ es k parsed.bodyEnd b'

theorem exists_clampedBody (hitem : Itemized item) (hparse : Bodies parse item) {text : Span} {start stop : Nat}
    {parsed : BodyParseResult} {b' : Buffer} (h : parse.run (between text start stop) = (.ok parsed, b'))
    : ∃ es k, Body item (between text parsed.bodyStart stop) es k parsed.bodyEnd b'
        ∧ ClampedBody item (bodyOf text parsed) es k := by
  obtain ⟨b₁, es, k, hopened, hstart, hbody⟩ := hparse h
  have hbetween := hopened.advances.eq_between
  rw [hstart] at hbetween
  rw [hbetween] at hbody
  refine ⟨es, k, hbody, ?_⟩
  obtain ⟨c, hc⟩ := hbody.exists_before
  obtain ⟨d, hforward', hoffset, hrest⟩ := hbody.advances
  have hend : c.offset + c.rest.length = parsed.bodyEnd := by
    have hadd := hforward'.offset_add
    rw [hrest, hc, hoffset] at hadd
    simp only [before, List.length_append, List.length_cons] at hadd
    omega
  rw [bodyOf, ← hend, ← eq_between_of_before hc]
  exact hbody.clamped hitem hc

theorem exists_walksThrough_iff (hitem : Itemized item)
    (hnext : next = (skipSemicolons.andThen fun _ => item).restoring) (hparse : Bodies parse item)
    (text : Span) (start stop : Nat) (parsed : BodyParseResult) (b' : Buffer)
    (h : parse.run (between text start stop) = (.ok parsed, b'))
    : ∃ es k, Body item (between text parsed.bodyStart stop) es k parsed.bodyEnd b'
        ∧ (WalksThrough next (bodyOf text parsed) es ↔ k = 0) := by
  obtain ⟨es, k, hbody, hclamped⟩ := exists_clampedBody hitem hparse h
  refine ⟨es, k, hbody, ?_⟩
  have heager : Eager next := by
    rw [hnext]
    exact (eager_andThen _ fun _ => hitem.eager).restoring
  obtain ⟨hes, hiff⟩ := hclamped.entries hitem.eager hnext
  rw [walksThrough_iff heager, hiff]
  exact and_iff_right hes

end Agreement

/--
A body that is accepted is made of entries and stray semicolons. The walk over the clamped body takes
exactly these entries, and it ends well exactly if no semicolon is behind the last of them.
-/
theorem walks_agree_iff [Libc] (text : Span) (start stop : Nat) (parsed : BodyParseResult) (b' : Buffer)
    : (messageParse.run (between text start stop) = (.ok parsed, b')
        → ∃ es k, Body messageEntry (between text parsed.bodyStart stop) es k parsed.bodyEnd b'
          ∧ (WalksThrough messageNextEntry (bodyOf text parsed) es ↔ k = 0))
      ∧ (enumParse.run (between text start stop) = (.ok parsed, b')
        → ∃ es k, Body enumEntry (between text parsed.bodyStart stop) es k parsed.bodyEnd b'
          ∧ (WalksThrough enumNextEntry (bodyOf text parsed) es ↔ k = 0))
      ∧ (oneofParse.run (between text start stop) = (.ok parsed, b')
        → ∃ es k, Body oneofEntry (between text parsed.bodyStart stop) es k parsed.bodyEnd b'
          ∧ (WalksThrough oneofNextEntry (bodyOf text parsed) es ↔ k = 0)) :=
  ⟨exists_walksThrough_iff itemized_messageEntry messageNextEntry_eq messageParse_body text start stop parsed b',
    exists_walksThrough_iff itemized_enumEntry enumNextEntry_eq enumParse_body text start stop parsed b',
    exists_walksThrough_iff itemized_oneofEntry oneofNextEntry_eq oneofParse_body text start stop parsed b'⟩

/--
A message with a comment, a field, a stray semicolon, a message, a oneof and an enum.
-/
def severalEntries : Span :=
  "message M{/*c*/int32 a=1;;message N{bool b=2;}oneof o{int32 c=3;}enum E{X=0;Y=1;}}".toList

theorem severalEntries_walks_agree
    : (∃ es k, @Body _ (@messageEntry Pool.constLibc) (between severalEntries 10 82) es k 81 ⟨82, []⟩
          ∧ (WalksThrough (@messageNextEntry Pool.constLibc) (bodyOf severalEntries ⟨['M'], 10, 81⟩) es ↔ k = 0))
        ∧ (∃ es k, @Body _ (@enumEntry Pool.constLibc) (between severalEntries 72 82) es k 80 ⟨81, ['}']⟩
          ∧ (WalksThrough (@enumNextEntry Pool.constLibc) (bodyOf severalEntries ⟨['E'], 72, 80⟩) es ↔ k = 0))
        ∧ ∃ es k, @Body _ (@oneofEntry Pool.constLibc) (between severalEntries 54 82) es k 64
            ⟨65, "enum E\x7bX=0;Y=1;\x7d\x7d".toList⟩
          ∧ (WalksThrough (@oneofNextEntry Pool.constLibc) (bodyOf severalEntries ⟨['o'], 54, 64⟩) es ↔ k = 0) :=
  ⟨(@walks_agree_iff Pool.constLibc severalEntries 0 82 ⟨['M'], 10, 81⟩ ⟨82, []⟩).1 (by decide +kernel),
    (@walks_agree_iff Pool.constLibc severalEntries 65 82 ⟨['E'], 72, 80⟩ ⟨81, ['}']⟩).2.1 (by decide +kernel),
    (@walks_agree_iff Pool.constLibc severalEntries 46 82 ⟨['o'], 54, 64⟩ ⟨65, "enum E\x7bX=0;Y=1;\x7d\x7d".toList⟩).2.2
      (by decide +kernel)⟩

/--
`message M{a b=1;;}`.
-/
def strayField : Span :=
  "message M{a b=1;;}".toList

/--
A semicolon behind the last entry is accepted, and then no walk gets to the end of the body.
-/
theorem strayField_walks_disagree
    : ¬∀ (text : Span) (start stop : Nat) (parsed : BodyParseResult) (b' : Buffer),
        (@messageParse Pool.constLibc).run (between text start stop) = (.ok parsed, b')
          → ∃ es, WalksThrough (@messageNextEntry Pool.constLibc) (bodyOf text parsed) es := by
  intro h
  obtain ⟨es, heq, -⟩ := h strayField 0 18 ⟨['M'], 10, 17⟩ ⟨18, []⟩ (by decide +kernel)
  have hend : (@entries _ (@messageNextEntry Pool.constLibc) (bodyOf strayField ⟨['M'], 10, 17⟩)).2 = none := by
    rw [heq]
  exact absurd hend (by decide +kernel)

end Gremlin
