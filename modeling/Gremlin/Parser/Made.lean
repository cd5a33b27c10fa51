import Gremlin.Parser.Bodies

/-!
This module contains what a body is made of when its parser accepts it: entries, stray semicolons and
spaces, up to its closing bracket.
-/

namespace Gremlin

open Text Parser Buffer

/--
A body from here on: these entries, and `k` stray semicolons behind the last of them. It ends at
`bodyEnd`, and `b'` is behind its closing bracket.
-/
inductive Body {α : Type} (item : EntryParser α) : (b : Buffer) → (es : List α) → (k bodyEnd : Nat)
    → (b' : Buffer) → Prop where
  | closed {b b₁ b' : Buffer} (hspaces : skipSpaces.run b = (.ok (), b₁))
      (hclosing : closing.run b₁ = (.ok true, b')) : Body item b [] 0 b₁.offset b'
  | stray {b b₁ b₂ b' : Buffer} {es : List α} {k bodyEnd : Nat} (hspaces : skipSpaces.run b = (.ok (), b₁))
      (hsemicolon : (checkAndShift ';').run b₁ = (.ok true, b₂)) (hrest : Body item b₂ es k bodyEnd b')
      : Body item b es (if es.isEmpty then k + 1 else k) bodyEnd b'
  | entry {b b₁ b₂ b' : Buffer} {a : α} {es : List α} {k bodyEnd : Nat}
      (hspaces : skipSpaces.run b = (.ok (), b₁)) (hclosing : closing.run b₁ = (.ok false, b₁))
      (hsemicolon : (checkAndShift ';').run b₁ = (.ok false, b₁)) (hitem : item.run b₁ = (.ok a, b₂))
      (hrest : Body item b₂ es k bodyEnd b') : Body item b (a :: es) k bodyEnd b'

variable {α : Type} {item : EntryParser α}

theorem Body.advances {b b' : Buffer} {es : List α} {k bodyEnd : Nat} (h : Body item b es k bodyEnd b')
    : ∃ c : Buffer, Advances b c ∧ c.offset = bodyEnd ∧ c.rest = '}' :: b'.rest := by
  induction h with
  | closed hspaces hclosing =>
    exact ⟨_, Parser.advances hspaces, rfl, (closing_true hclosing).1⟩
  | stray hspaces hsemicolon _ ih =>
    obtain ⟨c, hadvances, hc⟩ := ih
    exact ⟨c, (Parser.advances hspaces).trans ((Parser.advances hsemicolon).trans hadvances), hc⟩
  | entry hspaces _ _ hitem _ ih =>
    obtain ⟨c, hadvances, hc⟩ := ih
    exact ⟨c, (Parser.advances hspaces).trans ((Parser.advances hitem).trans hadvances), hc⟩

theorem exists_body {entry : EntryParser Unit}
    (hentry : ∀ b u b', entry.run b = (.ok u, b') → ∃ a, item.run b = (.ok a, b')) {b b' : Buffer} {bodyEnd : Nat}
    (h : (loop (bodyStep entry) ()).run b = (.ok bodyEnd, b')) : ∃ es k, Body item b es k bodyEnd b' := by
  refine loop_ok (Q := fun b bodyEnd b' => ∃ es k, Body item b es k bodyEnd b') ?_ ?_ h
  . intro _ b bodyEnd b' hdone
    obtain ⟨_, b₁, hspaces, h⟩ := andThen_ok.mp hdone
    obtain ⟨n, b₂, hposition, h⟩ := andThen_ok.mp h
    obtain ⟨rfl, rfl⟩ := position_ok hposition
    obtain ⟨closed, b₃, hclosing, h⟩ := andThen_ok.mp h
    cases closed with
    | true =>
      simp only [if_true, pure_eq, succeed_run, Prod.mk.injEq, Except.ok.injEq, Step.done.injEq] at h
      obtain ⟨rfl, rfl⟩ := h
      exact ⟨[], 0, .closed hspaces hclosing⟩
    | false =>
      obtain ⟨semicolon, b₄, -, h⟩ := andThen_ok.mp h
      cases semicolon with
      | true => simp at h
      | false =>
        obtain ⟨_, _, -, h⟩ := andThen_ok.mp h
        simp at h
  . rintro _ b _ b' bodyEnd b'' hagain ⟨es, k, hrest⟩
    obtain ⟨_, b₁, hspaces, h⟩ := andThen_ok.mp hagain
    obtain ⟨n, b₂, hposition, h⟩ := andThen_ok.mp h
    obtain ⟨rfl, rfl⟩ := position_ok hposition
    obtain ⟨closed, b₃, hclosing, h⟩ := andThen_ok.mp h
    cases closed with
    | true => simp at h
    | false =>
      obtain ⟨rfl, -⟩ := closing_false hclosing
      obtain ⟨semicolon, b₄, hsemicolon, h⟩ := andThen_ok.mp h
      cases semicolon with
      | true =>
        simp only [if_true, pure_eq, succeed_run, Prod.mk.injEq] at h
        rw [h.2] at hsemicolon
        exact ⟨_, _, .stray hspaces hsemicolon hrest⟩
      | false =>
        obtain ⟨u, b₅, hitem, h⟩ := andThen_ok.mp h
        simp only [pure_eq, succeed_run, Prod.mk.injEq] at h
        have hsame := shiftIf_false hsemicolon
        rw [hsame] at hsemicolon hitem
        rw [h.2] at hitem
        obtain ⟨a, hitem⟩ := hentry _ _ _ hitem
        exact ⟨_, _, .entry hspaces hclosing hsemicolon hitem hrest⟩

theorem item_of_discard {e : ParsingError} (b : Buffer) (u : Unit) (b' : Buffer)
    (h : (discard (item.orElse (fail e))).run b = (.ok u, b')) : ∃ a, item.run b = (.ok a, b') := by
  obtain ⟨a, h, -⟩ := map_ok.mp h
  exact ⟨a, orElse_fail_ok.mp h⟩

/--
`b'` is what is left of `b` behind an opening bracket.
-/
def Opened (b b' : Buffer) : Prop :=
  ∃ c, Advances b c ∧ c.rest = '{' :: b'.rest ∧ b'.offset = c.offset + 1

theorem Opened.advances {b b' : Buffer} (h : Opened b b') : Advances b b' := by
  obtain ⟨c, hforward, hrest, hoffset⟩ := h
  exact hforward.trans ⟨['{'], hrest, hoffset⟩

theorem blockHead_opened {word : String} {parseName : EntryParser Span} {b b' : Buffer} {name : Span}
    (h : (blockHead word parseName).run b = (.ok name, b')) : Opened b b' := by
  obtain ⟨_, b₁, hword, h⟩ := andThen_ok.mp h
  obtain ⟨_, b₂, hspaces, h⟩ := andThen_ok.mp h
  obtain ⟨_, b₃, hname, h⟩ := andThen_ok.mp h
  obtain ⟨_, b₄, hspaces', h⟩ := andThen_ok.mp h
  obtain ⟨_, b₅, hbracket, h⟩ := andThen_ok.mp h
  simp only [pure_eq, succeed_run, Prod.mk.injEq] at h
  rw [h.2] at hbracket
  obtain ⟨hrest, hoffset⟩ := expect_ok hbracket
  exact ⟨b₄, (Parser.advances hword).trans <| (Parser.advances hspaces).trans <|
    (Parser.advances hname).trans (Parser.advances hspaces'), hrest, hoffset⟩

theorem block_ok {word : String} {parseName : EntryParser Span} {entry : EntryParser Unit} {b b' : Buffer}
    {parsed : BodyParseResult} (h : (block word parseName entry).run b = (.ok parsed, b'))
    : ∃ b₁, Opened b b₁ ∧ b₁.offset = parsed.bodyStart
        ∧ (loop (bodyStep entry) ()).run b₁ = (.ok parsed.bodyEnd, b') := by
  rw [block_eq] at h
  obtain ⟨name, b₁, hhead, h⟩ := andThen_ok.mp (restoring_ok.mp h)
  obtain ⟨n, b₂, hposition, h⟩ := andThen_ok.mp h
  obtain ⟨rfl, rfl⟩ := position_ok hposition
  obtain ⟨bodyEnd, b₃, hloop, h⟩ := andThen_ok.mp h
  simp only [succeed_run, Prod.mk.injEq, Except.ok.injEq] at h
  obtain ⟨rfl, rfl⟩ := h
  exact ⟨b₂, blockHead_opened hhead, rfl, hloop⟩

section Messages

variable [Libc]

theorem enumParse_body {b b' : Buffer} {parsed : BodyParseResult} (h : enumParse.run b = (.ok parsed, b'))
    : ∃ b₁ es k, Opened b b₁ ∧ b₁.offset = parsed.bodyStart ∧ Body enumEntry b₁ es k parsed.bodyEnd b' := by
  unfold enumParse at h
  rw [enumBody_eq] at h
  obtain ⟨b₁, hopened, hstart, hloop⟩ := block_ok h
  obtain ⟨es, k, hbody⟩ := exists_body item_of_discard hloop
  exact ⟨b₁, es, k, hopened, hstart, hbody⟩

theorem oneofParse_body {b b' : Buffer} {parsed : BodyParseResult} (h : oneofParse.run b = (.ok parsed, b'))
    : ∃ b₁ es k, Opened b b₁ ∧ b₁.offset = parsed.bodyStart ∧ Body oneofEntry b₁ es k parsed.bodyEnd b' := by
  unfold oneofParse at h
  rw [oneofBody_eq] at h
  obtain ⟨b₁, hopened, hstart, hloop⟩ := block_ok h
  obtain ⟨es, k, hbody⟩ := exists_body item_of_discard hloop
  exact ⟨b₁, es, k, hopened, hstart, hbody⟩

theorem extendParse_body {b b' : Buffer} {parsed : ExtendParseResult} (h : extendParse.run b = (.ok parsed, b'))
    : ∃ b₁ es k, Opened b b₁ ∧ b₁.offset = parsed.bodyStart
        ∧ Body (discard fieldParse) b₁ es k parsed.bodyEnd b' := by
  obtain ⟨body, b₁, hblock, h⟩ := andThen_ok.mp h
  simp only [pure_eq, succeed_run, Prod.mk.injEq, Except.ok.injEq] at h
  obtain ⟨rfl, rfl⟩ := h
  obtain ⟨b₂, hopened, hstart, hloop⟩ := block_ok hblock
  have hitem (b : Buffer) (u : Unit) (b' : Buffer) (h : (discard fieldParse).run b = (.ok u, b'))
      : ∃ a, (discard fieldParse).run b = (.ok a, b') := ⟨u, h⟩
  obtain ⟨es, k, hbody⟩ := exists_body hitem hloop
  exact ⟨b₂, es, k, hopened, hstart, hbody⟩

/-! The loop over a message and the messages in it. -/

/--
What a turn of the loop does: it closes the innermost message, it stays in it, or it opens another one.
-/
inductive Turn where
  | closes (bodyEnd : Nat)
  | stays
  | opens

def Turn.next : Turn → Nat → Step Nat Nat
  | .closes bodyEnd, 0 => .done bodyEnd
  | .closes _, depth + 1 => .again depth
  | .stays, depth => .again depth
  | .opens, depth => .again (depth + 1)

/--
A turn, which does not depend on how many messages are open.
-/
def messageTurn : EntryParser Turn :=
  skipSpaces.andThen fun _ => position.andThen fun bodyEnd => closing.andThen fun closed =>
    if closed = true then
      succeed (.closes bodyEnd)
    else
      (checkAndShift ';').andThen fun semicolon =>
        if semicolon = true then
          succeed .stays
        else
          ((fun _ => .stays) <$> enumParse).orElse
            (((fun _ => .opens) <$> messageHead).orElse ((fun _ => .stays) <$> messageTail))

theorem messageStep_turn (depth : Nat) : messageStep depth = (fun turn => turn.next depth) <$> messageTurn := by
  simp only [messageTurn, map_andThen, map_ite, map_succeed, map_orElse, map_map]
  simp only [messageStep, bind_eq, pure_eq, messageStep_eq]
  congr 1
  funext _
  congr 1
  funext bodyEnd
  congr 1
  funext closed
  cases depth <;> rfl

theorem messageTurn_length {b b' : Buffer} {turn : Turn} (h : messageTurn.run b = (.ok turn, b'))
    : b'.rest.length < b.rest.length := by
  obtain ⟨depth, s, hnext⟩ : ∃ depth s, turn.next depth = .again s := by
    cases turn with
    | closes bodyEnd => exact ⟨1, 0, rfl⟩
    | stays => exact ⟨0, 0, rfl⟩
    | opens => exact ⟨0, 1, rfl⟩
  apply progress_messageStep depth b s b'
  rw [messageStep_turn]
  exact map_ok.mpr ⟨turn, h, hnext⟩

theorem loop_turn {depth bodyEnd : Nat} {b b' : Buffer}
    : (loop messageStep depth).run b = (.ok bodyEnd, b')
        ↔ ∃ turn b₁, messageTurn.run b = (.ok turn, b₁)
            ∧ ((turn.next depth = .done bodyEnd ∧ b' = b₁)
              ∨ ∃ depth', turn.next depth = .again depth' ∧ (loop messageStep depth').run b₁ = (.ok bodyEnd, b')) := by
  rw [loop_ok_iff progress_messageStep, messageStep_turn]
  constructor
  . rintro (h | ⟨depth', b₁, h, hrest⟩)
    . obtain ⟨turn, hturn, hnext⟩ := map_ok.mp h
      exact ⟨turn, b', hturn, .inl ⟨hnext, rfl⟩⟩
    . obtain ⟨turn, hturn, hnext⟩ := map_ok.mp h
      exact ⟨turn, b₁, hturn, .inr ⟨depth', hnext, hrest⟩⟩
  . rintro ⟨turn, b₁, hturn, ⟨hnext, rfl⟩ | ⟨depth', hnext, hrest⟩⟩
    . exact .inl (map_ok.mpr ⟨turn, hturn, hnext⟩)
    . exact .inr ⟨depth', b₁, map_ok.mpr ⟨turn, hturn, hnext⟩, hrest⟩

/--
The loop with one more message open closes that one, and is the loop without it from there.
-/
theorem loop_succ {depth bodyEnd : Nat} {b b' : Buffer}
    : (loop messageStep (depth + 1)).run b = (.ok bodyEnd, b')
        ↔ ∃ inner b₁, (loop messageStep 0).run b = (.ok inner, b₁)
            ∧ (loop messageStep depth).run b₁ = (.ok bodyEnd, b') := by
  -- The induction is on what is left of the text: every turn takes something of it.
  induction hlength : b.rest.length using Nat.strongRecOn generalizing depth bodyEnd b b' with
  | ind n ih =>
    have ih' {depth bodyEnd : Nat} {c b' : Buffer} (hlt : c.rest.length < b.rest.length)
        : (loop messageStep (depth + 1)).run c = (.ok bodyEnd, b')
            ↔ ∃ inner b₁, (loop messageStep 0).run c = (.ok inner, b₁)
                ∧ (loop messageStep depth).run b₁ = (.ok bodyEnd, b') :=
      ih c.rest.length (hlength ▸ hlt) rfl
    constructor
    . intro h
      obtain ⟨turn, c, hturn, hnext⟩ := loop_turn.mp h
      have hlt := messageTurn_length hturn
      cases turn with
      | closes inner =>
        rcases hnext with ⟨hdone, -⟩ | ⟨depth', hagain, hrest⟩
        . simp [Turn.next] at hdone
        . simp only [Turn.next, Step.again.injEq] at hagain
          rw [← hagain] at hrest
          exact ⟨inner, c, loop_turn.mpr ⟨_, c, hturn, .inl ⟨rfl, rfl⟩⟩, hrest⟩
      | stays =>
        rcases hnext with ⟨hdone, -⟩ | ⟨depth', hagain, hrest⟩
        . simp [Turn.next] at hdone
        . simp only [Turn.next, Step.again.injEq] at hagain
          rw [← hagain] at hrest
          obtain ⟨inner, b₁, hinner, hrest⟩ := (ih' hlt).mp hrest
          exact ⟨inner, b₁, loop_turn.mpr ⟨_, c, hturn, .inr ⟨0, rfl, hinner⟩⟩, hrest⟩
      | opens =>
        rcases hnext with ⟨hdone, -⟩ | ⟨depth', hagain, hrest⟩
        . simp [Turn.next] at hdone
        . simp only [Turn.next, Step.again.injEq] at hagain
          rw [← hagain] at hrest
          -- The block that is opened is closed first, and then the one around it.
          obtain ⟨opened, b₁, hopened, hrest⟩ := (ih' hlt).mp hrest
          have hle := (Parser.advances hopened).length_le
          obtain ⟨inner, b₂, hinner, hrest⟩ := (ih' (by omega)).mp hrest
          have hboth := (ih' hlt).mpr ⟨opened, b₁, hopened, hinner⟩
          exact ⟨inner, b₂, loop_turn.mpr ⟨_, c, hturn, .inr ⟨1, rfl, hboth⟩⟩, hrest⟩
    . rintro ⟨inner, b₁, hinner, hrest⟩
      obtain ⟨turn, c, hturn, hnext⟩ := loop_turn.mp hinner
      have hlt := messageTurn_length hturn
      apply loop_turn.mpr
      cases turn with
      | closes inner' =>
        rcases hnext with ⟨-, rfl⟩ | ⟨depth', hagain, -⟩
        . exact ⟨_, b₁, hturn, .inr ⟨depth, rfl, hrest⟩⟩
        . simp [Turn.next] at hagain
      | stays =>
        rcases hnext with ⟨hdone, -⟩ | ⟨depth', hagain, hinner⟩
        . simp [Turn.next] at hdone
        . simp only [Turn.next, Step.again.injEq] at hagain
          rw [← hagain] at hinner
          exact ⟨_, c, hturn, .inr ⟨depth + 1, rfl, (ih' hlt).mpr ⟨inner, b₁, hinner, hrest⟩⟩⟩
      | opens =>
        rcases hnext with ⟨hdone, -⟩ | ⟨depth', hagain, hinner⟩
        . simp [Turn.next] at hdone
        . simp only [Turn.next, Step.again.injEq] at hagain
          rw [← hagain] at hinner
          obtain ⟨opened, b₂, hopened, hinner⟩ := (ih' hlt).mp hinner
          have hle := (Parser.advances hopened).length_le
          -- The two blocks are taken apart from the outside.
          have hone := (ih' (by omega)).mpr ⟨inner, b₁, hinner, hrest⟩
          exact ⟨_, c, hturn, .inr ⟨depth + 2, rfl, (ih' hlt).mpr ⟨opened, b₂, hopened, hone⟩⟩⟩

theorem messageTurn_ok {b b' : Buffer} {turn : Turn} (h : messageTurn.run b = (.ok turn, b'))
    : ∃ b₁, skipSpaces.run b = (.ok (), b₁)
        ∧ ((turn = .closes b₁.offset ∧ closing.run b₁ = (.ok true, b'))
          ∨ (turn = .stays ∧ (checkAndShift ';').run b₁ = (.ok true, b'))
          ∨ (closing.run b₁ = (.ok false, b₁) ∧ (checkAndShift ';').run b₁ = (.ok false, b₁)
            ∧ ((turn = .stays ∧ ∃ a, messageEntry.run b₁ = (.ok a, b'))
              ∨ (turn = .opens ∧ ∃ e name, enumParse.run b₁ = (.error e, b₁)
                ∧ messageHead.run b₁ = (.ok name, b'))))) := by
  obtain ⟨_, b₁, hspaces, h⟩ := andThen_ok.mp h
  refine ⟨b₁, hspaces, ?_⟩
  -- A closing bracket, a semicolon, an enum and the head of a message are tried in this order.
  obtain ⟨n, b₂, hposition, h⟩ := andThen_ok.mp h
  obtain ⟨rfl, rfl⟩ := position_ok hposition
  obtain ⟨closed, b₃, hclosing, h⟩ := andThen_ok.mp h
  cases closed with
  | true =>
    left
    simp only [if_true, succeed_run, Prod.mk.injEq, Except.ok.injEq] at h
    exact ⟨h.1.symm, h.2 ▸ hclosing⟩
  | false =>
    obtain ⟨rfl, -⟩ := closing_false hclosing
    obtain ⟨semicolon, b₄, hsemicolon, h⟩ := andThen_ok.mp h
    cases semicolon with
    | true =>
      right
      left
      simp only [if_true, succeed_run, Prod.mk.injEq, Except.ok.injEq] at h
      exact ⟨h.1.symm, h.2 ▸ hsemicolon⟩
    | false =>
      right
      right
      have hsame := shiftIf_false hsemicolon
      rw [hsame] at hsemicolon h
      refine ⟨hclosing, hsemicolon, ?_⟩
      rcases orElse_ok h with h | ⟨e, c, henum, h⟩
      . left
        obtain ⟨parsed, henum, rfl⟩ := map_ok.mp h
        exact ⟨rfl, .enumeration parsed, orElse_of_ok (map_ok.mpr ⟨parsed, henum, rfl⟩)⟩
      . have henum := map_error.mp henum
        have hback := (restoring_error henum).1
        rw [hback] at henum h
        rcases orElse_ok h with h | ⟨e', c', hhead, h⟩
        . obtain ⟨name, hhead, rfl⟩ := map_ok.mp h
          exact .inr ⟨rfl, e, name, henum, hhead⟩
        . left
          have hhead := map_error.mp hhead
          have hback' := (restoring_error hhead).1
          rw [hback'] at hhead h
          obtain ⟨a, htail, rfl⟩ := map_ok.mp h
          refine ⟨rfl, a, ?_⟩
          -- A message that has no head fails where the head does, so the entry is one of the other kinds.
          have hmessage : messageParse.run b₃ = (.error e', b₃) := by
            simp only [messageParse, restoring, bind_eq]
            rw [andThen_of_error hhead]
          unfold messageEntry
          rw [orElse_of_error (map_error.mpr henum), orElse_of_error (map_error.mpr hmessage)]
          exact htail

theorem exists_body_of_loop {b b' : Buffer} {bodyEnd : Nat} (h : (loop messageStep 0).run b = (.ok bodyEnd, b'))
    : ∃ es k, Body messageEntry b es k bodyEnd b' := by
  induction hlength : b.rest.length using Nat.strongRecOn generalizing b with
  | ind n ih =>
    have ih' {c : Buffer} (hlt : c.rest.length < b.rest.length) := ih c.rest.length (hlength ▸ hlt) (b := c)
    obtain ⟨turn, c, hturn, hnext⟩ := loop_turn.mp h
    have hlt := messageTurn_length hturn
    obtain ⟨b₁, hspaces, hcases⟩ := messageTurn_ok hturn
    rcases hcases with ⟨rfl, hclosing⟩ | ⟨rfl, hsemicolon⟩ | ⟨hclosing, hsemicolon, hentry⟩
    . rcases hnext with ⟨hdone, rfl⟩ | ⟨depth', hagain, -⟩
      . simp only [Turn.next, Step.done.injEq] at hdone
        rw [← hdone]
        exact ⟨[], 0, .closed hspaces hclosing⟩
      . simp [Turn.next] at hagain
    . rcases hnext with ⟨hdone, -⟩ | ⟨depth', hagain, hrest⟩
      . simp [Turn.next] at hdone
      . simp only [Turn.next, Step.again.injEq] at hagain
        rw [← hagain] at hrest
        obtain ⟨es, k, hbody⟩ := ih' hlt hrest rfl
        exact ⟨es, _, .stray hspaces hsemicolon hbody⟩
    . rcases hentry with ⟨rfl, a, hitem⟩ | ⟨rfl, e, name, henum, hhead⟩
      . rcases hnext with ⟨hdone, -⟩ | ⟨depth', hagain, hrest⟩
        . simp [Turn.next] at hdone
        . simp only [Turn.next, Step.again.injEq] at hagain
          rw [← hagain] at hrest
          obtain ⟨es, k, hbody⟩ := ih' hlt hrest rfl
          exact ⟨a :: es, k, .entry hspaces hclosing hsemicolon hitem hbody⟩
      . rcases hnext with ⟨hdone, -⟩ | ⟨depth', hagain, hrest⟩
        . simp [Turn.next] at hdone
        . simp only [Turn.next, Step.again.injEq] at hagain
          rw [← hagain] at hrest
          obtain ⟨inner, b₂, hinner, hrest⟩ := loop_succ.mp hrest
          have hle := (Parser.advances hinner).length_le
          obtain ⟨es, k, hbody⟩ := ih' (by omega) hrest rfl
          have hmessage : messageParse.run b₁ = (.ok ⟨name, c.offset, inner⟩, b₂) := by
            apply restoring_ok.mpr
            apply andThen_ok.mpr
            refine ⟨name, c, hhead, ?_⟩
            apply andThen_ok.mpr
            exact ⟨c.offset, c, rfl, andThen_ok.mpr ⟨inner, b₂, hinner, rfl⟩⟩
          have hitem : messageEntry.run b₁ = (.ok (.message ⟨name, c.offset, inner⟩), b₂) := by
            unfold messageEntry
            rw [orElse_of_error (map_error.mpr henum)]
            exact orElse_of_ok (map_ok.mpr ⟨_, hmessage, rfl⟩)
          exact ⟨_, k, .entry hspaces hclosing hsemicolon hitem hbody⟩

theorem messageParse_body {b b' : Buffer} {parsed : BodyParseResult}
    (h : messageParse.run b = (.ok parsed, b'))
    : ∃ b₁ es k, Opened b b₁ ∧ b₁.offset = parsed.bodyStart ∧ Body messageEntry b₁ es k parsed.bodyEnd b' := by
  obtain ⟨name, b₁, hhead, h⟩ := andThen_ok.mp (restoring_ok.mp h)
  obtain ⟨n, b₂, hposition, h⟩ := andThen_ok.mp h
  obtain ⟨rfl, rfl⟩ := position_ok hposition
  obtain ⟨bodyEnd, b₃, hloop, h⟩ := andThen_ok.mp h
  simp only [pure_eq, succeed_run, Prod.mk.injEq, Except.ok.injEq] at h
  obtain ⟨rfl, rfl⟩ := h
  obtain ⟨es, k, hbody⟩ := exists_body_of_loop hloop
  exact ⟨b₂, es, k, blockHead_opened (restoring_ok.mp (messageHead_eq ▸ hhead)), rfl, hbody⟩

end Messages

end Gremlin
