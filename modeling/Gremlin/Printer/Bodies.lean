import Gremlin.Descriptors.Iterated
import Gremlin.Printer.Members

/-!
This module contains what the parsers of blocks take where their bodies are printed.
-/

namespace Gremlin

open Text Parser Buffer

/-! What a body is made of tells that its parser accepts it. -/

section Body

variable {α : Type} {item : EntryParser α}

theorem position_run (b : Buffer) : (position : EntryParser Nat).run b = (.ok b.offset, b) :=
  rfl

theorem Body.loop (heager : Eager item) {e : ParsingError} {b b' : Buffer} {es : List α} {k bodyEnd : Nat}
    (h : Body item b es k bodyEnd b')
    : (Parser.loop (bodyStep (discard (item.orElse (fail e)))) ()).run b = (.ok bodyEnd, b') := by
  have hprogress : Progress (bodyStep (discard (item.orElse (fail e)))) :=
    progress_bodyStep ((heager.orElse (eager_fail e)).andThen _)
  induction h with
  | closed hspaces hclosing =>
    rw [loop_ok_iff hprogress]
    left
    simp only [bodyStep, bind_eq]
    rw [andThen_of_ok hspaces, andThen_of_ok (position_run _), andThen_of_ok hclosing]
    rfl
  | @stray b b₁ b₂ b' es k bodyEnd hspaces hsemicolon _ ih =>
    have hclosing : closing.run b₁ = (.ok false, b₁) := by
      simp only [closing, (checkAndShift_true hsemicolon).1]
      rfl
    rw [loop_ok_iff hprogress]
    refine .inr ⟨(), b₂, ?_, ih⟩
    simp only [bodyStep, bind_eq]
    rw [andThen_of_ok hspaces, andThen_of_ok (position_run _), andThen_of_ok hclosing, if_neg (by decide),
      andThen_of_ok hsemicolon]
    rfl
  | @entry b b₁ b₂ b' a es k bodyEnd hspaces hclosing hsemicolon hitem _ ih =>
    have hentry : (discard (item.orElse (fail e))).run b₁ = (.ok (), b₂) :=
      map_ok.mpr ⟨a, orElse_of_ok hitem, rfl⟩
    rw [loop_ok_iff hprogress]
    refine .inr ⟨(), b₂, ?_, ih⟩
    simp only [bodyStep, bind_eq]
    rw [andThen_of_ok hspaces, andThen_of_ok (position_run _), andThen_of_ok hclosing, if_neg (by decide),
      andThen_of_ok hsemicolon, if_neg (by decide), andThen_of_ok hentry]
    rfl

theorem Body.unique {b b' c' : Buffer} {es es' : List α} {k k' bodyEnd bodyEnd' : Nat}
    (h : Body item b es k bodyEnd b') (h' : Body item b es' k' bodyEnd' c') : es' = es ∧ k' = k := by
  induction h generalizing es' k' bodyEnd' c' with
  | closed hspaces hclosing =>
    cases h' with
    | closed => exact ⟨rfl, rfl⟩
    | stray hspaces' hsemicolon' _ =>
      rw [hspaces, Prod.mk.injEq] at hspaces'
      rw [← hspaces'.2] at hsemicolon'
      have heq := (closing_true hclosing).1
      rw [(checkAndShift_true hsemicolon').1] at heq
      exact absurd (List.cons.inj heq).1 (by decide)
    | entry hspaces' hclosing' _ _ _ =>
      rw [hspaces, Prod.mk.injEq] at hspaces'
      rw [← hspaces'.2, hclosing] at hclosing'
      simp at hclosing'
  | stray hspaces hsemicolon _ ih =>
    cases h' with
    | closed hspaces' hclosing' =>
      rw [hspaces, Prod.mk.injEq] at hspaces'
      rw [← hspaces'.2] at hclosing'
      have heq := (closing_true hclosing').1
      rw [(checkAndShift_true hsemicolon).1] at heq
      exact absurd (List.cons.inj heq).1 (by decide)
    | stray hspaces' hsemicolon' hrest' =>
      rw [hspaces, Prod.mk.injEq] at hspaces'
      rw [← hspaces'.2, hsemicolon, Prod.mk.injEq] at hsemicolon'
      rw [← hsemicolon'.2] at hrest'
      obtain ⟨rfl, rfl⟩ := ih hrest'
      exact ⟨rfl, rfl⟩
    | entry hspaces' _ hsemicolon' _ _ =>
      rw [hspaces, Prod.mk.injEq] at hspaces'
      rw [← hspaces'.2, hsemicolon] at hsemicolon'
      simp at hsemicolon'
  | entry hspaces hclosing hsemicolon hitem _ ih =>
    cases h' with
    | closed hspaces' hclosing' =>
      rw [hspaces, Prod.mk.injEq] at hspaces'
      rw [← hspaces'.2, hclosing] at hclosing'
      simp at hclosing'
    | stray hspaces' hsemicolon' _ =>
      rw [hspaces, Prod.mk.injEq] at hspaces'
      rw [← hspaces'.2, hsemicolon] at hsemicolon'
      simp at hsemicolon'
    | entry hspaces' _ _ hitem' hrest' =>
      rw [hspaces, Prod.mk.injEq] at hspaces'
      rw [← hspaces'.2, hitem, Prod.mk.injEq, Except.ok.injEq] at hitem'
      rw [← hitem'.2] at hrest'
      obtain ⟨rfl, rfl⟩ := ih hrest'
      exact ⟨by rw [hitem'.1], rfl⟩

end Body

section Messages

variable [Libc]

theorem messageTurn_closes {b b₁ b' : Buffer} (hspaces : skipSpaces.run b = (.ok (), b₁))
    (hclosing : closing.run b₁ = (.ok true, b')) : messageTurn.run b = (.ok (.closes b₁.offset), b') := by
  unfold messageTurn
  rw [andThen_of_ok hspaces, andThen_of_ok (position_run _), andThen_of_ok hclosing]
  rfl

theorem Body.messageLoop {b b' : Buffer} {es : List MessageEntry} {k bodyEnd : Nat}
    (h : Body messageEntry b es k bodyEnd b') : (Parser.loop messageStep 0).run b = (.ok bodyEnd, b') := by
  induction h with
  | closed hspaces hclosing =>
    exact loop_turn.mpr ⟨_, _, messageTurn_closes hspaces hclosing, .inl ⟨rfl, rfl⟩⟩
  | @stray b b₁ b₂ b' es k bodyEnd hspaces hsemicolon _ ih =>
    have hclosing : closing.run b₁ = (.ok false, b₁) := by
      simp only [closing, (checkAndShift_true hsemicolon).1]
      rfl
    refine loop_turn.mpr ⟨.stays, b₂, ?_, .inr ⟨0, rfl, ih⟩⟩
    unfold messageTurn
    rw [andThen_of_ok hspaces, andThen_of_ok (position_run _), andThen_of_ok hclosing, if_neg (by decide),
      andThen_of_ok hsemicolon]
    rfl
  | @entry b b₁ b₂ b' a es k bodyEnd hspaces hclosing hsemicolon hitem _ ih =>
    have hturn {turn : Turn} {c : Buffer} (h : (((fun _ => Turn.stays) <$> enumParse).orElse
        (((fun _ => .opens) <$> messageHead).orElse ((fun _ => .stays) <$> messageTail))).run b₁ = (.ok turn, c))
        : messageTurn.run b = (.ok turn, c) := by
      unfold messageTurn
      rw [andThen_of_ok hspaces, andThen_of_ok (position_run _), andThen_of_ok hclosing, if_neg (by decide),
        andThen_of_ok hsemicolon, if_neg (by decide)]
      exact h
    unfold messageEntry at hitem
    rcases henum : enumParse.run b₁ with ⟨e | parsed, c⟩
    . obtain rfl := (restoring_error henum).1
      rw [orElse_of_error (map_error.mpr henum)] at hitem
      rcases hmessage : messageParse.run c with ⟨e' | parsed, c'⟩
      . obtain rfl := (restoring_error hmessage).1
        rw [orElse_of_error (map_error.mpr hmessage)] at hitem
        refine loop_turn.mpr ⟨.stays, b₂, hturn ?_, .inr ⟨0, rfl, ih⟩⟩
        rw [orElse_of_error (map_error.mpr henum)]
        rcases hhead : messageHead.run c' with ⟨e'' | name, d⟩
        . obtain rfl := (restoring_error hhead).1
          rw [orElse_of_error (map_error.mpr hhead)]
          exact map_ok.mpr ⟨a, hitem, rfl⟩
        . -- behind the head of a message there is no entry of another kind
          exact absurd hitem (never_messageTail isBlockWord_message names_parseIdentifier (restoring_ok.mp hhead)
            (by decide) (by decide) (by decide) (by decide) (by decide) a b₂)
      . rw [orElse_of_ok (map_ok.mpr ⟨parsed, hmessage, rfl⟩), Prod.mk.injEq] at hitem
        rw [hitem.2] at hmessage
        obtain ⟨name, d, hhead, hrest⟩ := andThen_ok.mp (restoring_ok.mp hmessage)
        obtain ⟨n, d', hposition, hrest⟩ := andThen_ok.mp hrest
        obtain ⟨rfl, rfl⟩ := position_ok hposition
        obtain ⟨inner, d'', hloop, hrest⟩ := andThen_ok.mp hrest
        simp only [pure_eq, succeed_run, Prod.mk.injEq, Except.ok.injEq] at hrest
        rw [hrest.2] at hloop
        refine loop_turn.mpr ⟨.opens, d', hturn ?_, .inr ⟨1, rfl, loop_succ.mpr ⟨inner, b₂, hloop, ih⟩⟩⟩
        rw [orElse_of_error (map_error.mpr henum)]
        exact orElse_of_ok (map_ok.mpr ⟨name, hhead, rfl⟩)
    . rw [orElse_of_ok (map_ok.mpr ⟨parsed, henum, rfl⟩), Prod.mk.injEq] at hitem
      rw [hitem.2] at henum
      exact loop_turn.mpr ⟨.stays, b₂, hturn (orElse_of_ok (map_ok.mpr ⟨parsed, henum, rfl⟩)), .inr ⟨0, rfl, ih⟩⟩

end Messages

namespace Printer

/-! Items that are printed one behind the other. -/

section Items

variable {ι α : Type} {item : EntryParser α} {text : ι → Span} {Kept : ι → Prop}

/--
What begins an item of a body.
-/
def IsItemHead (text : Span) : Prop :=
  ∃ c rest, text = c :: rest ∧ (isWhitespace c = false ∧ c ≠ '/') ∧ c ∉ ['\x7d', ';']

/--
What a parser does where an item is printed: it takes the item, or it does not succeed.
-/
structure Settled (item : EntryParser α) (text : Span) (Kept : Prop) : Prop where
  head : IsItemHead text
  outcome : ∀ b b', Covers b text b' → (∃ a, item.run b = (.ok a, b')) ∨ (¬Kept ∧ Never b item)

theorem settled_of_reads {text : Span} {R : α → Prop} {Kept : Prop} (head : IsItemHead text)
    (h : Reads item text R ∨ (¬Kept ∧ Refuses item text)) : Settled item text Kept where
  head := head
  outcome := by
    intro b b' hcovers
    rcases h with h | ⟨hnot, h⟩
    . obtain ⟨a, -, hrun⟩ := h b b' hcovers trivial
      exact .inl ⟨a, hrun⟩
    . exact .inr ⟨hnot, h b b' hcovers⟩

/--
The entry is what the parser takes where the item stands, somewhere behind the beginning.
-/
def ReadIn (item : EntryParser α) (text : ι → Span) (b : Buffer) (i : ι) (a : α) : Prop :=
  ∃ b₁ b₂, Advances b b₁ ∧ Covers b₁ (text i) b₂ ∧ item.run b₁ = (.ok a, b₂)

def bodyText (text : ι → Span) (items : List ι) : Span :=
  items.flatMap (' ' :: text ·) ++ [' ', '\x7d']

section Step

variable {b b₁ : Buffer} {c : Char} {rest : Span} (hspace : Covers b [' '] b₁) (hrest : b₁.rest = c :: rest)
  (hhead : (isWhitespace c = false ∧ c ≠ '/') ∧ c ∉ ['\x7d', ';'])

include hspace hrest hhead

theorem item_start
    : skipSpaces.run b = (.ok (), b₁) ∧ closing.run b₁ = (.ok false, b₁)
        ∧ (checkAndShift ';').run b₁ = (.ok false, b₁) := by
  obtain ⟨hhead, hother⟩ := hhead
  simp only [List.mem_cons, List.not_mem_nil, or_false, not_or] at hother
  refine ⟨skipSpaces_space hspace (hrest ▸ isTokenHead_cons hhead), ?_, ?_⟩
  . simp only [closing, hrest, if_neg hother.1]
  . apply checkAndShift_of_head
    rw [hrest]
    simpa using hother.2

theorem body_cons {es : List α} {k bodyEnd : Nat} {b' : Buffer} (h : Body item b es k bodyEnd b')
    : ∃ a b₂ es', es = a :: es' ∧ item.run b₁ = (.ok a, b₂) ∧ Body item b₂ es' k bodyEnd b' := by
  obtain ⟨hspaces, hclosing, hsemicolon⟩ := item_start hspace hrest hhead
  cases h with
  | closed hspaces' hclosing' =>
    rw [hspaces, Prod.mk.injEq] at hspaces'
    rw [← hspaces'.2, hclosing] at hclosing'
    simp at hclosing'
  | stray hspaces' hsemicolon' _ =>
    rw [hspaces, Prod.mk.injEq] at hspaces'
    rw [← hspaces'.2, hsemicolon] at hsemicolon'
    simp at hsemicolon'
  | entry hspaces' _ _ hitem hbody =>
    rw [hspaces, Prod.mk.injEq] at hspaces'
    rw [← hspaces'.2] at hitem
    exact ⟨_, _, _, rfl, hitem, hbody⟩

end Step

theorem body_nil {b b' : Buffer} (h : Covers b [' ', '\x7d'] b') : ∃ bodyEnd, Body item b [] 0 bodyEnd b' := by
  obtain ⟨b₁, hspace, hbracket⟩ := covers_cons.mp h
  have hhead : IsTokenHead b₁.rest := by
    rw [hbracket.1]
    exact isTokenHead_cons (by decide)
  have hclosing : closing.run b₁ = (.ok true, b') := by
    obtain ⟨offset, rest⟩ := b'
    obtain ⟨hrest, rfl⟩ := hbracket
    simp only [closing, hrest]
    rfl
  exact ⟨_, .closed (skipSpaces_space hspace hhead) hclosing⟩

theorem body_outcome {items : List ι} (h : ∀ i ∈ items, Settled item (text i) (Kept i)) {b b' : Buffer}
    (hcovers : Covers b (bodyText text items) b')
    : (∃ es bodyEnd, Body item b es 0 bodyEnd b' ∧ List.Forall₂ (ReadIn item text b) items es)
        ∨ ((∃ i ∈ items, ¬Kept i) ∧ ∀ es k bodyEnd c, ¬Body item b es k bodyEnd c) := by
  induction items generalizing b with
  | nil =>
    obtain ⟨bodyEnd, hbody⟩ := @body_nil _ item b b' hcovers
    exact .inl ⟨[], bodyEnd, hbody, .nil⟩
  | cons i items ih =>
    rw [List.forall_mem_cons] at h
    obtain ⟨⟨⟨d, rest, htext, hd⟩, houtcome⟩, h⟩ := h
    have hsplit : bodyText text (i :: items) = ' ' :: (text i ++ bodyText text items) := by
      simp [bodyText]
    rw [hsplit] at hcovers
    obtain ⟨b₁, hspace, hcovers⟩ := covers_cons.mp hcovers
    obtain ⟨b₂, hitem, hcovers⟩ := covers_append.mp hcovers
    have hrest : b₁.rest = d :: (rest ++ b₂.rest) := by
      rw [hitem.1, htext, List.cons_append]
    obtain ⟨hspaces, hclosing, hsemicolon⟩ := item_start hspace hrest hd
    rcases houtcome b₁ b₂ hitem with ⟨a, hrun⟩ | ⟨hnot, hnever⟩
    . rcases ih h hcovers with ⟨es, bodyEnd, hbody, hread⟩ | ⟨⟨j, hmem, hnot⟩, hnone⟩
      . refine .inl ⟨a :: es, bodyEnd, .entry hspaces hclosing hsemicolon hrun hbody, ?_⟩
        refine .cons ⟨b₁, b₂, Parser.advances hspaces, hitem, hrun⟩ (hread.imp ?_)
        rintro j a' ⟨c₁, c₂, hforward, hread⟩
        exact ⟨c₁, c₂, (Parser.advances hspaces).trans ((Parser.advances hrun).trans hforward), hread⟩
      . refine .inr ⟨⟨j, List.mem_cons_of_mem _ hmem, hnot⟩, ?_⟩
        intro es k bodyEnd c hbody
        obtain ⟨a', b₃, es', rfl, hrun', hbody⟩ := body_cons hspace hrest hd hbody
        rw [hrun, Prod.mk.injEq] at hrun'
        rw [← hrun'.2] at hbody
        exact hnone es' k bodyEnd c hbody
    . refine .inr ⟨⟨i, List.mem_cons_self, hnot⟩, ?_⟩
      intro es k bodyEnd c hbody
      obtain ⟨a', b₃, es', rfl, hrun', -⟩ := body_cons hspace hrest hd hbody
      exact hnever a' b₃ hrun'

end Items

/-! Blocks. -/

def headText (word : String) (name : Name) : Span :=
  word.toList ++ ' ' :: (name.val ++ [' ', '\x7b'])

theorem reads_blockHead (word : String) (name : Name)
    : Reads (blockHead word parseIdentifier) (headText word name) (· = name.val) := by
  apply takes_keyword
  apply takes_skip (name.2.isTokenHead.append _)
  apply (readsToken_identifier name.2).spaced
  rintro _ rfl
  apply takes_skip (isTokenHead_cons (by decide))
  apply takes_expect
  exact takes_succeed rfl

theorem behind_flatMap {ι : Type} {tokens : ι → List Span} (hne : ∀ i, tokens i ≠ []) (items : List ι)
    : behind (items.flatMap tokens) = items.flatMap fun i => ' ' :: spaced (tokens i) := by
  induction items with
  | nil => rfl
  | cons i items ih => rw [List.flatMap_cons, List.flatMap_cons, behind_append, ih, space_spaced (hne i)]

theorem spaced_block {ι : Type} {tokens : ι → List Span} (hne : ∀ i, tokens i ≠ []) (word : String) (name : Name)
    (items : List ι) : spaced (blockTokens word name (items.flatMap tokens))
      = headText word name ++ bodyText (fun i => spaced (tokens i)) items := by
  rw [blockTokens, List.cons_append, List.cons_append, spaced_cons, behind_append, behind_append, behind_flatMap hne]
  simp [headText, bodyText]

/--
A block was taken where it is printed: its name, and the entries of its body, each where it is printed.
-/
structure Taken {ι α : Type} (item : EntryParser α) (text : ι → Span) (name : Name) (items : List ι)
    (b b' : Buffer) (parsed : BodyParseResult) : Prop where
  name : parsed.name = name.val
  body : ∃ b₁ es, Advances b b₁ ∧ b₁.offset = parsed.bodyStart ∧ Body item b₁ es 0 parsed.bodyEnd b'
    ∧ List.Forall₂ (ReadIn item text b₁) items es

section Block

variable {ι α : Type} {item : EntryParser α} {text : ι → Span} {Kept : ι → Prop} {items : List ι}
  (hitems : ∀ i ∈ items, Settled item (text i) (Kept i))

include hitems

theorem block_outcome (heager : Eager item) (e : ParsingError) (word : String) (name : Name) {b b' : Buffer}
    (hcovers : Covers b (headText word name ++ bodyText text items) b')
    : (∃ parsed, (block word parseIdentifier (discard (item.orElse (fail e)))).run b = (.ok parsed, b')
          ∧ Taken item text name items b b' parsed)
        ∨ ((∃ i ∈ items, ¬Kept i) ∧ Never b (block word parseIdentifier (discard (item.orElse (fail e))))) := by
  obtain ⟨b₁, hhead, hbody⟩ := covers_append.mp hcovers
  have hrun := (reads_blockHead word name).run hhead trivial
  rw [block_eq]
  rcases body_outcome hitems hbody with ⟨es, bodyEnd, hbody, hread⟩ | ⟨hnot, hnone⟩
  . refine .inl ⟨⟨name.val, b₁.offset, bodyEnd⟩, ?_, rfl, b₁, es, Parser.advances hrun, rfl, hbody, hread⟩
    apply restoring_ok.mpr
    rw [andThen_of_ok hrun, andThen_of_ok (position_run _), andThen_of_ok (hbody.loop heager)]
    rfl
  . refine .inr ⟨hnot, ?_⟩
    intro parsed c hblock
    have hblock := restoring_ok.mp hblock
    rw [andThen_of_ok hrun, andThen_of_ok (position_run _)] at hblock
    obtain ⟨bodyEnd, c', hloop, -⟩ := andThen_ok.mp hblock
    obtain ⟨es, k, hbody⟩ := exists_body item_of_discard hloop
    exact hnone es k bodyEnd c' hbody

end Block

end Printer

end Gremlin
