import Gremlin.Printer.Ahead
import Gremlin.Printer.Options

/-!
This module contains what the parsers take of printed reserved names and numbers.
-/

namespace Gremlin.Printer

open Text Parser Buffer

/-! Ranges. -/

/--
What is behind an item of a list.
-/
def BehindItem (rest : Span) : Prop :=
  ∃ c rest', rest = ' ' :: c :: rest' ∧ (c = ',' ∨ c = ';')

theorem BehindItem.space {rest : Span} (h : BehindItem rest) : BeforeSpace rest := by
  obtain ⟨c, rest', rfl, -⟩ := h
  rfl

def RangeDecl.Kept (range : RangeDecl) : Prop :=
  0 ≤ range.start.val

theorem readsToken_bound {n : Int32} : ReadsToken parseIntegerLiteral (Printf.signed n.val) (· = n.val) :=
  readsToken_integer (isIntegerLiteral_signed n.val) (by have := n.2.1; omega) (by have := n.2.2; omega)

/--
Whether a range goes on behind its first number.
-/
def rangeGoesOn : EntryParser Bool :=
  orElse (restoring do
    skipSpacesUnchecked
    (checkStrWithSpaceAndShift "to").require .unexpectedToken
    pure true) (succeed false)

/--
A range behind the word in it.
-/
def rangeStop (start : Int) : EntryParser Unit := do
  if ← checkStrAndShift "max" then
    pure ()
  else
    let stop ← parseIntegerLiteral
    if stop < 0 ∨ stop > 2 ^ 31 - 1 ∨ stop < start then fail .invalidExtensionsRange else pure ()

theorem parseRange_eq
    : parseRange = (parseIntegerLiteral.andThen fun start =>
        if start < 0 ∨ start > 2 ^ 31 - 1 then fail .invalidExtensionsRange
        else rangeGoesOn.andThen fun found => if found then rangeStop start else succeed ()).restoring :=
  rfl

theorem takes_goesOn : Reads rangeGoesOn " to ".toList (· = true) := by
  have hword : Reads (checkStrWithSpaceAndShift "to") ("to".toList ++ ([' '] ++ [])) (· = true) := by
    apply Takes.orElse
    apply Takes.restoring
    refine Takes.andThen (.require (takes_checkStr (F := Anything) "to") _) ?_ fun _ _ => trivial
    rintro _ -
    refine Takes.andThen (.require (takes_shiftIf (F := Anything) (by decide)) _) ?_ fun _ _ => trivial
    rintro _ -
    exact takes_succeed rfl
  apply Takes.orElse
  apply Takes.restoring
  refine @takes_skipUnchecked _ _ _ _ ("to ".toList ++ []) (isTokenHead_cons (by decide)) ?_
  refine Takes.andThen (hword.require _) ?_ fun _ _ => trivial
  rintro _ -
  exact takes_succeed rfl

theorem goesOn_behind {b : Buffer} (h : BehindItem b.rest) : rangeGoesOn.run b = (.ok false, b) := by
  obtain ⟨offset, _⟩ := b
  obtain ⟨c, rest, rfl, hc⟩ := h
  have hhead : isWhitespace c = false ∧ c ≠ '/' := by
    rcases hc with rfl | rfl <;> decide
  have hcovers : Covers ⟨offset, ' ' :: c :: rest⟩ [' '] ⟨offset + 1, c :: rest⟩ := ⟨rfl, rfl⟩
  have hword : (checkStrWithSpaceAndShift "to").run ⟨offset + 1, c :: rest⟩ = (.ok false, ⟨offset + 1, c :: rest⟩) := by
    have hdiffers : Differs [c] "to".toList := by
      rcases hc with rfl | rfl <;> decide
    have hcheck := checkStr_of_differs hdiffers (b := ⟨offset + 1, c :: rest⟩) ⟨rest, rfl⟩
    unfold checkStrWithSpaceAndShift
    apply orElse_of_error (e := .unexpectedToken)
    simp only [restoring, require, andThen_assoc]
    rw [andThen_of_ok hcheck]
    rfl
  apply orElse_of_error (e := .unexpectedToken)
  simp only [restoring, bind_eq]
  rw [andThen_of_ok (skipSpacesUnchecked_of_ok (skipSpaces_space hcovers (isTokenHead_cons hhead)))]
  simp only [require, andThen_assoc]
  rw [andThen_of_ok hword]
  rfl

theorem signed_head (n : Int) : ∃ c digits, Printf.signed n = c :: digits ∧ (isDigit c = true ∨ c = '-') := by
  unfold Printf.signed
  split
  . exact ⟨'-', _, rfl, .inr rfl⟩
  . obtain ⟨c, digits, hdigits, hc⟩ := isInteger_head (isInteger_unsigned n.natAbs)
    exact ⟨c, digits, hdigits, .inl hc⟩

theorem takes_stop {start : Int} {stop : Int32} (hstart : 0 ≤ start) (h : start ≤ stop.val)
    : ReadsToken (rangeStop start) (Printf.signed stop.val) fun _ => True := by
  intro b b' hcovers hend
  have hlimits := stop.2
  have hmax : (checkStrAndShift "max").run b = (.ok false, b) := by
    obtain ⟨c, digits, hsigned, hc⟩ := signed_head stop.val
    have hdiffers : Differs [c] "max".toList := by
      constructor
      . rw [show "max".toList = ['m', 'a', 'x'] from rfl, List.cons_prefix_cons]
        rintro ⟨rfl, -⟩
        rcases hc with hc | hc <;> exact absurd hc (by decide)
      . intro hpre
        have := hpre.length_le
        simp at this
    apply checkStr_of_differs hdiffers
    rw [hcovers.1, hsigned]
    exact ⟨digits ++ b'.rest, rfl⟩
  refine ⟨(), trivial, ?_⟩
  simp only [rangeStop, bind_eq]
  rw [andThen_of_ok hmax, if_neg (by simp), andThen_of_ok (readsToken_bound.run hcovers hend), if_neg (by omega)]
  rfl

theorem takes_highest {start : Int} : Reads (rangeStop start) "max".toList fun _ => True := by
  have := (takes_checkStr (F := Anything) "max").andThen (β := Unit) (G := Anything) (t := []) (Q := fun _ => True)
    (f := fun found => if found = true then succeed () else parseIntegerLiteral.andThen fun stop =>
      if stop < 0 ∨ stop > 2 ^ 31 - 1 ∨ stop < start then fail .invalidExtensionsRange else succeed ()) ?_
    fun _ _ => trivial
  . rwa [List.append_nil] at this
  . rintro _ rfl
    exact takes_succeed trivial

theorem takes_range (range : RangeDecl) (h : range.Kept)
    : Takes BehindItem parseRange (spaced range.tokens) fun _ => True := by
  have hstart := h
  have hlimits := range.start.2
  unfold RangeDecl.Kept at hstart
  rw [parseRange_eq, RangeDecl.tokens, spaced_cons]
  apply Takes.restoring
  cases hstop : range.stop with
  | single =>
    intro b b' hcovers hend
    dsimp only at hcovers
    rw [behind_nil, List.append_nil] at hcovers
    rw [andThen_of_ok (readsToken_bound.run hcovers hend.space), if_neg (by omega), andThen_of_ok (goesOn_behind hend)]
    exact ⟨(), trivial, rfl⟩
  | upTo n =>
    have hle := range.ordered n hstop
    have htext : behind ["to".toList, Printf.signed n.val] = " to ".toList ++ Printf.signed n.val := by
      simp
    dsimp only
    rw [htext]
    refine Takes.andThen readsToken_bound ?_ fun _ _ => rfl
    rintro _ rfl
    rw [if_neg (by omega)]
    refine Takes.andThen takes_goesOn ?_ fun _ _ => trivial
    rintro _ rfl
    exact (takes_stop hstart hle).mono fun _ => BehindItem.space
  | max =>
    have htext : behind ["to".toList, "max".toList] = " to ".toList ++ "max".toList := by
      simp
    dsimp only
    rw [htext]
    refine Takes.andThen readsToken_bound ?_ fun _ _ => rfl
    rintro _ rfl
    rw [if_neg (by omega)]
    refine Takes.andThen takes_goesOn ?_ fun _ _ => trivial
    rintro _ rfl
    exact takes_highest.mono fun _ _ => trivial

theorem refuses_range (range : RangeDecl) (h : ¬range.Kept) {text : Span}
    : Refuses parseRange (spaced range.tokens ++ ' ' :: text) := by
  have hstart := h
  unfold RangeDecl.Kept at hstart
  have htext : ∃ tail, spaced range.tokens ++ ' ' :: text = Printf.signed range.start.val ++ ' ' :: tail := by
    rw [RangeDecl.tokens, spaced_cons]
    cases range.stop with
    | single => exact ⟨text, by simp⟩
    | upTo n => exact ⟨"to ".toList ++ (Printf.signed n.val ++ ' ' :: text), by simp⟩
    | max => exact ⟨"to max ".toList ++ text, by simp⟩
  obtain ⟨tail, htext⟩ := htext
  rw [parseRange_eq, htext]
  apply Refuses.restoring
  apply readsToken_bound.refusesSpaced
  rintro _ rfl
  rw [if_pos (.inl (by omega))]
  exact refuses_fail _ _

/-! Lists. -/

section Lists

variable {α : Type} {p : EntryParser Unit} {text : α → Span} {Kept : α → Prop}

/--
What a parser of an item does where this item is printed.
-/
structure IsItem (p : EntryParser Unit) (text : α → Span) (Kept : α → Prop) (item : α) : Prop where
  head : IsTokenHead (text item)
  takes : Kept item → Takes BehindItem p (text item) fun _ => True
  refuses : ¬Kept item → ∀ text', Refuses p (text item ++ ' ' :: text')

/--
More items of a list, each behind a comma and in front of a space.
-/
def moreItems (text : α → Span) (more : List α) : Span :=
  more.flatMap fun item => ',' :: ' ' :: (text item ++ [' '])

def BeforeMark (rest : Span) : Prop :=
  ∃ c rest', rest = c :: rest' ∧ (c = ',' ∨ c = ';')

theorem BeforeMark.isTokenHead {rest : Span} (h : BeforeMark rest) : IsTokenHead rest := by
  obtain ⟨c, rest', rfl, hc⟩ := h
  apply isTokenHead_cons
  rcases hc with rfl | rfl <;> decide

theorem BeforeMark.behind {rest : Span} (h : BeforeMark rest) : BehindItem (' ' :: rest) := by
  obtain ⟨c, rest', rfl, hc⟩ := h
  exact ⟨c, rest', rfl, hc⟩

theorem beforeMark_more (more : List α) {rest : Span} (h : rest.head? = some ';')
    : BeforeMark (moreItems text more ++ rest) := by
  cases more with
  | nil =>
    obtain ⟨rest, rfl⟩ := List.head?_eq_some_iff.mp h
    exact ⟨';', rest, rfl, .inr rfl⟩
  | cons item more => exact ⟨',', _, rfl, .inl rfl⟩

theorem takes_itemEnd {β : Type} {f : Unit → EntryParser β} {P : β → Prop} {text' : Span}
    (hp : Takes BehindItem p text' fun _ => True) (hf : Takes BeforeMark (f ()) [] P)
    : Takes BeforeMark (p.andThen fun _ => skipSpaces.andThen f) (text' ++ [' ']) P := by
  refine Takes.andThen hp ?_ fun _ => BeforeMark.behind
  rintro _ -
  intro b b' hcovers hend
  rw [andThen_of_ok (skipSpaces_space hcovers hend.isTokenHead)]
  exact hf b' b' (.refl b') hend

theorem takes_listStep {item : α} (h : IsItem p text Kept item) (hkept : Kept item) (count : Nat)
    : Takes BeforeMark (listStep p count) (',' :: ' ' :: (text item ++ [' '])) (· = .again (count + 1)) := by
  refine Takes.andThen (s := [',']) (F := Anything) (takes_check ',') ?_ fun _ _ => trivial
  rintro _ rfl
  exact takes_skip (h.head.append _) (takes_itemEnd (h.takes hkept) (takes_succeed rfl))

theorem takes_moreItems {more : List α} (h : ∀ item ∈ more, IsItem p text Kept item ∧ Kept item) (count : Nat)
    : Takes (·.head? = some ';') (loop (listStep p) count) (moreItems text more) fun _ => True := by
  induction more generalizing count with
  | nil =>
    intro b b' hcovers hend
    obtain rfl := eq_of_covers_nil hcovers
    refine ⟨count, trivial, ?_⟩
    rw [loop_ok_iff (progress_listStep p)]
    left
    simp only [listStep, bind_eq]
    rw [andThen_of_ok (checkAndShift_of_head (by rw [hend]; simp))]
    rfl
  | cons item more ih =>
    rw [List.forall_mem_cons] at h
    intro b b' hcovers hend
    obtain ⟨b₁, hcovers, hcovers'⟩ := covers_append.mp hcovers
    have hmark : BeforeMark b₁.rest := hcovers'.1 ▸ beforeMark_more more hend
    have hstep := (takes_listStep h.1.1 h.1.2 count).run hcovers hmark
    obtain ⟨n, -, hloop⟩ := ih h.2 (count + 1) b₁ b' hcovers' hend
    refine ⟨n, trivial, ?_⟩
    rw [loop_ok_iff (progress_listStep p)]
    exact .inr ⟨_, b₁, hstep, hloop⟩

theorem takes_commaList {first : α} {more : List α} (h : ∀ item ∈ first :: more, IsItem p text Kept item ∧ Kept item)
    : Takes (·.head? = some ';') (commaList p) (text first ++ ' ' :: moreItems text more) fun _ => True := by
  rw [List.forall_mem_cons] at h
  refine Takes.andThen (h.1.1.takes h.1.2) ?_ fun rest hend => (beforeMark_more more hend).behind
  rintro _ -
  intro b b' hcovers hend
  obtain ⟨b₁, hspace, hcovers⟩ := covers_cons.mp hcovers
  have hhead : IsTokenHead (moreItems text more ++ b'.rest) := (beforeMark_more more hend).isTokenHead
  rw [← hcovers.1] at hhead
  simp only [bind_eq]
  rw [andThen_of_ok (skipSpaces_space hspace hhead)]
  exact takes_moreItems h.2 1 b₁ b' hcovers hend

theorem refuses_moreItems {more : List α} (h : ∀ item ∈ more, IsItem p text Kept item)
    (hnot : ∃ item ∈ more, ¬Kept item) (count : Nat)
    : Refuses (loop (listStep p) count) (moreItems text more ++ [';']) := by
  induction more generalizing count with
  | nil => simp at hnot
  | cons item more ih =>
    rw [List.forall_mem_cons] at h
    intro b b' hcovers n c hrun
    have htext : moreItems text (item :: more) ++ [';']
        = (',' :: ' ' :: (text item ++ [' '])) ++ (moreItems text more ++ [';']) := by
      simp [moreItems]
    rw [htext] at hcovers
    rw [loop_ok_iff (progress_listStep p)] at hrun
    by_cases hkept : Kept item
    . obtain ⟨b₁, hcovers, hcovers'⟩ := covers_append.mp hcovers
      have hmark : BeforeMark b₁.rest := by
        rw [hcovers'.1, List.append_assoc]
        exact beforeMark_more more rfl
      have hstep := (takes_listStep h.1 hkept count).run hcovers hmark
      have hnot' : ∃ item ∈ more, ¬Kept item := by
        obtain ⟨other, hmem, hother⟩ := hnot
        rcases List.mem_cons.mp hmem with rfl | hmem
        . exact absurd hkept hother
        . exact ⟨other, hmem, hother⟩
      rcases hrun with hdone | ⟨_, _, hagain, hloop⟩
      . rw [hstep] at hdone
        simp at hdone
      . rw [hstep, Prod.mk.injEq, Except.ok.injEq, Step.again.injEq] at hagain
        rw [← hagain.1, ← hagain.2] at hloop
        exact ih h.2 hnot' (count + 1) b₁ b' hcovers' n c hloop
    . have hrefuses : Refuses (listStep p count)
          ((',' :: ' ' :: (text item ++ [' '])) ++ (moreItems text more ++ [';'])) := by
        have hcomma : Takes Anything (checkAndShift ',') [','] (· = true) := takes_check ','
        simp only [List.cons_append, List.append_assoc]
        refine hcomma.refuses ?_ fun _ => trivial
        rintro _ rfl
        exact refuses_skip (h.1.head.append _) ((h.1.refuses hkept _).andThen _)
      rcases hrun with hdone | ⟨_, _, hagain, -⟩
      . exact hrefuses b b' hcovers _ _ hdone
      . exact hrefuses b b' hcovers _ _ hagain

theorem refuses_commaList {first : α} {more : List α} (h : ∀ item ∈ first :: more, IsItem p text Kept item)
    (hnot : ∃ item ∈ first :: more, ¬Kept item)
    : Refuses (commaList p) (text first ++ ' ' :: (moreItems text more ++ [';'])) := by
  have hfirst := h first List.mem_cons_self
  by_cases hkept : Kept first
  . have hnot' : ∃ item ∈ more, ¬Kept item := by
      obtain ⟨other, hmem, hother⟩ := hnot
      rcases List.mem_cons.mp hmem with rfl | hmem
      . exact absurd hkept hother
      . exact ⟨other, hmem, hother⟩
    have hmark (rest : Span) : BeforeMark (moreItems text more ++ [';'] ++ rest) := by
      rw [List.append_assoc]
      exact beforeMark_more more rfl
    refine (hfirst.takes hkept).refuses ?_ fun rest => (hmark rest).behind
    rintro _ -
    intro b b' hcovers n c hrun
    obtain ⟨b₁, hspace, hcovers⟩ := covers_cons.mp hcovers
    have hhead := (hmark b'.rest).isTokenHead
    rw [← hcovers.1] at hhead
    simp only [bind_eq] at hrun
    rw [andThen_of_ok (skipSpaces_space hspace hhead)] at hrun
    exact refuses_moreItems (fun item hmem => h item (List.mem_cons_of_mem _ hmem)) hnot' 1 b₁ b' hcovers n c hrun
  . exact (hfirst.refuses hkept _).andThen _

end Lists

theorem behind_more {α : Type} {tokens : α → List Span} (hne : ∀ item, tokens item ≠ []) (more : List α)
    : behind ((more.flatMap fun item => [','] :: tokens item) ++ [[';']])
        = ' ' :: (moreItems (fun item => spaced (tokens item)) more ++ [';']) := by
  induction more with
  | nil => simp [moreItems]
  | cons item more ih =>
    rw [List.flatMap_cons, List.append_assoc, behind_append, ih, behind_cons, ← space_spaced (hne item)]
    simp [moreItems]

theorem behind_commaTokens {α : Type} {tokens : α → List Span} (hne : ∀ item, tokens item ≠ []) (first : α)
    (more : List α) : behind (commaTokens tokens first more ++ [[';']])
      = ' ' :: (spaced (tokens first) ++ ' ' :: (moreItems (fun item => spaced (tokens item)) more ++ [';'])) := by
  rw [commaTokens, List.append_assoc, behind_append, behind_more hne, ← space_spaced (hne first), List.cons_append]

/-! Reserved names and numbers. -/

def ReservedDecl.Kept : ReservedDecl → Prop
  | .names _ _ => True
  | .ranges first more => ∀ range ∈ first :: more, range.Kept

theorem isItem_range (range : RangeDecl)
    : IsItem parseRange (fun range => spaced range.tokens) RangeDecl.Kept range where
  head := by
    rw [RangeDecl.tokens, spaced_cons]
    exact (isIntegerLiteral_signed _).isTokenHead.append _
  takes := takes_range range
  refuses := fun h text' => refuses_range range h

theorem isItem_string (literal : StringToken)
    : IsItem (parseStringLiteral *> pure ()) (fun literal => spaced [literal.val]) (fun _ => True) literal := by
  obtain ⟨_, span, close, items, h⟩ := literal
  have htext : spaced [close :: (span ++ [close])] = close :: (span ++ [close]) := by
    rw [spaced_cons, behind_nil, List.append_nil]
  constructor
  . dsimp only
    rw [h.literal_eq, htext]
    rcases h.quote with rfl | rfl <;> exact isTokenHead_cons (by decide)
  . rintro -
    dsimp only
    rw [spaced_cons, behind_nil]
    refine Takes.andThen (takes_string (F := Anything) h) ?_ fun _ _ => trivial
    rintro _ -
    exact takes_succeed trivial
  . exact fun hnot => absurd trivial hnot

/--
The items of a list of names, or of one of numbers.
-/
def reservedItem (names : Bool) : EntryParser Unit :=
  if names then parseStringLiteral *> pure () else parseRange

theorem reservedParse_eq
    : reservedParse = ((keyword "reserved" .unexpectedToken).andThen fun _ => skipSpaces.andThen fun _ =>
        (looking fun first => first = '"' || first = '\x27').andThen fun names =>
          (commaList (reservedItem names)).andThen fun count => (expect ';' .semicolonExpected).andThen fun _ =>
            succeed ⟨if names then .names else .ranges, count⟩).restoring := by
  unfold reservedParse
  simp only [bind_eq, pure_eq]
  congr 2
  funext _
  congr 1
  funext _
  congr 1
  funext names
  cases names <;> rfl

section Lists

variable {α : Type} {text : α → Span} {Kept : α → Prop} {names : Bool} {first : α} {more : List α}
  (hitems : ∀ item ∈ first :: more, IsItem (reservedItem names) text Kept item)
  (hfirst : ∃ c rest, text first = c :: rest ∧ (decide (c = '"') || decide (c = '\x27')) = names)

include hitems hfirst

theorem reads_reservedList (h : ∀ item ∈ first :: more, Kept item)
    : Reads reservedParse ("reserved".toList ++ ' ' :: (text first ++ ' ' :: (moreItems text more ++ [';'])))
        fun _ => True := by
  have hlist := takes_commaList fun item hmem => ⟨hitems item hmem, h item hmem⟩
  have hhead := (hitems first List.mem_cons_self).head
  obtain ⟨c, rest, hc, rfl⟩ := hfirst
  rw [reservedParse_eq]
  apply Takes.restoring
  apply takes_keyword
  apply takes_skip (hhead.append _)
  rw [hc, List.cons_append]
  apply takes_looking
  have hend := hlist.andThen (G := Anything) (t := [';']) (Q := fun _ => True)
    (f := fun count => (expect ';' .semicolonExpected).andThen fun _ => succeed (ReservedParseResult.mk
      (if (decide (c = '"') || decide (c = '\x27')) = true then .names else .ranges) count)) ?_ fun _ _ => rfl
  . rw [hc] at hend
    simpa only [List.cons_append, List.append_assoc] using hend
  . rintro count -
    exact takes_expect (takes_succeed trivial)

theorem refuses_reservedList (h : ∃ item ∈ first :: more, ¬Kept item)
    : Refuses reservedParse ("reserved".toList ++ ' ' :: (text first ++ ' ' :: (moreItems text more ++ [';']))) := by
  have hlist := refuses_commaList hitems h
  have hhead := (hitems first List.mem_cons_self).head
  obtain ⟨c, rest, hc, rfl⟩ := hfirst
  rw [reservedParse_eq]
  apply Refuses.restoring
  apply refuses_keyword
  apply refuses_skip (hhead.append _)
  rw [hc, List.cons_append] at hlist ⊢
  apply refuses_looking
  exact hlist.andThen _

end Lists

theorem range_head (range : RangeDecl) : ∃ c rest, spaced range.tokens = c :: rest ∧ (isDigit c = true ∨ c = '-') := by
  obtain ⟨c, digits, hsigned, hc⟩ := signed_head range.start.val
  rw [RangeDecl.tokens, spaced_cons, hsigned]
  exact ⟨c, _, rfl, hc⟩

theorem range_not_quote (range : RangeDecl)
    : ∃ c rest, spaced range.tokens = c :: rest ∧ (decide (c = '"') || decide (c = '\x27')) = false := by
  obtain ⟨c, rest, hrange, hc⟩ := range_head range
  refine ⟨c, rest, hrange, ?_⟩
  rw [Bool.or_eq_false_iff, decide_eq_false_iff_not, decide_eq_false_iff_not]
  constructor
  . rintro rfl
    exact absurd hc (by decide)
  . rintro rfl
    exact absurd hc (by decide)

theorem string_quote (literal : StringToken)
    : ∃ c rest, spaced [literal.val] = c :: rest ∧ (decide (c = '"') || decide (c = '\x27')) = true := by
  obtain ⟨_, span, close, items, h⟩ := literal
  refine ⟨close, span ++ [close], ?_, ?_⟩
  . rw [spaced_cons, behind_nil, List.append_nil]
    exact h.literal_eq
  . rcases h.quote with rfl | rfl <;> rfl

theorem ReservedDecl.spaced_names (first : StringToken) (more : List StringToken)
    : spaced (ReservedDecl.names first more).tokens = "reserved".toList ++ ' ' :: (spaced [first.val]
        ++ ' ' :: (moreItems (fun literal => spaced [literal.val]) more ++ [';'])) := by
  rw [ReservedDecl.tokens, List.cons_append, spaced_cons, behind_commaTokens (by simp)]

theorem ReservedDecl.spaced_ranges (first : RangeDecl) (more : List RangeDecl)
    : spaced (ReservedDecl.ranges first more).tokens = "reserved".toList ++ ' ' :: (spaced first.tokens
        ++ ' ' :: (moreItems (fun range => spaced range.tokens) more ++ [';'])) := by
  rw [ReservedDecl.tokens, List.cons_append, spaced_cons, behind_commaTokens (by simp [RangeDecl.tokens])]

theorem reads_reserved (res : ReservedDecl) (h : res.Kept) : Reads reservedParse (spaced res.tokens) fun _ => True := by
  cases res with
  | names first more =>
    rw [ReservedDecl.spaced_names]
    have hitems : ∀ literal ∈ first :: more, IsItem (reservedItem true)
      (fun literal => spaced [literal.val]) (fun _ => True) literal := fun literal _ => isItem_string literal
    exact reads_reservedList hitems (string_quote first) fun _ _ => trivial
  | ranges first more =>
    rw [ReservedDecl.spaced_ranges]
    have hitems : ∀ range ∈ first :: more, IsItem (reservedItem false)
      (fun range => spaced range.tokens) RangeDecl.Kept range := fun range _ => isItem_range range
    exact reads_reservedList hitems (range_not_quote first) h

theorem refuses_reserved (res : ReservedDecl) (h : ¬res.Kept) : Refuses reservedParse (spaced res.tokens) := by
  cases res with
  | names first more => exact absurd trivial h
  | ranges first more =>
    rw [ReservedDecl.spaced_ranges]
    have hitems : ∀ range ∈ first :: more, IsItem (reservedItem false)
      (fun range => spaced range.tokens) RangeDecl.Kept range := fun range _ => isItem_range range
    simp only [ReservedDecl.Kept, not_forall] at h
    obtain ⟨range, hmem, hrange⟩ := h
    exact refuses_reservedList hitems (range_not_quote first) ⟨range, hmem, hrange⟩

end Gremlin.Printer
