import Gremlin.Descriptors.Atomic
import Gremlin.Text.Separated

/-!
This module contains the agreement of the two loops over a list of options: the parser's, which counts the
options, and the builder's, which looks for one by its name.
-/

namespace Gremlin

open Text Parser Buffer

section Options

variable [Libc]

/--
An option with the spaces and comments around it.
-/
def spacedItem : EntryParser OptionParseResult := do
  skipSpaces
  let item ← optionItemParse
  skipSpaces
  pure item

/--
The options between the brackets, of which there is at least one.
-/
abbrev OptionItems : Buffer → List OptionParseResult → Buffer → Prop :=
  Items spacedItem ',' ']'

/--
The options of a whole list, from the opening bracket on.
-/
inductive OptionList : Buffer → List OptionParseResult → Buffer → Prop where
  | empty {b b₁ b₂ b' : Buffer} (hopen : (checkAndShift '[').run b = (.ok true, b₁))
      (hskip : skipSpaces.run b₁ = (.ok (), b₂)) (hclose : (checkAndShift ']').run b₂ = (.ok true, b'))
      : OptionList b [] b'
  | items {b b₁ b' : Buffer} {items : List OptionParseResult} (hopen : (checkAndShift '[').run b = (.ok true, b₁))
      (hitems : OptionItems b₁ items b') : OptionList b items b'

theorem spacedItem_ok {b b' : Buffer} {item : OptionParseResult}
    : spacedItem.run b = (.ok item, b')
        ↔ ∃ b₁ b₂, skipSpaces.run b = (.ok (), b₁) ∧ optionItemParse.run b₁ = (.ok item, b₂)
          ∧ skipSpaces.run b₂ = (.ok (), b') := by
  unfold spacedItem
  constructor
  . intro h
    obtain ⟨⟨⟩, b₁, hskip, h⟩ := andThen_ok.mp h
    obtain ⟨item', b₂, hitem, h⟩ := andThen_ok.mp h
    obtain ⟨⟨⟩, b₃, hskip', h⟩ := andThen_ok.mp h
    cases h
    exact ⟨b₁, b₂, hskip, hitem, hskip'⟩
  . rintro ⟨b₁, b₂, hskip, hitem, hskip'⟩
    apply andThen_ok.mpr
    refine ⟨(), b₁, hskip, andThen_ok.mpr ⟨item, b₂, hitem, ?_⟩⟩
    exact andThen_ok.mpr ⟨(), b', hskip', rfl⟩

/-! The loop of the parser. -/

theorem optionListStep_ok {count : Nat} {b b' : Buffer} {next : Step Nat Nat}
    (h : (optionListStep count).run b = (.ok next, b'))
    : ∃ item b₁ b₂, optionItemParse.run b = (.ok item, b₁) ∧ skipSpaces.run b₁ = (.ok (), b₂)
        ∧ ((next = .done (count + 1) ∧ (checkAndShift ']').run b₂ = (.ok true, b'))
          ∨ next = .again (count + 1) ∧ ∃ b₃, (checkAndShift ',').run b₂ = (.ok true, b₃)
            ∧ skipSpaces.run b₃ = (.ok (), b')) := by
  obtain ⟨item, b₁, hitem, hrest⟩ := andThen_ok.mp h
  obtain ⟨⟨⟩, b₂, hskip, hrest'⟩ := andThen_ok.mp hrest
  obtain ⟨closed, b₃, hclose, hturn⟩ := andThen_ok.mp hrest'
  refine ⟨item, b₁, b₂, hitem, hskip, ?_⟩
  cases closed with
  | true =>
    cases hturn
    exact .inl ⟨rfl, hclose⟩
  | false =>
    rw [shiftIf_false hclose, if_neg (by simp)] at hturn
    obtain ⟨⟨⟩, b₄, hcomma, hturn⟩ := andThen_ok.mp hturn
    obtain ⟨⟨⟩, b₅, hskip', hturn⟩ := andThen_ok.mp hturn
    cases hturn
    exact .inr ⟨rfl, b₄, require_ok.mp hcomma, hskip'⟩

theorem optionItems_of_loop {count n : Nat} {b b₁ b' : Buffer} (hskip : skipSpaces.run b = (.ok (), b₁))
    (h : (loop optionListStep count).run b₁ = (.ok n, b'))
    : ∃ items, OptionItems b items b' ∧ n = count + items.length := by
  induction hlength : b₁.rest.length using Nat.strongRecOn generalizing count b b₁ with
  | ind length ih =>
    rcases (loop_ok_iff progress_optionListStep).mp h with h | ⟨count', b₂, hstep, hloop⟩
    . obtain ⟨item, b₂, b₃, hitem, hskip', hturn⟩ := optionListStep_ok h
      rcases hturn with ⟨hn, hclose⟩ | ⟨hn, -⟩
      . cases hn
        exact ⟨[item], .last (spacedItem_ok.mpr ⟨b₁, b₂, hskip, hitem, hskip'⟩) hclose, rfl⟩
      . cases hn
    . obtain ⟨item, b₃, b₄, hitem, hskip', hturn⟩ := optionListStep_ok hstep
      rcases hturn with ⟨hn, -⟩ | ⟨hn, b₅, hcomma, hskip''⟩
      . cases hn
      . cases hn
        have hlt := progress_optionListStep _ _ _ _ hstep
        obtain ⟨items, hitems, rfl⟩ := ih _ (by omega) hskip'' hloop rfl
        refine ⟨item :: items, .more (spacedItem_ok.mpr ⟨b₁, b₃, hskip, hitem, hskip'⟩) hcomma hitems, ?_⟩
        rw [List.length_cons]
        omega

theorem optionListConsume_ok {b b' : Buffer} {opts : OptionListResult} (h : optionListConsume.run b = (.ok opts, b'))
    : ∃ items, OptionList b items b' ∧ opts = ⟨b.offset, b'.offset, items.length⟩ := by
  obtain ⟨start, b₁, hstart, hlist⟩ := andThen_ok.mp (restoring_ok.mp h)
  cases hstart
  obtain ⟨⟨⟩, b₂, hopen, hlist⟩ := andThen_ok.mp hlist
  obtain ⟨⟨⟩, b₃, hskip, hlist⟩ := andThen_ok.mp hlist
  obtain ⟨closed, b₄, hclose, hlist⟩ := andThen_ok.mp hlist
  cases closed with
  | true =>
    cases hlist
    exact ⟨[], .empty (require_ok.mp hopen) hskip hclose, rfl⟩
  | false =>
    rw [shiftIf_false hclose, if_neg (by simp)] at hlist
    obtain ⟨n, b₅, hloop, hlist⟩ := andThen_ok.mp hlist
    cases hlist
    obtain ⟨items, hitems, rfl⟩ := optionItems_of_loop hskip hloop
    refine ⟨items, .items (require_ok.mp hopen) hitems, ?_⟩
    rw [Nat.zero_add]

/-! The loop of the builder. -/

theorem checkAndShift_closed {b b' : Buffer} {item : OptionParseResult} (h : optionItemParse.run b = (.ok item, b'))
    : (checkAndShift ']').run b = (.ok false, b) := by
  obtain ⟨offset, rest⟩ := b
  cases rest with
  | nil => rfl
  | cons c rest =>
    by_cases hc : c = ']'
    . subst hc
      cases h
    . simp [checkAndShift, shiftIf, hc]

/--
What the step does with an option: it is the one looked for, or the list goes on or ends behind it.
-/
theorem extractOptionStep_run {name : Span} {b b₁ : Buffer} {item : OptionParseResult}
    (hitem : spacedItem.run b = (.ok item, b₁))
    : if item.name = name then
        ∃ b₂, (extractOptionStep name ()).run b = (.ok (.done (some item.value)), b₂) ∧ Advances b₂ b₁
      else
        (∀ b', (checkAndShift ']').run b₁ = (.ok true, b')
            → (extractOptionStep name ()).run b = (.ok (.done none), b'))
          ∧ ∀ b', (checkAndShift ',').run b₁ = (.ok true, b')
            → (extractOptionStep name ()).run b = (.ok (.again ()), b') := by
  obtain ⟨b₂, b₃, hskip, hitem, hskip'⟩ := spacedItem_ok.mp hitem
  -- The bracket that the builder looks for before each option is not there.
  have hstep : (extractOptionStep name ()).run b = (if item.name = name then succeed (.done (some item.value)) else
      skipSpaces.andThen fun _ => (checkAndShift ']').andThen fun closed =>
        if closed = true then succeed (.done none) else (checkAndShift ',').andThen fun comma =>
          if comma = true then succeed (.again ()) else succeed (.done none)).run b₃ := by
    unfold extractOptionStep
    simp only [bind_eq, pure_eq]
    rw [andThen_of_ok hskip, andThen_of_ok (checkAndShift_closed hitem), if_neg (by simp), andThen_of_ok hitem]
  by_cases hname : item.name = name
  . rw [if_pos hname, hstep, if_pos hname]
    exact ⟨b₃, rfl, advances hskip'⟩
  . rw [if_neg hname] at hstep ⊢
    rw [andThen_of_ok hskip'] at hstep
    constructor
    . intro b' hclose
      rw [hstep, andThen_of_ok hclose]
      rfl
    . intro b' hcomma
      have hopen : (checkAndShift ']').run b₁ = (.ok false, b₁) := by
        obtain ⟨c, hc, hrest, -⟩ := shiftIf_true.mp hcomma
        obtain rfl := of_decide_eq_true hc
        simp [checkAndShift, shiftIf, hrest]
      rw [hstep, andThen_of_ok hopen, if_neg (by simp), andThen_of_ok hcomma]
      rfl

def firstValue (items : List OptionParseResult) (name : Span) : Option Const :=
  (items.find? fun item => item.name = name).map OptionParseResult.value

/--
The loop ends at the first option with the name, or else behind the closing bracket.
-/
theorem loop_extractOptionStep {name : Span} {b b' : Buffer} {items : List OptionParseResult}
    (h : OptionItems b items b')
    : ∃ b'', (loop (extractOptionStep name) ()).run b = (.ok (firstValue items name), b'') ∧ Advances b'' b'
        ∧ (firstValue items name = none → b'' = b') := by
  have hloop := @loop_ok_iff _ _ _ _ _ (progress_extractOptionStep name)
  induction h with
  | @last b b₁ b' item hitem hclose =>
    have hstep := @extractOptionStep_run _ name _ _ _ hitem
    by_cases hname : item.name = name
    . rw [if_pos hname] at hstep
      obtain ⟨b₂, hrun, hadvances⟩ := hstep
      refine ⟨b₂, hloop.mpr (.inl ?_), hadvances.trans (advances hclose), ?_⟩
      . simp [firstValue, hname, hrun]
      . simp [firstValue, hname]
    . rw [if_neg hname] at hstep
      have hrun := hstep.1 b' hclose
      refine ⟨b', hloop.mpr (.inl ?_), .refl b', fun _ => rfl⟩
      simp [firstValue, hname, hrun]
  | @more b b₁ b₂ b' item items hitem hsep hrest ih =>
    have hstep := @extractOptionStep_run _ name _ _ _ hitem
    by_cases hname : item.name = name
    . rw [if_pos hname] at hstep
      obtain ⟨b₃, hrun, hadvances⟩ := hstep
      refine ⟨b₃, hloop.mpr (.inl ?_), hadvances.trans ((advances hsep).trans hrest.advances), ?_⟩
      . simp [firstValue, hname, hrun]
      . simp [firstValue, hname]
    . rw [if_neg hname] at hstep
      have hrun := hstep.2 b₂ hsep
      have hfirst : firstValue (item :: items) name = firstValue items name := by
        simp [firstValue, hname]
      obtain ⟨b₃, hrest, hadvances, hnone⟩ := ih
      rw [hfirst]
      exact ⟨b₃, hloop.mpr (.inr ⟨(), b₂, hrun, hrest⟩), hadvances, hnone⟩

/-! Clamped buffers. -/

section Clamped

variable {after : List Char} {b b' : Buffer} {items : List OptionParseResult}

theorem soft_spacedItem : Soft ('}' :: after) '/' spacedItem :=
  soft_skipSpaces.andThen fun _ => soft_optionItemParse.andThen fun _ =>
    soft_skipSpaces.andThen fun _ => (exact_succeed _).soft

theorem OptionList.before (h : OptionList b items b')
    : OptionList (b.before ('}' :: after)) items (b'.before ('}' :: after)) := by
  cases h with
  | empty hopen hskip hclose =>
    apply OptionList.empty ((exact_checkAndShift (by decide)).firm _ _ _ hopen)
    . apply wide_skipSpaces _ _ _ _ hskip
      obtain ⟨_, -, hrest, -⟩ := shiftIf_true.mp hclose
      simp [hrest]
    . exact (exact_checkAndShift (by decide)).firm _ _ _ hclose
  | items hopen hitems =>
    exact .items ((exact_checkAndShift (by decide)).firm _ _ _ hopen)
      (hitems.before soft_spacedItem.wide (by decide) (by decide))

theorem OptionList.of_before (h : OptionList (b.before ('}' :: after)) items (b'.before ('}' :: after)))
    : OptionList b items b' := by
  generalize hb : b.before ('}' :: after) = d, hb' : b'.before ('}' :: after) = d' at h
  cases h with
  | empty hopen hskip hclose =>
    subst hb hb'
    obtain ⟨b₂, rfl⟩ := (advances hclose).exists_before
    obtain ⟨b₁, rfl⟩ := (advances hskip).exists_before
    have hclose := (exact_checkAndShift (by decide)).of_before hclose
    have hadvances := (advances hskip).of_before
    exact .empty ((exact_checkAndShift (by decide)).of_before hopen)
      (narrow_skipSpaces _ _ _ (severed_shiftIf (by decide) hadvances hclose) hskip) hclose
  | items hopen hitems =>
    subst hb hb'
    obtain ⟨b₁, rfl⟩ := hitems.advances.exists_before
    exact .items ((exact_checkAndShift (by decide)).of_before hopen)
      (hitems.of_before soft_spacedItem.narrow (by decide) (by decide) (by decide) (by decide))

theorem OptionList.advances (h : OptionList b items b') : Advances b b' := by
  cases h with
  | empty hopen hskip hclose =>
    exact (Parser.advances hopen).trans ((Parser.advances hskip).trans (Parser.advances hclose))
  | items hopen hitems => exact (Parser.advances hopen).trans hitems.advances

theorem OptionList.rest_ne_nil (h : OptionList b items b') : b.rest ≠ [] := by
  have hopen : ∃ b₁, (checkAndShift '[').run b = (.ok true, b₁) := by
    cases h with
    | empty hopen | items hopen => exact ⟨_, hopen⟩
  obtain ⟨b₁, hopen⟩ := hopen
  obtain ⟨_, -, hrest, -⟩ := shiftIf_true.mp hopen
  simp [hrest]

end Clamped

/--
Where a buffer over a text ends: with the text, or at the brace that closes a body.
-/
def IsClamp (text : Span) (stop : Nat) : Prop :=
  stop = text.length ∨ text[stop]? = some '}'

omit [Libc] in
theorem IsClamp.brace {text : Span} {stop stop' : Nat} (h : IsClamp text stop) (h' : IsClamp text stop')
    (hlt : stop < stop') : text[stop]? = some '}' := by
  rcases h with rfl | hbrace
  . rcases h' with rfl | hbrace'
    . omega
    . have := (List.getElem?_eq_some_iff.mp hbrace').1
      omega
  . exact hbrace

section Bodies

variable {text : Span} {start stop stop' : Nat} {b' : Buffer} {items : List OptionParseResult}

omit [Libc] in
theorem between_before (hbrace : text[stop]? = some '}') (hlt : stop < stop') (hle : start ≤ stop)
    : between text start stop' = (between text start stop).before ('}' :: (text.take stop').drop (stop + 1)) := by
  obtain ⟨hlength, hget⟩ := List.getElem?_eq_some_iff.mp hbrace
  have hlength' : stop < (text.take stop').length := by
    rw [List.length_take]
    omega
  have hsplit : text.take stop' = text.take stop ++ '}' :: (text.take stop').drop (stop + 1) := by
    conv_lhs => rw [← List.take_append_drop stop (text.take stop')]
    rw [List.take_take, Nat.min_eq_left (by omega), List.drop_eq_getElem_cons hlength', List.getElem_take, hget]
  simp only [between, before, Buffer.mk.injEq, true_and]
  conv_lhs => rw [hsplit]
  rw [List.drop_append_of_le_length]
  rw [List.length_take]
  omega

theorem OptionList.start_lt (h : OptionList (between text start stop) items b')
    : start < stop ∧ start ≤ b'.offset := by
  have hne := List.length_pos_of_ne_nil h.rest_ne_nil
  obtain ⟨pre, -, hoffset⟩ := h.advances
  have hstart : (between text start stop).offset = start := rfl
  rw [length_between] at hne
  omega

theorem OptionList.unclamped (hbrace : text[stop]? = some '}') (hlt : stop < stop')
    (h : OptionList (between text start stop) items b')
    : ∃ b'', OptionList (between text start stop') items b'' ∧ b''.offset = b'.offset := by
  have hstart := h.start_lt
  rw [between_before hbrace hlt (by omega)]
  exact ⟨_, h.before, rfl⟩

theorem OptionList.clamped (hbrace : text[stop]? = some '}') (hlt : stop < stop')
    (h : OptionList (between text start stop') items b') (hle : b'.offset ≤ stop)
    : ∃ b'', OptionList (between text start stop) items b'' ∧ b''.offset = b'.offset := by
  have hstart := h.start_lt
  have hlength := (List.getElem?_eq_some_iff.mp hbrace).1
  rw [between_before hbrace hlt (by omega)] at h
  have hinside : b'.offset ≤ (between text start stop).offset + (between text start stop).rest.length := by
    have hoffset : (between text start stop).offset = start := rfl
    rw [length_between]
    omega
  obtain ⟨c, rfl⟩ := h.advances.exists_before_of_le hinside
  exact ⟨c, h.of_before, rfl⟩

theorem OptionList.anywhere (hstop : IsClamp text stop) (hstop' : IsClamp text stop')
    (h : OptionList (between text start stop) items b') (hle : b'.offset ≤ stop')
    : ∃ b'', OptionList (between text start stop') items b'' ∧ b''.offset = b'.offset := by
  rcases Nat.lt_trichotomy stop stop' with hlt | rfl | hlt
  . exact h.unclamped (hstop.brace hstop' hlt) hlt
  . exact ⟨b', h, rfl⟩
  . exact h.clamped (hstop'.brace hstop hlt) hlt hle

end Bodies

/-! The second parse. -/

def optionNamed (name : Span) : EntryParser (Option Const) := do
  expect '[' .unexpectedToken
  loop (extractOptionStep name) ()

theorem extractOption_eq (text : Span) (stop : Nat) (opts : OptionListResult) (name : String)
    : extractOption text stop opts name =
        if opts.count = 0 then
          none
        else
          match (optionNamed name.toList).run (between text opts.start stop) with
          | (.ok value, _) => value
          | (.error _, _) => none :=
  rfl

theorem optionNamed_run {b b' : Buffer} {items : List OptionParseResult} (h : OptionList b items b')
    (hne : items ≠ []) (name : Span)
    : ∃ b'', (optionNamed name).run b = (.ok (firstValue items name), b'') ∧ Advances b'' b'
        ∧ (firstValue items name = none → b'' = b') := by
  cases h with
  | empty => exact absurd rfl hne
  | items hopen hitems =>
    obtain ⟨b'', hloop, hrest⟩ := loop_extractOptionStep hitems
    exact ⟨b'', andThen_ok.mpr ⟨(), _, require_ok.mpr hopen, hloop⟩, hrest⟩

omit [Libc] in
theorem firstValue_eq_none_iff {items : List OptionParseResult} {name : Span}
    : firstValue items name = none ↔ ∀ item ∈ items, item.name ≠ name := by
  simp [firstValue]

/--
The second parse of a list that the parser has taken yields the first option with the name, or none where there is
none. It stops behind that option or behind the closing bracket.
-/
theorem extractOption_first {text : Span} {start stop stop' : Nat} {opts : OptionListResult} {b' : Buffer}
    (hstop : IsClamp text stop) (hstop' : IsClamp text stop')
    (h : optionListConsume.run (between text start stop) = (.ok opts, b')) (hle : opts.stop ≤ stop')
    : ∃ items, OptionList (between text start stop) items b' ∧ opts = ⟨start, b'.offset, items.length⟩
        ∧ ∀ name : String, extractOption text stop' opts name = firstValue items name.toList
          ∧ (extractOption text stop' opts name = none ↔ ∀ item ∈ items, item.name ≠ name.toList)
          ∧ (opts.count ≠ 0 → ∃ b'',
            (optionNamed name.toList).run (between text opts.start stop') = (.ok (firstValue items name.toList), b'')
            ∧ b''.offset ≤ opts.stop ∧ (firstValue items name.toList = none → b''.offset = opts.stop)) := by
  obtain ⟨items, hlist, rfl⟩ := optionListConsume_ok h
  obtain ⟨b₁, hlist', hoffset⟩ := hlist.anywhere hstop hstop' hle
  have hstart : (between text start stop).offset = start := rfl
  rw [hstart]
  refine ⟨items, hlist, rfl, ?_⟩
  intro name
  have hrun : items.length ≠ 0 → ∃ b'',
      (optionNamed name.toList).run (between text start stop') = (.ok (firstValue items name.toList), b'')
        ∧ b''.offset ≤ b'.offset ∧ (firstValue items name.toList = none → b''.offset = b'.offset) := by
    intro hcount
    have hne : items ≠ [] := List.ne_nil_of_length_pos (by omega)
    obtain ⟨b'', hrun, ⟨pre, -, hpre⟩, hnone⟩ := optionNamed_run hlist' hne name.toList
    refine ⟨b'', hrun, by omega, ?_⟩
    intro h
    rw [hnone h, hoffset]
  have hvalue : extractOption text stop' ⟨start, b'.offset, items.length⟩ name = firstValue items name.toList := by
    rw [extractOption_eq]
    by_cases hcount : items.length = 0
    . rw [if_pos hcount, List.eq_nil_of_length_eq_zero hcount]
      rfl
    . rw [if_neg hcount]
      obtain ⟨b'', hrun, -⟩ := hrun hcount
      dsimp only
      rw [hrun]
  refine ⟨hvalue, ?_, hrun⟩
  rw [hvalue]
  exact firstValue_eq_none_iff

end Options

/--
A list in a body, and the text with what comes behind the body.
-/
theorem twoOptions_extractOption_first
    : let text := "[a=1, b=c]\x7d;".toList
      ∃ items, @OptionList Pool.constLibc (between text 0 10) items ⟨10, []⟩
        ∧ (⟨0, 10, 2⟩ : OptionListResult) = ⟨0, 10, items.length⟩
        ∧ @extractOption Pool.constLibc text 12 ⟨0, 10, 2⟩ "b" = firstValue items "b".toList := by
  intro text
  obtain ⟨items, hlist, hopts, hextract⟩ :=
    @extractOption_first Pool.constLibc text 0 10 12 ⟨0, 10, 2⟩ ⟨10, []⟩ (.inr rfl) (.inl rfl)
      (by decide +kernel) (by decide)
  exact ⟨items, hlist, hopts, (hextract "b").1⟩

end Gremlin
