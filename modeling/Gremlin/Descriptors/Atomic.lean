import Gremlin.Descriptors.Covered

/-!
This module contains what speculative parsing relies on: a parser of an entry goes ahead or leaves the
buffer as it was, and everything that is repeated comes to an end.
-/

namespace Gremlin

open Text Parser

section Atomic

variable {α : Type}

/--
A parser that goes ahead, and not past the end, or fails and leaves the buffer as it was.
-/
def Atomic (p : EntryParser α) : Prop :=
  ∀ b,
    (∃ a b', p.run b = (.ok a, b') ∧ b.offset < b'.offset ∧ b'.offset ≤ b.offset + b.rest.length
        ∧ b'.offset + b'.rest.length = b.offset + b.rest.length)
      ∨ ∃ e, p.run b = (.error e, b)

theorem atomic_of_eager {p : EntryParser α} (hp : Eager p) (hrestores : Restores p) : Atomic p := by
  intro b
  rcases hrun : p.run b with ⟨e | a, b'⟩
  . right
    rw [hrestores b e b' hrun]
    exact ⟨e, rfl⟩
  . left
    obtain ⟨pre, hrest, hoffset⟩ := advances hrun
    have hlt := hp b a b' hrun
    rw [hrest, List.length_append] at hlt
    refine ⟨a, b', rfl, ?_⟩
    rw [hrest, List.length_append]
    omega

theorem atomic_restoring {p : EntryParser α} (hp : Eager p.restoring) : Atomic p.restoring :=
  atomic_of_eager hp (restores_restoring p)

/--
The first of the parsers that succeeds on this very buffer.
-/
def firstOf (ps : List (EntryParser α)) (b : Buffer) : Option (α × Buffer) :=
  ps.findSome? fun p =>
    match p.run b with
    | (.ok a, b') => some (a, b')
    | (.error _, _) => none

/--
The parser is the choice among these, all of them tried on the same text.
-/
def Tries (p : EntryParser α) (ps : List (EntryParser α)) : Prop :=
  ∀ b a b', p.run b = (.ok a, b') ↔ firstOf ps b = some (a, b')

theorem tries_fail (e : ParsingError) : Tries (fail e : EntryParser α) [] := by
  intro b a b'
  simp [firstOf]

theorem firstOf_cons_of_ok {p : EntryParser α} {ps : List (EntryParser α)} {b b' : Buffer} {a : α}
    (h : p.run b = (.ok a, b')) : firstOf (p :: ps) b = some (a, b') := by
  simp [firstOf, h]

theorem firstOf_cons_of_error {p : EntryParser α} {ps : List (EntryParser α)} {b b' : Buffer}
    {e : ParsingError} (h : p.run b = (.error e, b')) : firstOf (p :: ps) b = firstOf ps b := by
  simp [firstOf, h]

theorem tries_single (p : EntryParser α) : Tries p [p] := by
  intro b a b'
  rcases hrun : p.run b with ⟨e | x, c⟩
  . rw [firstOf_cons_of_error hrun]
    simp [firstOf]
  . rw [firstOf_cons_of_ok hrun]
    simp

theorem Tries.orElse {p q : EntryParser α} {ps : List (EntryParser α)} (hp : Restores p)
    (hq : Tries q ps) : Tries (p.orElse q) (p :: ps) := by
  intro b a b'
  rcases hrun : p.run b with ⟨e | x, c⟩
  . have hback := hp b e c hrun
    subst hback
    rw [orElse_of_error hrun, firstOf_cons_of_error hrun]
    exact hq c a b'
  . rw [orElse_of_ok hrun, firstOf_cons_of_ok hrun]
    simp

/--
The choice is made behind spaces and stray semicolons, from where it is made back if none succeeds.
-/
def TriesNext (next : EntryParser α) (ps : List (EntryParser α)) : Prop :=
  ∀ b, ∃ b₁, skipSemicolons.run b = (.ok (), b₁)
    ∧ ∀ a b', next.run b = (.ok a, b') ↔ firstOf ps b₁ = some (a, b')

theorem loop_runs {σ β : Type} {step : σ → EntryParser (Step σ β)} (hstep : Progress step)
    (hruns : ∀ s b, ∃ x b', (step s).run b = (.ok x, b')) (s : σ) (b : Buffer)
    : ∃ a b', (loop step s).run b = (.ok a, b') := by
  generalize hlen : b.rest.length = n
  induction n using Nat.strong_induction_on generalizing s b with
  | _ n ih =>
    rw [loop_run hstep]
    obtain ⟨x, b', hrun⟩ := hruns s b
    rw [andThen_of_ok hrun]
    cases x with
    | again s' =>
      have := hstep s b s' b' hrun
      exact ih b'.rest.length (by omega) s' b' rfl
    | done a => exact ⟨a, b', rfl⟩

theorem skipSemicolons_runs (b : Buffer) : ∃ b₁, skipSemicolons.run b = (.ok (), b₁) := by
  simp only [skipSemicolons, bind_eq]
  rw [@andThen_of_ok _ _ _ skipSpacesUnchecked _ b (skipSpaces.run b).2 () rfl]
  have hruns : ∀ s b, ∃ x b', (semicolonStep s).run b = (.ok x, b') := by
    intro _ b
    obtain ⟨found, b', hfound⟩ : ∃ found b', (checkAndShift ';').run b = (.ok found, b') := by
      simp only [checkAndShift, shiftIf]
      split
      . exact ⟨_, _, rfl⟩
      . split
        . exact ⟨_, _, rfl⟩
        . exact ⟨_, _, rfl⟩
    simp only [semicolonStep, bind_eq]
    rw [andThen_of_ok hfound]
    cases found with
    | true => exact ⟨_, _, rfl⟩
    | false => exact ⟨_, _, rfl⟩
  obtain ⟨_, b₁, hloop⟩ := loop_runs progress_semicolonStep hruns () (skipSpaces.run b).2
  exact ⟨b₁, hloop⟩

theorem Tries.next {next item : EntryParser α} {ps : List (EntryParser α)} (h : Tries item ps)
    (hnext : next = (skipSemicolons.andThen fun _ => item).restoring) : TriesNext next ps := by
  intro b
  obtain ⟨b₁, hskip⟩ := skipSemicolons_runs b
  refine ⟨b₁, hskip, ?_⟩
  intro a b'
  rw [hnext, restoring_ok, andThen_of_ok hskip]
  exact h b₁ a b'

end Atomic

section Entries

variable [Libc]

theorem eager_optionListConsume : Eager optionListConsume := by
  apply Eager.restoring
  exact eager_andThen _ fun _ => (eager_shiftIf _ _).andThen _

/--
Every parser of an entry, and every function that takes the next one.
-/
structure EntriesAtomic : Prop where
  message : Atomic messageParse
  enumeration : Atomic enumParse
  enumField : Atomic enumFieldParse
  oneof : Atomic oneofParse
  oneofField : Atomic oneofFieldParse
  field : Atomic fieldParse
  option : Atomic optionParse
  optionItem : Atomic optionItemParse
  optionList : Atomic optionListConsume
  reserved : Atomic reservedParse
  extensions : Atomic extensionsParse
  extend : Atomic extendParse
  group : Atomic groupParse
  service : Atomic serviceParse
  importDef : Atomic importParse
  syntaxDef : Atomic syntaxParse
  edition : Atomic editionParse
  package : Atomic packageParse
  enumNext : Atomic enumNextEntry
  oneofNext : Atomic oneofNextEntry
  messageNext : Atomic messageNextEntry
  fileNext : Atomic fileNextEntry

theorem entriesAtomic : EntriesAtomic where
  message := atomic_restoring eager_messageParse
  enumeration := atomic_restoring eager_enumParse
  enumField := atomic_restoring eager_enumFieldParse
  oneof := atomic_restoring eager_oneofParse
  oneofField := atomic_restoring eager_oneofFieldParse
  field := atomic_restoring eager_fieldParse
  option := atomic_restoring eager_optionParse
  optionItem := atomic_restoring eager_optionItemParse
  optionList := atomic_restoring eager_optionListConsume
  reserved := atomic_restoring eager_reservedParse
  extensions := atomic_restoring eager_extensionsParse
  extend := atomic_of_eager eager_extendParse restores_extendParse
  group := atomic_restoring eager_groupParse
  service := atomic_restoring eager_serviceParse
  importDef := atomic_restoring eager_importParse
  syntaxDef := atomic_restoring eager_syntaxParse
  edition := atomic_restoring eager_editionParse
  package := atomic_restoring eager_packageParse
  enumNext := atomic_restoring eager_enumNextEntry
  oneofNext := atomic_restoring eager_oneofNextEntry
  messageNext := atomic_restoring eager_messageNextEntry
  fileNext := atomic_restoring eager_fileNextEntry

/-! The alternatives of an entry. -/

def enumAlternatives : List (EntryParser EnumEntry) :=
  [.option <$> optionParse, .reserved <$> reservedParse, .field <$> enumFieldParse]

def oneofAlternatives : List (EntryParser OneofEntry) :=
  [.option <$> optionParse, .field <$> oneofFieldParse]

def messageAlternatives : List (EntryParser MessageEntry) :=
  [.enumeration <$> enumParse, .message <$> messageParse, .oneof <$> oneofParse,
    .option <$> optionParse, .extensions <$> extensionsParse, .reserved <$> reservedParse,
    .extend <$> extendParse, (fun _ => .group) <$> groupParse, .field <$> fieldParse]

def fileAlternatives : List (EntryParser FileEntry) :=
  [.syntaxDef <$> syntaxParse, .edition <$> editionParse, .package <$> packageParse,
    .importDef <$> importParse, .option <$> optionParse, .message <$> messageParse,
    .enumeration <$> enumParse, (fun _ => .service) <$> serviceParse, .extend <$> extendParse]

def messageTurns (depth : Nat) : List (EntryParser (Step Nat Nat)) :=
  [(fun _ => .again depth) <$> enumParse, (fun _ => .again (depth + 1)) <$> messageHead,
    (fun _ => .again depth) <$> oneofParse, (fun _ => .again depth) <$> optionParse,
    (fun _ => .again depth) <$> extensionsParse, (fun _ => .again depth) <$> reservedParse,
    (fun _ => .again depth) <$> extendParse, (fun _ => .again depth) <$> groupParse,
    (fun _ => .again depth) <$> fieldParse]

/--
What is tried for an entry, where it is taken and where a body is accepted.
-/
structure TriedTogether : Prop where
  enumNext : TriesNext enumNextEntry enumAlternatives
  oneofNext : TriesNext oneofNextEntry oneofAlternatives
  messageNext : TriesNext messageNextEntry messageAlternatives
  fileNext : TriesNext fileNextEntry fileAlternatives
  enumBody : ∃ entry, enumParse = block "enum" parseIdentifier entry
    ∧ Tries entry [discard optionParse, discard reservedParse, discard enumFieldParse]
  oneofBody : ∃ entry, oneofParse = block "oneof" parseIdentifier entry
    ∧ Tries entry [discard optionParse, discard oneofFieldParse]
  messageBody (depth : Nat) : ∃ entry, Tries entry (messageTurns depth)
    ∧ messageStep depth = do
        skipSpaces
        let bodyEnd ← position
        if ← closing then
          match depth with
          | 0 => pure (.done bodyEnd)
          | depth + 1 => pure (.again depth)
        else if ← checkAndShift ';' then
          pure (.again depth)
        else
          entry

theorem triedTogether : TriedTogether where
  enumNext := by
    apply Tries.next _ enumNextEntry_eq
    apply Tries.orElse (restores_restoring _).map
    apply Tries.orElse (restores_restoring _).map
    exact tries_single _
  oneofNext := by
    apply Tries.next _ oneofNextEntry_eq
    apply Tries.orElse (restores_restoring _).map
    exact tries_single _
  messageNext := by
    apply Tries.next _ messageNextEntry_eq
    iterate 6 apply Tries.orElse (restores_restoring _).map
    apply Tries.orElse restores_extendParse.map
    iterate 2 apply Tries.orElse (restores_restoring _).map
    exact tries_fail _
  fileNext := by
    apply Tries.next _ fileNextEntry_eq
    iterate 8 apply Tries.orElse (restores_restoring _).map
    apply Tries.orElse restores_extendParse.map
    exact tries_fail _
  enumBody := by
    refine ⟨_, rfl, ?_⟩
    iterate 3 apply Tries.orElse (restores_restoring _).map
    exact tries_fail _
  oneofBody := by
    refine ⟨_, rfl, ?_⟩
    iterate 2 apply Tries.orElse (restores_restoring _).map
    exact tries_fail _
  messageBody depth := by
    refine ⟨_, ?_, rfl⟩
    iterate 6 apply Tries.orElse (restores_restoring _).map
    apply Tries.orElse restores_extendParse.map
    iterate 2 apply Tries.orElse (restores_restoring _).map
    exact tries_fail _

/-! What is repeated. -/

/--
No loop of the lexer and of the parsers goes on without going ahead.
-/
structure LoopsEnd : Prop where
  segment : Progress segmentStep
  string (close : Char) : Progress (strLitStep close)
  optionName : Progress optionNameStep
  optionList : Progress optionListStep
  list (item : EntryParser Unit) : Progress (listStep item)
  skipString (quote : Char) : Progress (skipStringStep quote)
  skipBody : Progress skipBodyStep
  enumBody : ∃ entry, enumParse = block "enum" parseIdentifier entry ∧ Progress (bodyStep entry)
  oneofBody : ∃ entry, oneofParse = block "oneof" parseIdentifier entry ∧ Progress (bodyStep entry)
  extendBody : Progress (bodyStep (discard fieldParse))
  messageBody : Progress messageStep
  semicolons : Progress semicolonStep
  extractOption (name : Span) : Progress (extractOptionStep name)

theorem progress_extractOptionStep (name : Span) : Progress (extractOptionStep name) := by
  intro _
  apply goes_andThen
  intro _
  apply goes_test shiftIf_length
  exact (eager_optionItemParse.andThen _).goes

theorem loopsEnd : LoopsEnd where
  segment := progress_segmentStep
  string := progress_strLitStep
  optionName := progress_optionNameStep
  optionList := progress_optionListStep
  list := progress_listStep
  skipString := progress_skipStringStep
  skipBody := progress_skipBodyStep
  enumBody := by
    refine ⟨_, rfl, progress_bodyStep ?_⟩
    rw [enumBody_eq]
    exact (eager_enumEntry.orElse (eager_fail _)).andThen _
  oneofBody := by
    refine ⟨_, rfl, progress_bodyStep ?_⟩
    rw [oneofBody_eq]
    exact (eager_oneofEntry.orElse (eager_fail _)).andThen _
  extendBody := progress_bodyStep (eager_fieldParse.andThen _)
  messageBody := progress_messageStep
  semicolons := progress_semicolonStep
  extractOption := progress_extractOptionStep

/--
Both walks of the builder end on the text from the offset on, since the body of a message in a message
is shorter.
-/
structure WalksEnd (text : Span) (offset : Nat) : Prop where
  shorter : ∀ parsed nested, .message nested ∈ (bodyEntries text parsed).1
    → bodyLength text nested < bodyLength text parsed
  count : countEntries text offset ≠ .error .unfinished
  build : buildFile text offset ≠ .error .unfinished

omit [Libc] in
theorem Regular.ne_unfinished {α : Type} {P : α → Prop} {x : Except Stop α} (h : Regular P x)
    : x ≠ .error .unfinished := by
  rintro rfl
  exact h

/--
Every parser of an entry is atomic, the alternatives are tried on one text, and all loops end.
-/
theorem parsing_atomic
    : EntriesAtomic ∧ TriedTogether ∧ LoopsEnd ∧ ∀ text offset, WalksEnd text offset := by
  refine ⟨entriesAtomic, triedTogether, loopsEnd, ?_⟩
  intro text offset
  exact ⟨fun _ _ h => bodyEntries_shorter h, (countEntries_regular text offset).ne_unfinished,
    (buildFile_regular text offset).ne_unfinished⟩

end Entries

end Gremlin
