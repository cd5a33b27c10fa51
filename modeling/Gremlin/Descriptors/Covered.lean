import Gremlin.Descriptors.Iterated

/-!
This module contains what the walks of the builder leave out of a text: spaces, comments and stray
semicolons.
-/

namespace Gremlin

open Text Parser Buffer

/--
Gaps and stray semicolons.
-/
inductive Strays : List Char → Prop where
  | gap {g : List Char} (hg : Gap g) : Strays g
  | semicolon {g s : List Char} (hg : Gap g) (hs : Strays s) : Strays (g ++ ';' :: s)

/--
Gaps and stray semicolons up to the end of a text, which may be in a line comment.
-/
inductive Leftover : List Char → Prop where
  | trailing {s : List Char} (hs : Trailing s) : Leftover s
  | semicolon {g s : List Char} (hg : Gap g) (hs : Leftover s) : Leftover (g ++ ';' :: s)

section Walk

variable {α : Type} {next item : EntryParser α}

/--
All that is left of a text from here on is the entries that the walk takes, gaps and stray semicolons.
-/
inductive Covered (next item : EntryParser α) : Buffer → Prop where
  | stop {b b' : Buffer} {e : ParsingError} (hnext : next.run b = (.error e, b')) (hrest : Leftover b.rest)
      : Covered next item b
  | entry {b b₁ b' : Buffer} {a : α} {strays : List Char} (hnext : next.run b = (.ok a, b'))
      (hstrays : Strays strays) (hcovers : Covers b strays b₁) (hitem : item.run b₁ = (.ok a, b'))
      (hrest : Covered next item b') : Covered next item b

theorem covers_gap {b b' : Buffer} {g : List Char} (hforward : Advances b b') (hrest : b.rest = g ++ b'.rest)
    : Covers b g b' := by
  refine ⟨hrest, ?_⟩
  have hadd := hforward.offset_add
  rw [hrest, List.length_append] at hadd
  omega

theorem covers_spaces {b b' : Buffer} {a : Unit} (h : skipSpacesUnchecked.run b = (.ok a, b'))
    (hrest : b'.rest ≠ []) : ∃ g, Gap g ∧ Covers b g b' := by
  obtain ⟨g, hg, hgap⟩ := gap_of_skip (skipSpacesUnchecked_ok.mp h).1 hrest
  exact ⟨g, hgap, covers_gap (advances h) hg⟩

theorem covers_strays {b b' : Buffer} (h : skipSemicolons.run b = (.ok (), b')) (hrest : b'.rest ≠ [])
    : ∃ strays, Strays strays ∧ Covers b strays b' := by
  induction hlength : b.rest.length using Nat.strongRecOn generalizing b with
  | ind n ih =>
    have hrun := h
    simp only [skipSemicolons, bind_eq] at hrun
    obtain ⟨_, b₁, hspaces, hloop⟩ := andThen_ok.mp hrun
    have hne : b₁.rest ≠ [] := by
      intro hnil
      have := (advances hloop).length_le
      rw [hnil, List.length_nil] at this
      exact hrest (List.eq_nil_of_length_eq_zero (by omega))
    obtain ⟨g, hgap, hcovers⟩ := covers_spaces hspaces hne
    rcases (loop_ok_iff progress_semicolonStep).mp hloop with hdone | ⟨_, b₃, hagain, hloop⟩
    . simp only [semicolonStep, bind_eq] at hdone
      obtain ⟨found, b₂, hsemicolon, hdone⟩ := andThen_ok.mp hdone
      cases found with
      | true =>
        rw [if_pos rfl] at hdone
        obtain ⟨_, _, -, hdone⟩ := andThen_ok.mp hdone
        simp at hdone
      | false =>
        simp only [Bool.false_eq_true, if_false, pure_eq, succeed_run, Prod.mk.injEq] at hdone
        rw [← hdone.2, shiftIf_false hsemicolon]
        exact ⟨g, .gap hgap, hcovers⟩
    . simp only [semicolonStep, bind_eq] at hagain
      obtain ⟨found, b₂, hsemicolon, hagain⟩ := andThen_ok.mp hagain
      cases found with
      | false => simp at hagain
      | true =>
        rw [if_pos rfl] at hagain
        obtain ⟨_, b₄, hspaces', hagain⟩ := andThen_ok.mp hagain
        simp only [pure_eq, succeed_run, Prod.mk.injEq] at hagain
        rw [hagain.2] at hspaces'
        have hshift := checkAndShift_true hsemicolon
        have hrun : skipSemicolons.run b₂ = (.ok (), b') := by
          simp only [skipSemicolons, bind_eq]
          exact andThen_ok.mpr ⟨(), b₃, hspaces', hloop⟩
        have hle := (advances hspaces).length_le
        have hlt : b₂.rest.length < b₁.rest.length := by
          rw [hshift.1]
          simp
        obtain ⟨strays, hstrays, hcovers'⟩ := ih b₂.rest.length (by omega) hrun rfl
        exact ⟨g ++ ';' :: strays, .semicolon hgap hstrays, hcovers.trans (hshift.trans hcovers')⟩

theorem item_of_next (heager : Eager item) (hnext : next = (skipSemicolons.andThen fun _ => item).restoring)
    {b b' : Buffer} {a : α} (h : next.run b = (.ok a, b'))
    : ∃ strays b₁, Strays strays ∧ Covers b strays b₁ ∧ item.run b₁ = (.ok a, b') := by
  rw [hnext] at h
  obtain ⟨_, b₁, hskip, hrun⟩ := andThen_ok.mp (restoring_ok.mp h)
  have hrest : b₁.rest ≠ [] := by
    intro hnil
    have := heager _ _ _ hrun
    rw [hnil, List.length_nil] at this
    omega
  obtain ⟨strays, hstrays, hcovers⟩ := covers_strays hskip hrest
  exact ⟨strays, b₁, hstrays, hcovers, hrun⟩

theorem ClampedBody.covered (heager : Eager item)
    (hnext : next = (skipSemicolons.andThen fun _ => item).restoring) {c : Buffer} {es : List α} {k : Nat}
    (h : ClampedBody item c es k) : Covered next item c := by
  induction h with
  | @closed c c₁ hspaces hend =>
    obtain ⟨e, herror⟩ := next_at_end heager hnext hspaces hend
    apply Covered.stop herror
    have hskip := (skipSpaces_ok.mp hspaces).1
    rw [hend] at hskip
    rcases trailing_or_unterminated (by rw [hskip]) with hs | hs
    . exact .trailing hs
    . rw [skip_unterminated hs] at hskip
      simp at hskip
  | @stray c c₁ c₂ es k hspaces hsemicolon hrest ih =>
    have hshift := checkAndShift_true hsemicolon
    obtain ⟨g, hgap, hcovers⟩ := covers_spaces (skipSpacesUnchecked_of_ok hspaces) (by simp [hshift.1])
    have hcovers := hcovers.trans hshift
    cases ih with
    | stop herror hrest =>
      apply Covered.stop (next_stray_error hnext hspaces hsemicolon herror)
      rw [hcovers.1, List.append_assoc]
      exact .semicolon hgap hrest
    | @entry _ b₁ b' a strays hok hstrays hcovers' hitem hrest =>
      apply Covered.entry (next_stray_ok hnext hspaces hsemicolon hok) (.semicolon hgap hstrays) _ hitem hrest
      rw [List.append_cons]
      exact hcovers.trans hcovers'
  | @entry c c₁ c₂ a es k hspaces hsemicolon hrun hrest ih =>
    have hne : c₁.rest ≠ [] := by
      intro hnil
      have := heager _ _ _ hrun
      rw [hnil, List.length_nil] at this
      omega
    obtain ⟨g, hgap, hcovers⟩ := covers_spaces (skipSpacesUnchecked_of_ok hspaces) hne
    exact .entry (next_of_item hnext hspaces hsemicolon hrun) (.gap hgap) hcovers hrun ih

/--
What is left of the text behind the last entry that a walk takes.
-/
def entriesEnd (next : EntryParser α) (buf : Buffer) : Buffer :=
  go (buf.rest.length + 1) buf
where
  go : Nat → Buffer → Buffer
    | 0, buf => buf
    | fuel + 1, buf =>
      match next.run buf with
      | (.error _, buf') => buf'
      | (.ok _, buf') => go fuel buf'

theorem entriesEnd_go_fuel (hnext : Eager next) {fuel fuel' : Nat} {b : Buffer} (h : b.rest.length < fuel)
    (h' : b.rest.length < fuel') : entriesEnd.go next fuel b = entriesEnd.go next fuel' b := by
  induction fuel generalizing fuel' b with
  | zero => omega
  | succ fuel ih =>
    cases fuel' with
    | zero => omega
    | succ fuel' =>
      rw [entriesEnd.go, entriesEnd.go]
      rcases hrun : next.run b with ⟨e | a, b'⟩
      . rfl
      . have := hnext _ _ _ hrun
        exact ih (by omega) (by omega)

theorem entriesEnd_of_ok (hnext : Eager next) {b b' : Buffer} {a : α} (h : next.run b = (.ok a, b'))
    : entriesEnd next b = entriesEnd next b' := by
  have := hnext _ _ _ h
  simp only [entriesEnd]
  rw [entriesEnd.go, h]
  exact entriesEnd_go_fuel hnext (by omega) (by omega)

theorem entriesEnd_of_error {b b' : Buffer} {e : ParsingError} (h : next.run b = (.error e, b'))
    : entriesEnd next b = b' := by
  simp only [entriesEnd]
  rw [entriesEnd.go, h]

theorem not_unterminated_of_leftover {s : List Char} (h : Leftover s) (hskip : (skip .code s).2 = [])
    : ¬Unterminated s := by
  intro hs
  cases h with
  | trailing htrailing =>
    have hsame := skip_unterminated hs
    rw [skip_trailing htrailing] at hsame
    simp at hsame
  | semicolon hg _ =>
    rw [skip_gap hg, skip_other (by decide) (by decide)] at hskip
    simp at hskip

theorem covered_iff (heager : Eager item) (hnext : next = (skipSemicolons.andThen fun _ => item).restoring)
    {b : Buffer} (hend : (entries next b).2 = none)
    : Covered next item b ↔ ¬Unterminated (entriesEnd next b).rest := by
  have hnext' : Eager next := by
    rw [hnext]
    exact (eager_andThen _ fun _ => heager).restoring
  induction hlength : b.rest.length using Nat.strongRecOn generalizing b with
  | ind n ih =>
    rcases hrun : next.run b with ⟨e | a, b'⟩
    . have hback : b' = b := by
        rw [hnext] at hrun
        exact (restoring_error hrun).1
      rw [hback] at hrun
      -- The walk ends without an error, so nothing but gaps is left behind the last entry.
      have hskip : (skip .code b.rest).2 = [] := by
        rw [entries_of_error hrun] at hend
        have hspaces : (skipSpaces.run b).2.rest = (skip .code b.rest).2 := by
          simp only [skipSpaces]
          split <;> rfl
        simp only [atEof, hspaces] at hend
        simpa using hend
      rw [entriesEnd_of_error hrun]
      constructor
      . intro hcovered
        cases hcovered with
        | stop _ hrest => exact not_unterminated_of_leftover hrest hskip
        | entry hok =>
          rw [hrun] at hok
          simp at hok
      . intro hterminated
        rcases trailing_or_unterminated hskip with hs | hs
        . exact .stop hrun (.trailing hs)
        . exact absurd hs hterminated
    . have hlt := hnext' _ _ _ hrun
      rw [entries_of_ok hnext' hrun] at hend
      have hiff : Covered next item b' ↔ ¬Unterminated (entriesEnd next b').rest :=
        ih b'.rest.length (by omega) hend rfl
      rw [entriesEnd_of_ok hnext' hrun, ← hiff]
      constructor
      . intro hcovered
        cases hcovered with
        | stop herror =>
          rw [hrun] at herror
          simp at herror
        | entry hok _ _ _ hrest =>
          rw [hrun, Prod.mk.injEq] at hok
          rw [hok.2]
          exact hrest
      . intro hcovered
        obtain ⟨strays, b₁, hstrays, hcovers, hitem⟩ := item_of_next heager hnext hrun
        exact .entry hrun hstrays hcovers hitem hcovered

theorem entries_of_walk_ok {σ : Type} (hnext : Eager next) {act : σ → α → Except Stop σ} {buf : Buffer}
    {s s' : σ} (h : walk next act buf s = .ok s') : (entries next buf).2 = none := by
  rw [walk_eq hnext] at h
  rcases hfold : (entries next buf).1.foldlM act s with e | s''
  . rw [hfold] at h
    simp [bind, Except.bind] at h
  . rw [hfold] at h
    rcases hend : (entries next buf).2 with _ | e
    . rfl
    . rw [hend] at h
      simp [bind, Except.bind, ending] at h

end Walk

/-! What the builder visits. -/

section Visits

variable [Libc] (text : Span) (offset : Nat)

/--
`gremlinp_file_next_entry` behind the stray semicolons.
-/
def fileEntry : EntryParser FileEntry :=
  (FileEntry.syntaxDef <$> syntaxParse).orElse <|
    (FileEntry.edition <$> editionParse).orElse <|
    (FileEntry.package <$> packageParse).orElse <|
    (FileEntry.importDef <$> importParse).orElse <|
    (FileEntry.option <$> optionParse).orElse <|
    (FileEntry.message <$> messageParse).orElse <|
    (FileEntry.enumeration <$> enumParse).orElse <|
    ((fun _ => FileEntry.service) <$> serviceParse).orElse <|
    (FileEntry.extend <$> extendParse).orElse <|
    fail .unexpectedToken

theorem fileNextEntry_eq : fileNextEntry = (skipSemicolons.andThen fun _ => fileEntry).restoring :=
  rfl

theorem eager_fileEntry : Eager fileEntry :=
  (eager_syntaxParse.andThen _).orElse <|
    (eager_editionParse.andThen _).orElse <|
    (eager_packageParse.andThen _).orElse <|
    (eager_importParse.andThen _).orElse <|
    (eager_optionParse.andThen _).orElse <|
    (eager_messageParse.andThen _).orElse <|
    (eager_enumParse.andThen _).orElse <|
    (eager_serviceParse.andThen _).orElse <|
    (eager_extendParse.andThen _).orElse <|
    eager_fail _

def fileText : Buffer :=
  between text offset text.length

/--
The messages whose bodies the builder walks over.
-/
inductive MessageVisited : BodyParseResult → Prop where
  | file {parsed : BodyParseResult} (h : .message parsed ∈ (entries fileNextEntry (fileText text offset)).1)
      : MessageVisited parsed
  | nested {outer parsed : BodyParseResult} (houter : MessageVisited outer)
      (h : .message parsed ∈ (entries messageNextEntry (bodyOf text outer)).1) : MessageVisited parsed

def EnumVisited (parsed : BodyParseResult) : Prop :=
  .enumeration parsed ∈ (entries fileNextEntry (fileText text offset)).1
    ∨ ∃ outer, MessageVisited text offset outer
        ∧ .enumeration parsed ∈ (entries messageNextEntry (bodyOf text outer)).1

def OneofVisited (parsed : BodyParseResult) : Prop :=
  ∃ outer, MessageVisited text offset outer ∧ .oneof parsed ∈ (entries messageNextEntry (bodyOf text outer)).1

/--
The whole text is entries that the builder visits, gaps and stray semicolons: in the file and in the body
of every message, enum and oneof.
-/
structure NothingDropped : Prop where
  file : Covered fileNextEntry fileEntry (fileText text offset)
  message : ∀ parsed, MessageVisited text offset parsed
    → Covered messageNextEntry messageEntry (bodyOf text parsed)
  enumeration : ∀ parsed, EnumVisited text offset parsed → Covered enumNextEntry enumEntry (bodyOf text parsed)
  oneof : ∀ parsed, OneofVisited text offset parsed → Covered oneofNextEntry oneofEntry (bodyOf text parsed)

/--
A parser of a body succeeds somewhere in what is left of the text.
-/
def Occurs (parse : EntryParser BodyParseResult) (b : Buffer) (parsed : BodyParseResult) : Prop :=
  ∃ b₁ b', Advances b b₁ ∧ parse.run b₁ = (.ok parsed, b')

omit [Libc] in
theorem Occurs.back {parse : EntryParser BodyParseResult} {b b' : Buffer} {parsed : BodyParseResult}
    (h : Advances b b') (hoccurs : Occurs parse b' parsed) : Occurs parse b parsed := by
  obtain ⟨b₁, b₂, hforward, hrun⟩ := hoccurs
  exact ⟨b₁, b₂, h.trans hforward, hrun⟩

omit [Libc] in
theorem ensures_occurs (parse : EntryParser BodyParseResult) : Ensures parse fun b parsed => Occurs parse b parsed :=
  fun b _ b' h => ⟨b, b', .refl b, h⟩

theorem occurs_of_messageEntries {buf : Buffer} {parsed : BodyParseResult}
    : (.message parsed ∈ (entries messageNextEntry buf).1 → Occurs messageParse buf parsed)
      ∧ (.enumeration parsed ∈ (entries messageNextEntry buf).1 → Occurs enumParse buf parsed)
      ∧ (.oneof parsed ∈ (entries messageNextEntry buf).1 → Occurs oneofParse buf parsed) := by
  let Q (b : Buffer) (e : MessageEntry) : Prop := (∀ p, e = .message p → Occurs messageParse b p)
    ∧ (∀ p, e = .enumeration p → Occurs enumParse b p) ∧ ∀ p, e = .oneof p → Occurs oneofParse b p
  have hQ : Backward Q := by
    intro b b' e hforward h
    exact ⟨fun p hp => (h.1 p hp).back hforward, fun p hp => (h.2.1 p hp).back hforward,
      fun p hp => (h.2.2 p hp).back hforward⟩
  have hnext : Ensures messageNextEntry Q := by
    apply messageNextEntry_ensures hQ
    case henum =>
      intro b p b' h
      simpa [Q] using ensures_occurs enumParse b p b' h
    case hmessage =>
      intro b p b' h
      simpa [Q] using ensures_occurs messageParse b p b' h
    case honeof =>
      intro b p b' h
      simpa [Q] using ensures_occurs oneofParse b p b' h
    all_goals simp [Ensures, Q]
  exact ⟨fun h => (entries_mem hnext hQ h).1 _ rfl, fun h => (entries_mem hnext hQ h).2.1 _ rfl,
    fun h => (entries_mem hnext hQ h).2.2 _ rfl⟩

theorem occurs_of_fileEntries {buf : Buffer} {parsed : BodyParseResult}
    : (.message parsed ∈ (entries fileNextEntry buf).1 → Occurs messageParse buf parsed)
      ∧ (.enumeration parsed ∈ (entries fileNextEntry buf).1 → Occurs enumParse buf parsed) := by
  let Q (b : Buffer) (e : FileEntry) : Prop := (∀ p, e = .message p → Occurs messageParse b p)
    ∧ ∀ p, e = .enumeration p → Occurs enumParse b p
  have hQ : Backward Q := by
    intro b b' e hforward h
    exact ⟨fun p hp => (h.1 p hp).back hforward, fun p hp => (h.2 p hp).back hforward⟩
  have hnext : Ensures fileNextEntry Q := by
    apply fileNextEntry_ensures hQ
    case henum =>
      intro b p b' h
      simpa [Q] using ensures_occurs enumParse b p b' h
    case hmessage =>
      intro b p b' h
      simpa [Q] using ensures_occurs messageParse b p b' h
    all_goals simp [Ensures, Q]
  exact ⟨fun h => (entries_mem hnext hQ h).1 _ rfl, fun h => (entries_mem hnext hQ h).2 _ rfl⟩

omit [Libc] in
theorem covered_of_occurs {α : Type} {parse : EntryParser BodyParseResult} {next item : EntryParser α}
    (hitem : Itemized item) (hnext : next = (skipSemicolons.andThen fun _ => item).restoring)
    (hparse : Bodies parse item) {start stop : Nat} {parsed : BodyParseResult}
    (h : Occurs parse (between text start stop) parsed) : Covered next item (bodyOf text parsed) := by
  obtain ⟨b₁, b', hforward, hrun⟩ := h
  rw [hforward.eq_between] at hrun
  obtain ⟨es, k, -, hclamped⟩ := exists_clampedBody hitem hparse hrun
  exact hclamped.covered hitem.eager hnext

theorem MessageVisited.occurs {text : Span} {offset : Nat} {parsed : BodyParseResult}
    (h : MessageVisited text offset parsed) : ∃ start stop, Occurs messageParse (between text start stop) parsed := by
  cases h with
  | file h => exact ⟨_, _, occurs_of_fileEntries.1 h⟩
  | nested _ h => exact ⟨_, _, occurs_of_messageEntries.1 h⟩

/--
Nothing of a text that is accepted is dropped, exactly if no block comment that is not terminated stands
behind the last entry of the file.
-/
theorem nothingDropped_iff (file : FileNode) (h : buildFile text offset = .ok file)
    : NothingDropped text offset
        ↔ ¬Unterminated (entriesEnd fileNextEntry (fileText text offset)).rest := by
  have hend : (entries fileNextEntry (fileText text offset)).2 = none := by
    rcases hcount : countEntries text offset with e | cnt
    . rw [buildFile, hcount] at h
      simp [bind, Except.bind] at h
    . exact entries_of_walk_ok eager_fileNextEntry hcount
  have hfile := covered_iff eager_fileEntry fileNextEntry_eq hend
  constructor
  . intro hcovered
    exact hfile.mp hcovered.file
  . intro hterminated
    refine ⟨hfile.mpr hterminated, ?_, ?_, ?_⟩
    . intro parsed hvisited
      obtain ⟨start, stop, hoccurs⟩ := hvisited.occurs
      exact covered_of_occurs text itemized_messageEntry messageNextEntry_eq messageParse_body hoccurs
    . rintro parsed (hmem | ⟨outer, -, hmem⟩)
      . exact covered_of_occurs text itemized_enumEntry enumNextEntry_eq enumParse_body
          (occurs_of_fileEntries.2 hmem)
      . exact covered_of_occurs text itemized_enumEntry enumNextEntry_eq enumParse_body
          (occurs_of_messageEntries.2.1 hmem)
    . rintro parsed ⟨outer, -, hmem⟩
      exact covered_of_occurs text itemized_oneofEntry oneofNextEntry_eq oneofParse_body
        (occurs_of_messageEntries.2.2 hmem)

end Visits

theorem severalEntries_nothingDropped_iff
    : ∃ file, @buildFile Pool.constLibc severalEntries 0 = .ok file
        ∧ (@NothingDropped Pool.constLibc severalEntries 0
          ↔ ¬Unterminated (entriesEnd (@fileNextEntry Pool.constLibc) (fileText severalEntries 0)).rest)
        ∧ @NothingDropped Pool.constLibc severalEntries 0 := by
  have hok : (@buildFile Pool.constLibc severalEntries 0).isOk = true := by decide +kernel
  have hleft : (entriesEnd (@fileNextEntry Pool.constLibc) (fileText severalEntries 0)).rest = [] := by
    decide +kernel
  rcases hbuild : @buildFile Pool.constLibc severalEntries 0 with e | file
  . rw [hbuild] at hok
    simp [Except.isOk, Except.toBool] at hok
  . have hiff := @nothingDropped_iff Pool.constLibc severalEntries 0 file hbuild
    refine ⟨file, rfl, hiff, hiff.mpr ?_⟩
    rw [hleft]
    rintro ⟨g, l, -, -, heq⟩
    simp at heq

/--
`/*x`.
-/
def openComment : Span :=
  "/*x".toList

/--
A file of nothing but a comment that does not end is accepted.
-/
theorem openComment_dropped
    : ¬∀ (text : Span) (offset : Nat) (file : FileNode), @buildFile Pool.constLibc text offset = .ok file
        → @NothingDropped Pool.constLibc text offset := by
  intro h
  have hok : (@buildFile Pool.constLibc openComment 0).isOk = true := by decide +kernel
  rcases hbuild : @buildFile Pool.constLibc openComment 0 with e | file
  . rw [hbuild] at hok
    simp [Except.isOk, Except.toBool] at hok
  . have hcovered := @NothingDropped.file Pool.constLibc _ _ (h openComment 0 file hbuild)
    have hleft : (entriesEnd (@fileNextEntry Pool.constLibc) (fileText openComment 0)).rest = ['/', '*', 'x'] := by
      decide +kernel
    have hopen : Unterminated ['/', '*', 'x'] := ⟨[], ['x'], .nil, by decide, rfl⟩
    have hend : (entries (@fileNextEntry Pool.constLibc) (fileText openComment 0)).2 = none := by decide +kernel
    have hiff := covered_iff (@eager_fileEntry Pool.constLibc) (@fileNextEntry_eq Pool.constLibc) hend
    rw [hleft] at hiff
    exact hiff.mp hcovered hopen

end Gremlin
