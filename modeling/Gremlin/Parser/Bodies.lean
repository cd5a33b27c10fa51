import Gremlin.Parser.Gaps
import Gremlin.Parser.Heads

/-!
This module contains the comparison of the parsers of blocks and messages on a body and on the text that
goes on behind its closing bracket.
-/

namespace Gremlin

open Text Parser Buffer

variable {after : List Char}

/-! Blocks. -/

theorem isBlockWord_enum : IsBlockWord "enum" where
  identifier := isIdentifier_of_all (by decide) (by decide)
  optional := by decide
  required := by decide
  repeated := by decide
  group := by decide
  map := by decide

theorem isBlockWord_message : IsBlockWord "message" where
  identifier := isIdentifier_of_all (by decide) (by decide)
  optional := by decide
  required := by decide
  repeated := by decide
  group := by decide
  map := by decide

theorem isBlockWord_oneof : IsBlockWord "oneof" where
  identifier := isIdentifier_of_all (by decide) (by decide)
  optional := by decide
  required := by decide
  repeated := by decide
  group := by decide
  map := by decide

theorem isBlockWord_extend : IsBlockWord "extend" where
  identifier := isIdentifier_of_all (by decide) (by decide)
  optional := by decide
  required := by decide
  repeated := by decide
  group := by decide
  map := by decide

theorem closing_false {b b' : Buffer} (h : closing.run b = (.ok false, b'))
    : b' = b ∧ ∃ c rest, b.rest = c :: rest ∧ c ≠ '}' := by
  simp only [closing] at h
  split at h
  . simp at h
  . next c rest hrest =>
    split at h
    . simp at h
    . next hc =>
      rw [Prod.mk.injEq] at h
      exact ⟨h.2.symm, c, rest, hrest, hc⟩

theorem narrow_closing : Narrow ('}' :: after) '/' closing := by
  rintro ⟨offset, rest⟩ found ⟨offset', rest'⟩ - h
  cases rest with
  | nil =>
    -- the bracket behind the clamped buffer would have been gone over
    simp only [closing, before, List.nil_append, if_true, Prod.mk.injEq, Buffer.mk.injEq] at h
    have := congrArg List.length h.2.2
    simp at this
    omega
  | cons c rest =>
    simp only [closing, before, List.cons_append] at h ⊢
    split at h
    . next hc =>
      simp only [Prod.mk.injEq, Buffer.mk.injEq] at h
      rw [if_pos hc, h.1, h.2.1, List.append_cancel_right h.2.2]
    . next hc =>
      simp only [Prod.mk.injEq, Buffer.mk.injEq, ← List.cons_append] at h
      rw [if_neg hc, h.1, h.2.1, List.append_cancel_right h.2.2]

theorem closing_length (b b' : Buffer) (h : closing.run b = (.ok true, b'))
    : b'.rest.length < b.rest.length := by
  rw [(closing_true h).1]
  simp

theorem progress_bodyStep {entry : EntryParser Unit} (hentry : Eager entry) : Progress (bodyStep entry) := by
  intro _
  apply goes_andThen
  intro _
  apply goes_andThen
  intro bodyEnd
  apply goes_test closing_length
  apply goes_test shiftIf_length
  exact (hentry.andThen _).goes

theorem narrow_bodyStep {entry : EntryParser Unit} (hentry : Narrow ('}' :: after) '/' entry) (u : Unit)
    : Narrow ('}' :: after) '/' (bodyStep entry u) :=
  narrow_skipSpaces.andThen fun _ => exact_position.narrow.andThen fun _ =>
    narrow_closing.andThen fun _ => narrow_ite (exact_succeed _).narrow <|
    (exact_checkAndShift (by decide)).narrow.andThen fun _ => narrow_ite (exact_succeed _).narrow <|
    hentry.andThen fun _ => (exact_succeed _).narrow

theorem narrow_block {word : String} (hword : '}' ∉ word.toList) {parseName : EntryParser Span}
    (hname : Exact ('}' :: after) parseName) {entry : EntryParser Unit} (heager : Eager entry)
    (hentry : Narrow ('}' :: after) '/' entry) : Narrow ('}' :: after) '/' (block word parseName entry) := by
  rw [block_eq]
  apply Narrow.restoring
  exact (sure_blockHead hword hname).narrow.andThen fun _ => exact_position.narrow.andThen fun _ =>
    (Narrow.loop (progress_bodyStep heager) (narrow_bodyStep hentry) ()).andThen fun _ =>
    (exact_succeed _).narrow

theorem blockHead_of_block {word : String} {parseName : EntryParser Span} {entry : EntryParser Unit}
    {b b' : Buffer} {parsed : BodyParseResult} (h : (block word parseName entry).run b = (.ok parsed, b'))
    : ∃ name b₁, (blockHead word parseName).run b = (.ok name, b₁) := by
  rw [block_eq] at h
  obtain ⟨name, b₁, hhead, -⟩ := andThen_ok.mp (restoring_ok.mp h)
  exact ⟨name, b₁, hhead⟩

/--
A block is no entry of another kind, whether it ends in the clamped buffer or behind it.
-/
theorem excludes_of_head {α β : Type} {word : String} (hword : '}' ∉ word.toList) {parseName : EntryParser Span}
    (hname : Exact ('}' :: after) parseName) {p : EntryParser α} {q : EntryParser β}
    (hp : ∀ b a b', p.run b = (.ok a, b') → ∃ name b₁, (blockHead word parseName).run b = (.ok name, b₁))
    (hq : ∀ b name b', (blockHead word parseName).run b = (.ok name, b') → ∀ y c, q.run b ≠ (.ok y, c))
    : Excludes ('}' :: after) p q := by
  intro b a b' h
  obtain ⟨name, b₁, hhead⟩ := hp b a b' h
  right
  exact hq _ _ _ ((sure_blockHead hword hname).firm _ _ _ hhead)

/-! Parsers that do not succeed. -/

def Never {α : Type} (b : Buffer) (p : EntryParser α) : Prop :=
  ∀ a b', p.run b ≠ (.ok a, b')

theorem Never.map {α β : Type} {b : Buffer} {p : EntryParser α} (hp : Never b p) (f : α → β)
    : Never b (f <$> p) := by
  intro y b' h
  obtain ⟨a, h, -⟩ := map_ok.mp h
  exact hp a b' h

theorem Never.orElse {α : Type} {b : Buffer} {p q : EntryParser α} (hp : Never b p) (hrestores : Restores p)
    (hq : Never b q) : Never b (p.orElse q) := by
  intro a b' h
  rcases orElse_ok h with h | ⟨e, c, herror, h⟩
  . exact hp a b' h
  . rw [hrestores _ _ _ herror] at h
    exact hq a b' h

theorem never_fail {α : Type} (b : Buffer) (e : ParsingError) : Never b (fail e : EntryParser α) := by
  intro a b' h
  simp at h

section Head

variable {word : String} {parseName : EntryParser Span} {b b' : Buffer} {name : Span}
  (h : (blockHead word parseName).run b = (.ok name, b'))

include h

theorem word_of_blockHead : word.toList <+: b.rest := by
  obtain ⟨_, b₁, hkeyword, -⟩ := andThen_ok.mp h
  exact ⟨b₁.rest, (literal_true.mp (require_ok.mp hkeyword)).1.symm⟩

theorem never_block {word' : String} (hdiffers : Differs word.toList word'.toList)
    {parseName' : EntryParser Span} {entry : EntryParser Unit} : Never b (block word' parseName' entry) := by
  intro a c
  exact opening_ne_ok hdiffers (word_of_blockHead h) _ _ a c

theorem never_messageHead (hdiffers : Differs word.toList "message".toList) : Never b messageHead := by
  intro a c
  exact opening_ne_ok hdiffers (word_of_blockHead h) _ _ a c

end Head

/-! The entries of a body. -/

section Entries

variable [Libc]

/--
`gremlinp_enum_next_entry` behind the stray semicolons.
-/
def enumEntry : EntryParser EnumEntry :=
  (EnumEntry.option <$> optionParse).orElse <|
    (EnumEntry.reserved <$> reservedParse).orElse <|
    EnumEntry.field <$> enumFieldParse

/--
`gremlinp_oneof_next_entry` behind the stray semicolons.
-/
def oneofEntry : EntryParser OneofEntry :=
  (OneofEntry.option <$> optionParse).orElse <|
    OneofEntry.field <$> oneofFieldParse

/--
The entries of a message that are no enums and no messages.
-/
def messageTail : EntryParser MessageEntry :=
  (MessageEntry.oneof <$> oneofParse).orElse <|
    (MessageEntry.option <$> optionParse).orElse <|
    (MessageEntry.extensions <$> extensionsParse).orElse <|
    (MessageEntry.reserved <$> reservedParse).orElse <|
    (MessageEntry.extend <$> extendParse).orElse <|
    ((fun _ => MessageEntry.group) <$> groupParse).orElse <|
    (MessageEntry.field <$> fieldParse).orElse <|
    fail .invalidCharacter

/--
`gremlinp_message_next_entry` behind the stray semicolons.
-/
def messageEntry : EntryParser MessageEntry :=
  (MessageEntry.enumeration <$> enumParse).orElse <|
    (MessageEntry.message <$> messageParse).orElse messageTail

theorem enumNextEntry_eq : enumNextEntry = (skipSemicolons.andThen fun _ => enumEntry).restoring :=
  rfl

theorem oneofNextEntry_eq : oneofNextEntry = (skipSemicolons.andThen fun _ => oneofEntry).restoring :=
  rfl

theorem messageNextEntry_eq : messageNextEntry = (skipSemicolons.andThen fun _ => messageEntry).restoring :=
  rfl

theorem narrow_enumEntry : Narrow ('}' :: after) '/' enumEntry := by
  apply Narrow.orElse sure_optionParse.narrow.map
  . apply Narrow.orElse sure_reservedParse.narrow.map narrow_enumFieldParse.map
    . exact (restores_restoring _).map
    . exact sure_reservedParse.firm.map.excludes _
  . exact (restores_restoring _).map
  . exact sure_optionParse.firm.map.excludes _

theorem narrow_oneofEntry : Narrow ('}' :: after) '/' oneofEntry := by
  apply Narrow.orElse sure_optionParse.narrow.map narrow_oneofFieldParse.map
  . exact (restores_restoring _).map
  . exact sure_optionParse.firm.map.excludes _

theorem enumBody_eq
    : (discard optionParse).orElse ((discard reservedParse).orElse
        ((discard enumFieldParse).orElse (fail .invalidEnumDef)))
      = discard (enumEntry.orElse (fail .invalidEnumDef)) := by
  have hmap {α : Type} (p : EntryParser α) : discard p = (fun _ => ()) <$> p := rfl
  simp only [hmap, enumEntry, map_orElse, map_map, orElse_assoc]
  rfl

theorem oneofBody_eq
    : (discard optionParse).orElse ((discard oneofFieldParse).orElse (fail .invalidOneofElement))
      = discard (oneofEntry.orElse (fail .invalidOneofElement)) := by
  have hmap {α : Type} (p : EntryParser α) : discard p = (fun _ => ()) <$> p := rfl
  simp only [hmap, oneofEntry, map_orElse, map_map, orElse_assoc]
  rfl

/--
What a turn of the loop over a message does with an entry is told from the entry.
-/
theorem messageStep_eq (depth : Nat)
    : ((fun _ => Step.again depth) <$> enumParse).orElse
        (((fun _ => .again (depth + 1)) <$> messageHead).orElse
        (((fun _ => .again depth) <$> oneofParse).orElse
        (((fun _ => .again depth) <$> optionParse).orElse
        (((fun _ => .again depth) <$> extensionsParse).orElse
        (((fun _ => .again depth) <$> reservedParse).orElse
        (((fun _ => .again depth) <$> extendParse).orElse
        (((fun _ => .again depth) <$> groupParse).orElse
        (((fun _ => .again depth) <$> fieldParse).orElse
        (fail .invalidCharacter)))))))))
      = ((fun _ => (Step.again depth : Step Nat Nat)) <$> enumParse).orElse
          (((fun _ => .again (depth + 1)) <$> messageHead).orElse
          ((fun _ => .again depth) <$> messageTail)) := by
  simp only [messageTail, map_orElse, map_map]
  rfl

theorem restores_extendParse : Restores extendParse := by
  let extend (body : BodyParseResult) : ExtendParseResult := ⟨body.name, body.bodyStart, body.bodyEnd⟩
  change Restores (extend <$> block "extend" parseFullIdentifier (discard fieldParse))
  exact (restores_restoring _).map

theorem eager_enumEntry : Eager enumEntry :=
  (eager_optionParse.andThen _).orElse <| (eager_reservedParse.andThen _).orElse <|
    eager_enumFieldParse.andThen _

theorem eager_oneofEntry : Eager oneofEntry :=
  (eager_optionParse.andThen _).orElse <| eager_oneofFieldParse.andThen _

theorem eager_messageTail : Eager messageTail :=
  (eager_oneofParse.andThen _).orElse <| (eager_optionParse.andThen _).orElse <|
    (eager_extensionsParse.andThen _).orElse <| (eager_reservedParse.andThen _).orElse <|
    (eager_extendParse.andThen _).orElse <| (eager_groupParse.andThen _).orElse <|
    (eager_fieldParse.andThen _).orElse <| eager_fail _

theorem eager_messageEntry : Eager messageEntry :=
  (eager_enumParse.andThen _).orElse <| (eager_messageParse.andThen _).orElse eager_messageTail

theorem narrow_enumParse : Narrow ('}' :: after) '/' enumParse := by
  unfold enumParse
  rw [enumBody_eq]
  apply narrow_block (by decide) exact_parseIdentifier
  . exact (eager_enumEntry.orElse (eager_fail _)).andThen _
  . exact narrow_enumEntry.orElse_fail.map

theorem narrow_oneofParse : Narrow ('}' :: after) '/' oneofParse := by
  unfold oneofParse
  rw [oneofBody_eq]
  apply narrow_block (by decide) exact_parseIdentifier
  . exact (eager_oneofEntry.orElse (eager_fail _)).andThen _
  . exact narrow_oneofEntry.orElse_fail.map

theorem narrow_extendParse : Narrow ('}' :: after) '/' extendParse := by
  apply Narrow.andThen
  . apply narrow_block (by decide) exact_parseFullIdentifier
    . exact eager_fieldParse.andThen _
    . exact narrow_fieldParse.map
  . exact fun _ => (exact_succeed _).narrow

/-! Where the head of a block stands, there is no other entry. -/

section Head

variable {word : String} (hword : IsBlockWord word) {parseName : EntryParser Span} (hname : Names parseName)
  {b b' : Buffer} {name : Span} (h : (blockHead word parseName).run b = (.ok name, b'))

include h

include hword hname

theorem never_fieldEnd : Never b ((MessageEntry.field <$> fieldParse).orElse (fail .invalidCharacter)) := by
  apply Never.orElse
  . exact Never.map (fieldParse_ne_ok hword hname h) _
  . exact (restores_restoring _).map
  . exact never_fail b _

theorem never_groupEnd : Never b (((fun _ => MessageEntry.group) <$> groupParse).orElse <|
    (MessageEntry.field <$> fieldParse).orElse (fail .invalidCharacter)) := by
  apply Never.orElse
  . exact Never.map (groupParse_ne_ok hword (word_of_blockHead h)) _
  . exact (restores_restoring _).map
  . exact never_fieldEnd hword hname h

theorem never_messageTail (honeof : Differs word.toList "oneof".toList)
    (hoption : Differs word.toList "option".toList) (hextensions : Differs word.toList "extensions".toList)
    (hreserved : Differs word.toList "reserved".toList) (hextend : Differs word.toList "extend".toList)
    : Never b messageTail := by
  have hpre := word_of_blockHead h
  apply Never.orElse ((never_block h honeof).map _) (restores_restoring _).map
  apply Never.orElse (Never.map (opening_ne_ok hoption hpre _ _) _) (restores_restoring _).map
  apply Never.orElse (Never.map (opening_ne_ok hextensions hpre _ _) _) (restores_restoring _).map
  apply Never.orElse (Never.map (opening_ne_ok hreserved hpre _ _) _) (restores_restoring _).map
  apply Never.orElse (Never.map ((never_block h hextend).map _) _) restores_extendParse.map
  exact never_groupEnd hword hname h

end Head

/-! The entries of a message. -/

theorem narrow_messageTail : Narrow ('}' :: after) '/' messageTail := by
  have hfield : Narrow ('}' :: after) '/' ((MessageEntry.field <$> fieldParse).orElse (fail .invalidCharacter)) :=
    narrow_fieldParse.map.orElse_fail
  have hgroup := sure_groupParse.narrow.map (g := fun _ => MessageEntry.group) |>.orElse hfield
    (restores_restoring _).map (sure_groupParse.firm.map.excludes _)
  apply Narrow.orElse narrow_oneofParse.map
  . apply Narrow.orElse sure_optionParse.narrow.map
    . apply Narrow.orElse sure_extensionsParse.narrow.map
      . apply Narrow.orElse sure_reservedParse.narrow.map
        . apply Narrow.orElse narrow_extendParse.map hgroup restores_extendParse.map
          apply @excludes_of_head after _ _ "extend" (by decide) _ exact_parseFullIdentifier
          . intro b a b' h
            obtain ⟨_, h, -⟩ := map_ok.mp h
            obtain ⟨_, _, h, -⟩ := andThen_ok.mp h
            exact blockHead_of_block h
          . intro b name b' h
            exact never_groupEnd isBlockWord_extend names_parseFullIdentifier h
        . exact (restores_restoring _).map
        . exact sure_reservedParse.firm.map.excludes _
      . exact (restores_restoring _).map
      . exact sure_extensionsParse.firm.map.excludes _
    . exact (restores_restoring _).map
    . exact sure_optionParse.firm.map.excludes _
  . exact (restores_restoring _).map
  . apply @excludes_of_head after _ _ "oneof" (by decide) _ exact_parseIdentifier
    . intro b a b' h
      obtain ⟨_, h, -⟩ := map_ok.mp h
      exact blockHead_of_block h
    . intro b name b' h
      have hpre := word_of_blockHead h
      apply Never.orElse (Never.map (opening_ne_ok (by decide) hpre _ _) _) (restores_restoring _).map
      apply Never.orElse (Never.map (opening_ne_ok (by decide) hpre _ _) _) (restores_restoring _).map
      apply Never.orElse (Never.map (opening_ne_ok (by decide) hpre _ _) _) (restores_restoring _).map
      apply Never.orElse (Never.map ((never_block h (by decide)).map _) _) restores_extendParse.map
      exact never_groupEnd isBlockWord_oneof names_parseIdentifier h

theorem narrow_chain {β γ : Type} {message : EntryParser β} (hmessage : Narrow ('}' :: after) '/' message)
    (hrestores : Restores message)
    (hhead : ∀ b a b', message.run b = (.ok a, b') → ∃ name b₁, messageHead.run b = (.ok name, b₁))
    (enum : BodyParseResult → γ) (nested : β → γ) (entry : MessageEntry → γ)
    : Narrow ('}' :: after) '/' ((enum <$> enumParse).orElse
        ((nested <$> message).orElse (entry <$> messageTail))) := by
  have hnever {b : Buffer} (h : Never b messageHead) : Never b message := by
    intro a b' hrun
    obtain ⟨name, b₁, hrun⟩ := hhead b a b' hrun
    exact h name b₁ hrun
  apply Narrow.orElse narrow_enumParse.map
  . apply Narrow.orElse hmessage.map narrow_messageTail.map hrestores.map
    apply @excludes_of_head after _ _ "message" (by decide) _ exact_parseIdentifier
    . intro b a b' h
      obtain ⟨a, h, -⟩ := map_ok.mp h
      obtain ⟨name, b₁, h⟩ := hhead b a b' h
      exact ⟨name, b₁, restoring_ok.mp h⟩
    . intro b name b' h
      exact (never_messageTail isBlockWord_message names_parseIdentifier h (by decide) (by decide) (by decide)
        (by decide) (by decide)).map _
  . exact (restores_restoring _).map
  . apply @excludes_of_head after _ _ "enum" (by decide) _ exact_parseIdentifier
    . intro b a b' h
      obtain ⟨_, h, -⟩ := map_ok.mp h
      exact blockHead_of_block h
    . intro b name b' h
      apply Never.orElse ((hnever (never_messageHead h (by decide))).map _) hrestores.map
      exact (never_messageTail isBlockWord_enum names_parseIdentifier h (by decide) (by decide) (by decide)
        (by decide) (by decide)).map _

theorem progress_messageStep : Progress messageStep := by
  intro depth
  apply goes_andThen
  intro _
  apply goes_andThen
  intro bodyEnd
  apply goes_test closing_length
  apply goes_test shiftIf_length
  rw [messageStep_eq]
  apply Eager.goes
  exact (eager_enumParse.andThen _).orElse <| (eager_messageHead.andThen _).orElse <|
    eager_messageTail.andThen _

omit [Libc] in
theorem narrow_messageHead : Narrow ('}' :: after) '/' messageHead := by
  rw [messageHead_eq]
  exact (sure_blockHead (by decide) exact_parseIdentifier).narrow.restoring

theorem narrow_messageStep (depth : Nat) : Narrow ('}' :: after) '/' (messageStep depth) := by
  apply narrow_skipSpaces.andThen
  intro _
  apply exact_position.narrow.andThen
  intro bodyEnd
  apply narrow_closing.andThen
  intro closed
  apply narrow_ite
  . cases depth <;> exact (exact_succeed _).narrow
  . apply (exact_checkAndShift (by decide)).narrow.andThen
    intro semicolon
    apply narrow_ite (exact_succeed _).narrow
    rw [messageStep_eq]
    apply narrow_chain narrow_messageHead (restores_restoring _)
    intro b name b' h
    exact ⟨name, b', h⟩

theorem narrow_messageParse : Narrow ('}' :: after) '/' messageParse := by
  apply Narrow.restoring
  exact narrow_messageHead.andThen fun _ => exact_position.narrow.andThen fun _ =>
    (Narrow.loop progress_messageStep narrow_messageStep 0).andThen fun _ => (exact_succeed _).narrow

theorem messageHead_of_messageParse {b b' : Buffer} {parsed : BodyParseResult}
    (h : messageParse.run b = (.ok parsed, b')) : ∃ name b₁, messageHead.run b = (.ok name, b₁) := by
  obtain ⟨name, b₁, hhead, -⟩ := andThen_ok.mp (restoring_ok.mp h)
  exact ⟨name, b₁, hhead⟩

theorem narrow_messageEntry : Narrow ('}' :: after) '/' messageEntry := by
  have hchain := @narrow_chain after _ _ _ messageParse narrow_messageParse (restores_restoring _)
    (fun _ _ _ => messageHead_of_messageParse) MessageEntry.enumeration MessageEntry.message id
  rw [map_id] at hchain
  exact hchain

/-! What entries end with. -/

omit [Libc] in
theorem ends_semicolon {α : Type} (a : α) : Ends '/' ((expect ';' .semicolonExpected).andThen fun _ => succeed a) :=
  (ends_shiftIf (by decide) _).andThen_succeed _

theorem ends_optionParse : Ends '/' optionParse := by
  apply Ends.restoring
  exact ends_andThen _ fun _ => ends_andThen _ fun _ => ends_andThen _ fun _ => ends_andThen _ fun _ =>
    ends_andThen _ fun _ => ends_andThen _ fun _ => ends_andThen _ fun _ => ends_andThen _ fun _ =>
    ends_semicolon _

theorem ends_fieldParse : Ends '/' fieldParse := by
  apply Ends.restoring
  exact ends_andThen _ fun _ => ends_andThen _ fun _ => ends_andThen _ fun _ => ends_andThen _ fun _ =>
    ends_andThen _ fun _ => ends_andThen _ fun _ => ends_andThen _ fun _ => ends_andThen _ fun _ =>
    ends_andThen _ fun _ => ends_andThen _ fun _ => ends_semicolon _

theorem ends_oneofFieldParse : Ends '/' oneofFieldParse := by
  apply Ends.restoring
  exact ends_andThen _ fun _ => ends_andThen _ fun _ => ends_andThen _ fun _ => ends_andThen _ fun _ =>
    ends_andThen _ fun _ => ends_andThen _ fun _ => ends_andThen _ fun _ => ends_andThen _ fun _ =>
    ends_andThen _ fun _ => ends_semicolon _

theorem ends_enumFieldParse : Ends '/' enumFieldParse := by
  apply Ends.restoring
  exact ends_andThen _ fun _ => ends_andThen _ fun _ => ends_andThen _ fun _ => ends_andThen _ fun _ =>
    ends_andThen _ fun _ => ends_andThen _ fun _ => ends_andThen _ fun _ => ends_semicolon _

omit [Libc] in
theorem ends_extensionsParse : Ends '/' extensionsParse := by
  apply Ends.restoring
  exact ends_andThen _ fun _ => ends_andThen _ fun _ => ends_andThen _ fun _ => ends_semicolon _

omit [Libc] in
theorem ends_reservedParse : Ends '/' reservedParse := by
  apply Ends.restoring
  apply ends_andThen
  intro _
  apply ends_andThen
  intro _
  apply ends_andThen
  intro names
  dsimp only
  split
  . exact ends_andThen _ fun _ => ends_semicolon _
  . exact ends_andThen _ fun _ => ends_semicolon _

omit [Libc] in
theorem ends_bodyStep {entry : EntryParser Unit} (u : Unit) (b : Buffer) (bodyEnd : Nat) (b' : Buffer)
    (h : (bodyStep entry u).run b = (.ok (.done bodyEnd), b')) : ∃ pre d, b.rest = pre ++ d :: b'.rest ∧ d ≠ '/' := by
  obtain ⟨_, b₁, hspaces, h⟩ := andThen_ok.mp h
  obtain ⟨n, b₂, hposition, h⟩ := andThen_ok.mp h
  obtain ⟨rfl, rfl⟩ := position_ok hposition
  obtain ⟨closed, b₃, hclosing, h⟩ := andThen_ok.mp h
  cases closed with
  | true =>
    simp only [if_true, pure_eq, succeed_run, Prod.mk.injEq] at h
    obtain ⟨pre, heq, -⟩ := advances hspaces
    rw [(closing_true hclosing).1, h.2] at heq
    exact ⟨pre, '}', heq, by decide⟩
  | false =>
    obtain ⟨semicolon, b₄, -, h⟩ := andThen_ok.mp h
    cases semicolon with
    | true => simp at h
    | false =>
      obtain ⟨_, _, -, h⟩ := andThen_ok.mp h
      simp at h

omit [Libc] in
theorem ends_block {word : String} {parseName : EntryParser Span} {entry : EntryParser Unit}
    : Ends '/' (block word parseName entry) := by
  rw [block_eq]
  apply Ends.restoring
  exact ends_andThen _ fun _ => ends_andThen _ fun _ => (ends_loop ends_bodyStep ()).andThen_succeed _

omit [Libc] in
theorem ends_groupParse : Ends '/' groupParse := by
  apply Ends.restoring
  refine ends_andThen _ fun _ => ends_andThen _ fun _ => ends_andThen _ fun _ => ends_andThen _ fun _ =>
    ends_andThen _ fun _ => ends_andThen _ fun _ => ends_andThen _ fun _ => ends_andThen _ fun _ =>
    ends_andThen _ fun _ => ends_andThen _ fun _ => ends_andThen _ fun _ => ends_andThen _ fun _ =>
    ends_andThen _ fun _ => ends_loop ?_ 0
  intro depth b a b' h
  obtain ⟨x, b₁, hnext, h⟩ := andThen_ok.mp h
  obtain ⟨offset, rest⟩ := b
  cases rest with
  | nil =>
    simp only [next, Prod.mk.injEq, Except.ok.injEq] at hnext
    obtain ⟨rfl, rfl⟩ := hnext
    simp at h
  | cons c rest =>
    simp only [next, Prod.mk.injEq, Except.ok.injEq] at hnext
    obtain ⟨rfl, rfl⟩ := hnext
    dsimp only at h
    split at h
    . simp at h
    . split at h
      . next hc =>
        cases depth with
        | zero =>
          simp only [pure_eq, succeed_run, Prod.mk.injEq] at h
          rw [← h.2, hc]
          exact ⟨[], '}', rfl, by decide⟩
        | succ depth => simp at h
      . split at h
        . obtain ⟨_, _, -, h⟩ := andThen_ok.mp h
          simp at h
        . simp at h

theorem ends_messageParse : Ends '/' messageParse := by
  apply Ends.restoring
  refine ends_andThen _ fun _ => ends_andThen _ fun _ => (ends_loop ?_ 0).andThen_succeed _
  intro depth b bodyEnd b' h
  obtain ⟨b₁, hspaces, hrest, -⟩ := messageStep_done h
  obtain ⟨pre, heq, -⟩ := advances hspaces
  rw [hrest] at heq
  exact ⟨pre, '}', heq, by decide⟩

theorem ends_enumEntry : Ends '/' enumEntry :=
  (ends_optionParse.andThen_succeed _).orElse <| (ends_reservedParse.andThen_succeed _).orElse <|
    ends_enumFieldParse.andThen_succeed _

theorem ends_oneofEntry : Ends '/' oneofEntry :=
  (ends_optionParse.andThen_succeed _).orElse <| ends_oneofFieldParse.andThen_succeed _

theorem ends_messageEntry : Ends '/' messageEntry :=
  (ends_block.andThen_succeed _).orElse <| (ends_messageParse.andThen_succeed _).orElse <|
    (ends_block.andThen_succeed _).orElse <| (ends_optionParse.andThen_succeed _).orElse <|
    (ends_extensionsParse.andThen_succeed _).orElse <| (ends_reservedParse.andThen_succeed _).orElse <|
    ((ends_block.andThen_succeed _).andThen_succeed _).orElse <| (ends_groupParse.andThen_succeed _).orElse <|
    (ends_fieldParse.andThen_succeed _).orElse <| ends_fail _

/-! What entries begin with. -/

section Slash

variable {b : Buffer} (h : LoneSlash b.rest)

include h

omit [Libc] in
theorem starts_with_slash : ['/'] <+: b.rest := by
  obtain ⟨rest, hrest, -⟩ := h
  exact ⟨rest, hrest.symm⟩

omit [Libc] in
theorem skipSpaces_loneSlash : (skipSpaces.run b).2 = b := by
  obtain ⟨rest, hrest, hhead⟩ := h
  obtain ⟨offset, _⟩ := b
  dsimp only at hrest
  subst hrest
  cases rest with
  | nil => rfl
  | cons c rest =>
    obtain ⟨hslash, hstar⟩ := hhead c rfl
    simp [skipSpaces, skip_slash hslash hstar]

omit [Libc] in
theorem never_identifierChars_slash : Never b identifierChars := by
  intro a b' hrun
  obtain ⟨rest, hslash, -⟩ := h
  obtain ⟨_, _, hstart, -⟩ := andThen_ok.mp hrun
  obtain ⟨c, hc, hrest, -⟩ := shiftIf_true.mp (require_ok.mp hstart)
  rw [hslash] at hrest
  rw [← (List.cons.inj hrest).1] at hc
  exact absurd hc (by decide)

omit [Libc] in
theorem never_fullIdentifier_slash : Never b parseFullIdentifier := by
  intro a b' hrun
  obtain ⟨hparts, -⟩ := spanned_ok (restoring_ok.mp hrun)
  obtain ⟨absolute, b₁, hdot, hparts⟩ := andThen_ok.mp hparts
  obtain ⟨_, b₂, hchars, -⟩ := andThen_ok.mp hparts
  cases absolute with
  | true =>
    obtain ⟨rest, hslash, -⟩ := h
    obtain ⟨c, hc, hrest, -⟩ := shiftIf_true.mp hdot
    rw [hslash] at hrest
    rw [← (List.cons.inj hrest).1] at hc
    exact absurd hc (by decide)
  | false =>
    rw [shiftIf_false hdot] at hchars
    exact never_identifierChars_slash h _ _ hchars

omit [Libc] in
theorem never_block_slash {word : String} (hword : Differs ['/'] word.toList) {parseName : EntryParser Span}
    {entry : EntryParser Unit} : Never b (block word parseName entry) :=
  opening_ne_ok hword (starts_with_slash h) _ _

omit [Libc] in
theorem never_groupParse_slash : Never b groupParse := by
  intro x c hgroup
  have hpre := starts_with_slash h
  obtain ⟨_, b₁, h₁, hgroup⟩ := andThen_ok.mp (restoring_ok.mp hgroup)
  rw [checkStr_of_differs (by decide) hpre, Prod.mk.injEq] at h₁
  obtain ⟨_, b₂, h₂, hgroup⟩ := andThen_ok.mp hgroup
  rw [← h₁.2, checkStr_of_differs (by decide) hpre, Prod.mk.injEq] at h₂
  obtain ⟨_, b₃, h₃, hgroup⟩ := andThen_ok.mp hgroup
  rw [← h₂.2, checkStr_of_differs (by decide) hpre, Prod.mk.injEq] at h₃
  obtain ⟨_, b₄, hspaces, hgroup⟩ := andThen_ok.mp hgroup
  have hsame := skipSpaces_loneSlash h
  rw [← h₃.2] at hspaces
  rw [hspaces] at hsame
  obtain ⟨_, b₅, hkeyword, -⟩ := andThen_ok.mp hgroup
  dsimp only at hsame
  rw [hsame, keyword_of_differs (by decide) hpre] at hkeyword
  simp at hkeyword

theorem never_fieldParse_slash : Never b fieldParse := by
  intro x c hfield
  have hpre := starts_with_slash h
  obtain ⟨label, c₁, hlabel, hfield⟩ := andThen_ok.mp (restoring_ok.mp hfield)
  obtain ⟨type, c₂, htype, -⟩ := andThen_ok.mp hfield
  rw [fieldLabel_of_differs (by decide) (by decide) (by decide) hpre, Prod.mk.injEq] at hlabel
  rw [← hlabel.2] at htype
  obtain ⟨span, hspan⟩ := parseFieldType_of_differs (by decide) hpre htype
  exact never_fullIdentifier_slash h _ _ hspan

theorem never_enumEntry_slash : Never b enumEntry := by
  have hpre := starts_with_slash h
  apply Never.orElse (Never.map (opening_ne_ok (by decide) hpre _ _) _) (restores_restoring _).map
  apply Never.orElse (Never.map (opening_ne_ok (by decide) hpre _ _) _) (restores_restoring _).map
  apply Never.map
  intro a b' hrun
  obtain ⟨_, _, hname, -⟩ := andThen_ok.mp (restoring_ok.mp hrun)
  exact never_identifierChars_slash h _ _ (spanned_ok hname).1

theorem never_oneofEntry_slash : Never b oneofEntry := by
  have hpre := starts_with_slash h
  apply Never.orElse (Never.map (opening_ne_ok (by decide) hpre _ _) _) (restores_restoring _).map
  apply Never.map
  intro a b' hrun
  obtain ⟨_, _, htype, -⟩ := andThen_ok.mp (restoring_ok.mp hrun)
  exact never_fullIdentifier_slash h _ _ htype

theorem never_messageEntry_slash : Never b messageEntry := by
  have hpre := starts_with_slash h
  apply Never.orElse ((never_block_slash h (by decide)).map _) (restores_restoring _).map
  apply Never.orElse
  . apply Never.map
    intro a b' hrun
    obtain ⟨name, b₁, hhead⟩ := messageHead_of_messageParse hrun
    exact opening_ne_ok (by decide) hpre _ _ _ _ hhead
  . exact (restores_restoring _).map
  . apply Never.orElse ((never_block_slash h (by decide)).map _) (restores_restoring _).map
    apply Never.orElse (Never.map (opening_ne_ok (by decide) hpre _ _) _) (restores_restoring _).map
    apply Never.orElse (Never.map (opening_ne_ok (by decide) hpre _ _) _) (restores_restoring _).map
    apply Never.orElse (Never.map (opening_ne_ok (by decide) hpre _ _) _) (restores_restoring _).map
    apply Never.orElse (((never_block_slash h (by decide)).map _).map _) restores_extendParse.map
    apply Never.orElse ((never_groupParse_slash h).map _) (restores_restoring _).map
    apply Never.orElse ((never_fieldParse_slash h).map _) (restores_restoring _).map
    exact never_fail b _

end Slash

end Entries

end Gremlin
