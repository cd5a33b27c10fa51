import Gremlin.Parser.Gaps
import Gremlin.Text.Balanced
import Mathlib.Data.Bool.AllAny

/-!
This module contains where the skipped body of a group or of a service ends.
-/

namespace Gremlin

open Text Parser Buffer

/-! What the scanner takes for a body. -/

def IsQuote (c : Char) : Prop :=
  c = '"' ∨ c = '\x27'

instance : DecidablePred IsQuote := fun _ =>
  inferInstanceAs (Decidable (_ ∨ _))

/--
A string behind its opening quote, as the scanner reads it: over line ends too.
-/
inductive Quoted (close : Char) : Span → Prop where
  | close : Quoted close [close]
  | char {c : Char} {s : Span} (hclose : c ≠ close) (hescape : c ≠ '\\') (h : Quoted close s) : Quoted close (c :: s)
  | escape {c : Char} {s : Span} (h : Quoted close s) : Quoted close ('\\' :: c :: s)

/--
What the scanner takes at once: a string, or a character that is no bracket and no quote.
-/
inductive Scanned : Span → Span → Prop where
  | char {c : Char} {rest : Span} (hleft : c ≠ '{') (hright : c ≠ '}') (hquote : ¬IsQuote c) : Scanned [c] rest
  | string {close : Char} {s rest : Span} (hclose : IsQuote close) (hs : Quoted close s)
    : Scanned (close :: s) rest

theorem IsQuote.ne {c : Char} (h : IsQuote c) : c ≠ '{' ∧ c ≠ '}' ∧ c ≠ '\\' := by
  rcases h with rfl | rfl <;> decide

theorem skipStringStep_cons (close c : Char) (offset : Nat) (rest : Span)
    : (skipStringStep close ()).run ⟨offset, c :: rest⟩
        =
      if c = close then
        (.ok (.done ()), ⟨offset + 1, rest⟩)
      else if c = '\\' then
        match rest with
        | [] => (.ok (.again ()), ⟨offset + 1, []⟩)
        | _ :: rest => (.ok (.again ()), ⟨offset + 2, rest⟩)
      else
        (.ok (.again ()), ⟨offset + 1, rest⟩) := by
  simp only [skipStringStep, bind_eq, Parser.andThen, next]
  split
  . rfl
  . split
    . cases rest <;> rfl
    . rfl

theorem skipString_nil {close : Char} {offset : Nat} {b' : Buffer}
    : (loop (skipStringStep close) ()).run ⟨offset, []⟩ ≠ (.ok (), b') := by
  rw [loop_run (progress_skipStringStep close)]
  simp [skipStringStep, Parser.andThen, next]

theorem skipString_again {close : Char} {b b₁ b' : Buffer} (h : (skipStringStep close ()).run b = (.ok (.again ()), b₁))
    : (loop (skipStringStep close) ()).run b = (.ok (), b')
        ↔ (loop (skipStringStep close) ()).run b₁ = (.ok (), b') := by
  rw [loop_run (progress_skipStringStep close), andThen_of_ok h]

theorem quoted_of_skipString {close : Char} {b b' : Buffer}
    (h : (loop (skipStringStep close) ()).run b = (.ok (), b')) : ∃ s, Quoted close s ∧ Covers b s b' := by
  generalize hlen : b.rest.length = n
  induction n using Nat.strong_induction_on generalizing b with
  | _ n ih =>
    obtain ⟨offset, rest⟩ := b
    cases rest with
    | nil => exact absurd h skipString_nil
    | cons c rest =>
      have hstep := skipStringStep_cons close c offset rest
      simp only [List.length_cons] at hlen
      split at hstep
      . next hc =>
        subst hc
        rw [loop_run (progress_skipStringStep c), andThen_of_ok hstep] at h
        simp only [succeed_run, Prod.mk.injEq, true_and] at h
        exact ⟨[c], .close, by rw [← h]; exact ⟨rfl, rfl⟩⟩
      . next hc =>
        split at hstep
        . next hescape =>
          subst hescape
          cases rest with
          | nil => exact absurd ((skipString_again hstep).mp h) skipString_nil
          | cons d rest =>
            obtain ⟨s, hs, hcovers⟩ := ih rest.length (by simp at hlen; omega)
              ((skipString_again hstep).mp h) rfl
            exact ⟨'\\' :: d :: s, .escape hs, (hcovers.cons d).cons '\\'⟩
        . next hescape =>
          obtain ⟨s, hs, hcovers⟩ := ih rest.length (by omega) ((skipString_again hstep).mp h) rfl
          exact ⟨c :: s, .char hc hescape hs, hcovers.cons c⟩

theorem Quoted.skipString {close : Char} {s : Span} (h : Quoted close s) (hclose : close ≠ '\\')
    (offset : Nat) (rest : Span)
    : (loop (skipStringStep close) ()).run ⟨offset, s ++ rest⟩ = (.ok (), ⟨offset + s.length, rest⟩) := by
  induction h generalizing offset with
  | close =>
    have hstep := skipStringStep_cons close close offset rest
    rw [if_pos rfl] at hstep
    rw [List.singleton_append, loop_run (progress_skipStringStep close), andThen_of_ok hstep]
    rfl
  | @char c s hc hescape _ ih =>
    have hstep := skipStringStep_cons close c offset (s ++ rest)
    rw [if_neg hc, if_neg hescape] at hstep
    rw [List.cons_append, skipString_again hstep, ih, List.length_cons, Nat.add_right_comm, Nat.add_assoc]
  | @escape c s _ ih =>
    have hstep := skipStringStep_cons close '\\' offset (c :: (s ++ rest))
    rw [if_neg (Ne.symm hclose), if_pos rfl] at hstep
    rw [List.cons_append, List.cons_append, skipString_again hstep, ih]
    simp only [List.length_cons, Prod.mk.injEq, Buffer.mk.injEq, and_true, true_and]
    omega

theorem skipBodyStep_cons (depth : Nat) (c : Char) (offset : Nat) (rest : Span)
    : (skipBodyStep depth).run ⟨offset, c :: rest⟩
        =
      if c = '{' then
        (.ok (.again (depth + 1)), ⟨offset + 1, rest⟩)
      else if c = '}' then
        match depth with
        | 0 => (.ok (.done ()), ⟨offset + 1, rest⟩)
        | depth + 1 => (.ok (.again depth), ⟨offset + 1, rest⟩)
      else if c = '"' || c = '\x27' then
        match (loop (skipStringStep c) ()).run ⟨offset + 1, rest⟩ with
        | (.ok (), b) => (.ok (.again depth), b)
        | (.error e, b) => (.error e, b)
      else
        (.ok (.again depth), ⟨offset + 1, rest⟩) := by
  simp only [skipBodyStep, bind_eq, Parser.andThen, next]
  split
  . rfl
  . split
    . cases depth <;> rfl
    . split
      . dsimp only
        rcases (loop (skipStringStep c) ()).run ⟨offset + 1, rest⟩ with ⟨e | _, b⟩
        . rfl
        . rfl
      . rfl

theorem skipBody_again {depth depth' : Nat} {b b₁ b' : Buffer}
    (h : (skipBodyStep depth).run b = (.ok (.again depth'), b₁))
    : (loop skipBodyStep depth).run b = (.ok (), b') ↔ (loop skipBodyStep depth').run b₁ = (.ok (), b') := by
  rw [loop_run progress_skipBodyStep, andThen_of_ok h]

theorem closes_of_skipBody {depth : Nat} {b b' : Buffer}
    (h : (loop skipBodyStep depth).run b = (.ok (), b'))
    : ∃ text, Closes '{' '}' Scanned depth text ∧ Covers b text b' := by
  generalize hlen : b.rest.length = n
  -- The induction is on the length of what is left; a string is taken as a whole, so the step may be longer
  -- than one character.
  induction n using Nat.strong_induction_on generalizing b depth with
  | _ n ih =>
    obtain ⟨offset, rest⟩ := b
    cases rest with
    | nil =>
      rw [loop_run progress_skipBodyStep] at h
      simp [skipBodyStep, Parser.andThen, next] at h
    | cons c rest =>
      have hstep := skipBodyStep_cons depth c offset rest
      simp only [List.length_cons] at hlen
      split at hstep
      . next hc =>
        subst hc
        obtain ⟨text, htext, hcovers⟩ := ih rest.length (by omega) ((skipBody_again hstep).mp h) rfl
        exact ⟨'{' :: text, htext.cons_left, hcovers.cons '{'⟩
      . next hleft =>
        split at hstep
        . next hc =>
          subst hc
          cases depth with
          -- The bracket that closes the body ends the loop.
          | zero =>
            rw [loop_run progress_skipBodyStep, andThen_of_ok hstep] at h
            simp only [succeed_run, Prod.mk.injEq, true_and] at h
            exact ⟨['}'], .last .nil, by rw [← h]; exact ⟨rfl, rfl⟩⟩
          | succ depth =>
            obtain ⟨text, htext, hcovers⟩ := ih rest.length (by omega) ((skipBody_again hstep).mp h) rfl
            exact ⟨'}' :: text, htext.cons_right, hcovers.cons '}'⟩
        . next hright =>
          split at hstep
          . next hquote =>
            rcases hrun : (loop (skipStringStep c) ()).run ⟨offset + 1, rest⟩ with ⟨e | _, b₁⟩
            . rw [hrun] at hstep
              rw [loop_run progress_skipBodyStep, andThen_of_error hstep] at h
              simp at h
            . rw [hrun] at hstep
              obtain ⟨s, hs, hstring⟩ := quoted_of_skipString hrun
              have hle := (advances hrun).length_le
              obtain ⟨text, htext, hcovers⟩ := ih b₁.rest.length (by simp at hle; omega)
                ((skipBody_again hstep).mp h) rfl
              have hpiece : ∀ rest, Scanned (c :: s) rest :=
                fun _ => .string (by simpa [IsQuote] using hquote) hs
              refine ⟨(c :: s) ++ text, htext.piece hpiece, ?_⟩
              exact (hstring.trans hcovers).cons c
          . next hquote =>
            obtain ⟨text, htext, hcovers⟩ := ih rest.length (by omega) ((skipBody_again hstep).mp h) rfl
            have hpiece : ∀ rest, Scanned [c] rest :=
              fun _ => .char hleft hright (by simpa [IsQuote] using hquote)
            exact ⟨[c] ++ text, htext.piece hpiece, hcovers.cons c⟩

theorem skipBody_balanced {body : Span} (h : Balanced '{' '}' Scanned body) (depth offset : Nat) (rest : Span)
    : (loop skipBodyStep depth).run ⟨offset, body ++ rest⟩
        = (loop skipBodyStep depth).run ⟨offset + body.length, rest⟩ := by
  have hturn {depth depth' : Nat} {b b₁ : Buffer} (h : (skipBodyStep depth).run b = (.ok (.again depth'), b₁))
      : (loop skipBodyStep depth).run b = (loop skipBodyStep depth').run b₁ := by
    rw [loop_run progress_skipBodyStep, andThen_of_ok h]
  induction h generalizing depth offset rest with
  | nil => rfl
  | @piece a body ha _ ih =>
    cases ha with
    | @char c _ hleft hright hquote =>
      have hstep := skipBodyStep_cons depth c offset (body ++ rest)
      have hnot : ¬(c = '"' || c = '\x27') = true := by simpa [IsQuote] using hquote
      rw [if_neg hleft, if_neg hright, if_neg hnot] at hstep
      rw [List.singleton_append, List.cons_append, hturn hstep, ih, List.length_cons]
      congr 2
      omega
    | @string close s _ hclose hs =>
      have hstep := skipBodyStep_cons depth close offset (s ++ (body ++ rest))
      obtain ⟨hleft, hright, hescape⟩ := hclose.ne
      have hquote : (close = '"' || close = '\x27') = true := by simpa [IsQuote] using hclose
      rw [if_neg hleft, if_neg hright, if_pos hquote, hs.skipString hescape] at hstep
      rw [List.cons_append, List.cons_append, List.append_assoc, hturn hstep, ih]
      simp only [List.length_cons, List.length_append]
      congr 2
      omega
  | @block inner body _ _ ihinner ih =>
    have hleft := skipBodyStep_cons depth '{' offset (inner ++ '}' :: (body ++ rest))
    rw [if_pos rfl] at hleft
    have hright := skipBodyStep_cons (depth + 1) '}' (offset + 1 + inner.length) (body ++ rest)
    rw [if_neg (by decide), if_pos rfl] at hright
    rw [List.cons_append, List.append_assoc, List.cons_append, hturn hleft, ihinner, hturn hright, ih]
    simp only [List.length_cons, List.length_append]
    congr 2
    omega

/--
The scanner ends behind the first bracket that is not opened, where the text before it is balanced.
-/
theorem skipBody_ok {offset : Nat} {body rest : Span}
    : skipBody.run ⟨offset, body ++ '}' :: rest⟩ = (.ok (), ⟨offset + body.length + 1, rest⟩)
        ↔ Balanced '{' '}' Scanned body := by
  constructor
  . intro h
    obtain ⟨text, htext, hcovers⟩ := closes_of_skipBody h
    have heq : body ++ ['}'] = text := by
      apply @List.append_cancel_right _ _ rest
      rw [← hcovers.1, List.append_assoc]
      rfl
    rw [← heq] at htext
    exact closes_zero_iff.mp htext
  . intro h
    have hstep := skipBodyStep_cons 0 '}' (offset + body.length) rest
    rw [if_neg (by decide), if_pos rfl] at hstep
    unfold skipBody
    rw [skipBody_balanced h, loop_run progress_skipBodyStep, andThen_of_ok hstep]
    rfl

/-! What a body is. -/

/--
A string literal behind its opening quote.
-/
inductive Literal (close : Char) : Span → Prop where
  | close : Literal close [close]
  | char {c : Char} {s : Span} (hclose : c ≠ close) (hescape : c ≠ '\\') (hline : c ≠ '\n')
    (h : Literal close s) : Literal close (c :: s)
  | escape {c : Char} {s : Span} (hline : c ≠ '\n') (h : Literal close s) : Literal close ('\\' :: c :: s)

/--
What the text of a body is made of besides brackets, if the texts of its comments are of this kind.
-/
inductive Lexeme (Remark : Span → Prop) : Span → Span → Prop where
  | char {c : Char} {rest : Span} (hleft : c ≠ '{') (hright : c ≠ '}') (hquote : ¬IsQuote c) (hslash : c ≠ '/')
    : Lexeme Remark [c] rest
  | slash {rest : Span} (hrest : LoneSlash ('/' :: rest)) : Lexeme Remark ['/'] rest
  | string {close : Char} {s rest : Span} (hclose : IsQuote close) (hs : Literal close s)
    : Lexeme Remark (close :: s) rest
  | line {l rest : Span} (hl : '\n' ∉ l) (hremark : Remark l) : Lexeme Remark ('/' :: '/' :: (l ++ ['\n'])) rest
  | block {l rest : Span} (hl : IsComment l) (hremark : Remark l)
    : Lexeme Remark ('/' :: '*' :: (l ++ ['*', '/'])) rest

/--
A body that is lexically well formed: its brackets match besides string literals and comments.
-/
def WellFormedBody (body : Span) : Prop :=
  Balanced '{' '}' (Lexeme fun _ => True) body

/--
A body whose brackets also match, and whose strings also end, if its comments are read like other text.
-/
def ReadsWithoutComments (body : Span) : Prop :=
  Balanced '{' '}' Scanned body

theorem Literal.quoted {close : Char} {s : Span} (h : Literal close s) : Quoted close s := by
  induction h with
  | close => exact .close
  | char hclose hescape _ _ ih => exact .char hclose hescape ih
  | escape _ _ ih => exact .escape ih

theorem balanced_of_chars {a rest : Span} (ha : ∀ c ∈ a, c ≠ '{' ∧ c ≠ '}' ∧ ¬IsQuote c)
    (hrest : Balanced '{' '}' Scanned rest) : Balanced '{' '}' Scanned (a ++ rest) := by
  induction a with
  | nil => exact hrest
  | cons c a ih =>
    rw [List.forall_mem_cons] at ha
    exact Balanced.piece (a := [c]) (.char ha.1.1 ha.1.2.1 ha.1.2.2) (ih ha.2)

theorem balanced_of_plain {Remark : Span → Prop} {a rest : Span}
    (ha : ∀ c ∈ a, c ≠ '{' ∧ c ≠ '}' ∧ ¬IsQuote c ∧ c ≠ '/')
    (hrest : Balanced '{' '}' (Lexeme Remark) rest) : Balanced '{' '}' (Lexeme Remark) (a ++ rest) := by
  induction a with
  | nil => exact hrest
  | cons c a ih =>
    rw [List.forall_mem_cons] at ha
    obtain ⟨⟨hleft, hright, hquote, hslash⟩, ha⟩ := ha
    exact Balanced.piece (a := [c]) (.char hleft hright hquote hslash) (ih ha)

theorem readsWithoutComments_of_plain {body : Span}
    (h : Balanced '{' '}' (Lexeme fun l => ∀ c ∈ l, c ≠ '{' ∧ c ≠ '}' ∧ ¬IsQuote c) body)
    : ReadsWithoutComments body := by
  apply h.imp
  intro a rest ha hrest
  cases ha with
  | char hleft hright hquote _ => exact .piece (.char hleft hright hquote) hrest
  | slash _ => exact .piece (.char (by decide) (by decide) (by simp [IsQuote])) hrest
  | string hclose hs => exact .piece (.string hclose hs.quoted) hrest
  | line _ hremark =>
    apply balanced_of_chars _ hrest
    simp only [List.mem_cons, List.mem_append, List.not_mem_nil, or_false]
    rintro c (rfl | rfl | hc | rfl)
    . simp [IsQuote]
    . simp [IsQuote]
    . exact hremark c hc
    . simp [IsQuote]
  | block _ hremark =>
    apply balanced_of_chars _ hrest
    simp only [List.mem_cons, List.mem_append, List.not_mem_nil, or_false]
    rintro c (rfl | rfl | hc | rfl | rfl)
    . simp [IsQuote]
    . simp [IsQuote]
    . exact hremark c hc
    . simp [IsQuote]
    . simp [IsQuote]

/-! Groups and services. -/

def groupHead : EntryParser Unit := do
  let _ ← checkStrAndShift "optional"
  let _ ← checkStrAndShift "required"
  let _ ← checkStrAndShift "repeated"
  skipSpaces
  keyword "group" .unexpectedToken
  skipSpaces
  let _ ← parseIdentifier
  skipSpaces
  expect '=' .assignmentExpected
  skipSpaces
  let _ ← parseIntegerLiteral
  skipSpaces
  expect '{' .bracketExpected

def serviceHead : EntryParser Unit := do
  keyword "service" .unexpectedToken
  skipSpaces
  let _ ← parseIdentifier
  skipSpaces
  expect '{' .bracketExpected

theorem groupParse_eq : groupParse = (groupHead.andThen fun _ => skipBody).restoring := by
  simp only [groupParse, groupHead, bind_eq, andThen_assoc]

theorem serviceParse_eq : serviceParse = (serviceHead.andThen fun _ => skipBody).restoring := by
  simp only [serviceParse, serviceHead, bind_eq, andThen_assoc]

/--
The entry ends just behind the bracket that closes its body, and leaves what it leaves behind an empty
body.
-/
structure EndsAtBracket (head parse : EntryParser Unit) (b : Buffer) (offset : Nat) (body rest : Span)
    : Prop where
  ends : parse.run b = (.ok (), ⟨offset + body.length + 1, rest⟩)
  empty (b₀ : Buffer) (offset₀ : Nat) (hhead : head.run b₀ = (.ok (), ⟨offset₀, '}' :: rest⟩))
    : parse.run b₀ = (.ok (), ⟨offset₀ + 1, rest⟩)

theorem endsAtBracket_iff {head parse : EntryParser Unit}
    (hparse : parse = (head.andThen fun _ => skipBody).restoring) {b : Buffer} {offset : Nat} {body rest : Span}
    (hhead : head.run b = (.ok (), ⟨offset, body ++ '}' :: rest⟩))
    : EndsAtBracket head parse b offset body rest ↔ ReadsWithoutComments body := by
  have hends {b : Buffer} {offset : Nat} {body : Span}
      (hhead : head.run b = (.ok (), ⟨offset, body ++ '}' :: rest⟩))
      : parse.run b = (.ok (), ⟨offset + body.length + 1, rest⟩) ↔ ReadsWithoutComments body := by
    rw [hparse, restoring_ok, andThen_of_ok hhead]
    exact skipBody_ok
  constructor
  . intro h
    exact (hends hhead).mp h.ends
  . intro h
    refine ⟨(hends hhead).mpr h, ?_⟩
    intro b₀ offset₀ hhead₀
    exact (@hends b₀ offset₀ [] hhead₀).mpr .nil

/--
The body of a group or of a service is skipped to its own bracket unless its comments mislead.
-/
theorem skippedBody_iff {b : Buffer} {offset : Nat} {body rest : Span}
    : (groupHead.run b = (.ok (), ⟨offset, body ++ '}' :: rest⟩)
          → ((WellFormedBody body → EndsAtBracket groupHead groupParse b offset body rest)
            ↔ (WellFormedBody body → ReadsWithoutComments body)))
        ∧ (serviceHead.run b = (.ok (), ⟨offset, body ++ '}' :: rest⟩)
          → ((WellFormedBody body → EndsAtBracket serviceHead serviceParse b offset body rest)
            ↔ (WellFormedBody body → ReadsWithoutComments body))) := by
  constructor
  . intro hhead
    rw [endsAtBracket_iff groupParse_eq hhead]
  . intro hhead
    rw [endsAtBracket_iff serviceParse_eq hhead]

/--
A body with a nested block, a string that holds a bracket and a comment without brackets and quotes.
-/
def busyBody : Span :=
  "rpc M(A)returns(B)\x7boption o=\"\x7d\";\x7d//v 1\n".toList

theorem busyBody_balanced {Remark : Span → Prop} (h : Remark "v 1".toList)
    : Balanced '{' '}' (Lexeme Remark) busyBody := by
  have hstring : Lexeme Remark "\"\x7d\"".toList ";".toList :=
    .string (.inl rfl) (.char (by decide) (by decide) (by decide) .close)
  have hcomment : Lexeme Remark "//v 1\n".toList [] := .line (l := "v 1".toList) (by decide) h
  have hinner : Balanced '{' '}' (Lexeme Remark) "option o=\"\x7d\";".toList :=
    balanced_of_plain (a := "option o=".toList) (List.all_iff_forall_prop.mp (by decide))
      (.piece hstring (balanced_of_plain (a := ";".toList) (List.all_iff_forall_prop.mp (by decide)) .nil))
  exact balanced_of_plain (a := "rpc M(A)returns(B)".toList) (List.all_iff_forall_prop.mp (by decide))
    (.block hinner (.piece hcomment .nil))

theorem busyService_skippedBody_iff
    : serviceHead.run ⟨0, "service S\x7b".toList ++ busyBody ++ "\x7dmessage M\x7b\x7d".toList⟩
          = (.ok (), ⟨10, busyBody ++ '}' :: "message M\x7b\x7d".toList⟩)
        ∧ WellFormedBody busyBody
        ∧ ((WellFormedBody busyBody → EndsAtBracket serviceHead serviceParse
              ⟨0, "service S\x7b".toList ++ busyBody ++ "\x7dmessage M\x7b\x7d".toList⟩ 10 busyBody
              "message M\x7b\x7d".toList)
            ↔ (WellFormedBody busyBody → ReadsWithoutComments busyBody))
        ∧ ReadsWithoutComments busyBody := by
  have hhead : serviceHead.run ⟨0, "service S\x7b".toList ++ busyBody ++ "\x7dmessage M\x7b\x7d".toList⟩
      = (.ok (), ⟨10, busyBody ++ '}' :: "message M\x7b\x7d".toList⟩) := by
    decide +kernel
  refine ⟨hhead, busyBody_balanced trivial, skippedBody_iff.2 hhead, ?_⟩
  exact readsWithoutComments_of_plain (busyBody_balanced (List.all_iff_forall_prop.mp (by decide)))

/--
An apostrophe in a comment is taken for the beginning of a string.
-/
theorem apostrophe_misleads
    : serviceHead.run ⟨0, "service S\x7b//\x27\n\x7d".toList⟩ = (.ok (), ⟨10, "//\x27\n".toList ++ ['}']⟩)
        ∧ WellFormedBody "//\x27\n".toList
        ∧ ¬EndsAtBracket serviceHead serviceParse ⟨0, "service S\x7b//\x27\n\x7d".toList⟩ 10 "//\x27\n".toList [] := by
  refine ⟨by decide +kernel, ?_, ?_⟩
  . have hcomment : Lexeme (fun _ => True) "//\x27\n".toList [] :=
      Lexeme.line (l := ['\x27']) (by decide) trivial
    exact .piece hcomment .nil
  . intro h
    have hstuck : (serviceParse.run ⟨0, "service S\x7b//\x27\n\x7d".toList⟩).2.offset = 0 := by decide +kernel
    rw [h.ends] at hstuck
    simp at hstuck

end Gremlin
