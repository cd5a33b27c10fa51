import Gremlin.Parser.Lexems

/-!
This module contains what the parsers of identifiers take.
-/

namespace Gremlin

open Text Parser Buffer

structure IsIdentifier (span : Span) : Prop where
  start : ∃ c rest, span = c :: rest ∧ isIdentifierStart c = true
  chars : ∀ c ∈ span, isIdentifierChar c = true

theorem isIdentifier_of_all {span : Span} (hstart : span.head?.any isIdentifierStart = true)
    (hchars : span.all isIdentifierChar = true) : IsIdentifier span where
  start := by
    cases span with
    | nil => simp at hstart
    | cons c rest => exact ⟨c, rest, rfl, by simpa using hstart⟩
  chars := List.all_eq_true.mp hchars

theorem isIdentifierChar_of_start {c : Char} (h : isIdentifierStart c = true)
    : isIdentifierChar c = true := by
  unfold isIdentifierStart at h
  unfold isIdentifierChar
  simp only [Bool.or_eq_true, decide_eq_true_eq] at h ⊢
  rcases h with h | h
  . exact .inr h
  . exact .inl (.inr h)

theorem identifierChars_ok {b b' : Buffer} {a : Unit} (h : identifierChars.run b = (.ok a, b'))
    : ∃ span, IsIdentifier span ∧ Covers b span b' := by
  obtain ⟨_, b₁, hstart, h⟩ := andThen_ok.mp h
  obtain ⟨c, hc, hrest, hoffset⟩ := shiftIf_true.mp (require_ok.mp hstart)
  simp only [shiftWhile, Prod.mk.injEq, true_and] at h
  subst h
  refine ⟨c :: b₁.rest.takeWhile isIdentifierChar, ⟨⟨c, _, rfl, hc⟩, ?_⟩, ?_, ?_⟩
  . intro d hd
    rcases List.mem_cons.mp hd with rfl | hd
    . exact isIdentifierChar_of_start hc
    . exact List.mem_takeWhile_imp hd
  . rw [hrest, List.cons_append, List.takeWhile_append_dropWhile]
  . simp only [hoffset, List.length_cons]
    omega

theorem spanned_ok {p : EntryParser Unit} {b b' : Buffer} {span : Span}
    (h : p.spanned.run b = (.ok span, b'))
    : p.run b = (.ok (), b') ∧ span = b.rest.take (b'.offset - b.offset) := by
  simp only [spanned] at h
  split at h
  . next hp =>
    simp only [Prod.mk.injEq, Except.ok.injEq] at h
    obtain ⟨rfl, rfl⟩ := h
    exact ⟨hp, rfl⟩
  . simp at h

theorem checkAndShift_true {c : Char} {b b' : Buffer}
    (h : (checkAndShift c).run b = (.ok true, b')) : Covers b [c] b' := by
  obtain ⟨c', hc, hrest, hoffset⟩ := shiftIf_true.mp h
  rw [of_decide_eq_true hc] at hrest
  exact ⟨hrest, hoffset⟩

theorem expect_ok {c : Char} {e : ParsingError} {b b' : Buffer} {a : Unit}
    (h : (expect c e).run b = (.ok a, b')) : Covers b [c] b' :=
  checkAndShift_true (require_ok.mp h)

theorem segmentStep_again {b b' : Buffer} {u u' : Unit}
    (h : (segmentStep u).run b = (.ok (.again u'), b'))
    : ∃ span, IsIdentifier span ∧ Covers b ('.' :: span) b' := by
  rcases orElse_ok h with h | ⟨_, _, -, h⟩
  . obtain ⟨_, b₁, hdot, h⟩ := andThen_ok.mp (restoring_ok.mp h)
    obtain ⟨_, b₂, hchars, h⟩ := andThen_ok.mp h
    simp only [pure_eq, succeed_run, Prod.mk.injEq] at h
    obtain ⟨span, hspan, hcovers⟩ := identifierChars_ok hchars
    exact ⟨span, hspan, h.2 ▸ (expect_ok hdot).trans hcovers⟩
  . simp at h

theorem segmentStep_done {b b' : Buffer} {u u' : Unit}
    (h : (segmentStep u).run b = (.ok (.done u'), b')) : b' = b := by
  rcases orElse_ok h with h | ⟨_, b₁, herror, h⟩
  . obtain ⟨_, b₁, hdot, h⟩ := andThen_ok.mp (restoring_ok.mp h)
    obtain ⟨_, b₂, hchars, h⟩ := andThen_ok.mp h
    simp at h
  . simp only [succeed_run, Prod.mk.injEq] at h
    rw [← h.2]
    exact (restoring_error herror).1

theorem intercalate_cons (segment : Span) (segments : List Span)
    : List.intercalate ['.'] (segment :: segments) = segment ++ segments.flatMap ('.' :: ·) := by
  induction segments generalizing segment with
  | nil => simp [List.intercalate]
  | cons segment' segments ih =>
    have : List.intercalate ['.'] (segment :: segment' :: segments)
        = segment ++ '.' :: List.intercalate ['.'] (segment' :: segments) := by
      simp [List.intercalate]
    rw [this, ih, List.flatMap_cons, List.cons_append]

theorem parseFullIdentifier_ok {b b' : Buffer} {span : Span}
    (h : parseFullIdentifier.run b = (.ok span, b'))
    : Covers b span b' ∧ ∃ (absolute : Bool) (segments : List Span), segments ≠ []
        ∧ (∀ segment ∈ segments, IsIdentifier segment)
        ∧ span = (if absolute then ['.'] else []) ++ List.intercalate ['.'] segments := by
  obtain ⟨hparts, rfl⟩ := spanned_ok (restoring_ok.mp h)
  obtain ⟨absolute, b₁, hdot, hparts⟩ := andThen_ok.mp hparts
  obtain ⟨_, b₂, hchars, hloop⟩ := andThen_ok.mp hparts
  obtain ⟨segment, hsegment, hcovers⟩ := identifierChars_ok hchars
  have hrest : ∃ segments : List Span, (∀ segment ∈ segments, IsIdentifier segment)
      ∧ Covers b₂ (segments.flatMap ('.' :: ·)) b' := by
    refine loop_ok (Q := fun b _ b' => ∃ segments : List Span,
      (∀ segment ∈ segments, IsIdentifier segment) ∧ Covers b (segments.flatMap ('.' :: ·)) b')
      ?_ ?_ hloop
    . intro _ b _ b' hdone
      rw [segmentStep_done hdone]
      exact ⟨[], by simp, .refl b⟩
    . rintro _ b _ b' _ b'' hagain ⟨segments, hsegments, hcovers⟩
      obtain ⟨segment, hsegment, hcovers'⟩ := segmentStep_again hagain
      refine ⟨segment :: segments, ?_, ?_⟩
      . rw [List.forall_mem_cons]
        exact ⟨hsegment, hsegments⟩
      . rw [List.flatMap_cons]
        exact hcovers'.trans hcovers
  obtain ⟨segments, hsegments, hcovers'⟩ := hrest
  have hdot' : Covers b (if absolute then ['.'] else []) b₁ := by
    cases absolute with
    | true => exact checkAndShift_true hdot
    | false =>
      rw [shiftIf_false hdot]
      exact .refl b
  have hspan : Covers b ((if absolute then ['.'] else [])
      ++ List.intercalate ['.'] (segment :: segments)) b' := by
    rw [intercalate_cons]
    exact hdot'.trans (hcovers.trans hcovers')
  rw [hspan.take_eq]
  refine ⟨hspan, absolute, segment :: segments, by simp, ?_, rfl⟩
  rw [List.forall_mem_cons]
  exact ⟨hsegment, hsegments⟩

end Gremlin
