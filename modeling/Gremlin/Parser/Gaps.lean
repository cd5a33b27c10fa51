import Gremlin.Parser.Clamped

/-!
This module contains what may stand between tokens: whitespace and comments.
-/

namespace Gremlin

open Text Parser Buffer

/--
The inside of a block comment: no end of a comment is in it, also with the star behind it.
-/
def IsComment (l : List Char) : Prop :=
  ¬['*', '/'] <:+: l ++ ['*']

/--
Whitespace and complete comments.
-/
inductive Gap : List Char → Prop where
  | nil : Gap []
  | white {c : Char} {s : List Char} (hc : isWhitespace c = true) (h : Gap s) : Gap (c :: s)
  | line {l s : List Char} (hl : '\n' ∉ l) (h : Gap s) : Gap ('/' :: '/' :: (l ++ '\n' :: s))
  | block {l s : List Char} (hl : IsComment l) (h : Gap s) : Gap ('/' :: '*' :: (l ++ '*' :: '/' :: s))

/--
A gap, maybe with a line comment that the text ends in.
-/
def Trailing (s : List Char) : Prop :=
  Gap s ∨ ∃ g l, Gap g ∧ '\n' ∉ l ∧ s = g ++ '/' :: '/' :: l

/--
A gap and a block comment that the text ends in.
-/
def Unterminated (s : List Char) : Prop :=
  ∃ g l, Gap g ∧ ¬['*', '/'] <:+: l ∧ s = g ++ '/' :: '*' :: l

def LoneSlash (s : List Char) : Prop :=
  ∃ rest, s = '/' :: rest ∧ ∀ c ∈ rest.head?, c ≠ '/' ∧ c ≠ '*'

theorem loneSlash_bracket (rest : List Char) : LoneSlash ('/' :: '}' :: rest) := by
  refine ⟨'}' :: rest, rfl, ?_⟩
  intro c hc
  rw [← Option.mem_some_iff.mp hc]
  decide

def IsToken (s : List Char) : Prop :=
  s = [] ∨ LoneSlash s ∨ ∃ c rest, s = c :: rest ∧ isWhitespace c = false ∧ c ≠ '/'

theorem skip_line {l : List Char} (hl : '\n' ∉ l) (s : List Char)
    : skip .line (l ++ '\n' :: s) = skip .code s := by
  induction l with
  | nil => simp [skip]
  | cons c l ih =>
    rw [List.mem_cons, not_or] at hl
    rw [List.cons_append, skip, if_neg (Ne.symm hl.1), ih hl.2]

theorem skip_line_end {l : List Char} (hl : '\n' ∉ l) : skip .line l = (none, []) := by
  induction l with
  | nil => simp [skip]
  | cons c l ih =>
    rw [List.mem_cons, not_or] at hl
    rw [skip, if_neg (Ne.symm hl.1), ih hl.2]

theorem skip_block {l : List Char} (hl : IsComment l) (s : List Char)
    : skip .block (l ++ '*' :: '/' :: s) = skip .code s := by
  induction l with
  | nil => simp [skip]
  | cons c l ih =>
    have hl' : IsComment l := fun h => hl (List.infix_cons h)
    have hnext : ∃ d rest, l ++ '*' :: '/' :: s = d :: rest ∧ ¬(c = '*' ∧ d = '/') := by
      cases l with
      | nil => exact ⟨'*', '/' :: s, rfl, by simp⟩
      | cons d l =>
        refine ⟨d, l ++ '*' :: '/' :: s, rfl, ?_⟩
        rintro ⟨rfl, rfl⟩
        exact hl ⟨[], l ++ ['*'], by simp⟩
    obtain ⟨d, rest, hrest, hopen⟩ := hnext
    rw [List.cons_append, hrest, skip, if_neg hopen, ← hrest, ih hl']

theorem skip_block_end {l : List Char} (hl : ¬['*', '/'] <:+: l) : skip .block l = (some .unexpectedEof, []) := by
  induction l with
  | nil => simp [skip]
  | cons c l ih =>
    have hl' : ¬['*', '/'] <:+: l := fun h => hl (List.infix_cons h)
    cases l with
    | nil => simp [skip]
    | cons d l =>
      have hopen : ¬(c = '*' ∧ d = '/') := by
        rintro ⟨rfl, rfl⟩
        exact hl ⟨[], l, rfl⟩
      rw [skip, if_neg hopen, ih hl']

theorem skip_line_comment (l : List Char) : skip .code ('/' :: '/' :: l) = skip .line l := by
  simp [skip, isWhitespace]

theorem skip_block_comment (l : List Char) : skip .code ('/' :: '*' :: l) = skip .block l := by
  simp [skip, isWhitespace]

theorem skip_gap {g : List Char} (hg : Gap g) (s : List Char) : skip .code (g ++ s) = skip .code s := by
  induction hg with
  | nil => rfl
  | white hc _ ih => rw [List.cons_append, skip_white hc, ih]
  | @line l g hl _ ih =>
    rw [List.cons_append, List.cons_append, List.append_assoc, skip_line_comment, List.cons_append, skip_line hl,
      ih]
  | @block l g hl _ ih =>
    rw [List.cons_append, List.cons_append, List.append_assoc, skip_block_comment, List.cons_append,
      List.cons_append, skip_block hl, ih]

/--
A text either has no end of a comment in it or goes on behind the first one.
-/
theorem comment_cases (s : List Char)
    : ¬['*', '/'] <:+: s ∨ ∃ l rest, s = l ++ '*' :: '/' :: rest ∧ IsComment l := by
  induction s with
  | nil =>
    left
    simp
  | cons c s ih =>
    by_cases hopen : ∃ rest, c = '*' ∧ s = '/' :: rest
    . obtain ⟨rest, rfl, rfl⟩ := hopen
      right
      refine ⟨[], rest, rfl, ?_⟩
      intro h
      have := h.length_le
      simp at this
    . have hstart (t : List Char) : ['*', '/'] <+: c :: t → ∃ rest, c = '*' ∧ t = '/' :: rest := by
        rintro ⟨rest, hrest⟩
        simp only [List.cons_append, List.nil_append, List.cons.injEq] at hrest
        exact ⟨rest, hrest.1.symm, hrest.2.symm⟩
      rcases ih with hnone | ⟨l, rest, rfl, hl⟩
      . left
        rw [List.infix_cons_iff]
        rintro (h | h)
        . exact hopen (hstart s h)
        . exact hnone h
      . right
        refine ⟨c :: l, rest, rfl, ?_⟩
        intro h
        rw [List.cons_append, List.infix_cons_iff] at h
        rcases h with h | h
        . obtain ⟨rest', hc, hrest'⟩ := hstart _ h
          cases l with
          | nil => simp at hrest'
          | cons d l =>
            rw [List.cons_append, List.cons.injEq] at hrest'
            exact hopen ⟨l ++ '*' :: '/' :: rest, hc, by rw [hrest'.1]; rfl⟩
        . exact hl h

theorem exists_gap (s : List Char)
    : ∃ g u, s = g ++ u ∧ Gap g ∧ (IsToken u ∨ (∃ l, u = '/' :: '/' :: l ∧ '\n' ∉ l)
        ∨ ∃ l, u = '/' :: '*' :: l ∧ ¬['*', '/'] <:+: l) := by
  induction hlength : s.length using Nat.strongRecOn generalizing s with
  | ind n ih =>
    have ih' (t : List Char) (hlt : t.length < s.length) := ih t.length (hlength ▸ hlt) t rfl
    cases s with
    | nil => exact ⟨[], [], rfl, .nil, .inl (.inl rfl)⟩
    | cons c rest =>
      by_cases hc : isWhitespace c = true
      . obtain ⟨g, u, rfl, hg, hu⟩ := ih' rest (by simp)
        exact ⟨c :: g, u, rfl, .white hc hg, hu⟩
      . by_cases hslash : c = '/'
        . subst hslash
          cases rest with
          | nil => exact ⟨[], ['/'], rfl, .nil, .inl (.inr (.inl ⟨[], rfl, by simp⟩))⟩
          | cons d rest =>
            by_cases hline : d = '/'
            . subst hline
              by_cases hend : '\n' ∈ rest
              . obtain ⟨l, t, rfl, hl⟩ := List.eq_append_cons_of_mem hend
                obtain ⟨g, u, rfl, hg, hu⟩ := ih' t (by simp; omega)
                refine ⟨'/' :: '/' :: (l ++ '\n' :: g), u, ?_, .line hl hg, hu⟩
                simp
              . exact ⟨[], _, rfl, .nil, .inr (.inl ⟨rest, rfl, hend⟩)⟩
            . by_cases hblock : d = '*'
              . subst hblock
                rcases comment_cases rest with hnone | ⟨l, t, rfl, hl⟩
                . exact ⟨[], _, rfl, .nil, .inr (.inr ⟨rest, rfl, hnone⟩)⟩
                . obtain ⟨g, u, rfl, hg, hu⟩ := ih' t (by simp; omega)
                  refine ⟨'/' :: '*' :: (l ++ '*' :: '/' :: g), u, ?_, .block hl hg, hu⟩
                  simp
              . refine ⟨[], _, rfl, .nil, .inl (.inr (.inl ⟨d :: rest, rfl, ?_⟩))⟩
                intro e he
                rw [← Option.mem_some_iff.mp he]
                exact ⟨hline, hblock⟩
        . exact ⟨[], c :: rest, rfl, .nil, .inl (.inr (.inr ⟨c, rest, rfl, by simpa using hc, hslash⟩))⟩

theorem skip_token {u : List Char} (hu : IsToken u) : (skip .code u).2 = u := by
  rcases hu with rfl | ⟨rest, rfl, hhead⟩ | ⟨c, rest, rfl, hc, hslash⟩
  . rfl
  . cases rest with
    | nil => rfl
    | cons c rest =>
      obtain ⟨hslash, hstar⟩ := hhead c rfl
      rw [skip_slash hslash hstar]
  . rw [skip_other hc hslash]

theorem gap_of_skip {s u : List Char} (h : (skip .code s).2 = u) (hu : u ≠ []) : ∃ g, s = g ++ u ∧ Gap g := by
  obtain ⟨g, v, rfl, hg, hv⟩ := exists_gap s
  rw [skip_gap hg] at h
  rcases hv with htoken | ⟨l, rfl, hl⟩ | ⟨l, rfl, hl⟩
  . rw [skip_token htoken] at h
    exact ⟨g, by rw [h], hg⟩
  . rw [skip_line_comment, skip_line_end hl] at h
    exact absurd h.symm hu
  . rw [skip_block_comment, skip_block_end hl] at h
    exact absurd h.symm hu

/--
A text that is gone over to its end is a gap, unless an unterminated comment is in it.
-/
theorem trailing_or_unterminated {s : List Char} (h : (skip .code s).2 = []) : Trailing s ∨ Unterminated s := by
  obtain ⟨g, v, rfl, hg, hv⟩ := exists_gap s
  rw [skip_gap hg] at h
  rcases hv with htoken | ⟨l, rfl, hl⟩ | ⟨l, rfl, hl⟩
  . rw [skip_token htoken] at h
    rw [h, List.append_nil]
    exact .inl (.inl hg)
  . exact .inl (.inr ⟨g, l, hg, hl, rfl⟩)
  . exact .inr ⟨g, l, hg, hl, rfl⟩

theorem skip_trailing {s : List Char} (h : Trailing s) : skip .code s = (none, []) := by
  rcases h with hg | ⟨g, l, hg, hl, rfl⟩
  . have := skip_gap hg []
    rw [List.append_nil] at this
    rw [this]
    rfl
  . rw [skip_gap hg, skip_line_comment, skip_line_end hl]

theorem skip_unterminated {s : List Char} (h : Unterminated s) : skip .code s = (some .unexpectedEof, []) := by
  obtain ⟨g, l, hg, hl, rfl⟩ := h
  rw [skip_gap hg, skip_block_comment, skip_block_end hl]

end Gremlin
