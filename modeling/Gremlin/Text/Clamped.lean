import Gremlin.Text.Parser

/-!
This module contains the comparison of a parser on a text and on the beginning of it: on a buffer that
ends early, and on the same one with what comes behind it.
-/

namespace Gremlin.Text

namespace Buffer

/--
The buffer with `t` behind it.
-/
def before (b : Buffer) (t : List Char) : Buffer :=
  ⟨b.offset, b.rest ++ t⟩

variable {t : List Char} {b b' b'' : Buffer}

theorem before_injective (h : b.before t = b'.before t) : b = b' := by
  obtain ⟨offset, rest⟩ := b
  obtain ⟨offset', rest'⟩ := b'
  simpa [before] using h

theorem Advances.of_before (h : Advances (b.before t) (b'.before t)) : Advances b b' := by
  obtain ⟨pre, hrest, hoffset⟩ := h
  refine ⟨pre, ?_, hoffset⟩
  rw [before, before, ← List.append_assoc] at hrest
  exact List.append_cancel_right hrest

theorem Advances.exists_before (h : Advances b (b'.before t)) : ∃ c : Buffer, b = c.before t := by
  obtain ⟨pre, hrest, -⟩ := h
  refine ⟨⟨b.offset, pre ++ b'.rest⟩, ?_⟩
  rw [before, List.append_assoc]
  obtain ⟨offset, rest⟩ := b
  simpa [before] using hrest

theorem Advances.exists_before_of_le (h : Advances (b.before t) b') (hle : b'.offset ≤ b.offset + b.rest.length)
    : ∃ c : Buffer, b' = c.before t := by
  obtain ⟨pre, hrest, hoffset⟩ := h
  simp only [before] at hrest hoffset
  rcases List.append_eq_append_iff.mp hrest with ⟨beyond, hpre, ht⟩ | ⟨left, -, hleft⟩
  . have hlength := congrArg List.length hpre
    rw [List.length_append] at hlength
    have hnil : beyond = [] := List.eq_nil_of_length_eq_zero (by omega)
    refine ⟨⟨b'.offset, []⟩, ?_⟩
    rw [before, List.nil_append, ht, hnil, List.nil_append]
  . exact ⟨⟨b'.offset, left⟩, by rw [before, ← hleft]⟩

/--
`b'` is left of `b` such that the end is not near, or does not have this character.
-/
def Severed (c : Char) (b b' : Buffer) : Prop :=
  b'.rest.length ≤ 1 → b.rest.getLast? ≠ some c

theorem Severed.left {c : Char} (h : Severed c b b'') (hadvances : Advances b' b'') : Severed c b b' := by
  intro hlength
  have := hadvances.length_le
  exact h (by omega)

theorem Severed.right {c : Char} (h : Severed c b b'') (hadvances : Advances b b') : Severed c b' b'' := by
  intro hlength hlast
  apply h hlength
  obtain ⟨pre, hrest, -⟩ := hadvances
  rw [hrest, List.getLast?_append, hlast, Option.some_or]

theorem Severed.rest_ne {c : Char} (h : Severed c b b') (hadvances : Advances b b') : b'.rest ≠ [c] := by
  intro heq
  obtain ⟨pre, hrest, -⟩ := hadvances
  rw [heq] at hrest
  apply h (by simp [heq])
  rw [hrest, List.getLast?_concat]

end Buffer

namespace Parser

open Buffer

variable {ε α β σ : Type}

/--
A parser that does the same on the clamped buffer.
-/
def Exact (t : List Char) (p : Parser ε α) : Prop :=
  ∀ b, p.run (b.before t) = ((p.run b).1, (p.run b).2.before t)

/--
What succeeds on the whole and stops in the clamped buffer succeeds there as well.
-/
def Narrow (t : List Char) (c : Char) (p : Parser ε α) : Prop :=
  ∀ b a b', Severed c b b' → p.run (b.before t) = (.ok a, b'.before t) → p.run b = (.ok a, b')

/--
What succeeds on the clamped buffer and leaves something of it succeeds on the whole as well.
-/
def Wide (t : List Char) (p : Parser ε α) : Prop :=
  ∀ b a b', b'.rest ≠ [] → p.run b = (.ok a, b') → p.run (b.before t) = (.ok a, b'.before t)

/--
What succeeds on the clamped buffer succeeds on the whole as well.
-/
def Firm (t : List Char) (p : Parser ε α) : Prop :=
  ∀ b a b', p.run b = (.ok a, b') → p.run (b.before t) = (.ok a, b'.before t)

section Rules

variable {t : List Char} {c : Char} {p q : Parser ε α} {f : α → Parser ε β}

theorem Exact.firm (hp : Exact t p) : Firm t p := by
  intro b a b' h
  rw [hp, h]

theorem Firm.wide (hp : Firm t p) : Wide t p :=
  fun b a b' _ h => hp b a b' h

theorem Exact.wide (hp : Exact t p) : Wide t p :=
  hp.firm.wide

theorem Exact.of_before (hp : Exact t p) {b b' : Buffer} {r : Except ε α}
    (h : p.run (b.before t) = (r, b'.before t)) : p.run b = (r, b') := by
  rw [hp, Prod.mk.injEq] at h
  exact Prod.ext h.1 (before_injective h.2)

theorem Exact.narrow (hp : Exact t p) : Narrow t c p :=
  fun _ _ _ _ h => hp.of_before h

theorem exact_succeed (a : α) : Exact t (succeed a : Parser ε α) :=
  fun _ => rfl

theorem exact_fail (e : ε) : Exact t (fail e : Parser ε α) :=
  fun _ => rfl

theorem exact_position : Exact t (position : Parser ε Nat) :=
  fun _ => rfl

/-! One parser after another. -/

theorem Exact.andThen (hp : Exact t p) (hf : ∀ a, Exact t (f a)) : Exact t (p.andThen f) := by
  intro b
  rcases hrun : p.run b with ⟨e | a, b'⟩
  . have hfull := hp b
    rw [hrun] at hfull
    rw [andThen_of_error hrun, andThen_of_error hfull]
  . have hfull := hp b
    rw [hrun] at hfull
    rw [andThen_of_ok hrun, andThen_of_ok hfull, hf]

theorem Narrow.andThen (hp : Narrow t c p) (hf : ∀ a, Narrow t c (f a)) : Narrow t c (p.andThen f) := by
  intro b y b' hapart h
  obtain ⟨x, d, hpb, hfb⟩ := andThen_ok.mp h
  obtain ⟨b₁, rfl⟩ := (advances hfb).exists_before
  have hforward := (advances hpb).of_before
  have hforward' := (advances hfb).of_before
  apply andThen_ok.mpr
  exact ⟨x, b₁, hp b x b₁ (hapart.left hforward') hpb, hf x b₁ y b' (hapart.right hforward) hfb⟩

theorem Wide.andThen (hp : Wide t p) (hf : ∀ a, Wide t (f a)) : Wide t (p.andThen f) := by
  intro b y b' hrest h
  obtain ⟨x, b₁, hpb, hfb⟩ := andThen_ok.mp h
  have hrest' : b₁.rest ≠ [] := by
    intro hnil
    have := (advances hfb).length_le
    rw [hnil, List.length_nil] at this
    exact hrest (List.eq_nil_of_length_eq_zero (by omega))
  exact andThen_ok.mpr ⟨x, _, hp b x b₁ hrest' hpb, hf x b₁ y b' hrest hfb⟩

theorem Firm.andThen (hp : Firm t p) (hf : ∀ a, Firm t (f a)) : Firm t (p.andThen f) := by
  intro b y b' h
  obtain ⟨x, b₁, hpb, hfb⟩ := andThen_ok.mp h
  exact andThen_ok.mpr ⟨x, _, hp b x b₁ hpb, hf x b₁ y b' hfb⟩

theorem Wide.andThen_firm (hp : Wide t p) (hf : ∀ a, Firm t (f a)) (heager : ∀ a, Eager (f a))
    : Firm t (p.andThen f) := by
  intro b y b' h
  obtain ⟨x, b₁, hpb, hfb⟩ := andThen_ok.mp h
  have hrest : b₁.rest ≠ [] := by
    intro hnil
    have := heager _ _ _ _ hfb
    rw [hnil, List.length_nil] at this
    omega
  exact andThen_ok.mpr ⟨x, _, hp b x b₁ hrest hpb, hf x b₁ y b' hfb⟩

theorem Narrow.map {g : α → β} (hp : Narrow t c p) : Narrow t c (g <$> p) :=
  hp.andThen fun a => (exact_succeed (g a)).narrow

theorem Firm.map {g : α → β} (hp : Firm t p) : Firm t (g <$> p) :=
  hp.andThen fun a => (exact_succeed (g a)).firm

theorem Exact.map {g : α → β} (hp : Exact t p) : Exact t (g <$> p) :=
  hp.andThen fun a => exact_succeed (g a)

theorem exact_ite {d : Prop} [Decidable d] (hp : Exact t p) (hq : Exact t q) : Exact t (if d then p else q) := by
  split
  . exact hp
  . exact hq

theorem narrow_ite {d : Prop} [Decidable d] (hp : Narrow t c p) (hq : Narrow t c q)
    : Narrow t c (if d then p else q) := by
  split
  . exact hp
  . exact hq

theorem wide_ite {d : Prop} [Decidable d] (hp : Wide t p) (hq : Wide t q) : Wide t (if d then p else q) := by
  split
  . exact hp
  . exact hq

theorem firm_ite {d : Prop} [Decidable d] (hp : Firm t p) (hq : Firm t q) : Firm t (if d then p else q) := by
  split
  . exact hp
  . exact hq

/-! Alternatives. -/

theorem Exact.restoring (hp : Exact t p) : Exact t p.restoring := by
  intro b
  simp only [Parser.restoring, hp b]
  rcases p.run b with ⟨e | a, b'⟩ <;> rfl

theorem Narrow.restoring (hp : Narrow t c p) : Narrow t c p.restoring := by
  intro b a b' hapart h
  exact restoring_ok.mpr (hp b a b' hapart (restoring_ok.mp h))

theorem Wide.restoring (hp : Wide t p) : Wide t p.restoring := by
  intro b a b' hrest h
  exact restoring_ok.mpr (hp b a b' hrest (restoring_ok.mp h))

theorem Firm.restoring (hp : Firm t p) : Firm t p.restoring := by
  intro b a b' h
  exact restoring_ok.mpr (hp b a b' (restoring_ok.mp h))

theorem Exact.orElse (hp : Exact t p) (hq : Exact t q) : Exact t (p.orElse q) := by
  intro b
  rcases hrun : p.run b with ⟨e | a, b'⟩
  . have hfull := hp b
    rw [hrun] at hfull
    rw [orElse_of_error hrun, orElse_of_error hfull, hq]
  . have hfull := hp b
    rw [hrun] at hfull
    rw [orElse_of_ok hrun, orElse_of_ok hfull]

theorem Exact.orElse_narrow (hp : Exact t p) (hq : Narrow t c q) : Narrow t c (p.orElse q) := by
  intro b a b' hapart h
  have hfull := hp b
  rcases hrun : p.run b with ⟨e | x, b₁⟩
  . rw [hrun] at hfull
    rw [orElse_of_error hfull] at h
    rw [orElse_of_error hrun]
    exact hq b₁ a b' (hapart.right (advances hrun)) h
  . rw [hrun] at hfull
    rw [orElse_of_ok hfull] at h
    rw [orElse_of_ok hrun]
    exact Exact.narrow (exact_succeed x) b₁ a b' (hapart.right (advances hrun)) h

theorem Exact.orElse_firm (hp : Exact t p) (hq : Firm t q) : Firm t (p.orElse q) := by
  intro b a b' h
  have hfull := hp b
  rcases hrun : p.run b with ⟨e | x, b₁⟩
  . rw [hrun] at hfull
    rw [orElse_of_error hrun] at h
    rw [orElse_of_error hfull]
    exact hq b₁ a b' h
  . rw [hrun] at hfull
    rw [orElse_of_ok hrun] at h
    rw [orElse_of_ok hfull]
    exact (exact_succeed x).firm b₁ a b' h

theorem Narrow.orElse_fail {e : ε} (hp : Narrow t c p) : Narrow t c (p.orElse (fail e)) := by
  intro b a b' hapart h
  rcases orElse_ok h with hpb | ⟨_, _, -, hfail⟩
  . exact orElse_of_ok (hp b a b' hapart hpb)
  . simp at hfail

theorem Firm.orElse_fail {e : ε} (hp : Firm t p) : Firm t (p.orElse (fail e)) := by
  intro b a b' h
  rcases orElse_ok h with hpb | ⟨_, _, -, hfail⟩
  . exact orElse_of_ok (hp b a b' hpb)
  . simp at hfail

/--
A parser that leaves the buffer as it is where it fails.
-/
def Restores (p : Parser ε α) : Prop :=
  ∀ b e b', p.run b = (.error e, b') → b' = b

theorem restores_restoring (p : Parser ε α) : Restores p.restoring :=
  fun _ _ _ h => (restoring_error h).1

theorem Restores.map {g : α → β} (hp : Restores p) : Restores (g <$> p) := by
  intro b e b' h
  rw [map_eq] at h
  rcases hrun : p.run b with ⟨e' | a, b₁⟩
  . rw [andThen_of_error hrun, Prod.mk.injEq] at h
    rw [← h.2]
    exact hp b e' b₁ hrun
  . rw [andThen_of_ok hrun] at h
    simp at h

variable (t) in
/--
Where `p` succeeds on the clamped buffer, it also does on the whole, or `q` does not.
-/
def Excludes (p : Parser ε α) (q : Parser ε β) : Prop :=
  ∀ b a b', p.run b = (.ok a, b')
    → (∃ a c, p.run (b.before t) = (.ok a, c)) ∨ ∀ y c, q.run (b.before t) ≠ (.ok y, c)

theorem Firm.excludes (hp : Firm t p) (q : Parser ε β) : Excludes t p q := by
  intro b a b' h
  exact .inl ⟨a, _, hp b a b' h⟩

theorem Excludes.map {q : Parser ε β} (h : Excludes t p q) {g : α → σ} {g' : β → σ}
    : Excludes t (g <$> p) (g' <$> q) := by
  intro b y b' hrun
  obtain ⟨a, b₁, hpb, -⟩ := andThen_ok.mp hrun
  rcases h b a b₁ hpb with ⟨a, c, hfull⟩ | hnone
  . left
    exact ⟨g a, c, andThen_ok.mpr ⟨a, c, hfull, rfl⟩⟩
  . right
    intro y c hq
    obtain ⟨y', c', hq', -⟩ := andThen_ok.mp hq
    exact hnone y' c' hq'

theorem Excludes.orElse {q q' : Parser ε β} (hq : Excludes t p q) (hq' : Excludes t p q') (hrestores : Restores q)
    : Excludes t p (q.orElse q') := by
  intro b a b' h
  rcases hq b a b' h with hfull | hnone
  . exact .inl hfull
  . rcases hq' b a b' h with hfull | hnone'
    . exact .inl hfull
    . right
      intro y c hrun
      rcases orElse_ok hrun with hrun | ⟨e, d, herror, hrun⟩
      . exact hnone y c hrun
      . rw [hrestores _ _ _ herror] at hrun
        exact hnone' y c hrun

theorem Narrow.orElse (hp : Narrow t c p) (hq : Narrow t c q) (hrestores : Restores p)
    (hexcludes : Excludes t p q) : Narrow t c (p.orElse q) := by
  intro b a b' hapart h
  rcases orElse_ok h with hpb | ⟨e, d, herror, hqb⟩
  . exact orElse_of_ok (hp b a b' hapart hpb)
  . rw [hrestores _ _ _ herror] at hqb
    rcases hrun : p.run b with ⟨e' | x, b₁⟩
    . rw [orElse_of_error hrun, hrestores _ _ _ hrun]
      exact hq b a b' hapart hqb
    . rcases hexcludes b x b₁ hrun with ⟨y, d', hfull⟩ | hnone
      . rw [hfull] at herror
        simp at herror
      . exact absurd hqb (hnone a _)

/-! What is made of the text. -/

theorem Exact.spanned {p : Parser ε Unit} (hp : Exact t p) : Exact t p.spanned := by
  intro b
  have hfull := hp b
  simp only [Parser.spanned, hfull]
  rcases hrun : p.run b with ⟨e | a, b'⟩
  . rfl
  . obtain ⟨pre, hrest, hoffset⟩ := advances hrun
    simp only [before, hoffset, Nat.add_sub_cancel_left, hrest]
    simp

theorem Narrow.spanned {p : Parser ε Unit} (hp : Narrow t c p) : Narrow t c p.spanned := by
  intro b a b' hapart h
  simp only [Parser.spanned] at h ⊢
  split at h
  . next u d hrun =>
    simp only [Prod.mk.injEq, Except.ok.injEq] at h
    obtain ⟨rfl, rfl⟩ := h
    have hclamped := hp b u b' hapart hrun
    obtain ⟨pre, hrest, hoffset⟩ := advances hclamped
    simp only [hclamped, before, hoffset, Nat.add_sub_cancel_left, hrest]
    simp
  . simp at h

theorem Firm.spanned {p : Parser ε Unit} (hp : Firm t p) : Firm t p.spanned := by
  intro b a b' h
  simp only [Parser.spanned] at h ⊢
  split at h
  . next u d hrun =>
    simp only [Prod.mk.injEq, Except.ok.injEq] at h
    obtain ⟨rfl, rfl⟩ := h
    have hfull := hp b u d hrun
    obtain ⟨pre, hrest, hoffset⟩ := advances hrun
    rw [hfull]
    simp only [before, hoffset, Nat.add_sub_cancel_left, hrest]
    simp
  . simp at h

theorem Exact.valued (hp : Exact t p) {value : α → List Char → Except ε β}
    (hvalue : ∀ a s, value a (s ++ t) = value a s) : Exact t (p.valued value) := by
  intro b
  have hfull := hp b
  simp only [Parser.valued, hfull]
  rcases hrun : p.run b with ⟨e | a, b'⟩
  . rfl
  . simp only [before, hvalue]

end Rules

/-! Single characters, where another one comes behind the clamped buffer. -/

section Characters

variable {stop c : Char} {after : List Char} {test : Char → Bool}

theorem exact_looking (htest : test stop = false) : Exact (stop :: after) (looking test : Parser ε Bool) := by
  rintro ⟨offset, rest⟩
  cases rest with
  | nil => simp [looking, before, htest]
  | cons d rest => simp [looking, before]

theorem exact_shiftIf (htest : test stop = false) : Exact (stop :: after) (shiftIf test : Parser ε Bool) := by
  rintro ⟨offset, rest⟩
  cases rest with
  | nil => simp [shiftIf, before, htest]
  | cons d rest =>
    simp only [shiftIf, before, List.cons_append]
    split <;> rfl

theorem takeWhile_append_stop (htest : test stop = false) (rest : List Char)
    : (rest ++ stop :: after).takeWhile test = rest.takeWhile test := by
  induction rest with
  | nil => simp [htest]
  | cons d rest ih =>
    rw [List.cons_append, List.takeWhile_cons, List.takeWhile_cons, ih]

theorem dropWhile_append_stop (htest : test stop = false) (rest : List Char)
    : (rest ++ stop :: after).dropWhile test = rest.dropWhile test ++ stop :: after := by
  induction rest with
  | nil => simp [htest]
  | cons d rest ih =>
    rw [List.cons_append, List.dropWhile_cons, List.dropWhile_cons, ih]
    split <;> rfl

theorem exact_shiftWhile (htest : test stop = false)
    : Exact (stop :: after) (shiftWhile test : Parser ε Unit) := by
  rintro ⟨offset, rest⟩
  simp only [shiftWhile, before, takeWhile_append_stop htest, dropWhile_append_stop htest]

theorem isPrefixOf_append_stop {word : List Char} (hword : stop ∉ word) (rest : List Char)
    : word.isPrefixOf (rest ++ stop :: after) = word.isPrefixOf rest := by
  induction word generalizing rest with
  | nil => simp
  | cons d word ih =>
    rw [List.mem_cons, not_or] at hword
    cases rest with
    | nil => simp [List.isPrefixOf, Ne.symm hword.1]
    | cons e rest => rw [List.cons_append, List.isPrefixOf, List.isPrefixOf, ih hword.2]

theorem exact_literal {word : List Char} (hword : stop ∉ word)
    : Exact (stop :: after) (literal word : Parser ε Bool) := by
  rintro ⟨offset, rest⟩
  simp only [literal, before, isPrefixOf_append_stop hword]
  split
  . next h =>
    obtain ⟨rest', rfl⟩ := List.isPrefixOf_iff_prefix.mp h
    simp
  . rfl

theorem Exact.require {test : Parser ε Bool} {e : ε} {t : List Char} (htest : Exact t test)
    : Exact t (test.require e) :=
  htest.andThen fun _ => exact_ite (exact_succeed ()) (exact_fail e)

theorem narrow_next : Narrow (stop :: after) c (next : Parser ε (Option Char)) := by
  rintro ⟨offset, rest⟩ a ⟨offset', rest'⟩ - h
  cases rest with
  | nil =>
    simp only [next, before, List.nil_append, Prod.mk.injEq, Buffer.mk.injEq] at h
    have := congrArg List.length h.2.2
    simp at this
    omega
  | cons d rest =>
    simp only [next, before, List.cons_append, Prod.mk.injEq, Buffer.mk.injEq] at h ⊢
    exact ⟨h.1, h.2.1, List.append_cancel_right h.2.2⟩

theorem wide_next : Wide (stop :: after) (next : Parser ε (Option Char)) := by
  rintro ⟨offset, rest⟩ a b' hne h
  cases rest with
  | nil =>
    simp only [next, Prod.mk.injEq] at h
    rw [← h.2] at hne
    exact absurd rfl hne
  | cons d rest =>
    simp only [next, Prod.mk.injEq, Except.ok.injEq] at h
    obtain ⟨rfl, rfl⟩ := h
    rfl

theorem firm_next {f : Option Char → Parser ε α} (hnone : ∀ b a b', (f none).run b ≠ (.ok a, b'))
    (hsome : ∀ d, Firm (stop :: after) (f (some d))) : Firm (stop :: after) (next.andThen f) := by
  rintro ⟨offset, rest⟩ a b' h
  obtain ⟨x, b₁, hnext, hf⟩ := andThen_ok.mp h
  cases rest with
  | nil =>
    simp only [next, Prod.mk.injEq, Except.ok.injEq] at hnext
    rw [← hnext.1] at hf
    exact absurd hf (hnone _ _ _)
  | cons d rest =>
    simp only [next, Prod.mk.injEq, Except.ok.injEq] at hnext
    obtain ⟨rfl, rfl⟩ := hnext
    exact andThen_ok.mpr ⟨some d, _, rfl, hsome d _ a b' hf⟩

end Characters

/-! Loops. -/

/--
A step that goes ahead where it is to be taken again.
-/
def Goes (p : Parser ε (Step σ α)) : Prop :=
  ∀ b s b', p.run b = (.ok (.again s), b') → b'.rest.length < b.rest.length

section Goes

variable {p : Parser ε (Step σ α)}

theorem Eager.goes (hp : Eager p) : Goes p :=
  fun b _ b' h => hp b _ b' h

theorem goes_done (a : α) : Goes (succeed (.done a) : Parser ε (Step σ α)) := by
  intro b s b' h
  simp at h

theorem goes_fail (e : ε) : Goes (fail e : Parser ε (Step σ α)) :=
  (eager_fail e).goes

theorem goes_andThen (q : Parser ε β) {f : β → Parser ε (Step σ α)} (hf : ∀ y, Goes (f y))
    : Goes (q.andThen f) := by
  intro b s b' h
  obtain ⟨y, b₁, hq, hrest⟩ := andThen_ok.mp h
  have := (advances hq).length_le
  have := hf y _ _ _ hrest
  omega

theorem goes_test {test : Parser ε Bool} {q : Parser ε (Step σ α)}
    (htest : ∀ b b', test.run b = (.ok true, b') → b'.rest.length < b.rest.length) (hp : Goes p)
    : Goes (test.andThen fun found => if found = true then q else p) := by
  intro b s b' h
  obtain ⟨found, b₁, hfound, hrest⟩ := andThen_ok.mp h
  cases found with
  | true =>
    have := htest b b₁ hfound
    have := (advances hrest).length_le
    omega
  | false =>
    have := (advances hfound).length_le
    have := hp _ _ _ hrest
    omega

theorem shiftIf_length {test : Char → Bool} (b b' : Buffer)
    (h : (shiftIf test : Parser ε Bool).run b = (.ok true, b')) : b'.rest.length < b.rest.length := by
  obtain ⟨c, -, hrest, -⟩ := shiftIf_true.mp h
  rw [hrest]
  simp

theorem goes_next {f : Option Char → Parser ε (Step σ α)} (hnone : Goes (f none))
    : Goes (next.andThen f) := by
  intro b s b' h
  obtain ⟨offset, rest⟩ := b
  obtain ⟨x, b₁, hnext, hrest⟩ := andThen_ok.mp h
  cases rest with
  | nil =>
    simp only [next, Prod.mk.injEq, Except.ok.injEq] at hnext
    obtain ⟨rfl, rfl⟩ := hnext
    exact hnone _ _ _ hrest
  | cons c rest =>
    simp only [next, Prod.mk.injEq, Except.ok.injEq] at hnext
    obtain ⟨rfl, rfl⟩ := hnext
    have := (advances hrest).length_le
    simp only [List.length_cons] at this ⊢
    omega

end Goes

section Loop

variable [Inhabited ε] {t : List Char} {c : Char} {step : σ → Parser ε (Step σ α)}

theorem loop_ok_iff (hstep : Progress step) {s : σ} {b b' : Buffer} {a : α}
    : (loop step s).run b = (.ok a, b')
        ↔ (step s).run b = (.ok (.done a), b')
          ∨ ∃ s' b₁, (step s).run b = (.ok (.again s'), b₁) ∧ (loop step s').run b₁ = (.ok a, b') := by
  rw [loop_run hstep, andThen_ok]
  constructor
  . rintro ⟨next, b₁, hs, hrest⟩
    cases next with
    | done a' =>
      simp only [succeed_run, Prod.mk.injEq, Except.ok.injEq] at hrest
      obtain ⟨rfl, rfl⟩ := hrest
      exact .inl hs
    | again s' => exact .inr ⟨s', b₁, hs, hrest⟩
  . rintro (hs | ⟨s', b₁, hs, hrest⟩)
    . exact ⟨_, _, hs, rfl⟩
    . exact ⟨_, _, hs, hrest⟩

theorem Narrow.loop (hprogress : Progress step) (hstep : ∀ s, Narrow t c (step s)) (s : σ)
    : Narrow t c (loop step s) := by
  intro b a b' hapart h
  induction hlength : b.rest.length using Nat.strongRecOn generalizing s b with
  | ind n ih =>
    rw [loop_ok_iff hprogress] at h ⊢
    rcases h with h | ⟨s', d, hs, hrest⟩
    . exact .inl (hstep s b _ b' hapart h)
    . obtain ⟨b₁, rfl⟩ := (advances hrest).exists_before
      have hforward := (advances hrest).of_before
      have hclamped := hstep s b _ b₁ (hapart.left hforward) hs
      have hlt := hprogress _ _ _ _ hclamped
      right
      exact ⟨s', b₁, hclamped, ih _ (by omega) s' b₁ (hapart.right (advances hclamped)) hrest rfl⟩

theorem Wide.loop (hprogress : Progress step) (hstep : ∀ s, Wide t (step s)) (s : σ)
    : Wide t (loop step s) := by
  intro b a b' hne h
  induction hlength : b.rest.length using Nat.strongRecOn generalizing s b with
  | ind n ih =>
    rw [loop_ok_iff hprogress] at h ⊢
    rcases h with h | ⟨s', b₁, hs, hrest⟩
    . exact .inl (hstep s b _ b' hne h)
    . have hlt := hprogress _ _ _ _ hs
      have hne' : b₁.rest ≠ [] := by
        intro hnil
        have := (advances hrest).length_le
        rw [hnil, List.length_nil] at this
        exact hne (List.eq_nil_of_length_eq_zero (by omega))
      right
      exact ⟨s', _, hstep s b _ b₁ hne' hs, ih _ (by omega) s' b₁ hrest rfl⟩

theorem Firm.loop (hprogress : Progress step) (hstep : ∀ s, Firm t (step s)) (s : σ)
    : Firm t (loop step s) := by
  intro b a b' h
  induction hlength : b.rest.length using Nat.strongRecOn generalizing s b with
  | ind n ih =>
    rw [loop_ok_iff hprogress] at h ⊢
    rcases h with h | ⟨s', b₁, hs, hrest⟩
    . exact .inl (hstep s b _ b' h)
    . have hlt := hprogress _ _ _ _ hs
      right
      exact ⟨s', _, hstep s b _ b₁ hs, ih _ (by omega) s' b₁ hrest rfl⟩

/--
Steps that each go ahead show that something was left before each but the first.
-/
theorem firm_loop (hprogress : Progress step) (hstep : ∀ s, Wide t (step s))
    (hdone : ∀ s b a b', (step s).run b = (.ok (.done a), b')
      → (step s).run (b.before t) = (.ok (.done a), b'.before t))
    (heager : ∀ s, Eager (step s)) (s : σ) : Firm t (loop step s) := by
  intro b a b' h
  induction hlength : b.rest.length using Nat.strongRecOn generalizing s b with
  | ind n ih =>
    rw [loop_ok_iff hprogress] at h ⊢
    rcases h with h | ⟨s', b₁, hs, hrest⟩
    . exact .inl (hdone s b a b' h)
    . have hlt := hprogress _ _ _ _ hs
      have hne : b₁.rest ≠ [] := by
        intro hnil
        have hpos : b'.rest.length < b₁.rest.length := by
          rcases (loop_ok_iff hprogress).mp hrest with hs' | ⟨_, b₂, hs', hrest'⟩
          . exact heager _ _ _ _ hs'
          . have := heager _ _ _ _ hs'
            have := (advances hrest').length_le
            omega
        rw [hnil, List.length_nil] at hpos
        omega
      right
      exact ⟨s', _, hstep s b _ b₁ hne hs, ih _ (by omega) s' b₁ hrest rfl⟩

theorem Exact.loop (hprogress : Progress step) (hstep : ∀ s, Exact t (step s)) (s : σ)
    : Exact t (loop step s) := by
  intro b
  induction hlength : b.rest.length using Nat.strongRecOn generalizing s b with
  | ind n ih =>
    have hfull := hstep s b
    rw [loop_run hprogress, loop_run hprogress]
    rcases hrun : (step s).run b with ⟨e | s' | a, b₁⟩
    . rw [hrun] at hfull
      rw [andThen_of_error hrun, andThen_of_error hfull]
    . rw [hrun] at hfull
      rw [andThen_of_ok hrun, andThen_of_ok hfull]
      have hlt := hprogress _ _ _ _ hrun
      exact ih _ (by omega) s' b₁ rfl
    . rw [hrun] at hfull
      rw [andThen_of_ok hrun, andThen_of_ok hfull]
      rfl

end Loop

/-! Both directions. -/

/--
A parser whose success is the same on the clamped buffer and on the whole.
-/
structure Solid (t : List Char) (c : Char) (p : Parser ε α) : Prop where
  narrow : Narrow t c p
  firm : Firm t p

/--
The same where something of the clamped buffer is left.
-/
structure Soft (t : List Char) (c : Char) (p : Parser ε α) : Prop where
  narrow : Narrow t c p
  wide : Wide t p

section Solid

variable {t : List Char} {c : Char} {p q : Parser ε α} {f : α → Parser ε β}

theorem Exact.solid (hp : Exact t p) : Solid t c p :=
  ⟨hp.narrow, hp.firm⟩

theorem Solid.soft (hp : Solid t c p) : Soft t c p :=
  ⟨hp.narrow, hp.firm.wide⟩

theorem Exact.soft (hp : Exact t p) : Soft t c p :=
  hp.solid.soft

theorem Solid.andThen (hp : Solid t c p) (hf : ∀ a, Solid t c (f a)) : Solid t c (p.andThen f) where
  narrow := hp.narrow.andThen fun a => (hf a).narrow
  firm := hp.firm.andThen fun a => (hf a).firm

theorem Soft.andThen (hp : Soft t c p) (hf : ∀ a, Soft t c (f a)) : Soft t c (p.andThen f) where
  narrow := hp.narrow.andThen fun a => (hf a).narrow
  wide := hp.wide.andThen fun a => (hf a).wide

theorem Soft.andThen_solid (hp : Soft t c p) (hf : ∀ a, Solid t c (f a)) (heager : ∀ a, Eager (f a))
    : Solid t c (p.andThen f) where
  narrow := hp.narrow.andThen fun a => (hf a).narrow
  firm := hp.wide.andThen_firm (fun a => (hf a).firm) heager

theorem Solid.map {g : α → β} (hp : Solid t c p) : Solid t c (g <$> p) :=
  ⟨hp.narrow.map, hp.firm.map⟩

theorem Solid.restoring (hp : Solid t c p) : Solid t c p.restoring :=
  ⟨hp.narrow.restoring, hp.firm.restoring⟩

theorem Soft.restoring (hp : Soft t c p) : Soft t c p.restoring :=
  ⟨hp.narrow.restoring, hp.wide.restoring⟩

theorem solid_ite {d : Prop} [Decidable d] (hp : Solid t c p) (hq : Solid t c q)
    : Solid t c (if d then p else q) :=
  ⟨narrow_ite hp.narrow hq.narrow, firm_ite hp.firm hq.firm⟩

theorem soft_ite {d : Prop} [Decidable d] (hp : Soft t c p) (hq : Soft t c q)
    : Soft t c (if d then p else q) :=
  ⟨narrow_ite hp.narrow hq.narrow, wide_ite hp.wide hq.wide⟩

theorem Solid.orElse_fail {e : ε} (hp : Solid t c p) : Solid t c (p.orElse (fail e)) :=
  ⟨hp.narrow.orElse_fail, hp.firm.orElse_fail⟩

theorem Exact.orElse_solid (hp : Exact t p) (hq : Solid t c q) : Solid t c (p.orElse q) :=
  ⟨hp.orElse_narrow hq.narrow, hp.orElse_firm hq.firm⟩

theorem Solid.spanned {p : Parser ε Unit} (hp : Solid t c p) : Solid t c p.spanned :=
  ⟨hp.narrow.spanned, hp.firm.spanned⟩

theorem Solid.loop [Inhabited ε] {step : σ → Parser ε (Step σ α)} (hprogress : Progress step)
    (hstep : ∀ s, Solid t c (step s)) (s : σ) : Solid t c (loop step s) :=
  ⟨Narrow.loop hprogress (fun s => (hstep s).narrow) s, Firm.loop hprogress (fun s => (hstep s).firm) s⟩

theorem Soft.loop [Inhabited ε] {step : σ → Parser ε (Step σ α)} (hprogress : Progress step)
    (hstep : ∀ s, Soft t c (step s)) (s : σ) : Soft t c (loop step s) :=
  ⟨Narrow.loop hprogress (fun s => (hstep s).narrow) s, Wide.loop hprogress (fun s => (hstep s).wide) s⟩

end Solid

theorem solid_next {stop c : Char} {after : List Char} {f : Option Char → Parser ε α}
    (hnone : ∀ b a b', (f none).run b ≠ (.ok a, b')) (hsome : ∀ d, Solid (stop :: after) c (f (some d)))
    : Solid (stop :: after) c (next.andThen f) where
  narrow := by
    apply narrow_next.andThen
    intro x
    cases x with
    | none => exact fun b a b' _ h => absurd h (hnone _ _ _)
    | some d => exact (hsome d).narrow
  firm := firm_next hnone fun d => (hsome d).firm

/--
A parser of which moreover something is gone over where it succeeds.
-/
structure Sure (t : List Char) (c : Char) (p : Parser ε α) : Prop extends Solid t c p where
  eager : Eager p

section Sure

variable {t : List Char} {c : Char} {p : Parser ε α} {f : α → Parser ε β}

theorem Sure.solid (hp : Sure t c p) : Solid t c p :=
  hp.toSolid

theorem Soft.andThen_sure (hp : Soft t c p) (hf : ∀ a, Sure t c (f a)) : Sure t c (p.andThen f) where
  toSolid := hp.andThen_solid (fun a => (hf a).solid) fun a => (hf a).eager
  eager := eager_andThen p fun a => (hf a).eager

theorem Sure.andThen (hp : Sure t c p) (hf : ∀ a, Solid t c (f a)) : Sure t c (p.andThen f) where
  toSolid := hp.solid.andThen hf
  eager := hp.eager.andThen f

theorem Sure.restoring (hp : Sure t c p) : Sure t c p.restoring :=
  ⟨hp.solid.restoring, hp.eager.restoring⟩

theorem Exact.sure (hp : Exact t p) (heager : Eager p) : Sure t c p :=
  ⟨hp.solid, heager⟩

end Sure

/-! The last character. -/

/--
A parser that goes over something and over another character than this one last.
-/
def Ends (c : Char) (p : Parser ε α) : Prop :=
  ∀ b a b', p.run b = (.ok a, b') → ∃ pre d, b.rest = pre ++ d :: b'.rest ∧ d ≠ c

section Ends

variable {c : Char} {p q : Parser ε α}

theorem ends_andThen (p : Parser ε α) {f : α → Parser ε β} (hf : ∀ a, Ends c (f a)) : Ends c (p.andThen f) := by
  intro b y b' h
  obtain ⟨x, b₁, hp, hrest⟩ := andThen_ok.mp h
  obtain ⟨pre, d, heq, hd⟩ := hf x _ _ _ hrest
  obtain ⟨pre', heq', -⟩ := advances hp
  refine ⟨pre' ++ pre, d, ?_, hd⟩
  rw [heq', heq, List.append_assoc]

theorem Ends.andThen_succeed (hp : Ends c p) (g : α → β) : Ends c (p.andThen fun a => succeed (g a)) := by
  intro b y b' h
  obtain ⟨x, hp', -⟩ := map_ok.mp h
  exact hp b x b' hp'

theorem Ends.restoring (hp : Ends c p) : Ends c p.restoring := by
  intro b a b' h
  exact hp b a b' (restoring_ok.mp h)

theorem Ends.orElse (hp : Ends c p) (hq : Ends c q) : Ends c (p.orElse q) := by
  intro b a b' h
  rcases orElse_ok h with h | ⟨e, b₁, herror, h⟩
  . exact hp b a b' h
  . obtain ⟨pre, d, heq, hd⟩ := hq _ _ _ h
    obtain ⟨pre', heq', -⟩ := advances herror
    refine ⟨pre' ++ pre, d, ?_, hd⟩
    rw [heq', heq, List.append_assoc]

theorem ends_fail (e : ε) : Ends c (fail e : Parser ε α) := by
  intro b a b' h
  simp at h

theorem ends_shiftIf {test : Char → Bool} (htest : test c = false) (e : ε)
    : Ends c ((shiftIf test).require e) := by
  intro b a b' h
  obtain ⟨d, hd, hrest, -⟩ := shiftIf_true.mp (require_ok.mp h)
  refine ⟨[], d, hrest, ?_⟩
  rintro rfl
  rw [htest] at hd
  simp at hd

theorem ends_loop [Inhabited ε] {step : σ → Parser ε (Step σ α)}
    (hdone : ∀ s b a b', (step s).run b = (.ok (.done a), b') → ∃ pre d, b.rest = pre ++ d :: b'.rest ∧ d ≠ c)
    (s : σ) : Ends c (loop step s) := by
  intro b a b' h
  refine loop_ok (Q := fun b _ b' => ∃ pre d, b.rest = pre ++ d :: b'.rest ∧ d ≠ c) hdone ?_ h
  rintro _ b _ b' _ b'' hagain ⟨pre, d, heq, hd⟩
  obtain ⟨pre', heq', -⟩ := advances hagain
  refine ⟨pre' ++ pre, d, ?_, hd⟩
  rw [heq', heq, List.append_assoc]

theorem Ends.apart {t : List Char} (hp : Ends c p) {b b' : Buffer} {a : α}
    (h : p.run (b.before t) = (.ok a, b'.before t)) (hrest : b'.rest ≠ [c]) : Severed c b b' := by
  intro hlength hlast
  obtain ⟨pre, d, heq, hd⟩ := hp _ _ _ h
  have heq : b.rest ++ t = (pre ++ d :: b'.rest) ++ t := by simpa [before] using heq
  rw [List.append_cancel_right heq] at hlast
  cases hb' : b'.rest with
  | nil =>
    rw [hb', List.getLast?_concat] at hlast
    exact hd (Option.some.inj hlast)
  | cons d' rest =>
    have hnil : rest = [] := by
      rw [hb', List.length_cons] at hlength
      exact List.eq_nil_of_length_eq_zero (by omega)
    rw [hb', hnil, List.append_cons, List.getLast?_concat] at hlast
    rw [hb', hnil, Option.some.inj hlast] at hrest
    exact hrest rfl

end Ends

section Pair

variable {t : List Char} {c : Char} {p : Parser ε α} {q : Parser ε β} {f : β → Parser ε σ}

theorem Soft.pair (h : Soft t c (p.andThen fun _ => q)) (hf : ∀ y, Soft t c (f y))
    : Soft t c (p.andThen fun _ => q.andThen f) := by
  rw [← andThen_assoc]
  exact h.andThen hf

end Pair

end Parser

end Gremlin.Text
