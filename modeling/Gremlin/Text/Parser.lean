import Mathlib.Data.List.TakeWhile

/-!
This module contains parsers over a buffer of characters. A parser only goes ahead. One that fails
leaves the buffer where it stopped, unless it is wrapped to restore it.
-/

namespace Gremlin.Text

/--
What is left of a text, and where in the text that is.
-/
structure Buffer where
  offset : Nat
  rest : List Char
  deriving DecidableEq, Repr

namespace Buffer

def between (text : List Char) (start stop : Nat) : Buffer :=
  ⟨start, (text.take stop).drop start⟩

/--
`b'` is what is left of `b` behind some characters.
-/
def Advances (b b' : Buffer) : Prop :=
  ∃ pre, b.rest = pre ++ b'.rest ∧ b'.offset = b.offset + pre.length

theorem Advances.refl (b : Buffer) : Advances b b :=
  ⟨[], rfl, rfl⟩

theorem Advances.trans {b b' b'' : Buffer} (h : Advances b b') (h' : Advances b' b'')
    : Advances b b'' := by
  obtain ⟨pre, hrest, hoffset⟩ := h
  obtain ⟨pre', hrest', hoffset'⟩ := h'
  refine ⟨pre ++ pre', by rw [hrest, hrest', List.append_assoc], ?_⟩
  rw [hoffset', hoffset, List.length_append, Nat.add_assoc]

theorem Advances.length_le {b b' : Buffer} (h : Advances b b') : b'.rest.length ≤ b.rest.length := by
  obtain ⟨pre, hrest, -⟩ := h
  rw [hrest, List.length_append]
  omega

theorem Advances.offset_add {b b' : Buffer} (h : Advances b b')
    : b'.offset + b'.rest.length = b.offset + b.rest.length := by
  obtain ⟨pre, hrest, hoffset⟩ := h
  rw [hrest, hoffset, List.length_append]
  omega

theorem Advances.eq {b b' : Buffer} (h : Advances b b') (hlength : b'.rest.length = b.rest.length)
    : b' = b := by
  obtain ⟨offset, rest⟩ := b
  obtain ⟨offset', rest'⟩ := b'
  obtain ⟨pre, hrest, hoffset⟩ := h
  simp only at hrest hoffset hlength
  have : pre = [] := by
    apply List.eq_nil_of_length_eq_zero
    rw [hrest, List.length_append] at hlength
    omega
  subst this
  simp_all

theorem Advances.eq_between {text : List Char} {start stop : Nat} {b : Buffer}
    (h : Advances (between text start stop) b) : b = between text b.offset stop := by
  obtain ⟨offset, rest⟩ := b
  obtain ⟨pre, hrest, hoffset⟩ := h
  simp only [between] at hrest hoffset ⊢
  rw [hoffset, ← List.drop_drop, hrest, List.drop_left]

/--
`b'` is what is left of `b` behind these characters.
-/
def Covers (b : Buffer) (text : List Char) (b' : Buffer) : Prop :=
  b.rest = text ++ b'.rest ∧ b'.offset = b.offset + text.length

theorem Covers.refl (b : Buffer) : Covers b [] b :=
  ⟨rfl, rfl⟩

theorem Covers.trans {b b' b'' : Buffer} {text text' : List Char} (h : Covers b text b')
    (h' : Covers b' text' b'') : Covers b (text ++ text') b'' := by
  refine ⟨by rw [h.1, h'.1, List.append_assoc], ?_⟩
  rw [h'.2, h.2, List.length_append, Nat.add_assoc]

theorem Covers.cons {offset : Nat} {rest text : List Char} {b' : Buffer} (c : Char)
    (h : Covers ⟨offset + 1, rest⟩ text b') : Covers ⟨offset, c :: rest⟩ (c :: text) b' :=
  @Covers.trans ⟨offset, c :: rest⟩ ⟨offset + 1, rest⟩ b' [c] text ⟨rfl, rfl⟩ h

theorem Covers.take_eq {b b' : Buffer} {text : List Char} (h : Covers b text b')
    : b.rest.take (b'.offset - b.offset) = text := by
  rw [h.1, h.2]
  simp

theorem covers_append {b b' : Buffer} {text text' : List Char}
    : Covers b (text ++ text') b' ↔ ∃ b'', Covers b text b'' ∧ Covers b'' text' b' := by
  constructor
  . rintro ⟨hrest, hoffset⟩
    refine ⟨⟨b.offset + text.length, text' ++ b'.rest⟩, ⟨by rw [hrest, List.append_assoc], rfl⟩, rfl, ?_⟩
    rw [hoffset, List.length_append]
    exact (Nat.add_assoc ..).symm
  . rintro ⟨b'', h, h'⟩
    exact h.trans h'

theorem covers_cons {b b' : Buffer} {c : Char} {text : List Char}
    : Covers b (c :: text) b' ↔ ∃ b'', Covers b [c] b'' ∧ Covers b'' text b' :=
  @covers_append b b' [c] text

end Buffer

open Buffer

structure Parser (ε α : Type) where
  run : Buffer → Except ε α × Buffer
  forward : ∀ b, Advances b (run b).2

namespace Parser

variable {ε α β σ : Type}

theorem advances {p : Parser ε α} {b b' : Buffer} {r : Except ε α} (h : p.run b = (r, b'))
    : Advances b b' := by
  have := p.forward b
  rwa [h] at this

def succeed (a : α) : Parser ε α where
  run buf := (.ok a, buf)
  forward := Advances.refl

def fail (e : ε) : Parser ε α where
  run buf := (.error e, buf)
  forward := Advances.refl

def andThen (p : Parser ε α) (f : α → Parser ε β) : Parser ε β where
  run buf :=
    match p.run buf with
    | (.ok a, buf') => (f a).run buf'
    | (.error e, buf') => (.error e, buf')
  forward b := by
    split
    . next a b' h => exact (advances h).trans ((f a).forward b')
    . next e b' h => exact advances h

instance : Monad (Parser ε) where
  pure := succeed
  bind := andThen

/--
Go back to where the parser started if it fails.
-/
def restoring (p : Parser ε α) : Parser ε α where
  run buf :=
    match p.run buf with
    | (.ok a, buf') => (.ok a, buf')
    | (.error e, _) => (.error e, buf)
  forward b := by
    split
    . next a b' h => exact advances h
    . exact Advances.refl b

def orElse (p q : Parser ε α) : Parser ε α where
  run buf :=
    match p.run buf with
    | (.ok a, buf') => (.ok a, buf')
    | (.error _, buf') => q.run buf'
  forward b := by
    split
    . next a b' h => exact advances h
    . next e b' h => exact (advances h).trans (q.forward b')

/--
Carry on from where a parser stopped, also where it fails.
-/
def ignoring (p : Parser ε Unit) : Parser ε Unit where
  run buf := (.ok (), (p.run buf).2)
  forward := p.forward

def spanned (p : Parser ε Unit) : Parser ε (List Char) where
  run buf :=
    match p.run buf with
    | (.ok _, buf') => (.ok (buf.rest.take (buf'.offset - buf.offset)), buf')
    | (.error e, buf') => (.error e, buf')
  forward b := by split <;> next h => exact advances h

/--
Make a value of what a parser yields and the text from where it started.
-/
def valued (p : Parser ε α) (value : α → List Char → Except ε β) : Parser ε β where
  run buf :=
    match p.run buf with
    | (.ok a, buf') => (value a buf.rest, buf')
    | (.error e, buf') => (.error e, buf')
  forward b := by split <;> next h => exact advances h

def position : Parser ε Nat where
  run buf := (.ok buf.offset, buf)
  forward := Advances.refl

/--
Whether there is a next character and it is one of these.
-/
def looking (test : Char → Bool) : Parser ε Bool where
  run buf := (.ok (buf.rest.head?.any test), buf)
  forward := Advances.refl

def next : Parser ε (Option Char) where
  run buf :=
    match buf.rest with
    | [] => (.ok none, buf)
    | c :: rest => (.ok (some c), ⟨buf.offset + 1, rest⟩)
  forward b := by
    split
    . exact Advances.refl b
    . next c rest h => exact ⟨[c], h, rfl⟩

/--
Go over the next character if it is one of these.
-/
def shiftIf (test : Char → Bool) : Parser ε Bool where
  run buf :=
    match buf.rest with
    | [] => (.ok false, buf)
    | c :: rest => if test c then (.ok true, ⟨buf.offset + 1, rest⟩) else (.ok false, buf)
  forward b := by
    split
    . exact Advances.refl b
    . next c rest h =>
      split
      . exact ⟨[c], h, rfl⟩
      . exact Advances.refl b

def shiftWhile (test : Char → Bool) : Parser ε Unit where
  run buf := (.ok (), ⟨buf.offset + (buf.rest.takeWhile test).length, buf.rest.dropWhile test⟩)
  forward b := ⟨b.rest.takeWhile test, List.takeWhile_append_dropWhile.symm, rfl⟩

def literal (word : List Char) : Parser ε Bool where
  run buf :=
    if word.isPrefixOf buf.rest then
      (.ok true, ⟨buf.offset + word.length, buf.rest.drop word.length⟩)
    else
      (.ok false, buf)
  forward b := by
    split
    . next h =>
      obtain ⟨rest, hrest⟩ := List.isPrefixOf_iff_prefix.mp h
      exact ⟨word, by simp [← hrest], rfl⟩
    . exact Advances.refl b

def require (test : Parser ε Bool) (e : ε) : Parser ε Unit :=
  test.andThen fun found => if found then succeed () else fail e

inductive Step (σ α : Type) where
  | again (s : σ)
  | done (a : α)
  deriving DecidableEq, Repr

def loop.go [Inhabited ε] (step : σ → Parser ε (Step σ α)) : (fuel : Nat) → σ → Parser ε α
  | 0, _ => fail default
  | fuel + 1, s => (step s).andThen fun
    | .done a => succeed a
    | .again s' => go step fuel s'

/--
Repeat a step until it is done. No step that goes on may leave the buffer as it is.
-/
def loop [Inhabited ε] (step : σ → Parser ε (Step σ α)) (s : σ) : Parser ε α where
  run buf := (loop.go step (buf.rest.length + 1) s).run buf
  forward b := (loop.go step (b.rest.length + 1) s).forward b

/-! The results. -/

@[simp]
theorem bind_eq (p : Parser ε α) (f : α → Parser ε β) : p >>= f = p.andThen f :=
  rfl

@[simp]
theorem pure_eq (a : α) : (pure a : Parser ε α) = succeed a :=
  rfl

@[simp]
theorem map_eq (f : α → β) (p : Parser ε α) : f <$> p = p.andThen fun a => succeed (f a) :=
  rfl

@[simp]
theorem seqRight_eq (p : Parser ε α) (q : Parser ε β) : p *> q = p.andThen fun _ => q :=
  rfl

@[simp]
theorem succeed_run (a : α) (b : Buffer) : (succeed a : Parser ε α).run b = (.ok a, b) :=
  rfl

@[simp]
theorem fail_run (e : ε) (b : Buffer) : (fail e : Parser ε α).run b = (.error e, b) :=
  rfl

theorem andThen_ok {p : Parser ε α} {f : α → Parser ε β} {b b' : Buffer} {y : β}
    : (p.andThen f).run b = (.ok y, b')
        ↔ ∃ x b'', p.run b = (.ok x, b'') ∧ (f x).run b'' = (.ok y, b') := by
  simp only [andThen]
  constructor
  . intro h
    rcases hp : p.run b with ⟨e | x, b''⟩
    . simp [hp] at h
    . rw [hp] at h
      exact ⟨x, b'', rfl, h⟩
  . rintro ⟨x, b'', hp, hf⟩
    rw [hp]
    exact hf

theorem andThen_of_ok {p : Parser ε α} {f : α → Parser ε β} {b b' : Buffer} {x : α}
    (h : p.run b = (.ok x, b')) : (p.andThen f).run b = (f x).run b' := by
  simp only [andThen, h]

theorem andThen_of_error {p : Parser ε α} {f : α → Parser ε β} {b b' : Buffer} {e : ε}
    (h : p.run b = (.error e, b')) : (p.andThen f).run b = (.error e, b') := by
  simp only [andThen, h]

theorem restoring_ok {p : Parser ε α} {b b' : Buffer} {a : α}
    : p.restoring.run b = (.ok a, b') ↔ p.run b = (.ok a, b') := by
  simp only [restoring]
  rcases p.run b with ⟨_ | x, b''⟩ <;> simp

theorem restoring_error {p : Parser ε α} {b b' : Buffer} {e : ε}
    (h : p.restoring.run b = (.error e, b')) : b' = b ∧ ∃ b'', p.run b = (.error e, b'') := by
  simp only [restoring] at h
  rcases hp : p.run b with ⟨e' | x, b''⟩
  . rw [hp] at h
    simp only [Prod.mk.injEq, Except.error.injEq] at h
    exact ⟨h.2.symm, b'', by rw [h.1]⟩
  . simp [hp] at h

theorem orElse_of_ok {p q : Parser ε α} {b b' : Buffer} {a : α} (h : p.run b = (.ok a, b'))
    : (p.orElse q).run b = (.ok a, b') := by
  simp only [orElse, h]

theorem orElse_of_error {p q : Parser ε α} {b b' : Buffer} {e : ε} (h : p.run b = (.error e, b'))
    : (p.orElse q).run b = q.run b' := by
  simp only [orElse, h]

theorem orElse_ok {p q : Parser ε α} {b b' : Buffer} {a : α} (h : (p.orElse q).run b = (.ok a, b'))
    : p.run b = (.ok a, b') ∨ ∃ e b'', p.run b = (.error e, b'') ∧ q.run b'' = (.ok a, b') := by
  rcases hp : p.run b with ⟨e | a', b''⟩
  . rw [orElse_of_error hp] at h
    exact .inr ⟨e, b'', rfl, h⟩
  . rw [orElse_of_ok hp] at h
    exact .inl h

theorem ext_run {p q : Parser ε α} (h : ∀ b, p.run b = q.run b) : p = q := by
  obtain ⟨run, _⟩ := p
  obtain ⟨run', _⟩ := q
  have : run = run' := funext h
  subst this
  rfl

theorem andThen_assoc (p : Parser ε α) (f : α → Parser ε β) (g : β → Parser ε σ)
    : (p.andThen f).andThen g = p.andThen fun a => (f a).andThen g := by
  apply ext_run
  intro b
  rcases hp : p.run b with ⟨e | a, b'⟩
  . rw [andThen_of_error hp, andThen_of_error (andThen_of_error hp)]
  . rw [andThen_of_ok hp]
    simp only [andThen, hp]

theorem map_map (g : β → σ) (f : α → β) (p : Parser ε α) : g <$> f <$> p = (fun a => g (f a)) <$> p := by
  simp only [map_eq, andThen_assoc]
  rfl

theorem map_andThen (g : β → σ) (p : Parser ε α) (f : α → Parser ε β)
    : g <$> p.andThen f = p.andThen fun a => g <$> f a :=
  andThen_assoc p f _

theorem map_ite (g : α → β) {d : Prop} [Decidable d] (p q : Parser ε α)
    : (g <$> if d then p else q) = if d then g <$> p else g <$> q := by
  split <;> rfl

theorem map_succeed (g : α → β) (a : α) : g <$> (succeed a : Parser ε α) = succeed (g a) :=
  rfl

theorem map_id (p : Parser ε α) : id <$> p = p := by
  apply ext_run
  intro b
  simp only [map_eq]
  rcases hp : p.run b with ⟨e | a, b'⟩
  . exact andThen_of_error hp
  . exact andThen_of_ok hp

theorem map_orElse (f : α → β) (p q : Parser ε α) : f <$> p.orElse q = (f <$> p).orElse (f <$> q) := by
  apply ext_run
  intro b
  simp only [map_eq]
  rcases hp : p.run b with ⟨e | a, b'⟩
  . rw [orElse_of_error (andThen_of_error hp)]
    simp only [andThen, orElse, hp]
  . rw [andThen_of_ok (orElse_of_ok hp), orElse_of_ok (andThen_of_ok hp)]
    rfl

theorem orElse_assoc (p q r : Parser ε α) : (p.orElse q).orElse r = p.orElse (q.orElse r) := by
  apply ext_run
  intro b
  rcases hp : p.run b with ⟨e | a, b'⟩
  . rw [orElse_of_error hp]
    simp only [orElse, hp]
  . rw [orElse_of_ok hp, orElse_of_ok (orElse_of_ok hp)]

theorem map_ok {f : α → β} {p : Parser ε α} {b b' : Buffer} {y : β}
    : (f <$> p).run b = (.ok y, b') ↔ ∃ x, p.run b = (.ok x, b') ∧ f x = y := by
  rw [map_eq, andThen_ok]
  constructor
  . rintro ⟨x, b'', hp, hy⟩
    rw [succeed_run, Prod.mk.injEq, Except.ok.injEq] at hy
    rw [← hy.2]
    exact ⟨x, hp, hy.1⟩
  . rintro ⟨x, hp, rfl⟩
    exact ⟨x, b', hp, rfl⟩

theorem map_error {f : α → β} {p : Parser ε α} {b b' : Buffer} {e : ε}
    : (f <$> p).run b = (.error e, b') ↔ p.run b = (.error e, b') := by
  rw [map_eq]
  rcases hp : p.run b with ⟨e' | a, b''⟩
  . rw [andThen_of_error hp]
    simp
  . rw [andThen_of_ok hp]
    simp

theorem orElse_fail_ok {p : Parser ε α} {e : ε} {b b' : Buffer} {a : α}
    : (p.orElse (fail e)).run b = (.ok a, b') ↔ p.run b = (.ok a, b') := by
  constructor
  . intro h
    rcases orElse_ok h with h | ⟨_, _, -, h⟩
    . exact h
    . simp at h
  . exact orElse_of_ok

theorem literal_true {word : List Char} {b b' : Buffer}
    : (literal word : Parser ε Bool).run b = (.ok true, b')
        ↔ b.rest = word ++ b'.rest ∧ b'.offset = b.offset + word.length := by
  obtain ⟨offset', rest'⟩ := b'
  simp only [literal]
  split
  . next h =>
    obtain ⟨rest, hrest⟩ := List.isPrefixOf_iff_prefix.mp h
    rw [← hrest]
    simp only [List.drop_left, Prod.mk.injEq, Buffer.mk.injEq, true_and, List.append_cancel_left_eq]
    constructor
    . rintro ⟨hoffset, hrest⟩
      exact ⟨hrest, hoffset.symm⟩
    . rintro ⟨hrest, hoffset⟩
      exact ⟨hoffset.symm, hrest⟩
  . next h =>
    simp only [Prod.mk.injEq, Except.ok.injEq, Bool.false_eq_true, false_and, false_iff]
    rintro ⟨hrest, -⟩
    apply h
    rw [List.isPrefixOf_iff_prefix, hrest]
    exact List.prefix_append _ _

theorem shiftIf_true {test : Char → Bool} {b b' : Buffer}
    : (shiftIf test : Parser ε Bool).run b = (.ok true, b')
        ↔ ∃ c, test c = true ∧ b.rest = c :: b'.rest ∧ b'.offset = b.offset + 1 := by
  obtain ⟨offset, rest⟩ := b
  obtain ⟨offset', rest'⟩ := b'
  simp only [shiftIf]
  cases rest with
  | nil => simp
  | cons c rest =>
    dsimp only
    split
    . next h =>
      simp only [Prod.mk.injEq, Buffer.mk.injEq, true_and, List.cons.injEq]
      constructor
      . rintro ⟨hoffset, hrest⟩
        exact ⟨c, h, ⟨rfl, hrest⟩, hoffset.symm⟩
      . rintro ⟨_, -, ⟨-, hrest⟩, hoffset⟩
        exact ⟨hoffset.symm, hrest⟩
    . next h =>
      simp only [Prod.mk.injEq, Except.ok.injEq, Bool.false_eq_true, false_and, List.cons.injEq,
        false_iff, not_exists, not_and]
      rintro _ hc ⟨rfl, -⟩
      exact absurd hc h

theorem shiftIf_false {test : Char → Bool} {b b' : Buffer}
    (h : (shiftIf test : Parser ε Bool).run b = (.ok false, b')) : b' = b := by
  simp only [shiftIf] at h
  split at h
  . simpa using h.symm
  . split at h
    . simp at h
    . simpa using h.symm

theorem require_ok {test : Parser ε Bool} {e : ε} {b b' : Buffer} {a : Unit}
    : (test.require e).run b = (.ok a, b') ↔ test.run b = (.ok true, b') := by
  unfold require
  rw [andThen_ok]
  constructor
  . rintro ⟨found, b'', htest, hrest⟩
    cases found with
    | false => simp at hrest
    | true =>
      simp only [if_true, succeed_run, Prod.mk.injEq] at hrest
      rw [htest, hrest.2]
  . intro h
    exact ⟨true, b', h, rfl⟩

/--
What a parser that succeeds establishes of the buffer it starts from and of its result.
-/
def Ensures (p : Parser ε α) (Q : Buffer → α → Prop) : Prop :=
  ∀ b a b', p.run b = (.ok a, b') → Q b a

theorem ensures_succeed {Q : Buffer → α → Prop} {a : α} (h : ∀ b, Q b a)
    : Ensures (succeed a : Parser ε α) Q := by
  intro b a' b' hrun
  simp only [succeed_run, Prod.mk.injEq, Except.ok.injEq] at hrun
  exact hrun.1 ▸ h b

theorem ensures_fail (Q : Buffer → α → Prop) (e : ε) : Ensures (fail e : Parser ε α) Q := by
  intro b a b' h
  simp at h

/--
`Q` is about a buffer and also about what was before it.
-/
def Backward (Q : Buffer → α → Prop) : Prop :=
  ∀ b b' a, Advances b b' → Q b' a → Q b a

theorem ensures_andThen {Q : Buffer → β → Prop} (hQ : Backward Q) (p : Parser ε α)
    {f : α → Parser ε β} (hf : ∀ a, Ensures (f a) Q) : Ensures (p.andThen f) Q := by
  intro b y b' h
  obtain ⟨x, b'', hp, hfb⟩ := andThen_ok.mp h
  exact hQ _ _ _ (advances hp) (hf _ _ _ _ hfb)

theorem Ensures.map {Q : Buffer → α → Prop} {R : Buffer → β → Prop} {p : Parser ε α}
    (hp : Ensures p Q) {f : α → β} (h : ∀ b a, Q b a → R b (f a)) : Ensures (f <$> p) R := by
  intro b y b' hrun
  rw [map_eq] at hrun
  obtain ⟨x, b'', hpb, hfb⟩ := andThen_ok.mp hrun
  simp only [succeed_run, Prod.mk.injEq, Except.ok.injEq] at hfb
  exact hfb.1 ▸ h _ _ (hp _ _ _ hpb)

theorem Ensures.orElse {Q : Buffer → α → Prop} (hQ : Backward Q) {p q : Parser ε α}
    (hp : Ensures p Q) (hq : Ensures q Q) : Ensures (p.orElse q) Q := by
  intro b a b' h
  rcases orElse_ok h with hpb | ⟨e, b'', hpb, hqb⟩
  . exact hp _ _ _ hpb
  . exact hQ _ _ _ (advances hpb) (hq _ _ _ hqb)

/-! Progress. -/

/--
A parser that goes over something where it succeeds.
-/
def Eager (p : Parser ε α) : Prop :=
  ∀ b a b', p.run b = (.ok a, b') → b'.rest.length < b.rest.length

theorem Eager.andThen {p : Parser ε α} (hp : Eager p) (f : α → Parser ε β)
    : Eager (p.andThen f) := by
  intro b y b' h
  obtain ⟨x, b'', hpb, hfb⟩ := andThen_ok.mp h
  have := hp _ _ _ hpb
  have := (advances hfb).length_le
  omega

theorem eager_andThen (p : Parser ε α) {f : α → Parser ε β} (hf : ∀ a, Eager (f a))
    : Eager (p.andThen f) := by
  intro b y b' h
  obtain ⟨x, b'', hpb, hfb⟩ := andThen_ok.mp h
  have := (advances hpb).length_le
  have := hf _ _ _ _ hfb
  omega

theorem Eager.restoring {p : Parser ε α} (hp : Eager p) : Eager p.restoring := by
  intro b a b' h
  exact hp b a b' (restoring_ok.mp h)

theorem Eager.orElse {p q : Parser ε α} (hp : Eager p) (hq : Eager q) : Eager (p.orElse q) := by
  intro b a b' h
  rcases orElse_ok h with hpb | ⟨e, b'', hpb, hqb⟩
  . exact hp _ _ _ hpb
  . have := hq _ _ _ hqb
    have := (advances hpb).length_le
    omega

theorem eager_fail (e : ε) : Eager (fail e : Parser ε α) := by
  intro b a b' h
  simp at h

theorem Eager.spanned {p : Parser ε Unit} (hp : Eager p) : Eager p.spanned := by
  intro b a b' h
  simp only [Parser.spanned] at h
  split at h
  . next hpb =>
    rw [Prod.mk.injEq] at h
    exact h.2 ▸ hp _ _ _ hpb
  . simp at h

theorem eager_shiftIf (test : Char → Bool) (e : ε) : Eager ((shiftIf test).require e) := by
  intro b a b' h
  obtain ⟨c, -, hrest, -⟩ := shiftIf_true.mp (require_ok.mp h)
  rw [hrest]
  simp

theorem eager_literal {word : List Char} (hword : word ≠ []) (e : ε)
    : Eager ((literal word).require e) := by
  intro b a b' h
  have := List.length_pos_iff.mpr hword
  rw [(literal_true.mp (require_ok.mp h)).1, List.length_append]
  omega

section Loop

variable [Inhabited ε] {step : σ → Parser ε (Step σ α)}

def Progress (step : σ → Parser ε (Step σ α)) : Prop :=
  ∀ s b s' b', (step s).run b = (.ok (.again s'), b') → b'.rest.length < b.rest.length

theorem loop_go_fuel (hstep : Progress step) {fuel fuel' : Nat} {s : σ} {b : Buffer}
    (h : b.rest.length < fuel) (h' : b.rest.length < fuel')
    : (loop.go step fuel s).run b = (loop.go step fuel' s).run b := by
  induction fuel generalizing fuel' s b with
  | zero => omega
  | succ fuel ih =>
    cases fuel' with
    | zero => omega
    | succ fuel' =>
      rw [loop.go, loop.go]
      rcases hs : (step s).run b with ⟨e | s' | a, b'⟩
      . rw [andThen_of_error hs, andThen_of_error hs]
      . rw [andThen_of_ok hs, andThen_of_ok hs]
        have := hstep _ _ _ _ hs
        exact ih (by omega) (by omega)
      . rw [andThen_of_ok hs, andThen_of_ok hs]

theorem loop_run (hstep : Progress step) (s : σ) (b : Buffer)
    : (loop step s).run b = ((step s).andThen fun
        | .done a => succeed a
        | .again s' => loop step s').run b := by
  simp only [loop]
  rw [loop.go]
  rcases hs : (step s).run b with ⟨e | s' | a, b'⟩
  . rw [andThen_of_error hs, andThen_of_error hs]
  . rw [andThen_of_ok hs, andThen_of_ok hs]
    have := hstep _ _ _ _ hs
    have hfuel := @loop_go_fuel ε α σ _ step hstep b.rest.length (b'.rest.length + 1) s' b'
    exact hfuel (by omega) (by omega)
  . rw [andThen_of_ok hs, andThen_of_ok hs]

/--
What the last step establishes and every step before it hands back holds of the loop.
-/
theorem loop_ok {Q : Buffer → α → Buffer → Prop}
    (hdone : ∀ s b a b', (step s).run b = (.ok (.done a), b') → Q b a b')
    (hagain : ∀ s b s' b' a b'', (step s).run b = (.ok (.again s'), b') → Q b' a b'' → Q b a b'')
    {s : σ} {b b' : Buffer} {a : α} (h : (loop step s).run b = (.ok a, b')) : Q b a b' := by
  have hgo : ∀ fuel s b, (loop.go step fuel s).run b = (.ok a, b') → Q b a b' := by
    intro fuel
    induction fuel with
    | zero =>
      intro s b h
      simp [loop.go] at h
    | succ fuel ih =>
      intro s b h
      rw [loop.go] at h
      obtain ⟨next, b'', hs, hrest⟩ := andThen_ok.mp h
      cases next with
      | done a' =>
        simp only [succeed_run, Prod.mk.injEq, Except.ok.injEq] at hrest
        obtain ⟨rfl, rfl⟩ := hrest
        exact hdone _ _ _ _ hs
      | again s' => exact hagain _ _ _ _ _ _ hs (ih _ _ hrest)
  exact hgo (b.rest.length + 1) s b h

end Loop

end Parser

end Gremlin.Text
