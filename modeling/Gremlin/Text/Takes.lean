import Gremlin.Text.Clamped

/-!
This module contains the rules for parsers that take exactly a text, where what is behind the text may
have to be of a certain kind, and for parsers that never get behind a character.
-/

namespace Gremlin.Text.Parser

open Buffer

variable {ε α β : Type} {F G : List Char → Prop} {P : α → Prop} {Q : β → Prop}

/--
The parser takes exactly this text and yields a result of this kind, if what is behind the text is of a
certain kind.
-/
def Takes (F : List Char → Prop) (p : Parser ε α) (text : List Char) (P : α → Prop) : Prop :=
  ∀ b b', Covers b text b' → F b'.rest → ∃ a, P a ∧ p.run b = (.ok a, b')

theorem Takes.mono {p : Parser ε α} {text : List Char} (h : Takes F p text P) (hF : ∀ rest, G rest → F rest)
    : Takes G p text P :=
  fun b b' hcovers hend => h b b' hcovers (hF _ hend)

theorem Takes.imp {p : Parser ε α} {text : List Char} {P' : α → Prop} (h : Takes F p text P) (himp : ∀ a, P a → P' a)
    : Takes F p text P' := by
  intro b b' hcovers hend
  obtain ⟨a, ha, hrun⟩ := h b b' hcovers hend
  exact ⟨a, himp a ha, hrun⟩

theorem Takes.run {p : Parser ε α} {text : List Char} {a : α} (h : Takes F p text (· = a)) {b b' : Buffer}
    (hcovers : Covers b text b') (hend : F b'.rest) : p.run b = (.ok a, b') := by
  obtain ⟨_, rfl, hrun⟩ := h b b' hcovers hend
  exact hrun

theorem eq_of_covers_nil {b b' : Buffer} (h : Covers b [] b') : b' = b := by
  obtain ⟨offset, rest⟩ := b
  obtain ⟨offset', rest'⟩ := b'
  obtain ⟨hrest, hoffset⟩ := h
  simp only [List.nil_append, List.length_nil, Nat.add_zero] at hrest hoffset
  rw [hrest, hoffset]

theorem takes_succeed {a : α} (h : P a) : Takes F (succeed a : Parser ε α) [] P := by
  intro b b' hcovers _
  rw [eq_of_covers_nil hcovers]
  exact ⟨a, h, rfl⟩

theorem Takes.andThen {p : Parser ε α} {f : α → Parser ε β} {s t : List Char} (hp : Takes F p s P)
    (hf : ∀ a, P a → Takes G (f a) t Q) (h : ∀ rest, G rest → F (t ++ rest)) : Takes G (p.andThen f) (s ++ t) Q := by
  intro b b' hcovers hend
  obtain ⟨b₁, hcovers, hcovers'⟩ := covers_append.mp hcovers
  obtain ⟨a, ha, hrun⟩ := hp b b₁ hcovers (hcovers'.1 ▸ h _ hend)
  rw [andThen_of_ok hrun]
  exact hf a ha b₁ b' hcovers' hend

theorem Takes.map {p : Parser ε α} {text : List Char} (h : Takes F p text P) {f : α → β} (hf : ∀ a, P a → Q (f a))
    : Takes F (f <$> p) text Q := by
  intro b b' hcovers hend
  obtain ⟨a, ha, hrun⟩ := h b b' hcovers hend
  exact ⟨f a, hf a ha, map_ok.mpr ⟨a, hrun, rfl⟩⟩

theorem Takes.restoring {p : Parser ε α} {text : List Char} (h : Takes F p text P) : Takes F p.restoring text P := by
  intro b b' hcovers hend
  obtain ⟨a, ha, hrun⟩ := h b b' hcovers hend
  exact ⟨a, ha, restoring_ok.mpr hrun⟩

theorem Takes.orElse {p : Parser ε α} {text : List Char} (h : Takes F p text P) (q : Parser ε α)
    : Takes F (p.orElse q) text P := by
  intro b b' hcovers hend
  obtain ⟨a, ha, hrun⟩ := h b b' hcovers hend
  exact ⟨a, ha, orElse_of_ok hrun⟩

theorem Takes.spanned {p : Parser ε Unit} {text : List Char} {R : Unit → Prop} (h : Takes F p text R)
    : Takes F p.spanned text (· = text) := by
  intro b b' hcovers hend
  obtain ⟨_, -, hrun⟩ := h b b' hcovers hend
  refine ⟨text, rfl, ?_⟩
  simp only [Parser.spanned, hrun, hcovers.take_eq]

theorem Takes.require {test : Parser ε Bool} {text : List Char} (h : Takes F test text (· = true)) (e : ε)
    : Takes F (test.require e) text fun _ => True :=
  fun _ _ hcovers hend => ⟨(), trivial, require_ok.mpr (h.run hcovers hend)⟩

theorem takes_literal (word : List Char) : Takes F (literal word : Parser ε Bool) word (· = true) :=
  fun _ _ hcovers _ => ⟨true, rfl, literal_true.mpr hcovers⟩

theorem takes_shiftIf {test : Char → Bool} {c : Char} (hc : test c = true)
    : Takes F (shiftIf test : Parser ε Bool) [c] (· = true) :=
  fun _ _ hcovers _ => ⟨true, rfl, shiftIf_true.mpr ⟨c, hc, hcovers.1, hcovers.2⟩⟩

theorem looking_run {test : Char → Bool} {c : Char} {text : List Char} {b b' : Buffer} (h : Covers b (c :: text) b')
    : (looking test : Parser ε Bool).run b = (.ok (test c), b) := by
  simp only [looking, h.1]
  rfl

theorem takes_looking {test : Char → Bool} {f : Bool → Parser ε β} {c : Char} {text : List Char}
    (hf : Takes G (f (test c)) (c :: text) Q) : Takes G ((looking test).andThen f) (c :: text) Q := by
  intro b b' hcovers hend
  rw [andThen_of_ok (looking_run hcovers)]
  exact hf b b' hcovers hend

/-! Parsers that take nothing. -/

/--
The parser does not succeed where this text comes next.
-/
def Refuses (p : Parser ε α) (text : List Char) : Prop :=
  ∀ b b', Covers b text b' → ∀ a c, p.run b ≠ (.ok a, c)

theorem Refuses.andThen {p : Parser ε α} {text : List Char} (h : Refuses p text) (f : α → Parser ε β)
    : Refuses (p.andThen f) text := by
  intro b b' hcovers y c hrun
  obtain ⟨a, b₁, hp, -⟩ := andThen_ok.mp hrun
  exact h b b' hcovers a b₁ hp

theorem Takes.refuses {p : Parser ε α} {f : α → Parser ε β} {text text' : List Char} (hp : Takes F p text P)
    (hf : ∀ a, P a → Refuses (f a) text') (h : ∀ rest, F (text' ++ rest)) : Refuses (p.andThen f) (text ++ text') := by
  intro b b' hcovers y c hrun
  obtain ⟨b₁, hcovers, hcovers'⟩ := covers_append.mp hcovers
  obtain ⟨a, ha, hp⟩ := hp b b₁ hcovers (hcovers'.1 ▸ h _)
  rw [andThen_of_ok hp] at hrun
  exact hf a ha b₁ b' hcovers' y c hrun

theorem Refuses.map {p : Parser ε α} {text : List Char} (h : Refuses p text) (f : α → β) : Refuses (f <$> p) text := by
  intro b b' hcovers y c hrun
  obtain ⟨a, hrun, -⟩ := map_ok.mp hrun
  exact h b b' hcovers a c hrun

theorem Refuses.restoring {p : Parser ε α} {text : List Char} (h : Refuses p text) : Refuses p.restoring text :=
  fun b b' hcovers a c hrun => h b b' hcovers a c (restoring_ok.mp hrun)

theorem Refuses.spanned {p : Parser ε Unit} {text : List Char} (h : Refuses p text) : Refuses p.spanned text := by
  intro b b' hcovers a c hrun
  simp only [Parser.spanned] at hrun
  split at hrun
  . next hp => exact h b b' hcovers _ _ hp
  . simp at hrun

theorem Refuses.append {p : Parser ε α} {text : List Char} (h : Refuses p text) (text' : List Char)
    : Refuses p (text ++ text') := by
  intro b b' hcovers
  obtain ⟨b₁, hcovers, -⟩ := covers_append.mp hcovers
  exact h b b₁ hcovers

theorem refuses_fail (e : ε) (text : List Char) : Refuses (fail e : Parser ε α) text := by
  intro b b' _ a c hrun
  simp at hrun

theorem refuses_shiftIf {test : Char → Bool} {c : Char} (hc : test c = false) (e : ε) (text : List Char)
    : Refuses ((shiftIf test).require e) (c :: text) := by
  intro b b' hcovers a b₁ hrun
  obtain ⟨d, hd, hrest, -⟩ := shiftIf_true.mp (require_ok.mp hrun)
  rw [hcovers.1, List.cons_append, List.cons.injEq] at hrest
  rw [← hrest.1, hc] at hd
  exact Bool.false_ne_true hd

theorem refuses_looking {test : Char → Bool} {f : Bool → Parser ε β} {c : Char} {text : List Char}
    (hf : Refuses (f (test c)) (c :: text)) : Refuses ((looking test).andThen f) (c :: text) := by
  intro b b' hcovers y d hrun
  rw [andThen_of_ok (looking_run hcovers)] at hrun
  exact hf b b' hcovers y d hrun

/-! Parsers that do not get behind a character. -/

/--
Where the parser stops these buffers are not left, whether it succeeds or not.
-/
def Stays (P : Buffer → Prop) (p : Parser ε α) : Prop :=
  ∀ b, P b → P (p.run b).2

variable {R : Buffer → Prop}

theorem Stays.run {p : Parser ε α} (hp : Stays R p) {b b' : Buffer} {r : Except ε α} (hb : R b)
    (h : p.run b = (r, b')) : R b' := by
  have := hp b hb
  rwa [h] at this

theorem stays_succeed (a : α) : Stays R (succeed a : Parser ε α) :=
  fun _ hb => hb

theorem stays_fail (e : ε) : Stays R (fail e : Parser ε α) :=
  fun _ hb => hb

theorem stays_looking (test : Char → Bool) : Stays R (looking test : Parser ε Bool) :=
  fun _ hb => hb

theorem Stays.andThen {p : Parser ε α} {f : α → Parser ε β} (hp : Stays R p) (hf : ∀ a, Stays R (f a))
    : Stays R (p.andThen f) := by
  intro b hb
  rcases hrun : p.run b with ⟨e | a, b'⟩
  . rw [andThen_of_error hrun]
    exact hp.run hb hrun
  . rw [andThen_of_ok hrun]
    exact hf a b' (hp.run hb hrun)

theorem Stays.ite {d : Prop} [Decidable d] {p q : Parser ε α} (hp : Stays R p) (hq : Stays R q)
    : Stays R (if d then p else q) := by
  split
  . exact hp
  . exact hq

theorem Stays.restoring {p : Parser ε α} (hp : Stays R p) : Stays R p.restoring := by
  intro b hb
  rcases hrun : p.restoring.run b with ⟨e | a, b'⟩
  . rw [(restoring_error hrun).1]
    exact hb
  . exact hp.run hb (restoring_ok.mp hrun)

theorem Stays.orElse {p q : Parser ε α} (hp : Stays R p) (hq : Stays R q) : Stays R (p.orElse q) := by
  intro b hb
  rcases hrun : p.run b with ⟨e | a, b'⟩
  . rw [orElse_of_error hrun]
    exact hq b' (hp.run hb hrun)
  . rw [orElse_of_ok hrun]
    exact hp.run hb hrun

theorem Stays.require {test : Parser ε Bool} (h : Stays R test) (e : ε) : Stays R (test.require e) := by
  refine h.andThen fun found => ?_
  cases found
  . exact stays_fail e
  . exact stays_succeed ()

theorem Stays.ignoring {p : Parser ε Unit} (hp : Stays R p) : Stays R p.ignoring :=
  hp

theorem Stays.spanned {p : Parser ε Unit} (hp : Stays R p) : Stays R p.spanned := by
  intro b hb
  simp only [Parser.spanned]
  split <;> next hrun => exact hp.run hb hrun

theorem Stays.valued {p : Parser ε α} {value : α → List Char → Except ε β} (hp : Stays R p)
    : Stays R (p.valued value) := by
  intro b hb
  simp only [Parser.valued]
  split <;> next hrun => exact hp.run hb hrun

theorem Stays.loop [Inhabited ε] {σ : Type} {step : σ → Parser ε (Step σ α)} (hstep : ∀ s, Stays R (step s)) (s : σ)
    : Stays R (loop step s) := by
  have hgo : ∀ fuel s, Stays R (loop.go step fuel s) := by
    intro fuel
    induction fuel with
    | zero =>
      intro s
      exact stays_fail _
    | succ fuel ih =>
      intro s
      refine (hstep s).andThen fun next => ?_
      cases next with
      | done a => exact stays_succeed a
      | again s' => exact ih s'
  exact fun b hb => hgo (b.rest.length + 1) s b hb

/--
This text is ahead, and none of these characters before it.
-/
def Ahead (bad : List Char) (rest : List Char) (b : Buffer) : Prop :=
  ∃ pre, b.rest = pre ++ rest ∧ ∀ c ∈ pre, c ∉ bad

variable {bad rest : List Char} {stop : Char}

theorem ahead_head {b : Buffer} (h : Ahead bad (stop :: rest) b) {c : Char} {rest' : List Char}
    (hrest : b.rest = c :: rest') (hc : c ∈ bad) : c = stop ∧ rest' = rest := by
  obtain ⟨pre, heq, hpre⟩ := h
  cases pre with
  | nil =>
    rw [heq, List.nil_append, List.cons.injEq] at hrest
    exact ⟨hrest.1.symm, hrest.2.symm⟩
  | cons d pre =>
    rw [heq, List.cons_append, List.cons.injEq] at hrest
    rw [List.forall_mem_cons, hrest.1] at hpre
    exact absurd hc hpre.1

theorem stays_shiftIf {test : Char → Bool} (h : test stop = false)
    : Stays (Ahead bad (stop :: rest)) (shiftIf test : Parser ε Bool) := by
  rintro ⟨offset, _⟩ ⟨pre, rfl, hpre⟩
  cases pre with
  | nil => simpa [shiftIf, h] using ⟨[], rfl, hpre⟩
  | cons c pre =>
    rw [List.forall_mem_cons] at hpre
    by_cases hc : test c = true
    . simpa [shiftIf, hc] using ⟨pre, rfl, hpre.2⟩
    . simpa [shiftIf, hc] using ⟨c :: pre, rfl, List.forall_mem_cons.mpr hpre⟩

theorem stays_shiftWhile {test : Char → Bool} (h : test stop = false)
    : Stays (Ahead bad (stop :: rest)) (shiftWhile test : Parser ε Unit) := by
  rintro ⟨offset, _⟩ ⟨pre, rfl, hpre⟩
  refine ⟨pre.dropWhile test, ?_, ?_⟩
  . simp only [shiftWhile]
    rw [List.dropWhile_append]
    split
    . next hnil =>
      rw [List.isEmpty_iff.mp hnil, List.dropWhile_cons_of_neg (by simp [h])]
      rfl
    . rfl
  . intro c hc
    exact hpre c ((List.dropWhile_suffix test).subset hc)

theorem stays_literal {word : List Char} (h : stop ∉ word)
    : Stays (Ahead bad (stop :: rest)) (literal word : Parser ε Bool) := by
  rintro ⟨offset, _⟩ ⟨pre, rfl, hpre⟩
  simp only [literal]
  split
  . next hword =>
    rw [List.isPrefixOf_iff_prefix] at hword
    obtain ⟨tail, rfl⟩ : word <+: pre := by
      rcases List.prefix_or_prefix_of_prefix hword (List.prefix_append pre (stop :: rest)) with hle | hle
      . exact hle
      . -- a word that is longer than what is before the text would have its first character in it
        obtain ⟨tail, rfl⟩ := hle
        cases tail with
        | nil => simp
        | cons c tail =>
          rw [List.prefix_append_right_inj, List.cons_prefix_cons] at hword
          rw [hword.1] at h
          simp at h
    refine ⟨tail, ?_, fun c hc => hpre c (List.mem_append_right _ hc)⟩
    simp
  . exact ⟨pre, rfl, hpre⟩

end Gremlin.Text.Parser
