import Gremlin.Parser.Progress

/-!
This module contains the loop that every walk over a body is: take the next entry until there is
none.
-/

namespace Gremlin

open Text Parser

/--
Why a walk does not end well. The last three are no errors of the code: it would go on with what it
must not.
-/
inductive Stop where
  | error (e : ParsingError)
  | overrun
  | unwritten
  | unfinished
  deriving DecidableEq, Repr

/--
Whether nothing but spaces is left. The error of `skip_spaces` is not looked at.
-/
def atEof (buf : Buffer) : Bool :=
  (skipSpaces.run buf).2.rest.isEmpty

variable {α β σ : Type}

def walk (next : EntryParser α) (act : σ → α → Except Stop σ) (buf : Buffer) (s : σ)
    : Except Stop σ :=
  go (buf.rest.length + 1) buf s
where
  go : Nat → Buffer → σ → Except Stop σ
    | 0, _, _ => .error .unfinished
    | fuel + 1, buf, s =>
      match next.run buf with
      | (.error e, buf') => if atEof buf' then .ok s else .error (.error e)
      | (.ok a, buf') => do
        let s ← act s a
        go fuel buf' s

/--
The entries that a walk takes, and the error behind them unless that is the end.
-/
def entries (next : EntryParser α) (buf : Buffer) : List α × Option ParsingError :=
  go (buf.rest.length + 1) buf
where
  go : Nat → Buffer → List α × Option ParsingError
    | 0, _ => ([], none)
    | fuel + 1, buf =>
      match next.run buf with
      | (.error e, buf') => ([], if atEof buf' then none else some e)
      | (.ok a, buf') => (a :: (go fuel buf').1, (go fuel buf').2)

def ending (e : Option ParsingError) (s : σ) : Except Stop σ :=
  match e with
  | none => .ok s
  | some e => .error (.error e)

theorem walk_go_eq {next : EntryParser α} (hnext : Eager next) (act : σ → α → Except Stop σ)
    {fuel : Nat} {buf : Buffer} (h : buf.rest.length < fuel) (s : σ)
    : walk.go next act fuel buf s
        = (entries.go next fuel buf).1.foldlM act s >>= ending (entries.go next fuel buf).2 := by
  induction fuel generalizing buf s with
  | zero => omega
  | succ fuel ih =>
    rw [walk.go, entries.go]
    rcases hrun : next.run buf with ⟨e | a, buf'⟩
    . dsimp only
      split <;> rfl
    . have := hnext _ _ _ hrun
      dsimp only
      rw [List.foldlM_cons, bind_assoc]
      congr 1
      funext s'
      exact ih (by omega) s'

theorem walk_eq {next : EntryParser α} (hnext : Eager next) (act : σ → α → Except Stop σ)
    (buf : Buffer) (s : σ)
    : walk next act buf s = (entries next buf).1.foldlM act s >>= ending (entries next buf).2 :=
  walk_go_eq hnext act (by omega) s

theorem entries_go_mem {next : EntryParser α} {Q : Buffer → α → Prop} (hnext : Ensures next Q)
    (hQ : Backward Q) {fuel : Nat} {buf : Buffer} {a : α}
    (h : a ∈ (entries.go next fuel buf).1) : Q buf a := by
  induction fuel generalizing buf with
  | zero => simp [entries.go] at h
  | succ fuel ih =>
    rw [entries.go] at h
    rcases hrun : next.run buf with ⟨e | a', buf'⟩
    . simp [hrun] at h
    . simp only [hrun, List.mem_cons] at h
      rcases h with rfl | h
      . exact hnext _ _ _ hrun
      . exact hQ _ _ _ (advances hrun) (ih h)

theorem entries_mem {next : EntryParser α} {Q : Buffer → α → Prop} (hnext : Ensures next Q)
    (hQ : Backward Q) {buf : Buffer} {a : α} (h : a ∈ (entries next buf).1) : Q buf a :=
  entries_go_mem hnext hQ h

/--
Either a result with this property or an error of the parser.
-/
def Regular {α : Type} (P : α → Prop) : Except Stop α → Prop
  | .ok a => P a
  | .error (.error _) => True
  | .error _ => False

theorem Regular.bind {P : α → Prop} {Q : β → Prop} {x : Except Stop α} {f : α → Except Stop β}
    (hx : Regular P x) (hf : ∀ a, P a → Regular Q (f a)) : Regular Q (x >>= f) := by
  rcases x with e | a
  . cases e with
    | error e => trivial
    | overrun => exact hx.elim
    | unwritten => exact hx.elim
    | unfinished => exact hx.elim
  . exact hf a hx

theorem Regular.imp {P Q : α → Prop} {x : Except Stop α} (hx : Regular P x) (h : ∀ a, P a → Q a)
    : Regular Q x := by
  rcases x with e | a
  . cases e with
    | error e => trivial
    | overrun => exact hx.elim
    | unwritten => exact hx.elim
    | unfinished => exact hx.elim
  . exact h a hx

theorem Regular.cases {P : α → Prop} {x : Except Stop α} (hx : Regular P x)
    : (∃ e, x = .error (.error e)) ∨ ∃ a, x = .ok a ∧ P a := by
  rcases x with e | a
  . cases e with
    | error e => exact .inl ⟨e, rfl⟩
    | overrun => exact hx.elim
    | unwritten => exact hx.elim
    | unfinished => exact hx.elim
  . exact .inr ⟨a, rfl, hx⟩

theorem regular_ending (e : Option ParsingError) (s : σ)
    : Regular (fun s' => s' = s ∧ e = none) (ending e s) := by
  cases e with
  | none => exact ⟨rfl, rfl⟩
  | some e => trivial

theorem walk_regular {next : EntryParser α} (hnext : Eager next) {act : σ → α → Except Stop σ}
    {buf : Buffer} {s : σ} {P : σ → Prop} (h : Regular P ((entries next buf).1.foldlM act s))
    : Regular (fun s' => P s' ∧ (entries next buf).2 = none) (walk next act buf s) := by
  rw [walk_eq hnext]
  refine h.bind fun s' hs' => (regular_ending _ s').imp ?_
  rintro _ ⟨rfl, hend⟩
  exact ⟨hs', hend⟩

end Gremlin
