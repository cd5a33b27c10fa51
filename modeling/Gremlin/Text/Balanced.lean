/-!
This module contains texts in which brackets match, whatever else they are made of.
-/

namespace Gremlin.Text

variable {α : Type} {left right : α} {Piece Piece' : List α → List α → Prop}

/--
A text in which every bracket has its partner. Besides the brackets it is made of pieces, and what a
piece is may depend on the text behind it.
-/
inductive Balanced (left right : α) (Piece : List α → List α → Prop) : List α → Prop where
  | nil : Balanced left right Piece []
  | piece {a rest : List α} (ha : Piece a rest) (hrest : Balanced left right Piece rest)
    : Balanced left right Piece (a ++ rest)
  | block {inner rest : List α} (hinner : Balanced left right Piece inner)
    (hrest : Balanced left right Piece rest) : Balanced left right Piece (left :: (inner ++ right :: rest))

/--
A text that ends with the bracket that closes the outermost of `n + 1` open ones.
-/
inductive Closes (left right : α) (Piece : List α → List α → Prop) : Nat → List α → Prop where
  | last {body : List α} (hbody : Balanced left right Piece body) : Closes left right Piece 0 (body ++ [right])
  | more {n : Nat} {body rest : List α} (hbody : Balanced left right Piece body)
    (hrest : Closes left right Piece n rest) : Closes left right Piece (n + 1) (body ++ right :: rest)

theorem Balanced.append_piece {a body : List α} (ha : ∀ rest, Piece a rest)
    (h : Balanced left right Piece body) : Balanced left right Piece (a ++ body) :=
  .piece (ha body) h

theorem Closes.piece {n : Nat} {a text : List α} (ha : ∀ rest, Piece a rest)
    (h : Closes left right Piece n text) : Closes left right Piece n (a ++ text) := by
  cases h with
  | last hbody =>
    rw [← List.append_assoc]
    exact .last (hbody.append_piece ha)
  | more hbody hrest =>
    rw [← List.append_assoc]
    exact .more (hbody.append_piece ha) hrest

theorem Closes.cons_left {n : Nat} {text : List α} (h : Closes left right Piece (n + 1) text)
    : Closes left right Piece n (left :: text) := by
  cases h with
  | @more _ inner _ hinner hrest =>
    cases hrest with
    | @last body hbody =>
      have := Closes.last (.block hinner hbody)
      simpa using this
    | @more _ body rest hbody hrest =>
      have := Closes.more (.block hinner hbody) hrest
      simpa using this

theorem Closes.cons_right {n : Nat} {text : List α} (h : Closes left right Piece n text)
    : Closes left right Piece (n + 1) (right :: text) :=
  .more .nil h

theorem closes_zero_iff {body : List α}
    : Closes left right Piece 0 (body ++ [right]) ↔ Balanced left right Piece body := by
  constructor
  . generalize heq : body ++ [right] = text
    intro h
    cases h with
    | last hbody =>
      rw [List.append_cancel_right heq]
      exact hbody
  . exact .last

theorem Balanced.imp {body : List α} (h : Balanced left right Piece body)
    (hpiece : ∀ a rest, Piece a rest → Balanced left right Piece' rest
      → Balanced left right Piece' (a ++ rest)) : Balanced left right Piece' body := by
  induction h with
  | nil => exact .nil
  | piece ha _ ih => exact hpiece _ _ ha ih
  | block _ _ ihinner ihrest => exact .block ihinner ihrest

end Gremlin.Text
