import Gremlin.Schema

/-!
This module contains the records a message consists of on the wire.
-/

namespace Gremlin

open Codec

/--
A tag, the bytes it was read from or is written as, and the bytes of the data that follow it.
-/
structure Record where
  tag : BitVec 32
  head : List UInt8
  body : List UInt8
  deriving DecidableEq, Repr

namespace Record

def bytes (r : Record) : List UInt8 :=
  r.head ++ r.body

/--
The record that is written for a tag constant and data.
-/
def ofTag (tag : BitVec 32) (body : List UInt8) : Record where
  tag := tag
  head := varintBytes 9 tag.toNat
  body := body

def concat (rs : List Record) : List UInt8 :=
  rs.flatMap bytes

@[simp]
theorem concat_nil : concat [] = [] :=
  rfl

@[simp]
theorem concat_cons (r : Record) (rs : List Record) : concat (r :: rs) = r.bytes ++ concat rs :=
  rfl

@[simp]
theorem concat_append (rs rs' : List Record) : concat (rs ++ rs') = concat rs ++ concat rs' := by
  simp [concat]

theorem concat_flatMap {α : Type} (f : α → List Record) (xs : List α)
    : concat (xs.flatMap f) = xs.flatMap fun x => concat (f x) := by
  induction xs with
  | nil => rfl
  | cons x xs ih => simp [ih]

theorem concat_map {α : Type} (f : α → Record) (xs : List α)
    : concat (xs.map f) = xs.flatMap fun x => (f x).bytes := by
  simp [concat, List.flatMap_map]

theorem length_bytes_le {r : Record} {rs : List Record} (h : r ∈ rs)
    : r.bytes.length ≤ (concat rs).length := by
  induction rs with
  | nil => simp at h
  | cons r' rs ih =>
    rw [concat_cons, List.length_append]
    rw [List.mem_cons] at h
    rcases h with rfl | h
    . omega
    . have := ih h
      omega

@[simp]
theorem length_bytes (r : Record) : r.bytes.length = r.head.length + r.body.length := by
  simp [bytes]

end Record

end Gremlin
