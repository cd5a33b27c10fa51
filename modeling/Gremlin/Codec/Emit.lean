import Mathlib.Data.List.GetD

/-!
This module contains the theory of programs that write bytes into a memory at a cursor. Such a
program takes the cursor by value and returns the advanced one; beside the memory it may change
other state, which is described by an invariant.
-/

namespace Codec

abbrev Mem := Nat → UInt8

namespace Mem

def set (mem : Mem) (off : Nat) (b : UInt8) : Mem :=
  fun i => if i = off then b else mem i

/--
The memory after `bs` has been stored from `off` on. Every other address keeps its byte.
-/
def write (mem : Mem) (off : Nat) (bs : List UInt8) : Mem :=
  fun i => if off ≤ i then bs.getD (i - off) (mem i) else mem i

/--
The `n` bytes from `off` on.
-/
def read (mem : Mem) (off n : Nat) : List UInt8 :=
  (List.range n).map fun i => mem (off + i)

@[simp]
theorem write_nil (mem : Mem) (off : Nat) : mem.write off [] = mem := by
  funext i
  simp [write]

theorem set_eq_write (mem : Mem) (off : Nat) (b : UInt8) : mem.set off b = mem.write off [b] := by
  funext i
  unfold set write
  by_cases hi : i = off
  . simp [hi]
  . by_cases hle : off ≤ i
    . rw [List.getD_eq_default _ _ (by simp only [List.length_singleton]; omega)]
      simp [hi]
    . simp [hi, hle]

theorem write_write (mem : Mem) (off : Nat) (as bs : List UInt8)
    : (mem.write off as).write (off + as.length) bs = mem.write off (as ++ bs) := by
  funext i
  unfold write
  by_cases hle : off ≤ i
  . by_cases hlt : i - off < as.length
    . have hnot : ¬off + as.length ≤ i := by omega
      simp only [hle, hnot, ↓reduceIte, List.getD_append _ _ _ _ hlt]
    . have hge : off + as.length ≤ i := by omega
      have hdefault : as.getD (i - off) (mem i) = mem i := by
        rw [List.getD_eq_default _ _ (by omega)]
      simp only [hle, hge, ↓reduceIte, hdefault]
      rw [List.getD_append_right _ _ _ _ (by omega)]
      congr 1
      omega
  . have hnot : ¬off + as.length ≤ i := by omega
    simp [hle, hnot]

theorem write_of_lt (mem : Mem) {off i : Nat} (bs : List UInt8) (hi : i < off)
    : mem.write off bs i = mem i := by
  have : ¬off ≤ i := by omega
  simp [write, this]

theorem write_of_le (mem : Mem) {off i : Nat} (bs : List UInt8) (hi : off + bs.length ≤ i)
    : mem.write off bs i = mem i := by
  unfold write
  split
  . rw [List.getD_eq_default _ _ (by omega)]
  . rfl

@[simp]
theorem read_write (mem : Mem) (off : Nat) (bs : List UInt8)
    : (mem.write off bs).read off bs.length = bs := by
  apply List.ext_getElem
  . simp [read]
  . intro i hi hi'
    simp [read, write]
    rw [List.getElem?_eq_getElem hi']
    rfl

end Mem

/--
A program over a state of type `σ` that takes a cursor and returns the advanced one, or does not
return.
-/
abbrev Emitter (σ : Type) := Nat → StateT σ Option Nat

variable {σ : Type}

/--
From every state with the invariant the emitter returns, has written exactly `bs` at the cursor,
has advanced the cursor past it and keeps the invariant.
-/
def Emits (mem : σ → Mem) (inv : σ → Prop) (f : Emitter σ) (bs : List UInt8) : Prop :=
  ∀ off s, inv s →
    ∃ s', f off s = some (off + bs.length, s') ∧ mem s' = (mem s).write off bs ∧ inv s'

namespace Emits

variable {mem : σ → Mem} {inv : σ → Prop}

theorem skip : Emits mem inv (fun off => pure off) [] := by
  intro off s hs
  exact ⟨s, rfl, by simp, hs⟩

theorem bind {f g : Emitter σ} {as bs : List UInt8} (hf : Emits mem inv f as)
    (hg : Emits mem inv g bs)
    : Emits mem inv (fun off => f off >>= g) (as ++ bs) := by
  intro off s hs
  obtain ⟨s₁, hrun₁, hmem₁, hs₁⟩ := hf off s hs
  obtain ⟨s₂, hrun₂, hmem₂, hs₂⟩ := hg (off + as.length) s₁ hs₁
  refine ⟨s₂, ?_, ?_, hs₂⟩
  . show (f off s).bind (fun p => g p.1 p.2) = _
    rw [hrun₁]
    simp only [Option.bind_some, hrun₂, List.length_append, Nat.add_assoc]
  . rw [hmem₂, hmem₁, Mem.write_write]

/--
An emitter for each element of a list, run in order, emits the concatenation.
-/
theorem foldlM {α : Type} {f : α → Emitter σ} {bytes : α → List UInt8} {xs : List α}
    (hf : ∀ x ∈ xs, Emits mem inv (f x) (bytes x))
    : Emits mem inv (fun off => xs.foldlM (fun off x => f x off) off) (xs.flatMap bytes) := by
  induction xs with
  | nil => exact skip
  | cons x xs ih =>
    simp only [List.foldlM_cons, List.flatMap_cons]
    apply bind
    . exact hf x (by simp)
    . apply ih
      intro y hy
      exact hf y (by simp [hy])

theorem congr {f g : Emitter σ} {bs : List UInt8} (hf : Emits mem inv f bs)
    (heq : ∀ off, f off = g off)
    : Emits mem inv g bs := by
  have : f = g := funext heq
  rwa [this] at hf

end Emits

end Codec
