import Mathlib.Data.List.Basic

/-!
This module contains the theory of decoders that read one value off the front of their input. The
results are about any alphabet and any error type: what a decoder accepts is decided by the prefix
it consumes, so what follows that prefix may be replaced at will.
-/

namespace Codec

variable {β ε α γ : Type}

/--
A decoder reads a value off the front of its input and reports how many symbols the value took.
-/
abbrev Decoder (β ε α : Type) := List β → Except ε (α × Nat)

namespace Decoder

def pure (a : α) : Decoder β ε α :=
  fun _ => .ok (a, 0)

def fail (e : ε) : Decoder β ε α :=
  fun _ => .error e

/--
Read the next `n` symbols as they are.
-/
def take (n : Nat) (short : ε) : Decoder β ε (List β) :=
  fun bs => if bs.length < n then .error short else .ok (bs.take n, n)

/--
Read a value and then, from what follows it, a second one that may depend on the first.
-/
def bind (d : Decoder β ε α) (f : α → Decoder β ε γ) : Decoder β ε γ :=
  fun bs =>
    match d bs with
    | .error e => .error e
    | .ok (a, n) =>
      match f a (bs.drop n) with
      | .error e => .error e
      | .ok (c, m) => .ok (c, n + m)

def map (f : α → γ) (d : Decoder β ε α) : Decoder β ε γ :=
  d.bind fun a => pure (f a)

def mapError {ε' : Type} (f : ε → ε') (d : Decoder β ε α) : Decoder β ε' α :=
  fun bs => (d bs).mapError f

@[simp]
theorem pure_eq_ok_iff {a b : α} {bs : List β} {n : Nat}
    : (pure a : Decoder β ε α) bs = .ok (b, n) ↔ a = b ∧ n = 0 := by
  simp only [pure, Except.ok.injEq, Prod.mk.injEq]
  constructor <;> (rintro ⟨rfl, rfl⟩; exact ⟨rfl, rfl⟩)

@[simp]
theorem fail_ne_ok {e : ε} {bs : List β} {x : α × Nat} : (fail e : Decoder β ε α) bs ≠ .ok x := by
  simp [fail]

theorem take_eq_ok_iff {n m : Nat} {short : ε} {bs cs : List β}
    : take n short bs = .ok (cs, m) ↔ n ≤ bs.length ∧ cs = bs.take n ∧ m = n := by
  unfold take
  split
  . next h =>
    simp only [reduceCtorEq, false_iff]
    omega
  . next h =>
    simp only [Except.ok.injEq, Prod.mk.injEq]
    constructor
    . rintro ⟨rfl, rfl⟩
      exact ⟨by omega, rfl, rfl⟩
    . rintro ⟨-, rfl, rfl⟩
      exact ⟨rfl, rfl⟩

theorem bind_of_error {d : Decoder β ε α} {f : α → Decoder β ε γ} {bs : List β} {e : ε}
    (h : d bs = .error e)
    : d.bind f bs = .error e := by
  simp [bind, h]

theorem bind_eq_ok_iff {d : Decoder β ε α} {f : α → Decoder β ε γ} {bs : List β} {c : γ} {k : Nat}
    : d.bind f bs = .ok (c, k)
        ↔
      ∃ a n m, d bs = .ok (a, n) ∧ f a (bs.drop n) = .ok (c, m) ∧ k = n + m := by
  unfold bind
  constructor
  . intro h
    split at h
    . simp at h
    . next a n hd =>
      split at h
      . simp at h
      . next c' m hf =>
        simp only [Except.ok.injEq, Prod.mk.injEq] at h
        obtain ⟨rfl, rfl⟩ := h
        exact ⟨a, n, m, hd, hf, rfl⟩
  . rintro ⟨a, n, m, hd, hf, rfl⟩
    simp [hd, hf]

theorem map_eq_ok_iff {d : Decoder β ε α} {f : α → γ} {bs : List β} {c : γ} {n : Nat}
    : d.map f bs = .ok (c, n) ↔ ∃ a, d bs = .ok (a, n) ∧ f a = c := by
  unfold map
  rw [bind_eq_ok_iff]
  constructor
  . rintro ⟨a, n, m, hd, hf, rfl⟩
    rw [pure_eq_ok_iff] at hf
    obtain ⟨rfl, rfl⟩ := hf
    exact ⟨a, hd, rfl⟩
  . rintro ⟨a, hd, rfl⟩
    exact ⟨a, n, 0, hd, by simp, rfl⟩

theorem map_id (d : Decoder β ε α) : d.map (fun a => a) = d := by
  funext bs
  simp only [map, bind, pure]
  split
  . next h => rw [h]
  . next h => rw [h]; simp

theorem map_congr {d : Decoder β ε α} {f : α → γ} {bs cs : List β} (h : d bs = d cs)
    : d.map f bs = d.map f cs := by
  simp only [map, bind, pure, h]

theorem mapError_eq_ok_iff {ε' : Type} {f : ε → ε'} {d : Decoder β ε α} {bs : List β} {x : α × Nat}
    : d.mapError f bs = .ok x ↔ d bs = .ok x := by
  unfold mapError
  cases d bs <;> simp [Except.mapError]

end Decoder

/--
What a decoder accepts is a prefix of its input, and the decision depends on that prefix only.
-/
class LawfulDecoder (d : Decoder β ε α) : Prop where
  consumed_le : ∀ {bs : List β} {a : α} {n : Nat}, d bs = .ok (a, n) → n ≤ bs.length
  stable : ∀ {bs : List β} {a : α} {n : Nat},
    d bs = .ok (a, n) → ∀ tail, d (bs.take n ++ tail) = .ok (a, n)

namespace LawfulDecoder

theorem append (d : Decoder β ε α) [LawfulDecoder d] {bs : List β} {a : α} {n : Nat}
    (h : d bs = .ok (a, n)) (tail : List β)
    : d (bs ++ tail) = .ok (a, n) := by
  have := stable h (bs.drop n ++ tail)
  rwa [← List.append_assoc, List.take_append_drop] at this

theorem take (d : Decoder β ε α) [LawfulDecoder d] {bs : List β} {a : α} {n : Nat}
    (h : d bs = .ok (a, n))
    : d (bs.take n) = .ok (a, n) := by
  have := stable h []
  rwa [List.append_nil] at this

theorem congr_take (d : Decoder β ε α) [LawfulDecoder d] {bs cs : List β} {a : α} {n : Nat}
    (h : d bs = .ok (a, n)) (heq : cs.take n = bs.take n)
    : d cs = .ok (a, n) := by
  have := stable h (cs.drop n)
  rwa [← heq, List.take_append_drop] at this

instance pure (a : α) : LawfulDecoder (Decoder.pure a : Decoder β ε α) where
  consumed_le h := by
    rw [Decoder.pure_eq_ok_iff] at h
    omega
  stable h tail := by
    rw [Decoder.pure_eq_ok_iff] at h ⊢
    exact h

instance fail (e : ε) : LawfulDecoder (Decoder.fail e : Decoder β ε α) where
  consumed_le h := by simp at h
  stable h := by simp at h

instance takeN (n : Nat) (short : ε) : LawfulDecoder (Decoder.take n short : Decoder β ε _) where
  consumed_le h := by
    rw [Decoder.take_eq_ok_iff] at h
    omega
  stable h tail := by
    rw [Decoder.take_eq_ok_iff] at h ⊢
    obtain ⟨hle, rfl, rfl⟩ := h
    refine ⟨by simp; omega, ?_, rfl⟩
    rw [List.take_append_of_le_length (by simp; omega), List.take_take, Nat.min_self]

instance bind (d : Decoder β ε α) (f : α → Decoder β ε γ) [LawfulDecoder d]
    [∀ a, LawfulDecoder (f a)]
    : LawfulDecoder (d.bind f) where
  consumed_le h := by
    rw [Decoder.bind_eq_ok_iff] at h
    obtain ⟨a, n, m, hd, hf, rfl⟩ := h
    have hn := consumed_le hd
    have hm := consumed_le hf
    rw [List.length_drop] at hm
    omega
  stable {bs c k} h tail := by
    rw [Decoder.bind_eq_ok_iff] at h ⊢
    obtain ⟨a, n, m, hd, hf, rfl⟩ := h
    have hn := consumed_le hd
    have hm := consumed_le hf
    refine ⟨a, n, m, ?_, ?_, rfl⟩
    . apply congr_take d hd
      rw [List.take_append_of_le_length (by simp; omega), List.take_take]
      congr 1
      omega
    . apply congr_take (f a) hf
      rw [List.drop_append_of_le_length (by simp; omega), List.drop_take]
      rw [List.take_append_of_le_length (by simp at hm ⊢; omega), List.take_take]
      congr 1
      omega

instance map (f : α → γ) (d : Decoder β ε α) [LawfulDecoder d] : LawfulDecoder (d.map f) :=
  bind d _

instance mapError {ε' : Type} (f : ε → ε') (d : Decoder β ε α) [LawfulDecoder d]
    : LawfulDecoder (d.mapError f) where
  consumed_le h := by
    rw [Decoder.mapError_eq_ok_iff] at h
    exact consumed_le h
  stable h tail := by
    rw [Decoder.mapError_eq_ok_iff] at h ⊢
    exact stable h tail

end LawfulDecoder

/--
The input is a sequence of whole values, one after the other up to its end.
-/
inductive Decoder.Parses (d : Decoder β ε α) : List β → List α → Prop where
  | nil : d.Parses [] []
  | cons {bs : List β} {a : α} {n : Nat} {as : List α} (hne : bs ≠ []) (hd : d bs = .ok (a, n))
      (htail : d.Parses (bs.drop n) as) : d.Parses bs (a :: as)

namespace Decoder.Parses

variable {d : Decoder β ε α}

theorem unique {bs : List β} {as cs : List α} (h : d.Parses bs as) (h' : d.Parses bs cs)
    : as = cs := by
  induction h generalizing cs with
  | nil =>
    cases h' with
    | nil => rfl
    | cons hne => exact absurd rfl hne
  | cons hne hd _ ih =>
    cases h' with
    | nil => exact absurd rfl hne
    | cons _ hd' htail =>
      rw [hd] at hd'
      simp only [Except.ok.injEq, Prod.mk.injEq] at hd'
      obtain ⟨rfl, rfl⟩ := hd'
      rw [ih htail]

theorem singleton [LawfulDecoder d] {bs : List β} {a : α} (hne : bs ≠ [])
    (hd : d bs = .ok (a, bs.length))
    : d.Parses bs [a] := by
  apply cons hne hd
  rw [List.drop_length]
  exact nil

theorem append [LawfulDecoder d] {bs cs : List β} {as as' : List α} (h : d.Parses bs as)
    (h' : d.Parses cs as')
    : d.Parses (bs ++ cs) (as ++ as') := by
  induction h with
  | nil => exact h'
  | cons hne hd _ ih =>
    have hle := LawfulDecoder.consumed_le hd
    apply cons
    . simp [hne]
    . exact LawfulDecoder.append d hd cs
    . rwa [List.drop_append_of_le_length hle]

/--
A sequence of codes, each of which reads as one value, reads as the sequence of these values.
-/
theorem flatMap [LawfulDecoder d] {code : α → List β} {as : List α}
    (h : ∀ a ∈ as, code a ≠ [] ∧ d (code a) = .ok (a, (code a).length))
    : d.Parses (as.flatMap code) as := by
  induction as with
  | nil => exact nil
  | cons a as ih =>
    rw [List.flatMap_cons]
    obtain ⟨hne, hd⟩ := h a (by simp)
    apply append (singleton hne hd)
    apply ih
    intro b hb
    exact h b (by simp [hb])

end Decoder.Parses

end Codec
