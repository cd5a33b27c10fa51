import Gremlin.Codec.Emit

/-!
This module contains programs over a state that refine programs over another state: whatever the abstract
program returns, the concrete one returns as well. A concrete program may read its state again where the
abstract one holds a value.
-/

namespace Gremlin.Machine

open Codec

variable {σ τ α β γ : Type}

/-! Programs. -/

def reads (r : σ → γ) : StateT σ Option γ :=
  fun s => some (r s, s)

/--
`for (size_t i = 0; i < count; i++)`. The count is read again before every turn.
-/
def loop (count : σ → Nat) (body : Nat → α → StateT σ Option α) : (fuel i : Nat) → α → StateT σ Option α
  | 0, _, _ => failure
  | fuel + 1, i, x => fun s =>
    if i < count s then
      (body i x >>= fun x => loop count body fuel (i + 1) x) s
    else
      some (x, s)

theorem bind_run (m : StateT σ Option α) (f : α → StateT σ Option β) (s : σ)
    : (m >>= f) s = (m s).bind fun p => f p.1 p.2 :=
  rfl

theorem bind_eq_some_iff {m : StateT σ Option α} {f : α → StateT σ Option β} {s : σ} {y : β × σ}
    : (m >>= f) s = some y ↔ ∃ x s', m s = some (x, s') ∧ f x s' = some y := by
  simp only [bind_run, Option.bind_eq_some_iff, Prod.exists]

/-! Refinement. -/

def Refines (R : σ → τ → Prop) (m : StateT σ Option α) (m' : StateT τ Option α) : Prop :=
  ∀ s t, R s t → ∀ x t', m' t = some (x, t') → ∃ s', m s = some (x, s') ∧ R s' t'

namespace Refines

variable {R : σ → τ → Prop}

theorem pure (x : α) : Refines R (pure x) (pure x) := by
  intro s t hR y t' hrun
  cases hrun
  exact ⟨s, rfl, hR⟩

theorem bind {m : StateT σ Option α} {m' : StateT τ Option α} {f : α → StateT σ Option β}
    {f' : α → StateT τ Option β} (hm : Refines R m m') (hf : ∀ x, Refines R (f x) (f' x))
    : Refines R (m >>= f) (m' >>= f') := by
  intro s t hR y t' hrun
  obtain ⟨x, t₁, hm', hf'⟩ := bind_eq_some_iff.mp hrun
  obtain ⟨s₁, hrun₁, hR₁⟩ := hm s t hR x t₁ hm'
  obtain ⟨s₂, hrun₂, hR₂⟩ := hf x s₁ t₁ hR₁ y t' hf'
  exact ⟨s₂, bind_eq_some_iff.mpr ⟨x, s₁, hrun₁, hrun₂⟩, hR₂⟩

/--
A value that is read from the state is the one that the abstract program holds.
-/
theorem reads {r : σ → α} {v : α} (hr : ∀ s t, R s t → r s = v) : Refines R (reads r) (Pure.pure v) := by
  intro s t hR x t' hrun
  cases hrun
  exact ⟨s, by rw [Machine.reads, hr s t hR], hR⟩

theorem reads_bind {r : σ → γ} {v : γ} {f : γ → StateT σ Option α} {m' : StateT τ Option α}
    (hr : ∀ s t, R s t → r s = v) (hf : Refines R (f v) m') : Refines R (Machine.reads r >>= f) m' := by
  intro s t hR x t' hrun
  obtain ⟨s', hrun', hR'⟩ := hf s t hR x t' hrun
  refine ⟨s', ?_, hR'⟩
  rw [bind_run, Machine.reads, Option.bind_some, hr s t hR, hrun']

theorem foldlM {xs : List γ} {f : α → γ → StateT σ Option α} {f' : α → γ → StateT τ Option α}
    (h : ∀ y ∈ xs, ∀ x, Refines R (f x y) (f' x y)) (x : α) : Refines R (xs.foldlM f x) (xs.foldlM f' x) := by
  induction xs generalizing x with
  | nil => exact pure x
  | cons y ys ih =>
    simp only [List.foldlM_cons]
    apply bind
    . exact h y List.mem_cons_self x
    . intro x
      exact ih (fun z hz => h z (List.mem_cons_of_mem y hz)) x

/--
A loop whose count is the length of a list, and whose turns do what is done for its elements.
-/
theorem loop {count : σ → Nat} {body : Nat → α → StateT σ Option α} {xs : List γ}
    {step : α → γ → StateT τ Option α} (hcount : ∀ s t, R s t → count s = xs.length)
    (hbody : ∀ i (h : i < xs.length) x, Refines R (body i x) (step x xs[i])) {fuel : Nat}
    (hfuel : xs.length < fuel) (x : α) : Refines R (loop count body fuel 0 x) (xs.foldlM step x) := by
  have hgeneral : ∀ n i fuel x, n = xs.length - i → i ≤ xs.length → n < fuel
      → Refines R (Machine.loop count body fuel i x) ((xs.drop i).foldlM step x) := by
    intro n
    induction n with
    | zero =>
      intro i fuel x hn hi hfuel
      obtain ⟨fuel, rfl⟩ : ∃ k, fuel = k + 1 := ⟨fuel - 1, by omega⟩
      rw [List.drop_of_length_le (by omega), List.foldlM_nil]
      intro s t hR y t' hrun
      obtain ⟨s', hrun', hR'⟩ := pure (R := R) x s t hR y t' hrun
      refine ⟨s', ?_, hR'⟩
      have hdone : ¬i < count s := by
        rw [hcount s t hR]
        omega
      simp only [Machine.loop, if_neg hdone]
      exact hrun'
    | succ n ih =>
      intro i fuel x hn hi hfuel
      obtain ⟨fuel, rfl⟩ : ∃ k, fuel = k + 1 := ⟨fuel - 1, by omega⟩
      have hlt : i < xs.length := by omega
      rw [List.drop_eq_getElem_cons hlt, List.foldlM_cons]
      intro s t hR y t' hrun
      have hturn : Refines R (body i x >>= fun x => Machine.loop count body fuel (i + 1) x) _ :=
        bind (hbody i hlt x) fun x => ih (i + 1) fuel x (by omega) (by omega) (by omega)
      obtain ⟨s', hrun', hR'⟩ := hturn s t hR y t' hrun
      refine ⟨s', ?_, hR'⟩
      have hturn : i < count s := by
        rw [hcount s t hR]
        exact hlt
      simp only [Machine.loop, if_pos hturn]
      exact hrun'
  have := hgeneral xs.length 0 fuel x (by omega) (by omega) hfuel
  rwa [List.drop_zero] at this

end Refines

/-! Refinement of emitters. -/

/--
The refinement of an emitter from an offset on, as long as the abstract one does not go beyond an end.
-/
structure RefinesWithin (lo hi : Nat) (R : σ → τ → Prop) (f : Emitter σ) (f' : Emitter τ) : Prop where
  advances : ∀ off t off' t', f' off t = some (off', t') → off ≤ off'
  refines : ∀ off s t, lo ≤ off → R s t → ∀ off' t', f' off t = some (off', t') → off' ≤ hi
    → ∃ s', f off s = some (off', s') ∧ R s' t'

namespace RefinesWithin

variable {lo hi : Nat} {R : σ → τ → Prop}

theorem skip : RefinesWithin lo hi R (fun off => pure off) (fun off => pure off) where
  advances := by
    intro off t off' t' hrun
    cases hrun
    exact Nat.le_refl _
  refines := by
    intro off s t _ hR off' t' hrun _
    cases hrun
    exact ⟨s, rfl, hR⟩

theorem bind {f g : Emitter σ} {f' g' : Emitter τ} (hf : RefinesWithin lo hi R f f')
    (hg : RefinesWithin lo hi R g g') : RefinesWithin lo hi R (fun off => f off >>= g) (fun off => f' off >>= g') where
  advances := by
    intro off t off' t' hrun
    obtain ⟨off₁, t₁, hf', hg'⟩ := bind_eq_some_iff.mp hrun
    exact Nat.le_trans (hf.advances off t off₁ t₁ hf') (hg.advances off₁ t₁ off' t' hg')
  refines := by
    intro off s t hlo hR off' t' hrun hhi
    obtain ⟨off₁, t₁, hf', hg'⟩ := bind_eq_some_iff.mp hrun
    have hle := hf.advances off t off₁ t₁ hf'
    have hle' := hg.advances off₁ t₁ off' t' hg'
    obtain ⟨s₁, hrun₁, hR₁⟩ := hf.refines off s t hlo hR off₁ t₁ hf' (by omega)
    obtain ⟨s₂, hrun₂, hR₂⟩ := hg.refines off₁ s₁ t₁ (by omega) hR₁ off' t' hg' hhi
    exact ⟨s₂, bind_eq_some_iff.mpr ⟨off₁, s₁, hrun₁, hrun₂⟩, hR₂⟩

theorem ite {c : Prop} [Decidable c] {f g : Emitter σ} {f' g' : Emitter τ} (hf : RefinesWithin lo hi R f f')
    (hg : RefinesWithin lo hi R g g')
    : RefinesWithin lo hi R (fun off => if c then f off else g off) (fun off => if c then f' off else g' off) := by
  by_cases hc : c
  . simp only [if_pos hc]
    exact hf
  . simp only [if_neg hc]
    exact hg

/--
A program that returns a value, and emitters that take it.
-/
theorem bind_state {m : StateT σ Option γ} {m' : StateT τ Option γ} {f : γ → Emitter σ} {f' : γ → Emitter τ}
    (hm : Refines R m m') (hf : ∀ v, RefinesWithin lo hi R (f v) (f' v))
    : RefinesWithin lo hi R (fun off => m >>= fun v => f v off) (fun off => m' >>= fun v => f' v off) where
  advances := by
    intro off t off' t' hrun
    obtain ⟨v, t₁, -, hf'⟩ := bind_eq_some_iff.mp hrun
    exact (hf v).advances off t₁ off' t' hf'
  refines := by
    intro off s t hlo hR off' t' hrun hhi
    obtain ⟨v, t₁, hm', hf'⟩ := bind_eq_some_iff.mp hrun
    obtain ⟨s₁, hrun₁, hR₁⟩ := hm s t hR v t₁ hm'
    obtain ⟨s₂, hrun₂, hR₂⟩ := (hf v).refines off s₁ t₁ hlo hR₁ off' t' hf' hhi
    exact ⟨s₂, bind_eq_some_iff.mpr ⟨v, s₁, hrun₁, hrun₂⟩, hR₂⟩

/--
A value that is read from the state is the one that the abstract program holds, or that it reads.
-/
theorem reads_bind {r : σ → γ} {r' : τ → γ} {f : γ → Emitter σ} {f' : γ → Emitter τ}
    (hr : ∀ s t, R s t → r s = r' t) (hf : ∀ v, RefinesWithin lo hi R (f v) (f' v))
    : RefinesWithin lo hi R (fun off => reads r >>= fun v => f v off)
        (fun off => reads r' >>= fun v => f' v off) := by
  apply bind_state _ hf
  intro s t hR v t' hrun
  cases hrun
  exact ⟨s, by rw [reads, hr s t hR], hR⟩

theorem reads_const {r : σ → γ} {v : γ} {f : γ → Emitter σ} {f' : Emitter τ} (hr : ∀ s t, R s t → r s = v)
    (hf : RefinesWithin lo hi R (f v) f') : RefinesWithin lo hi R (fun off => reads r >>= fun v => f v off) f' where
  advances := hf.advances
  refines := by
    intro off s t hlo hR off' t' hrun hhi
    obtain ⟨s', hrun', hR'⟩ := hf.refines off s t hlo hR off' t' hrun hhi
    refine ⟨s', ?_, hR'⟩
    rw [bind_run, reads, Option.bind_some, hr s t hR, hrun']

theorem foldlM {xs : List γ} {f : γ → Emitter σ} {f' : γ → Emitter τ}
    (h : ∀ x ∈ xs, RefinesWithin lo hi R (f x) (f' x))
    : RefinesWithin lo hi R (fun off => xs.foldlM (fun off x => f x off) off)
        (fun off => xs.foldlM (fun off x => f' x off) off) := by
  induction xs with
  | nil => exact skip
  | cons x xs ih =>
    simp only [List.foldlM_cons]
    apply bind
    . exact h x List.mem_cons_self
    . exact ih fun y hy => h y (List.mem_cons_of_mem x hy)

/--
A loop whose count is the length of a list, and whose turns emit what is emitted for its elements.
-/
theorem loop {count : σ → Nat} {body : Nat → Emitter σ} {xs : List γ} {step : γ → Emitter τ}
    (hcount : ∀ s t, R s t → count s = xs.length)
    (hbody : ∀ i (h : i < xs.length), RefinesWithin lo hi R (body i) (step xs[i])) {fuel : Nat}
    (hfuel : xs.length < fuel)
    : RefinesWithin lo hi R (Machine.loop count body fuel 0) (fun off => xs.foldlM (fun off x => step x off) off) := by
  have hgeneral : ∀ n i fuel, n = xs.length - i → i ≤ xs.length → n < fuel
      → RefinesWithin lo hi R (Machine.loop count body fuel i)
          (fun off => (xs.drop i).foldlM (fun off x => step x off) off) := by
    intro n
    induction n with
    | zero =>
      intro i fuel hn hle hfuel
      obtain ⟨fuel, rfl⟩ : ∃ k, fuel = k + 1 := ⟨fuel - 1, by omega⟩
      rw [List.drop_of_length_le (by omega)]
      have hskip : RefinesWithin lo hi R (fun off => pure off) (fun off => pure off) := skip
      constructor
      . exact hskip.advances
      . intro off s t hlo hR off' t' hrun hhi
        obtain ⟨s', hrun', hR'⟩ := hskip.refines off s t hlo hR off' t' hrun hhi
        refine ⟨s', ?_, hR'⟩
        have hdone : ¬i < count s := by
          rw [hcount s t hR]
          omega
        simp only [Machine.loop, if_neg hdone]
        exact hrun'
    | succ n ih =>
      intro i fuel hn hle hfuel
      obtain ⟨fuel, rfl⟩ : ∃ k, fuel = k + 1 := ⟨fuel - 1, by omega⟩
      have hlt : i < xs.length := by omega
      rw [List.drop_eq_getElem_cons hlt]
      have hturn := (hbody i hlt).bind (ih (i + 1) fuel (by omega) (by omega) (by omega))
      constructor
      . exact hturn.advances
      . intro off s t hlo hR off' t' hrun hhi
        obtain ⟨s', hrun', hR'⟩ := hturn.refines off s t hlo hR off' t' hrun hhi
        refine ⟨s', ?_, hR'⟩
        have hmore : i < count s := by
          rw [hcount s t hR]
          exact hlt
        simp only [Machine.loop, if_pos hmore]
        exact hrun'
  have := hgeneral xs.length 0 fuel (by omega) (by omega) hfuel
  rwa [List.drop_zero] at this

end RefinesWithin

end Gremlin.Machine
