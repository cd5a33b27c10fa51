import Gremlin.Descriptors.Arena

/-!
This module contains the blocks that an arena hands out in runs of calls, and when it has none.
-/

namespace Gremlin

open Memory

namespace Arena

/-! Blocks and their places. -/

/--
Chunk `i` has the block at `offset`, within its used part.
-/
def Holds (a : Arena) (i offset : Nat) (block : Region) : Prop :=
  ∃ c, a.chunks[i]? = some c ∧ block.base = c.base + offset ∧ align ∣ offset
    ∧ offset + block.size ≤ c.used

/--
The elementary steps: a new chunk, and a block at the end of the current one. The blocks are listed in the
order in which they are handed out.
-/
inductive Moves (a : Arena) : List Region → Arena → Prop where
  | done : Moves a [] a
  | push {blocks : List Region} {b : Arena} {region : Region} (moves : Moves a blocks b)
      (hfresh : b.Fresh region) (hlength : b.chunks.length < maxChunks)
      : Moves a blocks (b.push region)
  | bump {blocks : List Region} {b : Arena} {size : Nat} (moves : Moves a blocks b) (hfits : b.Fits size)
      : Moves a (blocks ++ [⟨b.top, size⟩]) (b.bump size)

section Moves

variable {a b c : Arena} {blocks later : List Region} {block region : Region} {i offset size : Nat}

theorem Moves.trans (h : Moves a blocks b) (h' : Moves b later c) : Moves a (blocks ++ later) c := by
  induction h' with
  | done => rwa [List.append_nil]
  | push _ hfresh hlength ih => exact .push ih hfresh hlength
  | bump _ hfits ih =>
    rw [← List.append_assoc]
    exact .bump ih hfits

theorem Moves.sound (h : Moves a blocks b) (ha : a.Sound) : b.Sound := by
  induction h with
  | done => exact ha
  | push _ hfresh hlength ih => exact ih.push hfresh hlength
  | bump _ hfits ih => exact ih.bump hfits

theorem Holds.push (h : a.Holds i offset block) : (a.push region).Holds i offset block := by
  obtain ⟨c, hc, hplace⟩ := h
  refine ⟨c, ?_, hplace⟩
  rw [chunks_push, List.getElem?_append_left (List.getElem?_eq_some_iff.mp hc).1]
  exact hc

theorem Holds.bump (h : a.Holds i offset block) (size : Nat) : (a.bump size).Holds i offset block := by
  obtain ⟨c, hc, hbase, haligned, hused⟩ := h
  by_cases hi : i < a.earlier.length
  . -- An earlier chunk is the same.
    refine ⟨c, ?_, hbase, haligned, hused⟩
    rw [chunks, List.getElem?_append_left hi] at hc
    rw [chunks_bump, List.getElem?_append_left hi]
    exact hc
  . -- The current chunk is used up further.
    have hcurrent : c = a.current ∧ i = a.earlier.length := by
      rw [chunks, List.getElem?_append_right (Nat.le_of_not_lt hi), List.getElem?_singleton] at hc
      split at hc
      . next hzero => exact ⟨(Option.some.inj hc).symm, by omega⟩
      . cases hc
    obtain ⟨rfl, rfl⟩ := hcurrent
    refine ⟨{ a.current with used := a.current.used + roundUp size }, ?_, hbase, haligned, ?_⟩
    . rw [chunks_bump, List.getElem?_concat_length]
    . dsimp only
      omega

theorem Moves.holds (h : Moves a blocks b) (hblock : a.Holds i offset block) : b.Holds i offset block := by
  induction h with
  | done => exact hblock
  | push _ _ _ ih => exact ih.push
  | bump _ _ ih => exact ih.bump _

theorem holds_top (h : a.Sound) (size : Nat)
    : (a.bump size).Holds a.earlier.length a.current.used ⟨a.top, size⟩ := by
  refine ⟨{ a.current with used := a.current.used + roundUp size }, ?_, rfl, h.aligned _ a.current_mem, ?_⟩
  . rw [chunks_bump, List.getElem?_concat_length]
  . exact Nat.add_le_add_left (le_roundUp size) _

theorem Holds.disjoint_top (h : a.Holds i offset block) (ha : a.Sound) (hfits : a.Fits size)
    : Disjoint block.addresses (⟨a.top, size⟩ : Region).addresses := by
  obtain ⟨c, hc, hbase, _, hused⟩ := h
  have hroom := hfits.2.2
  have hsize := le_roundUp size
  have hcurrent := ha.used_le _ a.current_mem
  have hle := ha.used_le c (List.mem_of_getElem? hc)
  by_cases hi : i < a.earlier.length
  . -- The chunks are disjoint.
    rw [chunks, List.getElem?_append_left hi] at hc
    have hdisjoint := ha.disjoint
    rw [chunks, List.map_append, List.pairwise_append] at hdisjoint
    have hapart := hdisjoint.2.2 c.region (List.mem_map_of_mem (List.mem_of_getElem? hc)) a.current.region
      (List.mem_singleton_self _)
    apply Region.disjoint_within hapart
    . exact ⟨by dsimp only [ArenaChunk.region]; omega, by dsimp only [ArenaChunk.region]; omega⟩
    . exact ⟨by dsimp only [ArenaChunk.region, top]; omega, by dsimp only [ArenaChunk.region, top]; omega⟩
  . -- In the current chunk itself, the block ends where the next one starts.
    apply Region.disjoint_of_le
    rw [chunks, List.getElem?_append_right (Nat.le_of_not_lt hi), List.getElem?_singleton] at hc
    split at hc
    . cases hc
      dsimp only [top]
      omega
    . cases hc

theorem Moves.held (h : Moves a blocks b) (ha : a.Sound) : ∀ block ∈ blocks, ∃ i offset, b.Holds i offset block := by
  induction h with
  | done => exact fun block hblock => nomatch hblock
  | push _ _ _ ih =>
    intro block hblock
    obtain ⟨i, offset, hholds⟩ := ih block hblock
    exact ⟨i, offset, hholds.push⟩
  | bump moves hfits ih =>
    rw [List.forall_mem_append, List.forall_mem_singleton]
    refine ⟨?_, _, _, holds_top (moves.sound ha) _⟩
    intro block hblock
    obtain ⟨i, offset, hholds⟩ := ih block hblock
    exact ⟨i, offset, hholds.bump _⟩

theorem Moves.disjoint (h : Moves a blocks b) (ha : a.Sound)
    : blocks.Pairwise fun r s => Disjoint r.addresses s.addresses := by
  induction h with
  | done => exact List.Pairwise.nil
  | push _ _ _ ih => exact ih
  | bump moves hfits ih =>
    rw [List.pairwise_append]
    refine ⟨ih, List.pairwise_singleton _ _, ?_⟩
    intro r hr s hs
    obtain rfl := List.mem_singleton.mp hs
    obtain ⟨i, offset, hholds⟩ := moves.held ha r hr
    exact hholds.disjoint_top (moves.sound ha) hfits

end Moves

end Arena

/-! Calls, and runs of them. -/

/--
A call, with what the growth callback answers in it.
-/
inductive ArenaCall where
  | alloc (size : Nat) (answer : GrowFn)
  | tryAlloc (size : Nat)
  | pushChunk (region : Region)

namespace ArenaCall

def Fresh (a : Arena) : ArenaCall → Prop
  | alloc size answer => ∀ region, answer (a.request size) = some region → a.Fresh region
  | tryAlloc _ => True
  | pushChunk region => a.Fresh region

/--
What the call returns, and the arena after it.
-/
def step (a : Arena) : ArenaCall → Sized (Option Nat × Arena)
  | alloc size answer => a.alloc size answer
  | tryAlloc size => a.tryAlloc size
  | pushChunk region => do
    let (_, a) ← a.pushChunk region
    pure (none, a)

/--
The block that the call has handed out if it returned `result`.
-/
def blocks (result : Option Nat) : ArenaCall → List Region
  | alloc size _ | tryAlloc size => (result.map (Region.mk · size)).toList
  | pushChunk _ => []

end ArenaCall

namespace Arena

/--
The arenas that calls lead to, with the blocks that have been handed out.
-/
inductive Run (a : Arena) : List Region → Arena → Prop where
  | start : Run a [] a
  | call {blocks : List Region} {b : Arena} (run : Run a blocks b) (call : ArenaCall) (hfresh : call.Fresh b)
      : Run a (blocks ++ call.blocks (call.step b).value.1) (call.step b).value.2

section Run

variable {a b : Arena} {blocks : List Region} {size : Nat}

theorem Moves.attempt (h : Moves a [] b) (size : Nat)
    : Moves a ((b.attempt size).1.map (Region.mk · size)).toList (b.attempt size).2 := by
  unfold Arena.attempt
  split
  . next hfits => exact .bump h hfits
  . exact h

/--
A call is a sequence of elementary steps, and no size in it wraps around.
-/
theorem Sound.step_moves (h : a.Sound) (call : ArenaCall) (hfresh : call.Fresh a)
    : (call.step a).wrapped = false
        ∧ Moves a (call.blocks (call.step a).value.1) (call.step a).value.2 := by
  cases call with
  | alloc size answer =>
    dsimp only [ArenaCall.step, ArenaCall.blocks]
    rw [h.alloc_eq hfresh]
    refine ⟨rfl, ?_⟩
    rw [Sized.value_pure]
    unfold outcome
    split
    . next hfits => exact .bump .done hfits
    . split
      . exact .done
      . next hgo =>
        split
        . exact .done
        . next region hanswer =>
          split
          . exact .done
          . -- A chunk of its own is tried once.
            apply Moves.attempt
            exact .push .done (hfresh region hanswer) (by omega)
  | tryAlloc size =>
    dsimp only [ArenaCall.step, ArenaCall.blocks]
    rw [h.tryAlloc_eq]
    exact ⟨rfl, Moves.done.attempt size⟩
  | pushChunk region =>
    dsimp only [ArenaCall.step, ArenaCall.blocks]
    rw [h.pushChunk_eq, Sized.pure_bind]
    refine ⟨rfl, ?_⟩
    split
    . exact .done
    . next hfull => exact .push .done hfresh (Nat.lt_of_not_ge hfull)

theorem Run.moves (h : Run a blocks b) (ha : a.Sound) : Moves a blocks b := by
  induction h with
  | start => exact .done
  | call _ call hfresh ih => exact ih.trans ((ih.sound ha).step_moves call hfresh).2

/--
What holds of the blocks that have been handed out, of the chunks, and of all that is to come.
-/
structure Serves (a : Arena) (blocks : List Region) : Prop where
  held : ∀ block ∈ blocks, ∃ i offset, a.Holds i offset block
  disjoint : blocks.Pairwise fun r s => Disjoint r.addresses s.addresses
  used_le : ∀ c ∈ a.chunks, c.used ≤ c.cap
  length_le : a.chunks.length ≤ maxChunks
  unwrapped : ∀ call : ArenaCall, call.Fresh a → (call.step a).wrapped = false
  stable : ∀ later b, Run a later b → ∀ i offset block, a.Holds i offset block → b.Holds i offset block

/--
The blocks of every run are disjoint and stay where they are.
-/
theorem Run.serves {region : Region} {grow : Bool} (hrun : Run (init region grow) blocks a)
    (hregion : region.Valid 64) : a.Serves blocks := by
  have hinit := sound_init hregion grow
  have hmoves := hrun.moves hinit
  have hsound := hmoves.sound hinit
  exact {
    held := hmoves.held hinit
    disjoint := hmoves.disjoint hinit
    used_le := hsound.used_le
    length_le := hsound.length_le
    unwrapped := fun call hfresh => (hsound.step_moves call hfresh).1
    stable := fun later b hlater i offset block hblock => (hlater.moves hsound).holds hblock
  }

theorem twoChunks_serves
    : Serves ⟨[⟨4096, 8, 8⟩], ⟨8192, 16, 16⟩, true⟩ [⟨4096, 5⟩, ⟨8192, 9⟩] := by
  have hfirst : Run (init ⟨4096, 8⟩ true) [⟨4096, 5⟩] ⟨[], ⟨4096, 8, 8⟩, true⟩ :=
    Run.start.call (.alloc 5 fun _ => none) (fun _ h => nomatch h)
  have hfresh : Fresh ⟨[], ⟨4096, 8, 8⟩, true⟩ ⟨8192, 16⟩ :=
    fresh_of_le ⟨by decide, by decide⟩ (by decide)
  have hsecond : Run (init ⟨4096, 8⟩ true) [⟨4096, 5⟩, ⟨8192, 9⟩] ⟨[⟨4096, 8, 8⟩], ⟨8192, 16, 16⟩, true⟩ :=
    hfirst.call (.alloc 9 fun _ => some ⟨8192, 16⟩) (fun _ h => Option.some.inj h ▸ hfresh)
  exact hsecond.serves ⟨by decide, by decide⟩

/-! When an allocation fails. -/

/--
The size that the callback is asked for, if it is called.
-/
def asked (a : Arena) (size : Nat) : Option Nat :=
  if (a.tryAlloc size).value.1 = none ∧ size ≠ 0 ∧ a.grow = true ∧ a.chunks.length < maxChunks then
    some (a.request size)
  else
    none

/--
`alloc` fails only if there is no callback, if the chunk table is full, or if the callback was called and has
no chunk; and not if the callback has a chunk of the size that it was asked for.
-/
def Documented (a : Arena) (size : Nat) (answer : GrowFn) : Prop :=
  ((a.alloc size answer).value.1 = none
      → a.grow = false ∨ maxChunks ≤ a.chunks.length
        ∨ ∃ requested, a.asked size = some requested ∧ answer requested = none)
    ∧ ∀ requested region, a.asked size = some requested → answer requested = some region
        → requested ≤ region.size → (a.alloc size answer).value.1 ≠ none

/--
If the callback is called and has a chunk, then the block fits in it with the padding, and the chunk is not
larger than the largest one that is accepted.
-/
def Admits (a : Arena) (size : Nat) (answer : GrowFn) : Prop :=
  ∀ requested region, a.asked size = some requested → answer requested = some region
    → roundUp size ≤ region.size ∧ region.size ≤ maxCap

theorem attempt_eq_none : (a.attempt size).1 = none ↔ ¬a.Fits size := by
  unfold attempt
  split
  . next hfits => simp [hfits]
  . next hfits => simp [hfits]

theorem Sound.asked_eq_some (h : a.Sound) (hsize : 1 ≤ size) {requested : Nat}
    : a.asked size = some requested
        ↔ ¬a.Fits size ∧ a.grow = true ∧ a.chunks.length < maxChunks ∧ a.request size = requested := by
  have hne : size ≠ 0 := by omega
  unfold asked
  simp only [h.tryAlloc_eq, Sized.value_pure, attempt_eq_none]
  split
  . next hcond => simp [hcond]
  . next hcond =>
    constructor
    . intro hsome
      cases hsome
    . rintro ⟨hfits, hgrow, hlength, _⟩
      exact (hcond ⟨hfits, hne, hgrow, hlength⟩).elim

/--
The chunk that the callback has serves the block if its capacity is in a range.
-/
theorem push_attempt (hsize : 1 ≤ size) (hmax : size ≤ 0x7FFFFFF7) (region : Region)
    : ((a.push region).attempt size).1 = none ↔ region.size < roundUp size := by
  have hfits : (a.push region).Fits size ↔ roundUp size ≤ region.size :=
    ⟨fun hfits => hfits.2.2, fun hroom => ⟨hsize, hmax, hroom⟩⟩
  rw [attempt_eq_none, hfits]
  exact Nat.not_le

theorem Sound.alloc_eq_none (h : a.Sound) {answer : GrowFn} (hsize : 1 ≤ size) (hmax : size ≤ 0x7FFFFFF7)
    (hfresh : ∀ region, answer (a.request size) = some region → a.Fresh region)
    : (a.alloc size answer).value.1 = none
        ↔ ¬a.Fits size ∧ (a.grow = false ∨ maxChunks ≤ a.chunks.length
            ∨ ∀ region, answer (a.request size) = some region
                → ¬(roundUp size ≤ region.size ∧ region.size ≤ maxCap)) := by
  have hround := le_roundUp size
  rw [h.alloc_eq hfresh, Sized.value_pure]
  unfold outcome
  by_cases hfits : a.Fits size
  . rw [if_pos hfits]
    simp [hfits]
  rw [if_neg hfits]
  by_cases hgo : size = 0 ∨ a.grow = false ∨ maxChunks ≤ a.chunks.length
  . have hstop : a.grow = false ∨ maxChunks ≤ a.chunks.length := hgo.resolve_left (by omega)
    rw [if_pos hgo]
    exact iff_of_true rfl ⟨hfits, by tauto⟩
  rw [if_neg hgo]
  rw [not_or, not_or] at hgo
  cases hanswer : answer (a.request size) with
  | none => exact iff_of_true rfl ⟨hfits, Or.inr (Or.inr (fun region hsome => nomatch hsome))⟩
  | some region =>
    dsimp only
    have hbad : (∀ r, some region = some r → ¬(roundUp size ≤ r.size ∧ r.size ≤ maxCap))
        ↔ region.size < roundUp size ∨ maxCap < region.size := by
      rw [← Nat.not_le, ← Nat.not_le, ← not_and_or]
      exact ⟨fun hall => hall region rfl, fun hnot r hr => Option.some.inj hr ▸ hnot⟩
    rw [hbad]
    split
    . next hrange => exact iff_of_true rfl ⟨hfits, Or.inr (Or.inr (by omega))⟩
    . next hrange =>
      rw [push_attempt hsize hmax]
      constructor
      . intro hsmall
        exact ⟨hfits, Or.inr (Or.inr (Or.inl hsmall))⟩
      . rintro ⟨_, hgrow | hfull | hsmall | hlarge⟩
        . exact (hgo.2.1 hgrow).elim
        . exact (hgo.2.2 hfull).elim
        . exact hsmall
        . omega

/--
An allocation fails as documented exactly if the chunk that the callback has takes the block.
-/
theorem Run.documented_iff {region : Region} {grow : Bool} {answer : GrowFn}
    (hrun : Run (init region grow) blocks a) (hregion : region.Valid 64) (hsize : 1 ≤ size)
    (hmax : size ≤ 0x7FFFFFF7) (hfresh : (ArenaCall.alloc size answer).Fresh a)
    : a.Documented size answer ↔ a.Admits size answer := by
  have hsound := (hrun.moves (sound_init hregion grow)).sound (sound_init hregion grow)
  have hnone := hsound.alloc_eq_none hsize hmax hfresh
  constructor
  . rintro ⟨hfails, _⟩ requested region hasked hanswer
    obtain ⟨hfits, hgrow, hlength, rfl⟩ := (hsound.asked_eq_some hsize).mp hasked
    by_contra hbad
    have hnull := hnone.mpr ⟨hfits, Or.inr (Or.inr (fun r hr => Option.some.inj (hanswer.symm.trans hr) ▸ hbad))⟩
    rcases hfails hnull with hnogrow | hfull | ⟨requested, hasked', hanswer'⟩
    . rw [hgrow] at hnogrow
      cases hnogrow
    . omega
    . rw [hasked] at hasked'
      cases hasked'
      rw [hanswer] at hanswer'
      cases hanswer'
  . intro hadmits
    constructor
    . intro hnull
      obtain ⟨hfits, hgrow | hfull | hall⟩ := hnone.mp hnull
      . exact Or.inl hgrow
      . exact Or.inr (Or.inl hfull)
      . cases hgrow : a.grow with
        | false => exact Or.inl rfl
        | true =>
          by_cases hfull : maxChunks ≤ a.chunks.length
          . exact Or.inr (Or.inl hfull)
          . have hasked := (hsound.asked_eq_some hsize).mpr ⟨hfits, hgrow, Nat.lt_of_not_ge hfull, rfl⟩
            refine Or.inr (Or.inr ⟨_, hasked, ?_⟩)
            cases hanswer : answer (a.request size) with
            | none => rfl
            | some region => exact (hall region hanswer (hadmits _ region hasked hanswer)).elim
    . intro requested region hasked hanswer _ hnull
      obtain ⟨hfits, hgrow, hlength, rfl⟩ := (hsound.asked_eq_some hsize).mp hasked
      obtain ⟨_, hnogrow | hfull | hall⟩ := hnone.mp hnull
      . rw [hgrow] at hnogrow
        cases hnogrow
      . omega
      . exact hall region hanswer (hadmits _ region hasked hanswer)

theorem roomy_documented_iff
    : (init ⟨4096, 8⟩ true).Documented 9 (fun _ => some ⟨8192, 16⟩)
        ↔ (init ⟨4096, 8⟩ true).Admits 9 fun _ => some ⟨8192, 16⟩ := by
  have hrun : Run (init ⟨4096, 8⟩ true) [] (init ⟨4096, 8⟩ true) := .start
  have hfresh : (init ⟨4096, 8⟩ true).Fresh ⟨8192, 16⟩ :=
    fresh_of_le ⟨by decide, by decide⟩ (by decide)
  apply hrun.documented_iff ⟨by decide, by decide⟩ (by decide) (by decide)
  exact fun _ h => Option.some.inj h ▸ hfresh

/--
A chunk of exactly the size that is asked for.
-/
def exactly (base : Nat) : GrowFn :=
  fun requested => some ⟨base, requested⟩

/--
The padding of a block does not fit in a chunk of exactly its size.
-/
theorem tight_not_documented
    : (ArenaCall.alloc 9 (exactly 8192)).Fresh (init ⟨4096, 8⟩ true)
        ∧ ¬(init ⟨4096, 8⟩ true).Documented 9 (exactly 8192) := by
  constructor
  . intro region hanswer
    obtain rfl := Option.some.inj hanswer
    exact fresh_of_le ⟨by decide, by decide⟩ (by decide)
  . intro h
    exact h.2 9 ⟨8192, 9⟩ rfl rfl (by decide) rfl

end Run

end Arena

end Gremlin
