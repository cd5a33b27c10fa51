import Gremlin.Memory.Regions

/-!
This module contains the arena that descriptors and names are allocated in.
-/

namespace Gremlin

open Memory

structure ArenaChunk where
  base : Nat
  cap : Nat
  used : Nat
  deriving DecidableEq, Repr

def ArenaChunk.region (c : ArenaChunk) : Region :=
  ⟨c.base, c.cap⟩

/--
`gremlind_arena`: the chunks in use, of which the last one is `current`, and whether there is a callback.
-/
structure Arena where
  earlier : List ArenaChunk
  current : ArenaChunk
  grow : Bool
  deriving DecidableEq, Repr

/--
`gremlind_grow_fn`: what the callback answers when it is asked for a size.
-/
abbrev GrowFn : Type :=
  (requested : Nat) → Option Region

namespace Arena

/--
`GREMLIND_MAX_CHUNKS`.
-/
def maxChunks : Nat := 64

/--
`GREMLIND_ALIGN`.
-/
def align : Nat := 8

/--
The largest capacity of a chunk that the allocator accepts.
-/
def maxCap : Nat := 0x7FFFFFFE

def chunks (a : Arena) : List ArenaChunk :=
  a.earlier ++ [a.current]

/--
`gremlind_arena_init`.
-/
def init (region : Region) (grow : Bool) : Arena :=
  ⟨[], ⟨region.base, region.size, 0⟩, grow⟩

/--
`gremlind_arena_push_chunk`.
-/
def pushChunk (a : Arena) (region : Region) : Sized (Bool × Arena) :=
  if a.chunks.length ≥ maxChunks then
    pure (false, a)
  else do
    let _ ← sizeAdd 64 a.chunks.length 1
    pure (true, ⟨a.chunks, ⟨region.base, region.size, 0⟩, a.grow⟩)

def alignedSize (size : Nat) : Sized Nat :=
  if size % align ≠ 0 then do
    let pad ← sizeSub 64 align (size % align)
    sizeAdd 64 size pad
  else
    pure size

/--
`gremlind_arena_try_alloc`.
-/
def tryAlloc (a : Arena) (size : Nat) : Sized (Option Nat × Arena) :=
  if size = 0 then
    pure (none, a)
  else do
    let limit ← sizeSub 64 maxCap (align - 1)
    if size > limit then
      pure (none, a)
    else do
      let aligned ← alignedSize size
      let _ ← sizeSub 64 a.chunks.length 1
      let room ← sizeSub 64 a.current.cap a.current.used
      if aligned > room then
        pure (none, a)
      else do
        let p ← sizeAdd 64 a.current.base a.current.used
        let used ← sizeAdd 64 a.current.used aligned
        pure (some p, { a with current := { a.current with used } })

/--
`gremlind_arena_alloc`.
-/
def alloc (a : Arena) (size : Nat) (answer : GrowFn) : Sized (Option Nat × Arena) := do
  let (p, a) ← a.tryAlloc size
  if p.isSome then
    pure (p, a)
  else if size = 0 ∨ a.grow = false then
    pure (none, a)
  else if a.chunks.length ≥ maxChunks then
    pure (none, a)
  else do
    let totalCap ← a.chunks.foldlM (fun total c => sizeAdd 64 total c.cap) 0
    let requested := if size > totalCap then size else totalCap
    match answer requested with
    | none => pure (none, a)
    | some region =>
      if region.size < size ∨ region.size > maxCap then
        pure (none, a)
      else do
        let (pushed, a) ← a.pushChunk region
        if pushed then a.tryAlloc size else pure (none, a)

/-! What the operations do where no size wraps around. -/

/--
The size with the bytes up to the next multiple of the alignment.
-/
def roundUp (size : Nat) : Nat :=
  (size + 7) / 8 * 8

def top (a : Arena) : Nat :=
  a.current.base + a.current.used

def Fits (a : Arena) (size : Nat) : Prop :=
  0 < size ∧ size ≤ 0x7FFFFFF7 ∧ roundUp size ≤ a.current.cap - a.current.used

instance (a : Arena) (size : Nat) : Decidable (a.Fits size) :=
  inferInstanceAs (Decidable (_ ∧ _ ∧ _))

def bump (a : Arena) (size : Nat) : Arena :=
  { a with current := { a.current with used := a.current.used + roundUp size } }

def push (a : Arena) (region : Region) : Arena :=
  ⟨a.chunks, ⟨region.base, region.size, 0⟩, a.grow⟩

/--
What `tryAlloc` does.
-/
def attempt (a : Arena) (size : Nat) : Option Nat × Arena :=
  if a.Fits size then (some a.top, a.bump size) else (none, a)

def request (a : Arena) (size : Nat) : Nat :=
  max size (a.chunks.map ArenaChunk.cap).sum

/--
The chunks are filled up to their capacities at most, and are disjoint regions of memory.
-/
structure Sound (a : Arena) : Prop where
  used_le : ∀ c ∈ a.chunks, c.used ≤ c.cap
  aligned : ∀ c ∈ a.chunks, align ∣ c.used
  valid : ∀ c ∈ a.chunks, c.region.Valid 64
  disjoint : (a.chunks.map ArenaChunk.region).Pairwise fun r s => Disjoint r.addresses s.addresses
  length_le : a.chunks.length ≤ maxChunks

/--
The region is memory that no chunk of the arena has.
-/
structure Fresh (a : Arena) (region : Region) : Prop where
  valid : region.Valid 64
  disjoint : ∀ c ∈ a.chunks, Disjoint c.region.addresses region.addresses

section Sound

variable {a : Arena} {region : Region} {size : Nat}

theorem current_mem (a : Arena) : a.current ∈ a.chunks := by
  simp [chunks]

theorem chunks_push : (a.push region).chunks = a.chunks ++ [⟨region.base, region.size, 0⟩] :=
  rfl

theorem chunks_bump : (a.bump size).chunks
    = a.earlier ++ [{ a.current with used := a.current.used + roundUp size }] :=
  rfl

theorem fresh_of_le (hvalid : region.Valid 64) (hle : ∀ c ∈ a.chunks, c.base + c.cap ≤ region.base)
    : a.Fresh region :=
  ⟨hvalid, fun c hc => Region.disjoint_of_le (hle c hc)⟩

theorem forall_chunks_bump {p : ArenaChunk → Prop} (h : ∀ c ∈ a.chunks, p c)
    (hcurrent : p { a.current with used := a.current.used + roundUp size })
    : ∀ c ∈ (a.bump size).chunks, p c := by
  rw [chunks_bump, List.forall_mem_append, List.forall_mem_singleton]
  exact ⟨fun c hc => h c (List.mem_append_left _ hc), hcurrent⟩

theorem sound_init (h : region.Valid 64) (grow : Bool) : (init region grow).Sound where
  used_le := by simp [init, chunks]
  aligned := by simp [init, chunks]
  valid := by simpa [init, chunks, ArenaChunk.region] using h
  disjoint := by simp [init, chunks]
  length_le := by simp [init, chunks, maxChunks]

theorem Sound.push (h : a.Sound) (hfresh : a.Fresh region) (hlength : a.chunks.length < maxChunks)
    : (a.push region).Sound where
  used_le := by
    rw [chunks_push, List.forall_mem_append]
    exact ⟨h.used_le, by simp⟩
  aligned := by
    rw [chunks_push, List.forall_mem_append]
    exact ⟨h.aligned, by simp⟩
  valid := by
    rw [chunks_push, List.forall_mem_append]
    exact ⟨h.valid, by simpa [ArenaChunk.region] using hfresh.valid⟩
  disjoint := by
    rw [chunks_push, List.map_append, List.pairwise_append]
    refine ⟨h.disjoint, by simp, ?_⟩
    intro r hr s hs
    obtain ⟨c, hc, rfl⟩ := List.mem_map.mp hr
    rw [List.map_singleton, List.mem_singleton] at hs
    subst hs
    exact hfresh.disjoint c hc
  length_le := by
    rw [chunks_push, List.length_append, List.length_singleton]
    exact hlength

theorem dvd_roundUp (size : Nat) : align ∣ roundUp size :=
  Nat.dvd_mul_left _ _

theorem le_roundUp (size : Nat) : size ≤ roundUp size := by
  unfold roundUp
  omega

theorem Sound.bump (h : a.Sound) (hfits : a.Fits size) : (a.bump size).Sound where
  used_le := by
    apply forall_chunks_bump h.used_le
    have hroom := hfits.2.2
    have hused := h.used_le _ a.current_mem
    dsimp only
    omega
  aligned := by
    apply forall_chunks_bump h.aligned
    exact Nat.dvd_add (h.aligned _ a.current_mem) (dvd_roundUp size)
  valid := by
    apply forall_chunks_bump h.valid
    have := h.valid _ a.current_mem
    exact this
  disjoint := by
    have := h.disjoint
    rw [chunks, List.map_append] at this
    rw [chunks_bump, List.map_append]
    exact this
  length_le := by
    have := h.length_le
    rw [chunks, List.length_append] at this
    rw [chunks_bump, List.length_append]
    exact this

/-! The code computes what it does without wrapping around. -/

theorem Sound.current_lt (h : a.Sound)
    : a.current.used ≤ a.current.cap ∧ a.current.base + a.current.cap ≤ 2 ^ 64 ∧ a.current.cap < 2 ^ 64 := by
  have hvalid := (h.valid _ a.current_mem).size_lt
  exact ⟨h.used_le _ a.current_mem, hvalid.1, hvalid.2⟩

theorem alignedSize_eq (hsize : size ≤ 0x7FFFFFF7) : alignedSize size = pure (roundUp size) := by
  unfold alignedSize roundUp align
  split
  . rw [sizeSub_of_le (by omega) (by omega), Sized.pure_bind, sizeAdd_of_lt (by omega)]
    congr 1
    omega
  . congr 1
    omega

theorem Sound.tryAlloc_eq (h : a.Sound) (size : Nat) : a.tryAlloc size = pure (a.attempt size) := by
  obtain ⟨hused, hend, hcap⟩ := h.current_lt
  have hlength : 1 ≤ a.chunks.length := List.length_pos_of_mem a.current_mem
  have hmax := h.length_le
  have hlimit : maxCap - (align - 1) = 0x7FFFFFF7 := rfl
  unfold tryAlloc attempt
  by_cases hzero : size = 0
  . rw [if_pos hzero, if_neg (fun hfits => by have := hfits.1; omega)]
  rw [if_neg hzero, sizeSub_of_le (by decide) (by decide), Sized.pure_bind, hlimit]
  by_cases hlarge : size > 0x7FFFFFF7
  . rw [if_pos hlarge, if_neg (fun hfits => by have := hfits.2.1; omega)]
  rw [if_neg hlarge, alignedSize_eq (by omega), Sized.pure_bind]
  rw [sizeSub_of_le hlength (Nat.lt_of_le_of_lt hmax (by decide)), Sized.pure_bind]
  rw [sizeSub_of_le hused hcap, Sized.pure_bind]
  by_cases hroom : roundUp size > a.current.cap - a.current.used
  . rw [if_pos hroom, if_neg (fun hfits => by have := hfits.2.2; omega)]
  . have hpos : 0 < roundUp size := by
      have := le_roundUp size
      omega
    rw [if_neg hroom, sizeAdd_of_lt (by omega), Sized.pure_bind, sizeAdd_of_lt (by omega), Sized.pure_bind]
    rw [if_pos ⟨by omega, by omega, by omega⟩]
    rfl

theorem Sound.pushChunk_eq (h : a.Sound) (region : Region)
    : a.pushChunk region
        = pure (if maxChunks ≤ a.chunks.length then (false, a) else (true, a.push region)) := by
  unfold pushChunk
  by_cases hfull : maxChunks ≤ a.chunks.length
  . rw [if_pos hfull, if_pos hfull]
  . have hlength : a.chunks.length + 1 < 2 ^ 64 := by
      have := h.length_le
      unfold maxChunks at this
      omega
    rw [if_neg hfull, if_neg hfull, sizeAdd_of_lt hlength, Sized.pure_bind]
    rfl

theorem Sound.total_eq (h : a.Sound)
    : a.chunks.foldlM (fun total c => sizeAdd 64 total c.cap) 0 = pure (a.chunks.map ArenaChunk.cap).sum := by
  have hvalid : ∀ r ∈ a.chunks.map ArenaChunk.region, r.Valid 64 := by
    intro r hr
    obtain ⟨c, hc, rfl⟩ := List.mem_map.mp hr
    exact h.valid c hc
  have hsum := Region.sum_size_lt hvalid h.disjoint
  rw [List.map_map] at hsum
  have := foldlM_sizeAdd (w := 64) ArenaChunk.cap a.chunks 0 (by rw [Nat.zero_add]; exact hsum)
  rw [Nat.zero_add] at this
  exact this

/--
What `alloc` does: the block is in the current chunk if it fits, else in a chunk of its own if there is one.
-/
def outcome (a : Arena) (size : Nat) (answer : GrowFn) : Option Nat × Arena :=
  if a.Fits size then
    (some a.top, a.bump size)
  else if size = 0 ∨ a.grow = false ∨ maxChunks ≤ a.chunks.length then
    (none, a)
  else
    match answer (a.request size) with
    | none => (none, a)
    | some region =>
      if region.size < size ∨ maxCap < region.size then
        (none, a)
      else
        (a.push region).attempt size

theorem Sound.alloc_eq (h : a.Sound) {answer : GrowFn}
    (hfresh : ∀ region, answer (a.request size) = some region → a.Fresh region)
    : a.alloc size answer = pure (a.outcome size answer) := by
  unfold alloc outcome
  rw [h.tryAlloc_eq, Sized.pure_bind, attempt]
  by_cases hfits : a.Fits size
  . rw [if_pos hfits, if_pos hfits]
    rfl
  rw [if_neg hfits, if_neg hfits]
  dsimp only [Option.isSome_none]
  rw [if_neg Bool.false_ne_true]
  by_cases hgrow : size = 0 ∨ a.grow = false
  . rw [if_pos hgrow, if_pos (hgrow.imp_right Or.inl)]
  rw [if_neg hgrow]
  by_cases hfull : a.chunks.length ≥ maxChunks
  . rw [if_pos hfull, if_pos (Or.inr (Or.inr hfull))]
  have hgo : ¬(size = 0 ∨ a.grow = false ∨ maxChunks ≤ a.chunks.length) := by tauto
  have hrequest : (if size > (a.chunks.map ArenaChunk.cap).sum then size else (a.chunks.map ArenaChunk.cap).sum)
      = a.request size := by
    unfold request
    split <;> omega
  rw [if_neg hfull, if_neg hgo, h.total_eq, Sized.pure_bind, hrequest]
  cases hanswer : answer (a.request size) with
  | none => rfl
  | some region =>
    dsimp only
    by_cases hrange : region.size < size ∨ region.size > maxCap
    . rw [if_pos hrange, if_pos hrange]
    . -- The chunk is pushed, and the arena with it is sound as well.
      have hpush := h.push (hfresh region hanswer) (Nat.lt_of_not_ge hfull)
      rw [if_neg hrange, if_neg hrange, h.pushChunk_eq, if_neg hfull, Sized.pure_bind]
      dsimp only
      rw [if_pos rfl, hpush.tryAlloc_eq]

end Sound

end Arena

end Gremlin
