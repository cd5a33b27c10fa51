import Gremlin.Descriptors.Nodes
import Gremlin.Naming.Ledger
import Mathlib.Data.List.Perm.Subperm

/-!
This module contains the name scope: how a C identifier is made of a name that is asked for.
-/

namespace Gremlin

open Naming

def cKeywords : List Spelling :=
  ["auto", "break", "case", "char", "const", "continue", "default", "do", "double", "else", "enum",
    "extern", "float", "for", "goto", "if", "inline", "int", "long", "register", "restrict",
    "return", "short", "signed", "sizeof", "static", "struct", "switch", "typedef", "union",
    "unsigned", "void", "volatile", "while", "_Alignas", "_Alignof", "_Atomic", "_Bool", "_Complex",
    "_Generic", "_Imaginary", "_Noreturn", "_Static_assert", "_Thread_local"].map String.toList

def acslReserved : List Spelling :=
  ["boolean", "alignof"].map String.toList

def isCKeyword (name : Spelling) : Bool :=
  cKeywords.contains name || acslReserved.contains name

def isLowerOrDigit (c : Char) : Bool :=
  c.isLower || c.isDigit

def toSnakeCase (span : Span) : Spelling :=
  go none span
where
  go : Option Char → Span → Spelling
    | _, [] => []
    | prev, c :: rest =>
      -- between a word and the next one, and before the last capital of an acronym
      let insertUnderscore := prev.any fun prev =>
        isLowerOrDigit prev && c.isUpper
          || prev.isUpper && c.isUpper && rest.head?.any Char.isLower
      (if insertUnderscore then ['_'] else []) ++ c.toLower :: go (some c) rest

def numbered (candidate : Spelling) (n : Nat) : Spelling :=
  candidate ++ '_' :: Nat.toDigits 10 n

/--
The first of so many numbers, from `n` on, with which the name is free.
-/
def firstFree (taken : List Spelling) (candidate : Spelling) : (fuel n : Nat) → Option Spelling
  | 0, _ => none
  | fuel + 1, n =>
    if numbered candidate n ∈ taken then
      firstFree taken candidate fuel (n + 1)
    else
      some (numbered candidate n)

/--
`gremlinc_name_scope_mangle`, without the registration.
-/
def mangle (used : List Spelling) (raw : Spelling) : Option Spelling :=
  if raw = [] then
    none
  else
    let candidate := if isCKeyword raw then raw ++ ['_'] else raw
    if candidate ∈ used then
      firstFree used candidate 999999 1
    else
      some candidate

/--
`gremlinc_claim_avoiding`. The loop has no bound; it finds a name before it has tried one more than
are taken.
-/
def claimAvoiding (reserved used : List Spelling) (raw : Spelling) : Option Spelling :=
  let taken := used ++ reserved
  let name := if raw ∈ taken then firstFree taken raw (taken.length + 1) 1 else some raw
  name.bind (mangle used)

def namePolicy (reserved : List Spelling) : Policy where
  allot := mangle
  avoid := claimAvoiding reserved

/--
`gremlinc_name_scope_reserve_logic`.
-/
def reserveLogic : List Spelling :=
  ["integer", "gremlin_span_in", "gremlin_span_at", "enum_wire", "b", "e", "ebuf", "elen", "eoff",
    "hi", "hi2", "i", "it", "j", "k", "len", "lo", "lo2", "m", "n", "offset", "out", "out_key",
    "out_value", "p", "q", "r", "s", "src", "t", "w", "_bcnt", "_bd", "_bi", "_buf", "_child_size",
    "_el", "_entry", "_i", "_off", "_payload", "_vspan"].map String.toList

def inRuntimeNamespace (name : Spelling) : Bool :=
  (name.take 7 = "gremlin".toList || name.take 7 = "GREMLIN".toList)
    && (name.drop 7).head?.all (· = '_')

def hasNumberSegment : Spelling → Bool
  | [] => false
  | c :: rest => c = '_' && rest.head?.any Char.isDigit || hasNumberSegment rest

/--
`gremlinc_cname_for_type`, with the names in use after it.
-/
def cnameForType (used : List Spelling) (name : ScopedName) : Option (Spelling × List Spelling) := do
  let raw := List.intercalate ['_'] name.segments
  let c ← mangle used raw
  if inRuntimeNamespace c && !hasNumberSegment c then
    -- the name is in use now, and the next one has a number, with which the loop ends
    let c' ← mangle (c :: used) raw
    some (c', c' :: c :: used)
  else
    some (c, c :: used)

/-! What is free. -/

theorem numbered_injective {candidate : Spelling} {m n : Nat}
    (h : numbered candidate m = numbered candidate n) : m = n := by
  unfold numbered at h
  rw [List.append_cancel_left_eq, List.cons.injEq] at h
  rw [← Nat.ofDigitChars_ten_toDigits (n := m), h.2, Nat.ofDigitChars_ten_toDigits]

theorem firstFree_eq_some {taken : List Spelling} {candidate name : Spelling} {fuel n : Nat}
    (h : firstFree taken candidate fuel n = some name)
    : name ∉ taken ∧ ∃ i, name = numbered candidate i := by
  induction fuel generalizing n with
  | zero => simp [firstFree] at h
  | succ fuel ih =>
    rw [firstFree] at h
    split at h
    . exact ih h
    . next hfree =>
      rw [Option.some_inj] at h
      subst h
      exact ⟨hfree, n, rfl⟩

theorem firstFree_eq_none {taken : List Spelling} {candidate : Spelling} {fuel n : Nat}
    (h : firstFree taken candidate fuel n = none) (i : Nat) (hi : i < fuel)
    : numbered candidate (n + i) ∈ taken := by
  induction fuel generalizing n i with
  | zero => omega
  | succ fuel ih =>
    rw [firstFree] at h
    split at h
    . next htaken =>
      cases i with
      | zero => exact htaken
      | succ i =>
        have := ih h i (by omega)
        rwa [Nat.add_assoc, Nat.add_comm 1 i] at this
    . simp at h

theorem numbered_ne (candidate : Spelling) (n : Nat) : numbered candidate n ≠ candidate := by
  intro h
  have := congrArg List.length h
  simp [numbered] at this

/--
Where no number gives a name that is free, there are as many names besides the candidate.
-/
theorem length_of_firstFree_eq_none {taken : List Spelling} {candidate : Spelling} {fuel n : Nat}
    (h : firstFree taken candidate fuel n = none) : fuel ≤ (taken.erase candidate).length := by
  have hsub : (List.range fuel).map (fun i => numbered candidate (n + i)) ⊆ taken.erase candidate := by
    intro name hname
    rw [List.mem_map] at hname
    obtain ⟨i, hi, rfl⟩ := hname
    rw [List.mem_erase_of_ne (numbered_ne candidate _)]
    exact firstFree_eq_none h i (List.mem_range.mp hi)
  have hnodup : ((List.range fuel).map fun i => numbered candidate (n + i)).Nodup := by
    refine List.nodup_range.map ?_
    intro i j hij
    have := numbered_injective hij
    omega
  have := (hnodup.subperm hsub).length_le
  rwa [List.length_map, List.length_range] at this

theorem mangle_eq_some {used : List Spelling} {raw name : Spelling} (h : mangle used raw = some name)
    : name ∉ used
        ∧ (name = raw ∧ isCKeyword raw = false
          ∨ name = raw ++ ['_'] ∧ isCKeyword raw = true
          ∨ (∃ candidate i, name = numbered candidate i) ∧ (isCKeyword raw = false → raw ∈ used)) := by
  unfold mangle at h
  split at h
  . simp at h
  . dsimp only at h
    generalize hcandidate : (if isCKeyword raw = true then raw ++ ['_'] else raw) = candidate at h
    split at h
    . next hmem =>
      obtain ⟨hfree, i, rfl⟩ := firstFree_eq_some h
      refine ⟨hfree, .inr (.inr ⟨⟨_, i, rfl⟩, ?_⟩)⟩
      intro hkeyword
      rw [hkeyword, if_neg (by simp)] at hcandidate
      rwa [hcandidate]
    . next hfree =>
      rw [Option.some_inj] at h
      subst h
      refine ⟨hfree, ?_⟩
      cases hkeyword : isCKeyword raw with
      | true =>
        rw [hkeyword, if_pos rfl] at hcandidate
        exact .inr (.inl ⟨hcandidate.symm, rfl⟩)
      | false =>
        rw [hkeyword, if_neg (by simp)] at hcandidate
        exact .inl ⟨hcandidate.symm, rfl⟩

theorem hasNumberSegment_append {name name' : Spelling} (h : hasNumberSegment name' = true)
    : hasNumberSegment (name ++ name') = true := by
  induction name with
  | nil => exact h
  | cons c name ih => simp [hasNumberSegment, ih]

theorem hasNumberSegment_numbered (candidate : Spelling) (i : Nat)
    : hasNumberSegment (numbered candidate i) = true := by
  apply hasNumberSegment_append
  cases hdigits : Nat.toDigits 10 i with
  | nil => exact absurd hdigits Nat.toDigits_ne_nil
  | cons c rest =>
    have : c.isDigit = true :=
      Nat.isDigit_of_mem_toDigits (b := 10) (by decide) (by decide) (hdigits ▸ List.mem_cons_self)
    simp [hasNumberSegment, this]

theorem hasNumberSegment_of_retry {used : List Spelling} {raw c c' : Spelling}
    (h : mangle used raw = some c) (h' : mangle (c :: used) raw = some c')
    : hasNumberSegment c' = true := by
  obtain ⟨-, hc⟩ := mangle_eq_some h
  obtain ⟨hfree, hc'⟩ := mangle_eq_some h'
  rw [List.mem_cons, not_or] at hfree
  rcases hc' with ⟨rfl, hkeyword⟩ | ⟨rfl, hkeyword⟩ | ⟨⟨candidate, i, rfl⟩, -⟩
  . rcases hc with ⟨rfl, -⟩ | ⟨-, hkeyword'⟩ | ⟨-, hused⟩
    . exact absurd rfl hfree.1
    . rw [hkeyword] at hkeyword'
      simp at hkeyword'
    . exact absurd (hused hkeyword) hfree.2
  . unfold mangle at h
    rw [hkeyword, if_pos rfl] at h
    split at h
    . simp at h
    . rw [if_neg hfree.2, Option.some_inj] at h
      exact absurd h hfree.1
  . exact hasNumberSegment_numbered candidate i

/-! The names of what is derived from a message. -/

def derivedSuffixes : List Spelling :=
  ["_size", "_encode", "_encode_at", "_reader", "_init", "_iter", "_count", "_begin",
    "_next"].map String.toList

/--
A name that ends like those of what is derived from a message.
-/
def IsDerived (name : Spelling) : Prop :=
  ∃ suffix ∈ derivedSuffixes, suffix <:+ name

theorem IsDerived.last {name : Spelling} (h : IsDerived name)
    : ∃ c, name.getLast? = some c ∧ c ≠ '_' ∧ c.isDigit = false := by
  obtain ⟨suffix, hmem, before, rfl⟩ := h
  have hall : ∀ suffix ∈ derivedSuffixes, suffix.getLast?.any (fun c => c ≠ '_' && !c.isDigit) = true := by
    decide
  have hany := hall suffix hmem
  rw [Option.any_eq_true] at hany
  obtain ⟨c, hc, hne⟩ := hany
  simp only [Bool.and_eq_true, decide_eq_true_eq, Bool.not_eq_true'] at hne
  exact ⟨c, by rw [List.getLast?_append, hc, Option.some_or], hne.1, hne.2⟩

theorem not_isDerived_numbered (candidate : Spelling) (i : Nat) : ¬IsDerived (numbered candidate i) := by
  intro h
  obtain ⟨c, hc, -, hdigit⟩ := h.last
  have hmem : c ∈ Nat.toDigits 10 i := by
    unfold numbered at hc
    rw [List.getLast?_append_of_ne_nil _ (by simp), List.getLast?_cons_of_ne_nil Nat.toDigits_ne_nil]
      at hc
    exact List.mem_of_getLast? hc
  rw [Nat.isDigit_of_mem_toDigits (by decide) (by decide) hmem] at hdigit
  simp at hdigit

theorem IsDerived.not_isCKeyword {name : Spelling} (h : IsDerived name) : isCKeyword name = false := by
  obtain ⟨suffix, hmem, hsuffix⟩ := h
  have : ∀ keyword ∈ cKeywords ++ acslReserved, ∀ suffix ∈ derivedSuffixes, ¬suffix <:+ keyword := by
    decide +kernel
  rw [Bool.eq_false_iff]
  intro hkeyword
  apply this name ?_ suffix hmem hsuffix
  unfold isCKeyword at hkeyword
  simpa using hkeyword

theorem namePolicy_lawful (reserved : List Spelling) : (namePolicy reserved).Lawful IsDerived where
  fresh h := (mangle_eq_some h).1
  eq_raw h hderived hfree := by
    rcases (mangle_eq_some h).2 with ⟨rfl, -⟩ | ⟨-, hkeyword⟩ | ⟨-, hused⟩
    . rfl
    . rw [hderived.not_isCKeyword] at hkeyword
      simp at hkeyword
    . exact absurd (hused hderived.not_isCKeyword) hfree
  not_bare h hne hderived := by
    rcases (mangle_eq_some h).2 with ⟨rfl, -⟩ | ⟨rfl, -⟩ | ⟨⟨candidate, i, rfl⟩, -⟩
    . exact hne rfl
    . obtain ⟨c, hc, hne, -⟩ := hderived.last
      rw [List.getLast?_append_of_ne_nil _ (by simp), List.getLast?_singleton, Option.some_inj] at hc
      exact hne hc.symm
    . exact not_isDerived_numbered candidate i hderived

end Gremlin
