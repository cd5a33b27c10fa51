import Gremlin.Codegen.Contents
import Gremlin.Naming.Surplus
import Mathlib.Data.List.DropRight

/-!
This module contains the comparison of the names that are reserved before the emission and those that the
emission gives.
-/

namespace Gremlin

open Naming

/--
The stems of enum constants, of getters and of the types of map entries.
-/
def isPublic (stem : Stem Ident) : Bool :=
  match stem.base with
  | ⟨.enumeration _, .type⟩ => true
  | ⟨.message _, .type⟩ => "_entry".toList.isSuffixOf stem.suffix
  | ⟨.message _, .reader⟩ => "_get_".toList.isPrefixOf stem.suffix
  | _ => false

/--
The claims of the names that the emission writes without claiming them.
-/
def isUnclaimed : Act Ident → Bool
  | .hold ⟨⟨_, .type⟩, suffix⟩ => suffix = "_cached_size".toList || suffix = "_encode_at".toList
  | _ => false

/--
The names that are given to constants, getters and entries.
-/
def publicNames (policy : Policy) (l : Ledger Ident) (acts : List (Act Ident))
    : Option (List (Stem Ident × Spelling)) :=
  (l.grants policy acts).map fun given => given.filter fun (stem, _) => isPublic stem

namespace Pool

variable (p : Pool)

/--
What `gremlinc_reserve_public_names` claims when it goes through the files.
-/
def reservations : Option (List (Act Ident)) :=
  (p.files.mapM (p.actsOf fun id m => reservedActs (.message id) m)).map List.flatten

end Pool

/-! The candidates of a claim. -/

def candidates (raw : Spelling) : List Spelling :=
  if raw = [] then
    []
  else
    let candidate := if isCKeyword raw then raw ++ ['_'] else raw
    candidate :: (List.range' 1 999999).map (numbered candidate)

theorem firstFree_eq_find? (taken : List Spelling) (candidate : Spelling) (fuel n : Nat)
    : firstFree taken candidate fuel n
        = ((List.range' n fuel).map (numbered candidate)).find? fun name => name ∉ taken := by
  induction fuel generalizing n with
  | zero => rfl
  | succ fuel ih =>
    rw [firstFree, List.range'_succ, List.map_cons]
    by_cases hmem : numbered candidate n ∈ taken
    . rw [if_pos hmem, List.find?_cons_of_neg (by simpa using hmem), ih]
    . rw [if_neg hmem, List.find?_cons_of_pos (by simpa using hmem)]

theorem mangle_eq_find? (used : List Spelling) (raw : Spelling)
    : mangle used raw = (candidates raw).find? fun name => name ∉ used := by
  unfold mangle candidates
  by_cases hraw : raw = []
  . rw [if_pos hraw, if_pos hraw, List.find?_nil]
  . rw [if_neg hraw, if_neg hraw]
    dsimp only
    generalize (if isCKeyword raw = true then raw ++ ['_'] else raw) = candidate
    by_cases hmem : candidate ∈ used
    . rw [if_pos hmem, List.find?_cons_of_neg (by simpa using hmem), firstFree_eq_find?]
    . rw [if_neg hmem, List.find?_cons_of_pos (by simpa using hmem)]

theorem namePolicy_picks (reserved : List Spelling) : (namePolicy reserved).Picks candidates :=
  Policy.picks_iff.mpr mangle_eq_find?

/--
A name without the numbers and the underscores at its end, which are all that a claim changes.
-/
def root (name : Spelling) : Spelling :=
  name.rdropWhile fun c => c = '_' || c.isDigit

theorem root_append {name tail : Spelling} (h : ∀ c ∈ tail, c = '_' ∨ c.isDigit = true)
    : root (name ++ tail) = root name := by
  unfold root List.rdropWhile
  rw [List.reverse_append, List.dropWhile_append_of_pos]
  intro c hc
  simpa using h c (List.mem_reverse.mp hc)

theorem root_append_of_last (name tail : Spelling) {c : Char} (hlast : tail.getLast? = some c)
    (hc : c ≠ '_' ∧ c.isDigit = false) : root (name ++ tail) = name ++ tail := by
  rw [List.getLast?_eq_some_iff] at hlast
  obtain ⟨before, rfl⟩ := hlast
  rw [← List.append_assoc, root, List.rdropWhile_concat_neg]
  simp [hc]

theorem root_candidate {raw name : Spelling} (h : name ∈ candidates raw) : root name = root raw := by
  unfold candidates at h
  split at h
  . simp at h
  . dsimp only at h
    have hroot : root (if isCKeyword raw = true then raw ++ ['_'] else raw) = root raw := by
      split
      . exact root_append (by simp)
      . rfl
    rcases List.mem_cons.mp h with rfl | hmem
    . exact hroot
    . obtain ⟨i, -, rfl⟩ := List.mem_map.mp hmem
      rw [← hroot]
      apply root_append
      intro c hc
      rcases List.mem_cons.mp hc with rfl | hdigit
      . exact .inl rfl
      . exact .inr (Nat.isDigit_of_mem_toDigits (by decide) (by decide) hdigit)

/--
The names that may be given to what the emission does not claim.
-/
def IsHeld (name : Spelling) : Prop :=
  "_cached_size".toList <:+ root name ∨ "_encode_at".toList <:+ root name

theorem isHeld_candidate {raw name name' : Spelling} (h : name ∈ candidates raw)
    (h' : name' ∈ candidates raw) (hheld : IsHeld name) : IsHeld name' := by
  unfold IsHeld at *
  rwa [root_candidate h', ← root_candidate h]

/-! The reservation, with and without what the emission does not claim. -/

def IsBase (id : Ident) : Prop :=
  id.role = .type ∨ id.role = .reader

theorem isBase_type (owner : Entity) : IsBase ⟨owner, .type⟩ :=
  .inl rfl

theorem isBase_reader (owner : Entity) : IsBase ⟨owner, .reader⟩ :=
  .inr rfl

theorem isHeld_append {name tail : Spelling} (hlast : ∃ c, tail.getLast? = some c ∧ c ≠ '_' ∧ c.isDigit = false)
    (htail : tail = "_cached_size".toList ∨ tail = "_encode_at".toList) {name' : Spelling}
    (h : name' ∈ candidates (name ++ tail)) : IsHeld name' := by
  obtain ⟨c, hc, hnot⟩ := hlast
  unfold IsHeld
  rw [root_candidate h, root_append_of_last _ tail hc hnot]
  rcases htail with rfl | rfl
  . exact .inl (List.suffix_append _ _)
  . exact .inr (List.suffix_append _ _)

theorem isUnclaimed_eq_true {act : Act Ident} (h : isUnclaimed act = true)
    : ∃ owner suffix, act = .hold ⟨⟨owner, .type⟩, suffix⟩
        ∧ (suffix = "_cached_size".toList ∨ suffix = "_encode_at".toList)
        ∧ ∀ name, ∀ name' ∈ candidates (name ++ suffix), IsHeld name' := by
  unfold isUnclaimed at h
  split at h
  . next owner suffix =>
    simp only [Bool.or_eq_true, decide_eq_true_eq] at h
    refine ⟨owner, suffix, rfl, h, fun name name' hname => isHeld_append ?_ h hname⟩
    rcases h with rfl | rfl
    . exact ⟨'e', rfl, by decide⟩
    . exact ⟨'t', rfl, by decide⟩
  . simp at h

theorem isHeld_of_isUnclaimed {act : Act Ident} (h : isUnclaimed act = true) {policy : Policy}
    (hpicks : policy.Picks candidates) {l l' : Ledger Ident} (hstep : l.step policy act = some l')
    : l.Below IsBase IsHeld l' := by
  obtain ⟨owner, suffix, rfl, -, hheld⟩ := isUnclaimed_eq_true h
  rw [Ledger.step, hpicks, Option.map_eq_some_iff] at hstep
  obtain ⟨name, hname, rfl⟩ := hstep
  refine ⟨List.subset_cons_self _ _, ?_, fun _ _ => rfl⟩
  intro x hx
  rcases List.mem_cons.mp hx with rfl | hx
  . exact .inr (hheld _ x (List.mem_of_find?_eq_some hname))
  . exact .inl hx

theorem not_suffix_of_last {suffix tail name : Spelling} {c d : Char} (hc : suffix.getLast? = some c)
    (hd : tail.getLast? = some d) (hne : c ≠ d) : ¬suffix <:+ name ++ tail := by
  rintro ⟨before, heq⟩
  have hlast := congrArg List.getLast? heq
  rw [List.getLast?_append, List.getLast?_append, hc, hd, Option.some_or, Option.some_or,
    Option.some_inj] at hlast
  exact hne hlast

theorem not_isHeld_reader {before name : Spelling} (h : name ∈ candidates (before ++ "_reader".toList))
    : ¬IsHeld name := by
  unfold IsHeld
  rw [root_candidate h, root_append_of_last _ "_reader".toList rfl (by decide), not_or]
  constructor
  . exact not_suffix_of_last (c := 'e') (d := 'r') rfl rfl (by decide)
  . exact not_suffix_of_last (c := 't') (d := 'r') rfl rfl (by decide)

/--
What the reservation does: it asks, and what others are built on is the name of a reader.
-/
def Asks (act : Act Ident) : Prop :=
  ∃ stem, act.asked = some stem ∧ IsBase stem.base
    ∧ ∀ id ∈ act.ids, IsBase id → stem.suffix = "_reader".toList

theorem asks_hold {stem : Stem Ident} (h : IsBase stem.base) : Asks (.hold stem) :=
  ⟨stem, rfl, h, by simp [Act.ids]⟩

theorem asks_enumActs {owner : Entity} {en : EnumNode} : ∀ act ∈ enumActs owner en, Asks act := by
  intro act hact
  unfold enumActs at hact
  rw [List.mem_mapIdx] at hact
  obtain ⟨j, hj, rfl⟩ := hact
  refine ⟨_, rfl, isBase_type owner, ?_⟩
  intro id hid hbase
  rw [Act.ids, List.mem_singleton] at hid
  subst hid
  simp [IsBase] at hbase

theorem asks_reservedActs {owner : Entity} {m : MessageNode} {acts : List (Act Ident)}
    (h : reservedActs owner m = some acts) : ∀ act ∈ acts, Asks act := by
  unfold reservedActs at h
  rw [Option.map_eq_some_iff] at h
  obtain ⟨mems, -, rfl⟩ := h
  intro act hact
  have htype := isBase_type owner
  have hreader := isBase_reader owner
  rcases List.mem_append.mp hact with hhead | hmember
  . simp only [List.mem_cons, List.not_mem_nil, or_false] at hhead
    rcases hhead with rfl | rfl | rfl | rfl | rfl | rfl
    . exact asks_hold htype
    . exact asks_hold htype
    . exact asks_hold htype
    . exact asks_hold htype
    . exact ⟨_, rfl, htype, fun _ _ _ => rfl⟩
    . exact asks_hold hreader
  . obtain ⟨mem, -, hmember⟩ := List.mem_flatMap.mp hmember
    rcases List.mem_cons.mp hmember with rfl | hentry
    . exact asks_hold hreader
    . split at hentry
      . rw [List.mem_singleton] at hentry
        subst hentry
        exact asks_hold htype
      . simp at hentry

theorem owner_of_reservedActs {owner : Entity} {m : MessageNode} {acts : List (Act Ident)}
    (h : reservedActs owner m = some acts) : ∀ act ∈ acts, act.stem.base.owner = owner := by
  unfold reservedActs at h
  rw [Option.map_eq_some_iff] at h
  obtain ⟨mems, -, rfl⟩ := h
  intro act hact
  rcases List.mem_append.mp hact with hhead | hmember
  . simp only [List.mem_cons, List.not_mem_nil, or_false] at hhead
    rcases hhead with rfl | rfl | rfl | rfl | rfl | rfl <;> rfl
  . obtain ⟨mem, -, hmember⟩ := List.mem_flatMap.mp hmember
    rcases List.mem_cons.mp hmember with rfl | hentry
    . rfl
    . split at hentry
      . rw [List.mem_singleton] at hentry
        subst hentry
        rfl
      . simp at hentry

namespace Pool

variable {p : Pool} {f : FileId}

theorem mem_actsOf {acts : NodeId → MessageNode → Option (List (Act Ident))} {block : List (Act Ident)}
    (h : p.actsOf acts f = some block) {act : Act Ident} (hact : act ∈ block)
    : (∃ owner en, act ∈ enumActs owner en) ∨ ∃ id m as, acts id m = some as ∧ act ∈ as := by
  unfold actsOf at h
  simp only [Option.bind_eq_bind, Option.bind_eq_some_iff] at h
  obtain ⟨ms, -, blocks, hblocks, heq⟩ := h
  cases heq
  rcases List.mem_append.mp hact with henum | hmessage
  . left
    unfold enumsActs at henum
    obtain ⟨_, hmem, hact⟩ := List.mem_flatten.mp henum
    obtain ⟨i, hi, rfl⟩ := List.mem_mapIdx.mp hmem
    exact ⟨_, _, hact⟩
  . right
    obtain ⟨⟨i, m⟩, -, as, has, hact⟩ := (mem_flatten_iff hblocks act).mp hmessage
    exact ⟨_, _, as, has, hact⟩

theorem asks_reservations {walk : List (Act Ident)} (h : p.reservations = some walk)
    : ∀ act ∈ walk, Asks act := by
  unfold reservations at h
  rw [Option.map_eq_some_iff] at h
  obtain ⟨blocks, hblocks, rfl⟩ := h
  intro act hact
  obtain ⟨f, -, block, hblock, hact⟩ := (mem_flatten_iff hblocks act).mp hact
  rcases mem_actsOf hblock hact with ⟨owner, en, henum⟩ | ⟨id, m, as, has, hmessage⟩
  . exact asks_enumActs act henum
  . exact asks_reservedActs has act hmessage

theorem not_isPublic_of_isUnclaimed {walk : List (Act Ident)} (h : p.reservations = some walk) {act : Act Ident}
    (hact : act ∈ walk) (hunclaimed : isUnclaimed act = true) {stem : Stem Ident} (hasked : act.asked = some stem)
    : isPublic stem = false := by
  obtain ⟨owner, suffix, rfl, hsuffix, -⟩ := isUnclaimed_eq_true hunclaimed
  rw [Act.asked, Option.some_inj] at hasked
  subst hasked
  unfold reservations at h
  rw [Option.map_eq_some_iff] at h
  obtain ⟨blocks, hblocks, rfl⟩ := h
  obtain ⟨f, -, block, hblock, hact⟩ := (mem_flatten_iff hblocks _).mp hact
  rcases mem_actsOf hblock hact with ⟨owner', en, henum⟩ | ⟨id, m, as, has, hmessage⟩
  . obtain ⟨j, hj, heq⟩ := List.mem_mapIdx.mp henum
    cases heq
  . have howner : owner = .message id := owner_of_reservedActs has _ hmessage
    subst howner
    rcases hsuffix with rfl | rfl
    . rfl
    . rfl

theorem exists_claimed {walk : List (Act Ident)} (h : p.reservations = some walk) {types final : Ledger Ident}
    (hrun : types.run (namePolicy []) walk = some final)
    : ∃ final', types.run (namePolicy []) (walk.filter fun act => !isUnclaimed act) = some final'
        ∧ final'.used ⊆ final.used := by
  have hasks := asks_reservations h
  have hfollows : Follows IsBase (fun act => isUnclaimed act = true)
      (walk.filter fun act => !isUnclaimed act) walk := by
    apply Follows.filter
    . intro act _ hp
      simpa using hp
    . intro act hact
      obtain ⟨stem, hstem, hbase, -⟩ := hasks act hact
      exact ⟨stem, hstem, hbase⟩
  have hkept : ∀ act ∈ walk.filter fun act => !isUnclaimed act, ∀ stem, act.asked = some stem
      → ∀ id ∈ act.ids, IsBase id → ∀ before, ∀ name ∈ candidates (before ++ stem.suffix), ¬IsHeld name := by
    intro act hact stem hstem id hid hbase before name hname
    obtain ⟨stem', hstem', -, hreader⟩ := hasks act (List.mem_of_mem_filter hact)
    rw [hstem, Option.some_inj] at hstem'
    subst hstem'
    rw [hreader id hid hbase] at hname
    exact not_isHeld_reader hname
  have hpicks := namePolicy_picks []
  obtain ⟨final', hrun', hbelow⟩ := hfollows.run hpicks hpicks
    (fun act hact l l' hstep => isHeld_of_isUnclaimed hact hpicks hstep)
    (fun raw name hname hheld name' hname' => isHeld_candidate hname hname' hheld) hkept .refl hrun
  exact ⟨final', hrun', hbelow.used⟩

end Pool

/-! The emission. -/

/--
What the emission does about names besides what the reservation does.
-/
inductive IsAside : Act Ident → Prop where
  | avoid {stem : Stem Ident} (h : ∀ name, isCKeyword (name ++ stem.suffix) = false) : IsAside (.avoid stem)
  | spell {id : Ident} {stem : Stem Ident} (h : ¬IsBase id) : IsAside (.spell id stem)
  | fit {stem : Stem Ident} {size : Nat} : IsAside (.fit stem size)

theorem isCKeyword_append {tail : Spelling} (h : ∀ keyword ∈ cKeywords ++ acslReserved, ¬tail <:+ keyword)
    (name : Spelling) : isCKeyword (name ++ tail) = false := by
  rw [Bool.eq_false_iff]
  intro hkeyword
  apply h (name ++ tail)
  . unfold isCKeyword at hkeyword
    simpa using hkeyword
  . exact List.suffix_append _ _

theorem isCKeyword_of_digits {name : Spelling} {i : Nat} : isCKeyword (name ++ Nat.toDigits 10 i) = false := by
  rw [Bool.eq_false_iff]
  intro hkeyword
  have hlast : ∀ keyword ∈ cKeywords ++ acslReserved, keyword.getLast?.any Char.isDigit = false := by
    decide +kernel
  have := hlast (name ++ Nat.toDigits 10 i) (by unfold isCKeyword at hkeyword; simpa using hkeyword)
  rw [List.getLast?_append_of_ne_nil _ Nat.toDigits_ne_nil] at this
  cases hdigits : (Nat.toDigits 10 i).getLast? with
  | none =>
    rw [List.getLast?_eq_none_iff] at hdigits
    exact Nat.toDigits_ne_nil hdigits
  | some c =>
    rw [hdigits, Option.any_some,
      Nat.isDigit_of_mem_toDigits (by decide) (by decide) (List.mem_of_getLast? hdigits)] at this
    simp at this

theorem not_mem_of_claimAvoiding {reserved used : List Spelling} {raw name : Spelling}
    (hkeyword : isCKeyword raw = false) (h : claimAvoiding reserved used raw = some name)
    : name ∉ reserved := by
  unfold claimAvoiding at h
  rw [Option.bind_eq_some_iff] at h
  obtain ⟨name₀, hname₀, hmangle⟩ := h
  have hfree : name₀ ∉ used ++ reserved ∧ isCKeyword name₀ = false := by
    split at hname₀
    . obtain ⟨hfree, i, rfl⟩ := firstFree_eq_some hname₀
      refine ⟨hfree, ?_⟩
      unfold numbered
      rw [List.append_cons]
      exact isCKeyword_of_digits
    . next hfree =>
      rw [Option.some_inj] at hname₀
      subst hname₀
      exact ⟨hfree, hkeyword⟩
  rw [List.mem_append, not_or] at hfree
  obtain ⟨⟨hused, hreserved⟩, hkeyword₀⟩ := hfree
  rcases (mangle_eq_some hmangle).2 with ⟨rfl, -⟩ | ⟨-, hkeyword'⟩ | ⟨-, hused'⟩
  . exact hreserved
  . simp [hkeyword₀] at hkeyword'
  . exact absurd (hused' hkeyword₀) hused

theorem IsAside.below {act : Act Ident} (h : IsAside act) {reserved : List Spelling} {l l' : Ledger Ident}
    (hstep : l.step (namePolicy reserved) act = some l') : l.Below IsBase (fun name => name ∉ reserved) l' := by
  cases h with
  | @avoid stem hkeyword =>
    rw [Ledger.step, Option.map_eq_some_iff] at hstep
    obtain ⟨name, hname, rfl⟩ := hstep
    refine ⟨List.subset_cons_self _ _, ?_, fun _ _ => rfl⟩
    intro x hx
    rcases List.mem_cons.mp hx with rfl | hx
    . exact .inr (not_mem_of_claimAvoiding (hkeyword _) hname)
    . exact .inl hx
  | @spell id stem hid =>
    rw [Ledger.step, Option.some_inj] at hstep
    subst hstep
    refine ⟨List.Subset.refl _, fun _ hx => .inl hx, ?_⟩
    intro id' hid'
    rw [Ledger.nameOf_cons_of_ne (by rintro rfl; exact hid hid')]
  | fit =>
    rw [Ledger.step] at hstep
    split at hstep
    . rw [Option.some_inj] at hstep
      subst hstep
      exact .refl
    . simp at hstep

theorem IsAside.asked {act : Act Ident} (h : IsAside act) : act.asked = none := by
  cases h <;> rfl

theorem not_suffix_of_tails
    : ∀ tail ∈ ["_ok", "_spans", "_iter_ok", "_tsize_nonneg", "_tsize_pos", "_at", "_mono"].map String.toList,
      ∀ keyword ∈ cKeywords ++ acslReserved, ¬tail <:+ keyword := by
  decide +kernel

theorem IsAside.of_tail {base : Ident} (before tail : Spelling)
    (h : ∀ keyword ∈ cKeywords ++ acslReserved, ¬tail <:+ keyword) : IsAside (.avoid ⟨base, before ++ tail⟩) := by
  apply IsAside.avoid
  intro name
  rw [← List.append_assoc]
  exact isCKeyword_append h _

section Message

variable {owner : Entity} {mems : List Member}

theorem isAside_spansActs : ∀ act ∈ spansActs owner mems, IsAside act := by
  intro act hact
  unfold spansActs at hact
  dsimp only at hact
  split at hact
  . rw [List.mem_singleton] at hact
    subst hact
    exact .of_tail [] "_spans".toList (not_suffix_of_tails _ (by simp))
  . obtain ⟨g, -, rfl⟩ := List.mem_map.mp hact
    apply IsAside.avoid
    intro name
    rw [← List.append_assoc]
    exact isCKeyword_of_digits

theorem isAside_iterOkActs : ∀ act ∈ mems.flatMap (iterOkActs owner), IsAside act := by
  intro act hact
  obtain ⟨mem, -, hact⟩ := List.mem_flatMap.mp hact
  unfold iterOkActs at hact
  split at hact
  . rw [List.mem_singleton] at hact
    subst hact
    exact .of_tail ('_' :: mem.fname) "_iter_ok".toList (not_suffix_of_tails _ (by simp))
  . simp at hact

theorem isAside_contractActs {contract : Contract} : ∀ act ∈ contractActs owner mems contract, IsAside act := by
  intro act hact
  unfold contractActs at hact
  rcases List.mem_append.mp hact with hhead | hmember
  . rcases List.mem_cons.mp hhead with rfl | hpos
    . exact .of_tail [] "_tsize_nonneg".toList (not_suffix_of_tails _ (by simp))
    . split at hpos
      . rw [List.mem_singleton] at hpos
        subst hpos
        exact .of_tail [] "_tsize_pos".toList (not_suffix_of_tails _ (by simp))
      . simp at hpos
  . obtain ⟨mem, -, hmember⟩ := List.mem_flatMap.mp hmember
    rcases List.mem_cons.mp hmember with rfl | hmono
    . exact .of_tail ("_encode_".toList ++ mem.fname) "_at".toList (not_suffix_of_tails _ (by simp))
    . split at hmono
      . rw [List.mem_singleton] at hmono
        subst hmono
        exact .of_tail ('_' :: mem.fname) "_mono".toList (not_suffix_of_tails _ (by simp))
      . simp at hmono

theorem isAside_spelledActs : ∀ act ∈ mems.flatMap (spelledActs owner), IsAside act := by
  intro act hact
  obtain ⟨mem, -, hact⟩ := List.mem_flatMap.mp hact
  unfold spelledActs at hact
  split at hact
  . simp only [List.mem_cons, List.not_mem_nil, or_false] at hact
    rcases hact with rfl | rfl | rfl | rfl <;> exact .spell (by simp [IsBase])
  . simp at hact

def reservedMember (owner : Entity) (mem : Member) : List (Act Ident) :=
  .hold (getterStem owner mem.fname)
    :: if mem.shape.isMap then [.hold (entryStem owner mem.fname)] else []

theorem reservedMember_follows (mem : Member)
    : Follows IsBase IsAside (reservedMember owner mem) (memberActs owner mem) := by
  have hrest : Follows IsBase IsAside (if mem.shape.isMap then [.hold (entryStem owner mem.fname)] else [])
      (if mem.shape.isMap then
        [.fit (entryStem owner mem.fname) 512,
          .claim ⟨owner, .entry mem.index⟩ (entryStem owner mem.fname)]
      else
        []) := by
    split
    . exact .extra .fit (.hold (isBase_type owner) (by simp [IsBase]) .nil)
    . exact .nil
  unfold reservedMember memberActs
  by_cases hcount : mem.shape.hasCount = true
  . rw [if_pos hcount]
    exact .same rfl (isBase_reader owner) hrest
  . rw [if_neg hcount]
    exact .hold (isBase_reader owner) (by simp [IsBase]) hrest

theorem reservedMember_claimed (mem : Member)
    : (reservedMember owner mem).filter (fun act => !isUnclaimed act) = reservedMember owner mem := by
  rw [List.filter_eq_self]
  intro act hact
  rcases List.mem_cons.mp hact with rfl | hentry
  . rfl
  . split at hentry
    . rw [List.mem_singleton] at hentry
      subst hentry
      have hne (tail : Spelling) (c : Char) (hc : tail.getLast? = some c) (hy : c ≠ 'y')
          : '_' :: mem.fname ++ "_entry".toList ≠ tail := by
        intro heq
        have hlast := congrArg List.getLast? heq
        rw [List.getLast?_append_of_ne_nil _ (by decide), hc] at hlast
        exact hy (Option.some_inj.mp hlast).symm
      have hcached := hne "_cached_size".toList 'e' rfl (by decide)
      have hencode := hne "_encode_at".toList 't' rfl (by decide)
      simp only [isUnclaimed, entryStem, hcached, hencode, decide_false, Bool.or_self, Bool.not_false]
    . simp at hentry

theorem messageActs_follows {m : MessageNode} {contract : Option Contract} {acts acts' : List (Act Ident)}
    (h : reservedActs owner m = some acts) (h' : messageActs owner contract m = some acts')
    : Follows IsBase IsAside (acts.filter fun act => !isUnclaimed act) acts' := by
  unfold reservedActs at h
  rw [Option.map_eq_some_iff] at h
  obtain ⟨mems, hmems, rfl⟩ := h
  unfold messageActs at h'
  split at h'
  . simp at h'
  . rw [hmems, Option.map_some, Option.some_inj] at h'
    subst h'
    have htype := isBase_type owner
    have hreader := isBase_reader owner
    have hmembers : Follows IsBase IsAside (mems.flatMap (reservedMember owner)) (mems.flatMap (memberActs owner)) :=
      Follows.flatMap fun mem _ => reservedMember_follows mem
    have hclaimed : (mems.flatMap (reservedMember owner)).filter (fun act => !isUnclaimed act)
        = mems.flatMap (reservedMember owner) := by
      simp only [List.filter_flatMap, reservedMember_claimed]
    change Follows IsBase IsAside
      (List.filter (fun act => !isUnclaimed act) ([_, _, _, _, _, _] ++ mems.flatMap (reservedMember owner))) _
    rw [List.filter_append, hclaimed]
    have hrest : Follows IsBase IsAside (mems.flatMap (reservedMember owner))
        (.avoid (readerStem owner "_ok")
          :: spansActs owner mems
          ++ mems.flatMap (memberActs owner)
          ++ mems.flatMap (iterOkActs owner)
          ++ contract.elim [] (contractActs owner mems)
          ++ .spell ⟨owner, .cachedSize⟩ (typeStem owner "_cached_size")
          :: .spell ⟨owner, .encodeAt⟩ (typeStem owner "_encode_at")
          :: mems.flatMap (spelledActs owner)) := by
      apply Follows.append_extra
      . apply Follows.append_extra
        . apply Follows.append_extra
          . apply Follows.extra_append
            . rw [List.forall_mem_cons]
              exact ⟨.of_tail [] "_ok".toList (not_suffix_of_tails _ (by simp)), isAside_spansActs⟩
            . exact hmembers
          . exact isAside_iterOkActs
        . cases contract with
          | none => simp
          | some contract => exact isAside_contractActs
      . rw [List.forall_mem_cons, List.forall_mem_cons]
        exact ⟨.spell (by simp [IsBase]), .spell (by simp [IsBase]), isAside_spelledActs⟩
    exact .hold htype (by simp [IsBase]) (.hold htype (by simp [IsBase])
      (.same rfl htype (.hold hreader (by simp [IsBase]) hrest)))

end Message

theorem forall₂_of_mapM_mapM {α β γ : Type} {g : α → Option β} {g' : α → Option γ} {l : List α}
    {l' : List β} {l'' : List γ} (h : l.mapM g = some l') (h' : l.mapM g' = some l'')
    : List.Forall₂ (fun b c => ∃ a ∈ l, g a = some b ∧ g' a = some c) l' l'' := by
  have hforall := forall₂_of_mapM_some h
  have hforall' := forall₂_of_mapM_some h'
  clear h h'
  induction hforall generalizing l'' with
  | nil =>
    cases hforall'
    exact .nil
  | @cons a b l l' hb _ ih =>
    cases hforall' with
    | cons hc hrest =>
      apply List.Forall₂.cons
      . exact ⟨a, List.mem_cons_self, hb, hc⟩
      . apply (ih hrest).imp
        rintro b c ⟨a, ha, hb, hc⟩
        exact ⟨a, List.mem_cons_of_mem _ ha, hb, hc⟩

namespace Pool

variable {p : Pool} {f : FileId}

theorem actsOf_follows {acts acts' : NodeId → MessageNode → Option (List (Act Ident))}
    (hfollows : ∀ id m as as', acts id m = some as → acts' id m = some as'
      → Follows IsBase IsAside (as.filter fun act => !isUnclaimed act) as')
    {block block' : List (Act Ident)} (h : p.actsOf acts f = some block) (h' : p.actsOf acts' f = some block')
    : Follows IsBase IsAside (block.filter fun act => !isUnclaimed act) block' := by
  unfold actsOf at h h'
  simp only [Option.bind_eq_bind, Option.bind_eq_some_iff] at h h'
  obtain ⟨ms, hms, blocks, hblocks, heq⟩ := h
  obtain ⟨ms', hms', blocks', hblocks', heq'⟩ := h'
  rw [hms, Option.some_inj] at hms'
  subst hms'
  cases heq
  cases heq'
  rw [List.filter_append, List.filter_flatten]
  apply Follows.append
  . apply Follows.filter
    . intro act hact hp
      obtain ⟨_, hmem, hact⟩ := List.mem_flatten.mp hact
      obtain ⟨i, hi, rfl⟩ := List.mem_mapIdx.mp hmem
      obtain ⟨j, hj, rfl⟩ := List.mem_mapIdx.mp hact
      simp [isUnclaimed] at hp
    . intro act hact
      obtain ⟨_, hmem, hact⟩ := List.mem_flatten.mp hact
      obtain ⟨i, hi, rfl⟩ := List.mem_mapIdx.mp hmem
      obtain ⟨stem, hstem, hbase, -⟩ := asks_enumActs act hact
      exact ⟨stem, hstem, hbase⟩
  . apply Follows.flatten
    rw [List.forall₂_map_left_iff]
    apply (forall₂_of_mapM_mapM hblocks hblocks').imp
    rintro as as' ⟨⟨i, m⟩, -, has, has'⟩
    exact hfollows _ m as as' has has'

theorem acts_follows {plan : Plan} {walk acts : List (Act Ident)} (h : p.reservations = some walk)
    (h' : p.acts plan = some acts)
    : Follows IsBase IsAside (walk.filter fun act => !isUnclaimed act) acts := by
  unfold reservations at h
  unfold Pool.acts at h'
  rw [Option.map_eq_some_iff] at h h'
  obtain ⟨blocks, hblocks, rfl⟩ := h
  obtain ⟨blocks', hblocks', rfl⟩ := h'
  rw [List.filter_flatten]
  apply Follows.flatten
  rw [List.forall₂_map_left_iff]
  apply (forall₂_of_mapM_mapM hblocks hblocks').imp
  rintro block block' ⟨f, -, hblock, hblock'⟩
  exact actsOf_follows (fun id m as as' has has' => messageActs_follows has has') hblock hblock'

theorem agenda_eq_some {plan : Plan} {a : Agenda} (h : p.agenda plan = some a)
    : ∃ walk final, p.reservations = some walk ∧ a.types.run (namePolicy []) walk = some final
        ∧ a.reserved = final.used ∧ p.acts plan = some a.acts := by
  unfold agenda reservedNames at h
  simp only [Option.bind_eq_bind, Option.bind_eq_some_iff] at h
  obtain ⟨types, -, reserved, ⟨blocks, hblocks, final, hfinal, heq⟩, acts, hacts, heq'⟩ := h
  cases heq
  cases heq'
  refine ⟨blocks.flatten, final, ?_, hfinal, rfl, hacts⟩
  unfold reservations
  rw [hblocks, Option.map_some]

end Pool

/--
The emission gives the names that the reservation would give without the claims of names that the emission
does not claim. Constants, getters and entries have the names that are reserved for them exactly where none
of them passes over a name that is in use only because of these claims.
-/
theorem Pool.publicNames_iff {p : Pool} {plan : Plan} {a : Agenda} {walk : List (Act Ident)} {l : Ledger Ident}
    (hagenda : p.agenda plan = some a) (hwalk : p.reservations = some walk) (hrun : a.run = some l)
    : a.types.grants (namePolicy a.reserved) a.acts
          = a.types.grants (namePolicy []) (walk.filter fun act => !isUnclaimed act)
        ∧ (publicNames (namePolicy a.reserved) a.types a.acts = publicNames (namePolicy []) a.types walk
          ↔ Ledger.Undisturbed (namePolicy []) candidates isUnclaimed isPublic a.types [] walk) := by
  obtain ⟨walk', final, hwalk', hfinal, hreserved, hacts⟩ := Pool.agenda_eq_some hagenda
  rw [hwalk, Option.some_inj] at hwalk'
  subst hwalk'
  obtain ⟨final', hfinal', hsub⟩ := Pool.exists_claimed hwalk hfinal
  have hgrants : a.types.grants (namePolicy a.reserved) a.acts
      = a.types.grants (namePolicy []) (walk.filter fun act => !isUnclaimed act) := by
    apply (Pool.acts_follows hwalk hacts).grants_eq (namePolicy_picks []) (namePolicy_picks a.reserved)
      (fun act hact l l' hstep => hact.below hstep) (fun act hact => hact.asked) .refl hfinal' _ hrun
    intro name hname
    rw [hreserved, not_not]
    exact hsub hname
  have hkept : ∀ act ∈ walk, ∃ stem, act.asked = some stem ∧ IsBase stem.base
      ∧ ∀ id ∈ act.ids, IsBase id → ∀ before, ∀ name ∈ candidates (before ++ stem.suffix), ¬IsHeld name := by
    intro act hact
    obtain ⟨stem, hasked, hbase, hreader⟩ := Pool.asks_reservations hwalk act hact
    refine ⟨stem, hasked, hbase, ?_⟩
    intro id hid hidBase before name hname
    rw [hreader id hid hidBase] at hname
    exact not_isHeld_reader hname
  have hextra : ∀ act ∈ walk, isUnclaimed act = true → act.ids = [] ∧ ∀ stem, act.asked = some stem →
      isPublic stem = false ∧ ∀ before, ∀ name ∈ candidates (before ++ stem.suffix), IsHeld name := by
    intro act hact hunclaimed
    obtain ⟨owner, suffix, rfl, -, hheld⟩ := isUnclaimed_eq_true hunclaimed
    refine ⟨rfl, ?_⟩
    intro stem hasked
    refine ⟨Pool.not_isPublic_of_isUnclaimed hwalk hact hunclaimed hasked, ?_⟩
    rw [Act.asked, Option.some_inj] at hasked
    subst hasked
    exact hheld
  obtain ⟨given, given', hgiven, hgiven', hiff⟩ := Ledger.Apart.undisturbed_iff (namePolicy_picks [])
    (fun raw name hname hheld name' hname' => isHeld_candidate hname hname' hheld) hkept hextra .refl hfinal
  refine ⟨hgrants, ?_⟩
  rw [← hiff]
  unfold publicNames
  rw [hgrants, hgiven, hgiven', Option.map_some, Option.map_some, Option.some_inj]
  exact eq_comm

/--
A message, and in another file an enum with a constant that is spelled like its `_cached_size`.
-/
def shiftedConstant : Sources where
  files := [0, 1]
  nodup := nodup_pair
  path f := if f = 0 then "a.proto".toList else "b.proto".toList
  text f := if f = 0 then "message A{}".toList else "enum A_cached{size=0;}".toList

/--
Run the generator without contracts, and look for a name that is not the reserved one.
-/
def shifts [Libc] (src : Sources) : Bool :=
  match src.describe with
  | none => false
  | some p =>
    match p.agenda fun _ => none, p.reservations with
    | some a, some walk =>
      a.run.isSome
        && publicNames (namePolicy a.reserved) a.types a.acts ≠ publicNames (namePolicy []) a.types walk
    | _, _ => false

theorem shifted_of_shifts [Libc] {src : Sources} (h : shifts src = true)
    : ∃ p a walk l, src.describe = some p ∧ p.agenda (fun _ => none) = some a ∧ p.reservations = some walk
        ∧ a.run = some l
        ∧ publicNames (namePolicy a.reserved) a.types a.acts ≠ publicNames (namePolicy []) a.types walk := by
  unfold shifts at h
  split at h
  . simp at h
  . next p hdescribe =>
    split at h
    . next a walk hagenda hwalk =>
      simp only [Bool.and_eq_true, Option.isSome_iff_exists, decide_eq_true_eq] at h
      obtain ⟨⟨l, hl⟩, hne⟩ := h
      exact ⟨p, a, walk, l, hdescribe, hagenda, hwalk, hl, hne⟩
    . simp at h

theorem shiftedConstant_shifts : @shifts Pool.constLibc shiftedConstant = true := by
  decide +kernel

theorem shiftedConstant_publicNames_ne
    : ∃ p a walk l, @Sources.describe Pool.constLibc shiftedConstant = some p
        ∧ p.agenda (fun _ => none) = some a ∧ p.reservations = some walk ∧ a.run = some l
        ∧ publicNames (namePolicy a.reserved) a.types a.acts ≠ publicNames (namePolicy []) a.types walk :=
  @shifted_of_shifts Pool.constLibc shiftedConstant shiftedConstant_shifts

theorem shiftedConstant_publicNames_iff
    : ∃ p a walk, @Sources.describe Pool.constLibc shiftedConstant = some p
        ∧ p.agenda (fun _ => none) = some a
        ∧ a.types.grants (namePolicy a.reserved) a.acts
          = a.types.grants (namePolicy []) (walk.filter fun act => !isUnclaimed act)
        ∧ (publicNames (namePolicy a.reserved) a.types a.acts = publicNames (namePolicy []) a.types walk
          ↔ Ledger.Undisturbed (namePolicy []) candidates isUnclaimed isPublic a.types [] walk) := by
  obtain ⟨p, a, walk, l, hdescribe, hagenda, hwalk, hl, -⟩ :=
    @shifted_of_shifts Pool.constLibc shiftedConstant shiftedConstant_shifts
  exact ⟨p, a, walk, hdescribe, hagenda, Pool.publicNames_iff hagenda hwalk hl⟩

end Gremlin
