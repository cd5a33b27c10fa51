import Gremlin.Codegen.Scope

/-!
This module contains what a name scope gives out over a whole sequence of requests.
-/

namespace Gremlin

open Naming

abbrev Requested :=
  { name : Spelling // name ≠ [] }

inductive Request where
  | mangle (raw : Requested)
  | type (first : Requested) (segments : List Requested)

/--
What a request returns, and the names that are registered after it.
-/
structure Answer where
  name : Option Spelling
  used : List Spelling

/--
`gremlinc_name_scope_mangle`.
-/
def scopeMangle (used : List Spelling) (raw : Spelling) : Answer :=
  match mangle used raw with
  | some name => ⟨some name, name :: used⟩
  | none => ⟨none, used⟩

/--
The loop of `gremlinc_cname_for_type`; without fuel it has not ended.
-/
def cnameForTypeLoop (raw : Spelling) : (fuel : Nat) → Answer → Option Answer
  | 0, _ => none
  | fuel + 1, ⟨some c, used⟩ =>
    if inRuntimeNamespace c && !hasNumberSegment c then
      cnameForTypeLoop raw fuel (scopeMangle used raw)
    else
      some ⟨some c, used⟩
  | _ + 1, ⟨none, used⟩ => some ⟨none, used⟩

def Request.raw : Request → Spelling
  | .mangle raw => raw.val
  | .type first segments => List.intercalate ['_'] ((first :: segments).map Subtype.val)

def Request.answer (fuel : Nat) (used : List Spelling) (request : Request) : Option Answer :=
  match request with
  | .mangle _ => some (scopeMangle used request.raw)
  | .type _ _ => cnameForTypeLoop request.raw fuel (scopeMangle used request.raw)

/--
A request, with the names that are registered before it.
-/
structure Served where
  used : List Spelling
  request : Request
  answer : Answer

def serve (fuel : Nat) (used : List Spelling) : List Request → Option (List Served)
  | [] => some []
  | request :: requests =>
    (request.answer fuel used).bind fun answer =>
      (serve fuel answer.used requests).map fun served => ⟨used, request, answer⟩ :: served

def Numbered (name : Spelling) : Prop :=
  ∃ before c after, name = before ++ '_' :: c :: after ∧ c.isDigit = true

/--
What a request promises.
-/
structure Served.Proper (served : Served) : Prop where
  kept : served.used ⊆ served.answer.used
  registered : ∀ name ∈ served.answer.name, name ∈ served.answer.used
  fresh : ∀ name ∈ served.answer.name, name ∉ served.used
  unreserved : ∀ name ∈ served.answer.name, isCKeyword name = false
  unchanged : ∀ raw, served.request = .mangle raw → raw.val ∉ served.used → isCKeyword raw.val = false
    → served.answer.name = some raw.val
  saturated : served.answer.name = none → 999999 ≤ served.used.length
  runtime : ∀ first segments, served.request = .type first segments → ∀ name ∈ served.answer.name,
    ("gremlin_".toList <+: name ∨ "GREMLIN_".toList <+: name) → Numbered name

def names (served : List Served) : List Spelling :=
  served.filterMap fun s => s.answer.name

theorem hasNumberSegment_iff {name : Spelling} : hasNumberSegment name = true ↔ Numbered name := by
  induction name with
  | nil => simp [hasNumberSegment, Numbered]
  | cons c name ih =>
    rw [hasNumberSegment, Bool.or_eq_true, ih, Bool.and_eq_true, decide_eq_true_eq]
    constructor
    . rintro (⟨rfl, hdigit⟩ | ⟨before, d, after, rfl, hdigit⟩)
      . cases name with
        | nil => simp at hdigit
        | cons d after => exact ⟨[], d, after, rfl, by simpa using hdigit⟩
      . exact ⟨c :: before, d, after, rfl, hdigit⟩
    . rintro ⟨before, d, after, heq, hdigit⟩
      cases before with
      | nil =>
        rw [List.nil_append, List.cons.injEq] at heq
        obtain ⟨rfl, rfl⟩ := heq
        exact .inl ⟨rfl, by simpa using hdigit⟩
      | cons _ before =>
        rw [List.cons_append, List.cons.injEq] at heq
        exact .inr ⟨before, d, after, heq.2, hdigit⟩

theorem inRuntimeNamespace_of_head {name : Spelling}
    (h : "gremlin_".toList <+: name ∨ "GREMLIN_".toList <+: name) : inRuntimeNamespace name = true := by
  rcases h with ⟨rest, rfl⟩ | ⟨rest, rfl⟩
  . simp [inRuntimeNamespace]
  . simp [inRuntimeNamespace]

/-! What is not a reserved word. -/

theorem isCKeyword_append_underscore {raw : Spelling} (h : isCKeyword raw = true)
    : isCKeyword (raw ++ ['_']) = false := by
  have hall : ∀ keyword ∈ cKeywords ++ acslReserved, isCKeyword (keyword ++ ['_']) = false := by
    decide +kernel
  apply hall
  unfold isCKeyword at h
  simpa using h

theorem isCKeyword_numbered (candidate : Spelling) (i : Nat) : isCKeyword (numbered candidate i) = false := by
  have hall : ∀ keyword ∈ cKeywords ++ acslReserved, keyword.getLast?.any Char.isDigit = false := by
    decide +kernel
  rw [Bool.eq_false_iff]
  intro hkeyword
  have hmem : numbered candidate i ∈ cKeywords ++ acslReserved := by
    unfold isCKeyword at hkeyword
    simpa using hkeyword
  have hlast := hall _ hmem
  unfold numbered at hlast
  rw [List.getLast?_append_of_ne_nil _ (by simp), List.getLast?_cons_of_ne_nil Nat.toDigits_ne_nil]
    at hlast
  cases hc : (Nat.toDigits 10 i).getLast? with
  | none => exact absurd (List.getLast?_eq_none_iff.mp hc) Nat.toDigits_ne_nil
  | some c =>
    have hdigit : c.isDigit = true :=
      Nat.isDigit_of_mem_toDigits (by decide) (by decide) (List.mem_of_getLast? hc)
    rw [hc, Option.any_some, hdigit] at hlast
    simp at hlast

theorem mangle_unreserved {used : List Spelling} {raw name : Spelling} (h : mangle used raw = some name)
    : isCKeyword name = false := by
  rcases (mangle_eq_some h).2 with ⟨rfl, hkeyword⟩ | ⟨rfl, hkeyword⟩ | ⟨⟨candidate, i, rfl⟩, -⟩
  . exact hkeyword
  . exact isCKeyword_append_underscore hkeyword
  . exact isCKeyword_numbered candidate i

theorem mangle_of_free {used : List Spelling} {raw : Spelling} (hraw : raw ≠ []) (hfree : raw ∉ used)
    (hkeyword : isCKeyword raw = false) : mangle used raw = some raw := by
  simp [mangle, hraw, hfree, hkeyword]

theorem length_of_mangle_eq_none {used : List Spelling} {raw : Spelling} (hraw : raw ≠ [])
    (h : mangle used raw = none) : 1000000 ≤ used.length := by
  unfold mangle at h
  rw [if_neg hraw] at h
  dsimp only at h
  generalize (if isCKeyword raw = true then raw ++ ['_'] else raw) = candidate at h
  split at h
  . next hmem =>
    have hlen := length_of_firstFree_eq_none h
    rw [List.length_erase_of_mem hmem] at hlen
    omega
  . simp at h

/-! The requests. -/

theorem scopeMangle_eq (used : List Spelling) (raw : Spelling)
    : scopeMangle used raw = ⟨mangle used raw, (mangle used raw).toList ++ used⟩ := by
  unfold scopeMangle
  cases mangle used raw <;> rfl

theorem Request.raw_ne_nil (request : Request) : request.raw ≠ [] := by
  cases request with
  | mangle raw => exact raw.property
  | type first segments =>
    obtain ⟨first, hfirst⟩ := first
    cases first with
    | nil => exact absurd rfl hfirst
    | cons c first => cases segments <;> simp [raw, List.intercalate]

theorem cnameForTypeLoop_eq (fuel : Nat) (used : List Spelling) (raw : Spelling)
    : cnameForTypeLoop raw (fuel + 2) (scopeMangle used raw)
        =
      match mangle used raw with
      | none => some ⟨none, used⟩
      | some c =>
        if inRuntimeNamespace c && !hasNumberSegment c then
          some (scopeMangle (c :: used) raw)
        else
          some ⟨some c, c :: used⟩ := by
  rw [scopeMangle_eq]
  cases hc : mangle used raw with
  | none => rfl
  | some c =>
    rw [cnameForTypeLoop]
    dsimp only [Option.toList_some, List.singleton_append]
    split
    . rw [scopeMangle_eq]
      cases hc' : mangle (c :: used) raw with
      | none => rfl
      | some c' =>
        rw [cnameForTypeLoop, hasNumberSegment_of_retry hc hc']
        simp
    . rfl

theorem scopeMangle_proper (used : List Spelling) (raw : Requested)
    : Served.Proper ⟨used, .mangle raw, scopeMangle used raw.val⟩ := by
  rw [scopeMangle_eq]
  refine ⟨List.subset_append_right _ _, ?_, ?_, ?_, ?_, ?_, ?_⟩
  . intro name hname
    exact List.mem_append_left _ (Option.mem_toList.mpr hname)
  . intro name hname
    exact (mangle_eq_some hname).1
  . intro name hname
    exact mangle_unreserved hname
  . rintro raw' heq hfree hkeyword
    rw [Request.mangle.injEq] at heq
    subst heq
    exact mangle_of_free raw.property hfree hkeyword
  . intro hnone
    have := length_of_mangle_eq_none raw.property hnone
    dsimp only
    omega
  . rintro first segments heq
    simp at heq

theorem type_answer_proper {used : List Spelling} {request : Request} {c : Spelling}
    (hc : mangle used request.raw = some c)
    (hnumbered : inRuntimeNamespace c = true → hasNumberSegment c = true)
    (htype : ∀ raw, request ≠ .mangle raw)
    : Served.Proper ⟨used, request, ⟨some c, c :: used⟩⟩ := by
  refine ⟨List.subset_cons_self _ _, ?_, ?_, ?_, ?_, ?_, ?_⟩
  . simp
  . rintro _ ⟨⟩
    exact (mangle_eq_some hc).1
  . rintro _ ⟨⟩
    exact mangle_unreserved hc
  . intro raw heq
    exact absurd heq (htype raw)
  . simp
  . rintro _ _ - _ ⟨⟩ hruntime
    exact hasNumberSegment_iff.mp (hnumbered (inRuntimeNamespace_of_head hruntime))

theorem answer_proper (used : List Spelling) (request : Request)
    : ∃ answer, (∀ fuel, request.answer (fuel + 2) used = some answer)
        ∧ Served.Proper ⟨used, request, answer⟩ := by
  cases hrequest : request with
  | mangle raw => exact ⟨scopeMangle used raw.val, fun _ => rfl, scopeMangle_proper used raw⟩
  | type first segments =>
    rw [← hrequest]
    have htype : ∀ raw, request ≠ .mangle raw := by
      simp [hrequest]
    have hends : ∀ fuel, request.answer (fuel + 2) used
        = cnameForTypeLoop request.raw (fuel + 2) (scopeMangle used request.raw) := by
      simp [hrequest, Request.answer]
    simp only [hends, cnameForTypeLoop_eq]
    cases hc : mangle used request.raw with
    | none =>
      refine ⟨⟨none, used⟩, fun _ => rfl, List.Subset.refl _, ?_, ?_, ?_, ?_, ?_, ?_⟩
      . simp
      . simp
      . simp
      . intro raw heq
        exact absurd heq (htype raw)
      . intro _
        have := length_of_mangle_eq_none request.raw_ne_nil hc
        dsimp only
        omega
      . simp
    | some c =>
      dsimp only
      split
      . -- the first name is registered, although it is not returned
        refine ⟨scopeMangle (c :: used) request.raw, fun _ => rfl, ?_⟩
        rw [scopeMangle_eq]
        cases hc' : mangle (c :: used) request.raw with
        | none =>
          refine ⟨List.subset_cons_self _ _, ?_, ?_, ?_, ?_, ?_, ?_⟩
          . simp
          . simp
          . simp
          . intro raw heq
            exact absurd heq (htype raw)
          . intro _
            have := length_of_mangle_eq_none request.raw_ne_nil hc'
            rw [List.length_cons] at this
            dsimp only
            omega
          . simp
        | some c' =>
          have hproper := type_answer_proper hc' (fun _ => hasNumberSegment_of_retry hc hc') htype
          have hfresh : c' ∉ c :: used := hproper.fresh c' rfl
          refine ⟨?_, hproper.registered, ?_, hproper.unreserved, ?_, ?_, hproper.runtime⟩
          . exact fun _ hmem => List.mem_cons_of_mem _ (List.mem_cons_of_mem _ hmem)
          . rintro _ ⟨⟩ hmem
            exact hfresh (List.mem_cons_of_mem _ hmem)
          . intro raw heq
            exact absurd heq (htype raw)
          . simp
      . next hretry =>
        refine ⟨⟨some c, c :: used⟩, fun _ => rfl, type_answer_proper hc ?_ htype⟩
        intro hruntime
        simpa [hruntime] using hretry

/--
Over a whole sequence of requests no name is given twice, whatever else is registered.
-/
theorem requests_served (used : List Spelling) (requests : List Request)
    : ∃ served, (∀ fuel, 2 ≤ fuel → serve fuel used requests = some served)
        ∧ (∀ s ∈ served, s.Proper)
        ∧ (names served).Nodup ∧ ∀ name ∈ names served, name ∉ used := by
  induction requests generalizing used with
  | nil => exact ⟨[], fun _ _ => rfl, by simp, List.nodup_nil, by simp [names]⟩
  | cons request requests ih =>
    obtain ⟨answer, hanswer, hproper⟩ := answer_proper used request
    obtain ⟨served, hserve, hall, hnodup, hfresh⟩ := ih answer.used
    refine ⟨⟨used, request, answer⟩ :: served, ?_, ?_, ?_, ?_⟩
    . intro fuel hfuel
      obtain ⟨fuel, rfl⟩ := Nat.exists_eq_add_of_le' hfuel
      rw [serve, hanswer, Option.bind_some, hserve _ hfuel, Option.map_some]
    . rw [List.forall_mem_cons]
      exact ⟨hproper, hall⟩
    . cases hname : answer.name with
      | none => simpa [names, hname] using hnodup
      | some name =>
        have hmem := hproper.registered name hname
        simp only [names, List.filterMap_cons, hname, List.nodup_cons]
        exact ⟨fun h => hfresh name h hmem, hnodup⟩
    . intro name hmem
      have hor : answer.name = some name ∨ name ∈ names served := by
        cases hname : answer.name with
        | none =>
          simp only [names, List.filterMap_cons, hname] at hmem
          exact .inr hmem
        | some c =>
          simp only [names, List.filterMap_cons, hname, List.mem_cons] at hmem
          exact hmem.imp_left fun h => by rw [h]
      rcases hor with hname | hmem
      . exact hproper.fresh name hname
      . exact fun hused => hfresh name hmem (hproper.kept hused)

end Gremlin
