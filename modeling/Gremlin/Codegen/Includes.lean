import Gremlin.Codegen.Defaults
import Gremlin.Descriptors.Hints

/-!
This module contains the system headers that a generated header needs: `math.h` for the macros that
default literals are spelled with and `string.h` for the guards that compare bytes.
-/

namespace Gremlin

open Codec Text

/--
One of the macros of `math.h` is in the literal, outside of a string.
-/
def NamesMathMacro (literal : Span) : Prop :=
  ∃ word ∈ ["INFINITY".toList, "NAN".toList], word <:+: literal.takeWhile (· ≠ '"')

def NamesInfinity (literal : Span) : Prop :=
  "INFINITY".toList <:+: literal.takeWhile (· ≠ '"')

/--
The scalar that a singular field is emitted as.
-/
def FieldNode.scalarKind (fld : FieldNode) : Option ScalarKind :=
  match fld.shape, fld.type with
  | .scalar, .builtin name => scalarLookup name
  | _, _ => none

/--
The format of a real type, and from where on the emitter takes a number of it for an infinity.
-/
def ScalarKind.cutoff : ScalarKind → Option (BinaryFormat × ℚ)
  | .float => some (.binary32, floatCutoff)
  | .double => some (.binary64, doubleCutoff)
  | _ => none

/-! The literals. -/

theorem NamesInfinity.math {literal : Span} (h : NamesInfinity literal) : NamesMathMacro literal :=
  ⟨_, List.mem_cons_self, h⟩

theorem not_namesMathMacro {literal : Span} (h : 'N' ∉ literal) : ¬NamesMathMacro literal := by
  rintro ⟨word, hword, hinner⟩
  apply h
  apply (List.takeWhile_prefix _).subset
  apply hinner.subset
  have hall : ∀ word ∈ ["INFINITY".toList, "NAN".toList], 'N' ∈ word := by decide
  exact hall word hword

theorem printed_eq_some {size : Nat} {buf literal : Span} (h : printed size buf = some literal) : literal = buf := by
  unfold printed at h
  split at h
  . simp at h
  . exact (Option.some_inj.mp h).symm

theorem not_mem_unsigned (n : Nat) : 'N' ∉ Printf.unsigned n := by
  intro h
  have := Printf.isDigit_of_mem_unsigned h
  simp at this

theorem not_mem_signed (v : Int) : 'N' ∉ Printf.signed v := by
  unfold Printf.signed
  split
  . rw [List.mem_cons, not_or]
    exact ⟨by decide, not_mem_unsigned _⟩
  . exact not_mem_unsigned _

theorem not_mem_general (precision : Nat) (q : ℚ) : 'N' ∉ Printf.general precision q := by
  intro h
  have := Printf.general_plain precision q _ h
  simp [Printf.IsPlain] at this

theorem not_namesMathMacro_zero (kind : ScalarKind) : ¬NamesMathMacro (defaultCheckRhs kind) := by
  apply not_namesMathMacro
  cases kind <;> decide

theorem not_namesMathMacro_minimum
    : ¬NamesMathMacro "INT32_MIN".toList ∧ ¬NamesMathMacro "INT64_MIN".toList := by
  unfold NamesMathMacro
  decide

theorem not_mem_append_suffix {text suffix : Span} (h : 'N' ∉ text) (hsuffix : 'N' ∉ suffix)
    : 'N' ∉ text ++ suffix := by
  rw [List.mem_append, not_or]
  exact ⟨h, hsuffix⟩

theorem scalarResolveDefault_integral {fld : FieldNode} {kind : ScalarKind} (hkind : kind.cutoff = none)
    {literal : Span} (h : scalarResolveDefault fld kind = some literal) : ¬NamesMathMacro literal := by
  unfold scalarResolveDefault at h
  split at h
  . rw [← Option.some_inj.mp h]
    exact not_namesMathMacro_zero kind
  . next c _ =>
    cases kind <;> simp only [ScalarKind.cutoff, reduceCtorEq] at hkind
    case int32 | sint32 | sfixed32 =>
      dsimp only at h
      split at h
      . simp at h
      . split at h
        . rw [← Option.some_inj.mp h]
          exact not_namesMathMacro_minimum.1
        . rw [printed_eq_some h]
          exact not_namesMathMacro (not_mem_signed _)
    case int64 | sint64 | sfixed64 =>
      dsimp only at h
      split at h
      . simp at h
      . split at h
        . rw [← Option.some_inj.mp h]
          exact not_namesMathMacro_minimum.2
        . rw [printed_eq_some h]
          exact not_namesMathMacro (not_mem_append_suffix (not_mem_signed _) (by decide))
    case uint32 | fixed32 | uint64 | fixed64 =>
      dsimp only at h
      split at h
      . simp at h
      . rw [printed_eq_some h]
        exact not_namesMathMacro (not_mem_append_suffix (not_mem_unsigned _) (by decide))
    case bool =>
      dsimp only at h
      split at h
      . simp at h
      . rw [← Option.some_inj.mp h]
        apply not_namesMathMacro
        split <;> decide

theorem not_mem_printed {x : Extended} {cutoff : ℚ} (h : ¬x.Beyond cutoff) (precision : Nat)
    : 'N' ∉ withPoint (printGeneral precision x) := by
  have hfinite : ∃ q, x = .finite q := by
    cases x with
    | nan => exact absurd (.inl rfl) h
    | infinity negative => cases negative <;> simp [Extended.Beyond, Extended.above, Extended.below] at h
    | finite q => exact ⟨q, rfl⟩
  obtain ⟨q, rfl⟩ := hfinite
  have hprint : 'N' ∉ printGeneral precision (.finite q) := not_mem_general precision q
  unfold withPoint
  split
  . exact not_mem_append_suffix hprint (by decide)
  . exact hprint

theorem namesMathMacro_specials
    : NamesMathMacro "(float)NAN".toList ∧ NamesMathMacro "(double)NAN".toList
        ∧ NamesInfinity "(float)INFINITY".toList ∧ NamesInfinity "(float)(-INFINITY)".toList
        ∧ NamesInfinity "(double)INFINITY".toList ∧ NamesInfinity "(double)(-INFINITY)".toList := by
  unfold NamesMathMacro NamesInfinity
  decide +kernel

theorem cutoff_literal {x : Extended} {cutoff : ℚ} {nan infinity negative : Span} {rest : Option Span}
    (hnan : NamesMathMacro nan) (hinfinity : NamesInfinity infinity) (hnegative : NamesInfinity negative)
    (hrest : ¬x.Beyond cutoff → ∀ literal, rest = some literal → ¬NamesMathMacro literal)
    : (x.Beyond cutoff → ∃ literal, (if x = .nan then some nan else if x.above cutoff then some infinity
          else if x.below (-cutoff) then some negative else rest) = some literal ∧ NamesMathMacro literal
        ∧ (x ≠ .nan → NamesInfinity literal))
      ∧ (¬x.Beyond cutoff → ∀ literal, (if x = .nan then some nan else if x.above cutoff then some infinity
          else if x.below (-cutoff) then some negative else rest) = some literal → ¬NamesMathMacro literal) := by
  by_cases heq : x = .nan
  . rw [if_pos heq]
    exact ⟨fun _ => ⟨_, rfl, hnan, fun h => absurd heq h⟩, fun h => absurd (.inl heq) h⟩
  rw [if_neg heq]
  by_cases habove : x.above cutoff = true
  . rw [if_pos habove]
    exact ⟨fun _ => ⟨_, rfl, hinfinity.math, fun _ => hinfinity⟩, fun h => absurd (.inr (.inl habove)) h⟩
  rw [if_neg habove]
  by_cases hbelow : x.below (-cutoff) = true
  . rw [if_pos hbelow]
    exact ⟨fun _ => ⟨_, rfl, hnegative.math, fun _ => hnegative⟩, fun h => absurd (.inr (.inr hbelow)) h⟩
  . rw [if_neg hbelow]
    exact ⟨fun h => absurd h (by simp [Extended.Beyond, heq, habove, hbelow]), hrest⟩

theorem constToReal_of_number {c : Const} {x : Extended} (h : c.number = some x) (format : BinaryFormat)
    : constToReal format c = .ok (format.convert x) := by
  rw [constToReal, h]

/--
A number is emitted with a macro if it is beyond the cutoff of its type, and with none if it is not.
-/
theorem scalarResolveDefault_real {fld : FieldNode} {kind : ScalarKind} {format : BinaryFormat} {cutoff : ℚ}
    (hkind : kind.cutoff = some (format, cutoff)) {c : Const} (hfld : fld.default = some c) {x : Extended}
    (hc : c.number = some x)
    : ((format.convert x).Beyond cutoff → ∃ literal, scalarResolveDefault fld kind = some literal
          ∧ NamesMathMacro literal ∧ (format.convert x ≠ .nan → NamesInfinity literal))
      ∧ (¬(format.convert x).Beyond cutoff →
          ∀ literal, scalarResolveDefault fld kind = some literal → ¬NamesMathMacro literal) := by
  have hreal := constToReal_of_number hc
  obtain ⟨hfnan, hdnan, hfinf, hfneg, hdinf, hdneg⟩ := namesMathMacro_specials
  cases kind <;> simp only [ScalarKind.cutoff, Option.some.injEq, Prod.mk.injEq, reduceCtorEq] at hkind
  case float =>
    obtain ⟨rfl, rfl⟩ := hkind
    simp only [scalarResolveDefault, hfld, constToFloat, hreal]
    apply cutoff_literal hfnan hfinf hfneg
    intro h literal hliteral
    rw [printed_eq_some hliteral]
    apply not_namesMathMacro
    split
    . exact not_mem_append_suffix (not_mem_printed h 9) (by decide)
    . exact not_mem_printed h 9
  case double =>
    obtain ⟨rfl, rfl⟩ := hkind
    simp only [scalarResolveDefault, hfld, constToDouble, hreal]
    apply cutoff_literal hdnan hdinf hdneg
    intro h literal hliteral
    rw [printed_eq_some hliteral]
    exact not_namesMathMacro (not_mem_printed h 17)

/--
A number with a default that is a number is the default of a real field, or is not emitted.
-/
theorem scalarResolveDefault_names {fld : FieldNode} {kind : ScalarKind} {literal : Span}
    (h : scalarResolveDefault fld kind = some literal) (hnamed : NamesMathMacro literal)
    : ∃ format cutoff c x, kind.cutoff = some (format, cutoff) ∧ fld.default = some c ∧ c.number = some x
        ∧ (format.convert x).Beyond cutoff := by
  cases hkind : kind.cutoff with
  | none => exact absurd hnamed (scalarResolveDefault_integral hkind h)
  | some real =>
    obtain ⟨format, cutoff⟩ := real
    cases hfld : fld.default with
    | none =>
      unfold scalarResolveDefault at h
      rw [hfld] at h
      rw [← Option.some_inj.mp h] at hnamed
      exact absurd hnamed (not_namesMathMacro_zero kind)
    | some c =>
      cases hc : c.number with
      | none =>
        cases kind <;> simp only [ScalarKind.cutoff, reduceCtorEq] at hkind
        all_goals simp [scalarResolveDefault, hfld, constToFloat, constToDouble, constToReal, hc] at h
      | some x =>
        refine ⟨format, cutoff, c, x, rfl, rfl, hc, ?_⟩
        by_contra hbeyond
        exact (scalarResolveDefault_real hkind hfld hc).2 hbeyond literal h hnamed

/-! The fields of a file. -/

namespace Pool

variable (p : Pool) (f : FileId)

/--
What the includes of a header are for: a literal with a macro has its header, no number of the type of
a field becomes an infinity, and a guard that compares bytes has its header.
-/
structure IncludesCover : Prop where
  math : ∀ m ∈ (p.heap f).messages, ∀ fld ∈ m.fields, ∀ literal, p.dispatchResolveDefault fld = some literal
    → NamesMathMacro literal → (p.heap f).needsMathH = true
  finite : ∀ m ∈ (p.heap f).messages, ∀ fld ∈ m.fields, ∀ kind format cutoff c q, fld.scalarKind = some kind
    → kind.cutoff = some (format, cutoff) → fld.default = some c → c.number = some (.finite q)
    → |q| ≤ format.largest
    → ∀ literal, p.dispatchResolveDefault fld = some literal → ¬NamesInfinity literal
  string : ∀ m ∈ (p.heap f).messages, ∀ fld ∈ m.fields, ∀ literal, p.dispatchResolveDefault fld = some literal
    → ∀ escaped, dispatchGuard fld literal = .memcmp escaped → (p.heap f).needsStringH = true

/--
A finite default of a float or double field is rounded to a number that is not beyond the cutoff, or it is
out of the range of the type and a default of the file is spelled as an infinity or as no number.
-/
def WithinCutoffs : Prop :=
  ∀ m ∈ (p.heap f).messages, ∀ fld ∈ m.fields, ∀ kind format cutoff c q, fld.scalarKind = some kind
    → kind.cutoff = some (format, cutoff) → fld.default = some c → c.number = some (.finite q)
    → (∃ rounded, format.round q = .finite rounded ∧ |rounded| ≤ cutoff)
      ∨ format.largest < |q| ∧ ∃ d ∈ (p.heap f).defaults, d.2.notFinite = true

variable {p f}

theorem dispatchResolveDefault_scalar {fld : FieldNode} {kind : ScalarKind} (h : fld.scalarKind = some kind)
    : p.dispatchResolveDefault fld = scalarResolveDefault fld kind := by
  unfold FieldNode.scalarKind at h
  split at h
  . next hshape htype =>
    simp only [dispatchResolveDefault, hshape, htype, h, Option.bind_some]
  . simp at h

theorem not_namesMathMacro_others
    : ¬NamesMathMacro "NULL".toList ∧ ¬NamesMathMacro "(struct gremlin_bytes)\x7b NULL, 0 \x7d".toList := by
  unfold NamesMathMacro
  decide +kernel

theorem not_namesMathMacro_quoted (rest : Span)
    : ¬NamesMathMacro ("(struct gremlin_bytes)\x7b .data = (const uint8_t *)\"".toList ++ rest) := by
  rintro ⟨word, hword, hinner⟩
  have hplain : ∀ c ∈ "(struct gremlin_bytes)\x7b .data = (const uint8_t *)".toList, decide (c ≠ '"') = true :=
    List.all_eq_true.mp rfl
  have heq : "(struct gremlin_bytes)\x7b .data = (const uint8_t *)\"".toList
      = "(struct gremlin_bytes)\x7b .data = (const uint8_t *)".toList ++ ['"'] :=
    rfl
  have hno : 'N' ∉ "(struct gremlin_bytes)\x7b .data = (const uint8_t *)".toList := by
    simp
  rw [heq, List.append_assoc, List.singleton_append, List.takeWhile_append_of_pos hplain,
    List.takeWhile_cons_of_neg (by simp), List.append_nil] at hinner
  have hmem : 'N' ∈ word := by
    have hall : ∀ word ∈ ["INFINITY".toList, "NAN".toList], 'N' ∈ word := by decide
    exact hall word hword
  exact hno (List.IsInfix.subset hinner hmem)

theorem bytesResolveDefault_names {fld : FieldNode} {literal : Span} (h : bytesResolveDefault fld = some literal)
    : ¬NamesMathMacro literal := by
  unfold bytesResolveDefault at h
  split at h
  . rw [← Option.some_inj.mp h]
    exact not_namesMathMacro_others.2
  . split at h
    . simp at h
    . rw [← Option.some_inj.mp h]
      simp only [List.append_assoc]
      exact not_namesMathMacro_quoted _

theorem enumRefResolveDefault_names {fld : FieldNode} {en : EnumNode} {literal : Span}
    (h : enumRefResolveDefault fld en = some literal) : ¬NamesMathMacro literal := by
  unfold enumRefResolveDefault at h
  split at h
  . rw [← Option.some_inj.mp h]
    exact not_namesMathMacro (by decide)
  . split at h
    . simp at h
    . rw [printed_eq_some h]
      exact not_namesMathMacro (not_mem_signed _)

theorem dispatchResolveDefault_names {fld : FieldNode} {literal : Span}
    (h : p.dispatchResolveDefault fld = some literal) (hnamed : NamesMathMacro literal)
    : ∃ kind, fld.scalarKind = some kind ∧ scalarResolveDefault fld kind = some literal := by
  have hzero : ¬NamesMathMacro "0".toList := not_namesMathMacro (by decide)
  unfold dispatchResolveDefault at h
  unfold FieldNode.scalarKind
  split at h
  . exact absurd (Option.some_inj.mp h ▸ hnamed) hzero
  . exact absurd (Option.some_inj.mp h ▸ hnamed) hzero
  . exact absurd (Option.some_inj.mp h ▸ hnamed) hzero
  . exact absurd (Option.some_inj.mp h ▸ hnamed) hzero
  . exact absurd (Option.some_inj.mp h ▸ hnamed) not_namesMathMacro_others.1
  . obtain ⟨en, -, hen⟩ := Option.bind_eq_some_iff.mp h
    exact absurd hnamed (enumRefResolveDefault_names hen)
  . exact absurd hnamed (bytesResolveDefault_names h)
  . next hshape =>
    split at h
    . next name htype =>
      obtain ⟨kind, hkind, hresolve⟩ := Option.bind_eq_some_iff.mp h
      simp only [hshape, htype]
      exact ⟨kind, hkind, hresolve⟩
    . simp at h

theorem not_beyond_iff {x : Extended} {cutoff : ℚ}
    : ¬x.Beyond cutoff ↔ ∃ q, x = .finite q ∧ |q| ≤ cutoff := by
  cases x with
  | nan => simp [Extended.Beyond]
  | infinity negative => cases negative <;> simp [Extended.Beyond, Extended.above, Extended.below]
  | finite q =>
    simp only [Extended.Beyond, Extended.above, Extended.below, reduceCtorEq, false_or, decide_eq_true_eq, not_or,
      not_lt, Extended.finite.injEq, exists_eq_left', abs_le]
    exact and_comm

theorem notFinite_of_not_finite {c : Const} {x : Extended} (hc : c.number = some x)
    (h : ∀ q, x ≠ .finite q) : c.notFinite = true := by
  cases c with
  | float v =>
    rw [Const.number, Option.some_inj] at hc
    have hv : ¬∃ q, exactValue v = .finite q := by
      rintro ⟨q, hq⟩
      exact h q (hc ▸ hq)
    rw [exactValue_finite_iff, not_not] at hv
    exact decide_eq_true hv
  | int n | uint n =>
    rw [Const.number, Option.some_inj] at hc
    exact absurd hc.symm (h _)
  | identifier _ | string _ => simp [Const.number] at hc

theorem mem_defaults_of_field {m : MessageNode} (hm : m ∈ (p.heap f).messages) {fld : FieldNode}
    (hfld : fld ∈ m.fields) {c : Const} (hc : fld.default = some c)
    : (fld.parsed.type, c) ∈ (p.heap f).defaults := by
  unfold FileNode.defaults
  rw [List.mem_flatMap]
  refine ⟨m, hm, ?_⟩
  rw [List.mem_filterMap]
  exact ⟨fld, hfld, by simp [FieldNode.written, hc]⟩

/--
A guard that compares bytes is of a field whose type is written as one of the two names.
-/
theorem dispatchGuard_memcmp {fld : FieldNode} {literal escaped : Span}
    (h : dispatchGuard fld literal = .memcmp escaped)
    : fld.shape = .bytes ∧ ∃ c, fld.default = some c := by
  unfold dispatchGuard at h
  cases hshape : fld.shape <;> simp only [hshape] at h
  case bytes =>
    refine ⟨rfl, ?_⟩
    unfold bytesPresenceGuard at h
    split at h
    . simp at h
    . next c hc => exact ⟨c, hc⟩
  all_goals cases h

theorem shape_bytes {fld : FieldNode} (h : fld.shape = .bytes)
    : ∃ name, fld.type = .builtin name ∧ builtinIsBytes name = true := by
  unfold FieldNode.shape at h
  dsimp only at h
  split at h
  . simp at h
  . split at h <;> simp at h
  . split at h <;> simp at h
  . next name htype =>
    split at h
    . next hbytes => exact ⟨name, htype, hbytes⟩
    . split at h <;> simp at h
  . simp at h

/-! One part of the includes after the other. -/

section Cover

variable (hhinted : (p.heap f).Hinted)

include hhinted in
theorem IncludesCover.withinCutoffs (hcover : p.IncludesCover f) : p.WithinCutoffs f := by
  intro m hm fld hfld kind format cutoff c q hkind hcutoff hc hq
  by_cases hbeyond : (format.round q).Beyond cutoff
  . right
    obtain ⟨literal, hliteral, hnamed, hinfinity⟩ := (scalarResolveDefault_real hcutoff hc hq).1 hbeyond
    rw [← dispatchResolveDefault_scalar (p := p) hkind] at hliteral
    constructor
    . -- A finite number beyond the cutoff is emitted as an infinity, which is right only if it is out of
      -- the range of the type.
      by_contra hmax
      exact hcover.finite m hm fld hfld kind format cutoff c q hkind hcutoff hc hq (not_lt.mp hmax) literal
        hliteral (hinfinity (BinaryFormat.round_ne_nan q))
    . have hmath := hcover.math m hm fld hfld literal hliteral hnamed
      rw [hhinted.math, List.any_eq_true] at hmath
      exact hmath
  . exact .inl (not_beyond_iff.mp hbeyond)

include hhinted in
theorem WithinCutoffs.math (hwithin : p.WithinCutoffs f) {m : MessageNode} (hm : m ∈ (p.heap f).messages)
    {fld : FieldNode} (hfld : fld ∈ m.fields) {literal : Span}
    (hliteral : p.dispatchResolveDefault fld = some literal) (hnamed : NamesMathMacro literal)
    : (p.heap f).needsMathH = true := by
  obtain ⟨kind, hkind, hresolve⟩ := dispatchResolveDefault_names hliteral hnamed
  obtain ⟨format, cutoff, c, x, hcutoff, hc, hx, hbeyond⟩ := scalarResolveDefault_names hresolve hnamed
  rw [hhinted.math, List.any_eq_true]
  by_cases hfinite : ∃ q, x = .finite q
  . obtain ⟨q, rfl⟩ := hfinite
    rcases hwithin m hm fld hfld kind format cutoff c q hkind hcutoff hc hx with hle | ⟨-, hother⟩
    . exact absurd hbeyond (not_beyond_iff.mpr hle)
    . exact hother
  . have hnot := notFinite_of_not_finite hx fun q hq => hfinite ⟨q, hq⟩
    exact ⟨_, mem_defaults_of_field hm hfld hc, hnot⟩

theorem WithinCutoffs.finite (hwithin : p.WithinCutoffs f) {m : MessageNode} (hm : m ∈ (p.heap f).messages)
    {fld : FieldNode} (hfld : fld ∈ m.fields) {kind : ScalarKind} {format : BinaryFormat} {cutoff : ℚ} {c : Const}
    {q : ℚ} (hkind : fld.scalarKind = some kind) (hcutoff : kind.cutoff = some (format, cutoff))
    (hc : fld.default = some c) (hq : c.number = some (.finite q)) (hmax : |q| ≤ format.largest) {literal : Span}
    (hliteral : p.dispatchResolveDefault fld = some literal) : ¬NamesInfinity literal := by
  intro hinfinity
  rw [dispatchResolveDefault_scalar hkind] at hliteral
  have hle : ∃ rounded, format.round q = .finite rounded ∧ |rounded| ≤ cutoff := by
    rcases hwithin m hm fld hfld kind format cutoff c q hkind hcutoff hc hq with hle | ⟨hlt, -⟩
    . exact hle
    . exact absurd hlt (not_lt.mpr hmax)
  have hnot : ¬(format.convert (.finite q)).Beyond cutoff := not_beyond_iff.mpr hle
  exact (scalarResolveDefault_real hcutoff hc hq).2 hnot literal hliteral hinfinity.math

include hhinted in
/--
The hint is set by the name of a type as it is written, which only a builtin type has behind the resolver.
-/
theorem needsStringH_of_memcmp {m : MessageNode} (hm : m ∈ (p.heap f).messages) {fld : FieldNode}
    (hfld : fld ∈ m.fields) {q : Pool} {scope : ScopedName} {visible : List FileId}
    (hresolve : q.resolveFieldType scope visible fld.parsed.type = .ok fld.type) {literal escaped : Span}
    (hguard : dispatchGuard fld literal = .memcmp escaped) : (p.heap f).needsStringH = true := by
  obtain ⟨hshape, c, hc⟩ := dispatchGuard_memcmp hguard
  obtain ⟨name, htype, hbytes⟩ := shape_bytes hshape
  rw [hhinted.string, List.any_eq_true]
  refine ⟨_, mem_defaults_of_field hm hfld hc, ?_⟩
  rw [htype] at hresolve
  cases hparsed : fld.parsed.type with
  | named written =>
    rw [hparsed] at hresolve
    rcases resolveNamedType_ok hresolve with ⟨-, heq⟩ | ⟨-, segments, g, -, hdeclares⟩
    . rw [TypeRef.builtin.injEq] at heq
      subst heq
      exact hbytes
    . cases hdeclares
  | map key value =>
    rw [hparsed, resolveFieldType] at hresolve
    split at hresolve
    . simp at hresolve
    . cases hvalue : q.resolveNamedType scope visible value <;> simp [hvalue, Except.map] at hresolve

end Cover

end Pool

/--
The includes cover what is emitted, and no finite number becomes an infinity, exactly if the finite
defaults are within the cutoffs of the emitter.
-/
theorem Sources.includesCover_iff [Libc] {src : Sources} {p : Pool} (h : src.describe = some p) {f : FileId}
    (hf : f ∈ p.files) : p.IncludesCover f ↔ p.WithinCutoffs f := by
  have ⟨hhinted, htypes⟩ := Sources.hinted h hf
  constructor
  . exact fun hcover => hcover.withinCutoffs hhinted
  . intro hwithin
    refine ⟨?_, ?_, ?_⟩
    . intro m hm fld hfld literal hliteral hnamed
      exact hwithin.math hhinted hm hfld hliteral hnamed
    . intro m hm fld hfld kind format cutoff c q hkind hcutoff hc hq hmax literal hliteral
      exact hwithin.finite hm hfld hkind hcutoff hc hq hmax hliteral
    . intro m hm fld hfld literal _ escaped hguard
      obtain ⟨q, scope, visible, hresolve⟩ := htypes m hm fld hfld
      exact Pool.needsStringH_of_memcmp hhinted hm hfld hresolve hguard

/--
A file with a default below the largest `float`, and the library that reads it.
-/
def nearlyLargest : Sources where
  files := [0]
  nodup := nodup_single
  path _ := "a.proto".toList
  text _ := "message M{optional float a=1[default=3.402e38];}".toList

@[reducible]
def nearlyLargestLibc : Libc where
  strtod _ := (0x47EFFE045FE99180, false)
  strtod_brace _ _ := rfl

/--
Run the passes and look for a finite number of a type that is emitted as an infinity.
-/
def overflows [Libc] (src : Sources) : Bool :=
  match src.describe with
  | none => false
  | some p => p.files = [0] && (p.heap 0).messages.any fun m => m.fields.any fun fld =>
    fld.scalarKind = some .float && p.dispatchResolveDefault fld = some "(float)INFINITY".toList
      && fld.default = some (.float 0x47EFFE045FE99180)

theorem exists_of_overflows [Libc] {src : Sources} (h : overflows src = true)
    : ∃ p, src.describe = some p ∧ 0 ∈ p.files ∧ ∃ m ∈ (p.heap 0).messages, ∃ fld ∈ m.fields,
        fld.scalarKind = some .float ∧ p.dispatchResolveDefault fld = some "(float)INFINITY".toList
          ∧ fld.default = some (.float 0x47EFFE045FE99180) := by
  unfold overflows at h
  split at h
  . simp at h
  . next p hdescribe =>
    simp only [Bool.and_eq_true, decide_eq_true_eq, List.any_eq_true] at h
    obtain ⟨hfiles, m, hm, fld, hfld, ⟨hkind, hliteral⟩, hdefault⟩ := h
    exact ⟨p, hdescribe, by simp [hfiles], m, hm, fld, hfld, hkind, hliteral, hdefault⟩

theorem nearlyLargest_not_includesCover
    : ∃ p, @Sources.describe nearlyLargestLibc nearlyLargest = some p ∧ 0 ∈ p.files ∧ ¬p.IncludesCover 0 := by
  obtain ⟨p, hdescribe, hf, m, hm, fld, hfld, hkind, hliteral, hdefault⟩ :=
    @exists_of_overflows nearlyLargestLibc nearlyLargest (by decide +kernel)
  refine ⟨p, hdescribe, hf, fun hcover => ?_⟩
  have hvalue : ∃ q, Const.number (.float 0x47EFFE045FE99180) = some (.finite q)
      ∧ |q| ≤ BinaryFormat.binary32.largest := by
    refine ⟨(2 ^ 52 + 0xFFE045FE99180) * 2 ^ 1150 / 2 ^ 1075, ?_, ?_⟩
    . decide +kernel
    . rw [abs_of_nonneg (by positivity)]
      decide +kernel
  obtain ⟨q, hq, hmax⟩ := hvalue
  apply hcover.finite m hm fld hfld .float .binary32 floatCutoff _ q hkind rfl hdefault hq hmax _ hliteral
  exact namesMathMacro_specials.2.2.1

/--
A default that is emitted as an infinity, which it is not.
-/
theorem nearlyLargest_includesCover_iff
    : ∃ p, @Sources.describe nearlyLargestLibc nearlyLargest = some p
        ∧ (p.IncludesCover 0 ↔ p.WithinCutoffs 0) := by
  obtain ⟨p, hdescribe, hf, -⟩ := @exists_of_overflows nearlyLargestLibc nearlyLargest (by decide +kernel)
  exact ⟨p, hdescribe, @Sources.includesCover_iff nearlyLargestLibc _ _ hdescribe 0 hf⟩

end Gremlin
