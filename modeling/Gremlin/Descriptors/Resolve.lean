import Gremlin.Descriptors.Names
import Gremlin.Descriptors.Sweep
import Gremlin.Descriptors.Visibility

/-!
This module contains the pass that binds the type names of all fields to descriptors.
-/

namespace Gremlin

def builtinTypes : List Span :=
  ["double", "float", "int32", "int64", "uint32", "uint64", "sint32", "sint64", "fixed32",
    "fixed64", "sfixed32", "sfixed64", "bool", "string", "bytes"].map String.toList

def isBuiltinSpan (span : Span) : Bool :=
  builtinTypes.contains span

namespace Pool

variable (p : Pool)

def lookupInFile (target : ScopedName) (f : FileId) : Option TypeRef :=
  match (p.heap f).messages.findIdx? fun m => m.scopedName.eq target with
  | some i => some (.message ⟨f, i⟩)
  | none =>
    ((p.heap f).enums.findIdx? fun en => en.scopedName.eq target).map fun i => .enumeration ⟨f, i⟩

def lookupInVisible (target : ScopedName) (visible : List FileId) : Option TypeRef :=
  visible.findSome? (p.lookupInFile target)

/--
The walk of `resolve_named_type` over the prefixes of fewer than `k` segments, the longest first.
-/
def peel (scope : ScopedName) (visible : List FileId) (ref : ScopedName) : (k : Nat) → Option TypeRef
  | 0 => none
  | k + 1 =>
    match p.lookupInVisible (ScopedName.extend ⟨scope.segments.take k, true⟩ ref.segments) visible with
    | some found => some found
    | none => peel scope visible ref k

def resolveNamedType (scope : ScopedName) (visible : List FileId) (span : Span)
    : Except ParsingError TypeRef :=
  if span.isEmpty then
    .error .typeNotFound
  else if isBuiltinSpan span then
    .ok (.builtin span)
  else
    match ScopedName.parse span with
    | .error e => .error e
    | .ok ref =>
      let found :=
        if ref.absolute then
          p.lookupInVisible ref visible
        else
          p.peel scope visible ref (scope.segments.length + 1)
      found.elim (.error .typeNotFound) .ok

def resolveFieldType (scope : ScopedName) (visible : List FileId) : FieldType → Except ParsingError TypeRef
  | .named name => p.resolveNamedType scope visible name
  | .map key value =>
    match p.resolveNamedType scope visible key with
    | .error e => .error e
    | .ok keyRef => (p.resolveNamedType scope visible value).map fun valueRef => .map keyRef valueRef

/--
The scope of an extension field is that of its block, and its file is the extending one.
-/
def fieldScope (m : MessageNode) (fld : FieldNode) : ScopedName :=
  fld.originScope.getD m.scopedName

def fieldVisible (f : FileId) (fld : FieldNode) : List FileId :=
  (p.heap (fld.originFile.getD f)).visible

def resolveField (f : FileId) (m : MessageNode) (fld : FieldNode) : Except ParsingError FieldNode :=
  (p.resolveFieldType (fieldScope m fld) (p.fieldVisible f fld) fld.parsed.type).map fun type =>
    { fld with type }

def resolveMessage (f : FileId) (m : MessageNode) : Except ParsingError MessageNode :=
  (m.fields.mapM (p.resolveField f m)).map fun fields => { m with fields }

def resolveFile (f : FileId) : Except ParsingError FileNode :=
  ((p.heap f).messages.mapM (p.resolveMessage f)).map fun messages => { p.heap f with messages }

def resolveTypeRefs : Except Failure Pool :=
  p.sweep resolveFile

/-! What the walk is for. -/

/--
`ref` is a descriptor of `f` with this full name.
-/
inductive Declares (f : FileId) (segments : List Span) : TypeRef → Prop where
  | message {i : Nat} {m : MessageNode} (hget : (p.heap f).messages[i]? = some m)
      (hname : m.scopedName.segments = segments) : Declares f segments (.message ⟨f, i⟩)
  | enumeration {i : Nat} {en : EnumNode} (hget : (p.heap f).enums[i]? = some en)
      (hname : en.scopedName.segments = segments) : Declares f segments (.enumeration ⟨f, i⟩)

def Declared (visible : List FileId) (segments : List Span) (ref : TypeRef) : Prop :=
  ∃ f ∈ visible, p.Declares f segments ref

/--
What a name is bound to: an absolute one to a descriptor of that very name, another one to a
descriptor whose name it is after the longest prefix of the scope for which there is one.
-/
inductive Binds (scope : List Span) (visible : List FileId) : ScopedName → TypeRef → Prop where
  | absolute {segments : List Span} {ref : TypeRef} (h : p.Declared visible segments ref)
      : Binds scope visible ⟨segments, true⟩ ref
  | relative {segments pre : List Span} {ref : TypeRef} (hpre : pre <+: scope)
      (h : p.Declared visible (pre ++ segments) ref)
      (hlongest : ∀ longer, longer <+: scope → pre.length < longer.length
        → ∀ ref', ¬p.Declared visible (longer ++ segments) ref')
      : Binds scope visible ⟨segments, false⟩ ref

/--
What the text of a type stands for.
-/
inductive Denotes (scope : List Span) (visible : List FileId) (span : Span) : TypeRef → Prop where
  | builtin (h : isBuiltinSpan span = true) : Denotes scope visible span (.builtin span)
  | named {name : ScopedName} {ref : TypeRef} (h : isBuiltinSpan span = false)
      (hname : name.WellFormed) (htext : span = name.text) (hbinds : p.Binds scope visible name ref)
      : Denotes scope visible span ref

inductive DenotesField (scope : List Span) (visible : List FileId) : FieldType → TypeRef → Prop where
  | named {span : Span} {ref : TypeRef} (h : p.Denotes scope visible span ref)
      : DenotesField scope visible (.named span) ref
  | map {key value : Span} {keyRef valueRef : TypeRef} (hkey : p.Denotes scope visible key keyRef)
      (hvalue : p.Denotes scope visible value valueRef)
      : DenotesField scope visible (.map key value) (.map keyRef valueRef)

end Pool

/--
The names that the type of a field is made of.
-/
def FieldType.spans : FieldType → List Span
  | .named name => [name]
  | .map key value => [key, value]

/--
A dotted identifier, with or without a leading dot.
-/
def IsTypeName (span : Span) : Prop :=
  ∃ name : ScopedName, name.WellFormed ∧ span = name.text

namespace Pool

variable {p : Pool}

theorem lookupInFile_eq_some {target : ScopedName} {f : FileId} {ref : TypeRef}
    (h : p.lookupInFile target f = some ref) : p.Declares f target.segments ref := by
  unfold lookupInFile at h
  split at h
  . next i hfind =>
    rw [Option.some_inj] at h
    subst h
    obtain ⟨hi, heq, -⟩ := List.findIdx?_eq_some_iff_getElem.mp hfind
    exact .message (List.getElem?_eq_getElem hi) (of_decide_eq_true heq)
  . next hfind =>
    rw [Option.map_eq_some_iff] at h
    obtain ⟨i, hfind', rfl⟩ := h
    obtain ⟨hi, heq, -⟩ := List.findIdx?_eq_some_iff_getElem.mp hfind'
    exact .enumeration (List.getElem?_eq_getElem hi) (of_decide_eq_true heq)

theorem lookupInFile_eq_none {target : ScopedName} {f : FileId} {ref : TypeRef}
    (h : p.lookupInFile target f = none) : ¬p.Declares f target.segments ref := by
  unfold lookupInFile at h
  split at h
  . simp at h
  . next hfind =>
    rw [Option.map_eq_none_iff, List.findIdx?_eq_none_iff] at h
    rw [List.findIdx?_eq_none_iff] at hfind
    intro hdeclares
    cases hdeclares with
    | message hget hname =>
      have := hfind _ (List.mem_of_getElem? hget)
      simp [ScopedName.eq, hname] at this
    | enumeration hget hname =>
      have := h _ (List.mem_of_getElem? hget)
      simp [ScopedName.eq, hname] at this

theorem lookupInVisible_eq_some {target : ScopedName} {visible : List FileId} {ref : TypeRef}
    (h : p.lookupInVisible target visible = some ref)
    : p.Declared visible target.segments ref := by
  unfold lookupInVisible at h
  rw [List.findSome?_eq_some_iff] at h
  obtain ⟨before, f, after, rfl, hf, -⟩ := h
  exact ⟨f, by simp, lookupInFile_eq_some hf⟩

theorem lookupInVisible_eq_none {target : ScopedName} {visible : List FileId} {ref : TypeRef}
    (h : p.lookupInVisible target visible = none)
    : ¬p.Declared visible target.segments ref := by
  unfold lookupInVisible at h
  rw [List.findSome?_eq_none_iff] at h
  rintro ⟨f, hf, hdeclares⟩
  exact lookupInFile_eq_none (h f hf) hdeclares

theorem peel_eq_some {scope : ScopedName} {visible : List FileId} {name : ScopedName} {k : Nat}
    {ref : TypeRef} (h : p.peel scope visible name k = some ref)
    : ∃ j < k, p.Declared visible (scope.segments.take j ++ name.segments) ref
        ∧ ∀ i, j < i → i < k
          → ∀ ref', ¬p.Declared visible (scope.segments.take i ++ name.segments) ref' := by
  induction k with
  | zero => simp [peel] at h
  | succ k ih =>
    rw [peel] at h
    split at h
    . next found hfound =>
      rw [Option.some_inj] at h
      subst h
      exact ⟨k, by omega, lookupInVisible_eq_some hfound, by omega⟩
    . next hnone =>
      obtain ⟨j, hj, hdeclared, hlongest⟩ := ih h
      refine ⟨j, by omega, hdeclared, ?_⟩
      intro i hji hi ref'
      by_cases hik : i = k
      . subst hik
        exact lookupInVisible_eq_none hnone
      . exact hlongest i hji (by omega) ref'

/--
A name is that of a builtin type, or of a descriptor that a visible file declares.
-/
theorem resolveNamedType_ok {scope : ScopedName} {visible : List FileId} {span : Span} {ref : TypeRef}
    (h : p.resolveNamedType scope visible span = .ok ref)
    : isBuiltinSpan span = true ∧ ref = .builtin span
        ∨ isBuiltinSpan span = false ∧ ∃ segments, p.Declared visible segments ref := by
  unfold resolveNamedType at h
  split at h
  . simp at h
  . split at h
    . next hbuiltin =>
      rw [Except.ok.injEq] at h
      exact .inl ⟨hbuiltin, h.symm⟩
    . next hbuiltin =>
      right
      refine ⟨by simpa using hbuiltin, ?_⟩
      split at h
      . simp at h
      . next name hname =>
        dsimp only at h
        split at h
        . cases hfound : p.lookupInVisible name visible with
          | none => simp [hfound] at h
          | some found =>
            rw [hfound, Option.elim_some, Except.ok.injEq] at h
            subst h
            exact ⟨_, lookupInVisible_eq_some hfound⟩
        . cases hfound : p.peel scope visible name (scope.segments.length + 1) with
          | none => simp [hfound] at h
          | some found =>
            rw [hfound, Option.elim_some, Except.ok.injEq] at h
            subst h
            obtain ⟨_, -, hdeclared, -⟩ := peel_eq_some hfound
            exact ⟨_, hdeclared⟩

theorem peel_eq_none {scope : ScopedName} {visible : List FileId} {name : ScopedName} {k : Nat}
    (h : p.peel scope visible name k = none) (i : Nat) (hi : i < k) (ref : TypeRef)
    : ¬p.Declared visible (scope.segments.take i ++ name.segments) ref := by
  induction k with
  | zero => omega
  | succ k ih =>
    rw [peel] at h
    split at h
    . simp at h
    . next hnone =>
      by_cases hik : i = k
      . subst hik
        exact lookupInVisible_eq_none hnone
      . exact ih h (by omega)

theorem peel_binds {scope : ScopedName} {visible : List FileId} {segments : List Span}
    {ref : TypeRef}
    (h : p.peel scope visible ⟨segments, false⟩ (scope.segments.length + 1) = some ref)
    : p.Binds scope.segments visible ⟨segments, false⟩ ref := by
  obtain ⟨j, hj, hdeclared, hlongest⟩ := peel_eq_some h
  refine .relative (List.take_prefix j _) hdeclared ?_
  intro longer hlonger hlength
  rw [List.length_take_of_le (by omega)] at hlength
  rw [List.prefix_iff_eq_take.mp hlonger]
  exact hlongest _ hlength (by have := hlonger.length_le; omega)

theorem not_binds_of_peel {scope : ScopedName} {visible : List FileId} {segments : List Span}
    (h : p.peel scope visible ⟨segments, false⟩ (scope.segments.length + 1) = none) (ref : TypeRef)
    : ¬p.Binds scope.segments visible ⟨segments, false⟩ ref := by
  intro hbinds
  cases hbinds with
  | relative hpre hdeclared hlongest =>
    have := peel_eq_none h _ (Nat.lt_succ_of_le hpre.length_le) ref
    rw [← List.prefix_iff_eq_take.mp hpre] at this
    exact this hdeclared

theorem denotes_iff {scope : List Span} {visible : List FileId} {name : ScopedName} {ref : TypeRef}
    (hname : name.WellFormed) (hbuiltin : isBuiltinSpan name.text = false)
    : p.Denotes scope visible name.text ref ↔ p.Binds scope visible name ref := by
  constructor
  . intro h
    cases h with
    | builtin h => simp [h] at hbuiltin
    | named _ hname' htext hbinds =>
      have := hname'.parse_text
      rw [← htext, hname.parse_text, Except.ok.injEq] at this
      rwa [this]
  . exact .named hbuiltin hname rfl

theorem text_isEmpty {name : ScopedName} (hname : name.WellFormed) : name.text.isEmpty = false := by
  obtain ⟨c, rest, heq, -⟩ := ScopedName.head_intercalate hname.ne_nil hname.segment
  unfold ScopedName.text
  rw [heq]
  simp

theorem resolveNamedType_spec {scope : ScopedName} {visible : List FileId} {span : Span}
    (hspan : IsTypeName span)
    : (∃ ref, p.resolveNamedType scope visible span = .ok ref
          ∧ p.Denotes scope.segments visible span ref)
        ∨ p.resolveNamedType scope visible span = .error .typeNotFound
          ∧ ∀ ref, ¬p.Denotes scope.segments visible span ref := by
  obtain ⟨name, hname, rfl⟩ := hspan
  unfold resolveNamedType
  rw [text_isEmpty hname, if_neg (by simp)]
  cases hbuiltin : isBuiltinSpan name.text with
  | true => exact .inl ⟨_, rfl, .builtin hbuiltin⟩
  | false =>
    simp only [Bool.false_eq_true, if_false, hname.parse_text, denotes_iff hname hbuiltin]
    obtain ⟨segments, absolute⟩ := name
    cases absolute with
    | true =>
      simp only [if_true]
      cases hlookup : p.lookupInVisible ⟨segments, true⟩ visible with
      | some ref => exact .inl ⟨ref, rfl, .absolute (lookupInVisible_eq_some hlookup)⟩
      | none =>
        refine .inr ⟨rfl, ?_⟩
        intro ref hbinds
        cases hbinds with
        | absolute h => exact lookupInVisible_eq_none hlookup h
    | false =>
      simp only [Bool.false_eq_true, if_false]
      cases hpeel : p.peel scope visible ⟨segments, false⟩ (scope.segments.length + 1) with
      | some ref => exact .inl ⟨ref, rfl, peel_binds hpeel⟩
      | none => exact .inr ⟨rfl, not_binds_of_peel hpeel⟩

theorem resolveFieldType_spec {scope : ScopedName} {visible : List FileId} {type : FieldType}
    (htype : ∀ span ∈ type.spans, IsTypeName span)
    : (∃ ref, p.resolveFieldType scope visible type = .ok ref
          ∧ p.DenotesField scope.segments visible type ref)
        ∨ p.resolveFieldType scope visible type = .error .typeNotFound
          ∧ ∃ span ∈ type.spans, ∀ ref, ¬p.Denotes scope.segments visible span ref := by
  cases type with
  | named name =>
    rcases resolveNamedType_spec (htype name (by simp [FieldType.spans])) with
      ⟨ref, hok, hdenotes⟩ | ⟨herror, hnot⟩
    . exact .inl ⟨ref, hok, .named hdenotes⟩
    . exact .inr ⟨herror, name, by simp [FieldType.spans], hnot⟩
  | map key value =>
    simp only [resolveFieldType]
    rcases resolveNamedType_spec (htype key (by simp [FieldType.spans])) with
      ⟨keyRef, hkey, hdenotesKey⟩ | ⟨herror, hnot⟩
    . rw [hkey]
      rcases resolveNamedType_spec (htype value (by simp [FieldType.spans])) with
        ⟨valueRef, hvalue, hdenotesValue⟩ | ⟨herror, hnot⟩
      . refine .inl ⟨.map keyRef valueRef, ?_, .map hdenotesKey hdenotesValue⟩
        simp only [hvalue, Except.map]
      . refine .inr ⟨?_, value, by simp [FieldType.spans], hnot⟩
        simp only [herror, Except.map]
    . rw [herror]
      exact .inr ⟨rfl, key, by simp [FieldType.spans], hnot⟩

theorem denotesField_spans {scope : List Span} {visible : List FileId} {type : FieldType}
    {ref : TypeRef} (h : p.DenotesField scope visible type ref) (span : Span)
    (hspan : span ∈ type.spans) : ∃ ref', p.Denotes scope visible span ref' := by
  cases h with
  | named h =>
    simp only [FieldType.spans, List.mem_singleton] at hspan
    subst hspan
    exact ⟨_, h⟩
  | map hkey hvalue =>
    simp only [FieldType.spans, List.mem_cons, List.not_mem_nil, or_false] at hspan
    rcases hspan with rfl | rfl
    . exact ⟨_, hkey⟩
    . exact ⟨_, hvalue⟩

/-! What the walk reads of the files. -/

/--
The same descriptors under the same names, and the same visible files.
-/
structure SameNames (file file' : FileNode) : Prop where
  messages : file'.messages.map MessageNode.scopedName = file.messages.map MessageNode.scopedName
  enums : file'.enums = file.enums
  visible : file'.visible = file.visible

theorem lookupInFile_congr {q : Pool} (h : ∀ f, SameNames (p.heap f) (q.heap f))
    (target : ScopedName) : q.lookupInFile target = p.lookupInFile target := by
  have hfind (file : FileNode) : (file.messages.findIdx? fun m => m.scopedName.eq target)
      = (file.messages.map MessageNode.scopedName).findIdx? fun name => name.eq target := by
    rw [List.findIdx?_map]
    rfl
  funext f
  unfold lookupInFile
  rw [hfind, hfind, (h f).messages, (h f).enums]

theorem peel_congr {q : Pool} (h : ∀ f, SameNames (p.heap f) (q.heap f)) (scope : ScopedName)
    (visible : List FileId) (name : ScopedName) (k : Nat)
    : q.peel scope visible name k = p.peel scope visible name k := by
  induction k with
  | zero => rfl
  | succ k ih => simp only [peel, lookupInVisible, lookupInFile_congr h, ih]

theorem resolveNamedType_congr {q : Pool} (h : ∀ f, SameNames (p.heap f) (q.heap f))
    (scope : ScopedName) (visible : List FileId)
    : q.resolveNamedType scope visible = p.resolveNamedType scope visible := by
  funext span
  simp only [resolveNamedType, lookupInVisible, lookupInFile_congr h, peel_congr h]

theorem resolveFieldType_congr {q : Pool} (h : ∀ f, SameNames (p.heap f) (q.heap f))
    (scope : ScopedName) (visible : List FileId)
    : q.resolveFieldType scope visible = p.resolveFieldType scope visible := by
  funext type
  cases type <;> simp only [resolveFieldType, resolveNamedType_congr h]

theorem resolveField_congr {q : Pool} (h : ∀ f, SameNames (p.heap f) (q.heap f)) (f : FileId)
    (m : MessageNode) : q.resolveField f m = p.resolveField f m := by
  funext fld
  unfold resolveField fieldVisible
  rw [resolveFieldType_congr h, (h _).visible]

theorem resolveMessage_eq_ok {f : FileId} {m m' : MessageNode}
    (h : p.resolveMessage f m = .ok m')
    : ∃ fields, m' = { m with fields }
        ∧ List.Forall₂ (fun fld fld' => p.resolveField f m fld = .ok fld') m.fields fields := by
  unfold resolveMessage at h
  cases hfields : m.fields.mapM (p.resolveField f m) with
  | error e => simp [hfields, Except.map] at h
  | ok fields =>
    rw [hfields] at h
    simp only [Except.map, Except.ok.injEq] at h
    exact ⟨fields, h.symm, forall₂_of_mapM hfields⟩

theorem resolveFile_eq_ok {f : FileId} {file : FileNode} (h : p.resolveFile f = .ok file)
    : ∃ messages, file = { p.heap f with messages }
        ∧ List.Forall₂ (fun m m' => p.resolveMessage f m = .ok m') (p.heap f).messages messages := by
  unfold resolveFile at h
  cases hmessages : (p.heap f).messages.mapM (p.resolveMessage f) with
  | error e => simp [hmessages, Except.map] at h
  | ok messages =>
    rw [hmessages] at h
    simp only [Except.map, Except.ok.injEq] at h
    exact ⟨messages, h.symm, forall₂_of_mapM hmessages⟩

theorem resolveFile_sameNames {f : FileId} {file : FileNode} (h : p.resolveFile f = .ok file)
    : SameNames (p.heap f) file := by
  obtain ⟨messages, rfl, hforall⟩ := resolveFile_eq_ok h
  refine ⟨?_, rfl, rfl⟩
  clear h
  generalize (p.heap f).messages = l at hforall
  induction hforall with
  | nil => rfl
  | cons hm _ ih =>
    obtain ⟨fields, rfl, -⟩ := resolveMessage_eq_ok hm
    rw [List.map_cons, ih, List.map_cons]

theorem resolveFile_stable : Stable resolveFile SameNames where
  refl _ := ⟨rfl, rfl, rfl⟩
  agree _ _ _ h := resolveFile_sameNames h
  pass_eq p q f _ hsame hf := by
    have hmessage : q.resolveMessage f = p.resolveMessage f := by
      funext m
      unfold resolveMessage
      rw [resolveField_congr hsame]
    unfold resolveFile
    rw [hmessage, hf]

/-! The pass. -/

variable (p) in
/--
What the passes before this one leave: the names are those that the parser takes for types, the
fields that were added come from one of the files, and the visible files are computed.
-/
structure Prepared : Prop where
  typeName : ∀ f ∈ p.files, ∀ m ∈ (p.heap f).messages, ∀ fld ∈ m.fields,
    ∀ span ∈ fld.parsed.type.spans, IsTypeName span
  origin : ∀ f ∈ p.files, ∀ m ∈ (p.heap f).messages, ∀ fld ∈ m.fields,
    ∀ g, fld.originFile = some g → g ∈ p.files
  visible : ∀ f ∈ p.files, (p.heap f).visible.Nodup ∧ ∀ g, g ∈ (p.heap f).visible ↔ p.Sees f g

variable (p) in
def DenotesIn (f : FileId) (m : MessageNode) (fld : FieldNode) (span : Span) (ref : TypeRef) : Prop :=
  p.Denotes (fieldScope m fld).segments (p.fieldVisible f fld) span ref

variable (p) in
def FieldResolved (f : FileId) (m : MessageNode) (fld fld' : FieldNode) : Prop :=
  ∃ type, fld' = { fld with type }
    ∧ p.DenotesField (fieldScope m fld).segments (p.fieldVisible f fld) fld.parsed.type type

variable (p) in
def MessageResolved (f : FileId) (m m' : MessageNode) : Prop :=
  ∃ fields, m' = { m with fields } ∧ List.Forall₂ (p.FieldResolved f m) m.fields fields

variable (p) in
def FileResolved (f : FileId) (file : FileNode) : Prop :=
  ∃ messages, file = { p.heap f with messages }
    ∧ List.Forall₂ (p.MessageResolved f) (p.heap f).messages messages

variable (p) in
def Dangling : Prop :=
  ∃ f ∈ p.files, ∃ m ∈ (p.heap f).messages, ∃ fld ∈ m.fields,
    ∃ span ∈ fld.parsed.type.spans, ∀ ref, ¬p.DenotesIn f m fld span ref

variable (p) in
/--
No two descriptors of these files have one full name.
-/
def UniqueIn (visible : List FileId) : Prop :=
  ∀ segments ref ref', p.Declared visible segments ref → p.Declared visible segments ref' → ref = ref'

variable (p) in
def UniqueNames : Prop :=
  ∀ f ∈ p.files, ∀ m ∈ (p.heap f).messages, ∀ fld ∈ m.fields, p.UniqueIn (p.fieldVisible f fld)

/--
The same files, in another order and with their imports and visible files in another order.
-/
structure Reordered (p q : Pool) : Prop where
  files : q.files.Perm p.files
  imports : ∀ f, (q.heap f).imports.Perm (p.heap f).imports
  rest : ∀ f, { q.heap f with imports := (p.heap f).imports, visible := (p.heap f).visible }
    = p.heap f

theorem resolveField_spec (hp : p.Prepared) {f : FileId} (hf : f ∈ p.files) {m : MessageNode}
    (hm : m ∈ (p.heap f).messages) {fld : FieldNode} (hfld : fld ∈ m.fields)
    : (∃ fld', p.resolveField f m fld = .ok fld' ∧ p.FieldResolved f m fld fld')
        ∨ p.resolveField f m fld = .error .typeNotFound
          ∧ ∃ span ∈ fld.parsed.type.spans, ∀ ref, ¬p.DenotesIn f m fld span ref := by
  unfold resolveField
  rcases resolveFieldType_spec (hp.typeName f hf m hm fld hfld) with
    ⟨type, hok, hdenotes⟩ | ⟨herror, hnot⟩
  . exact .inl ⟨_, by rw [hok]; rfl, type, rfl, hdenotes⟩
  . exact .inr ⟨by rw [herror]; rfl, hnot⟩

theorem resolveFile_ok (hp : p.Prepared) {f : FileId} (hf : f ∈ p.files) {file : FileNode}
    (h : p.resolveFile f = .ok file) : p.FileResolved f file := by
  obtain ⟨messages, rfl, hforall⟩ := resolveFile_eq_ok h
  refine ⟨messages, rfl, forall₂_of_mem hforall ?_⟩
  intro m hm m' hok
  obtain ⟨fields, rfl, hfields⟩ := resolveMessage_eq_ok hok
  refine ⟨fields, rfl, forall₂_of_mem hfields ?_⟩
  intro fld hfld fld' hfld'
  rcases resolveField_spec hp hf hm hfld with ⟨fld'', hok, hresolved⟩ | ⟨herror, -⟩
  . rw [hfld', Except.ok.injEq] at hok
    exact hok ▸ hresolved
  . simp [hfld'] at herror

theorem resolveFile_error (hp : p.Prepared) {f : FileId} (hf : f ∈ p.files) {e : ParsingError}
    (h : p.resolveFile f = .error e) : e = .typeNotFound ∧ p.Dangling := by
  unfold resolveFile at h
  cases hmessages : (p.heap f).messages.mapM (p.resolveMessage f) with
  | ok messages => simp [hmessages, Except.map] at h
  | error e' =>
    rw [hmessages] at h
    simp only [Except.map, Except.error.injEq] at h
    subst h
    obtain ⟨m, hm, herror⟩ := exists_mem_error hmessages
    unfold resolveMessage at herror
    cases hfields : m.fields.mapM (p.resolveField f m) with
    | ok fields => simp [hfields, Except.map] at herror
    | error e'' =>
      rw [hfields] at herror
      simp only [Except.map, Except.error.injEq] at herror
      subst herror
      obtain ⟨fld, hfld, herror⟩ := exists_mem_error hfields
      rcases resolveField_spec hp hf hm hfld with ⟨fld', hok, -⟩ | ⟨herror', span, hspan, hnot⟩
      . simp [herror] at hok
      . rw [herror, Except.error.injEq] at herror'
        exact ⟨herror', f, hf, m, hm, fld, hfld, span, hspan, hnot⟩

theorem not_dangling (hresolved : ∀ f ∈ p.files, ∃ file, p.FileResolved f file) : ¬p.Dangling := by
  rintro ⟨f, hf, m, hm, fld, hfld, span, hspan, hnot⟩
  obtain ⟨file, messages, -, hmessages⟩ := hresolved f hf
  obtain ⟨m', fields, -, hfields⟩ := exists_of_forall₂ hmessages hm
  obtain ⟨fld', type, -, hdenotes⟩ := exists_of_forall₂ hfields hfld
  obtain ⟨ref, href⟩ := denotesField_spans hdenotes span hspan
  exact hnot ref href

theorem resolveTypeRefs_cases (hp : p.Prepared)
    : (∃ q, p.resolveTypeRefs = .ok q ∧ q.files = p.files
          ∧ (∀ f ∈ p.files, p.FileResolved f (q.heap f))
          ∧ (∀ f, f ∉ p.files → q.heap f = p.heap f) ∧ ¬p.Dangling)
        ∨ (∃ i, p.resolveTypeRefs = .error ⟨.typeNotFound, i⟩) ∧ p.Dangling := by
  unfold resolveTypeRefs
  cases hsweep : p.sweep resolveFile with
  | ok q =>
    obtain ⟨hfiles, hok, hrest⟩ := sweep_ok resolveFile_stable hsweep
    have hresolved : ∀ f ∈ p.files, p.FileResolved f (q.heap f) :=
      fun f hf => resolveFile_ok hp hf (hok f hf)
    exact .inl ⟨q, rfl, hfiles, hresolved, hrest,
      not_dangling fun f hf => ⟨_, hresolved f hf⟩⟩
  | error e =>
    obtain ⟨f, hf, herror⟩ := sweep_error resolveFile_stable hsweep
    obtain ⟨e, i⟩ := e
    obtain ⟨rfl, hdangling⟩ := resolveFile_error hp hf herror
    exact .inr ⟨⟨i, rfl⟩, hdangling⟩

/-! The order of the files, of the imports and of the visible files. -/

theorem Reordered.messages {q : Pool} (h : Reordered p q) (f : FileId)
    : (q.heap f).messages = (p.heap f).messages := by
  have := congrArg FileNode.messages (h.rest f)
  exact this

theorem Reordered.enums {q : Pool} (h : Reordered p q) (f : FileId)
    : (q.heap f).enums = (p.heap f).enums := by
  have := congrArg FileNode.enums (h.rest f)
  exact this

theorem Reordered.declares_iff {q : Pool} (h : Reordered p q) {f : FileId} {segments : List Span}
    {ref : TypeRef} : q.Declares f segments ref ↔ p.Declares f segments ref := by
  constructor
  . intro hdeclares
    cases hdeclares with
    | message hget hname => exact .message (h.messages f ▸ hget) hname
    | enumeration hget hname => exact .enumeration (h.enums f ▸ hget) hname
  . intro hdeclares
    cases hdeclares with
    | message hget hname => exact .message ((h.messages f).symm ▸ hget) hname
    | enumeration hget hname => exact .enumeration ((h.enums f).symm ▸ hget) hname

theorem Reordered.sees_iff {q : Pool} (h : Reordered p q) {f g : FileId}
    : q.Sees f g ↔ p.Sees f g :=
  sees_iff_of_perm h.imports

theorem Reordered.declared_iff {q : Pool} (h : Reordered p q) (hp : p.Prepared) (hq : q.Prepared)
    {f : FileId} (hf : f ∈ p.files) {m : MessageNode} (hm : m ∈ (p.heap f).messages)
    {fld : FieldNode} (hfld : fld ∈ m.fields) (segments : List Span) (ref : TypeRef)
    : q.Declared (q.fieldVisible f fld) segments ref ↔ p.Declared (p.fieldVisible f fld) segments ref := by
  have hmem : fld.originFile.getD f ∈ p.files := by
    cases horigin : fld.originFile with
    | none => exact hf
    | some g => exact hp.origin f hf m hm fld hfld g horigin
  have hvisible (g : FileId) : g ∈ q.fieldVisible f fld ↔ g ∈ p.fieldVisible f fld := by
    unfold fieldVisible
    rw [(hp.visible _ hmem).2, (hq.visible _ (h.files.mem_iff.mpr hmem)).2, h.sees_iff]
  unfold Declared
  simp only [hvisible, h.declares_iff]

theorem binds_of_declared_iff {q : Pool} {scope : List Span} {visible visible' : List FileId}
    (h : ∀ segments ref, q.Declared visible' segments ref ↔ p.Declared visible segments ref)
    {name : ScopedName} {ref : TypeRef} (hbinds : q.Binds scope visible' name ref)
    : p.Binds scope visible name ref := by
  cases hbinds with
  | absolute hdeclared => exact .absolute ((h _ _).mp hdeclared)
  | relative hpre hdeclared hlongest =>
    refine .relative hpre ((h _ _).mp hdeclared) ?_
    intro longer hlonger hlength ref' hdeclared'
    exact hlongest longer hlonger hlength ref' ((h _ _).mpr hdeclared')

theorem denotes_of_declared_iff {q : Pool} {scope : List Span} {visible visible' : List FileId}
    (h : ∀ segments ref, q.Declared visible' segments ref ↔ p.Declared visible segments ref)
    {span : Span} {ref : TypeRef} (hdenotes : q.Denotes scope visible' span ref)
    : p.Denotes scope visible span ref := by
  cases hdenotes with
  | builtin hbuiltin => exact .builtin hbuiltin
  | named hbuiltin hname htext hbinds =>
    exact .named hbuiltin hname htext (binds_of_declared_iff h hbinds)

theorem denotesField_of_declared_iff {q : Pool} {scope : List Span} {visible visible' : List FileId}
    (h : ∀ segments ref, q.Declared visible' segments ref ↔ p.Declared visible segments ref)
    {type : FieldType} {ref : TypeRef} (hdenotes : q.DenotesField scope visible' type ref)
    : p.DenotesField scope visible type ref := by
  cases hdenotes with
  | named hdenotes => exact .named (denotes_of_declared_iff h hdenotes)
  | map hkey hvalue =>
    exact .map (denotes_of_declared_iff h hkey) (denotes_of_declared_iff h hvalue)

theorem binds_unique {scope : List Span} {visible : List FileId}
    (hunique : p.UniqueIn visible) {name : ScopedName} {ref ref' : TypeRef}
    (h : p.Binds scope visible name ref) (h' : p.Binds scope visible name ref') : ref = ref' := by
  cases h with
  | absolute hdeclared =>
    cases h' with
    | absolute hdeclared' => exact hunique _ _ _ hdeclared hdeclared'
  | @relative segments pre _ hpre hdeclared hlongest =>
    cases h' with
    | @relative _ pre' _ hpre' hdeclared' hlongest' =>
      have hlength : pre.length = pre'.length := by
        rcases Nat.lt_trichotomy pre.length pre'.length with hlt | heq | hgt
        . exact absurd hdeclared' (hlongest _ hpre' hlt _)
        . exact heq
        . exact absurd hdeclared (hlongest' _ hpre hgt _)
      have : pre = pre' := by
        rw [List.prefix_iff_eq_take.mp hpre, List.prefix_iff_eq_take.mp hpre', hlength]
      subst this
      exact hunique _ _ _ hdeclared hdeclared'

theorem denotes_unique {scope : List Span} {visible : List FileId}
    (hunique : p.UniqueIn visible) {span : Span} {ref ref' : TypeRef}
    (h : p.Denotes scope visible span ref) (h' : p.Denotes scope visible span ref')
    : ref = ref' := by
  cases h with
  | builtin hbuiltin =>
    cases h' with
    | builtin _ => rfl
    | named hbuiltin' => simp [hbuiltin] at hbuiltin'
  | named hbuiltin hname htext hbinds =>
    subst htext
    have h'' := (denotes_iff hname hbuiltin).mp h'
    exact binds_unique hunique hbinds h''

theorem denotesField_unique {scope : List Span} {visible : List FileId}
    (hunique : p.UniqueIn visible) {type : FieldType} {ref ref' : TypeRef}
    (h : p.DenotesField scope visible type ref) (h' : p.DenotesField scope visible type ref')
    : ref = ref' := by
  cases h with
  | named hdenotes =>
    cases h' with
    | named hdenotes' => exact denotes_unique hunique hdenotes hdenotes'
  | map hkey hvalue =>
    cases h' with
    | map hkey' hvalue' =>
      rw [denotes_unique hunique hkey hkey', denotes_unique hunique hvalue hvalue']

theorem Reordered.dangling {q : Pool} (h : Reordered p q) (hp : p.Prepared) (hq : q.Prepared)
    : q.Dangling ↔ p.Dangling := by
  have hiff : ∀ f ∈ p.files, ∀ m ∈ (p.heap f).messages, ∀ fld ∈ m.fields, ∀ span ref,
      q.DenotesIn f m fld span ref ↔ p.DenotesIn f m fld span ref := by
    intro f hf m hm fld hfld span ref
    have hdeclared := h.declared_iff hp hq hf hm hfld
    exact ⟨denotes_of_declared_iff hdeclared, denotes_of_declared_iff fun s r => (hdeclared s r).symm⟩
  constructor
  . rintro ⟨f, hf, m, hm, fld, hfld, span, hspan, hnot⟩
    rw [h.files.mem_iff] at hf
    rw [h.messages] at hm
    exact ⟨f, hf, m, hm, fld, hfld, span, hspan,
      fun ref hdenotes => hnot ref ((hiff f hf m hm fld hfld span ref).mpr hdenotes)⟩
  . rintro ⟨f, hf, m, hm, fld, hfld, span, hspan, hnot⟩
    exact ⟨f, h.files.mem_iff.mpr hf, m, (h.messages f).symm ▸ hm, fld, hfld, span, hspan,
      fun ref hdenotes => hnot ref ((hiff f hf m hm fld hfld span ref).mp hdenotes)⟩

theorem Reordered.resolved_unique {q : Pool} (h : Reordered p q) (hp : p.Prepared) (hq : q.Prepared)
    (hunique : p.UniqueNames) {f : FileId} (hf : f ∈ p.files) {file file' : FileNode}
    (hresolved : p.FileResolved f file) (hresolved' : q.FileResolved f file')
    : file'.messages = file.messages := by
  obtain ⟨messages, rfl, hmessages⟩ := hresolved
  obtain ⟨messages', rfl, hmessages'⟩ := hresolved'
  rw [h.messages] at hmessages'
  refine forall₂_unique hmessages hmessages' ?_
  rintro m hm _ _ ⟨fields, rfl, hfields⟩ ⟨fields', rfl, hfields'⟩
  rw [forall₂_unique hfields hfields']
  rintro fld hfld _ _ ⟨type, rfl, hdenotes⟩ ⟨type', rfl, hdenotes'⟩
  have hdeclared := h.declared_iff hp hq hf hm hfld
  rw [denotesField_unique (hunique f hf m hm fld hfld) hdenotes
    (denotesField_of_declared_iff hdeclared hdenotes')]

/--
The pass binds every name to what it stands for and changes nothing else, or there is a name that
stands for nothing, and only then it fails. Where names are unique the order of the files, of the
imports and of the visible files makes no difference.
-/
theorem resolveTypeRefs_exact (hp : p.Prepared)
    : ((∃ q, p.resolveTypeRefs = .ok q ∧ q.files = p.files
              ∧ (∀ f ∈ p.files, p.FileResolved f (q.heap f))
              ∧ (∀ f, f ∉ p.files → q.heap f = p.heap f) ∧ ¬p.Dangling)
          ∨ (∃ i, p.resolveTypeRefs = .error ⟨.typeNotFound, i⟩) ∧ p.Dangling)
        ∧ (p.UniqueNames → ∀ q, Reordered p q → q.Prepared
          → ((∃ q', q.resolveTypeRefs = .ok q') ↔ ∃ p', p.resolveTypeRefs = .ok p')
            ∧ ∀ p' q', p.resolveTypeRefs = .ok p' → q.resolveTypeRefs = .ok q'
              → ∀ f, (q'.heap f).messages = (p'.heap f).messages) := by
  refine ⟨resolveTypeRefs_cases hp, ?_⟩
  intro hunique q hreordered hq
  have hdangling := hreordered.dangling hp hq
  rcases resolveTypeRefs_cases hp with ⟨p', hp', -, hresolved, hrest, hnot⟩ | ⟨⟨i, hp'⟩, hdangle⟩
  . rcases resolveTypeRefs_cases hq with ⟨q', hq', -, hresolved', hrest', -⟩ | ⟨-, hdangle⟩
    . rw [hp', hq']
      refine ⟨by simp, ?_⟩
      rintro _ _ ⟨rfl⟩ ⟨rfl⟩ f
      by_cases hf : f ∈ p.files
      . exact hreordered.resolved_unique hp hq hunique hf (hresolved f hf)
          (hresolved' f (hreordered.files.mem_iff.mpr hf))
      . rw [hrest f hf, hrest' f (by rwa [hreordered.files.mem_iff]), hreordered.messages]
    . exact absurd (hdangling.mp hdangle) hnot
  . rcases resolveTypeRefs_cases hq with ⟨q', hq', -, -, -, hnot⟩ | ⟨⟨i', hq'⟩, -⟩
    . exact absurd (hdangling.mpr hdangle) hnot
    . rw [hp', hq']
      simp

/--
A message `A` with a field of type `B`, and the message `B` that it encloses.
-/
def enclosing : Pool where
  files := [0]
  nodup := nodup_single
  heap _ := {
    FileNode.empty with
    messages := [
      ⟨⟨['A'], 9, 40⟩,
        [⟨⟨.none, .named ['B'], ['b'], 1, .empty⟩, .unresolved, none, .auto, none, none⟩],
        none, ⟨[['A']], true⟩⟩,
      ⟨⟨['B'], 30, 38⟩, [], some 0, ⟨[['A'], ['B']], true⟩⟩]
    visible := [0]
  }

theorem enclosing_prepared : enclosing.Prepared where
  typeName := by
    intro f _ m hm fld hfld span hspan
    have : span = ['B'] := by
      simp only [enclosing, List.mem_cons, List.not_mem_nil, or_false] at hm
      rcases hm with rfl | rfl <;> simp_all [FieldType.spans]
    exact ⟨⟨[['B']], false⟩, ⟨by simp, by simp⟩, this⟩
  origin := by
    intro f _ m hm fld hfld g hg
    simp only [enclosing, List.mem_cons, List.not_mem_nil, or_false] at hm
    rcases hm with rfl | rfl <;> simp_all
  visible := by
    intro f hf
    obtain rfl : f = 0 := by simpa [enclosing] using hf
    refine ⟨by simp [enclosing], ?_⟩
    intro g
    simp [enclosing, Sees, ImportsDirectly, FileNode.empty]

theorem enclosing_resolveTypeRefs_exact
    : ((∃ q, enclosing.resolveTypeRefs = .ok q ∧ q.files = enclosing.files
              ∧ (∀ f ∈ enclosing.files, enclosing.FileResolved f (q.heap f))
              ∧ (∀ f, f ∉ enclosing.files → q.heap f = enclosing.heap f) ∧ ¬enclosing.Dangling)
          ∨ (∃ i, enclosing.resolveTypeRefs = .error ⟨.typeNotFound, i⟩) ∧ enclosing.Dangling)
        ∧ (enclosing.UniqueNames → ∀ q, Reordered enclosing q → q.Prepared
          → ((∃ q', q.resolveTypeRefs = .ok q') ↔ ∃ p', enclosing.resolveTypeRefs = .ok p')
            ∧ ∀ p' q', enclosing.resolveTypeRefs = .ok p' → q.resolveTypeRefs = .ok q'
              → ∀ f, (q'.heap f).messages = (p'.heap f).messages) :=
  resolveTypeRefs_exact enclosing_prepared

end Pool

end Gremlin
