import Gremlin.Descriptors.Pipeline

/-!
This module contains the map types behind the resolver, and the keys that no stage checks.
-/

namespace Gremlin

def mapKeyTypes : List Span :=
  ["int32", "int64", "uint32", "uint64", "sint32", "sint64", "fixed32", "fixed64", "sfixed32",
    "sfixed64", "bool", "string"].map String.toList

/--
What `classify_slot` assumes of a map: the key is of a legal type, and the value is no map.
-/
def TypeRef.LegalMap : TypeRef → Prop
  | .map key value => (∃ name ∈ mapKeyTypes, key = .builtin name) ∧ ∀ k v, value ≠ .map k v
  | _ => True

def FieldType.LegalKey : FieldType → Prop
  | .map key _ => key ∈ mapKeyTypes
  | .named _ => True

namespace Pool

variable {p q : Pool}

theorem isBuiltinSpan_of_mem_mapKeyTypes {span : Span} (h : span ∈ mapKeyTypes) : isBuiltinSpan span = true := by
  have hall : ∀ name ∈ mapKeyTypes, isBuiltinSpan name = true := by decide +kernel
  exact hall span h

theorem resolveNamedType_key {scope : ScopedName} {visible : List FileId} {span : Span} {ref : TypeRef}
    (h : p.resolveNamedType scope visible span = .ok ref)
    : (∃ name ∈ mapKeyTypes, ref = .builtin name) ↔ span ∈ mapKeyTypes := by
  rcases resolveNamedType_ok h with ⟨hbuiltin, rfl⟩ | ⟨hbuiltin, segments, f, -, hdeclares⟩
  . simp
  . constructor
    . rintro ⟨name, -, rfl⟩
      cases hdeclares
    . intro hmem
      rw [isBuiltinSpan_of_mem_mapKeyTypes hmem] at hbuiltin
      simp at hbuiltin

theorem resolveNamedType_ne_map {scope : ScopedName} {visible : List FileId} {span : Span} {ref : TypeRef}
    (h : p.resolveNamedType scope visible span = .ok ref) (k v : TypeRef) : ref ≠ .map k v := by
  rintro rfl
  rcases resolveNamedType_ok h with ⟨-, heq⟩ | ⟨-, segments, f, -, hdeclares⟩
  . simp at heq
  . cases hdeclares

theorem resolveFieldType_legal {scope : ScopedName} {visible : List FileId} {type : FieldType} {ref : TypeRef}
    (h : p.resolveFieldType scope visible type = .ok ref) : ref.LegalMap ↔ type.LegalKey := by
  cases type with
  | named name =>
    have hne := @resolveNamedType_ne_map p _ _ name _ h
    have htrue : ref.LegalMap := by
      cases ref with
      | map k v => exact absurd rfl (hne k v)
      | unresolved | builtin _ | message _ | enumeration _ => trivial
    exact ⟨fun _ => trivial, fun _ => htrue⟩
  | map key value =>
    rw [resolveFieldType] at h
    split at h
    . simp at h
    . next keyRef hkey =>
      cases hvalue : p.resolveNamedType scope visible value with
      | error e => simp [hvalue, Except.map] at h
      | ok valueRef =>
        rw [hvalue] at h
        simp only [Except.map, Except.ok.injEq] at h
        subst h
        have hne := resolveNamedType_ne_map hvalue
        simp only [TypeRef.LegalMap, FieldType.LegalKey, resolveNamedType_key hkey, and_iff_left hne]

/--
Every field behind the pass comes from one before it, and the other way round.
-/
theorem resolveTypeRefs_fields (h : p.resolveTypeRefs = .ok q) {P P' : FieldNode → Prop}
    (hP : ∀ f m fld fld', p.resolveField f m fld = .ok fld' → (P' fld' ↔ P fld))
    : (∀ f ∈ q.files, ∀ m ∈ (q.heap f).messages, ∀ fld ∈ m.fields, P' fld)
        ↔ ∀ f ∈ p.files, ∀ m ∈ (p.heap f).messages, ∀ fld ∈ m.fields, P fld := by
  obtain ⟨hfiles, hok, -⟩ := sweep_ok resolveFile_stable h
  rw [hfiles]
  refine forall₂_congr fun f hf => ?_
  obtain ⟨messages, hfile, hmessages⟩ := resolveFile_eq_ok (hok f hf)
  rw [hfile]
  dsimp only
  clear hfile
  generalize (p.heap f).messages = before at hmessages
  induction hmessages with
  | nil => simp
  | cons hm _ ih =>
    rw [List.forall_mem_cons, List.forall_mem_cons, ih]
    refine and_congr_left fun _ => ?_
    obtain ⟨fields, rfl, hfields⟩ := resolveMessage_eq_ok hm
    dsimp only
    clear hm
    generalize MessageNode.fields _ = before at hfields
    induction hfields with
    | nil => simp
    | cons hfld _ ih =>
      rw [List.forall_mem_cons, List.forall_mem_cons, ih, hP _ _ _ _ hfld]

variable (p) in
/--
Every map behind the resolver is as the emitter assumes, also one that came from an extend block.
-/
def MapsLegal : Prop :=
  ∀ f ∈ p.files, ∀ m ∈ (p.heap f).messages, ∀ fld ∈ m.fields, fld.type.LegalMap

variable (p) in
def KeysLegal : Prop :=
  ∀ f ∈ p.files, ∀ m ∈ (p.heap f).messages, ∀ fld ∈ m.fields, fld.parsed.type.LegalKey

/--
The resolver lets pass what is written, so that the maps are legal exactly where they are so in the text.
-/
theorem mapsLegal_iff (h : p.resolveTypeRefs = .ok q) : q.MapsLegal ↔ p.KeysLegal := by
  apply resolveTypeRefs_fields h
  intro f m fld fld' hfld
  unfold resolveField at hfld
  cases htype : p.resolveFieldType (fieldScope m fld) (p.fieldVisible f fld) fld.parsed.type with
  | error e => simp [htype, Except.map] at hfld
  | ok type =>
    rw [htype] at hfld
    simp only [Except.map, Except.ok.injEq] at hfld
    rw [← hfld]
    exact resolveFieldType_legal htype

/--
A file with a map from strings and one with a map from floats.
-/
def stringKeyed : Sources where
  files := [0]
  nodup := nodup_single
  path _ := "a.proto".toList
  text _ := "message M{}extend M{map<string,M>m=1;}".toList

def floatKeyed : Sources where
  files := [0]
  nodup := nodup_single
  path _ := "a.proto".toList
  text _ := "message M{}extend M{map<float,M>m=1;}".toList

theorem stringKeyed_mapsLegal_iff
    : ∃ p q : Pool, p.resolveTypeRefs = .ok q ∧ (p.heap 0).messages.length = 1 ∧ (q.MapsLegal ↔ p.KeysLegal) := by
  have hcheck : @check constLibc stringKeyed (fun _ p _ => (p.heap 0).messages.length = 1) = true := by
    decide +kernel
  obtain ⟨_, _, _, _, p, q, -, -, -, -, -, hresolve, htest⟩ := @exists_passes constLibc _ _ hcheck
  exact ⟨p, q, hresolve, of_decide_eq_true htest, mapsLegal_iff hresolve⟩

/--
A map from floats passes every stage.
-/
theorem floatKeyed_not_mapsLegal
    : ∃ p₀ p₁ p₂ p₃ p₄ p₅, @Sources.buildAll constLibc floatKeyed = .ok p₀
        ∧ p₀.linkImports floatKeyed.path = .ok p₁ ∧ p₁.computeScopedNames = .ok p₂
        ∧ p₂.computeVisibility = some p₃ ∧ @propagateExtends constLibc floatKeyed.text p₃ = .ok p₄
        ∧ p₄.resolveTypeRefs = .ok p₅ ∧ ¬p₅.MapsLegal := by
  have hcheck : @check constLibc floatKeyed (fun _ _ p => p.files = [0]
      && (p.heap 0).messages.any fun m => m.fields.any fun fld =>
        fld.type = .map (.builtin "float".toList) (.message ⟨0, 0⟩)) = true := by
    decide +kernel
  obtain ⟨p₀, p₁, p₂, p₃, p₄, p₅, hbuild, hlink, hnames, hvisible, hextend, hresolve, htest⟩ :=
    @exists_passes constLibc _ _ hcheck
  refine ⟨p₀, p₁, p₂, p₃, p₄, p₅, hbuild, hlink, hnames, hvisible, hextend, hresolve, ?_⟩
  simp only [Bool.and_eq_true, decide_eq_true_eq, List.any_eq_true] at htest
  obtain ⟨hfiles, m, hm, fld, hfld, htype⟩ := htest
  intro hlegal
  have := hlegal 0 (by simp [hfiles]) m hm fld hfld
  rw [htype] at this
  obtain ⟨⟨name, hname, heq⟩, -⟩ := this
  rw [TypeRef.builtin.injEq] at heq
  subst heq
  revert hname
  decide +kernel

end Pool

end Gremlin
