import Gremlin.Descriptors.Link
import Gremlin.Descriptors.Resolve
import Gremlin.Parser.Identifiers

/-!
This module contains the pass that re-reads the sources and appends the fields of every extend block
to the message that the block extends.
-/

namespace Gremlin

open Text Parser Memory Buffer

def orError {α : Type} : Except ParsingError α → Except Stop α
  | .ok a => .ok a
  | .error e => .error (.error e)

namespace Pool

/-! The target of a block. -/

section Target

variable (p : Pool)

def lookupMessage (visible : List FileId) (target : ScopedName) : Option NodeId :=
  visible.findSome? fun f =>
    ((p.heap f).messages.findIdx? fun m => m.scopedName.eq target).map fun i => ⟨f, i⟩

/--
The walk of `resolve_extend_target` over the prefixes of fewer than `k` segments, the longest first.
-/
def peelMessage (scope : ScopedName) (visible : List FileId) (ref : ScopedName)
    : (k : Nat) → Option NodeId
  | 0 => none
  | k + 1 =>
    match p.lookupMessage visible (ScopedName.extend ⟨scope.segments.take k, true⟩ ref.segments) with
    | some found => some found
    | none => peelMessage scope visible ref k

def resolveExtendTarget (scope : ScopedName) (visible : List FileId) (span : Span)
    : Except ParsingError NodeId :=
  if span.isEmpty then
    .error .extendSourceNotFound
  else
    match ScopedName.parse span with
    | .error e => .error e
    | .ok ref =>
      let found :=
        if ref.absolute then
          p.lookupMessage visible ref
        else
          p.peelMessage scope visible ref (scope.segments.length + 1)
      found.elim (.error .extendSourceNotFound) .ok

end Target

/-! What the walk is for. -/

variable (p : Pool)

def DeclaresMessage (visible : List FileId) (segments : List Span) (t : NodeId) : Prop :=
  t.file ∈ visible
    ∧ ∃ m, (p.heap t.file).messages[t.index]? = some m ∧ m.scopedName.segments = segments

/--
The message that a name is bound to, which is that with the longest prefix of the scope before it.
-/
inductive BindsMessage (scope : List Span) (visible : List FileId) : ScopedName → NodeId → Prop where
  | absolute {segments : List Span} {t : NodeId} (h : p.DeclaresMessage visible segments t)
      : BindsMessage scope visible ⟨segments, true⟩ t
  | relative {segments pre : List Span} {t : NodeId} (hpre : pre <+: scope)
      (h : p.DeclaresMessage visible (pre ++ segments) t)
      (hlongest : ∀ longer, longer <+: scope → pre.length < longer.length
        → ∀ t', ¬p.DeclaresMessage visible (longer ++ segments) t')
      : BindsMessage scope visible ⟨segments, false⟩ t

/--
The message that a block with this text before its body extends.
-/
def Extends (scope : List Span) (visible : List FileId) (span : Span) (t : NodeId) : Prop :=
  ∃ name : ScopedName, name.WellFormed ∧ span = name.text ∧ p.BindsMessage scope visible name t

variable {p}

theorem lookupMessage_eq_some {visible : List FileId} {target : ScopedName} {t : NodeId}
    (h : p.lookupMessage visible target = some t)
    : p.DeclaresMessage visible target.segments t := by
  unfold lookupMessage at h
  rw [List.findSome?_eq_some_iff] at h
  obtain ⟨before, f, after, rfl, hf, -⟩ := h
  rw [Option.map_eq_some_iff] at hf
  obtain ⟨i, hfind, rfl⟩ := hf
  obtain ⟨hi, heq, -⟩ := List.findIdx?_eq_some_iff_getElem.mp hfind
  exact ⟨by simp, _, List.getElem?_eq_getElem hi, of_decide_eq_true heq⟩

theorem lookupMessage_eq_none {visible : List FileId} {target : ScopedName} {t : NodeId}
    (h : p.lookupMessage visible target = none)
    : ¬p.DeclaresMessage visible target.segments t := by
  unfold lookupMessage at h
  rw [List.findSome?_eq_none_iff] at h
  rintro ⟨hf, m, hget, hname⟩
  have := h _ hf
  rw [Option.map_eq_none_iff, List.findIdx?_eq_none_iff] at this
  have := this _ (List.mem_of_getElem? hget)
  simp [ScopedName.eq, hname] at this

theorem peelMessage_eq_some {scope : ScopedName} {visible : List FileId} {name : ScopedName} {k : Nat}
    {t : NodeId} (h : p.peelMessage scope visible name k = some t)
    : ∃ j < k, p.DeclaresMessage visible (scope.segments.take j ++ name.segments) t
        ∧ ∀ i, j < i → i < k
          → ∀ t', ¬p.DeclaresMessage visible (scope.segments.take i ++ name.segments) t' := by
  induction k with
  | zero => simp [peelMessage] at h
  | succ k ih =>
    rw [peelMessage] at h
    split at h
    . next found hfound =>
      rw [Option.some_inj] at h
      subst h
      exact ⟨k, by omega, lookupMessage_eq_some hfound, by omega⟩
    . next hnone =>
      obtain ⟨j, hj, hdeclared, hlongest⟩ := ih h
      refine ⟨j, by omega, hdeclared, ?_⟩
      intro i hji hi t'
      by_cases hik : i = k
      . subst hik
        exact lookupMessage_eq_none hnone
      . exact hlongest i hji (by omega) t'

theorem peelMessage_eq_none {scope : ScopedName} {visible : List FileId} {name : ScopedName} {k : Nat}
    (h : p.peelMessage scope visible name k = none) (i : Nat) (hi : i < k) (t : NodeId)
    : ¬p.DeclaresMessage visible (scope.segments.take i ++ name.segments) t := by
  induction k with
  | zero => omega
  | succ k ih =>
    rw [peelMessage] at h
    split at h
    . simp at h
    . next hnone =>
      by_cases hik : i = k
      . subst hik
        exact lookupMessage_eq_none hnone
      . exact ih h (by omega)

variable (p) in
theorem resolveExtendTarget_spec (scope : ScopedName) (visible : List FileId) {span : Span}
    (hspan : IsTypeName span)
    : (∃ t, p.resolveExtendTarget scope visible span = .ok t
          ∧ p.Extends scope.segments visible span t)
        ∨ p.resolveExtendTarget scope visible span = .error .extendSourceNotFound
          ∧ ∀ t, ¬p.Extends scope.segments visible span t := by
  obtain ⟨name, hname, rfl⟩ := hspan
  have hextends : ∀ t, p.Extends scope.segments visible name.text t
      → p.BindsMessage scope.segments visible name t := by
    rintro t ⟨name', hname', htext, hbinds⟩
    have := hname'.parse_text
    rw [← htext, hname.parse_text, Except.ok.injEq] at this
    rwa [this]
  unfold resolveExtendTarget
  rw [text_isEmpty hname, if_neg (by simp)]
  simp only [hname.parse_text]
  obtain ⟨segments, absolute⟩ := name
  cases absolute with
  | true =>
    simp only [if_true]
    cases hlookup : p.lookupMessage visible ⟨segments, true⟩ with
    | some t =>
      exact .inl ⟨t, rfl, _, hname, rfl, .absolute (lookupMessage_eq_some hlookup)⟩
    | none =>
      refine .inr ⟨rfl, ?_⟩
      intro t hext
      cases hextends t hext with
      | absolute h => exact lookupMessage_eq_none hlookup h
  | false =>
    simp only [Bool.false_eq_true, if_false]
    cases hpeel : p.peelMessage scope visible ⟨segments, false⟩ (scope.segments.length + 1) with
    | some t =>
      obtain ⟨j, hj, hdeclared, hlongest⟩ := peelMessage_eq_some hpeel
      refine .inl ⟨t, rfl, _, hname, rfl, .relative (List.take_prefix j _) hdeclared ?_⟩
      intro longer hlonger hlength
      rw [List.length_take_of_le (by omega)] at hlength
      rw [List.prefix_iff_eq_take.mp hlonger]
      exact hlongest _ hlength (by have := hlonger.length_le; omega)
    | none =>
      refine .inr ⟨rfl, ?_⟩
      intro t hext
      cases hextends t hext with
      | relative hpre hdeclared hlongest =>
        have := peelMessage_eq_none hpeel _ (Nat.lt_succ_of_le hpre.length_le) t
        rw [← List.prefix_iff_eq_take.mp hpre] at this
        exact this hdeclared

end Pool

/-! The walks. -/

section Walks

variable [Libc]

/--
`walk_extend_body`: take the fields one after the other.
-/
def walkExtendBody {σ : Type} (act : σ → FieldParseResult → Except Stop σ) (buf : Buffer) (s : σ)
    : Except Stop σ :=
  go (buf.rest.length + 1) buf s
where
  go : Nat → Buffer → σ → Except Stop σ
    | 0, _, _ => .error .unfinished
    | fuel + 1, buf, s =>
      if buf.rest.isEmpty then
        .ok s
      else
        match skipSpaces.run buf with
        | (.error e, _) => .error (.error e)
        | (.ok _, buf') =>
          match buf'.rest with
          | [] => .ok s
          | c :: rest =>
            if c = ';' then
              go fuel ⟨buf'.offset + 1, rest⟩ s
            else
              match fieldParse.run buf' with
              | (.error e, _) => .error (.error e)
              | (.ok parsed, buf'') => do
                let s ← act s parsed
                go fuel buf'' s

/--
The fields that a walk over the body takes, and the error behind them.
-/
def extendFields (buf : Buffer) : List FieldParseResult × Option ParsingError :=
  go (buf.rest.length + 1) buf
where
  go : Nat → Buffer → List FieldParseResult × Option ParsingError
    | 0, _ => ([], none)
    | fuel + 1, buf =>
      if buf.rest.isEmpty then
        ([], none)
      else
        match skipSpaces.run buf with
        | (.error e, _) => ([], some e)
        | (.ok _, buf') =>
          match buf'.rest with
          | [] => ([], none)
          | c :: rest =>
            if c = ';' then
              go fuel ⟨buf'.offset + 1, rest⟩
            else
              match fieldParse.run buf' with
              | (.error e, _) => ([], some e)
              | (.ok parsed, buf'') => (parsed :: (go fuel buf'').1, (go fuel buf'').2)

theorem walkExtendBody_go_eq {σ : Type} (act : σ → FieldParseResult → Except Stop σ) {fuel : Nat}
    {buf : Buffer} (h : buf.rest.length < fuel) (s : σ)
    : walkExtendBody.go act fuel buf s
        = (extendFields.go fuel buf).1.foldlM act s >>= ending (extendFields.go fuel buf).2 := by
  induction fuel generalizing buf s with
  | zero => omega
  | succ fuel ih =>
    rw [walkExtendBody.go, extendFields.go]
    split
    . rfl
    . rcases hskip : skipSpaces.run buf with ⟨e | a, buf'⟩
      . rfl
      . have hlength := (advances hskip).length_le
        dsimp only
        split
        . rfl
        . next c rest hrest =>
          rw [hrest, List.length_cons] at hlength
          split
          . exact ih (by dsimp only; omega) s
          . rcases hfield : fieldParse.run buf' with ⟨e | parsed, buf''⟩
            . rfl
            . have := eager_fieldParse _ _ _ hfield
              rw [hrest, List.length_cons] at this
              dsimp only
              rw [List.foldlM_cons, bind_assoc]
              congr 1
              funext s'
              exact ih (by omega) s'

theorem walkExtendBody_regular {σ : Type} {act : σ → FieldParseResult → Except Stop σ} {buf : Buffer}
    {s : σ} {P : σ → Prop} (h : Regular P ((extendFields buf).1.foldlM act s))
    : Regular (fun s' => P s' ∧ (extendFields buf).2 = none) (walkExtendBody act buf s) := by
  unfold walkExtendBody
  rw [walkExtendBody_go_eq act (by omega)]
  refine h.bind fun s' hs' => (regular_ending _ s').imp ?_
  rintro _ ⟨rfl, hend⟩
  exact ⟨hs', hend⟩

def countExtension (n : Nat) (_ : FieldParseResult) : Except Stop Nat :=
  .ok (n + 1)

/--
A field of an extend block as it is first written. It has no default.
-/
def extensionNode (parsed : FieldParseResult) : FieldNode :=
  ⟨parsed, .unresolved, none, .auto, none, none⟩

def fillExtension (s : Slots FieldNode × Nat) (parsed : FieldParseResult)
    : Except Stop (Slots FieldNode × Nat) := do
  let merged ← orOverrun (s.1.put s.2 (extensionNode parsed))
  pure (merged, s.2 + 1)

/--
Where a block is: in a file whose text is re-read up to `stop`, and in this scope.
-/
structure Block where
  file : FileId
  scope : ScopedName
  stop : Nat
  parsed : ExtendParseResult
  deriving DecidableEq, Repr

variable (text : FileId → Span)

def Block.body (b : Block) : Buffer :=
  Buffer.between (text b.file) b.parsed.bodyStart b.parsed.bodyEnd

def Block.tagged (b : Block) (origin : FileNode) (fld : FieldNode) : FieldNode :=
  let opt := fieldPackedOption (text b.file) b.stop fld.parsed.options
  { fld with originFile := some b.file, originScope := some b.scope, packing := fieldPacking origin opt }

namespace Pool

def setFields (p : Pool) (t : NodeId) (fields : List FieldNode) : Pool :=
  p.update t.file fun file =>
    { file with messages := file.messages.modify t.index fun m => { m with fields } }

/--
`apply_extend`. The fields of the target are copied to a longer array.
-/
def applyExtend (p : Pool) (b : Block) : Except Stop Pool := do
  let target ← orError (p.resolveExtendTarget b.scope (p.heap b.file).visible b.parsed.baseType)
  let n ← walkExtendBody countExtension (b.body text) 0
  if n = 0 then
    pure p
  else
    let m ← orOverrun ((p.heap target.file).messages[target.index]?)
    let oldCount := m.fields.length
    let (merged, _) ← walkExtendBody fillExtension (b.body text) (Slots.filled m.fields n, oldCount)
    match merged.contents with
    | none => .error .unwritten
    | some merged =>
      let new := (merged.drop oldCount).map (b.tagged text (p.heap b.file))
      pure (p.setFields target (merged.take oldCount ++ new))

/--
One entry of a body in a file, where `nested` walks the body of a message in it. The running index is
that of the next message of the file.
-/
def extendMessageEntry
    (nested : BodyParseResult → ScopedName → Pool × Nat → Except Stop (Pool × Nat)) (f : FileId)
    (stop : Nat) (scope : ScopedName) (s : Pool × Nat) : MessageEntry → Except Stop (Pool × Nat)
  | .message parsed => do
    let m ← orOverrun ((s.1.heap f).messages[s.2]?)
    nested parsed m.scopedName (s.1, s.2 + 1)
  | .extend parsed => do
    let p ← s.1.applyExtend text ⟨f, scope, stop, parsed⟩
    pure (p, s.2)
  | _ => .ok s

/--
`walk_message_body`.
-/
def extendMessageBody (f : FileId)
    : (fuel : Nat) → BodyParseResult → ScopedName → Pool × Nat → Except Stop (Pool × Nat)
  | 0, _, _, _ => .error .unfinished
  | fuel + 1, parsed, scope, s =>
    let entry := extendMessageEntry text (extendMessageBody f fuel) f parsed.bodyEnd scope
    walk messageNextEntry entry (bodyOf (text f) parsed) s

def extendFileEntry (f : FileId) (scope : ScopedName) (s : Pool × Nat)
    : FileEntry → Except Stop (Pool × Nat)
  | .message parsed => do
    let m ← orOverrun ((s.1.heap f).messages[s.2]?)
    extendMessageBody text f (levels (text f)) parsed m.scopedName (s.1, s.2 + 1)
  | .extend parsed => do
    let p ← s.1.applyExtend text ⟨f, scope, (text f).length, parsed⟩
    pure (p, s.2)
  | _ => .ok s

/--
`make_package_scope`.
-/
def packageScope (file : FileNode) : Except ParsingError ScopedName :=
  match file.package with
  | none => .ok ⟨[], true⟩
  | some package => ScopedName.parse package.name

/--
`walk_file`.
-/
def extendFile (f : FileId) (p : Pool) : Except Stop Pool := do
  let scope ← orError (packageScope (p.heap f))
  let s ← walk fileNextEntry (extendFileEntry text f scope)
    (Buffer.between (text f) 0 (text f).length) (p, 0)
  pure s.1

def propagateExtends (p : Pool) : Except Stopped Pool :=
  go p.files 0 p
where
  go : List FileId → Nat → Pool → Except Stopped Pool
    | [], _, p => .ok p
    | f :: rest, i, p =>
      match extendFile text f p with
      | .error stop => .error ⟨stop, i⟩
      | .ok p => go rest (i + 1) p

end Pool

end Walks

end Gremlin
