import Gremlin.Descriptors.Nodes

/-!
This module contains dotted names and the pass that gives every message and every enum its full
name.
-/

namespace Gremlin

namespace ScopedName

/--
`gremlind_scoped_name_eq`. It does not look at whether a name is absolute.
-/
def eq (a b : ScopedName) : Bool :=
  a.segments = b.segments

/--
`gremlind_scoped_name_parse`.
-/
def parse (span : Span) : Except ParsingError ScopedName :=
  match span with
  | '.' :: rest => (go [] rest).map fun segments => ⟨segments, true⟩
  | _ => (go [] span).map fun segments => ⟨segments, false⟩
where
  go (segment : Span) : Span → Except ParsingError (List Span)
    | [] => if segment.isEmpty then .error .invalidOptionName else .ok [segment]
    | c :: rest =>
      if c = '.' then
        if segment.isEmpty then .error .invalidOptionName else (go [] rest).map (segment :: ·)
      else
        go (segment ++ [c]) rest

/--
`gremlind_scoped_name_extend`.
-/
def extend (pre : ScopedName) (extra : List Span) : ScopedName :=
  ⟨pre.segments ++ extra, true⟩

def text (name : ScopedName) : Span :=
  (if name.absolute then ['.'] else []) ++ List.intercalate ['.'] name.segments

/--
The names that can be written: there is a segment, and no segment is empty or has a dot.
-/
structure WellFormed (name : ScopedName) : Prop where
  ne_nil : name.segments ≠ []
  segment : ∀ segment ∈ name.segments, segment ≠ [] ∧ '.' ∉ segment

theorem go_append {segment : Span} (pre rest : Span) (h : '.' ∉ segment)
    : parse.go pre (segment ++ rest) = parse.go (pre ++ segment) rest := by
  induction segment generalizing pre with
  | nil => simp
  | cons c segment ih =>
    rw [List.mem_cons, not_or] at h
    rw [List.cons_append, parse.go, if_neg (Ne.symm h.1), ih _ h.2, List.append_assoc,
      List.singleton_append]

theorem intercalate_cons_cons (segment segment' : Span) (segments : List Span)
    : List.intercalate ['.'] (segment :: segment' :: segments)
        = segment ++ '.' :: List.intercalate ['.'] (segment' :: segments) := by
  simp [List.intercalate]

theorem go_intercalate {segments : List Span} (hne : segments ≠ [])
    (h : ∀ segment ∈ segments, segment ≠ [] ∧ '.' ∉ segment)
    : parse.go [] (List.intercalate ['.'] segments) = .ok segments := by
  induction segments with
  | nil => exact absurd rfl hne
  | cons segment segments ih =>
    rw [List.forall_mem_cons] at h
    cases segments with
    | nil =>
      have := go_append [] [] h.1.2
      rw [List.append_nil, List.nil_append] at this
      simp [List.intercalate, this, parse.go, h.1.1]
    | cons segment' segments =>
      rw [intercalate_cons_cons, go_append [] _ h.1.2, List.nil_append, parse.go, if_pos rfl,
        if_neg (by simp [h.1.1]), ih (by simp) h.2]
      rfl

theorem head_intercalate {segments : List Span} (hne : segments ≠ [])
    (h : ∀ segment ∈ segments, segment ≠ [] ∧ '.' ∉ segment)
    : ∃ c rest, List.intercalate ['.'] segments = c :: rest ∧ c ≠ '.' := by
  cases segments with
  | nil => exact absurd rfl hne
  | cons segment segments =>
    obtain ⟨hsegment, hdot⟩ := h segment List.mem_cons_self
    cases segment with
    | nil => exact absurd rfl hsegment
    | cons c segment =>
      rw [List.mem_cons, not_or] at hdot
      cases segments with
      | nil => exact ⟨c, segment, by simp [List.intercalate], Ne.symm hdot.1⟩
      | cons _ _ => exact ⟨c, _, by rw [intercalate_cons_cons, List.cons_append], Ne.symm hdot.1⟩

theorem WellFormed.parse_text {name : ScopedName} (h : name.WellFormed)
    : parse name.text = .ok name := by
  obtain ⟨segments, absolute⟩ := name
  obtain ⟨hne, hsegment⟩ := h
  have hgo := go_intercalate hne hsegment
  unfold text
  cases absolute with
  | true => simp [parse, hgo, Except.map]
  | false =>
    obtain ⟨c, rest, heq, hc⟩ := head_intercalate hne hsegment
    simp only [Bool.false_eq_true, if_false, List.nil_append]
    unfold parse
    split
    . next heq' =>
      rw [heq, List.cons.injEq] at heq'
      exact absurd heq'.1 hc
    . simp [hgo, Except.map]

end ScopedName

def parentName (package : ScopedName) (messages : List MessageNode) : Option Nat → ScopedName
  | none => package
  | some i => (messages[i]?).elim package fun m => m.scopedName

def named (package : ScopedName) (messages : List MessageNode) (m : MessageNode) : MessageNode :=
  { m with scopedName := (parentName package messages m.parent).extend [m.parsed.name] }

def nameMessages (package : ScopedName) (messages : List MessageNode) : List MessageNode :=
  go [] messages
where
  go (done : List MessageNode) : List MessageNode → List MessageNode
    | [] => done
    | m :: rest => go (done ++ [named package (done ++ m :: rest) m]) rest

def nameEnums (package : ScopedName) (messages : List MessageNode) (enums : List EnumNode)
    : List EnumNode :=
  enums.map fun en =>
    { en with scopedName := (parentName package messages en.parent).extend [en.parsed.name] }

def packageName (file : FileNode) : Except ParsingError ScopedName :=
  match file.package with
  | none => .ok ⟨[], true⟩
  | some package =>
    if package.name.isEmpty then
      .ok ⟨[], true⟩
    else
      (ScopedName.parse package.name).map fun name => { name with absolute := true }

def FileNode.computeScopedNames (file : FileNode) : Except ParsingError FileNode :=
  (packageName file).map fun package =>
    let messages := nameMessages package file.messages
    { file with messages, enums := nameEnums package messages file.enums }

/--
The full name that a descriptor with this parent has before its own name.
-/
inductive FullName (package : ScopedName) (messages : List MessageNode)
    : Option Nat → List Span → Prop where
  | top : FullName package messages none package.segments
  | nested {i : Nat} {m : MessageNode} {segments : List Span} (hget : messages[i]? = some m)
      (h : FullName package messages m.parent segments)
      : FullName package messages (some i) (segments ++ [m.parsed.name])

theorem FullName.unique {package : ScopedName} {messages : List MessageNode} {parent : Option Nat}
    {segments segments' : List Span} (h : FullName package messages parent segments)
    (h' : FullName package messages parent segments') : segments = segments' := by
  induction h generalizing segments' with
  | top =>
    cases h'
    rfl
  | nested hget _ ih =>
    cases h' with
    | nested hget' h' =>
      rw [hget, Option.some_inj] at hget'
      subst hget'
      rw [ih h']

def ParentsBefore (messages : List MessageNode) : Prop :=
  ∀ (i : Nat) (m : MessageNode), messages[i]? = some m → ∀ j, m.parent = some j → j < i

theorem named_append {package : ScopedName} {messages : List MessageNode} {m : MessageNode}
    (h : ∀ j, m.parent = some j → j < messages.length) (tail tail' : List MessageNode)
    : named package (messages ++ tail) m = named package (messages ++ tail') m := by
  unfold named
  cases hparent : m.parent with
  | none => rfl
  | some j =>
    simp only [parentName]
    rw [List.getElem?_append_left (h j hparent), List.getElem?_append_left (h j hparent)]

theorem nameMessages_go (package : ScopedName) (done rest : List MessageNode)
    (h : ∀ (i : Nat) (m : MessageNode), rest[i]? = some m → ∀ j, m.parent = some j → j < done.length + i)
    : ∃ tail, nameMessages.go package done rest = done ++ tail
        ∧ tail = rest.map (named package (done ++ tail)) := by
  induction rest generalizing done with
  | nil => exact ⟨[], by simp [nameMessages.go], rfl⟩
  | cons m rest ih =>
    have hm := h 0 m rfl
    have h' : ∀ i m', rest[i]? = some m' → ∀ j, m'.parent = some j
        → j < (done ++ [named package (done ++ m :: rest) m]).length + i := by
      intro i m' hget j hj
      have := h (i + 1) m' (by simpa using hget) j hj
      simp only [List.length_append, List.length_singleton]
      omega
    obtain ⟨tail, hgo, htail⟩ := ih _ h'
    refine ⟨named package (done ++ m :: rest) m :: tail, ?_, ?_⟩
    . rw [nameMessages.go, hgo, List.append_assoc, List.singleton_append]
    . rw [List.append_assoc, List.singleton_append] at htail
      rw [List.map_cons, ← htail, List.cons.injEq]
      exact ⟨named_append hm _ _, rfl⟩

theorem length_nameMessages (package : ScopedName) (messages : List MessageNode)
    : (nameMessages package messages).length = messages.length := by
  have hgo : ∀ rest done, (nameMessages.go package done rest).length = done.length + rest.length := by
    intro rest
    induction rest with
    | nil => exact fun _ => rfl
    | cons m rest ih =>
      intro done
      rw [nameMessages.go, ih, List.length_append, List.length_singleton, List.length_cons]
      omega
  rw [nameMessages, hgo, List.length_nil, Nat.zero_add]

theorem nameMessages_eq {package : ScopedName} {messages : List MessageNode}
    (h : ParentsBefore messages)
    : nameMessages package messages
        = messages.map (named package (nameMessages package messages)) := by
  obtain ⟨tail, hgo, htail⟩ := nameMessages_go package [] messages (by simpa [ParentsBefore] using h)
  unfold nameMessages
  rw [hgo]
  exact htail

theorem nameMessages_getElem? {package : ScopedName} {messages : List MessageNode}
    (h : ParentsBefore messages) (i : Nat)
    : (nameMessages package messages)[i]?
        = messages[i]?.map (named package (nameMessages package messages)) := by
  conv_lhs => rw [nameMessages_eq h]
  rw [List.getElem?_map]

theorem ParentsBefore.nameMessages {package : ScopedName} {messages : List MessageNode}
    (h : ParentsBefore messages) : ParentsBefore (nameMessages package messages) := by
  intro i m hget
  rw [nameMessages_getElem? h, Option.map_eq_some_iff] at hget
  obtain ⟨m', hget', rfl⟩ := hget
  exact h i m' hget'

theorem nameMessages_idem {package : ScopedName} {messages : List MessageNode}
    (h : ParentsBefore messages)
    : nameMessages package (nameMessages package messages) = nameMessages package messages := by
  apply List.ext_getElem?
  intro i
  induction i using Nat.strongRecOn with
  | _ i ih =>
    rw [nameMessages_getElem? h.nameMessages]
    conv_rhs => rw [nameMessages_getElem? h]
    rw [nameMessages_getElem? h, Option.map_map]
    cases hget : messages[i]? with
    | none => rfl
    | some m =>
      rw [Option.map_some, Option.map_some, Function.comp_apply]
      unfold named
      cases hparent : m.parent with
      | none => rfl
      | some j =>
        simp only [parentName]
        rw [ih j (h i m hget j hparent)]

theorem nameMessages_fullName {package : ScopedName} {messages : List MessageNode}
    (h : ParentsBefore messages) (i : Nat) (m : MessageNode)
    (hget : (nameMessages package messages)[i]? = some m)
    : m.scopedName.absolute = true
        ∧ FullName package (nameMessages package messages) (some i) m.scopedName.segments := by
  induction i using Nat.strongRecOn generalizing m with
  | _ i ih =>
    have hget' := hget
    rw [nameMessages_getElem? h, Option.map_eq_some_iff] at hget'
    obtain ⟨m', hm', rfl⟩ := hget'
    refine ⟨rfl, FullName.nested (m := named package (nameMessages package messages) m') hget ?_⟩
    change FullName package _ m'.parent _
    cases hparent : m'.parent with
    | none => exact .top
    | some j =>
      have hj := h i m' hm' j hparent
      have hlt : j < (nameMessages package messages).length :=
        Nat.lt_trans hj (List.getElem?_eq_some_iff.mp hget).1
      have := ih j hj _ (List.getElem?_eq_getElem hlt)
      simp only [parentName]
      rw [List.getElem?_eq_getElem hlt]
      exact this.2

namespace FileNode

/--
Every parent is a message of the file, and one before a message that it encloses.
-/
structure Nested (file : FileNode) : Prop where
  message : ParentsBefore file.messages
  enum : ∀ en ∈ file.enums, ∀ j, en.parent = some j → j < file.messages.length

variable {file file' : FileNode}

theorem computeScopedNames_eq_ok (h : file.computeScopedNames = .ok file')
    : ∃ package, packageName file = .ok package
        ∧ file' = { file with
            messages := nameMessages package file.messages
            enums := nameEnums package (nameMessages package file.messages) file.enums } := by
  unfold computeScopedNames at h
  cases hpackage : packageName file with
  | error e =>
    rw [hpackage] at h
    simp [Except.map] at h
  | ok package =>
    rw [hpackage] at h
    simp only [Except.map, Except.ok.injEq] at h
    exact ⟨package, rfl, h.symm⟩

theorem computeScopedNames_idem (hnested : file.Nested)
    (h : file.computeScopedNames = .ok file') : file'.computeScopedNames = .ok file' := by
  obtain ⟨package, hpackage, rfl⟩ := computeScopedNames_eq_ok h
  unfold computeScopedNames
  have : packageName { file with
      messages := nameMessages package file.messages
      enums := nameEnums package (nameMessages package file.messages) file.enums } = .ok package :=
    hpackage
  rw [this]
  simp only [Except.map, nameMessages_idem hnested.message]
  simp [nameEnums]

end FileNode

end Gremlin
