import Mathlib.Data.List.Forall2
import Gremlin.Descriptors.Pipeline

/-!
This module contains the splitting of a dotted name into the segments that are counted for it, and the
full names that the messages and the enums of a built file get.
-/

namespace Gremlin

open Text Parser Buffer Memory

/-! Splitting. -/

/--
The second loop of `gremlind_scoped_name_parse`. It fills the segments from the slot `i` on.
-/
def fillSegments (segs : Slots Span) (i : Nat) (segment : Span) : Span → Except Stop (Slots Span)
  | [] =>
    if segment.isEmpty then
      .error (.error .invalidOptionName)
    else
      orOverrun (segs.put i segment)
  | c :: rest =>
    if c = '.' then
      if segment.isEmpty then
        .error (.error .invalidOptionName)
      else do
        let segs ← orOverrun (segs.put i segment)
        fillSegments segs (i + 1) [] rest
    else
      fillSegments segs i (segment ++ [c]) rest

def splitSegments (span : Span) : Except Stop (List Span) :=
  if span.isEmpty then
    .error (.error .invalidOptionName)
  else do
    let segs ← fillSegments (Slots.allot Span (span.count '.' + 1)) 0 [] span
    match segs.contents with
    | some segments => .ok segments
    | none => .error .unwritten

/--
`gremlind_scoped_name_parse` with its array, of which the dots say the size. The allocation succeeds.
-/
def ScopedName.split (span : Span) : Except Stop ScopedName :=
  match span with
  | '.' :: rest => (splitSegments rest).map fun segments => ⟨segments, true⟩
  | _ => (splitSegments span).map fun segments => ⟨segments, false⟩

theorem fillSegments_filled (done : List Span) (segment rest : Span)
    : fillSegments (Slots.filled done (rest.count '.' + 1)) done.length segment rest
        = ((ScopedName.parse.go segment rest).mapError Stop.error).map fun segments =>
            Slots.filled (done ++ segments) 0 := by
  induction rest generalizing done segment with
  | nil =>
    rw [fillSegments, ScopedName.parse.go]
    split
    . rfl
    . rw [List.count_nil, Slots.put_filled]
      rfl
  | cons c rest ih =>
    rw [fillSegments, ScopedName.parse.go]
    by_cases hc : c = '.'
    . subst hc
      rw [if_pos rfl, if_pos rfl, List.count_cons_self]
      split
      -- An empty segment ends the scan before its slot is written.
      . rfl
      . have hrest := ih (done ++ [segment]) []
        rw [List.length_append, List.length_singleton] at hrest
        rw [Slots.put_filled]
        simp only [orOverrun]
        change fillSegments _ _ _ _ = _
        rw [hrest]
        cases ScopedName.parse.go [] rest with
        | error e => rfl
        | ok segments => simp [Except.map, Except.mapError]
    . rw [if_neg hc, if_neg hc, List.count_cons_of_ne hc]
      exact ih done (segment ++ [c])

theorem splitSegments_eq (span : Span)
    : splitSegments span = (ScopedName.parse.go [] span).mapError Stop.error := by
  unfold splitSegments
  split
  . next hempty =>
    rw [List.isEmpty_iff.mp hempty]
    rfl
  . have hfill := fillSegments_filled [] [] span
    simp only [List.length_nil, List.nil_append] at hfill
    rw [Slots.allot_eq_filled, hfill]
    cases ScopedName.parse.go [] span with
    | error e => rfl
    | ok segments =>
      change (match (Slots.filled segments 0).contents with
        | some segments => .ok segments
        | none => .error .unwritten) = (.ok segments : Except Stop (List Span))
      rw [Slots.contents_filled]

namespace ScopedName

theorem split_eq (span : Span) : split span = (parse span).mapError Stop.error := by
  unfold split
  split
  . next rest =>
    rw [splitSegments_eq, parse]
    cases parse.go [] rest <;> rfl
  . next hdot =>
    have hparse : parse span = (parse.go [] span).map fun segments => ⟨segments, false⟩ := by
      unfold parse
      split
      . next rest => exact absurd rfl (hdot rest)
      . rfl
    rw [splitSegments_eq, hparse]
    cases parse.go [] span <;> rfl

theorem go_eq_ok {segment rest : Span} {segments : List Span} (hdot : '.' ∉ segment)
    (h : parse.go segment rest = .ok segments)
    : segments ≠ [] ∧ (∀ s ∈ segments, s ≠ [] ∧ '.' ∉ s)
        ∧ List.intercalate ['.'] segments = segment ++ rest := by
  induction rest generalizing segment segments with
  | nil =>
    rw [parse.go] at h
    split at h
    . simp at h
    . next hne =>
      rw [Except.ok.injEq] at h
      subst h
      rw [List.isEmpty_iff] at hne
      simp [hne, hdot]
  | cons c rest ih =>
    rw [parse.go] at h
    by_cases hc : c = '.'
    . subst hc
      rw [if_pos rfl] at h
      split at h
      . simp at h
      . next hne =>
        rw [List.isEmpty_iff] at hne
        cases hgo : parse.go [] rest with
        | error e => simp [hgo, Except.map] at h
        | ok tail =>
          rw [hgo] at h
          simp only [Except.map, Except.ok.injEq] at h
          subst h
          obtain ⟨htail, hall, heq⟩ := ih (by simp) hgo
          obtain ⟨s, tail, rfl⟩ := List.exists_cons_of_ne_nil htail
          refine ⟨by simp, ?_, ?_⟩
          . rw [List.forall_mem_cons]
            exact ⟨⟨hne, hdot⟩, hall⟩
          . rw [intercalate_cons_cons, heq, List.nil_append]
    . rw [if_neg hc] at h
      have hdot' : '.' ∉ segment ++ [c] := by
        simp [hdot, Ne.symm hc]
      obtain ⟨hne, hall, heq⟩ := ih hdot' h
      refine ⟨hne, hall, ?_⟩
      rw [heq, List.append_assoc, List.singleton_append]

theorem map_go_eq_ok {rest : Span} {absolute : Bool} {name : ScopedName}
    (h : (parse.go [] rest).map (fun segments => ⟨segments, absolute⟩) = .ok name)
    : name.WellFormed ∧ name.text = (if absolute then ['.'] else []) ++ rest := by
  cases hgo : parse.go [] rest with
  | error e => simp [hgo, Except.map] at h
  | ok segments =>
    rw [hgo] at h
    simp only [Except.map, Except.ok.injEq] at h
    subst h
    obtain ⟨hne, hall, heq⟩ := go_eq_ok (by simp) hgo
    refine ⟨⟨hne, hall⟩, ?_⟩
    rw [List.nil_append] at heq
    rw [text, heq]

theorem parse_eq_ok {span : Span} {name : ScopedName} (h : parse span = .ok name)
    : name.WellFormed ∧ name.text = span := by
  unfold parse at h
  split at h
  . exact map_go_eq_ok h
  . exact map_go_eq_ok h

theorem split_eq_ok_iff {span : Span} {name : ScopedName}
    : split span = .ok name ↔ name.WellFormed ∧ name.text = span := by
  rw [split_eq]
  constructor
  . intro h
    cases hparse : parse span with
    | error e => simp [hparse, Except.mapError] at h
    | ok name' =>
      rw [hparse] at h
      simp only [Except.mapError, Except.ok.injEq] at h
      subst h
      exact parse_eq_ok hparse
  . rintro ⟨hname, rfl⟩
    rw [hname.parse_text]
    rfl

end ScopedName

/-! The package. -/

theorem IsIdentifier.segment {span : Span} (h : IsIdentifier span) : span ≠ [] ∧ '.' ∉ span := by
  constructor
  . obtain ⟨c, rest, rfl, -⟩ := h.start
    simp
  . intro hdot
    have := h.chars '.' hdot
    simp [isIdentifierChar, isDigit, isLetter] at this

theorem parseFullIdentifier_wellFormed {b b' : Buffer} {span : Span} (h : parseFullIdentifier.run b = (.ok span, b'))
    : ∃ name : ScopedName, name.WellFormed ∧ name.text = span := by
  obtain ⟨-, absolute, segments, hne, hsegments, rfl⟩ := parseFullIdentifier_ok h
  refine ⟨⟨segments, absolute⟩, ⟨hne, ?_⟩, rfl⟩
  intro segment hsegment
  exact (hsegments segment hsegment).segment

def PackageNamed (package : Option PackageParseResult) : Prop :=
  ∀ parsed, package = some parsed → ∃ name : ScopedName, name.WellFormed ∧ name.text = parsed.name

theorem ScopedName.WellFormed.text_ne_nil {name : ScopedName} (h : name.WellFormed) : name.text ≠ [] := by
  obtain ⟨c, rest, heq, -⟩ := ScopedName.head_intercalate h.ne_nil h.segment
  unfold ScopedName.text
  rw [heq]
  simp

theorem packageParse_named : Ensures packageParse fun _ parsed => PackageNamed (some parsed) := by
  intro b parsed b' h
  rintro _ ⟨rfl⟩
  have h := restoring_ok.mp h
  obtain ⟨_, _, _, h⟩ := andThen_ok.mp h
  obtain ⟨_, _, _, h⟩ := andThen_ok.mp h
  obtain ⟨name, _, hname, h⟩ := andThen_ok.mp h
  obtain ⟨_, _, _, h⟩ := andThen_ok.mp h
  obtain ⟨_, _, _, h⟩ := andThen_ok.mp h
  cases h
  exact parseFullIdentifier_wellFormed hname

theorem package_hoistCodegenHints (file : FileNode) (fld : FieldNode)
    : (hoistCodegenHints file fld).package = file.package := by
  unfold hoistCodegenHints
  split <;> rfl

theorem package_foldl (flds : List FieldNode) (file : FileNode)
    : (flds.foldl hoistCodegenHints file).package = file.package := by
  induction flds generalizing file with
  | nil => rfl
  | cons fld flds ih => rw [List.foldl_cons, ih, package_hoistCodegenHints]

section Package

variable [Libc] {text : Span}

theorem fileNextEntry_packageNamed
    : Ensures fileNextEntry fun _ e => ∀ parsed, e = .package parsed → PackageNamed (some parsed) := by
  apply fileNextEntry_ensures
  case hQ => exact fun _ _ _ _ h => h
  case hpackage =>
    rintro b parsed b' h _ ⟨rfl⟩
    exact packageParse_named b parsed b' h
  all_goals simp [Ensures]

theorem package_head_body {es : List MessageEntry} {o : Outline} (h : o.OfBody text es) (stop : Nat) (file : FileNode)
    : (o.head text stop file).package = file.package := by
  induction h generalizing stop file with
  | nil => rfl
  | entry _ _ ih => simp only [Outline.head, ih, package_foldl]
  | message _ _ _ ihbody ihrest => rw [Outline.head, ihrest, ihbody]

theorem packageNamed_head {es : List FileEntry} {o : Outline} (h : o.OfFile text es)
    (hes : ∀ parsed, .package parsed ∈ es → PackageNamed (some parsed)) (stop : Nat) (file : FileNode)
    (hfile : PackageNamed file.package)
    : PackageNamed (o.head text stop file).package := by
  induction h generalizing stop file with
  | nil => exact hfile
  | @entry e es rest _ _ ih =>
    cases e with
    | package parsed =>
      apply ih fun parsed hmem => hes parsed (List.mem_cons_of_mem _ hmem)
      rw [package_foldl]
      exact hes parsed List.mem_cons_self
    | syntaxDef _ | edition _ | importDef _ | option _ | message _ | enumeration _ | service | extend _ =>
      apply ih fun parsed hmem => hes parsed (List.mem_cons_of_mem _ hmem)
      rw [package_foldl]
      exact hfile
  | message _ hbody _ ih =>
    rw [Outline.head]
    apply ih fun parsed hmem => hes parsed (List.mem_cons_of_mem _ hmem)
    rw [package_head_body hbody]
    exact hfile

theorem Outline.file_packageNamed {offset : Nat} {o : Outline} (h : o.Of text offset)
    : PackageNamed (o.file text).package := by
  obtain ⟨es, hes, ho⟩ := h
  refine packageNamed_head ho ?_ _ _ (by simp [PackageNamed, FileNode.empty])
  intro parsed hmem
  have hes : es = (fileEntries text offset).1 := (congrArg Prod.fst hes).symm
  rw [hes] at hmem
  exact entries_mem fileNextEntry_packageNamed (fun _ _ _ _ h => h) hmem parsed rfl

end Package

/-! The full names. -/

namespace Outline

/--
The full names of the messages in pre-order, where the path is the package and the messages around them from
the outside in.
-/
def messageNames (path : List Span) : Outline → List (List Span)
  | .nil => []
  | .entry _ rest => rest.messageNames path
  | .message parsed body rest =>
    (path ++ [parsed.name]) :: (body.messageNames (path ++ [parsed.name]) ++ rest.messageNames path)

def enumNames (path : List Span) : Outline → List (List Span)
  | .nil => []
  | .entry e rest => ((enumOf e).map fun parsed => path ++ [parsed.name]).toList ++ rest.enumNames path
  | .message parsed body rest => body.enumNames (path ++ [parsed.name]) ++ rest.enumNames path

theorem length_messageNames (o : Outline) (path : List Span) : (o.messageNames path).length = o.size := by
  induction o generalizing path with
  | nil => rfl
  | entry _ _ ih => exact ih path
  | message _ _ _ ihbody ihrest =>
    rw [messageNames, size, List.length_cons, List.length_append, ihbody, ihrest]

end Outline

/--
The parent that an enum or a message is named after has its full name by then.
-/
theorem parentName_segments {package : ScopedName} {messages : List MessageNode} (hbefore : ParentsBefore messages)
    {parent : Option Nat} {segments : List Span}
    (h : FullName package (nameMessages package messages) parent segments)
    : (parentName package (nameMessages package messages) parent).segments = segments := by
  cases h with
  | top => rfl
  | @nested i m path hget hpath =>
    have hname := (nameMessages_fullName hbefore i m hget).2
    simp only [parentName, hget, Option.elim_some]
    exact hname.unique (.nested hget hpath)

section Names

variable [Libc] {text : Span} {package : ScopedName} {all : List MessageNode}

/--
The messages of an outline stand in `all` from `next` on, as far as their names and parents go.
-/
def Stands (text : Span) (all : List MessageNode) (o : Outline) (parent : Option Nat) (next : Nat) : Prop :=
  ∀ i m, (o.messages text parent next)[i]? = some m
    → ∃ m', all[next + i]? = some m' ∧ m'.parsed = m.parsed ∧ m'.parent = m.parent

section Stands

variable {parsed : BodyParseResult} {inner behind : Outline} {parent : Option Nat} {next : Nat}

theorem Stands.self (h : Stands text all (.message parsed inner behind) parent next)
    : ∃ m, all[next]? = some m ∧ m.parsed = parsed ∧ m.parent = parent := by
  obtain ⟨m, hget, hparsed, hparent⟩ := h 0 _ rfl
  exact ⟨m, hget, hparsed, hparent⟩

theorem Stands.body (h : Stands text all (.message parsed inner behind) parent next)
    : Stands text all inner (some next) (next + 1) := by
  intro i m hget
  have hi : i < (inner.messages text (some next) (next + 1)).length := (List.getElem?_eq_some_iff.mp hget).1
  have hget' := h (i + 1) m (by
    rw [Outline.messages, List.getElem?_cons_succ, List.getElem?_append_left hi, hget])
  rwa [Nat.add_comm i 1, ← Nat.add_assoc] at hget'

theorem Stands.rest (h : Stands text all (.message parsed inner behind) parent next)
    : Stands text all behind parent (next + 1 + inner.size) := by
  intro i m hget
  have hget' := h (inner.size + i + 1) m (by
    rw [Outline.messages, List.getElem?_cons_succ, List.getElem?_append_right (by rw [Outline.length_messages]; omega),
      Outline.length_messages, Nat.add_sub_cancel_left, hget])
  have hindex : next + 1 + inner.size + i = next + (inner.size + i + 1) := by omega
  rwa [hindex]

end Stands

theorem messageNames_fullName {o : Outline} {parent : Option Nat} {next : Nat} {path : List Span}
    (hpath : FullName package all parent path) (hstands : Stands text all o parent next) (i : Nat) (name : List Span)
    (hget : (o.messageNames path)[i]? = some name) : FullName package all (some (next + i)) name := by
  induction o generalizing parent next path i with
  | nil => simp [Outline.messageNames] at hget
  | entry _ _ ih => exact ih hpath hstands i hget
  | message parsed inner behind ihinner ihbehind =>
    obtain ⟨m, hm, rfl, rfl⟩ := hstands.self
    have hself := FullName.nested hm hpath
    rw [Outline.messageNames] at hget
    cases i with
    | zero =>
      rw [List.getElem?_cons_zero, Option.some_inj] at hget
      subst hget
      exact hself
    | succ i =>
      rw [List.getElem?_cons_succ] at hget
      -- What is in the message comes before what is behind it.
      by_cases hi : i < inner.size
      . rw [List.getElem?_append_left (by rwa [Outline.length_messageNames])] at hget
        have := ihinner hself hstands.body i hget
        rwa [Nat.add_assoc, Nat.add_comm 1 i] at this
      . rw [List.getElem?_append_right (by rw [Outline.length_messageNames]; omega),
          Outline.length_messageNames] at hget
        have := ihbehind hpath hstands.rest (i - inner.size) hget
        have hindex : next + 1 + inner.size + (i - inner.size) = next + (i + 1) := by omega
        rwa [hindex] at this

theorem enumNames_fullName {o : Outline} {parent : Option Nat} {next : Nat} {path : List Span}
    (hpath : FullName package all parent path) (hstands : Stands text all o parent next)
    : List.Forall₂ (fun en name => ∃ segments, FullName package all en.parent segments
          ∧ name = segments ++ [en.parsed.name]) (o.enums text parent next) (o.enumNames path) := by
  induction o generalizing parent next path with
  | nil => exact .nil
  | entry e behind ih =>
    rw [Outline.enums, Outline.enumNames]
    have hrest := ih hpath hstands
    cases enumOf e with
    | none => exact hrest
    | some parsed => exact .cons ⟨path, hpath, rfl⟩ hrest
  | message parsed inner behind ihinner ihbehind =>
    obtain ⟨m, hm, rfl, rfl⟩ := hstands.self
    rw [Outline.enums, Outline.enumNames]
    exact List.rel_append (ihinner (.nested hm hpath) hstands.body) (ihbehind hpath hstands.rest)

variable (text) in
theorem Outline.file_stands (o : Outline) (package : ScopedName)
    : Stands text (nameMessages package (o.file text).messages) o none 0 := by
  intro i m hget
  rw [nameMessages_getElem? o.file_nested.message]
  simp only [Outline.file, resolvePacking, List.getElem?_map, Nat.zero_add, hget, Option.map_some]
  exact ⟨_, rfl, rfl, rfl⟩

variable (text) in
theorem nameMessages_scopedName (o : Outline) (package : ScopedName)
    : (nameMessages package (o.file text).messages).map MessageNode.scopedName
        = (o.messageNames package.segments).map fun path => ⟨path, true⟩ := by
  have hlength : (nameMessages package (o.file text).messages).length = o.size := by
    simp [length_nameMessages, Outline.file, resolvePacking, Outline.length_messages]
  apply List.ext_getElem
  . rw [List.length_map, List.length_map, hlength, Outline.length_messageNames]
  . intro i hi hi'
    rw [List.getElem_map, List.getElem_map]
    rw [List.length_map] at hi hi'
    obtain ⟨habsolute, hname⟩ := nameMessages_fullName o.file_nested.message i _ (List.getElem?_eq_getElem hi)
    have hplace := messageNames_fullName .top (o.file_stands text package) i _ (List.getElem?_eq_getElem hi')
    rw [Nat.zero_add] at hplace
    rw [hplace.unique hname, ← habsolute]

variable (text) in
theorem nameEnums_scopedName (o : Outline) (package : ScopedName)
    : (nameEnums package (nameMessages package (o.file text).messages) (o.file text).enums).map EnumNode.scopedName
        = (o.enumNames package.segments).map fun path => ⟨path, true⟩ := by
  have hnames := enumNames_fullName (@FullName.top package _) (o.file_stands text package)
  have henums : (o.file text).enums = o.enums text none 0 := rfl
  rw [nameEnums, henums, List.map_map]
  generalize o.enums text none 0 = enums at hnames
  generalize o.enumNames package.segments = names at hnames
  induction hnames with
  | nil => rfl
  | cons hname _ ih =>
    obtain ⟨segments, hsegments, rfl⟩ := hname
    rw [List.map_cons, List.map_cons, ih, Function.comp_apply]
    simp only [ScopedName.extend, parentName_segments o.file_nested.message hsegments]

end Names

/--
The path that a package gives.
-/
inductive PackagePath : Option PackageParseResult → List Span → Prop where
  | absent : PackagePath none []
  | present {parsed : PackageParseResult} {name : ScopedName} (h : name.WellFormed) (htext : name.text = parsed.name)
      : PackagePath (some parsed) name.segments

theorem packageName_path {file : FileNode} (h : PackageNamed file.package)
    : ∃ package, packageName file = .ok package ∧ PackagePath file.package package.segments := by
  unfold packageName
  cases hpackage : file.package with
  | none => exact ⟨_, rfl, .absent⟩
  | some parsed =>
    obtain ⟨name, hname, htext⟩ := h parsed hpackage
    have hne : parsed.name.isEmpty = false := by
      rw [List.isEmpty_eq_false_iff, ← htext]
      exact hname.text_ne_nil
    dsimp only
    rw [hne, if_neg (by simp), ← htext, hname.parse_text]
    have hpath : PackagePath (some parsed) name.segments := .present hname htext
    exact ⟨_, rfl, hpath⟩

/--
The naming pass succeeds on every file that is built and names each message and each enum after the package and
the messages around it. A dotted name is split if it has a segment and none is empty, and into what it joins.
-/
theorem scopedNames_full [Libc]
    : (∀ (text : Span) (offset : Nat) (file : FileNode), buildFile text offset = .ok file
          → ∃ o path file', Outline.Of text offset o ∧ file = o.file text ∧ PackagePath file.package path
            ∧ file.computeScopedNames = .ok file'
            ∧ file'.messages.map MessageNode.scopedName = (o.messageNames path).map (fun path => ⟨path, true⟩)
            ∧ file'.enums.map EnumNode.scopedName = (o.enumNames path).map fun path => ⟨path, true⟩)
        ∧ ∀ (span : Span) (name : ScopedName),
          ScopedName.split span = .ok name ↔ name.WellFormed ∧ name.text = span := by
  constructor
  . intro text offset file h
    obtain ⟨o, ho, -, rfl⟩ := exists_outline h
    obtain ⟨package, hpackage, hpath⟩ := packageName_path (Outline.file_packageNamed ho)
    have hnamed : (o.file text).computeScopedNames = .ok {
        o.file text with
        messages := nameMessages package (o.file text).messages
        enums := nameEnums package (nameMessages package (o.file text).messages) (o.file text).enums
      } := by
      unfold FileNode.computeScopedNames
      rw [hpackage]
      rfl
    exact ⟨o, package.segments, _, ho, rfl, hpath, hnamed, nameMessages_scopedName text o package,
      nameEnums_scopedName text o package⟩
  . intro span name
    exact ScopedName.split_eq_ok_iff

/--
A message and an enum in a message of a package.
-/
def nestedText : Span :=
  "package a.b;message M{message N{}enum E{X=0;}}".toList

theorem nestedText_scopedNames
    : ∃ file o path file', @buildFile Pool.constLibc nestedText 0 = .ok file
        ∧ @Outline.Of Pool.constLibc nestedText 0 o ∧ file = @Outline.file Pool.constLibc nestedText o
        ∧ PackagePath file.package path ∧ file.computeScopedNames = .ok file'
        ∧ file'.messages.map MessageNode.scopedName = (o.messageNames path).map (fun path => ⟨path, true⟩)
        ∧ file'.enums.map EnumNode.scopedName = (o.enumNames path).map fun path => ⟨path, true⟩ := by
  have hok : (@buildFile Pool.constLibc nestedText 0).isOk = true := by decide +kernel
  rcases hbuild : @buildFile Pool.constLibc nestedText 0 with e | file
  . rw [hbuild] at hok
    cases hok
  . obtain ⟨o, path, file', hnamed⟩ := (@scopedNames_full Pool.constLibc).1 nestedText 0 file hbuild
    exact ⟨file, o, path, file', rfl, hnamed⟩

end Gremlin
