import Gremlin.Descriptors.Nodes
import Gremlin.Descriptors.Walk
import Gremlin.Memory.Slots

/-!
This module contains the builder. It walks a file twice: first it counts the imports, the enums and
the messages at any depth, then it fills arrays of that many slots.
-/

namespace Gremlin

open Text Parser Memory

/-! Options of a field. -/

def extractOptionStep [Libc] (name : Span) (_ : Unit) : EntryParser (Step Unit (Option Const)) := do
  skipSpaces
  if ← checkAndShift ']' then
    pure (.done none)
  else
    let item ← optionItemParse
    if item.name = name then
      pure (.done (some item.value))
    else
      skipSpaces
      if ← checkAndShift ']' then
        pure (.done none)
      else if ← checkAndShift ',' then
        pure (.again ())
      else
        pure (.done none)

/--
The value of the first option with this name. It re-reads the options in a text that ends at `stop`.
-/
def extractOption [Libc] (text : Span) (stop : Nat) (opts : OptionListResult) (name : String)
    : Option Const :=
  if opts.count = 0 then
    none
  else
    let option : EntryParser (Option Const) := do
      expect '[' .unexpectedToken
      loop (extractOptionStep name.toList) ()
    match option.run (Buffer.between text opts.start stop) with
    | (.ok value, _) => value
    | (.error _, _) => none

def fieldPackedOption [Libc] (text : Span) (stop : Nat) (opts : OptionListResult) : Option Bool :=
  match extractOption text stop opts "packed" with
  | some (.identifier span) =>
    if span = "true".toList then some true
    else if span = "false".toList then some false
    else none
  | _ => none

def fieldPacking (file : FileNode) (opt : Option Bool) : Packing :=
  match opt with
  | some packed => if packed then .packed else .expanded
  | none =>
    let proto3 := file.syntaxDef.any fun s => s.version.length = 6 && s.version[5]? = some '3'
    if file.edition.isSome || proto3 then .auto else .expanded

/--
`isinf(v) || isnan(v)`: the exponent has ones only.
-/
def isNotFinite (v : Double) : Bool :=
  v.extractLsb 62 52 = 0x7FF#11

def hoistCodegenHints (file : FileNode) (fld : FieldNode) : FileNode :=
  match fld.default with
  | none => file
  | some value =>
    let notFinite := match value with
      | .float v => isNotFinite v
      | _ => false
    let bytes := match fld.parsed.type with
      | .named name => name = "string".toList || name = "bytes".toList
      | .map _ _ => false
    {
      file with
      needsMathH := file.needsMathH || notFinite
      needsStringH := file.needsStringH || bytes
    }

/-! The counting walk. -/

structure Counts where
  imports : Nat
  enums : Nat
  messages : Nat
  deriving DecidableEq, Repr

def Counts.zero : Counts :=
  ⟨0, 0, 0⟩

def Counts.plus (cnt cnt' : Counts) : Counts :=
  ⟨cnt.imports + cnt'.imports, cnt.enums + cnt'.enums, cnt.messages + cnt'.messages⟩

def Counts.addImport (cnt : Counts) : Counts :=
  { cnt with imports := cnt.imports + 1 }

def Counts.addEnum (cnt : Counts) : Counts :=
  { cnt with enums := cnt.enums + 1 }

def Counts.addMessage (cnt : Counts) : Counts :=
  { cnt with messages := cnt.messages + 1 }

/--
The part of the text that is the body of a message, an enum or a oneof.
-/
def bodyOf (text : Span) (parsed : BodyParseResult) : Buffer :=
  Buffer.between text parsed.bodyStart parsed.bodyEnd

/--
One entry of the body of a message, where `nested` counts what is in a message in it.
-/
def countMessageEntry (nested : BodyParseResult → Counts → Except Stop Counts) (out : Counts)
    : MessageEntry → Except Stop Counts
  | .enumeration _ => .ok out.addEnum
  | .message parsed => nested parsed out.addMessage
  | _ => .ok out

def countMessageBody [Libc] (text : Span)
    : (fuel : Nat) → BodyParseResult → Counts → Except Stop Counts
  | 0, _, _ => .error .unfinished
  | fuel + 1, parsed, out =>
    walk messageNextEntry (countMessageEntry (countMessageBody text fuel)) (bodyOf text parsed) out

/--
A message in a message is in less of the text, so that there are no more levels than characters.
-/
def levels (text : Span) : Nat :=
  text.length + 1

def countFileEntry [Libc] (text : Span) (out : Counts) : FileEntry → Except Stop Counts
  | .importDef _ => .ok out.addImport
  | .enumeration _ => .ok out.addEnum
  | .message parsed => countMessageBody text (levels text) parsed out.addMessage
  | _ => .ok out

def countEntries [Libc] (text : Span) (offset : Nat) : Except Stop Counts :=
  walk fileNextEntry (countFileEntry text) (Buffer.between text offset text.length) .zero

/-! The filling walk. -/

structure MessageSlot where
  parsed : BodyParseResult
  parent : Option Nat
  fields : Slots FieldNode
  deriving DecidableEq, Repr

structure EnumSlot where
  parsed : BodyParseResult
  parent : Option Nat
  values : Slots EnumFieldParseResult
  deriving DecidableEq, Repr

/--
The file that is filled, its arrays and the running indices into them.
-/
structure FillState where
  file : FileNode
  imports : Slots ImportNode
  enums : Slots EnumSlot
  messages : Slots MessageSlot
  importIdx : Nat
  enumIdx : Nat
  msgIdx : Nat
  deriving DecidableEq, Repr

def FillState.allotted (cnt : Counts) : FillState where
  file := .empty
  imports := Slots.allot ImportNode cnt.imports
  enums := Slots.allot EnumSlot cnt.enums
  messages := Slots.allot MessageSlot cnt.messages
  importIdx := 0
  enumIdx := 0
  msgIdx := 0

def orOverrun {α : Type} : Option α → Except Stop α
  | some a => .ok a
  | none => .error .overrun

def FillState.putImport (state : FillState) (parsed : ImportParseResult) : Except Stop FillState := do
  let imports ← orOverrun (state.imports.put state.importIdx ⟨parsed, none⟩)
  pure { state with imports, importIdx := state.importIdx + 1 }

def FillState.putEnum (state : FillState) (parsed : BodyParseResult) (parent : Option Nat)
    : Except Stop FillState := do
  let enums ← orOverrun (state.enums.put state.enumIdx ⟨parsed, parent, []⟩)
  pure { state with enums, enumIdx := state.enumIdx + 1 }

def FillState.setValues (state : FillState) (i : Nat) (values : Slots EnumFieldParseResult)
    : Except Stop FillState := do
  let enums ← orOverrun (state.enums.modify i fun en => { en with values })
  pure { state with enums }

def FillState.putMessage (state : FillState) (parsed : BodyParseResult) (parent : Option Nat)
    : Except Stop FillState := do
  let messages ← orOverrun (state.messages.put state.msgIdx ⟨parsed, parent, []⟩)
  pure { state with messages, msgIdx := state.msgIdx + 1 }

def FillState.setFields (state : FillState) (i : Nat) (fields : Slots FieldNode)
    : Except Stop FillState := do
  let messages ← orOverrun (state.messages.modify i fun m => { m with fields })
  pure { state with messages }

section Fill

variable [Libc] (text : Span)

def countValue (n : Nat) : EnumEntry → Except Stop Nat
  | .field _ => .ok (n + 1)
  | _ => .ok n

def countValues (parsed : BodyParseResult) : Except Stop Nat :=
  walk enumNextEntry countValue (bodyOf text parsed) 0

/--
The values of an enum, filled up to the index.
-/
def fillValue (s : Slots EnumFieldParseResult × Nat)
    : EnumEntry → Except Stop (Slots EnumFieldParseResult × Nat)
  | .field value => do
    let values ← orOverrun (s.1.put s.2 value)
    pure (values, s.2 + 1)
  | _ => .ok s

def fillValues (parsed : BodyParseResult) (n : Nat)
    : Except Stop (Slots EnumFieldParseResult × Nat) :=
  walk enumNextEntry fillValue (bodyOf text parsed) (Slots.allot _ n, 0)

def fillEnum (parsed : BodyParseResult) (parent : Option Nat) (state : FillState)
    : Except Stop FillState := do
  let out := state.enumIdx
  let state ← state.putEnum parsed parent
  let n ← countValues text parsed
  if n = 0 then
    pure state
  else
    let (values, _) ← fillValues text parsed n
    state.setValues out values

def countOneofEntry (n : Nat) : OneofEntry → Except Stop Nat
  | .field _ => .ok (n + 1)
  | _ => .ok n

def countFieldEntry (n : Nat) : MessageEntry → Except Stop Nat
  | .field _ => .ok (n + 1)
  | .oneof parsed => walk oneofNextEntry countOneofEntry (bodyOf text parsed) n
  | _ => .ok n

/--
How many fields a message has itself, those of its oneofs counted.
-/
def countFields (parsed : BodyParseResult) : Except Stop Nat :=
  walk messageNextEntry (countFieldEntry text) (bodyOf text parsed) 0

/--
The descriptor of a field, whose options are re-read in a text that ends at `stop`. The packing is
set later.
-/
def fieldNode (stop : Nat) (parsed : FieldParseResult) : FieldNode where
  parsed := parsed
  type := .unresolved
  default := extractOption text stop parsed.options "default"
  packing := .auto
  originFile := none
  originScope := none

/--
A field of a oneof as an ordinary optional one.
-/
def oneofField (parsed : OneofFieldParseResult) : FieldParseResult :=
  ⟨.optional, .named parsed.type, parsed.name, parsed.index, parsed.options⟩

/--
Where the second walk over the body of a message is: its fields are filled up to the index.
-/
structure FieldState where
  state : FillState
  fields : Slots FieldNode
  fi : Nat
  deriving DecidableEq, Repr

def FieldState.putField (s : FieldState) (fld : FieldNode) : Except Stop FieldState := do
  let fields ← orOverrun (s.fields.put s.fi fld)
  let file := hoistCodegenHints s.state.file fld
  pure { state := { s.state with file }, fields, fi := s.fi + 1 }

def fillOneofEntry (stop : Nat) (s : FieldState) : OneofEntry → Except Stop FieldState
  | .field parsed => s.putField (fieldNode text stop (oneofField parsed))
  | _ => .ok s

/--
One entry of the body of the message `out`, where `nested` fills a message in it.
-/
def fillMessageEntry (nested : BodyParseResult → Option Nat → FillState → Except Stop FillState)
    (out : Nat) (stop : Nat) (s : FieldState) : MessageEntry → Except Stop FieldState
  | .field parsed => s.putField (fieldNode text stop parsed)
  | .enumeration parsed => do
    let state ← fillEnum text parsed (some out) s.state
    pure { s with state }
  | .message parsed => do
    let state ← nested parsed (some out) s.state
    pure { s with state }
  | .oneof parsed =>
    walk oneofNextEntry (fillOneofEntry text parsed.bodyEnd) (bodyOf text parsed) s
  | _ => .ok s

def fillMessage : (fuel : Nat) → BodyParseResult → Option Nat → FillState → Except Stop FillState
  | 0, _, _, _ => .error .unfinished
  | fuel + 1, parsed, parent, state => do
    let out := state.msgIdx
    let state ← state.putMessage parsed parent
    let n ← countFields text parsed
    let entry := fillMessageEntry text (fillMessage fuel) out parsed.bodyEnd
    let s ← walk messageNextEntry entry (bodyOf text parsed) ⟨state, Slots.allot _ n, 0⟩
    s.state.setFields out s.fields

def fillFileEntry (state : FillState) : FileEntry → Except Stop FillState
  | .syntaxDef parsed => .ok { state with file := { state.file with syntaxDef := some parsed } }
  | .edition parsed => .ok { state with file := { state.file with edition := some parsed } }
  | .package parsed => .ok { state with file := { state.file with package := some parsed } }
  | .importDef parsed => state.putImport parsed
  | .enumeration parsed => fillEnum text parsed none state
  | .message parsed => fillMessage text (levels text) parsed none state
  | _ => .ok state

def fillFile (offset : Nat) (state : FillState) : Except Stop FillState :=
  walk fileNextEntry (fillFileEntry text) (Buffer.between text offset text.length) state

/-! The file. -/

def ScopedName.unset : ScopedName :=
  ⟨[], false⟩

def MessageSlot.node (slot : MessageSlot) : Option MessageNode :=
  slot.fields.contents.map fun fields => ⟨slot.parsed, fields, slot.parent, .unset⟩

def EnumSlot.node (slot : EnumSlot) : Option EnumNode :=
  slot.values.contents.map fun values => ⟨slot.parsed, values, slot.parent, .unset⟩

def FillState.built (state : FillState) : Option FileNode := do
  let imports ← state.imports.contents
  let enums ← state.enums.contents
  let enums ← enums.mapM EnumSlot.node
  let messages ← state.messages.contents
  let messages ← messages.mapM MessageSlot.node
  pure { state.file with imports, enums, messages }

def resolvePacking (file : FileNode) : FileNode :=
  let field (fld : FieldNode) : FieldNode :=
    let opt := fieldPackedOption text text.length fld.parsed.options
    { fld with packing := fieldPacking file opt }
  { file with messages := file.messages.map fun m => { m with fields := m.fields.map field } }

/--
`gremlind_build_file` on a buffer at an offset into a text. The allocations succeed.
-/
def buildFile (offset : Nat) : Except Stop FileNode := do
  let cnt ← countEntries text offset
  let state ← fillFile text offset (.allotted cnt)
  match state.built with
  | some file => pure (resolvePacking text file)
  | none => .error .unwritten

end Fill

end Gremlin
