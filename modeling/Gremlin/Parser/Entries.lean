import Gremlin.Parser.Lexems

/-!
This module contains the parsers for the entries of a file and of the bodies in it, and the functions
that take the next entry of a body.
-/

namespace Gremlin

open Text Parser

/-! Options. -/

def optionNamePart : EntryParser Unit :=
  restoring do
    if ← checkAndShift '(' then
      let _ ← checkAndShift '.'
      let _ ← parseFullIdentifier.orElse (fail .invalidOptionName)
      expect ')' .invalidOptionName
    else
      identifierChars.orElse (fail .invalidOptionName)

def optionNameStep (_ : Unit) : EntryParser (Step Unit Unit) := do
  if ← checkAndShift '.' then
    optionNamePart
    pure (.again ())
  else
    pure (.done ())

def optionName : EntryParser Unit := do
  optionNamePart
  loop optionNameStep ()

def optionParse [Libc] : EntryParser OptionParseResult :=
  restoring do
    keyword "option" .unexpectedToken
    skipSpaces
    let name ← spanned optionName
    skipSpaces
    expect '=' .assignmentExpected
    skipSpaces
    let value ← parseConstValue
    skipSpaces
    expect ';' .semicolonExpected
    pure ⟨name, value⟩

def optionItemParse [Libc] : EntryParser OptionParseResult :=
  restoring do
    let name ← parseFullIdentifier.orElse (fail .invalidOptionName)
    skipSpaces
    expect '=' .assignmentExpected
    skipSpaces
    let value ← parseConstValue
    pure ⟨name, value⟩

def optionListStep [Libc] (count : Nat) : EntryParser (Step Nat Nat) := do
  let _ ← optionItemParse
  skipSpaces
  if ← checkAndShift ']' then
    pure (.done (count + 1))
  else
    expect ',' .invalidCharacter
    skipSpaces
    pure (.again (count + 1))

def optionListConsume [Libc] : EntryParser OptionListResult :=
  restoring do
    let start ← position
    expect '[' .unexpectedToken
    skipSpaces
    if ← checkAndShift ']' then
      let stop ← position
      pure ⟨start, stop, 0⟩
    else
      let count ← loop optionListStep 0
      let stop ← position
      pure ⟨start, stop, count⟩

/--
The list of options that fields and values of enums may have.
-/
def optionalOptions [Libc] : EntryParser OptionListResult := do
  if ← looking (· = '[') then
    let options ← optionListConsume
    skipSpaces
    pure options
  else
    pure .empty

/-! Fields. -/

def fieldLabel : EntryParser FieldLabel := do
  if ← checkStrAndShift "optional" then
    skipSpaces
    pure .optional
  else if ← checkStrAndShift "required" then
    skipSpaces
    pure .required
  else if ← checkStrAndShift "repeated" then
    skipSpaces
    pure .repeated
  else
    pure .none

def fieldParse [Libc] : EntryParser FieldParseResult :=
  restoring do
    let label ← fieldLabel
    let type ← parseFieldType
    skipSpaces
    let name ← parseIdentifier
    skipSpaces
    expect '=' .assignmentExpected
    skipSpaces
    let index ← parseFieldNumber
    skipSpaces
    let options ← optionalOptions
    expect ';' .semicolonExpected
    pure ⟨label, type, name, index, options⟩

def oneofFieldParse [Libc] : EntryParser OneofFieldParseResult :=
  restoring do
    let type ← parseFullIdentifier
    skipSpaces
    let name ← parseIdentifier
    skipSpaces
    expect '=' .assignmentExpected
    skipSpaces
    let index ← parseFieldNumber
    skipSpaces
    let options ← optionalOptions
    expect ';' .semicolonExpected
    pure ⟨type, name, index, options⟩

def enumFieldParse [Libc] : EntryParser EnumFieldParseResult :=
  restoring do
    let name ← parseIdentifier
    skipSpaces
    expect '=' .assignmentExpected
    skipSpaces
    let index ← parseEnumValueNumber
    skipSpaces
    let options ← optionalOptions
    expect ';' .semicolonExpected
    pure ⟨name, index, options⟩

/-! Reserved names and numbers, and extensions. -/

/--
One more item of a list, if a comma comes next.
-/
def listStep (item : EntryParser Unit) (count : Nat) : EntryParser (Step Nat Nat) := do
  if ← checkAndShift ',' then
    skipSpaces
    item
    skipSpaces
    pure (.again (count + 1))
  else
    pure (.done count)

def commaList (item : EntryParser Unit) : EntryParser Nat := do
  item
  skipSpaces
  loop (listStep item) 1

def reservedParse : EntryParser ReservedParseResult :=
  restoring do
    keyword "reserved" .unexpectedToken
    skipSpaces
    let names ← looking fun first => first = '"' || first = '\x27'
    let count ← if names then commaList (parseStringLiteral *> pure ()) else commaList parseRange
    expect ';' .semicolonExpected
    pure ⟨if names then .names else .ranges, count⟩

def extensionsParse : EntryParser ExtensionsParseResult :=
  restoring do
    keyword "extensions" .unexpectedToken
    skipSpaces
    let count ← commaList parseRange
    expect ';' .semicolonExpected
    pure ⟨count⟩

/-! Bodies. -/

/--
What the loops over a body look at before they take an entry: its closing bracket and the end of the
text.
-/
def closing : EntryParser Bool where
  run buf :=
    match buf.rest with
    | [] => (.error .unexpectedEof, buf)
    | c :: rest => if c = '}' then (.ok true, ⟨buf.offset + 1, rest⟩) else (.ok false, buf)
  forward b := by
    split
    . exact Buffer.Advances.refl b
    . next c rest h =>
      split
      . exact ⟨[c], h, rfl⟩
      . exact Buffer.Advances.refl b

/--
One turn of the loop over the body of an enum, a oneof or an extend block.
-/
def bodyStep (entry : EntryParser Unit) (_ : Unit) : EntryParser (Step Unit Nat) := do
  skipSpaces
  let bodyEnd ← position
  if ← closing then
    pure (.done bodyEnd)
  else if ← checkAndShift ';' then
    pure (.again ())
  else
    entry
    pure (.again ())

def discard {α : Type} (p : EntryParser α) : EntryParser Unit := do
  let _ ← p
  pure ()

/--
A block with a name and a body of entries of one kind.
-/
def block (word : String) (parseName : EntryParser Span) (entry : EntryParser Unit)
    : EntryParser BodyParseResult :=
  restoring do
    keyword word .unexpectedToken
    skipSpaces
    let name ← parseName
    skipSpaces
    expect '{' .bracketExpected
    let bodyStart ← position
    let bodyEnd ← loop (bodyStep entry) ()
    pure ⟨name, bodyStart, bodyEnd⟩

def enumParse [Libc] : EntryParser BodyParseResult :=
  block "enum" parseIdentifier
    ((discard optionParse).orElse
      ((discard reservedParse).orElse
        ((discard enumFieldParse).orElse (fail .invalidEnumDef))))

def oneofParse [Libc] : EntryParser BodyParseResult :=
  block "oneof" parseIdentifier
    ((discard optionParse).orElse
      ((discard oneofFieldParse).orElse (fail .invalidOneofElement)))

def extendParse [Libc] : EntryParser ExtendParseResult := do
  let body ← block "extend" parseFullIdentifier (discard fieldParse)
  pure ⟨body.name, body.bodyStart, body.bodyEnd⟩

/--
One character of a string in a body that is skipped.
-/
def skipStringStep (quote : Char) (_ : Unit) : EntryParser (Step Unit Unit) := do
  match ← next with
  | none => fail .unexpectedEof
  | some c =>
    if c = quote then
      pure (.done ())
    else if c = '\\' then
      let _ ← next
      pure (.again ())
    else
      pure (.again ())

/--
One character, or one string, of a body that is skipped, where `depth + 1` brackets are open.
-/
def skipBodyStep (depth : Nat) : EntryParser (Step Nat Unit) := do
  match ← next with
  | none => fail .unexpectedEof
  | some c =>
    if c = '{' then
      pure (.again (depth + 1))
    else if c = '}' then
      match depth with
      | 0 => pure (.done ())
      | depth + 1 => pure (.again depth)
    else if c = '"' || c = '\x27' then
      loop (skipStringStep c) ()
      pure (.again depth)
    else
      pure (.again depth)

def skipBody : EntryParser Unit :=
  loop skipBodyStep 0

def groupParse : EntryParser Unit :=
  restoring do
    let _ ← checkStrAndShift "optional"
    let _ ← checkStrAndShift "required"
    let _ ← checkStrAndShift "repeated"
    skipSpaces
    keyword "group" .unexpectedToken
    skipSpaces
    let _ ← parseIdentifier
    skipSpaces
    expect '=' .assignmentExpected
    skipSpaces
    let _ ← parseIntegerLiteral
    skipSpaces
    expect '{' .bracketExpected
    skipBody

def serviceParse : EntryParser Unit :=
  restoring do
    keyword "service" .unexpectedToken
    skipSpaces
    let _ ← parseIdentifier
    skipSpaces
    expect '{' .bracketExpected
    skipBody

/-! Messages. -/

/--
The head of a message, up to the opening bracket.
-/
def messageHead : EntryParser Span :=
  restoring do
    keyword "message" .unexpectedToken
    skipSpaces
    let name ← parseIdentifier
    skipSpaces
    expect '{' .bracketExpected
    pure name

/--
One turn of the loop over the body of a message and the messages in it, where `depth + 1` of them
are open. A nested message only opens.
-/
def messageStep [Libc] (depth : Nat) : EntryParser (Step Nat Nat) := do
  skipSpaces
  let bodyEnd ← position
  if ← closing then
    match depth with
    | 0 => pure (.done bodyEnd)
    | depth + 1 => pure (.again depth)
  else if ← checkAndShift ';' then
    pure (.again depth)
  else
    let here : Step Nat Nat := .again depth
    ((fun _ => here) <$> enumParse).orElse <|
      ((fun _ => .again (depth + 1)) <$> messageHead).orElse <|
      ((fun _ => here) <$> oneofParse).orElse <|
      ((fun _ => here) <$> optionParse).orElse <|
      ((fun _ => here) <$> extensionsParse).orElse <|
      ((fun _ => here) <$> reservedParse).orElse <|
      ((fun _ => here) <$> extendParse).orElse <|
      ((fun _ => here) <$> groupParse).orElse <|
      ((fun _ => here) <$> fieldParse).orElse <|
      fail .invalidCharacter

def messageParse [Libc] : EntryParser BodyParseResult :=
  restoring do
    let name ← messageHead
    let bodyStart ← position
    let bodyEnd ← loop messageStep 0
    pure ⟨name, bodyStart, bodyEnd⟩

/-! The head of a file. -/

def versionIsValid (version : Span) : Bool :=
  version = "proto2".toList || version = "proto3".toList

def syntaxParse : EntryParser SyntaxParseResult :=
  restoring do
    keyword "syntax" .invalidSyntaxDef
    skipSpaces
    expect '=' .assignmentExpected
    skipSpaces
    let version ← parseStringLiteral
    if versionIsValid version then
      skipSpaces
      expect ';' .semicolonExpected
      pure ⟨version⟩
    else
      fail .invalidSyntaxVersion

def editionParse : EntryParser EditionParseResult :=
  restoring do
    keyword "edition" .invalidSyntaxDef
    skipSpaces
    expect '=' .assignmentExpected
    skipSpaces
    let edition ← parseStringLiteral
    if edition.isEmpty then
      fail .invalidSyntaxDef
    else
      skipSpaces
      expect ';' .semicolonExpected
      pure ⟨edition⟩

def packageParse : EntryParser PackageParseResult :=
  restoring do
    keyword "package" .unexpectedToken
    skipSpaces
    let name ← parseFullIdentifier
    skipSpaces
    expect ';' .semicolonExpected
    pure ⟨name⟩

def importType : EntryParser ImportType := do
  if ← checkStrAndShift "weak" then
    skipSpaces
    pure .typeWeak
  else if ← checkStrAndShift "public" then
    skipSpaces
    pure .typePublic
  else
    pure .typeRegular

def importParse : EntryParser ImportParseResult :=
  restoring do
    keyword "import" .unexpectedToken
    skipSpaces
    let type ← importType
    let path ← parseStringLiteral
    if path.isEmpty then
      fail .importPathInvalid
    else
      skipSpaces
      expect ';' .semicolonExpected
      pure ⟨path, type⟩

/-! The next entry of a body. -/

inductive EnumEntry where
  | option (parsed : OptionParseResult)
  | reserved (parsed : ReservedParseResult)
  | field (parsed : EnumFieldParseResult)
  deriving DecidableEq, Repr

inductive OneofEntry where
  | option (parsed : OptionParseResult)
  | field (parsed : OneofFieldParseResult)
  deriving DecidableEq, Repr

inductive MessageEntry where
  | enumeration (parsed : BodyParseResult)
  | message (parsed : BodyParseResult)
  | oneof (parsed : BodyParseResult)
  | option (parsed : OptionParseResult)
  | extensions (parsed : ExtensionsParseResult)
  | reserved (parsed : ReservedParseResult)
  | extend (parsed : ExtendParseResult)
  | group
  | field (parsed : FieldParseResult)
  deriving DecidableEq, Repr

inductive FileEntry where
  | syntaxDef (parsed : SyntaxParseResult)
  | edition (parsed : EditionParseResult)
  | package (parsed : PackageParseResult)
  | importDef (parsed : ImportParseResult)
  | option (parsed : OptionParseResult)
  | message (parsed : BodyParseResult)
  | enumeration (parsed : BodyParseResult)
  | service
  | extend (parsed : ExtendParseResult)
  deriving DecidableEq, Repr

def semicolonStep (_ : Unit) : EntryParser (Step Unit Unit) := do
  if ← checkAndShift ';' then
    skipSpacesUnchecked
    pure (.again ())
  else
    pure (.done ())

/--
The spaces and stray semicolons before an entry.
-/
def skipSemicolons : EntryParser Unit := do
  skipSpacesUnchecked
  loop semicolonStep ()

def enumNextEntry [Libc] : EntryParser EnumEntry :=
  restoring do
    skipSemicolons
    (EnumEntry.option <$> optionParse).orElse <|
      (EnumEntry.reserved <$> reservedParse).orElse <|
      EnumEntry.field <$> enumFieldParse

def oneofNextEntry [Libc] : EntryParser OneofEntry :=
  restoring do
    skipSemicolons
    (OneofEntry.option <$> optionParse).orElse <|
      OneofEntry.field <$> oneofFieldParse

def messageNextEntry [Libc] : EntryParser MessageEntry :=
  restoring do
    skipSemicolons
    (MessageEntry.enumeration <$> enumParse).orElse <|
      (MessageEntry.message <$> messageParse).orElse <|
      (MessageEntry.oneof <$> oneofParse).orElse <|
      (MessageEntry.option <$> optionParse).orElse <|
      (MessageEntry.extensions <$> extensionsParse).orElse <|
      (MessageEntry.reserved <$> reservedParse).orElse <|
      (MessageEntry.extend <$> extendParse).orElse <|
      ((fun _ => MessageEntry.group) <$> groupParse).orElse <|
      (MessageEntry.field <$> fieldParse).orElse <|
      fail .invalidCharacter

def fileNextEntry [Libc] : EntryParser FileEntry :=
  restoring do
    skipSemicolons
    (FileEntry.syntaxDef <$> syntaxParse).orElse <|
      (FileEntry.edition <$> editionParse).orElse <|
      (FileEntry.package <$> packageParse).orElse <|
      (FileEntry.importDef <$> importParse).orElse <|
      (FileEntry.option <$> optionParse).orElse <|
      (FileEntry.message <$> messageParse).orElse <|
      (FileEntry.enumeration <$> enumParse).orElse <|
      ((fun _ => FileEntry.service) <$> serviceParse).orElse <|
      (FileEntry.extend <$> extendParse).orElse <|
      fail .unexpectedToken

end Gremlin
