/-!
This module contains the error codes that the parser shares with the passes over the descriptors.
-/

namespace Gremlin

/--
`enum gremlinp_parsing_error` without `GREMLINP_OK`.
-/
inductive ParsingError where
  | invalidSyntaxDef
  | unexpectedEof
  | spaceRequired
  | invalidSyntaxVersion
  | unexpectedToken
  | packageAlreadyDefined
  | editionAlreadyDefined
  | invalidStringLiteral
  | invalidUnicodeEscape
  | invalidEscape
  | semicolonExpected
  | assignmentExpected
  | bracketExpected
  | identifierShouldStartWithLetter
  | invalidOptionName
  | invalidFieldName
  | optionValueRequired
  | invalidIntegerLiteral
  | invalidBooleanLiteral
  | invalidConst
  | invalidFloat
  | invalidFieldValue
  | invalidMapKeyType
  | invalidMapValueType
  | invalidEnumDef
  | invalidOneofElement
  | invalidExtensionsRange
  | extendSourceNotFound
  | typeNotFound
  | importTargetNotFound
  | circularImport
  | importPathInvalid
  | overflow
  | invalidCharacter
  | outOfMemory
  | nullPointer
  | bufferOverflow
  deriving DecidableEq, Repr

end Gremlin
