import Gremlin.Codec.Ieee
import Gremlin.Codegen.Claims
import Gremlin.Text.Printf

/-!
This module contains the conversion of default constants and the C literals that are emitted for them.
-/

namespace Gremlin

open Codec Text

/-! `const_convert.c`. -/

def constToInt32 : Const → Except ParsingError Int
  | .int n => if n < -(2 ^ 31) ∨ 2 ^ 31 - 1 < n then .error .overflow else .ok n
  | .uint n => if 2 ^ 31 - 1 < n then .error .overflow else .ok n
  | _ => .error .invalidFieldValue

def constToInt64 : Const → Except ParsingError Int
  | .int n => .ok n
  | .uint n => if 2 ^ 63 - 1 < n then .error .overflow else .ok n
  | _ => .error .invalidFieldValue

def constToUint32 : Const → Except ParsingError Nat
  | .uint n => if 2 ^ 32 - 1 < n then .error .overflow else .ok n
  | .int n => if n < 0 ∨ 2 ^ 32 - 1 < n then .error .overflow else .ok n.toNat
  | _ => .error .invalidFieldValue

def constToUint64 : Const → Except ParsingError Nat
  | .uint n => .ok n
  | .int n => if n < 0 then .error .overflow else .ok n.toNat
  | _ => .error .invalidFieldValue

/--
The number that a constant is written as.
-/
def Const.number : Const → Option Extended
  | .float v => some (exactValue v)
  | .int n => some (.finite n)
  | .uint n => some (.finite n)
  | _ => none

/--
The cast of a constant to a real type.
-/
def constToReal (format : BinaryFormat) (c : Const) : Except ParsingError Extended :=
  match c.number with
  | some x => .ok (format.convert x)
  | none => .error .invalidFieldValue

def constToFloat : Const → Except ParsingError Extended :=
  constToReal .binary32

def constToDouble : Const → Except ParsingError Extended :=
  constToReal .binary64

theorem constToDouble_float (v : BitVec 64) : constToDouble (.float v) = .ok (exactValue v) := by
  unfold constToDouble constToReal Const.number
  dsimp only
  rw [convert_exactValue]

def constToBool : Const → Except ParsingError Bool
  | .identifier span =>
    if span = "true".toList then .ok true
    else if span = "false".toList then .ok false
    else .error .invalidFieldValue
  | _ => .error .invalidFieldValue

def constToEnum (c : Const) (target : EnumNode) : Except ParsingError Int :=
  match c with
  | .int _ | .uint _ => constToInt32 c
  | .identifier span =>
    match target.values.find? fun v => v.name = span with
    | some v => .ok v.index
    | none => .error .invalidFieldValue
  | _ => .error .invalidFieldValue

/--
The copy of a literal: escapes stay as they are, and a question mark that is not one is escaped.
-/
def escapeQuestions : Span → Span
  | '\\' :: c :: rest => '\\' :: c :: escapeQuestions rest
  | '?' :: rest => '\\' :: '?' :: escapeQuestions rest
  | c :: rest => c :: escapeQuestions rest
  | [] => []

def constToBytes : Const → Except ParsingError Span
  | .string span => .ok (escapeQuestions span)
  | _ => .error .invalidFieldValue

/-! Scalars. -/

/--
The column `proto_name` of the table `SCALARS`, in its order.
-/
def scalars : List (Span × ScalarKind) :=
  [("int32".toList, .int32), ("int64".toList, .int64), ("uint32".toList, .uint32),
    ("uint64".toList, .uint64), ("sint32".toList, .sint32), ("sint64".toList, .sint64),
    ("fixed32".toList, .fixed32), ("fixed64".toList, .fixed64), ("sfixed32".toList, .sfixed32),
    ("sfixed64".toList, .sfixed64), ("double".toList, .double), ("float".toList, .float),
    ("bool".toList, .bool)]

def scalarLookup (name : Span) : Option ScalarKind :=
  scalars.lookup name

def defaultCheckRhs : ScalarKind → Span
  | .double => "0.0".toList
  | .float => "0.0f".toList
  | .bool => "false".toList
  | _ => "0".toList

def floatPrintoutIsInteger (s : Span) : Bool :=
  s.all fun c => ¬ c ∈ ['.', 'e', 'E', 'n', 'N']

/--
`%.<precision>g`.
-/
def printGeneral (precision : Nat) : Extended → Span
  | .nan => "nan".toList
  | .infinity negative => (if negative then "-inf" else "inf").toList
  | .finite q => Printf.general precision q

/--
`3.4e38f`, the binary32 that is nearest to it.
-/
def floatCutoff : ℚ :=
  0xFFC99E * 2 ^ 104

-- The `double` that is nearest to 3.4e38 is above the cutoff and becomes the cutoff.
example : constToFloat (.float 0x47EFF933C78CDFAD) = .ok (.finite floatCutoff) := by decide +kernel

/--
`1e308`, the binary64 that is nearest to it.
-/
def doubleCutoff : ℚ :=
  0x11CCF385EBC8A0 * 2 ^ 971

/--
What was printed into a buffer of `size` characters, unless it is nothing or does not fit.
-/
def printed (size : Nat) (buf : Span) : Option Span :=
  if buf = [] ∨ size ≤ buf.length then none else some buf

/--
The literal of a finite number with a point or an exponent.
-/
def withPoint (buf : Span) : Span :=
  if buf ≠ [] ∧ floatPrintoutIsInteger buf ∧ buf.length + 2 < 64 then buf ++ ".0".toList else buf

def scalarResolveDefault (fld : FieldNode) (kind : ScalarKind) : Option Span :=
  match fld.default with
  | none => some (defaultCheckRhs kind)
  | some c =>
    match kind with
    | .int32 | .sint32 | .sfixed32 =>
      match constToInt32 c with
      | .error _ => none
      | .ok n =>
        if n = -(2 ^ 31) then some "INT32_MIN".toList else printed 64 (Printf.signed n)
    | .int64 | .sint64 | .sfixed64 =>
      match constToInt64 c with
      | .error _ => none
      | .ok n =>
        if n = -(2 ^ 63) then some "INT64_MIN".toList
        else printed 64 (Printf.signed n ++ "LL".toList)
    | .uint32 | .fixed32 =>
      match constToUint32 c with
      | .error _ => none
      | .ok n => printed 64 (Printf.unsigned n ++ "u".toList)
    | .uint64 | .fixed64 =>
      match constToUint64 c with
      | .error _ => none
      | .ok n => printed 64 (Printf.unsigned n ++ "ULL".toList)
    | .float =>
      match constToFloat c with
      | .error _ => none
      | .ok x =>
        if x = .nan then some "(float)NAN".toList
        else if x.above floatCutoff then some "(float)INFINITY".toList
        else if x.below (-floatCutoff) then some "(float)(-INFINITY)".toList
        else
          let buf := withPoint (printGeneral 9 x)
          printed 64 (if buf.length + 1 < 64 then buf ++ ['f'] else buf)
    | .double =>
      match constToDouble c with
      | .error _ => none
      | .ok x =>
        if x = .nan then some "(double)NAN".toList
        else if x.above doubleCutoff then some "(double)INFINITY".toList
        else if x.below (-doubleCutoff) then some "(double)(-INFINITY)".toList
        else printed 64 (withPoint (printGeneral 17 x))
    | .bool =>
      match constToBool c with
      | .error _ => none
      | .ok value => some (if value then "true" else "false").toList

/-! The other families. -/

def enumRefResolveDefault (fld : FieldNode) (target : EnumNode) : Option Span :=
  match fld.default with
  | none => some "0".toList
  | some c =>
    match constToEnum c target with
    | .error _ => none
    | .ok n => printed 32 (Printf.signed n)

/--
A compound literal whose length the C compiler finds. Its buffer has room for it.
-/
def bytesResolveDefault (fld : FieldNode) : Option Span :=
  match fld.default with
  | none => some "(struct gremlin_bytes)\x7b NULL, 0 \x7d".toList
  | some c =>
    match constToBytes c with
    | .error _ => none
    | .ok escaped =>
      some ("(struct gremlin_bytes)\x7b .data = (const uint8_t *)\"".toList ++ escaped
        ++ "\", .len = sizeof(\"".toList ++ escaped ++ "\") - 1 \x7d".toList)

def Pool.dispatchResolveDefault (p : Pool) (fld : FieldNode) : Option Span :=
  match fld.shape with
  | .map .. | .repeatedBytes | .repeatedMsg _ | .repeatedScalar _ => some "0".toList
  | .msgRef _ => some "NULL".toList
  | .enumRef target =>
    (p.heap target.file).enums[target.index]?.bind fun en => enumRefResolveDefault fld en
  | .bytes => bytesResolveDefault fld
  | .scalar =>
    match fld.type with
    | .builtin name => (scalarLookup name).bind fun kind => scalarResolveDefault fld kind
    | _ => none

/--
The condition under which the size and the bytes of a field are emitted, as C spells it.
-/
inductive Guard where
  /-- `m->f != literal` -/
  | differs (literal : Span)
  /-- `m->f.len > 0` -/
  | nonEmpty
  /-- `m->f.len != sizeof("…") - 1 || memcmp(m->f.data, "…", sizeof("…") - 1) != 0` -/
  | memcmp (escaped : Span)
  /-- `m->f != NULL`, or the loop over an array -/
  | present
  deriving DecidableEq, Repr

/--
`emit_presence_guard`.
-/
def bytesPresenceGuard (fld : FieldNode) : Guard :=
  match fld.default with
  | none => .nonEmpty
  | some c =>
    match constToBytes c with
    | .error _ => .nonEmpty
    | .ok escaped => if 0 < escaped.length then .memcmp escaped else .nonEmpty

/--
The guard in the size and in the encode body of a field, behind `default`, the literal that was
resolved for it.
-/
def dispatchGuard (fld : FieldNode) (default : Span) : Guard :=
  match fld.shape with
  | .map .. | .repeatedBytes | .repeatedMsg _ | .repeatedScalar _ | .msgRef _ => .present
  | .enumRef _ => .differs default
  | .bytes => bytesPresenceGuard fld
  | .scalar => .differs default

end Gremlin
