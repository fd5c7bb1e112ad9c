import Protoscript.Text.Bytes
import Protoscript.Token

/-! # Diagnostics

What can be wrong with a source text before it runs.  A diagnostic is a cause with a place; its
code and its wording follow from the cause.  The codes that begin with `L` belong to the words,
those with `P` to the grammar, and `S003` to the set of definitions. -/

set_option autoImplicit false

namespace Protoscript

namespace Diagnostic

inductive Code
  | L001 | L002 | L003 | P001 | P002 | S003
deriving DecidableEq, Repr

def Code.text : Code → String
  | L001 => "L001"
  | L002 => "L002"
  | L003 => "L003"
  | P001 => "P001"
  | P002 => "P002"
  | S003 => "S003"

inductive Cause
  /-- One `&` alone. -/
  | bareAmpersand
  /-- One `|` alone. -/
  | bareBar
  /-- A byte that begins no token. -/
  | strayByte (byte : UInt8)
  /-- An integer literal above the largest 64-bit integer. -/
  | intTooLarge (digits : String)
  | unterminatedString
  | unknownEscape (byte : UInt8)
  | expectedDefinition (found : TokenKind)
  | expectedExpression (found : TokenKind)
  | expectedIdentifier
  | expectedStatement
  | expectedToken (wanted found : TokenKind)
  /-- A second definition of a name with the same number of parameters. -/
  | redefinition (name : String) (arity line : Nat)

namespace Cause

def code : Cause → Code
  | bareAmpersand | bareBar | strayByte _ | intTooLarge _ => .L001
  | unterminatedString => .L002
  | unknownEscape _ => .L003
  | expectedDefinition _ | expectedExpression _ | expectedIdentifier | expectedStatement => .P001
  | expectedToken _ _ => .P002
  | redefinition _ _ _ => .S003

def message : Cause → String
  | bareAmpersand => "expected `&&`, bare `&` is not valid"
  | bareBar => "expected `||`, bare `|` is not valid"
  | strayByte byte => s!"unexpected character `{Text.charOf byte}`"
  | intTooLarge digits => s!"integer literal `{digits}` is out of range"
  | unterminatedString => "unterminated string literal"
  | unknownEscape byte =>
    "unknown escape sequence `" ++ String.ofList ['\\', Text.charOf byte] ++ "`"
  | expectedDefinition found => s!"expected `func`, found {found.label}"
  | expectedExpression found => s!"expected expression, found {found.label}"
  | expectedIdentifier => "expected identifier"
  | expectedStatement => "expected a statement"
  | expectedToken wanted found => s!"expected {wanted.label}, found {found.label}"
  | redefinition name arity line =>
    s!"function `{name}` with {arity} parameter(s) already defined at line {line}"

end Cause

end Diagnostic

structure Diagnostic where
  cause : Diagnostic.Cause
  position : Position

namespace Diagnostic

def code (d : Diagnostic) : Code := d.cause.code

def message (d : Diagnostic) : String := d.cause.message

/-- The diagnostic on one line: code, place and message. -/
def display (d : Diagnostic) : String :=
  s!"[{d.code.text}] {d.position.line}:{d.position.column}: {d.message}"

/-- Several diagnostics, one on a line. -/
def displayAll (ds : List Diagnostic) : String :=
  String.intercalate "\n" (ds.map display)

end Diagnostic

end Protoscript
