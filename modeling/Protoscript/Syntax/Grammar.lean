import Protoscript.Syntax
import Protoscript.Syntax.Cursor

/-! # Reading definitions from tokens

A source is a list of definitions.  Operators of one tier group to the left, and a tier binds
more loosely than those below it; `-` and `!` bind more tightly than any of them, and member
access more tightly still.  A comma may follow the last parameter or argument.

Every function that may call itself counts down `fuel`; `Definition.ofTokens` supplies enough
for any list.  An error ends the definition it is in, and reading goes on at the next one. -/

set_option autoImplicit false

namespace Protoscript

namespace Reader

/-- The binary operator of a tier that a token spells. -/
def binaryOp? (tier : Nat) : TokenKind → Option BinaryOp
  | .sign s => (BinaryOp.ofSign? s).filter (·.tier = tier)
  | _ => none

def unaryOp? : TokenKind → Option UnaryOp
  | .sign .minus => some .neg
  | .sign .bang => some .not
  | _ => none

/-- Whether a token ends a list that `close` closes. -/
def ends (close : Sign) (found : TokenKind) : Bool := found = .sign close ∨ found = .eof

def params : Nat → Reader (List Param)
  | 0 => throw .exhausted
  | fuel + 1 => do
    if ends .rightParen (← kind) then
      return []
    let place ← position
    let byRef ← accept (.keyword .ref)
    let name ← identifier
    if ← accept (.sign .comma) then
      return ⟨name, byRef, place⟩ :: (← params fuel)
    else
      return [⟨name, byRef, place⟩]

mutual

def expr : Nat → Reader Expr
  | 0 => throw .exhausted
  | fuel + 1 => tier fuel 5

/-- An expression whose loosest operator outside parentheses is of the given tier or below. -/
def tier : Nat → Nat → Reader Expr
  | 0, _ => throw .exhausted
  | fuel + 1, 0 => unary fuel
  | fuel + 1, level + 1 => do
    let left ← tier fuel level
    chain fuel level left

/-- The operators of tier `level + 1` that follow `left`, with their right operands. -/
def chain : Nat → Nat → Expr → Reader Expr
  | 0, _, _ => throw .exhausted
  | fuel + 1, level, left => do
    match binaryOp? (level + 1) (← kind) with
    | none => return left
    | some op =>
      advance
      let right ← tier fuel level
      chain fuel level (.binary op left right left.position)

def unary : Nat → Reader Expr
  | 0 => throw .exhausted
  | fuel + 1 => do
    let place ← position
    match unaryOp? (← kind) with
    | some op =>
      advance
      let operand ← unary fuel
      return .unary op operand place
    | none =>
      let object ← primary fuel
      members fuel object

/-- The member accesses and method calls that follow `object`. -/
def members : Nat → Expr → Reader Expr
  | 0, _ => throw .exhausted
  | fuel + 1, object => do
    if ← accept (.sign .dot) then
      let name ← identifier
      if ← accept (.sign .leftParen) then
        let arguments ← args fuel
        expect (.sign .rightParen)
        members fuel (.method object name arguments object.position)
      else
        members fuel (.member object name object.position)
    else
      return object

def primary : Nat → Reader Expr
  | 0 => throw .exhausted
  | fuel + 1 => do
    let place ← position
    match ← kind with
    | .int value => advance; return .int value place
    | .bool value => advance; return .bool value place
    | .str text => advance; return .str text place
    | .nil => advance; return .nil place
    | .sign .atSign => advance; return .object place
    | .sign .leftParen =>
      advance
      let inner ← expr fuel
      expect (.sign .rightParen)
      return inner
    | .keyword .lambda =>
      advance
      let definition ← function fuel "lambda" place
      return .lambda definition
    | .ident name =>
      advance
      if ← accept (.sign .leftParen) then
        let arguments ← args fuel
        expect (.sign .rightParen)
        return .call name arguments place
      else
        return .var name place
    | found => refuse (.expectedExpression found) place

def args : Nat → Reader (List Expr)
  | 0 => throw .exhausted
  | fuel + 1 => do
    if ends .rightParen (← kind) then
      return []
    let arg ← expr fuel
    if ← accept (.sign .comma) then
      return arg :: (← args fuel)
    else
      return [arg]

/-- The parameters and the body of a definition that starts at `place`. -/
def function : Nat → String → Position → Reader Definition
  | 0, _, _ => throw .exhausted
  | fuel + 1, name, place => do
    expect (.sign .leftParen)
    let parameters ← params fuel
    expect (.sign .rightParen)
    let body ← block fuel
    return ⟨name, parameters, body, place⟩

def block : Nat → Reader (List Stmt)
  | 0 => throw .exhausted
  | fuel + 1 => do
    expect (.sign .leftBrace)
    let body ← stmts fuel
    expect (.sign .rightBrace)
    return body

def stmts : Nat → Reader (List Stmt)
  | 0 => throw .exhausted
  | fuel + 1 => do
    if ends .rightBrace (← kind) then
      return []
    let first ← stmt fuel
    return first :: (← stmts fuel)

def stmt : Nat → Reader Stmt
  | 0 => throw .exhausted
  | fuel + 1 => do
    match ← kind with
    | .keyword .ifWord => branch fuel
    | .keyword .whileWord => loop fuel
    | .keyword .returnWord => ret fuel
    | _ =>
      if (← get).startsAssignment then
        assignment fuel
      else
        callStmt fuel

def branch : Nat → Reader Stmt
  | 0 => throw .exhausted
  | fuel + 1 => do
    let place ← position
    advance
    expect (.sign .leftParen)
    let condition ← expr fuel
    expect (.sign .rightParen)
    let yes ← block fuel
    if ← accept (.keyword .elseWord) then
      let no ← block fuel
      return .branch condition yes (some no) place
    else
      return .branch condition yes none place

def loop : Nat → Reader Stmt
  | 0 => throw .exhausted
  | fuel + 1 => do
    let place ← position
    advance
    expect (.sign .leftParen)
    let condition ← expr fuel
    expect (.sign .rightParen)
    let body ← block fuel
    return .loop condition body place

def ret : Nat → Reader Stmt
  | 0 => throw .exhausted
  | fuel + 1 => do
    let place ← position
    advance
    if ← accept (.sign .semicolon) then
      return .ret none place
    else
      let value ← expr fuel
      expect (.sign .semicolon)
      return .ret (some value) place

def assignment : Nat → Reader Stmt
  | 0 => throw .exhausted
  | fuel + 1 => do
    let place ← position
    let root ← identifier
    let fields ← path fuel
    expect (.sign .assign)
    let value ← expr fuel
    expect (.sign .semicolon)
    return .assign (root :: fields) value place

/-- The names of a path after its root, each after a dot. -/
def path : Nat → Reader (List String)
  | 0 => throw .exhausted
  | fuel + 1 => do
    if ← accept (.sign .dot) then
      let name ← identifier
      return name :: (← path fuel)
    else
      return []

/-- An expression that stands alone has to be a call. -/
def callStmt : Nat → Reader Stmt
  | 0 => throw .exhausted
  | fuel + 1 => do
    let place ← position
    let value ← expr fuel
    if value.isCall then
      expect (.sign .semicolon)
      return .call value
    else
      refuse .expectedStatement place

end

def definition (fuel : Nat) : Reader Definition := do
  let place ← position
  expect (.keyword .func)
  let name ← identifier
  function fuel name place

end Reader

/-- What a stop is reported as.  Too little fuel would be reported as a missing expression. -/
def ReadStop.diagnostic (c : Cursor) : ReadStop → Diagnostic
  | refused d => d
  | exhausted => ⟨.expectedExpression c.kind, c.position⟩

namespace Definition

/-- The errors and the definitions from a cursor on, up to an end mark. -/
def readAll (fuel : Nat) : Nat → Cursor → List Diagnostic × List Definition
  | 0, _ => ([], [])
  | count + 1, c =>
    match c.kind with
    | .eof => ([], [])
    | .keyword .func =>
      match Reader.definition fuel c with
      | .ok d c =>
        let later := readAll fuel count c
        (later.1, d :: later.2)
      | .error stop c =>
        let later := readAll fuel count c.recover
        (stop.diagnostic c :: later.1, later.2)
    | found =>
      let later := readAll fuel count c.recover
      (⟨.expectedDefinition found, c.position⟩ :: later.1, later.2)

/-- Enough fuel for any reading of a list of `length` tokens. -/
def readingFuel (length : Nat) : Nat := 16 * (length + 1)

/-- The definitions that a token list holds, or every error in it. -/
def ofTokens (tokens : List Token) : Except (List Diagnostic) (List Definition) :=
  match readAll (readingFuel tokens.length) (tokens.length + 1) (Cursor.ofTokens tokens) with
  | ([], definitions) => .ok definitions
  | (errors, _) => .error errors

end Definition

end Protoscript
