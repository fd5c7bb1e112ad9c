import Protoscript.Proofs.Bounds.Scan
import Protoscript.Syntax.Grammar

/-! # Reading definitions by index

The grammar once more, over a token list and an index into it.  A reading trips over a read or a
move outside the list, over a loop that turns without having moved on, over an expression or a
statement that has taken nothing, and where it runs out of fuel.  The loop over the definitions
trips where it would have to be moved on by force. -/

set_option autoImplicit false

namespace Protoscript

/-- Why a reading by index stops. -/
inductive TapeStop
  | refused (diagnostic : Diagnostic)
  | tripped (trip : Trip)

/-- A step that reads a token list at an index. -/
abbrev Tape := EStateM TapeStop Nat

namespace Tape

variable (tokens : List Token)

/-! ## Single tokens -/

def tokenAt (i : Nat) : Tape Token :=
  match tokens[i]? with
  | some t => return t
  | none => throw (.tripped .outside)

def moveTo (i : Nat) : Tape Unit :=
  if i < tokens.length then set i else throw (.tripped .outside)

def peek : Tape Token := do tokenAt tokens (← get)

def kind : Tape TokenKind := return (← peek tokens).kind

def position : Tape Position := return (← peek tokens).position

/-- Takes the token at the index.  The index stays where it is if that is the last one. -/
def advance : Tape Token := do
  let i ← get
  let t ← tokenAt tokens i
  if i + 1 < tokens.length then
    moveTo tokens (i + 1)
  return t

def refuse {α : Type} (cause : Diagnostic.Cause) (position : Position) : Tape α :=
  throw (.refused ⟨cause, position⟩)

def accept (wanted : TokenKind) : Tape Bool := do
  if (← kind tokens) = wanted then
    let _ ← advance tokens
    return true
  else
    return false

def expect (wanted : TokenKind) : Tape Unit := do
  let found ← kind tokens
  if found = wanted then
    let _ ← advance tokens
  else
    refuse (.expectedToken wanted found) (← position tokens)

def identifier : Tape String := do
  let t ← advance tokens
  match t.kind with
  | .ident name => return name
  | _ => refuse .expectedIdentifier t.position

/-! ## The look-ahead for an assignment -/

def dottedAt (i : Nat) : Tape Bool := do
  if i + 1 < tokens.length then
    if (← tokenAt tokens i).kind = .sign .dot then
      return (← tokenAt tokens (i + 1)).kind.isIdent
  return false

def assignsAt (i : Nat) : Tape Bool := do
  if i < tokens.length then
    return (← tokenAt tokens i).kind = .sign .assign
  else
    return false

/-- Whether `.name` any number of times and then `=` stand at the index `i`. -/
def pathAssigned : Nat → Nat → Tape Bool
  | 0, _ => throw (.tripped .endless)
  | turns + 1, i => do
    if ← dottedAt tokens i then
      pathAssigned turns (i + 2)
    else
      assignsAt tokens i

def startsAssignment : Tape Bool := do
  let i ← get
  if (← tokenAt tokens i).kind.isIdent then
    pathAssigned tokens tokens.length (i + 1)
  else
    return false

/-! ## Progress -/

/-- Trips unless the index has moved on from `start`. -/
def onward (start : Nat) : Tape Unit := do
  if (← get) ≤ start then
    throw (.tripped .stalled)

/-- Trips where `x` comes to a result without having taken a token. -/
def consuming {α : Type} (x : Tape α) : Tape α := do
  let start ← get
  let a ← x
  onward start
  return a

/-! ## The grammar -/

def params : Nat → Tape (List Param)
  | 0 => throw (.tripped .endless)
  | fuel + 1 => do
    let start ← get
    if Reader.ends .rightParen (← kind tokens) then
      return []
    let place ← position tokens
    let byRef ← accept tokens (.keyword .ref)
    let name ← identifier tokens
    if ← accept tokens (.sign .comma) then
      onward start
      return ⟨name, byRef, place⟩ :: (← params fuel)
    else
      onward start
      return [⟨name, byRef, place⟩]

mutual

def expr : Nat → Tape Expr
  | 0 => throw (.tripped .endless)
  | fuel + 1 => consuming (tier fuel 5)

def tier : Nat → Nat → Tape Expr
  | 0, _ => throw (.tripped .endless)
  | fuel + 1, 0 => consuming (unary fuel)
  | fuel + 1, level + 1 => consuming do
    let left ← tier fuel level
    chain fuel level left

def chain : Nat → Nat → Expr → Tape Expr
  | 0, _, _ => throw (.tripped .endless)
  | fuel + 1, level, left => do
    let start ← get
    match Reader.binaryOp? (level + 1) (← kind tokens) with
    | none => return left
    | some op =>
      let _ ← advance tokens
      let right ← tier fuel level
      onward start
      chain fuel level (.binary op left right left.position)

def unary : Nat → Tape Expr
  | 0 => throw (.tripped .endless)
  | fuel + 1 => consuming do
    let place ← position tokens
    match Reader.unaryOp? (← kind tokens) with
    | some op =>
      let _ ← advance tokens
      let operand ← unary fuel
      return .unary op operand place
    | none =>
      let object ← primary fuel
      members fuel object

def members : Nat → Expr → Tape Expr
  | 0, _ => throw (.tripped .endless)
  | fuel + 1, object => do
    let start ← get
    if ← accept tokens (.sign .dot) then
      let name ← identifier tokens
      if ← accept tokens (.sign .leftParen) then
        let arguments ← args fuel
        expect tokens (.sign .rightParen)
        onward start
        members fuel (.method object name arguments object.position)
      else
        onward start
        members fuel (.member object name object.position)
    else
      return object

def primary : Nat → Tape Expr
  | 0 => throw (.tripped .endless)
  | fuel + 1 => consuming do
    let place ← position tokens
    match ← kind tokens with
    | .int value => let _ ← advance tokens; return .int value place
    | .bool value => let _ ← advance tokens; return .bool value place
    | .str text => let _ ← advance tokens; return .str text place
    | .nil => let _ ← advance tokens; return .nil place
    | .sign .atSign => let _ ← advance tokens; return .object place
    | .sign .leftParen =>
      let _ ← advance tokens
      let inner ← expr fuel
      expect tokens (.sign .rightParen)
      return inner
    | .keyword .lambda =>
      expect tokens (.keyword .lambda)
      let definition ← function fuel "lambda" place
      return .lambda definition
    | .ident _ =>
      let name ← identifier tokens
      if ← accept tokens (.sign .leftParen) then
        let arguments ← args fuel
        expect tokens (.sign .rightParen)
        return .call name arguments place
      else
        return .var name place
    | found => refuse (.expectedExpression found) place

def args : Nat → Tape (List Expr)
  | 0 => throw (.tripped .endless)
  | fuel + 1 => do
    let start ← get
    if Reader.ends .rightParen (← kind tokens) then
      return []
    let arg ← expr fuel
    if ← accept tokens (.sign .comma) then
      onward start
      return arg :: (← args fuel)
    else
      onward start
      return [arg]

def function : Nat → String → Position → Tape Definition
  | 0, _, _ => throw (.tripped .endless)
  | fuel + 1, name, place => consuming do
    expect tokens (.sign .leftParen)
    let parameters ← params tokens fuel
    expect tokens (.sign .rightParen)
    let body ← block fuel
    return ⟨name, parameters, body, place⟩

def block : Nat → Tape (List Stmt)
  | 0 => throw (.tripped .endless)
  | fuel + 1 => consuming do
    expect tokens (.sign .leftBrace)
    let body ← stmts fuel
    expect tokens (.sign .rightBrace)
    return body

def stmts : Nat → Tape (List Stmt)
  | 0 => throw (.tripped .endless)
  | fuel + 1 => do
    let start ← get
    if Reader.ends .rightBrace (← kind tokens) then
      return []
    let first ← stmt fuel
    onward start
    return first :: (← stmts fuel)

def stmt : Nat → Tape Stmt
  | 0 => throw (.tripped .endless)
  | fuel + 1 => consuming do
    match ← kind tokens with
    | .keyword .ifWord => branch fuel
    | .keyword .whileWord => loop fuel
    | .keyword .returnWord => ret fuel
    | _ =>
      if ← startsAssignment tokens then
        assignment fuel
      else
        callStmt fuel

def branch : Nat → Tape Stmt
  | 0 => throw (.tripped .endless)
  | fuel + 1 => consuming do
    let place ← position tokens
    expect tokens (.keyword .ifWord)
    expect tokens (.sign .leftParen)
    let condition ← expr fuel
    expect tokens (.sign .rightParen)
    let yes ← block fuel
    if ← accept tokens (.keyword .elseWord) then
      let no ← block fuel
      return .branch condition yes (some no) place
    else
      return .branch condition yes none place

def loop : Nat → Tape Stmt
  | 0 => throw (.tripped .endless)
  | fuel + 1 => consuming do
    let place ← position tokens
    expect tokens (.keyword .whileWord)
    expect tokens (.sign .leftParen)
    let condition ← expr fuel
    expect tokens (.sign .rightParen)
    let body ← block fuel
    return .loop condition body place

def ret : Nat → Tape Stmt
  | 0 => throw (.tripped .endless)
  | fuel + 1 => consuming do
    let place ← position tokens
    expect tokens (.keyword .returnWord)
    if ← accept tokens (.sign .semicolon) then
      return .ret none place
    else
      let value ← expr fuel
      expect tokens (.sign .semicolon)
      return .ret (some value) place

def assignment : Nat → Tape Stmt
  | 0 => throw (.tripped .endless)
  | fuel + 1 => consuming do
    let place ← position tokens
    let root ← identifier tokens
    let fields ← path fuel
    expect tokens (.sign .assign)
    let value ← expr fuel
    expect tokens (.sign .semicolon)
    return .assign (root :: fields) value place

def path : Nat → Tape (List String)
  | 0 => throw (.tripped .endless)
  | fuel + 1 => do
    let start ← get
    if ← accept tokens (.sign .dot) then
      let name ← identifier tokens
      onward start
      return name :: (← path fuel)
    else
      return []

def callStmt : Nat → Tape Stmt
  | 0 => throw (.tripped .endless)
  | fuel + 1 => consuming do
    let place ← position tokens
    let value ← expr fuel
    if value.isCall then
      expect tokens (.sign .semicolon)
      return .call value
    else
      refuse .expectedStatement place

end

def definition (fuel : Nat) : Tape Definition := do
  let place ← position tokens
  expect tokens (.keyword .func)
  let name ← identifier tokens
  function tokens fuel name place

/-! ## Whole lists of tokens -/

/-- The error that `x` stops for, as a result. -/
def attempt {α : Type} (x : Tape α) : Tape (Except Diagnostic α) := fun i =>
  match x i with
  | .ok a j => .ok (.ok a) j
  | .error (.refused d) j => .ok (.error d) j
  | .error (.tripped trip) j => .error (.tripped trip) j

/-- Moves to the next definition or end mark. -/
def recover : Nat → Tape Unit
  | 0 => throw (.tripped .endless)
  | turns + 1 => do
    let start ← get
    let found ← kind tokens
    if found = .eof ∨ found = .keyword .func then
      return
    let _ ← advance tokens
    onward start
    recover turns

/-- Reports the error and looks for the next definition. -/
def report (e : Diagnostic) : Tape (Except Diagnostic Definition) := do
  recover tokens tokens.length
  return .error e

/-- A turn of the loop over the definitions. -/
def turn (fuel : Nat) : Tape (Except Diagnostic Definition) := do
  let found ← kind tokens
  if found = .keyword .func then
    match ← attempt (definition tokens fuel) with
    | .ok d => return .ok d
    | .error e => report tokens e
  else
    report tokens ⟨.expectedDefinition found, ← position tokens⟩

/-- The errors and the definitions from the index on, up to an end mark. -/
def readAll (fuel : Nat) : Nat → Tape (List Diagnostic × List Definition)
  | 0 => throw (.tripped .endless)
  | turns + 1 => do
    if (← kind tokens) = .eof then
      return ([], [])
    let start ← get
    let found ← turn tokens fuel
    onward start
    return together (found.map some) (← readAll fuel turns)

/-- The list with an end mark, if it lacks one. -/
def closed : List Token :=
  match tokens.getLast? with
  | none => [⟨.eof, .start⟩]
  | some last => if last.kind = .eof then tokens else tokens ++ [⟨.eof, last.position⟩]

/-- The definitions that a token list holds, or every error in it, unless the reading trips. -/
def definitions : Except Trip (Except (List Diagnostic) (List Definition)) :=
  match readAll (closed tokens) (Definition.readingFuel tokens.length) (tokens.length + 1) 0 with
  | .ok (errors, found) _ => .ok (if errors = [] then .ok found else .error errors)
  | .error (.refused d) _ => .ok (.error [d])
  | .error (.tripped trip) _ => .error trip

end Tape

end Protoscript
