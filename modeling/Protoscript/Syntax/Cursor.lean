import Protoscript.Diagnostic

/-! # A cursor on tokens

What is left of a token list, and the place of the mark that ends it.  The end mark is not in
the list: a cursor with nothing left stands on it, and cannot move on. -/

set_option autoImplicit false

namespace Protoscript

structure Cursor where
  rest : List Token
  ending : Position

namespace Cursor

/-- A list that lacks its end mark is taken to have one at the place of its last token. -/
def ofTokens (tokens : List Token) : Cursor :=
  match tokens.getLast? with
  | none => ⟨[], .start⟩
  | some last =>
    if last.kind = .eof then ⟨tokens.dropLast, last.position⟩ else ⟨tokens, last.position⟩

def kind (c : Cursor) : TokenKind :=
  match c.rest with
  | [] => .eof
  | t :: _ => t.kind

def position (c : Cursor) : Position :=
  match c.rest with
  | [] => c.ending
  | t :: _ => t.position

def advance (c : Cursor) : Cursor := { c with rest := c.rest.tail }

/-- Whether `.name` any number of times and then `=` come next. -/
def pathAssigned : List Token → Bool
  | ⟨.sign .dot, _⟩ :: ⟨.ident _, _⟩ :: rest => pathAssigned rest
  | ⟨.sign .assign, _⟩ :: _ => true
  | _ => false

/-- Whether an assignment starts here: a dotted path of names, then `=`. -/
def startsAssignment (c : Cursor) : Bool :=
  match c.rest with
  | ⟨.ident _, _⟩ :: rest => pathAssigned rest
  | _ => false

/-- Moves to the next definition or end mark. -/
def recover (c : Cursor) : Cursor :=
  { c with rest := c.rest.dropWhile fun t => t.kind ≠ .keyword .func ∧ t.kind ≠ .eof }

end Cursor

/-- Why a reading stops.  `exhausted` is the outcome of too little fuel. -/
inductive ReadStop
  | refused (diagnostic : Diagnostic)
  | exhausted

/-- A step that reads from a cursor; one that stops leaves the cursor where it stopped. -/
abbrev Reader := EStateM ReadStop Cursor

namespace Reader

def kind : Reader TokenKind := return (← get).kind

def position : Reader Position := return (← get).position

def advance : Reader Unit := modify Cursor.advance

def refuse {α : Type} (cause : Diagnostic.Cause) (position : Position) : Reader α :=
  throw (.refused ⟨cause, position⟩)

/-- Moves past a token of the wanted kind, if one is here. -/
def accept (wanted : TokenKind) : Reader Bool := do
  if (← kind) = wanted then
    advance
    return true
  else
    return false

def expect (wanted : TokenKind) : Reader Unit := do
  let found ← kind
  if found = wanted then
    advance
  else
    refuse (.expectedToken wanted found) (← position)

/-- Takes an identifier.  The token here is passed over even if it is another one. -/
def identifier : Reader String := do
  let found ← kind
  let place ← position
  advance
  match found with
  | .ident name => return name
  | _ => refuse .expectedIdentifier place

end Reader

end Protoscript
