import Protoscript.Token.Stream

/-! # Scanning by index

The tokens of a source once more, read through an index that moves on byte by byte.  A scan trips
over a read outside the source, over a call of `nextToken` that has not moved on, and over a loop
that turns more often than there are bytes. -/

set_option autoImplicit false

namespace Protoscript

/-- What a checked scan or reading stops for. -/
inductive Trip
  /-- A read at an index that the input does not have. -/
  | outside
  /-- A step that has to consume something and has not. -/
  | stalled
  /-- A loop or a recursion that goes on for longer than the input admits. -/
  | endless
deriving DecidableEq

/-- A step that comes to `a` goes on with it. -/
theorem bind_of_run {ε σ α β : Type} {x : EStateM ε σ α} {a : α} {s t : σ} (run : x s = .ok a t)
    (f : α → EStateM ε σ β) : (x >>= f) s = f a t := by
  change EStateM.bind x f s = _
  simp [EStateM.bind, run]

/-- What is found first, and then the errors and the findings that follow. -/
def together {α : Type} :
    Except Diagnostic (Option α) → List Diagnostic × List α → List Diagnostic × List α
  | .ok none, later => later
  | .ok (some a), later => (later.1, a :: later.2)
  | .error e, later => (e :: later.1, later.2)

structure Scanner where
  index : Nat
  place : Position

abbrev Scan := EStateM Trip Scanner

/-- What a lexeme comes to: an error, nothing, or a token. -/
abbrev Found := Except Diagnostic (Option Token)

/-- How a byte that opens a sign goes on: not at all, with `=` to another sign, or with itself to
the only sign there is. -/
inductive Opening
  | alone (sign : Sign)
  | extended (short long : Sign)
  | doubled (sign : Sign)

/-- The bytes that open a sign, but for the slash, which may open a comment. -/
def Opening.all : List (UInt8 × Opening) :=
  [('+'.toUInt8, alone .plus), ('-'.toUInt8, alone .minus), ('*'.toUInt8, alone .star),
   (','.toUInt8, alone .comma), (';'.toUInt8, alone .semicolon), ('.'.toUInt8, alone .dot),
   ('('.toUInt8, alone .leftParen), (')'.toUInt8, alone .rightParen),
   ('\x7b'.toUInt8, alone .leftBrace), ('\x7d'.toUInt8, alone .rightBrace),
   ('@'.toUInt8, alone .atSign), ('='.toUInt8, extended .assign .equal),
   ('!'.toUInt8, extended .bang .notEqual), ('<'.toUInt8, extended .less .lessEqual),
   ('>'.toUInt8, extended .greater .greaterEqual), ('&'.toUInt8, doubled .and),
   ('|'.toUInt8, doubled .or)]

namespace Scan

section

variable (source : List UInt8)

def byteAt (i : Nat) : Scan UInt8 :=
  match source[i]? with
  | some b => return b
  | none => throw .outside

def atEnd : Scan Bool := return source.length ≤ (← get).index

/-- Takes the byte at the index, unasked whether there is one. -/
def advance : Scan UInt8 := do
  let s ← get
  let b ← byteAt source s.index
  set (Scanner.mk (s.index + 1) (s.place.next b))
  return b

/-- The byte at the index, or 0 at the end. -/
def peek : Scan UInt8 := do
  if ← atEnd source then
    return 0
  else
    byteAt source (← get).index

/-- The byte behind the one at the index, or 0 if there is none. -/
def peekNext : Scan UInt8 := do
  let s ← get
  if source.length ≤ s.index + 1 then
    return 0
  else
    byteAt source (s.index + 1)

/-- Takes bytes as long as they are of the class. -/
def takeRun (inClass : UInt8 → Bool) : Nat → Scan (List UInt8)
  | 0 => throw .endless
  | turns + 1 => do
    if ← atEnd source then
      return []
    if inClass (← peek source) then
      let b ← advance source
      return b :: (← takeRun inClass turns)
    else
      return []

/-- Goes on to the end of a block comment, or to the end of the source. -/
def skipComment : Nat → Scan Unit
  | 0 => throw .endless
  | turns + 1 => do
    if ← atEnd source then
      return
    if (← peek source) = '*'.toUInt8 then
      if (← peekNext source) = '/'.toUInt8 then
        let _ ← advance source
        let _ ← advance source
        return
    let _ ← advance source
    skipComment turns

/-- The bytes of a string literal that was opened at `p`, after its opening quote.  The first
escape that is not known is the error; the literal is read to its end first. -/
def takeLiteral (p : Position) :
    Nat → List UInt8 → Option Diagnostic → Scan (Except Diagnostic (List UInt8))
  | 0, _, _ => throw .endless
  | turns + 1, bytes, error => do
    if ← atEnd source then
      return .error ⟨.unterminatedString, p⟩
    if (← peek source) = '\n'.toUInt8 then
      return .error ⟨.unterminatedString, p⟩
    let b ← advance source
    if b = '"'.toUInt8 then
      return (error.map .error).getD (.ok bytes)
    else if b = '\\'.toUInt8 then
      if ← atEnd source then
        takeLiteral p turns bytes error
      else
        let place := (← get).place
        let letter ← advance source
        match (Piece.escape letter).decoded? with
        | some byte => takeLiteral p turns (bytes ++ [byte]) error
        | none => takeLiteral p turns bytes (error.or (some ⟨.unknownEscape letter, place⟩))
    else
      takeLiteral p turns (bytes ++ [b]) error

/-- What a slash at `p` begins: a comment or the sign. -/
def slash (p : Position) : Scan Found := do
  if (← peek source) = '/'.toUInt8 then
    let _ ← takeRun source (· != '\n'.toUInt8) (source.length + 1)
    return .ok none
  else if (← peek source) = '*'.toUInt8 then
    let _ ← advance source
    skipComment source (source.length + 1)
    return .ok none
  else
    return .ok (some ⟨.sign .slash, p⟩)

/-- What another byte `b` at `p` begins that opens a sign. -/
def sign (b : UInt8) (p : Position) : Opening → Scan Found
  | .alone sign => return .ok (some ⟨.sign sign, p⟩)
  | .extended short long => do
    if (← peek source) = '='.toUInt8 then
      let _ ← advance source
      return .ok (some ⟨.sign long, p⟩)
    else
      return .ok (some ⟨.sign short, p⟩)
  | .doubled sign => do
    if (← peek source) = b then
      let _ ← advance source
      return .ok (some ⟨.sign sign, p⟩)
    else
      return .error ⟨if sign = .and then .bareAmpersand else .bareBar, p⟩

def literal (p : Position) : Scan Found := do
  match ← takeLiteral source p (source.length + 1) [] none with
  | .ok bytes => return .ok (some ⟨.str ((Text.decode? bytes).getD "\uFFFD"), p⟩)
  | .error e => return .error e

def integer (b : UInt8) (p : Position) : Scan Found := do
  let digits := b :: (← takeRun source isDigitByte (source.length + 1))
  match Numeral.upTo? Numeral.maxSigned (digits.map Text.charOf) with
  | some n => return .ok (some ⟨.int (.ofNat n), p⟩)
  | none => return .error ⟨.intTooLarge (Lexeme.asciiText digits), p⟩

def word (b : UInt8) (p : Position) : Scan Found := do
  let letters := b :: (← takeRun source isWordByte (source.length + 1))
  return .ok (some ⟨.ofWord (Lexeme.asciiText letters), p⟩)

/-- The token at the index, nothing for a comment, or the error that there is instead. -/
def nextToken : Scan Found := do
  let p := (← get).place
  let b ← advance source
  if b = '/'.toUInt8 then
    slash source p
  else match Opening.all.lookup b with
    | some opening => sign source b p opening
    | none =>
      if b = '"'.toUInt8 then
        literal source p
      else if isDigitByte b then
        integer source b p
      else if isWordStart b then
        word source b p
      else
        return .error ⟨.strayByte b, p⟩

/-- The errors and the tokens from the index on, the end mark last. -/
def scanAll : Nat → Scan (List Diagnostic × List Token)
  | 0 => throw .endless
  | turns + 1 => do
    let _ ← takeRun source isBlankByte (source.length + 1)
    if ← atEnd source then
      return ([], [⟨.eof, (← get).place⟩])
    let start := (← get).index
    let found ← nextToken source
    if (← get).index ≤ start then
      throw .stalled
    return together found (← scanAll turns)

/-- The tokens of a source, or every error in it, unless the scan trips. -/
def tokens : Except Trip (Except (List Diagnostic) (List Token)) :=
  match scanAll source (source.length + 1) ⟨0, .start⟩ with
  | .ok (errors, ts) _ => .ok (if errors = [] then .ok ts else .error errors)
  | .error trip _ => .error trip

end

end Scan

end Protoscript
