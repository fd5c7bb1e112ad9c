import Protoscript.Diagnostic
import Protoscript.Numeral

/-! # Lexemes

A source is cut into lexemes: the longest first piece, then the longest first piece of what is
left, to the end.  Each is a gap (blanks or a comment), a token, or a fault.  `first_bytes`:
cutting off a lexeme loses no byte; `first_ne_nil`: every lexeme has one. -/

set_option autoImplicit false

namespace Protoscript

/-- What a lexeme stands for.  A fault is reported at the byte `offset` of its lexeme. -/
inductive Reading
  | gap
  | token (kind : TokenKind)
  | fault (cause : Diagnostic.Cause) (offset : Nat)

structure Lexeme where
  bytes : List UInt8
  reading : Reading

/-! ## Classes of bytes -/

def isBlankByte (b : UInt8) : Bool :=
  b == ' '.toUInt8 || b == '\t'.toUInt8 || b == '\r'.toUInt8 || b == '\n'.toUInt8

def isDigitByte (b : UInt8) : Bool := '0'.toUInt8 ≤ b && b ≤ '9'.toUInt8

/-- A letter of the basic alphabet or an underscore. -/
def isWordStart (b : UInt8) : Bool :=
  ('a'.toUInt8 ≤ b && b ≤ 'z'.toUInt8) || ('A'.toUInt8 ≤ b && b ≤ 'Z'.toUInt8) ||
    b == '_'.toUInt8

def isWordByte (b : UInt8) : Bool := isWordStart b || isDigitByte b

/-- The bytes of a sign. -/
def Sign.bytes (s : Sign) : List UInt8 := s.spelling.map Char.toUInt8

/-- The longest sign that the input begins with. -/
def Sign.heading? (input : List UInt8) : Option Sign :=
  Sign.all.find? fun s => s.bytes.isPrefixOf input

theorem Sign.bytes_ne_nil (s : Sign) : s.bytes ≠ [] := by cases s <;> decide

/-! ## Comments -/

/-- A block comment after its opening two bytes: up to the first closing pair, or everything. -/
def cutComment : List UInt8 → List UInt8 × List UInt8
  | [] => ([], [])
  | b :: rest =>
    if b = '*'.toUInt8 ∧ rest.head? = some '/'.toUInt8 then ([b, '/'.toUInt8], rest.tail)
    else
      let later := cutComment rest
      (b :: later.1, later.2)

theorem cutComment_append (input : List UInt8) :
    (cutComment input).1 ++ (cutComment input).2 = input := by
  induction input with
  | nil => rfl
  | cons b rest ih =>
    rw [cutComment]
    split
    · next closing =>
      obtain ⟨c, tail, rfl⟩ : ∃ c tail, rest = c :: tail := by
        cases rest with
        | nil => simp at closing
        | cons c tail => exact ⟨c, tail, rfl⟩
      obtain ⟨-, head⟩ := closing
      simp at head
      simp [head]
    · simpa using ih

/-! ## String literals -/

/-- A piece of a string literal: a byte that stands for itself, or a backslash and the byte
after it. -/
inductive Piece
  | plain (byte : UInt8)
  | escape (byte : UInt8)

namespace Piece

def bytes : Piece → List UInt8
  | plain b => [b]
  | escape b => ['\\'.toUInt8, b]

/-- The byte that a piece stands for; there are four escapes. -/
def decoded? : Piece → Option UInt8
  | plain b => some b
  | escape b =>
    if b = 'n'.toUInt8 then some '\n'.toUInt8
    else if b = 't'.toUInt8 then some '\t'.toUInt8
    else if b = '"'.toUInt8 then some '"'.toUInt8
    else if b = '\\'.toUInt8 then some '\\'.toUInt8
    else none

/-- The byte that tells one piece from another: of an escape, the one after the backslash. -/
def byte : Piece → UInt8
  | plain b | escape b => b

/-- The bytes that the pieces stand for, or the place and byte of the first unknown escape. -/
def decodeAll : List Piece → Except (Nat × UInt8) (List UInt8)
  | [] => .ok []
  | p :: ps =>
    match p.decoded? with
    | none => .error (1, p.byte)
    | some b =>
      match decodeAll ps with
      | .ok bs => .ok (b :: bs)
      | .error (offset, bad) => .error (p.bytes.length + offset, bad)

end Piece

/-- A string literal after its opening quote: its pieces, whether a closing quote ends it, and
what follows it. -/
structure Literal where
  pieces : List Piece
  closed : Bool
  rest : List UInt8

namespace Literal

def cons (p : Piece) (l : Literal) : Literal := { l with pieces := p :: l.pieces }

/-- An unescaped quote closes a literal; the end of the line or of the input leaves it open.
An escape takes the byte after the backslash whatever it is. -/
def cut : List UInt8 → Literal
  | [] => ⟨[], false, []⟩
  | b :: rest =>
    if b = '\n'.toUInt8 then ⟨[], false, b :: rest⟩
    else if b = '"'.toUInt8 then ⟨[], true, rest⟩
    else if b = '\\'.toUInt8 then
      match rest with
      | [] => ⟨[.plain b], false, []⟩
      | e :: rest => (cut rest).cons (.escape e)
    else (cut rest).cons (.plain b)

/-- The bytes of the literal after its opening quote. -/
def bytes (l : Literal) : List UInt8 :=
  l.pieces.flatMap Piece.bytes ++ if l.closed then ['"'.toUInt8] else []

@[simp] theorem cons_rest (p : Piece) (l : Literal) : (l.cons p).rest = l.rest := rfl

@[simp] theorem cons_bytes (p : Piece) (l : Literal) : (l.cons p).bytes = p.bytes ++ l.bytes :=
  List.append_assoc _ _ _

theorem bytes_append_rest (input : List UInt8) : (cut input).bytes ++ (cut input).rest = input := by
  fun_induction cut input with
  | case1 => rfl
  | case2 => rfl
  | case3 => rfl
  | case4 => rfl
  | case5 _ _ _ _ ih => simp [Piece.bytes, ih]
  | case6 _ _ _ _ _ ih => simp [Piece.bytes, ih]

/-- A closed literal with known escapes is a string token. -/
def reading (l : Literal) : Reading :=
  if l.closed then
    match Piece.decodeAll l.pieces with
    | .ok bytes => .token (.str ((Text.decode? bytes).getD "\uFFFD"))
    | .error (offset, bad) => .fault (.unknownEscape bad) (offset + 1)
  else .fault .unterminatedString 0

end Literal

/-! ## Cutting -/

namespace Lexeme

def asciiText (bytes : List UInt8) : String := String.ofList (bytes.map Text.charOf)

/-- A run of digits is an integer if it is in range. -/
def ofDigits (digits : List UInt8) : Reading :=
  match Numeral.upTo? Numeral.maxSigned (digits.map Text.charOf) with
  | some n => .token (.int (.ofNat n))
  | none => .fault (.intTooLarge (asciiText digits)) 0

/-- A byte that begins no token. -/
def ofStray (b : UInt8) : Reading :=
  if b = '&'.toUInt8 then .fault .bareAmpersand 0
  else if b = '|'.toUInt8 then .fault .bareBar 0
  else .fault (.strayByte b) 0

/-- The longest run of bytes in a class, and what follows it. -/
def run (inClass : UInt8 → Bool) (input : List UInt8) (reading : List UInt8 → Reading) :
    Lexeme × List UInt8 :=
  (⟨input.takeWhile inClass, reading (input.takeWhile inClass)⟩, input.dropWhile inClass)

/-- The first lexeme of the input `b :: rest`, and what follows it. -/
def first (b : UInt8) (rest : List UInt8) : Lexeme × List UInt8 :=
  if isBlankByte b then run isBlankByte (b :: rest) fun _ => .gap
  else if isDigitByte b then run isDigitByte (b :: rest) ofDigits
  else if isWordStart b then
    run isWordByte (b :: rest) fun word => .token (.ofWord (asciiText word))
  else if b = '"'.toUInt8 then
    let literal := Literal.cut rest
    (⟨b :: literal.bytes, literal.reading⟩, literal.rest)
  else if b = '/'.toUInt8 ∧ rest.head? = some '/'.toUInt8 then
    run (· != '\n'.toUInt8) (b :: rest) fun _ => .gap
  else if b = '/'.toUInt8 ∧ rest.head? = some '*'.toUInt8 then
    let body := cutComment rest.tail
    (⟨b :: '*'.toUInt8 :: body.1, .gap⟩, body.2)
  else match Sign.heading? (b :: rest) with
    | some sign => (⟨sign.bytes, .token (.sign sign)⟩, (b :: rest).drop sign.bytes.length)
    | none => (⟨[b], ofStray b⟩, rest)

theorem run_bytes (inClass : UInt8 → Bool) (input : List UInt8)
    (reading : List UInt8 → Reading) :
    (run inClass input reading).1.bytes ++ (run inClass input reading).2 = input :=
  List.takeWhile_append_dropWhile

theorem first_bytes (b : UInt8) (rest : List UInt8) :
    (first b rest).1.bytes ++ (first b rest).2 = b :: rest := by
  rw [first]
  split
  · exact run_bytes _ _ _
  split
  · exact run_bytes _ _ _
  split
  · exact run_bytes _ _ _
  split
  · simpa using Literal.bytes_append_rest rest
  split
  · exact run_bytes _ _ _
  split
  · next opening =>
    obtain ⟨-, head⟩ := opening
    cases rest with
    | nil => simp at head
    | cons c tail =>
      simp only [List.head?_cons, Option.some.injEq] at head
      simpa [head] using cutComment_append tail
  · split
    · next sign found =>
      have heads : sign.bytes <+: b :: rest := by
        simpa using List.find?_some found
      obtain ⟨tail, whole⟩ := heads
      simp [← whole]
    · rfl

theorem run_ne_nil {inClass : UInt8 → Bool} {b : UInt8} (h : inClass b = true)
    (rest : List UInt8) (reading : List UInt8 → Reading) :
    (run inClass (b :: rest) reading).1.bytes ≠ [] := by
  simp [run, h]

theorem first_ne_nil (b : UInt8) (rest : List UInt8) : (first b rest).1.bytes ≠ [] := by
  rw [first]
  split
  · next h => exact run_ne_nil h _ _
  split
  · next h => exact run_ne_nil h _ _
  split
  · next h => exact run_ne_nil (by simp [isWordByte, h]) _ _
  split
  · exact List.cons_ne_nil _ _
  split
  · next h => exact run_ne_nil (by rw [h.1]; decide) _ _
  split
  · exact List.cons_ne_nil _ _
  · split
    · exact Sign.bytes_ne_nil _
    · exact List.cons_ne_nil _ _

theorem first_rest_length_lt (b : UInt8) (rest : List UInt8) :
    (first b rest).2.length < (b :: rest).length := by
  have whole := congrArg List.length (first_bytes b rest)
  have nonempty := List.length_pos_iff.mpr (first_ne_nil b rest)
  simp only [List.length_append] at whole
  omega

/-- The lexemes of the input, in order. -/
def cutAll : List UInt8 → List Lexeme
  | [] => []
  | b :: rest => (first b rest).1 :: cutAll (first b rest).2
termination_by input => input.length
decreasing_by exact first_rest_length_lt b rest

/-- Each lexeme with the place of its first byte, the first of them at `p`. -/
def placed (p : Position) : List Lexeme → List (Position × Lexeme)
  | [] => []
  | l :: ls => (p, l) :: placed (p.after l.bytes) ls

end Lexeme

end Protoscript
