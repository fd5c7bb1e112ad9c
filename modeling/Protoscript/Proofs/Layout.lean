import Mathlib.Data.List.Infix
import Protoscript.Proofs.Encoding
import Protoscript.Token.Stream

/-! # How tokens are laid out in a source

Which bytes spell a token, and how a source is made up of spelled tokens with blanks and comments
around them.  A spelled token ends where it could not have gone on.  Places are counted from the
start of the source: `Position.past_append` says that counting agrees with moving on byte by
byte. -/

set_option autoImplicit false

namespace Protoscript

/-! ## Places -/

/-- The place after the bytes `before` of a source.  Its line is one more than the newlines among
them, its column one more than the bytes since the last newline. -/
def Position.past (before : List UInt8) : Position :=
  ⟨1 + before.count '\n'.toUInt8, 1 + (before.reverse.takeWhile (· ≠ '\n'.toUInt8)).length⟩

theorem Position.past_append_singleton (before : List UInt8) (b : UInt8) :
    past (before ++ [b]) = (past before).next b := by
  by_cases newline : b = '\n'.toUInt8
  · simp [past, next, newline, Nat.add_assoc]
  · simp [past, next, newline]
    omega

theorem Position.past_append (before bytes : List UInt8) :
    past (before ++ bytes) = (past before).after bytes := by
  induction bytes generalizing before with
  | nil => simp
  | cons b bytes ih =>
    rw [after_cons, ← past_append_singleton, ← ih, List.append_assoc]
    rfl

/-! ## Spellings -/

/-- A letter of the basic alphabet or an underscore. -/
def isNameStart (c : Char) : Bool := c.isAlpha || c = '_'

/-- A letter, an underscore or a digit. -/
def isNameChar (c : Char) : Bool := isNameStart c || c.isDigit

/-- Whether a word begins with a letter or underscore and has only letters, underscores and
digits. -/
def isWord (word : String) : Bool :=
  match word.toList with
  | [] => false
  | c :: cs => isNameStart c && cs.all isNameChar

/-- The words that are not identifiers. -/
def reservedWords : List String := ["true", "false", "nil"] ++ Keyword.all.map Keyword.spelling

/-- A word that is free to be an identifier. -/
def IsName (word : String) : Prop := isWord word = true ∧ word ∉ reservedWords

/-- The letters of the escapes, each with the byte that the escape stands for. -/
def escapes : List (UInt8 × UInt8) :=
  [('n'.toUInt8, '\n'.toUInt8), ('t'.toUInt8, '\t'.toUInt8), ('"'.toUInt8, '"'.toUInt8),
   ('\\'.toUInt8, '\\'.toUInt8)]

/-- The inside of a string literal and the bytes it stands for.  A backslash begins an escape, and
a quote or newline does not stand there without one. -/
inductive Unescapes : List UInt8 → List UInt8 → Prop
  | nil : Unescapes [] []
  | plain {b : UInt8} {inside bytes : List UInt8} :
    b ≠ '"'.toUInt8 → b ≠ '\n'.toUInt8 → b ≠ '\\'.toUInt8 → Unescapes inside bytes →
      Unescapes (b :: inside) (b :: bytes)
  | escape {letter b : UInt8} {inside bytes : List UInt8} :
    (letter, b) ∈ escapes → Unescapes inside bytes →
      Unescapes ('\\'.toUInt8 :: letter :: inside) (b :: bytes)

/-- Bytes that spell a token of the given kind.  An integer may have leading zeros; the end mark
has no spelling. -/
def Spells : TokenKind → List UInt8 → Prop
  | .int value, bytes => bytes ≠ [] ∧ (∀ b ∈ bytes, isDigitByte b = true) ∧
    value.toInt = Numeral.value (bytes.map Text.charOf)
  | .bool true, bytes => bytes = Text.encode "true"
  | .bool false, bytes => bytes = Text.encode "false"
  | .nil, bytes => bytes = Text.encode "nil"
  | .ident name, bytes => IsName name ∧ bytes = Text.encode name
  | .keyword word, bytes => bytes = Text.encode word.spelling
  | .str text, bytes => ∃ inside, bytes = '"'.toUInt8 :: inside ++ ['"'.toUInt8] ∧
    Unescapes inside (Text.encode text)
  | .sign sign, bytes => bytes = sign.bytes
  | .eof, _ => False

/-- Whether a spelling of the kind would go on with the byte, or a slash open a comment with it. -/
def TokenKind.goesOn : TokenKind → UInt8 → Bool
  | .int _, b => isDigitByte b
  | .bool _, b | .nil, b | .ident _, b | .keyword _, b => isWordByte b
  | .sign .assign, b | .sign .bang, b | .sign .less, b | .sign .greater, b => b = '='.toUInt8
  | .sign .slash, b => b = '/'.toUInt8 ∨ b = '*'.toUInt8
  | _, _ => false

theorem TokenKind.goesOn_slash {b : UInt8} :
    (TokenKind.sign .slash).goesOn b = true ↔ b = '/'.toUInt8 ∨ b = '*'.toUInt8 :=
  decide_eq_true_iff

/-! ## Layout -/

/-- The bytes that open a comment to the end of the line, and those that open and close a block
comment. -/
def lineOpening : List UInt8 := ['/'.toUInt8, '/'.toUInt8]

@[inherit_doc lineOpening]
def blockOpening : List UInt8 := ['/'.toUInt8, '*'.toUInt8]

@[inherit_doc lineOpening]
def blockClosing : List UInt8 := ['*'.toUInt8, '/'.toUInt8]

/-- After the bytes `before` of a source, the bytes `rest` hold the tokens, the end mark last.
From left to right stand blanks, comments and spelled tokens.  A line comment goes on to a newline
or the end, a block comment to the first closing pair; one that has none is the very last thing. -/
inductive Layout : List UInt8 → List UInt8 → List Token → Prop
  | finish {before : List UInt8} : Layout before [] [⟨.eof, .past before⟩]
  | blank {before rest : List UInt8} {b : UInt8} {tokens : List Token} :
    isBlankByte b = true → Layout (before ++ [b]) rest tokens → Layout before (b :: rest) tokens
  | lineComment {before text rest : List UInt8} {tokens : List Token} :
    '\n'.toUInt8 ∉ text → (∀ b ∈ rest.head?, b = '\n'.toUInt8) →
      Layout (before ++ (lineOpening ++ text)) rest tokens →
        Layout before (lineOpening ++ text ++ rest) tokens
  | blockComment {before text rest : List UInt8} {tokens : List Token} :
    ¬ blockClosing <:+: text →
      Layout (before ++ (blockOpening ++ text ++ blockClosing)) rest tokens →
        Layout before (blockOpening ++ text ++ blockClosing ++ rest) tokens
  | openComment {before text : List UInt8} :
    ¬ blockClosing <:+: text →
      Layout before (blockOpening ++ text) [⟨.eof, .past (before ++ (blockOpening ++ text))⟩]
  | token {before lexeme rest : List UInt8} {kind : TokenKind} {tokens : List Token} :
    Spells kind lexeme → (∀ b ∈ rest.head?, kind.goesOn b = false) →
      Layout (before ++ lexeme) rest tokens →
        Layout before (lexeme ++ rest) (⟨kind, .past before⟩ :: tokens)

/-- The end mark stands last, at the end of the source, and nowhere else. -/
theorem Layout.exists_front {before rest : List UInt8} {tokens : List Token}
    (layout : Layout before rest tokens) :
    ∃ front, tokens = front ++ [⟨.eof, .past (before ++ rest)⟩] ∧ ∀ t ∈ front, t.kind ≠ .eof := by
  induction layout with
  | finish => exact ⟨[], by simp, nofun⟩
  | openComment _ => exact ⟨[], rfl, nofun⟩
  | blank _ _ ih => simpa using ih
  | lineComment _ _ _ ih => simpa using ih
  | blockComment _ _ ih => simpa using ih
  | @token before lexeme rest kind tokens spells _ _ ih =>
    obtain ⟨front, rfl, inner⟩ := ih
    refine ⟨⟨kind, .past before⟩ :: front, by simp, ?_⟩
    intro t member
    rcases List.mem_cons.mp member with rfl | member
    · rintro rfl
      exact spells
    · exact inner t member

/-- Every token but the end mark is spelled where it stands. -/
theorem Layout.exists_lexeme {before rest : List UInt8} {tokens : List Token} {t : Token}
    (layout : Layout before rest tokens) (member : t ∈ tokens) (inner : t.kind ≠ .eof) :
    ∃ front lexeme back, before ++ rest = front ++ lexeme ++ back ∧ t.position = .past front ∧
      Spells t.kind lexeme := by
  induction layout with
  | finish | openComment _ =>
    obtain rfl := List.mem_singleton.mp member
    exact absurd rfl inner
  | blank _ _ ih => simpa using ih member
  | lineComment _ _ _ ih => simpa using ih member
  | blockComment _ _ ih => simpa using ih member
  | @token before lexeme rest kind tokens spells _ _ ih =>
    rcases List.mem_cons.mp member with rfl | member
    · exact ⟨before, lexeme, rest, (List.append_assoc ..).symm, rfl, spells⟩
    · simpa only [List.append_assoc] using ih member

end Protoscript
