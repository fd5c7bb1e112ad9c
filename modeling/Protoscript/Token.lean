import Protoscript.Position
import Protoscript.Text.Quoted

/-! # Tokens

The words of the language: literals, identifiers, seven keywords, and the signs that serve as
operators and punctuation.  A token is a kind of word with the place where it starts. -/

set_option autoImplicit false

namespace Protoscript

inductive Keyword
  | func | lambda | ref | ifWord | elseWord | whileWord | returnWord
deriving DecidableEq, Repr

namespace Keyword

def all : List Keyword := [func, lambda, ref, ifWord, elseWord, whileWord, returnWord]

def spelling : Keyword → String
  | func => "func"
  | lambda => "lambda"
  | ref => "ref"
  | ifWord => "if"
  | elseWord => "else"
  | whileWord => "while"
  | returnWord => "return"

/-- The keyword's name in messages. -/
def label : Keyword → String
  | func => "Func"
  | lambda => "Lambda"
  | ref => "Ref"
  | ifWord => "If"
  | elseWord => "Else"
  | whileWord => "While"
  | returnWord => "Return"

end Keyword

/-- Operators and punctuation. -/
inductive Sign
  | plus | minus | star | slash
  | assign | equal | notEqual | bang
  | less | lessEqual | greater | greaterEqual
  | and | or | atSign
  | comma | semicolon | dot
  | leftParen | rightParen | leftBrace | rightBrace
deriving DecidableEq, Repr

namespace Sign

/-- All signs, those of two characters before those of one. -/
def all : List Sign :=
  [equal, notEqual, lessEqual, greaterEqual, and, or,
   plus, minus, star, slash, assign, bang, less, greater, atSign,
   comma, semicolon, dot, leftParen, rightParen, leftBrace, rightBrace]

def spelling : Sign → List Char
  | plus => ['+']
  | minus => ['-']
  | star => ['*']
  | slash => ['/']
  | assign => ['=']
  | equal => ['=', '=']
  | notEqual => ['!', '=']
  | bang => ['!']
  | less => ['<']
  | lessEqual => ['<', '=']
  | greater => ['>']
  | greaterEqual => ['>', '=']
  | and => ['&', '&']
  | or => ['|', '|']
  | atSign => ['@']
  | comma => [',']
  | semicolon => [';']
  | dot => ['.']
  | leftParen => ['(']
  | rightParen => [')']
  | leftBrace => ['\x7b']
  | rightBrace => ['\x7d']

/-- The sign's name in messages. -/
def label : Sign → String
  | plus => "Plus"
  | minus => "Minus"
  | star => "Star"
  | slash => "Slash"
  | assign => "Eq"
  | equal => "EqEq"
  | notEqual => "BangEq"
  | bang => "Bang"
  | less => "Lt"
  | lessEqual => "LtEq"
  | greater => "Gt"
  | greaterEqual => "GtEq"
  | and => "AndAnd"
  | or => "OrOr"
  | atSign => "At"
  | comma => "Comma"
  | semicolon => "Semicolon"
  | dot => "Dot"
  | leftParen => "LParen"
  | rightParen => "RParen"
  | leftBrace => "LBrace"
  | rightBrace => "RBrace"

theorem mem_all (s : Sign) : s ∈ all := by cases s <;> decide

end Sign

inductive TokenKind
  | int (value : Int64)
  | bool (value : Bool)
  | ident (name : String)
  | str (text : String)
  | nil
  | keyword (word : Keyword)
  | sign (sign : Sign)
  | eof
deriving DecidableEq

namespace TokenKind

/-- What a word stands for: `true`, `false` and `nil` are literals, the keywords are reserved,
any other word is an identifier. -/
def ofWord (word : String) : TokenKind :=
  if word = "true" then bool true
  else if word = "false" then bool false
  else if word = "nil" then nil
  else match Keyword.all.find? (·.spelling = word) with
    | some k => keyword k
    | none => ident word

/-- The kind as messages show it: its name, with the value of a literal or the text of an
identifier in parentheses. -/
def label : TokenKind → String
  | int n => s!"Int({n.toInt})"
  | bool b => s!"Bool({b})"
  | ident name => s!"Ident({Text.quoted name})"
  | str text => s!"StringLit({Text.quoted text})"
  | nil => "Nil"
  | keyword k => k.label
  | sign s => s.label
  | eof => "Eof"

def isLiteral : TokenKind → Bool
  | int _ | bool _ | str _ | nil => true
  | _ => false

def isArithmetic : TokenKind → Bool
  | sign .plus | sign .minus | sign .star | sign .slash => true
  | _ => false

def isComparison : TokenKind → Bool
  | sign .equal | sign .notEqual | sign .less | sign .lessEqual | sign .greater
  | sign .greaterEqual => true
  | _ => false

def isLogical : TokenKind → Bool
  | sign .and | sign .or | sign .bang => true
  | _ => false

def isKeyword : TokenKind → Bool
  | keyword _ => true
  | _ => false

def isIdent : TokenKind → Bool
  | ident _ => true
  | _ => false

end TokenKind

structure Token where
  kind : TokenKind
  position : Position
deriving DecidableEq

end Protoscript
