import Protoscript.Text.Unprintable

/-! # Quoted text

How a message shows a text: between double quotes, with five characters and the quote and the
backslash escaped, and each unprintable character as its code point in hexadecimal. -/

set_option autoImplicit false

namespace Protoscript.Text

/-- The code point in lower-case hexadecimal without leading zeros, between braces. -/
def codePoint (c : Char) : List Char :=
  ['\\', 'u', '\x7b'] ++ Nat.toDigits 16 c.toNat ++ ['\x7d']

def escape (c : Char) : List Char :=
  match c with
  | '\x00' => ['\\', '0']
  | '\t' => ['\\', 't']
  | '\n' => ['\\', 'n']
  | '\r' => ['\\', 'r']
  | '"' => ['\\', '"']
  | '\\' => ['\\', '\\']
  | c => if isUnprintable c then codePoint c else [c]

def quoted (s : String) : String :=
  String.ofList ('"' :: s.toList.flatMap escape ++ ['"'])

end Protoscript.Text
