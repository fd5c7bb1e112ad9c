import Protoscript.Token.Lexeme

/-! # The tokens of a source

The tokens among the lexemes with their places, closed by the end mark; or, if any lexeme is a
fault, all the faults. -/

set_option autoImplicit false

namespace Protoscript

namespace Lexeme

def token? : Position × Lexeme → Option Token
  | (p, ⟨_, .token kind⟩) => some ⟨kind, p⟩
  | _ => none

def diagnostic? : Position × Lexeme → Option Diagnostic
  | (p, ⟨bytes, .fault cause offset⟩) => some ⟨cause, p.after (bytes.take offset)⟩
  | _ => none

end Lexeme

namespace Token

/-- The tokens of a run of bytes, the end mark last, or every fault in it. -/
def ofBytes (bytes : List UInt8) : Except (List Diagnostic) (List Token) :=
  let lexemes := Lexeme.placed .start (Lexeme.cutAll bytes)
  match lexemes.filterMap Lexeme.diagnostic? with
  | [] => .ok (lexemes.filterMap Lexeme.token? ++ [⟨.eof, Position.start.after bytes⟩])
  | faults => .error faults

def ofSource (source : String) : Except (List Diagnostic) (List Token) :=
  ofBytes (Text.encode source)

end Token

end Protoscript
