/-! # Places in a source text

Lines and columns count from 1.  A column counts bytes, so a character of three bytes takes
three columns; a newline byte ends its line. -/

set_option autoImplicit false

namespace Protoscript

structure Position where
  line : Nat
  column : Nat
deriving DecidableEq, Repr

namespace Position

def start : Position := ⟨1, 1⟩

/-- The place after one byte that stands at `p`. -/
def next (p : Position) (byte : UInt8) : Position :=
  if byte = '\n'.toUInt8 then ⟨p.line + 1, 1⟩ else ⟨p.line, p.column + 1⟩

/-- The place after a run of bytes that starts at `p`. -/
def after (p : Position) (bytes : List UInt8) : Position := bytes.foldl next p

@[simp] theorem after_nil (p : Position) : p.after [] = p := rfl

@[simp] theorem after_cons (p : Position) (byte : UInt8) (bytes : List UInt8) :
    p.after (byte :: bytes) = (p.next byte).after bytes := rfl

theorem after_append (p : Position) (left right : List UInt8) :
    p.after (left ++ right) = (p.after left).after right :=
  List.foldl_append

end Position

end Protoscript
