import Protoscript.Console

/-! # Standard input

A byte stream from which lines are read as they are asked for.  `lines`: what there is to read of
it, for a program that asks for no line after it was told that there is none. -/

set_option autoImplicit false

namespace Protoscript.StandardInput

/-- The text without the newlines and carriage returns at its end. -/
def trimEnd (text : String) : String :=
  .ofList (text.toList.reverse.dropWhile fun c => c = '\n' ∨ c = '\r').reverse

/-- The next line, and what is left of the stream.  There is none at the end of the stream, nor
where the next one is not well-formed text; that one is gone all the same. -/
def readLine : List UInt8 → Option String × List UInt8
  | [] => (none, [])
  | b :: rest =>
    let cut := Console.cutLine (b :: rest)
    ((Text.decode? cut.1).map trimEnd, cut.2)

/-- The lines that are read until there is none. -/
def lines : List UInt8 → List String
  | [] => []
  | b :: rest =>
    let read := readLine (b :: rest)
    match read.1 with
    | none => []
    | some line => line :: lines read.2
termination_by stream => stream.length
decreasing_by exact Console.cutLine_rest_length_lt b rest

theorem lines_eq (stream : List UInt8) :
    lines stream = match (readLine stream).1 with
      | none => []
      | some line => line :: lines (readLine stream).2 := by
  cases stream with
  | nil => rw [lines]; rfl
  | cons b rest => rw [lines]

end Protoscript.StandardInput
