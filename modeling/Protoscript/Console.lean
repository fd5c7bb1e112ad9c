import Protoscript.Text.Bytes

/-! # The console and its log

A program reads lines that wait for it and writes texts.  The log keeps both, in order, together
with the calls and statements of the run; the output is what it holds of writing. -/

set_option autoImplicit false

namespace Protoscript

inductive Event
  /-- A run begins, of a program with so many functions. -/
  | started (functions : Nat)
  | called (name : String) (arity depth : Nat) (closure : Bool)
  | executed (line : Nat)
  | printed (text : String)
  /-- A line was asked for; none was left if it is `none`. -/
  | asked (line : Option String)
deriving DecidableEq

/-- The text that the event wrote. -/
def Event.printed? : Event → Option String
  | printed text => some text
  | _ => none

structure Console where
  /-- The lines not yet read. -/
  inputs : List String
  /-- What happened, the latest first. -/
  latest : List Event

namespace Console

def ofInputs (inputs : List String) : Console := ⟨inputs, []⟩

def log (c : Console) : List Event := c.latest.reverse

def output (c : Console) : List String := c.log.filterMap Event.printed?

def record (c : Console) (e : Event) : Console := { c with latest := e :: c.latest }

@[simp] theorem log_ofInputs (inputs : List String) : (ofInputs inputs).log = [] := rfl

@[simp] theorem log_record (c : Console) (e : Event) : (c.record e).log = c.log ++ [e] := by
  simp [log, record]

def print (c : Console) (text : String) : Console := c.record (.printed text)

/-- The next line, if there is one, and the console without it. -/
def readLine (c : Console) : Option String × Console :=
  match c.inputs with
  | [] => (none, c.record (.asked none))
  | line :: rest => (some line, { c with inputs := rest }.record (.asked (some line)))

/-! ## Lines of a byte stream -/

/-- The first line with its newline, and what follows it. -/
def cutLine : List UInt8 → List UInt8 × List UInt8
  | [] => ([], [])
  | b :: rest =>
    if b = '\n'.toUInt8 then ([b], rest)
    else
      let later := cutLine rest
      (b :: later.1, later.2)

theorem cutLine_rest_length_lt (b : UInt8) (rest : List UInt8) :
    (cutLine (b :: rest)).2.length < (b :: rest).length := by
  induction rest generalizing b with
  | nil => rw [cutLine]; split <;> simp [cutLine]
  | cons c rest ih =>
    rw [cutLine]
    split
    · simp
    · exact Nat.lt_succ_of_lt (ih c)

/-- A line without the newlines and carriage returns at its end. -/
def stripLine (line : List UInt8) : List UInt8 :=
  (line.reverse.dropWhile fun b => b = '\n'.toUInt8 ∨ b = '\r'.toUInt8).reverse

/-- The lines of a byte stream, up to the first that is not well-formed text. -/
def linesOf : List UInt8 → List String
  | [] => []
  | b :: rest =>
    let cut := cutLine (b :: rest)
    match Text.decode? (stripLine cut.1) with
    | none => []
    | some line => line :: linesOf cut.2
termination_by stream => stream.length
decreasing_by exact cutLine_rest_length_lt b rest

end Console

end Protoscript
