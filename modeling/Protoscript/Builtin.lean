import Protoscript.Console
import Protoscript.Numeral
import Protoscript.RuntimeError
import Protoscript.Text.Blank

/-! # Built-in functions

`print` writes its arguments in one piece; `inputi` and `inputs` read a line, as an integer or
as it is, after writing their argument, if they have one. -/

set_option autoImplicit false

namespace Protoscript

inductive Builtin
  | print | inputi | inputs
deriving DecidableEq, Repr

namespace Builtin

def all : List Builtin := [print, inputi, inputs]

def name : Builtin → String
  | print => "print"
  | inputi => "inputi"
  | inputs => "inputs"

/-- The largest number of arguments, if it is limited. -/
def most? : Builtin → Option Nat
  | print => none
  | inputi | inputs => some 1

/-- The built-in of that name among those provided. -/
def named? (provided : List Builtin) (name : String) : Option Builtin :=
  provided.find? (·.name = name)

def isNamed (provided : List Builtin) (name : String) : Bool := (named? provided name).isSome

/-- A step that uses the console and may end in a runtime error. -/
abbrev Interaction := EStateM RuntimeError Console

/-- Refuses more arguments than the built-in takes. -/
def checkCount (b : Builtin) (count line : Nat) : Interaction Unit :=
  match b.most?.filter (· < count) with
  | some most => throw ⟨.tooManyArguments b.name most count, line⟩
  | none => pure ()

/-- Writes the first argument, if there is one. -/
def prompt : List Value → Interaction Unit
  | [] => pure ()
  | v :: _ => modify (·.print v.text)

/-- Writes the prompt and reads a line. -/
def ask (args : List Value) (line : Nat) : Interaction String := do
  prompt args
  match ← modifyGet Console.readLine with
  | some text => return text
  | none => throw ⟨.endOfInput, line⟩

def run (b : Builtin) (args : List Value) (line : Nat) : Interaction Value := do
  b.checkCount args.length line
  match b with
  | print =>
    modify (·.print (String.join (args.map Value.text)))
    return .nil
  | inputi =>
    let text ← ask args line
    match Numeral.signed? (Text.trim text.toList) with
    | some n => return .int n
    | none => throw ⟨.notInteger text, line⟩
  | inputs => return .str (← ask args line)

/-- Calls the built-in of that name; `none` if none of those provided has it. -/
def call? (provided : List Builtin) (name : String) (args : List Value) (line : Nat) :
    Interaction (Option Value) :=
  match named? provided name with
  | some b => return some (← b.run args line)
  | none => return none

end Builtin

end Protoscript
