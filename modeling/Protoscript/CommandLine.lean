import Protoscript.Session
import Protoscript.StandardInput

/-! # The command line

The arguments are one path and any number of limits, in any order.  The answer to an invocation
is an exit code with the texts for the two output streams, a function of the arguments, of what
can be read, and of the standard input. -/

set_option autoImplicit false

namespace Protoscript.CommandLine

inductive ArgumentError
  | noLimitValue
  | badLimit (text : String)
  | unknownOption (text : String)
  | unexpected (text : String)
  | noPath

def ArgumentError.message : ArgumentError → String
  | noLimitValue => "--max-depth needs a value"
  | badLimit text => s!"invalid --max-depth value `{text}`"
  | unknownOption text => s!"unknown option `{text}`"
  | unexpected text => s!"unexpected argument `{text}`"
  | noPath => "missing file path"

inductive Request
  | help
  | run (path : String) (maxDepth : Option Nat)

/-- Reads the arguments from the left; the first that fits nowhere is the error.  The last
limit counts. -/
def parse (path : Option String) (maxDepth : Option Nat) :
    List String → Except ArgumentError Request
  | [] =>
    match path with
    | some path => .ok (.run path maxDepth)
    | none => .error .noPath
  | "--max-depth" :: rest =>
    match rest with
    | [] => .error .noLimitValue
    | text :: rest =>
      match Numeral.count? text.toList with
      | some limit => parse path (some limit) rest
      | none => .error (.badLimit text)
  | arg :: rest =>
    if arg = "-h" ∨ arg = "--help" then .ok .help
    else if arg.toList.head? = some '-' then .error (.unknownOption arg)
    else
      match path with
      | none => parse (some arg) maxDepth rest
      | some _ => .error (.unexpected arg)

def request (args : List String) : Except ArgumentError Request := parse none none args

/-- Why a file gives no source. -/
inductive ReadError
  | missing
  | directory
  | notText
  | other (text : String)

def ReadError.message : ReadError → String
  | missing => "No such file or directory (os error 2)"
  | directory => "Is a directory (os error 21)"
  | notText => "stream did not contain valid UTF-8"
  | other text => text

structure Response where
  exitCode : Nat
  stdout : String
  stderr : String
deriving DecidableEq

def usage : String :=
  "Usage: brewin <file> [options]\n" ++
  "\n" ++
  "Options:\n" ++
  "  --max-depth <n>   Fail with a fault once calls nest deeper than n\n" ++
  "  -h, --help        Show this message\n"

/-- Each text followed by a newline. -/
def lines (texts : List String) : String := String.join (texts.map (· ++ "\n"))

/-- The answer to a run of the source at `path`. -/
def runSource (path source : String) (maxDepth : Option Nat) (stdin : List UInt8) (fuel : Nat) :
    Response :=
  match Program.ofSource source with
  | .error ds => ⟨1, "", lines (ds.map fun d => s!"{path}: {d.display}")⟩
  | .ok program =>
    let run := program.run maxDepth (StandardInput.lines stdin) fuel
    let stdout := lines run.console.output
    match run.ending with
    | .finished => ⟨0, stdout, ""⟩
    | .failed e => ⟨1, stdout, s!"{path}: {e.display}\n"⟩
    | .outOfFuel => ⟨1, stdout, s!"{path}: out of fuel\n"⟩

/-- The answer to an invocation.  `read` gives the bytes of the file at a path. -/
def respond (args : List String) (read : String → Except ReadError (List UInt8))
    (stdin : List UInt8) (fuel : Nat) : Response :=
  match request args with
  | .error e => ⟨1, "", s!"error: {e.message}\n" ++ usage⟩
  | .ok .help => ⟨0, "", usage⟩
  | .ok (.run path maxDepth) =>
    let source := do
      let bytes ← read path
      match Text.decode? bytes with
      | some source => .ok source
      | none => .error ReadError.notText
    match source with
    | .error e => ⟨1, "", s!"error: cannot read `{path}`: {e.message}\n"⟩
    | .ok source => runSource path source maxDepth stdin fuel

end Protoscript.CommandLine
