import Protoscript.Value
import Protoscript.Text.Quoted

/-! # Runtime errors

What can stop a running program.  An error is a cause with the line it is reported at; its class
and its wording follow from the cause. -/

set_option autoImplicit false

namespace Protoscript

namespace RuntimeError

/-- A name error is about something that is not there, a type error about a value of the wrong
kind or a wrong number of them, and a fault is anything else. -/
inductive Class
  | name | type | fault
deriving DecidableEq, Repr

def Class.text : Class → String
  | name => "name error"
  | type => "type error"
  | fault => "fault"

inductive Cause
  | noMain
  | noTarget
  | undefinedVariable (name : String)
  | undefinedFunction (name : String)
  | noOverload (name : String) (count : Nat)
  /-- A variable that is called holds no function. -/
  | notFunction (name : String) (kind : Kind)
  | unknownBuiltin (name : String)
  | notCallable (kind : Kind)
  | noMember (name : String)
  | noMethod (name : String)
  | notMethod (name : String) (kind : Kind)
  | overloadedName (name : String)
  | wrongCount (name : String) (expected got : Nat)
  | tooManyArguments (name : String) (most got : Nat)
  | refNeedsVariable (param function : String)
  /-- The condition after `word` is no truth value. -/
  | notCondition (word : Keyword) (kind : Kind)
  | badProto (kind : Kind)
  /-- A member is asked of a value that is no object. -/
  | noMembers (member : String) (kind : Kind)
  | binaryUndefined (op : BinaryOp) (left right : Kind)
  | unaryUndefined (op : UnaryOp) (operand : Kind)
  | notInteger (line : String)
  | divisionByZero
  | endOfInput
  | tooDeep (limit : Nat) (name : String)

namespace Cause

def errorClass : Cause → Class
  | noMain | noTarget | undefinedVariable _ | undefinedFunction _ | noOverload _ _
  | notFunction _ _ | unknownBuiltin _ | notCallable _ | noMember _ | noMethod _
  | notMethod _ _ => .name
  | overloadedName _ | wrongCount _ _ _ | tooManyArguments _ _ _ | refNeedsVariable _ _
  | notCondition _ _ | badProto _ | binaryUndefined _ _ _ | unaryUndefined _ _
  | notInteger _ => .type
  | noMembers _ kind => if kind = .nil then .fault else .type
  | divisionByZero | endOfInput | tooDeep _ _ => .fault

def message : Cause → String
  | noMain => "no `main` function taking zero parameters"
  | noTarget => "assignment has no target"
  | undefinedVariable name => s!"undefined variable `{name}`"
  | undefinedFunction name => s!"undefined function `{name}`"
  | noOverload name count => s!"no overload of `{name}` takes {count} argument(s)"
  | notFunction name kind => s!"`{name}` is a {kind.name}, not a function"
  | unknownBuiltin name => s!"unknown built-in `{name}`"
  | notCallable kind => s!"{kind.name} is not callable"
  | noMember name => s!"object has no member `{name}`"
  | noMethod name => s!"object has no method `{name}`"
  | notMethod name kind => s!"member `{name}` is a {kind.name}, not a method"
  | overloadedName name => s!"function `{name}` is overloaded and cannot be used as a value"
  | wrongCount name expected got => s!"`{name}` expects {expected} argument(s), got {got}"
  | tooManyArguments name most got => s!"`{name}` expects at most {most} argument(s), got {got}"
  | refNeedsVariable param function =>
    s!"ref parameter `{param}` of `{function}` requires a variable argument"
  | notCondition word kind => s!"{word.spelling} condition must be bool, got {kind.name}"
  | badProto kind => s!"`proto` must be an object or nil, got {kind.name}"
  | noMembers member kind => s!"cannot access `{member}` on {kind.name}"
  | binaryUndefined op left right =>
    if left = right then s!"operator `{op.symbol}` not defined for {left.name}"
    else s!"operator `{op.symbol}` not defined for {left.name} and {right.name}"
  | unaryUndefined op operand => s!"operator `{op.symbol}` not defined for {operand.name}"
  | notInteger line => s!"`inputi` expected an integer, got {Text.quoted line}"
  | divisionByZero => "division by zero"
  | endOfInput => "end of input"
  | tooDeep limit name => s!"maximum call depth of {limit} exceeded in `{name}`"

end Cause

end RuntimeError

structure RuntimeError where
  cause : RuntimeError.Cause
  line : Nat

namespace RuntimeError

def errorClass (e : RuntimeError) : Class := e.cause.errorClass

def message (e : RuntimeError) : String := e.cause.message

def display (e : RuntimeError) : String :=
  s!"[runtime] {e.errorClass.text} at line {e.line}: {e.message}"

end RuntimeError

end Protoscript
