import Protoscript.Function

/-! # Values

Integers are 64 bits wide and signed.  Objects, closures and the frames that closures capture
live in a store, and values refer to them by number. -/

set_option autoImplicit false

namespace Protoscript

structure FrameId where
  index : Nat
deriving DecidableEq, Repr

structure ObjectId where
  index : Nat
deriving DecidableEq, Repr

structure ClosureId where
  index : Nat
deriving DecidableEq, Repr

/-- A lambda with the frame of what was visible where it was evaluated.  Every call of the
closure runs on that frame, so what a call assigns there is seen by the next. -/
structure Closure where
  id : ClosureId
  definition : Definition
  captured : FrameId

inductive Value
  | int (n : Int64)
  | bool (b : Bool)
  | str (text : String)
  | nil
  | function (f : Function)
  | closure (c : Closure)
  | object (o : ObjectId)

inductive Kind
  | int | bool | string | nil | function | closure | object
deriving DecidableEq, Repr

namespace Kind

def all : List Kind := [int, bool, string, nil, function, closure, object]

theorem mem_all (k : Kind) : k ∈ all := by cases k <;> decide

def name : Kind → String
  | int => "int"
  | bool => "bool"
  | string => "string"
  | nil => "nil"
  | function => "function"
  | closure => "closure"
  | object => "object"

/-- The place of the kind among all kinds. -/
def index : Kind → Nat
  | int => 0
  | bool => 1
  | string => 2
  | nil => 3
  | function => 4
  | closure => 5
  | object => 6

theorem getElem?_all_index (k : Kind) : all[k.index]? = some k := by cases k <;> rfl

end Kind

namespace Value

def kind : Value → Kind
  | int _ => .int
  | bool _ => .bool
  | str _ => .string
  | nil => .nil
  | function _ => .function
  | closure _ => .closure
  | object _ => .object

def isCallable : Value → Bool
  | function _ | closure _ => true
  | _ => false

/-- The definition that a call of the value runs, and the closure, if it is one. -/
def code? : Value → Option (Definition × Option Closure)
  | function f => some (f.toDefinition, none)
  | closure c => some (c.definition, some c)
  | _ => none

theorem isCallable_eq (v : Value) : v.isCallable = v.code?.isSome := by cases v <;> rfl

/-- Equality of values.  Values of different kinds differ; functions, closures and objects are told
apart by their identity. -/
def same : Value → Value → Bool
  | int m, int n => m == n
  | bool a, bool b => a == b
  | str s, str t => s == t
  | nil, nil => true
  | function f, function g => f.id == g.id
  | closure c, closure d => c.id == d.id
  | object o, object p => o == p
  | _, _ => false

/-- The text that `print` writes. -/
def text : Value → String
  | int n => toString n.toInt
  | bool b => if b then "true" else "false"
  | str s => s
  | nil => "nil"
  | function f => s!"<function {f.name}>"
  | closure _ => "<closure>"
  | object _ => "<object>"

end Value

end Protoscript
