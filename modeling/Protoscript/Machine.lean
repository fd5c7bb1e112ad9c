import Protoscript.Builtin
import Protoscript.Environment
import Protoscript.Operator
import Protoscript.Program
import Protoscript.Prototype

/-! # The machine

The state of a running program: what its values refer to, the frames in which it looks names up,
how many calls are under way, and its console. -/

set_option autoImplicit false

namespace Protoscript

structure Machine where
  store : Store
  env : Environment
  /-- How many calls are under way. -/
  depth : Nat
  console : Console

/-- What evaluation needs to know of the program and its run. -/
structure Setting where
  functions : FunctionTable
  maxDepth : Option Nat

/-- The limit on calls, if `depth` calls under way are as many as it allows. -/
def Setting.reached? (setting : Setting) (depth : Nat) : Option Nat :=
  setting.maxDepth.filter (· ≤ depth)

namespace Machine

/-- A machine with one empty frame that has done nothing yet. -/
def start (inputs : List String) : Machine :=
  let (f, store) := Store.empty.newFrame .empty
  ⟨store, .ofFrame f, 0, .ofInputs inputs⟩

/-- Pushes a new empty frame. -/
def push (m : Machine) : Machine :=
  let (f, store) := m.store.newFrame .empty
  { m with store := store, env := m.env.push f }

def pop (m : Machine) : Machine := { m with env := m.env.pop }

/-- The machine with a new empty frame as its only one, and no call under way. -/
def fresh (m : Machine) : Machine :=
  let (f, store) := m.store.newFrame .empty
  { m with store := store, env := .ofFrame f, depth := 0 }

def get? (m : Machine) (name : String) : Option Value := m.env.get? m.store name

def set (m : Machine) (name : String) (value : Value) : Machine :=
  { m with store := m.env.set m.store name value }

def create (m : Machine) (name : String) (value : Value) : Machine :=
  { m with store := m.env.create m.store name value }

/-- The value of a new object, and the machine that has it. -/
def newObject (m : Machine) : Value × Machine :=
  let (o, store) := m.store.newObject
  (.object o, { m with store := store })

/-- The value of a new closure over all that is visible, and the machine that has it. -/
def newClosure (m : Machine) (d : Definition) : Value × Machine :=
  let (c, store) := m.store.newClosure d (m.env.flatten m.store)
  (.closure c, { m with store := store })

def record (m : Machine) (e : Event) : Machine := { m with console := m.console.record e }

/-- Counts a call in. -/
def enter (m : Machine) (d : Definition) (closure : Bool) : Machine :=
  { m with depth := m.depth + 1 }.record (.called d.name d.arity (m.depth + 1) closure)

/-- Counts a call out. -/
def leave (m : Machine) : Machine := { m with depth := m.depth - 1 }

/-- The machine with the captured frame as its only one. -/
def onFrame (m : Machine) (f : FrameId) : Machine := { m with env := .ofFrame f }

def onEnv (m : Machine) (e : Environment) : Machine := { m with env := e }

end Machine

end Protoscript
