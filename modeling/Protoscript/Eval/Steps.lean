import Protoscript.Eval

/-! # Steps that evaluate no expression

Look-ups, writes and checks, each a step of its own, out of which evaluation is made. -/

set_option autoImplicit false

namespace Protoscript

namespace Eval

def fail {α : Type} (cause : RuntimeError.Cause) (line : Nat) : Eval α :=
  stop (.error ⟨cause, line⟩)

/-- The result, or its cause as an error at `line`. -/
def attempt {α : Type} (line : Nat) : Except RuntimeError.Cause α → Eval α
  | .ok a => pure a
  | .error cause => fail cause line

def record (e : Event) : Eval Unit := modify (·.record e)

def binding? (name : String) : Eval (Option Value) := return (← get).get? name

def set (name : String) (value : Value) : Eval Unit := modify (·.set name value)

def create (name : String) (value : Value) : Eval Unit := modify (·.create name value)

/-- Runs a step on the console alone. -/
def interact {α : Type} (step : Builtin.Interaction α) : Eval α := change fun m =>
  match step m.console with
  | .ok a console => .ok a { m with console := console }
  | .error e console => .error (.error e) { m with console := console }

def newObject : Eval Value := modifyGet Machine.newObject

def newClosure (d : Definition) : Eval Value := modifyGet (·.newClosure d)

def objectOf (v : Value) (member : String) (line : Nat) : Eval ObjectId :=
  match v with
  | .object o => pure o
  | other => fail (.noMembers member other.kind) line

def memberOf (v : Value) (member : String) (line : Nat) : Eval Value := do
  let o ← objectOf v member line
  match (← get).store.getMember o member with
  | some value => return value
  | none => fail (.noMember member) line

/-- The value of a name: a variable, or else the only function of that name. -/
def lookup (setting : Setting) (name : String) (line : Nat) : Eval Value := do
  match ← binding? name with
  | some value => return value
  | none =>
    match setting.functions.overloads name with
    | [] => fail (.undefinedVariable name) line
    | [f] => return .function f
    | _ => fail (.overloadedName name) line

/-- The member at the end of a path of names that starts at a value. -/
def follow (v : Value) (line : Nat) : List String → Eval Value
  | [] => pure v
  | name :: names => do
    let next ← memberOf v name line
    follow next line names

/-- Writes a member of an object. -/
def setMember (o : ObjectId) (name : String) (value : Value) (line : Nat) : Eval Unit := do
  match (← get).store.setMember o name value with
  | .ok store => modify fun m => { m with store := store }
  | .error kind => fail (.badProto kind) line

/-- Stores a value under a path.  All names but the last are looked up; the last is written. -/
def assign (target : List String) (value : Value) (line : Nat) : Eval Unit :=
  match target with
  | [] => fail .noTarget line
  | [name] => set name value
  | root :: field :: fields => do
    match ← binding? root with
    | none => fail (.undefinedVariable root) line
    | some v =>
      let path := (field :: fields).dropLast
      let last := (field :: fields).getLast (List.cons_ne_nil _ _)
      let holder ← follow v line path
      let o ← objectOf holder last line
      setMember o last value line

/-- An argument that was evaluated, with the variable it names, if it is a bound one. -/
structure Passed where
  value : Value
  source : Option String

/-- The variable that an argument names.  One passed by reference has to name a bound one. -/
def sourceOf (function : String) (p : Param) (arg : Expr) : Eval (Option String) := do
  let refused := if p.byRef then fail (.refNeedsVariable p.name function) arg.position.line
    else pure none
  match arg with
  | .var name _ => if (← binding? name).isSome then return some name else refused
  | _ => refused

/-- Runs a step as a call, unless as many as the limit allows are under way. -/
@[inline]
def entered {α : Type} (setting : Setting) (d : Definition) (closure : Bool) (line : Nat)
    (x : Eval α) : Eval α := do
  let depth := (← get).depth
  match setting.reached? depth with
  | some limit => fail (.tooDeep limit d.name) line
  | none => counted d closure x

theorem run_entered {α : Type} (setting : Setting) (d : Definition) (closure : Bool) (line : Nat)
    (x : Eval α) (m : Machine) : (entered setting d closure line x).run m =
      match setting.reached? m.depth with
      | some limit => .error (.error ⟨.tooDeep limit d.name, line⟩) m
      | none => (counted d closure x).run m := by
  have chosen : (entered setting d closure line x).run m =
      (match setting.reached? m.depth with
      | some limit => fail (.tooDeep limit d.name) line
      | none => counted d closure x).run m := rfl
  rw [chosen]
  cases setting.reached? m.depth <;> rfl

def bindParams : List Param → List Passed → Eval Unit
  | p :: ps, a :: as => do
    create p.name a.value
    bindParams ps as
  | _, _ => pure ()

/-- In a method, `this` is the receiver. -/
def bindThis : Option ObjectId → Eval Unit
  | some o => create "this" (.object o)
  | none => pure ()

/-- The final values of the parameters passed by reference, with the caller's variables they
go to. -/
def finalValues (m : Machine) : List Param → List Passed → List (String × Value)
  | p :: ps, a :: as =>
    match p.byRef, a.source with
    | true, some name => (name, (m.get? p.name).getD .nil) :: finalValues m ps as
    | _, _ => finalValues m ps as
  | _, _ => []

def writeBack : List (String × Value) → Eval Unit
  | [] => pure ()
  | (name, value) :: rest => do
    set name value
    writeBack rest

end Eval

end Protoscript
