import Protoscript.Eval.Steps

/-! # Evaluation

Expressions, calls and statements.  Every function counts down `fuel`; with too little of it
the outcome is `outOfFuel`, and more of it never changes any other outcome.

A function sees the variables of its callers, for its frame is pushed on theirs; a closure sees
only what was visible where it was made.  Arguments are evaluated before the call is counted,
and parameters passed by reference are written back after it. -/

set_option autoImplicit false

namespace Protoscript

/-- How a statement ends: execution goes on after it, or the function returns a value. -/
inductive Flow
  | next
  | returned (value : Value)

/-- The value of a body that ended so. -/
def Flow.value : Flow → Value
  | next => .nil
  | returned value => value

namespace Eval

mutual

def expr (setting : Setting) : Nat → Expr → Eval Value
  | 0, _ => stop .outOfFuel
  | fuel + 1, e =>
    match e with
    | .int n _ => return .int n
    | .bool b _ => return .bool b
    | .str text _ => return .str text
    | .nil _ => return .nil
    | .object _ => newObject
    | .lambda d => newClosure d
    | .var name place => lookup setting name place.line
    | .member object field place => do
      let v ← expr setting fuel object
      memberOf v field place.line
    | .call callee args place => callNamed setting fuel callee args place.line
    | .method object name args place => callMethod setting fuel object name args place.line
    | .binary op left right place => do
      let l ← expr setting fuel left
      let r ← expr setting fuel right
      attempt place.line (OperatorTable.standard.eval op l r)
    | .unary op operand place => do
      let v ← expr setting fuel operand
      attempt place.line (op.eval v)

def exprs (setting : Setting) : Nat → List Expr → Eval (List Value)
  | 0, _ => stop .outOfFuel
  | _ + 1, [] => return []
  | fuel + 1, e :: es => do
    let v ← expr setting fuel e
    let vs ← exprs setting fuel es
    return v :: vs

/-- A built-in comes before a variable of its name, and a variable before a function. -/
def callNamed (setting : Setting) : Nat → String → List Expr → Nat → Eval Value
  | 0, _, _, _ => stop .outOfFuel
  | fuel + 1, callee, args, line => do
    if Builtin.isNamed Builtin.all callee then
      let values ← exprs setting fuel args
      match ← interact (Builtin.call? Builtin.all callee values line) with
      | some value => return value
      | none => fail (.unknownBuiltin callee) line
    else
      match ← binding? callee with
      | some v =>
        if v.isCallable then
          callValue setting fuel v args none line
        else
          fail (.notFunction callee v.kind) line
      | none =>
        match setting.functions.get? callee args.length with
        | some f => callValue setting fuel (.function f) args none line
        | none =>
          if setting.functions.contains callee then
            fail (.noOverload callee args.length) line
          else
            fail (.undefinedFunction callee) line

def callMethod (setting : Setting) : Nat → Expr → String → List Expr → Nat → Eval Value
  | 0, _, _, _, _ => stop .outOfFuel
  | fuel + 1, object, name, args, line => do
    let receiver ← expr setting fuel object
    let o ← objectOf receiver name line
    match (← get).store.getMember o name with
    | none => fail (.noMethod name) line
    | some v =>
      if v.isCallable then
        callValue setting fuel v args (some o) line
      else
        fail (.notMethod name v.kind) line

def callValue (setting : Setting) :
    Nat → Value → List Expr → Option ObjectId → Nat → Eval Value
  | 0, _, _, _, _ => stop .outOfFuel
  | fuel + 1, callee, args, this, line =>
    match callee.code? with
    | none => fail (.notCallable callee.kind) line
    | some (d, closure) =>
      if d.arity = args.length then do
        let passed ← pass setting fuel d.name d.params args
        invoke setting fuel d closure passed this line
      else
        fail (.wrongCount d.name d.arity args.length) line

/-- Evaluates the arguments of a call, each for its parameter. -/
def pass (setting : Setting) : Nat → String → List Param → List Expr → Eval (List Passed)
  | 0, _, _, _ => stop .outOfFuel
  | fuel + 1, function, p :: ps, a :: as => do
    let value ← expr setting fuel a
    let source ← sourceOf function p a
    let rest ← pass setting fuel function ps as
    return ⟨value, source⟩ :: rest
  | _ + 1, _, _, _ => return []

/-- Calls a definition with its arguments, and writes back what was passed by reference. -/
def invoke (setting : Setting) :
    Nat → Definition → Option Closure → List Passed → Option ObjectId → Nat → Eval Value
  | 0, _, _, _, _, _ => stop .outOfFuel
  | fuel + 1, d, closure, passed, this, line => do
    let ended ← invocation setting fuel d closure passed this line
    writeBack ended.2
    return ended.1

/-- A call up to what it writes back: its value and the final values of the parameters passed by
reference. -/
def invocation (setting : Setting) :
    Nat → Definition → Option Closure → List Passed → Option ObjectId → Nat →
      Eval (Value × List (String × Value))
  | 0, _, _, _, _, _ => stop .outOfFuel
  | fuel + 1, d, closure, passed, this, line =>
    entered setting d closure.isSome line (onCaptured closure (body setting fuel d passed this))

/-- Runs a body in a frame of its own; gives its value and the final values of the parameters
passed by reference. -/
def body (setting : Setting) :
    Nat → Definition → List Passed → Option ObjectId → Eval (Value × List (String × Value))
  | 0, _, _, _ => stop .outOfFuel
  | fuel + 1, d, passed, this => inScope do
    bindParams d.params passed
    bindThis this
    let flow ← stmts setting fuel d.body
    return (flow.value, finalValues (← get) d.params passed)

def stmts (setting : Setting) : Nat → List Stmt → Eval Flow
  | 0, _ => stop .outOfFuel
  | _ + 1, [] => return .next
  | fuel + 1, s :: rest => do
    match ← stmt setting fuel s with
    | .next => stmts setting fuel rest
    | .returned value => return .returned value

def block (setting : Setting) : Nat → List Stmt → Eval Flow
  | 0, _ => stop .outOfFuel
  | fuel + 1, body => inScope (stmts setting fuel body)

def stmt (setting : Setting) : Nat → Stmt → Eval Flow
  | 0, _ => stop .outOfFuel
  | fuel + 1, s => do
    record (.executed s.position.line)
    match s with
    | .assign target value place =>
      let v ← expr setting fuel value
      assign target v place.line
      return .next
    | .call e =>
      let _ ← expr setting fuel e
      return .next
    | .branch test yes no _ =>
      if ← condition setting fuel .ifWord test then
        block setting fuel yes
      else
        match no with
        | some no => block setting fuel no
        | none => return .next
    | .loop test body _ => loop setting fuel test body
    | .ret none _ => return .returned .nil
    | .ret (some value) _ =>
      let v ← expr setting fuel value
      return .returned v

def loop (setting : Setting) : Nat → Expr → List Stmt → Eval Flow
  | 0, _, _ => stop .outOfFuel
  | fuel + 1, test, body => do
    if ← condition setting fuel .whileWord test then
      match ← block setting fuel body with
      | .next => loop setting fuel test body
      | .returned value => return .returned value
    else
      return .next

/-- The truth value of the condition after `word`. -/
def condition (setting : Setting) : Nat → Keyword → Expr → Eval Bool
  | 0, _, _ => stop .outOfFuel
  | fuel + 1, word, test => do
    let v ← expr setting fuel test
    match v.intToBool with
    | .bool b => return b
    | other => fail (.notCondition word other.kind) test.position.line

end

/-- Runs `main` in a fresh environment. -/
def main (setting : Setting) (fuel : Nat) : Eval Unit := do
  match setting.functions.get? "main" 0 with
  | none => fail .noMain 0
  | some f =>
    record (.started setting.functions.size)
    modify Machine.fresh
    let _ ← invoke setting fuel f.toDefinition none [] none f.position.line

end Eval

end Protoscript
