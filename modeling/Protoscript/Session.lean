import Protoscript.Evaluation

/-! # Runs and sessions

A run is a machine that starts afresh and executes `main`.  A session keeps its machine from
step to step: statements and expressions are evaluated in the environment that the steps before
left, after an error too, and a step may be a whole run. -/

set_option autoImplicit false

namespace Protoscript

inductive Ending
  | finished
  | failed (e : RuntimeError)
  | outOfFuel

structure Run where
  ending : Ending
  console : Console

namespace Program

def setting (p : Program) (maxDepth : Option Nat) : Setting := ⟨p.functions, maxDepth⟩

/-- A run of the program on the given input lines. -/
def run (p : Program) (maxDepth : Option Nat) (inputs : List String) (fuel : Nat) : Run :=
  match Eval.main (p.setting maxDepth) fuel (Machine.start inputs) with
  | .ok _ m => ⟨.finished, m.console⟩
  | .error (.error e) m => ⟨.failed e, m.console⟩
  | .error .outOfFuel m => ⟨.outOfFuel, m.console⟩

end Program

/-- What a session is asked to do. -/
inductive Step
  | exec (body : List Stmt)
  | eval (e : Expr)
  | run

/-- What came of a step that ended well. -/
inductive Answer
  | flow (f : Flow)
  | value (v : Value)
  | finished

namespace Step

/-- The body of the first function of a source. -/
def firstBody (source : String) : Except (List Diagnostic) (List Stmt) := do
  let tokens ← Token.ofSource source
  match ← Definition.ofTokens tokens with
  | d :: _ => return d.body
  | [] => return []

/-- The statements of a text, read as the body of a function. -/
def execText (text : String) : Except (List Diagnostic) Step :=
  (firstBody ("func step() \x7b" ++ text ++ "\n\x7d")).map exec

/-- The expression of a text, read as what a function returns. -/
def evalText (text : String) : Except (List Diagnostic) Step := do
  match ← firstBody ("func step() \x7breturn " ++ text ++ "\n;\x7d") with
  | .ret (some e) _ :: _ => return .eval e
  | _ => return .eval (.nil .start)

/-- Does the step on the machine as it is. -/
def perform (setting : Setting) (fuel : Nat) : Step → Eval Answer
  | exec body => .flow <$> Eval.stmts setting fuel body
  | eval e => .value <$> Eval.expr setting fuel e
  | run => (fun _ => .finished) <$> Eval.main setting fuel

end Step

/-- Does steps in turn on the machine that the ones before left, each with its fuel.  A step that
ends in an error does not keep the next from being done. -/
def session (setting : Setting) : List (Nat × Step) → Eval Unit
  | [] => pure ()
  | (fuel, step) :: rest => do
    Eval.settle (step.perform setting fuel)
    session setting rest

/-- A machine that some session comes through, be it between two steps or in the midst of one. -/
def Machine.Reachable (setting : Setting) (m : Machine) : Prop :=
  ∃ inputs steps, ∃ μ ∈ (session setting steps).history (.start inputs), μ.machine = m

end Protoscript
