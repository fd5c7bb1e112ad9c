import Protoscript.Evaluation
import Protoscript.Proofs.Likeness.Steps

/-! # Evaluation up to a likeness

Evaluation of programs that are the same up to a likeness, started on machines that are the same,
comes to the same: `matched`, by induction on the fuel.  The right evaluation may have more fuel if
the likeness lets the left one be cut short by running out of it. -/

set_option autoImplicit false

namespace Protoscript

open Eval (Passed)

namespace Likeness

open Renaming (SameSources)

inductive SameFlow (L : Likeness) : Flow → Flow → Prop
  | next : SameFlow L .next .next
  | returned {v w : Value} (value : L.SameValue v w) : SameFlow L (.returned v) (.returned w)

theorem SameFlow.value {L : Likeness} {f g : Flow} (same : L.SameFlow f g) :
    L.SameValue f.value g.value := by
  cases same with
  | next => exact .plain trivial
  | returned value => exact value

/-- The same value of a call, and the same write-backs if they go to the same variables. -/
structure SameCall (L : Likeness) (passed passed' : List Passed)
    (ended ended' : Value × List (String × Value)) : Prop where
  value : L.SameValue ended.1 ended'.1
  returns : SameSources passed passed' → L.SameReturns ended.2 ended'.2

variable (L : Likeness) (setting setting' : Setting)

/-- With so much fuel on either side, all evaluating functions match on what is the same. -/
structure Matched (fuel fuel' : Nat) : Prop where
  expr : ∀ {e f}, L.code.SameExpr e f →
    L.Matches (Eval.expr setting fuel e) (Eval.expr setting' fuel' f) L.SameValue
  exprs : ∀ {es fs}, List.Forall₂ L.code.SameExpr es fs →
    L.Matches (Eval.exprs setting fuel es) (Eval.exprs setting' fuel' fs)
      (List.Forall₂ L.SameValue)
  callNamed : ∀ {callee}, L.code.name callee → ∀ {args args'},
    List.Forall₂ L.code.SameExpr args args' → ∀ {line line'}, L.code.line line line' →
    L.Matches (Eval.callNamed setting fuel callee args line)
      (Eval.callNamed setting' fuel' callee args' line') L.SameValue
  callMethod : ∀ {object object'}, L.code.SameExpr object object' → ∀ name {args args'},
    List.Forall₂ L.code.SameExpr args args' → ∀ {line line'}, L.code.line line line' →
    L.Matches (Eval.callMethod setting fuel object name args line)
      (Eval.callMethod setting' fuel' object' name args' line') L.SameValue
  callValue : ∀ {v w}, L.SameValue v w → ∀ {args args'}, List.Forall₂ L.code.SameExpr args args' →
    ∀ {this this'}, Option.Rel L.ids.SameObject this this' →
    ∀ {line line'}, L.code.line line line' →
    L.Matches (Eval.callValue setting fuel v args this line)
      (Eval.callValue setting' fuel' w args' this' line') L.SameValue
  pass : ∀ function {ps qs}, List.Forall₂ Code.SameParam ps qs → ∀ {args args'},
    List.Forall₂ L.code.SameExpr args args' →
    L.Matches (Eval.pass setting fuel function ps args) (Eval.pass setting' fuel' function qs args')
      fun passed passed' => L.SameArgs passed passed' ∧ SameSources passed passed'
  invoke : ∀ {d d'}, L.code.SameDefinition d d' → ∀ {closure closure'},
    Option.Rel L.SameClosure closure closure' → ∀ {passed passed'}, L.SameArgs passed passed' →
    SameSources passed passed' → ∀ {this this'}, Option.Rel L.ids.SameObject this this' →
    ∀ {line line'}, L.code.line line line' →
    L.Matches (Eval.invoke setting fuel d closure passed this line)
      (Eval.invoke setting' fuel' d' closure' passed' this' line') L.SameValue
  invocation : ∀ {d d'}, L.code.SameDefinition d d' → ∀ {closure closure'},
    Option.Rel L.SameClosure closure closure' → ∀ {passed passed'}, L.SameArgs passed passed' →
    ∀ {this this'}, Option.Rel L.ids.SameObject this this' →
    ∀ {line line'}, L.code.line line line' →
    L.Matches (Eval.invocation setting fuel d closure passed this line)
      (Eval.invocation setting' fuel' d' closure' passed' this' line') (L.SameCall passed passed')
  body : ∀ {d d'}, L.code.SameDefinition d d' → ∀ {passed passed'}, L.SameArgs passed passed' →
    ∀ {this this'}, Option.Rel L.ids.SameObject this this' →
    L.Matches (Eval.body setting fuel d passed this) (Eval.body setting' fuel' d' passed' this')
      (L.SameCall passed passed')
  stmts : ∀ {ss ts}, List.Forall₂ L.code.SameStmt ss ts →
    L.Matches (Eval.stmts setting fuel ss) (Eval.stmts setting' fuel' ts) L.SameFlow
  block : ∀ {ss ts}, List.Forall₂ L.code.SameStmt ss ts →
    L.Matches (Eval.block setting fuel ss) (Eval.block setting' fuel' ts) L.SameFlow
  stmt : ∀ {s t}, L.code.SameStmt s t →
    L.Matches (Eval.stmt setting fuel s) (Eval.stmt setting' fuel' t) L.SameFlow
  loop : ∀ {test test'}, L.code.SameExpr test test' → ∀ {body body'},
    List.Forall₂ L.code.SameStmt body body' →
    L.Matches (Eval.loop setting fuel test body) (Eval.loop setting' fuel' test' body') L.SameFlow
  condition : ∀ word {test test'}, L.code.SameExpr test test' →
    L.Matches (Eval.condition setting fuel word test) (Eval.condition setting' fuel' word test') Eq

variable {L setting setting'} {fuel fuel' : Nat}

namespace Matched

open Matches

variable (lawful : L.Lawful setting setting') (less : L.Matched setting setting' fuel fuel')

include less

theorem exprs_succ {es fs : List Expr} (same : List.Forall₂ L.code.SameExpr es fs) :
    L.Matches (Eval.exprs setting (fuel + 1) es) (Eval.exprs setting' (fuel' + 1) fs)
      (List.Forall₂ L.SameValue) := by
  cases same with
  | nil =>
    rw [Eval.exprs, Eval.exprs]
    exact pure .nil
  | cons same rest =>
    rw [Eval.exprs, Eval.exprs]
    apply bind (less.expr same)
    intro v w value
    apply bind (less.exprs rest)
    intro vs ws values
    exact pure (.cons value values)

theorem callMethod_succ {object object' : Expr} (same : L.code.SameExpr object object')
    (name : String) {args args' : List Expr} (args_same : List.Forall₂ L.code.SameExpr args args')
    {line line' : Nat} (lines : L.code.line line line') :
    L.Matches (Eval.callMethod setting (fuel + 1) object name args line)
      (Eval.callMethod setting' (fuel' + 1) object' name args' line') L.SameValue := by
  rw [Eval.callMethod, Eval.callMethod]
  apply bind (less.expr same)
  intro receiver receiver' value
  apply bind (objectOf lines value name)
  intro o p pair
  apply bind get
  intro m n same
  have found := same.store.getMember pair name
  generalize m.store.getMember o name = method, n.store.getMember p name = method' at found ⊢
  cases found with
  | none => exact fail _ lines
  | some value =>
    dsimp only
    rw [value.isCallable_eq, value.kind_eq]
    split
    · exact less.callValue value args_same (.some pair) lines
    · exact fail _ lines

theorem callValue_succ {v w : Value} (value : L.SameValue v w) {args args' : List Expr}
    (same : List.Forall₂ L.code.SameExpr args args') {this this' : Option ObjectId}
    (received : Option.Rel L.ids.SameObject this this') {line line' : Nat}
    (lines : L.code.line line line') :
    L.Matches (Eval.callValue setting (fuel + 1) v args this line)
      (Eval.callValue setting' (fuel' + 1) w args' this' line') L.SameValue := by
  have called : ∀ {d d'}, L.code.SameDefinition d d' → ∀ {closure closure'},
      Option.Rel L.SameClosure closure closure' → L.Matches
        (if d.arity = args.length then do
          let passed ← Eval.pass setting fuel d.name d.params args
          Eval.invoke setting fuel d closure passed this line
        else Eval.fail (.wrongCount d.name d.arity args.length) line)
        (if d'.arity = args'.length then do
          let passed ← Eval.pass setting' fuel' d'.name d'.params args'
          Eval.invoke setting' fuel' d' closure' passed this' line'
        else Eval.fail (.wrongCount d'.name d'.arity args'.length) line') L.SameValue := by
    intro d d' alike closure closure' closures
    rw [alike.name, alike.arity, same.length_eq]
    split
    · apply bind (less.pass d'.name alike.params same)
      intro passed passed' given
      obtain ⟨values, sources⟩ := given
      exact less.invoke alike closures values sources received lines
    · exact fail _ lines
  rw [Eval.callValue, Eval.callValue]
  cases value with
  | plain plain =>
    cases v with
    | function d => cases plain
    | closure c => cases plain
    | _ => exact fail _ lines
  | function function => exact called function.same .none
  | closure closure => exact called closure.same (.some closure)
  | object pair => exact fail _ lines

theorem pass_succ (function : String) {ps qs : List Param}
    (params : List.Forall₂ Code.SameParam ps qs) {args args' : List Expr}
    (same : List.Forall₂ L.code.SameExpr args args') :
    L.Matches (Eval.pass setting (fuel + 1) function ps args)
      (Eval.pass setting' (fuel' + 1) function qs args')
      fun passed passed' => L.SameArgs passed passed' ∧ SameSources passed passed' := by
  cases params with
  | nil =>
    rw [Eval.pass.eq_def, Eval.pass.eq_def]
    exact pure ⟨.nil, rfl⟩
  | cons alike params =>
    cases same with
    | nil =>
      rw [Eval.pass.eq_def, Eval.pass.eq_def]
      exact pure ⟨.nil, rfl⟩
    | cons same rest =>
      rw [Eval.pass, Eval.pass]
      apply bind (less.expr same)
      intro v w value
      apply bind (sourceOf function alike same)
      intro source source' named
      cases named
      apply bind (less.pass function params rest)
      intro passed passed' given
      obtain ⟨values, sources⟩ := given
      exact pure ⟨.cons value values, congrArg (source :: ·) sources⟩

theorem invoke_succ {d d' : Definition} (alike : L.code.SameDefinition d d')
    {closure closure' : Option Closure} (closures : Option.Rel L.SameClosure closure closure')
    {passed passed' : List Passed} (values : L.SameArgs passed passed')
    (sources : SameSources passed passed') {this this' : Option ObjectId}
    (received : Option.Rel L.ids.SameObject this this') {line line' : Nat}
    (lines : L.code.line line line') :
    L.Matches (Eval.invoke setting (fuel + 1) d closure passed this line)
      (Eval.invoke setting' (fuel' + 1) d' closure' passed' this' line') L.SameValue := by
  rw [Eval.invoke, Eval.invoke]
  apply bind (less.invocation alike closures values received lines)
  intro ended ended' same
  apply bind (writeBack (same.returns sources))
  intro _ _ _
  exact pure same.value

theorem body_succ {d d' : Definition} (alike : L.code.SameDefinition d d')
    {passed passed' : List Passed} (values : L.SameArgs passed passed')
    {this this' : Option ObjectId} (received : Option.Rel L.ids.SameObject this this') :
    L.Matches (Eval.body setting (fuel + 1) d passed this)
      (Eval.body setting' (fuel' + 1) d' passed' this') (L.SameCall passed passed') := by
  rw [Eval.body, Eval.body]
  apply inScope
  apply bind (bindParams alike.params values)
  intro _ _ _
  apply bind (bindThis received)
  intro _ _ _
  apply bind (less.stmts alike.body)
  intro flow flow' ended
  apply bind get
  intro m n same
  exact pure ⟨ended.value, fun sources => same.finalValues alike.params sources⟩

theorem stmts_succ {ss ts : List Stmt} (same : List.Forall₂ L.code.SameStmt ss ts) :
    L.Matches (Eval.stmts setting (fuel + 1) ss) (Eval.stmts setting' (fuel' + 1) ts)
      L.SameFlow := by
  cases same with
  | nil =>
    rw [Eval.stmts, Eval.stmts]
    exact pure .next
  | cons same rest =>
    rw [Eval.stmts, Eval.stmts]
    apply bind (less.stmt same)
    intro flow flow' ended
    cases ended with
    | next => exact less.stmts rest
    | returned value => exact pure (.returned value)

theorem block_succ {ss ts : List Stmt} (same : List.Forall₂ L.code.SameStmt ss ts) :
    L.Matches (Eval.block setting (fuel + 1) ss) (Eval.block setting' (fuel' + 1) ts)
      L.SameFlow := by
  rw [Eval.block, Eval.block]
  exact inScope (less.stmts same)

theorem loop_succ {test test' : Expr} (same : L.code.SameExpr test test') {body body' : List Stmt}
    (bodies : List.Forall₂ L.code.SameStmt body body') :
    L.Matches (Eval.loop setting (fuel + 1) test body)
      (Eval.loop setting' (fuel' + 1) test' body') L.SameFlow := by
  rw [Eval.loop, Eval.loop]
  apply bind (less.condition .whileWord same)
  intro again again' equal
  cases equal
  cases again with
  | false => exact pure .next
  | true =>
    apply bind (less.block bodies)
    intro flow flow' ended
    cases ended with
    | next => exact less.loop same bodies
    | returned value => exact pure (.returned value)

theorem condition_succ (word : Keyword) {test test' : Expr} (same : L.code.SameExpr test test') :
    L.Matches (Eval.condition setting (fuel + 1) word test)
      (Eval.condition setting' (fuel' + 1) word test') Eq := by
  rw [Eval.condition, Eval.condition]
  apply bind (less.expr same)
  intro v w value
  have coerced := value.intToBool
  generalize v.intToBool = truth, w.intToBool = truth' at coerced ⊢
  cases coerced with
  | plain plain =>
    cases truth with
    | bool b => exact pure rfl
    | _ => exact fail _ same.line
  | _ => exact fail _ same.line

include lawful

theorem expr_succ {e f : Expr} (same : L.code.SameExpr e f) :
    L.Matches (Eval.expr setting (fuel + 1) e) (Eval.expr setting' (fuel' + 1) f)
      L.SameValue := by
  cases same with
  | int | bool | str | nil =>
    rw [Eval.expr, Eval.expr]
    exact pure (.plain trivial)
  | object =>
    rw [Eval.expr, Eval.expr]
    exact newObject
  | lambda known alike =>
    rw [Eval.expr, Eval.expr]
    exact newClosure known alike
  | var name known lines =>
    rw [Eval.expr, Eval.expr]
    exact lawful.matches_lookup known lines
  | member object field lines =>
    rw [Eval.expr, Eval.expr]
    exact bind (less.expr object) fun v w value => memberOf lines value field
  | call callee known args lines =>
    rw [Eval.expr, Eval.expr]
    exact less.callNamed known args lines
  | method object name args lines =>
    rw [Eval.expr, Eval.expr]
    exact less.callMethod object name args lines
  | binary op left right lines =>
    rw [Eval.expr, Eval.expr]
    apply bind (less.expr left)
    intro l l' left
    apply bind (less.expr right)
    intro r r' right
    have evaluated := left.eval_eq .standard op right
    exact attempt lines evaluated fun v => OperatorTable.isPlain_of_eval
  | unary op operand lines =>
    rw [Eval.expr, Eval.expr]
    apply bind (less.expr operand)
    intro v w value
    exact attempt lines (value.unaryEval_eq op) fun v => UnaryOp.isPlain_of_eval

theorem callNamed_succ {callee : String} (known : L.code.name callee) {args args' : List Expr}
    (same : List.Forall₂ L.code.SameExpr args args') {line line' : Nat}
    (lines : L.code.line line line') :
    L.Matches (Eval.callNamed setting (fuel + 1) callee args line)
      (Eval.callNamed setting' (fuel' + 1) callee args' line') L.SameValue := by
  rw [Eval.callNamed, Eval.callNamed]
  split
  · apply bind (less.exprs same)
    intro values values' given
    rw [Builtin.call?_eq (texts_eq given)]
    apply bind (lawful.interact callee values' lines)
    intro found found' answered
    obtain ⟨rfl, plain⟩ := answered
    cases found with
    | some v => exact pure (.plain (plain v rfl))
    | none => exact fail _ lines
  · apply bind (binding? callee)
    intro found found' bound
    cases bound with
    | some value =>
      dsimp only
      rw [value.isCallable_eq, value.kind_eq]
      split
      · exact less.callValue value same .none lines
      · exact fail _ lines
    | none =>
      dsimp only
      rw [same.length_eq, lawful.tables.contains known]
      have overload := lawful.tables.get? known args'.length
      generalize setting.functions.get? callee args'.length = d at overload ⊢
      generalize setting'.functions.get? callee args'.length = d' at overload ⊢
      cases overload with
      | some function => exact less.callValue (.function function) same .none lines
      | none =>
        dsimp only
        split
        · exact fail _ lines
        · exact fail _ lines

theorem invocation_succ {d d' : Definition} (alike : L.code.SameDefinition d d')
    {closure closure' : Option Closure} (closures : Option.Rel L.SameClosure closure closure')
    {passed passed' : List Passed} (values : L.SameArgs passed passed')
    {this this' : Option ObjectId} (received : Option.Rel L.ids.SameObject this this')
    {line line' : Nat} (lines : L.code.line line line') :
    L.Matches (Eval.invocation setting (fuel + 1) d closure passed this line)
      (Eval.invocation setting' (fuel' + 1) d' closure' passed' this' line')
      (L.SameCall passed passed') := by
  have kind : closure.isSome = closure'.isSome := by cases closures <;> rfl
  rw [Eval.invocation, Eval.invocation, kind]
  exact lawful.matches_entered alike _ lines (onCaptured (less.body alike values received) closures)

theorem stmt_succ {s t : Stmt} (same : L.code.SameStmt s t) :
    L.Matches (Eval.stmt setting (fuel + 1) s) (Eval.stmt setting' (fuel' + 1) t)
      L.SameFlow := by
  have logged := lawful.matches_record (.executed same.line)
  rw [Eval.stmt.eq_def, Eval.stmt.eq_def]
  dsimp only
  apply bind logged
  intro _ _ _
  cases same with
  | assign target value lines =>
    apply bind (less.expr value)
    intro v w same
    apply bind (assign lines same target)
    intro _ _ _
    exact pure .next
  | call expr =>
    apply bind (less.expr expr)
    intro _ _ _
    exact pure .next
  | branch test yes no lines =>
    apply bind (less.condition .ifWord test)
    intro taken taken' same
    cases same
    cases taken with
    | true => exact less.block yes
    | false =>
      cases no with
      | some no => exact less.block no
      | none => exact pure .next
  | loop test body lines => exact less.loop test body
  | ret value lines =>
    cases value with
    | none => exact pure (.returned (.plain trivial))
    | some value =>
      apply bind (less.expr value)
      intro v w same
      exact pure (.returned same)

end Matched

/-- Both evaluations have the same fuel, or the right one has more and the left one may be cut short
by running out of it. -/
def Fuelled (L : Likeness) (fuel fuel' : Nat) : Prop :=
  fuel = fuel' ∨ fuel ≤ fuel' ∧ ∀ {c d}, L.console c d → L.cut .outOfFuel c d

theorem Fuelled.starved {α β : Type} (fuelled : L.Fuelled 0 fuel') {y : Eval β}
    (spent : fuel' = 0 → y = Eval.stop .outOfFuel) {V : α → β → Prop} :
    L.Matches (Eval.stop .outOfFuel : Eval α) y V := by
  rcases fuelled with empty | ⟨-, cut⟩
  · rw [spent empty.symm]
    exact .stop .outOfFuel
  · exact .cut cut

theorem Fuelled.pred (fuelled : L.Fuelled (fuel + 1) fuel') :
    ∃ less, fuel' = less + 1 ∧ L.Fuelled fuel less := by
  rcases fuelled with rfl | ⟨more, cut⟩
  · exact ⟨fuel, rfl, .inl rfl⟩
  · obtain ⟨less, rfl⟩ := Nat.exists_eq_succ_of_ne_zero (Nat.ne_zero_of_lt more)
    exact ⟨less, rfl, .inr ⟨Nat.le_of_succ_le_succ more, cut⟩⟩

/-- Evaluation matches, with any fuel. -/
theorem matched (lawful : L.Lawful setting setting') (fuelled : L.Fuelled fuel fuel') :
    L.Matched setting setting' fuel fuel' := by
  induction fuel generalizing fuel' with
  | zero =>
    constructor <;> intros
    case expr =>
      rw [Eval.expr]
      exact fuelled.starved fun spent => by rw [spent, Eval.expr]
    case exprs =>
      rw [Eval.exprs]
      exact fuelled.starved fun spent => by rw [spent, Eval.exprs]
    case callNamed =>
      rw [Eval.callNamed]
      exact fuelled.starved fun spent => by rw [spent, Eval.callNamed]
    case callMethod =>
      rw [Eval.callMethod]
      exact fuelled.starved fun spent => by rw [spent, Eval.callMethod]
    case callValue =>
      rw [Eval.callValue]
      exact fuelled.starved fun spent => by rw [spent, Eval.callValue]
    case pass =>
      rw [Eval.pass]
      exact fuelled.starved fun spent => by rw [spent, Eval.pass]
    case invoke =>
      rw [Eval.invoke]
      exact fuelled.starved fun spent => by rw [spent, Eval.invoke]
    case invocation =>
      rw [Eval.invocation]
      exact fuelled.starved fun spent => by rw [spent, Eval.invocation]
    case body =>
      rw [Eval.body]
      exact fuelled.starved fun spent => by rw [spent, Eval.body]
    case stmts =>
      rw [Eval.stmts]
      exact fuelled.starved fun spent => by rw [spent, Eval.stmts]
    case block =>
      rw [Eval.block]
      exact fuelled.starved fun spent => by rw [spent, Eval.block]
    case stmt =>
      rw [Eval.stmt]
      exact fuelled.starved fun spent => by rw [spent, Eval.stmt]
    case loop =>
      rw [Eval.loop]
      exact fuelled.starved fun spent => by rw [spent, Eval.loop]
    case condition =>
      rw [Eval.condition]
      exact fuelled.starved fun spent => by rw [spent, Eval.condition]
  | succ fuel ih =>
    obtain ⟨fuel', rfl, rest⟩ := fuelled.pred
    have less := ih rest
    exact {
      expr := less.expr_succ lawful
      exprs := less.exprs_succ
      callNamed := less.callNamed_succ lawful
      callMethod := less.callMethod_succ
      callValue := less.callValue_succ
      pass := less.pass_succ
      invoke := less.invoke_succ
      invocation := less.invocation_succ lawful
      body := less.body_succ
      stmts := less.stmts_succ
      block := less.block_succ
      stmt := less.stmt_succ lawful
      loop := less.loop_succ
      condition := less.condition_succ }

end Likeness

end Protoscript
