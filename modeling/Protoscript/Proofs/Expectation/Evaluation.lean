import Protoscript.Proofs.Expectation
import Protoscript.Proofs.Likeness.Runs

/-! # Expected evaluation

Evaluation stops only as a lawful expectation says, if it has enough fuel: `Lawful.expected`, by
induction on the fuel.  There is one lemma for each evaluating function, which assumes of less fuel
that all of them do.  `Lawful.stop_of_run` is the form for whole runs. -/

set_option autoImplicit false

namespace Protoscript

open Eval (Passed Usual)

namespace Expectation

open Likeness (SameFlow)

variable (X : Expectation) (L : Likeness) (setting : Setting)

/-- Expressions that the expectation is about. -/
def CodeExprs (es : List Expr) : Prop := ∀ e ∈ es, X.code (.expr e)

def CodeStmts (ss : List Stmt) : Prop := ∀ s ∈ ss, X.code (.stmt s)

/-- The value of a call and its write-backs are like themselves. -/
structure Called (ended : Value × List (String × Value)) : Prop where
  value : L.SameValue ended.1 ended.1
  returns : L.SameReturns ended.2 ended.2

/-- With so much fuel, if it is enough, all evaluating functions stop as expected. -/
structure Expected (fuel : Nat) : Prop where
  expr : ∀ {e}, X.code (.expr e) → ∀ {depth}, X.enough fuel (cost e) depth →
    X.Settles L depth (Eval.expr setting fuel e) fun v => L.SameValue v v
  exprs : ∀ {es}, X.CodeExprs es → ∀ {depth}, X.enough fuel (cost es) depth →
    X.Settles L depth (Eval.exprs setting fuel es) fun vs => List.Forall₂ L.SameValue vs vs
  callNamed : ∀ {callee}, L.code.name callee → ∀ {args}, X.CodeExprs args →
    ∀ {line}, L.code.line line line → ∀ {depth}, X.enough fuel (cost args + 7) depth →
    X.Settles L depth (Eval.callNamed setting fuel callee args line) fun v => L.SameValue v v
  callMethod : ∀ {object}, X.code (.expr object) → ∀ name {args}, X.CodeExprs args →
    ∀ {line}, L.code.line line line → ∀ {depth}, X.enough fuel (cost object + cost args + 7) depth →
    X.Settles L depth (Eval.callMethod setting fuel object name args line)
      fun v => L.SameValue v v
  callValue : ∀ {v}, L.SameValue v v → ∀ {args}, X.CodeExprs args →
    ∀ {this}, Option.Rel L.ids.SameObject this this → ∀ line {depth},
    X.enough fuel (cost args + 6) depth →
    X.Settles L depth (Eval.callValue setting fuel v args this line) fun v => L.SameValue v v
  pass : ∀ function ps {args}, X.CodeExprs args → ∀ {depth}, X.enough fuel (cost args) depth →
    X.Settles L depth (Eval.pass setting fuel function ps args)
      fun passed => L.SameArgs passed passed
  invoke : ∀ {d}, X.code (.definition d) → ∀ {closure}, Option.Rel L.SameClosure closure closure →
    ∀ {passed}, L.SameArgs passed passed → ∀ {this}, Option.Rel L.ids.SameObject this this →
    ∀ line {depth}, X.enough fuel 5 depth →
    X.Settles L depth (Eval.invoke setting fuel d closure passed this line)
      fun v => L.SameValue v v
  invocation : ∀ {d}, X.code (.definition d) →
    ∀ {closure}, Option.Rel L.SameClosure closure closure → ∀ {passed}, L.SameArgs passed passed →
    ∀ {this}, Option.Rel L.ids.SameObject this this → ∀ line {depth}, X.enough fuel 4 depth →
    X.Settles L depth (Eval.invocation setting fuel d closure passed this line) (Called L)
  body : ∀ {d}, X.code (.definition d) → ∀ {passed}, L.SameArgs passed passed →
    ∀ {this}, Option.Rel L.ids.SameObject this this → ∀ {depth}, X.enough fuel (cost d) depth →
    X.Settles L depth (Eval.body setting fuel d passed this) (Called L)
  stmts : ∀ {ss}, X.CodeStmts ss → ∀ {depth}, X.enough fuel (cost ss) depth →
    X.Settles L depth (Eval.stmts setting fuel ss) fun flow => L.SameFlow flow flow
  block : ∀ {ss}, X.CodeStmts ss → ∀ {depth}, X.enough fuel (cost ss + 1) depth →
    X.Settles L depth (Eval.block setting fuel ss) fun flow => L.SameFlow flow flow
  stmt : ∀ {s}, X.code (.stmt s) → ∀ {depth}, X.enough fuel (cost s) depth →
    X.Settles L depth (Eval.stmt setting fuel s) fun flow => L.SameFlow flow flow
  loop : ∀ {test body place}, X.code (.stmt (.loop test body place)) → ∀ {depth},
    X.Settles L depth (Eval.loop setting fuel test body) fun flow => L.SameFlow flow flow
  condition : ∀ word {test}, X.code (.expr test) → ∀ {depth}, X.enough fuel (cost test + 1) depth →
    X.Settles L depth (Eval.condition setting fuel word test) fun _ => True

variable {X L setting} {fuel : Nat}

theorem CodeExprs.head {e : Expr} {es : List Expr} (code : X.CodeExprs (e :: es)) :
    X.code (.expr e) :=
  code e List.mem_cons_self

theorem CodeExprs.tail {e : Expr} {es : List Expr} (code : X.CodeExprs (e :: es)) :
    X.CodeExprs es :=
  fun f among => code f (List.mem_cons_of_mem e among)

theorem CodeStmts.head {s : Stmt} {ss : List Stmt} (code : X.CodeStmts (s :: ss)) :
    X.code (.stmt s) :=
  code s List.mem_cons_self

theorem CodeStmts.tail {s : Stmt} {ss : List Stmt} (code : X.CodeStmts (s :: ss)) :
    X.CodeStmts ss :=
  fun t among => code t (List.mem_cons_of_mem s among)

namespace Lawful

variable (lawful : X.Lawful L setting) (less : X.Expected L setting fuel)

include lawful less

theorem settles_expr {e : Expr} (code : X.code (.expr e))
    {depth : Nat} (enough : X.enough (fuel + 1) (cost e) depth) :
    X.Settles L depth (Eval.expr setting (fuel + 1) e) fun v => L.SameValue v v := by
  have line : L.code.line e.position.line e.position.line := lawful.covers.line code
  have part : ∀ {f : Expr}, (Tree.expr f).PartOf (.expr e) → X.code (.expr f) :=
    fun inside => lawful.covers.part inside code
  cases e with
  | int | bool | str | nil =>
    rw [Eval.expr]
    exact .pure (.plain trivial)
  | object p =>
    rw [Eval.expr]
    exact lawful.settles_of_matches .newObject Usual.newObject.steady
  | lambda d =>
    have alike := lawful.covers.sameDefinition d (lawful.covers.part (.lambda d) code)
    rw [Eval.expr]
    exact lawful.settles_of_matches (.newClosure (lawful.covers.lambda code) alike)
      (Usual.newClosure d).steady
  | var name p =>
    have matched := lawful.alike.matches_lookup (lawful.covers.name code rfl) line
    rw [Eval.expr]
    exact lawful.settles_of_matches matched (Usual.lookup setting name p.line).steady
  | member object field p =>
    have smaller : cost object < cost (Expr.member object field p) := by
      simp only [cost, Expr.member.sizeOf_spec]
      omega
    rw [Eval.expr]
    apply Settles.bind (less.expr (part (.member object field p)) (lawful.spend enough smaller))
    intro v value
    exact lawful.settles_of_matches (.memberOf line value field)
      (Usual.memberOf v field p.line).steady
  | call callee args p =>
    have smaller : cost args + 7 < cost (Expr.call callee args p) := by
      simp only [cost, Expr.call.sizeOf_spec]
      omega
    have coded : X.CodeExprs args := fun _ among => part (.argument among callee p)
    rw [Eval.expr]
    exact less.callNamed (lawful.covers.name code rfl) coded line (lawful.spend enough smaller)
  | method object name args p =>
    have smaller : cost object + cost args + 7 < cost (Expr.method object name args p) := by
      simp only [cost, Expr.method.sizeOf_spec]
      omega
    have coded : X.CodeExprs args := fun _ among => part (.methodArgument among object name p)
    rw [Eval.expr]
    exact less.callMethod (part (.receiver object name args p)) name coded line
      (lawful.spend enough smaller)
  | binary op left right p =>
    have smaller : cost left < cost (Expr.binary op left right p) ∧
        cost right < cost (Expr.binary op left right p) := by
      simp only [cost, Expr.binary.sizeOf_spec]
      omega
    rw [Eval.expr]
    apply Settles.bind (less.expr (part (.left op left right p)) (lawful.spend enough smaller.1))
    intro l leftValue
    apply Settles.bind (less.expr (part (.right op left right p)) (lawful.spend enough smaller.2))
    intro r rightValue
    exact lawful.settles_of_matches (.attempt line rfl fun _ => OperatorTable.isPlain_of_eval)
      (Usual.binary _ _ _ _ _).steady
  | unary op operand p =>
    have smaller : cost operand < cost (Expr.unary op operand p) := by
      simp only [cost, Expr.unary.sizeOf_spec]
      omega
    rw [Eval.expr]
    apply Settles.bind (less.expr (part (.operand op operand p)) (lawful.spend enough smaller))
    intro v value
    exact lawful.settles_of_matches (.attempt line rfl fun _ => UnaryOp.isPlain_of_eval)
      (Usual.unary _ _ _).steady

theorem settles_exprs {es : List Expr} (code : X.CodeExprs es)
    {depth : Nat} (enough : X.enough (fuel + 1) (cost es) depth) :
    X.Settles L depth (Eval.exprs setting (fuel + 1) es)
      fun vs => List.Forall₂ L.SameValue vs vs := by
  cases es with
  | nil =>
    rw [Eval.exprs]
    exact .pure .nil
  | cons e es =>
    have smaller : cost e < cost (e :: es) ∧ cost es < cost (e :: es) := by
      simp only [cost, List.cons.sizeOf_spec]
      omega
    rw [Eval.exprs]
    apply Settles.bind (less.expr code.head (lawful.spend enough smaller.1))
    intro v value
    apply Settles.bind (less.exprs code.tail (lawful.spend enough smaller.2))
    intro vs values
    exact .pure (.cons value values)

theorem settles_callNamed {callee : String} (known : L.code.name callee) {args : List Expr}
    (code : X.CodeExprs args) {line : Nat} (here : L.code.line line line)
    {depth : Nat} (enough : X.enough (fuel + 1) (cost args + 7) depth) :
    X.Settles L depth (Eval.callNamed setting (fuel + 1) callee args line)
      fun v => L.SameValue v v := by
  have called : ∀ {v}, L.SameValue v v → X.Settles L depth
      (Eval.callValue setting fuel v args none line) fun v => L.SameValue v v :=
    fun value => less.callValue value code .none line (lawful.spend enough (by omega))
  rw [Eval.callNamed]
  split
  · apply Settles.bind (less.exprs code (lawful.spend enough (by omega)))
    intro values _
    apply Settles.bind (lawful.settles_interact callee values here)
    intro found plain
    cases found with
    | some v => exact .pure (.plain (plain v rfl))
    | none => exact lawful.settles_fail trivial
  · apply Settles.bind (lawful.settles_of_matches (.binding? callee) (Usual.binding? callee).steady)
    intro found bound
    cases bound with
    | some value =>
      dsimp only
      split
      · exact called value
      · exact lawful.settles_fail trivial
    | none =>
      have overload := lawful.alike.tables.get? known args.length
      dsimp only
      generalize setting.functions.get? callee args.length = d at overload ⊢
      cases overload with
      | some function => exact called (.function function)
      | none =>
        dsimp only
        split
        · exact lawful.settles_fail trivial
        · exact lawful.settles_fail trivial

theorem settles_callMethod {object : Expr} (code : X.code (.expr object)) (name : String)
    {args : List Expr} (coded : X.CodeExprs args) {line : Nat} (here : L.code.line line line)
    {depth : Nat} (enough : X.enough (fuel + 1) (cost object + cost args + 7) depth) :
    X.Settles L depth (Eval.callMethod setting (fuel + 1) object name args line)
      fun v => L.SameValue v v := by
  rw [Eval.callMethod]
  apply Settles.bind (less.expr code (lawful.spend enough (by omega)))
  intro receiver value
  apply Settles.bind
    (lawful.settles_of_matches (.objectOf here value name) (Usual.objectOf _ _ _).steady)
  intro o pair
  apply Settles.bind .get
  intro m at_
  have found := at_.same.store.getMember pair name
  generalize m.store.getMember o name = method at found ⊢
  cases found with
  | none => exact lawful.settles_fail trivial
  | some value =>
    dsimp only
    split
    · exact less.callValue value coded (.some pair) line (lawful.spend enough (by omega))
    · exact lawful.settles_fail trivial

theorem settles_callValue {v : Value} (value : L.SameValue v v) {args : List Expr}
    (coded : X.CodeExprs args) {this : Option ObjectId}
    (received : Option.Rel L.ids.SameObject this this) (line : Nat)
    {depth : Nat} (enough : X.enough (fuel + 1) (cost args + 6) depth) :
    X.Settles L depth (Eval.callValue setting (fuel + 1) v args this line)
      fun v => L.SameValue v v := by
  have called : ∀ {d}, X.code (.definition d) → ∀ {closure},
      Option.Rel L.SameClosure closure closure → X.Settles L depth
        (if d.arity = args.length then do
          let passed ← Eval.pass setting fuel d.name d.params args
          Eval.invoke setting fuel d closure passed this line
        else Eval.fail (.wrongCount d.name d.arity args.length) line) fun v => L.SameValue v v := by
    intro d code closure same
    split
    · apply Settles.bind (less.pass d.name d.params coded (lawful.spend enough (by omega)))
      intro passed values
      exact less.invoke code same values received line (lawful.spend enough (by omega))
    · exact lawful.settles_fail trivial
  rw [Eval.callValue]
  cases value with
  | plain plain =>
    cases v with
    | function d => cases plain
    | closure c => cases plain
    | _ => exact lawful.settles_fail trivial
  | function same => exact called (lawful.function same.known) .none
  | closure same => exact called (lawful.lambda same.known) (.some same)
  | object pair => exact lawful.settles_fail trivial

theorem settles_pass (function : String) (ps : List Param) {args : List Expr}
    (coded : X.CodeExprs args) {depth : Nat} (enough : X.enough (fuel + 1) (cost args) depth) :
    X.Settles L depth (Eval.pass setting (fuel + 1) function ps args)
      fun passed => L.SameArgs passed passed := by
  cases ps with
  | nil =>
    rw [Eval.pass.eq_def]
    exact .pure .nil
  | cons p ps =>
    cases args with
    | nil =>
      rw [Eval.pass.eq_def]
      exact .pure .nil
    | cons a as =>
      have smaller : cost a < cost (a :: as) ∧ cost as < cost (a :: as) := by
        simp only [cost, List.cons.sizeOf_spec]
        omega
      have same : L.code.SameExpr a a := lawful.covers.sameExpr a coded.head
      rw [Eval.pass]
      apply Settles.bind (less.expr coded.head (lawful.spend enough smaller.1))
      intro v value
      apply Settles.bind
        (lawful.settles_of_matches (.sourceOf function ⟨rfl, rfl⟩ same)
          (Usual.sourceOf function p a).steady)
      intro source _
      apply Settles.bind (less.pass function ps coded.tail (lawful.spend enough smaller.2))
      intro passed values
      exact .pure (.cons value values)

theorem settles_invoke {d : Definition} (code : X.code (.definition d)) {closure : Option Closure}
    (same : Option.Rel L.SameClosure closure closure) {passed : List Passed}
    (values : L.SameArgs passed passed) {this : Option ObjectId}
    (received : Option.Rel L.ids.SameObject this this) (line : Nat)
    {depth : Nat} (enough : X.enough (fuel + 1) 5 depth) :
    X.Settles L depth (Eval.invoke setting (fuel + 1) d closure passed this line)
      fun v => L.SameValue v v := by
  rw [Eval.invoke]
  apply Settles.bind
    (less.invocation code same values received line (lawful.spend enough (by omega)))
  intro ended called
  apply Settles.bind
    (lawful.settles_of_matches (.writeBack called.returns) (Usual.writeBack ended.2).steady)
  intro _ _
  exact .pure called.value

theorem settles_invocation {d : Definition} (code : X.code (.definition d))
    {closure : Option Closure} (same : Option.Rel L.SameClosure closure closure)
    {passed : List Passed} (values : L.SameArgs passed passed) {this : Option ObjectId}
    (received : Option.Rel L.ids.SameObject this this) (line : Nat)
    {depth : Nat} (enough : X.enough (fuel + 1) 4 depth) :
    X.Settles L depth (Eval.invocation setting (fuel + 1) d closure passed this line)
      (Called L) := by
  rw [Eval.invocation]
  apply lawful.settles_entered code closure.isSome line
  intro free
  exact .onCaptured (less.body code values received (lawful.call enough free code)) same

theorem settles_body {d : Definition} (code : X.code (.definition d)) {passed : List Passed}
    (values : L.SameArgs passed passed) {this : Option ObjectId}
    (received : Option.Rel L.ids.SameObject this this)
    {depth : Nat} (enough : X.enough (fuel + 1) (cost d) depth) :
    X.Settles L depth (Eval.body setting (fuel + 1) d passed this) (Called L) := by
  have smaller : cost d.body < cost d := by
    obtain ⟨name, params, body, position⟩ := d
    simp only [cost, Definition.mk.sizeOf_spec]
    omega
  have coded : X.CodeStmts d.body := fun _ among => lawful.covers.part (.body among) code
  have params := Code.sameParams_self d.params
  rw [Eval.body]
  apply Settles.inScope
  apply Settles.bind
    (lawful.settles_of_matches (.bindParams params values)
      (Usual.bindParams d.params passed).steady)
  intro _ _
  apply Settles.bind (lawful.settles_of_matches (.bindThis received) (Usual.bindThis this).steady)
  intro _ _
  apply Settles.bind (less.stmts coded (lawful.spend enough smaller))
  intro flow same
  apply Settles.bind .get
  intro m here
  exact .pure ⟨same.value, here.same.finalValues params rfl⟩

theorem settles_stmts {ss : List Stmt} (code : X.CodeStmts ss)
    {depth : Nat} (enough : X.enough (fuel + 1) (cost ss) depth) :
    X.Settles L depth (Eval.stmts setting (fuel + 1) ss) fun flow => L.SameFlow flow flow := by
  cases ss with
  | nil =>
    rw [Eval.stmts]
    exact .pure .next
  | cons s ss =>
    have smaller : cost s < cost (s :: ss) ∧ cost ss < cost (s :: ss) := by
      simp only [cost, List.cons.sizeOf_spec]
      omega
    rw [Eval.stmts]
    apply Settles.bind (less.stmt code.head (lawful.spend enough smaller.1))
    intro flow ended
    cases ended with
    | next => exact less.stmts code.tail (lawful.spend enough smaller.2)
    | returned value => exact .pure (.returned value)

theorem settles_block {ss : List Stmt} (code : X.CodeStmts ss)
    {depth : Nat} (enough : X.enough (fuel + 1) (cost ss + 1) depth) :
    X.Settles L depth (Eval.block setting (fuel + 1) ss) fun flow => L.SameFlow flow flow := by
  rw [Eval.block]
  exact .inScope (less.stmts code (lawful.spend enough (by omega)))

theorem settles_stmt {s : Stmt} (code : X.code (.stmt s))
    {depth : Nat} (enough : X.enough (fuel + 1) (cost s) depth) :
    X.Settles L depth (Eval.stmt setting (fuel + 1) s) fun flow => L.SameFlow flow flow := by
  have line : L.code.line s.position.line s.position.line := lawful.covers.line code
  rw [Eval.stmt.eq_def]
  dsimp only
  apply Settles.bind
    (lawful.settles_of_matches (lawful.alike.matches_record (.executed line))
      (Usual.record _).steady)
  intro _ _
  cases s with
  | assign target e p =>
    have smaller : cost e < cost (Stmt.assign target e p) := by
      simp only [cost, Stmt.assign.sizeOf_spec]
      omega
    have inside := lawful.covers.part (.assigned target e p) code
    apply Settles.bind (less.expr inside (lawful.spend enough smaller))
    intro v value
    apply Settles.bind
      (lawful.settles_of_matches (.assign line value target) (Usual.steady_assign target v p.line))
    intro _ _
    exact .pure .next
  | call e =>
    have smaller : cost e < cost (Stmt.call e) := by
      simp only [cost, Stmt.call.sizeOf_spec]
      omega
    have inside := lawful.covers.part (.called e) code
    apply Settles.bind (less.expr inside (lawful.spend enough smaller))
    intro _ _
    exact .pure .next
  | branch test yes no p =>
    have smaller : cost test + 1 < cost (Stmt.branch test yes no p) ∧
        cost yes + 1 < cost (Stmt.branch test yes no p) := by
      simp only [cost, Stmt.branch.sizeOf_spec]
      omega
    have tested := lawful.covers.part (.tested test yes no p) code
    apply Settles.bind (less.condition .ifWord tested (lawful.spend enough smaller.1))
    intro taken _
    cases taken with
    | true =>
      exact less.block (fun _ among => lawful.covers.part (.yes among test no p) code)
        (lawful.spend enough smaller.2)
    | false =>
      cases no with
      | none => exact .pure .next
      | some no =>
        have smaller : cost no + 1 < cost (Stmt.branch test yes (some no) p) := by
          simp only [cost, Stmt.branch.sizeOf_spec, Option.some.sizeOf_spec]
          omega
        exact less.block (fun _ among => lawful.covers.part (.no among test yes p) code)
          (lawful.spend enough smaller)
  | loop test body p => exact less.loop code
  | ret value p =>
    cases value with
    | none => exact .pure (.returned (.plain trivial))
    | some e =>
      have smaller : cost e < cost (Stmt.ret (some e) p) := by
        simp only [cost, Stmt.ret.sizeOf_spec, Option.some.sizeOf_spec]
        omega
      have inside := lawful.covers.part (.returned e p) code
      apply Settles.bind (less.expr inside (lawful.spend enough smaller))
      intro v value
      exact .pure (.returned value)

theorem settles_loop {test : Expr} {body : List Stmt} {place : Position}
    (code : X.code (.stmt (.loop test body place))) {depth : Nat} :
    X.Settles L depth (Eval.loop setting (fuel + 1) test body)
      fun flow => L.SameFlow flow flow := by
  have enough := lawful.loops code fuel
  have tested := lawful.covers.part (.repeated test body place) code
  have coded : X.CodeStmts body := fun _ among => lawful.covers.part (.looped among test place) code
  rw [Eval.loop]
  apply Settles.bind (less.condition .whileWord tested (enough _ _))
  intro again _
  cases again with
  | false => exact .pure .next
  | true =>
    apply Settles.bind (less.block coded (enough _ _))
    intro flow ended
    cases ended with
    | next => exact less.loop code
    | returned value => exact .pure (.returned value)

theorem settles_condition (word : Keyword) {test : Expr} (code : X.code (.expr test))
    {depth : Nat} (enough : X.enough (fuel + 1) (cost test + 1) depth) :
    X.Settles L depth (Eval.condition setting (fuel + 1) word test) fun _ => True := by
  rw [Eval.condition]
  apply Settles.bind (less.expr code (lawful.spend enough (by omega)))
  intro v _
  cases v.intToBool with
  | bool b => exact .pure trivial
  | _ => exact lawful.settles_fail trivial

omit less

theorem expected (fuel : Nat) : X.Expected L setting fuel := by
  induction fuel with
  | zero =>
    constructor <;> intros
    case expr enough =>
      rw [Eval.expr]
      exact lawful.settles_starved enough
    case exprs enough =>
      rw [Eval.exprs]
      exact lawful.settles_starved enough
    case callNamed enough =>
      rw [Eval.callNamed]
      exact lawful.settles_starved enough
    case callMethod enough =>
      rw [Eval.callMethod]
      exact lawful.settles_starved enough
    case callValue enough =>
      rw [Eval.callValue]
      exact lawful.settles_starved enough
    case pass enough =>
      rw [Eval.pass]
      exact lawful.settles_starved enough
    case invoke enough =>
      rw [Eval.invoke]
      exact lawful.settles_starved enough
    case invocation enough =>
      rw [Eval.invocation]
      exact lawful.settles_starved enough
    case body enough =>
      rw [Eval.body]
      exact lawful.settles_starved enough
    case stmts enough =>
      rw [Eval.stmts]
      exact lawful.settles_starved enough
    case block enough =>
      rw [Eval.block]
      exact lawful.settles_starved enough
    case stmt enough =>
      rw [Eval.stmt]
      exact lawful.settles_starved enough
    case loop code depth =>
      rw [Eval.loop]
      exact lawful.settles_starved (lawful.loops code 0 0 depth)
    case condition enough =>
      rw [Eval.condition]
      exact lawful.settles_starved enough
  | succ fuel less =>
    exact {
      expr := lawful.settles_expr less
      exprs := lawful.settles_exprs less
      callNamed := lawful.settles_callNamed less
      callMethod := lawful.settles_callMethod less
      callValue := lawful.settles_callValue less
      pass := lawful.settles_pass less
      invoke := lawful.settles_invoke less
      invocation := lawful.settles_invocation less
      body := lawful.settles_body less
      stmts := lawful.settles_stmts less
      block := lawful.settles_block less
      stmt := lawful.settles_stmt less
      loop := lawful.settles_loop less
      condition := lawful.settles_condition less }

/-- `main` starts with no call under way, whatever the machine. -/
theorem settles_main (enough : X.enough fuel 5 0) :
    X.Settles L 0 (Eval.main setting fuel) fun _ => True := by
  have function := lawful.alike.main
  unfold Eval.main
  generalize setting.functions.get? "main" 0 = main at function ⊢
  cases function with
  | none => exact lawful.settles_fail trivial
  | @some d _ function =>
    apply Settles.bind (.modify fun m here => ?_)
    · intro _ _
      apply Settles.bind (.modify fun m here => ?_)
      · intro _ _
        apply Settles.bind
          ((lawful.expected fuel).invoke (lawful.function function.known) .none .nil .none _ enough)
        intro _ _
        exact .pure trivial
      · exact ⟨⟨here.same.store.newFrame .empty, .ofFrame here.same.store.frames.next, rfl,
          here.same.console⟩, rfl⟩
    · exact ⟨⟨here.same.store, here.same.env, rfl, lawful.alike.started here.same.console⟩,
        here.depth⟩

end Lawful

/-- A run that stops does so as expected. -/
theorem Lawful.stop_of_run {p : Program} {maxDepth : Option Nat} {inputs : List String}
    (lawful : X.Lawful L (p.setting maxDepth)) (enough : X.enough fuel 5 0)
    (start : L.SameMachine (.start inputs) (.start inputs)) {s : Stop}
    (stopped : (p.run maxDepth inputs fuel).ending = s.ending) :
    X.stop s (p.run maxDepth inputs fuel).console := by
  have settled := lawful.settles_main enough (.start inputs) ⟨start, rfl⟩
  rw [p.run_eq] at stopped ⊢
  generalize (Eval.main (p.setting maxDepth) fuel).run (.start inputs) = out at settled stopped ⊢
  cases settled with
  | ok => cases s <;> cases stopped
  | @error t _ expected =>
    have same : t = s := by cases s <;> cases t <;> cases stopped <;> rfl
    exact same ▸ expected

end Expectation

end Protoscript
