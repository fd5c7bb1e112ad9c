import Protoscript.Evaluation
import Protoscript.Proofs.Discipline.Steps

/-! # Disciplined evaluation

Evaluation keeps to every lawful discipline: `Lawful.kept`, by induction on the fuel.  There is one
lemma for each evaluating function, which assumes of less fuel that all of them keep to the
discipline. -/

set_option autoImplicit false

namespace Protoscript

open Eval (Passed)

namespace Discipline

variable (D : Discipline) (setting : Setting)

/-- The receiver of a method, if there is one, is an object that the discipline allows. -/
def Received (m : Machine) (this : Option ObjectId) : Prop :=
  ∀ o, this = some o → D.value m.store (.object o)

theorem Received.none {D : Discipline} {m : Machine} : D.Received m none := by
  intro o same
  cases same

/-- The closure that is called, if it is one, is a value that the discipline allows. -/
def Closed (m : Machine) (closure : Option Closure) : Prop :=
  ∀ c, closure = some c → D.value m.store (.closure c)

theorem Closed.none {D : Discipline} {m : Machine} : D.Closed m none := by
  intro c same
  cases same

theorem Closed.of_code? {D : Discipline} {m : Machine} {callee : Value} {d : Definition}
    {closure : Option Closure} (value : D.value m.store callee)
    (code : callee.code? = some (d, closure)) : D.Closed m closure := by
  rintro c rfl
  cases callee with
  | closure c' =>
    cases code
    exact value
  | _ => cases code

/-- What a call gives before it writes back. -/
def Called (m : Machine) (ended : Value × List (String × Value)) : Prop :=
  D.value m.store ended.1 ∧ D.Returns m ended.2

/-- What a body gives for its arguments: a value, and values for some of the variables that they
name. -/
def Finished (passed : List Passed) (s : Store) (ended : Value × List (String × Value)) : Prop :=
  D.value s ended.1 ∧ ∀ w ∈ ended.2, D.value s w.2 ∧ ∃ a ∈ passed, a.source = some w.1

/-- If the flow ends in a returned value, it is one that the discipline allows. -/
def Flowed (s : Store) (flow : Flow) : Prop := D.value s flow.value

/-- The arguments of a call that is code of the discipline: they are code of it themselves, and it
knows that the variables among them may be written. -/
structure Passes (args : List Expr) : Prop where
  code : ∀ a ∈ args, D.code (.expr a)
  writes : ∀ x place, Expr.var x place ∈ args → D.Writes x

theorem Passes.tail {D : Discipline} {a : Expr} {as : List Expr} (passes : D.Passes (a :: as)) :
    D.Passes as where
  code b among := passes.code b (List.mem_cons_of_mem a among)
  writes x place among := passes.writes x place (List.mem_cons_of_mem a among)

/-- A discipline of all code has every call pass its arguments. -/
theorem Passes.of_all {D : Discipline} (all : ∀ t, D.code t) (args : List Expr) :
    D.Passes args where
  code a _ := all (.expr a)
  writes x place _ :=
    ⟨.expr (.call "" [.var x place] place), all _, place, List.mem_singleton_self _⟩

/-- With so much fuel, all evaluating functions keep to the discipline on code of it. -/
structure Kept (fuel : Nat) : Prop where
  expr : ∀ m e, D.code (.expr e) → D.Keeps .expression m (Eval.expr setting fuel e) D.Valued
  exprs : ∀ m es, (∀ e ∈ es, D.code (.expr e)) →
    D.Keeps .expression m (Eval.exprs setting fuel es)
      fun after vs => ∀ v ∈ vs, D.value after.store v
  callNamed : ∀ m callee args line, D.Passes args →
    D.Keeps .expression m (Eval.callNamed setting fuel callee args line) D.Valued
  callMethod : ∀ m object name args line, D.code (.expr object) → D.Passes args →
    D.Keeps .expression m (Eval.callMethod setting fuel object name args line) D.Valued
  callValue : ∀ m callee args this line, D.Passes args → D.value m.store callee →
    D.Received m this →
    D.Keeps .expression m (Eval.callValue setting fuel callee args this line) D.Valued
  pass : ∀ m function ps as, D.Passes as →
    D.Keeps .expression m (Eval.pass setting fuel function ps as)
      fun after passed => ∀ a ∈ passed, D.Given after a
  invoke : ∀ m d closure passed this line, D.code (.definition d) → D.Closed m closure →
    (∀ a ∈ passed, D.Given m a) → D.Received m this →
    D.Keeps .expression m (Eval.invoke setting fuel d closure passed this line) D.Valued
  invocation : ∀ m d closure passed this line, D.code (.definition d) → D.Closed m closure →
    (∀ a ∈ passed, D.Given m a) → D.Received m this →
    D.Keeps .expression m (Eval.invocation setting fuel d closure passed this line) D.Called
  body : ∀ m d passed this, D.code (.definition d) → (∀ a ∈ passed, D.value m.store a.value) →
    D.Received m this →
    D.Keeps .expression m (Eval.body setting fuel d passed this) fun after ended =>
      D.Finished passed after.store ended
  stmts : ∀ m ss, (∀ s ∈ ss, D.code (.stmt s)) →
    D.Keeps .statement m (Eval.stmts setting fuel ss) fun after flow => D.Flowed after.store flow
  block : ∀ m ss, (∀ s ∈ ss, D.code (.stmt s)) →
    D.Keeps .expression m (Eval.block setting fuel ss) fun after flow => D.Flowed after.store flow
  stmt : ∀ m s, D.code (.stmt s) → D.Keeps .statement m (Eval.stmt setting fuel s)
    fun after flow => D.Flowed after.store flow
  loop : ∀ m test body, D.code (.expr test) → (∀ s ∈ body, D.code (.stmt s)) →
    D.Keeps .expression m (Eval.loop setting fuel test body)
      fun after flow => D.Flowed after.store flow
  condition : ∀ m word test, D.code (.expr test) →
    D.Keeps .expression m (Eval.condition setting fuel word test) fun _ _ => True

variable {D setting} {fuel : Nat}

namespace Lawful

variable (L : D.Lawful setting) (less : D.Kept setting fuel) (m : Machine)

include L less

theorem keeps_expr (e : Expr) (code : D.code (.expr e)) :
    D.Keeps .expression m (Eval.expr setting (fuel + 1) e) D.Valued := by
  have plain : ∀ {v : Value}, v.IsPlain →
      D.Keeps .expression m (pure v : Eval Value) D.Valued :=
    fun is => L.keeps_pure fun _ => L.plain _ _ is
  cases e with
  | int n place =>
    rw [Eval.expr]
    exact plain trivial
  | bool b place =>
    rw [Eval.expr]
    exact plain trivial
  | str text place =>
    rw [Eval.expr]
    exact plain trivial
  | nil place =>
    rw [Eval.expr]
    exact plain trivial
  | object place =>
    rw [Eval.expr]
    exact L.keeps_newObject
  | lambda d =>
    rw [Eval.expr]
    exact L.keeps_newClosure code
  | var name place =>
    rw [Eval.expr]
    exact L.keeps_lookup
  | member object field place =>
    rw [Eval.expr]
    apply L.keeps_bind (less.expr m object (L.part (.member object field place) code))
    intro v after _ _ value
    exact L.keeps_memberOf value
  | call callee args place =>
    rw [Eval.expr]
    refine less.callNamed m callee args place.line ⟨?_, ?_⟩
    · exact fun a among => L.part (.argument among callee place) code
    · exact fun x p among => ⟨_, code, p, among⟩
  | method object name args place =>
    rw [Eval.expr]
    refine less.callMethod m object name args place.line
      (L.part (.receiver object name args place) code) ⟨?_, ?_⟩
    · exact fun a among => L.part (.methodArgument among object name place) code
    · exact fun x p among => ⟨_, code, p, among⟩
  | binary op left right place =>
    rw [Eval.expr]
    apply L.keeps_bind (less.expr m left (L.part (.left op left right place) code))
    intro l m₁ _ _ _
    apply L.keeps_bind (less.expr m₁ right (L.part (.right op left right place) code))
    intro r m₂ _ _ _
    exact L.keeps_attempt fun v => OperatorTable.isPlain_of_eval
  | unary op operand place =>
    rw [Eval.expr]
    apply L.keeps_bind (less.expr m operand (L.part (.operand op operand place) code))
    intro v after _ _ _
    exact L.keeps_attempt fun w => UnaryOp.isPlain_of_eval

theorem keeps_exprs (es : List Expr) (code : ∀ e ∈ es, D.code (.expr e)) :
    D.Keeps .expression m (Eval.exprs setting (fuel + 1) es)
      fun after vs => ∀ v ∈ vs, D.value after.store v := by
  cases es with
  | nil =>
    rw [Eval.exprs]
    apply L.keeps_pure
    intro _ v member
    cases member
  | cons e es =>
    rw [Eval.exprs]
    apply L.keeps_bind (less.expr m e (code e List.mem_cons_self))
    intro v m₁ _ _ value
    apply L.keeps_bind (less.exprs m₁ es fun f among => code f (List.mem_cons_of_mem e among))
    intro vs m₂ _ rel values
    apply L.keeps_pure
    intro _ w member
    rcases List.mem_cons.mp member with rfl | member
    · exact L.value_rel rel value
    · exact values w member

theorem keeps_callNamed (callee : String) (args : List Expr) (line : Nat)
    (passes : D.Passes args) :
    D.Keeps .expression m (Eval.callNamed setting (fuel + 1) callee args line) D.Valued := by
  rw [Eval.callNamed]
  split
  · apply L.keeps_bind (less.exprs m args passes.code)
    intro values m₁ _ _ _
    apply L.keeps_bind L.keeps_interact
    intro found m₂ _ _ value
    cases found with
    | some v => exact L.keeps_pure fun _ => value v rfl
    | none => exact L.keeps_fail
  · apply L.keeps_bind L.keeps_binding?
    intro found after holds _ same
    obtain ⟨-, rfl, rfl⟩ := same
    cases bound : after.get? callee with
    | some v =>
      dsimp only
      split
      · exact less.callValue after v args none line passes (L.binding holds bound) .none
      · exact L.keeps_fail
    | none =>
      dsimp only
      split
      · next d found =>
        refine less.callValue after _ args none line passes ?_ .none
        exact L.function _ callee d (FunctionTable.mem_overloads found)
      · split
        · exact L.keeps_fail
        · exact L.keeps_fail

theorem keeps_callMethod (object : Expr) (name : String) (args : List Expr) (line : Nat)
    (code : D.code (.expr object)) (passes : D.Passes args) :
    D.Keeps .expression m (Eval.callMethod setting (fuel + 1) object name args line) D.Valued := by
  rw [Eval.callMethod]
  apply L.keeps_bind (less.expr m object code)
  intro receiver m₁ _ _ value
  apply L.keeps_bind (L.keeps_objectOf value)
  intro o m₂ holds _ received
  apply L.keeps_get
  split
  · exact L.keeps_fail
  · next v found =>
    split
    · refine less.callValue m₂ v args (some o) line passes (L.member holds received found) ?_
      intro p same
      cases same
      exact received
    · exact L.keeps_fail

theorem keeps_callValue (callee : Value) (args : List Expr) (this : Option ObjectId) (line : Nat)
    (passes : D.Passes args) (value : D.value m.store callee) (received : D.Received m this) :
    D.Keeps .expression m (Eval.callValue setting (fuel + 1) callee args this line) D.Valued := by
  rw [Eval.callValue]
  split
  · exact L.keeps_fail
  · next d closure code =>
    split
    · apply L.keeps_bind (less.pass m d.name d.params args passes)
      intro passed after _ rel given
      refine less.invoke after d closure passed this line (L.called value code) ?_ given ?_
      · exact fun c is => L.value_rel rel (Closed.of_code? value code c is)
      · exact fun o is => L.value_rel rel (received o is)
    · exact L.keeps_fail

theorem keeps_pass (function : String) (ps : List Param) (as : List Expr)
    (passes : D.Passes as) :
    D.Keeps .expression m (Eval.pass setting (fuel + 1) function ps as)
      fun after passed => ∀ a ∈ passed, D.Given after a := by
  match ps, as with
  | p :: ps, a :: as =>
    rw [Eval.pass]
    apply L.keeps_bind (less.expr m a (passes.code a List.mem_cons_self))
    intro v m₁ _ _ value
    have writes : ∀ x place, a = .var x place → D.Writes x := by
      intro x place same
      subst same
      exact passes.writes x place List.mem_cons_self
    apply L.keeps_bind (L.keeps_sourceOf writes)
    intro source m₂ _ rel₂ named
    apply L.keeps_bind (less.pass m₂ function ps as passes.tail)
    intro rest m₃ _ rel₃ given
    apply L.keeps_pure
    intro _ b member
    rcases List.mem_cons.mp member with rfl | member
    · exact L.given_mono rel₃ ⟨L.value_rel rel₂ value, named⟩
    · exact given b member
  | [], as =>
    rw [Eval.pass.eq_def]
    apply L.keeps_pure
    intro _ b member
    cases member
  | _ :: _, [] =>
    rw [Eval.pass.eq_def]
    apply L.keeps_pure
    intro _ b member
    cases member

theorem keeps_invoke (d : Definition) (closure : Option Closure) (passed : List Passed)
    (this : Option ObjectId) (line : Nat) (code : D.code (.definition d))
    (closed : D.Closed m closure) (given : ∀ a ∈ passed, D.Given m a)
    (received : D.Received m this) :
    D.Keeps .expression m (Eval.invoke setting (fuel + 1) d closure passed this line) D.Valued := by
  rw [Eval.invoke]
  apply L.keeps_bind (less.invocation m d closure passed this line code closed given received)
  intro ended m₁ _ _ called
  obtain ⟨value, returns⟩ := called
  apply L.keeps_bind (L.keeps_writeBack returns)
  intro _ m₂ _ rel _
  exact L.keeps_pure fun _ => L.value_rel rel value

theorem keeps_called (d : Definition) (closure : Option Closure) (passed : List Passed)
    (this : Option ObjectId) (code : D.code (.definition d)) (closed : D.Closed m closure)
    (values : ∀ a ∈ passed, D.value m.store a.value) (received : D.Received m this) :
    D.Keeps .expression m (Eval.onCaptured closure (Eval.body setting fuel d passed this))
      fun after ended => D.Finished passed after.store ended := by
  cases closure with
  | none => exact less.body m d passed this code values received
  | some c =>
    refine L.keeps_onCaptured (D.Finished passed) (closed c rfl) ?_
    exact less.body (m.onFrame c.captured) d passed this code values received

theorem keeps_invocation (d : Definition) (closure : Option Closure) (passed : List Passed)
    (this : Option ObjectId) (line : Nat) (code : D.code (.definition d))
    (closed : D.Closed m closure) (given : ∀ a ∈ passed, D.Given m a)
    (received : D.Received m this) :
    D.Keeps .expression m (Eval.invocation setting (fuel + 1) d closure passed this line)
      D.Called := by
  rw [Eval.invocation]
  apply L.keeps_get
  dsimp only
  split
  · exact L.keeps_fail
  · next allowed =>
    have counted : D.Keeps .expression m
        (Eval.counted d closure.isSome
          (Eval.onCaptured closure (Eval.body setting fuel d passed this)))
        fun after ended => D.Finished passed after.store ended := by
      refine L.keeps_counted (D.Finished passed) allowed ?_
      have values : ∀ a ∈ passed, D.value m.store a.value := fun a among => (given a among).value
      exact L.keeps_called less _ d closure passed this code closed values received
    refine counted.imp ?_
    intro ended after rel finished
    obtain ⟨value, back⟩ := finished
    refine ⟨value, ?_⟩
    intro w member
    obtain ⟨returned, a, among, source⟩ := back w member
    exact ⟨returned, L.named_mono rel ((given a among).source _ source)⟩

theorem keeps_body (d : Definition) (passed : List Passed) (this : Option ObjectId)
    (code : D.code (.definition d)) (values : ∀ a ∈ passed, D.value m.store a.value)
    (received : D.Received m this) :
    D.Keeps .expression m (Eval.body setting (fuel + 1) d passed this) fun after ended =>
      D.Finished passed after.store ended := by
  rw [Eval.body]
  refine L.keeps_inScope (D.Finished passed) ?_
  intro into
  apply L.keeps_bind (L.keeps_bindParams fun a among => into _ (values a among))
  intro _ m₁ _ rel₁ _
  apply L.keeps_bind (L.keeps_bindThis fun o is => L.value_rel rel₁ (into _ (received o is)))
  intro _ m₂ _ _ _
  apply L.keeps_bind (less.stmts m₂ d.body fun s among => L.part (.body among) code)
  intro flow m₃ _ _ value
  refine L.keeps_get (L.keeps_pure ?_)
  intro holds
  exact ⟨value, L.finalValues_of_holds (L.narrow holds)⟩

theorem keeps_stmts (ss : List Stmt) (code : ∀ s ∈ ss, D.code (.stmt s)) :
    D.Keeps .statement m (Eval.stmts setting (fuel + 1) ss)
      fun after flow => D.Flowed after.store flow := by
  cases ss with
  | nil =>
    rw [Eval.stmts]
    exact L.keeps_pure fun _ => L.plain _ .nil trivial
  | cons s rest =>
    rw [Eval.stmts]
    apply L.keeps_bind (less.stmt m s (code s List.mem_cons_self))
    intro flow after _ _ value
    cases flow with
    | next => exact less.stmts after rest fun t among => code t (List.mem_cons_of_mem s among)
    | returned v => exact L.keeps_pure fun _ => value

theorem keeps_block (ss : List Stmt) (code : ∀ s ∈ ss, D.code (.stmt s)) :
    D.Keeps .expression m (Eval.block setting (fuel + 1) ss)
      fun after flow => D.Flowed after.store flow := by
  rw [Eval.block]
  refine L.keeps_inScope D.Flowed ?_
  intro _
  exact less.stmts m.push ss code

/-- A statement that is no assignment to a single name leaves as little behind as an expression. -/
theorem keeps_stmt_of_ne (s : Stmt) (code : D.code (.stmt s))
    (quiet : ∀ x value place, s ≠ .assign [x] value place) :
    D.Keeps .expression m (Eval.stmt setting (fuel + 1) s)
      fun after flow => D.Flowed after.store flow := by
  have nothing : ∀ {m : Machine}, D.Keeps .expression m (pure .next : Eval Flow)
      fun after flow => D.Flowed after.store flow :=
    L.keeps_pure fun _ => L.plain _ .nil trivial
  have logged : ∀ {f : Unit → Eval Flow} {line : Nat},
      (∀ after, D.Keeps .expression after (f ()) fun after flow => D.Flowed after.store flow) →
      D.Keeps .expression m (Eval.record (.executed line) >>= f)
        fun after flow => D.Flowed after.store flow :=
    fun rest => L.keeps_bind (L.keeps_record _ trivial) fun _ after _ _ _ => rest after
  cases s with
  | assign target value place =>
    rw [Eval.stmt]
    refine logged fun m₁ =>
      L.keeps_bind (less.expr m₁ value (L.part (.assigned target value place) code)) ?_
    intro v m₂ _ _ given
    have several : ∀ x, target ≠ [x] := by
      intro x same
      subst same
      exact quiet x value place rfl
    apply L.keeps_bind (L.keeps_assign_of_ne given several)
    intro _ m₃ _ _ _
    exact nothing
  | call e =>
    rw [Eval.stmt]
    refine logged fun m₁ => L.keeps_bind (less.expr m₁ e (L.part (.called e) code)) ?_
    intro v m₂ _ _ _
    exact nothing
  | branch test yes no place =>
    rw [Eval.stmt.eq_def]
    dsimp only
    refine logged fun m₁ =>
      L.keeps_bind (less.condition m₁ .ifWord test (L.part (.tested test yes no place) code)) ?_
    intro taken m₂ _ _ _
    cases taken with
    | true => exact less.block m₂ yes fun t among => L.part (.yes among test no place) code
    | false =>
      cases no with
      | some no => exact less.block m₂ no fun t among => L.part (.no among test yes place) code
      | none => exact nothing
  | loop test body place =>
    rw [Eval.stmt]
    exact logged fun m₁ => less.loop m₁ test body (L.part (.repeated test body place) code)
      fun t among => L.part (.looped among test place) code
  | ret value place =>
    cases value with
    | none =>
      rw [Eval.stmt]
      exact logged fun m₁ => L.keeps_pure fun _ => L.plain _ .nil trivial
    | some value =>
      rw [Eval.stmt]
      refine logged fun m₁ =>
        L.keeps_bind (less.expr m₁ value (L.part (.returned value place) code)) ?_
      intro v m₂ _ _ value
      exact L.keeps_pure fun _ => value

theorem keeps_stmt (s : Stmt) (code : D.code (.stmt s)) :
    D.Keeps .statement m (Eval.stmt setting (fuel + 1) s)
      fun after flow => D.Flowed after.store flow := by
  by_cases single : ∃ x value place, s = .assign [x] value place
  · obtain ⟨x, value, place, rfl⟩ := single
    rw [Eval.stmt]
    apply L.keeps_bind (L.keeps_widen (L.keeps_record (.executed _) trivial))
    intro _ m₁ _ _ _
    apply L.keeps_bind
      (L.keeps_widen (less.expr m₁ value (L.part (.assigned [x] value place) code)))
    intro v m₂ _ _ value
    apply L.keeps_bind (L.keeps_assign value fun y same => ⟨_, code, same⟩)
    intro _ m₃ _ _ _
    exact L.keeps_pure fun _ => L.plain _ .nil trivial
  · refine L.keeps_widen (L.keeps_stmt_of_ne less m s code ?_)
    intro x value place is
    exact single ⟨x, value, place, is⟩

theorem keeps_loop (test : Expr) (body : List Stmt) (code : D.code (.expr test))
    (inside : ∀ s ∈ body, D.code (.stmt s)) :
    D.Keeps .expression m (Eval.loop setting (fuel + 1) test body)
      fun after flow => D.Flowed after.store flow := by
  rw [Eval.loop]
  apply L.keeps_bind (less.condition m .whileWord test code)
  intro again m₁ _ _ _
  cases again with
  | false => exact L.keeps_pure fun _ => L.plain _ .nil trivial
  | true =>
    apply L.keeps_bind (less.block m₁ body inside)
    intro flow m₂ _ _ value
    cases flow with
    | next => exact less.loop m₂ test body code inside
    | returned v => exact L.keeps_pure fun _ => value

theorem keeps_condition (word : Keyword) (test : Expr) (code : D.code (.expr test)) :
    D.Keeps .expression m (Eval.condition setting (fuel + 1) word test) fun _ _ => True := by
  rw [Eval.condition]
  apply L.keeps_bind (less.expr m test code)
  intro v after _ _ _
  split
  · exact L.keeps_pure fun _ => trivial
  · exact L.keeps_fail

omit less in
/-- Evaluation of its code keeps to the discipline, with any fuel. -/
theorem kept (fuel : Nat) : D.Kept setting fuel := by
  induction fuel with
  | zero =>
    constructor <;> intros
    case expr => rw [Eval.expr]; exact L.keeps_stop
    case exprs => rw [Eval.exprs]; exact L.keeps_stop
    case callNamed => rw [Eval.callNamed]; exact L.keeps_stop
    case callMethod => rw [Eval.callMethod]; exact L.keeps_stop
    case callValue => rw [Eval.callValue]; exact L.keeps_stop
    case pass => rw [Eval.pass]; exact L.keeps_stop
    case invoke => rw [Eval.invoke]; exact L.keeps_stop
    case invocation => rw [Eval.invocation]; exact L.keeps_stop
    case body => rw [Eval.body]; exact L.keeps_stop
    case stmts => rw [Eval.stmts]; exact L.keeps_stop
    case block => rw [Eval.block]; exact L.keeps_stop
    case stmt => rw [Eval.stmt]; exact L.keeps_stop
    case loop => rw [Eval.loop]; exact L.keeps_stop
    case condition => rw [Eval.condition]; exact L.keeps_stop
  | succ fuel less =>
    exact {
      expr := L.keeps_expr less
      exprs := L.keeps_exprs less
      callNamed := L.keeps_callNamed less
      callMethod := L.keeps_callMethod less
      callValue := L.keeps_callValue less
      pass := L.keeps_pass less
      invoke := L.keeps_invoke less
      invocation := L.keeps_invocation less
      body := L.keeps_body less
      stmts := L.keeps_stmts less
      block := L.keeps_block less
      stmt := L.keeps_stmt less
      loop := L.keeps_loop less
      condition := L.keeps_condition less }

omit less in
theorem kept_stmt_of_ne (fuel : Nat) (m : Machine) (s : Stmt) (code : D.code (.stmt s))
    (quiet : ∀ x value place, s ≠ .assign [x] value place) :
    D.Keeps .expression m (Eval.stmt setting fuel s)
      fun after flow => D.Flowed after.store flow := by
  cases fuel with
  | zero => rw [Eval.stmt]; exact L.keeps_stop
  | succ fuel => exact L.keeps_stmt_of_ne (L.kept fuel) m s code quiet

end Lawful

end Discipline

end Protoscript
