import Protoscript.Proofs.Discipline.Evaluation
import Protoscript.Proofs.Providers
import Protoscript.Proofs.Steadiness

/-! # Errors of disciplined evaluation

Three causes of errors are fallbacks: they stand where a guard in front has left nothing to be
wrong.  Built-ins raise none (`Builtin.Ordinary`), and usual steps raise none.  A call of a built-in
is made only if there is one of that name, a value is called only if it can be, and an assignment
has the target that stands in the code; so evaluation of the code of a discipline raises no
fallback, but for an assignment without a target if there is one in that code (`Lawful.sound`, by
induction on the fuel). -/

set_option autoImplicit false

namespace Protoscript

open Eval (Passed)

/-- Any cause but the fallbacks. -/
def RuntimeError.Cause.IsOrdinary : RuntimeError.Cause → Prop
  | .unknownBuiltin _ | .notCallable _ | .noTarget => False
  | _ => True

theorem RuntimeError.Cause.IsUsual.isOrdinary {cause : RuntimeError.Cause} (usual : cause.IsUsual) :
    cause.IsOrdinary := by
  cases cause <;> trivial

/-! ## Built-ins -/

namespace Builtin

/-- Whatever console the interaction starts on, it raises no fallback. -/
def Ordinary {α : Type} (x : Interaction α) : Prop :=
  ∀ c e after, x c = .error e after → e.cause.IsOrdinary

namespace Ordinary

variable {α β : Type}

theorem of_total {x : Interaction α} (total : ∀ c, ∃ a after, x c = .ok a after) : Ordinary x := by
  intro c e after ended
  obtain ⟨a, next, ended'⟩ := total c
  rw [ended'] at ended
  cases ended

theorem bind {x : Interaction α} {f : α → Interaction β} (first : Ordinary x)
    (second : ∀ a, Ordinary (f a)) : Ordinary (x >>= f) := by
  intro c e after ended
  change EStateM.bind x f c = _ at ended
  unfold EStateM.bind at ended
  cases begun : x c with
  | ok a between =>
    rw [begun] at ended
    exact second a between e after ended
  | error e' between =>
    rw [begun] at ended
    cases ended
    exact first c _ _ begun

theorem throw {cause : RuntimeError.Cause} {line : Nat} (ordinary : cause.IsOrdinary) :
    Ordinary (throw ⟨cause, line⟩ : Interaction α) := by
  rintro c _ _ ⟨⟩
  exact ordinary

theorem ask (args : List Value) (line : Nat) : Ordinary (ask args line) := by
  refine bind (of_total fun c => ?_) fun _ => bind (of_total fun c => ⟨_, _, rfl⟩) fun found => ?_
  · cases args <;> exact ⟨_, _, rfl⟩
  · cases found with
    | some text => exact of_total fun c => ⟨_, _, rfl⟩
    | none => exact throw trivial

theorem run (b : Builtin) (args : List Value) (line : Nat) : Ordinary (b.run args line) := by
  refine bind ?_ fun _ => ?_
  · unfold checkCount
    split
    · exact throw trivial
    · exact of_total fun c => ⟨_, _, rfl⟩
  · cases b with
    | print => exact of_total fun c => ⟨_, _, rfl⟩
    | inputi =>
      refine bind (ask args line) fun text => ?_
      split
      · exact of_total fun c => ⟨_, _, rfl⟩
      · exact throw trivial
    | inputs => exact bind (ask args line) fun text => of_total fun c => ⟨_, _, rfl⟩

theorem call? (provided : List Builtin) (name : String) (args : List Value) (line : Nat) :
    Ordinary (call? provided name args line) := by
  unfold Builtin.call?
  split
  · exact bind (run _ args line) fun v => of_total fun c => ⟨_, _, rfl⟩
  · exact of_total fun c => ⟨_, _, rfl⟩

end Ordinary

end Builtin

/-! ## Evaluation -/

namespace Discipline

variable (D : Discipline) (setting : Setting)

/-- What may be wrong with code of the discipline: nothing that a fallback stands for, but for an
assignment without a target if there is one. -/
def Live (cause : RuntimeError.Cause) : Prop :=
  cause.IsOrdinary ∨
    cause = .noTarget ∧ ∃ value place, D.code (.stmt (.assign [] value place))

/-- Started on `m`, if the discipline holds there, the step raises live causes alone. -/
def Sound {α : Type} (e : Extent) (m : Machine) (x : Eval α) : Prop :=
  D.holds e m → ∀ err after, x.run m = .error (.error err) after → D.Live err.cause

variable {D setting} {α β : Type} {e : Extent} {m : Machine}

namespace Sound

theorem of_usual {x : Eval α} (usual : x.Usual) : D.Sound e m x := by
  intro _ err after ended
  obtain ⟨cause, line, usual, same⟩ := usual.stops m _ after ended
  cases same
  exact .inl usual.isOrdinary

theorem starved : D.Sound e m (Eval.stop .outOfFuel : Eval α) :=
  fun _ _ _ ended => by cases ended

theorem bind {x : Eval α} {f : α → Eval β} {V : Machine → α → Prop} (first : D.Sound e m x)
    (keeps : D.Keeps e m x V)
    (second : ∀ a after, D.rel e m after → V after a → D.Sound e after (f a)) :
    D.Sound e m (x >>= f) := by
  intro holds err after ended
  rcases Eval.run_bind_eq_error ended with stopped | ⟨a, between, begun, stopped⟩
  · exact first holds err after stopped
  · have kept := (keeps holds).ends
    rw [begun] at kept
    exact second a between kept.rel (kept.result a between rfl) kept.holds err after stopped

theorem then_usual {x : Eval α} {f : α → Eval β} (first : D.Sound e m x)
    (later : ∀ a, (f a).Usual) : D.Sound e m (x >>= f) := by
  intro holds err after ended
  rcases Eval.run_bind_eq_error ended with stopped | ⟨a, between, -, stopped⟩
  · exact first holds err after stopped
  · obtain ⟨cause, line, usual, same⟩ := (later a).stops between _ after stopped
    cases same
    exact .inl usual.isOrdinary

/-- Behind a step that raises no fallback. -/
theorem bind_usual {x : Eval α} {f : α → Eval β} {V : Machine → α → Prop} (first : x.Usual)
    (keeps : D.Keeps e m x V)
    (second : ∀ a after, D.rel e m after → V after a → D.Sound e after (f a)) :
    D.Sound e m (x >>= f) :=
  bind (of_usual first) keeps second

theorem bind_get {f : Machine → Eval α} (sound : D.Sound e m (f m)) :
    D.Sound e m (Eval.get >>= f) := by
  intro holds err after ended
  have here : Eval.get.run m = .ok m m := rfl
  rw [Eval.run_bind_of_ok here] at ended
  exact sound holds err after ended

theorem bracket {σ : Type} {enter : Machine → σ × Machine}
    {aside : σ → List (Closure × Environment)} {leave : σ → Machine → Machine} {x : Eval α}
    (into : D.holds .expression m → D.holds e (enter m).2) (inner : D.Sound e (enter m).2 x) :
    D.Sound .expression m (Eval.bracket enter aside leave x) := by
  intro holds err after ended
  dsimp only [Eval.bracket] at ended
  split at ended
  · cases ended
  · next s last stopped =>
    cases ended
    exact inner (into holds) err last stopped

/-- A built-in that is called by its name gives a value or an error. -/
theorem builtin {name : String} (named : Builtin.isNamed Builtin.all name = true)
    (values : List Value) (line : Nat) :
    D.Sound .expression m (do
      match ← Eval.interact (Builtin.call? Builtin.all name values line) with
      | some value => return value
      | none => Eval.fail (.unknownBuiltin name) line) := by
  intro _ err after ended
  rcases Eval.run_bind_eq_error ended with stopped | ⟨found, between, answered, stopped⟩
  · dsimp only [Eval.interact, Eval.change] at stopped
    split at stopped
    · cases stopped
    · next raised =>
      cases stopped
      exact .inl (Builtin.Ordinary.call? _ _ _ _ _ _ _ raised)
  · cases found with
    | some v => cases stopped
    | none =>
      dsimp only [Eval.interact, Eval.change] at answered
      split at answered
      · next owned =>
        cases answered
        exact absurd owned ((Builtin.isNamed_iff values line _).mp named _)
      · cases answered

/-- An assignment raises a fallback if it has no target; then it is one that the code has. -/
theorem assign {target : List String} {value : Expr} {place : Position}
    (code : D.code (.stmt (.assign target value place))) (v : Value) (line : Nat) :
    D.Sound .statement m (Eval.assign target v line) := by
  cases target with
  | nil =>
    rintro _ _ _ ⟨⟩
    exact .inr ⟨rfl, value, place, code⟩
  | cons name names => exact .of_usual (.assign (List.cons_ne_nil _ _) v line)

end Sound

variable (D setting) in
/-- With so much fuel, no evaluating function raises a fallback on code of the discipline. -/
structure SoundWith (fuel : Nat) : Prop where
  expr : ∀ m e, D.code (.expr e) → D.Sound .expression m (Eval.expr setting fuel e)
  exprs : ∀ m es, (∀ e ∈ es, D.code (.expr e)) →
    D.Sound .expression m (Eval.exprs setting fuel es)
  callNamed : ∀ m callee args line, D.Passes args →
    D.Sound .expression m (Eval.callNamed setting fuel callee args line)
  callMethod : ∀ m object name args line, D.code (.expr object) → D.Passes args →
    D.Sound .expression m (Eval.callMethod setting fuel object name args line)
  callValue : ∀ m callee args this line, callee.isCallable = true → D.Passes args →
    D.value m.store callee → D.Received m this →
    D.Sound .expression m (Eval.callValue setting fuel callee args this line)
  pass : ∀ m function ps as, D.Passes as →
    D.Sound .expression m (Eval.pass setting fuel function ps as)
  invoke : ∀ m d closure passed this line, D.code (.definition d) → D.Closed m closure →
    (∀ a ∈ passed, D.Given m a) → D.Received m this →
    D.Sound .expression m (Eval.invoke setting fuel d closure passed this line)
  invocation : ∀ m d closure passed this line, D.code (.definition d) → D.Closed m closure →
    (∀ a ∈ passed, D.Given m a) → D.Received m this →
    D.Sound .expression m (Eval.invocation setting fuel d closure passed this line)
  body : ∀ m d passed this, D.code (.definition d) → (∀ a ∈ passed, D.value m.store a.value) →
    D.Received m this → D.Sound .expression m (Eval.body setting fuel d passed this)
  stmts : ∀ m ss, (∀ s ∈ ss, D.code (.stmt s)) →
    D.Sound .statement m (Eval.stmts setting fuel ss)
  block : ∀ m ss, (∀ s ∈ ss, D.code (.stmt s)) →
    D.Sound .expression m (Eval.block setting fuel ss)
  stmt : ∀ m s, D.code (.stmt s) → D.Sound .statement m (Eval.stmt setting fuel s)
  loop : ∀ m test body, D.code (.expr test) → (∀ s ∈ body, D.code (.stmt s)) →
    D.Sound .expression m (Eval.loop setting fuel test body)
  condition : ∀ m word test, D.code (.expr test) →
    D.Sound .expression m (Eval.condition setting fuel word test)

namespace Lawful

variable {fuel : Nat} (L : D.Lawful setting) (less : D.SoundWith setting fuel)

include L

theorem sound_widen {x : Eval α} (sound : D.Sound .expression m x) : D.Sound .statement m x :=
  fun holds => sound (L.narrow holds)

theorem sound_inScope {x : Eval α}
    (inner : (∀ v, D.value m.store v → D.value m.push.store v) → D.Sound .statement m.push x) :
    D.Sound .expression m (Eval.inScope x) := by
  intro holds
  have scope := L.scope holds
  exact Sound.bracket (fun _ => scope.holds) (inner scope.value) holds

theorem sound_onCaptured {c : Closure} {x : Eval α} (closure : D.value m.store (.closure c))
    (inner : D.Sound .expression (m.onFrame c.captured) x) :
    D.Sound .expression m (Eval.onCaptured (some c) x) := by
  unfold Eval.onCaptured
  exact .bracket (fun holds => (L.captured holds closure).holds) inner

theorem sound_counted {d : Definition} {closure : Bool} {x : Eval α}
    (allowed : setting.reached? m.depth = none)
    (inner : D.Sound .expression (m.enter d closure) x) :
    D.Sound .expression m (Eval.counted d closure x) :=
  Sound.bracket (fun holds => (L.counted holds allowed d closure).holds) inner

include less

theorem sound_expr (m : Machine) (e : Expr) (code : D.code (.expr e)) :
    D.Sound .expression m (Eval.expr setting (fuel + 1) e) := by
  have kept := L.kept fuel
  cases e with
  | int | bool | str | nil =>
    rw [Eval.expr]
    exact .of_usual (.pure _)
  | object place =>
    rw [Eval.expr]
    exact .of_usual .newObject
  | lambda d =>
    rw [Eval.expr]
    exact .of_usual (.newClosure d)
  | var name place =>
    rw [Eval.expr]
    exact .of_usual (.lookup _ _ _)
  | member object field place =>
    rw [Eval.expr]
    exact (less.expr m object (L.part (.member object field place) code)).then_usual fun _ =>
      .memberOf _ _ _
  | call callee args place =>
    rw [Eval.expr]
    exact less.callNamed m callee args place.line ⟨fun a among =>
      L.part (.argument among callee place) code, fun x p among => ⟨_, code, p, among⟩⟩
  | method object name args place =>
    rw [Eval.expr]
    exact less.callMethod m object name args place.line
      (L.part (.receiver object name args place) code) ⟨fun a among =>
        L.part (.methodArgument among object name place) code, fun x p among => ⟨_, code, p, among⟩⟩
  | binary op left right place =>
    rw [Eval.expr]
    have first := L.part (.left op left right place) code
    have second := L.part (.right op left right place) code
    refine (less.expr m left first).bind (kept.expr m left first) fun l m₁ _ _ => ?_
    exact (less.expr m₁ right second).then_usual fun r => .binary _ _ _ _ _
  | unary op operand place =>
    rw [Eval.expr]
    exact (less.expr m operand (L.part (.operand op operand place) code)).then_usual fun _ =>
      .unary _ _ _

theorem sound_exprs (m : Machine) (es : List Expr) (code : ∀ e ∈ es, D.code (.expr e)) :
    D.Sound .expression m (Eval.exprs setting (fuel + 1) es) := by
  have kept := L.kept fuel
  cases es with
  | nil =>
    rw [Eval.exprs]
    exact .of_usual (.pure _)
  | cons e es =>
    rw [Eval.exprs]
    have first := code e List.mem_cons_self
    have later : ∀ f ∈ es, D.code (.expr f) := fun f among => code f (List.mem_cons_of_mem e among)
    refine (less.expr m e first).bind (kept.expr m e first) fun v m₁ _ _ => ?_
    exact (less.exprs m₁ es later).then_usual fun vs => .pure _

theorem sound_callNamed (m : Machine) (callee : String) (args : List Expr) (line : Nat)
    (passes : D.Passes args) :
    D.Sound .expression m (Eval.callNamed setting (fuel + 1) callee args line) := by
  have kept := L.kept fuel
  rw [Eval.callNamed]
  split
  · next named =>
    refine (less.exprs m args passes.code).bind (kept.exprs m args passes.code) ?_
    exact fun values m₁ _ _ => .builtin named values line
  · refine .bind_usual (.binding? callee) L.keeps_binding? fun found after _ same => ?_
    obtain ⟨holds, rfl, rfl⟩ := same
    cases bound : after.get? callee with
    | some v =>
      dsimp only
      split
      · next callable =>
        exact less.callValue after v args none line callable passes (L.binding holds bound) .none
      · exact .of_usual (.fail trivial)
    | none =>
      dsimp only
      split
      · next d found =>
        refine less.callValue after (.function d) args none line rfl passes ?_ .none
        exact L.function _ callee d (FunctionTable.mem_overloads found)
      · split
        · exact .of_usual (.fail trivial)
        · exact .of_usual (.fail trivial)

theorem sound_callMethod (m : Machine) (object : Expr) (name : String) (args : List Expr)
    (line : Nat) (code : D.code (.expr object)) (passes : D.Passes args) :
    D.Sound .expression m (Eval.callMethod setting (fuel + 1) object name args line) := by
  have kept := L.kept fuel
  rw [Eval.callMethod]
  refine (less.expr m object code).bind (kept.expr m object code) fun receiver m₁ _ value => ?_
  refine .bind_usual (.objectOf _ _ _) (L.keeps_objectOf value) fun o m₂ _ received => ?_
  refine .bind_get ?_
  split
  · exact .of_usual (.fail trivial)
  · next v found =>
    split
    · next callable =>
      intro holds
      refine less.callValue m₂ v args (some o) line callable passes
        (L.member holds received found) ?_ holds
      intro p same
      cases same
      exact received
    · exact .of_usual (.fail trivial)

/-- Only what is callable is called. -/
theorem sound_callValue (m : Machine) (callee : Value) (args : List Expr) (this : Option ObjectId)
    (line : Nat) (callable : callee.isCallable = true) (passes : D.Passes args)
    (value : D.value m.store callee) (received : D.Received m this) :
    D.Sound .expression m (Eval.callValue setting (fuel + 1) callee args this line) := by
  rw [Eval.callValue]
  split
  · next none =>
    rw [Value.isCallable_eq, none] at callable
    cases callable
  · next d closure code =>
    split
    · refine (less.pass m d.name d.params args passes).bind
        ((L.kept fuel).pass m d.name d.params args passes) fun passed after rel given => ?_
      refine less.invoke after d closure passed this line (L.called value code) ?_ given ?_
      · exact fun c is => L.value_rel rel (Closed.of_code? value code c is)
      · exact fun o is => L.value_rel rel (received o is)
    · exact .of_usual (.fail trivial)

theorem sound_pass (m : Machine) (function : String) (ps : List Param) (as : List Expr)
    (passes : D.Passes as) :
    D.Sound .expression m (Eval.pass setting (fuel + 1) function ps as) := by
  have kept := L.kept fuel
  match ps, as with
  | p :: ps, a :: as =>
    rw [Eval.pass]
    have code := passes.code a List.mem_cons_self
    have writes : ∀ x place, a = .var x place → D.Writes x := by
      rintro x place rfl
      exact passes.writes x place List.mem_cons_self
    refine (less.expr m a code).bind (kept.expr m a code) fun v m₁ _ _ => ?_
    refine .bind_usual (.sourceOf _ _ _) (L.keeps_sourceOf writes) fun source m₂ _ _ => ?_
    exact (less.pass m₂ function ps as passes.tail).then_usual fun rest => .pure _
  | [], as =>
    rw [Eval.pass.eq_def]
    exact .of_usual (.pure _)
  | _ :: _, [] =>
    rw [Eval.pass.eq_def]
    exact .of_usual (.pure _)

omit L in
theorem sound_invoke (m : Machine) (d : Definition) (closure : Option Closure)
    (passed : List Passed) (this : Option ObjectId) (line : Nat) (code : D.code (.definition d))
    (closed : D.Closed m closure) (given : ∀ a ∈ passed, D.Given m a)
    (received : D.Received m this) :
    D.Sound .expression m (Eval.invoke setting (fuel + 1) d closure passed this line) := by
  rw [Eval.invoke]
  exact (less.invocation m d closure passed this line code closed given received).then_usual
    fun ended => .bind (.writeBack _) fun _ => .pure _

theorem sound_invocation (m : Machine) (d : Definition) (closure : Option Closure)
    (passed : List Passed) (this : Option ObjectId) (line : Nat) (code : D.code (.definition d))
    (closed : D.Closed m closure) (given : ∀ a ∈ passed, D.Given m a)
    (received : D.Received m this) :
    D.Sound .expression m
      (Eval.invocation setting (fuel + 1) d closure passed this line) := by
  have values : ∀ a ∈ passed, D.value m.store a.value := fun a among => (given a among).value
  rw [Eval.invocation]
  refine .bind_get ?_
  dsimp only
  split
  · exact .of_usual (.fail trivial)
  · next allowed =>
    refine L.sound_counted allowed ?_
    cases closure with
    | none => exact less.body _ d passed this code values received
    | some c =>
      exact L.sound_onCaptured (closed c rfl) (less.body _ d passed this code values received)

theorem sound_body (m : Machine) (d : Definition) (passed : List Passed) (this : Option ObjectId)
    (code : D.code (.definition d)) (values : ∀ a ∈ passed, D.value m.store a.value)
    (received : D.Received m this) :
    D.Sound .expression m (Eval.body setting (fuel + 1) d passed this) := by
  rw [Eval.body]
  refine L.sound_inScope fun into => ?_
  have params : D.Keeps .statement m.push (Eval.bindParams d.params passed) fun _ _ => True :=
    L.keeps_bindParams fun a among => into _ (values a among)
  refine .bind_usual (.bindParams _ _) params fun _ m₁ rel _ => ?_
  have receiver := L.keeps_bindThis fun o is => L.value_rel rel (into _ (received o is))
  refine .bind_usual (.bindThis _) receiver fun _ m₂ _ _ => ?_
  have inside : ∀ s ∈ d.body, D.code (.stmt s) := fun s among => L.part (.body among) code
  exact (less.stmts m₂ d.body inside).then_usual fun flow => .bind .get fun _ => .pure _

theorem sound_stmts (m : Machine) (ss : List Stmt) (code : ∀ s ∈ ss, D.code (.stmt s)) :
    D.Sound .statement m (Eval.stmts setting (fuel + 1) ss) := by
  cases ss with
  | nil =>
    rw [Eval.stmts]
    exact .of_usual (.pure _)
  | cons s rest =>
    rw [Eval.stmts]
    have first := code s List.mem_cons_self
    refine (less.stmt m s first).bind ((L.kept fuel).stmt m s first) fun flow after _ _ => ?_
    cases flow with
    | next => exact less.stmts after rest fun t among => code t (List.mem_cons_of_mem s among)
    | returned v => exact .of_usual (.pure _)

theorem sound_block (m : Machine) (ss : List Stmt) (code : ∀ s ∈ ss, D.code (.stmt s)) :
    D.Sound .expression m (Eval.block setting (fuel + 1) ss) := by
  rw [Eval.block]
  exact L.sound_inScope fun _ => less.stmts m.push ss code

theorem sound_stmt (m : Machine) (s : Stmt) (code : D.code (.stmt s)) :
    D.Sound .statement m (Eval.stmt setting (fuel + 1) s) := by
  have kept := L.kept fuel
  have logged : ∀ {f : Unit → Eval Flow} {line : Nat}, (∀ after, D.Sound .statement after (f ())) →
      D.Sound .statement m (Eval.record (.executed line) >>= f) := fun rest =>
    .bind_usual (.record _) (L.keeps_widen (L.keeps_record _ trivial)) fun _ after _ _ =>
      rest after
  cases s with
  | assign target value place =>
    rw [Eval.stmt]
    have within := L.part (.assigned target value place) code
    refine logged fun m₁ => (L.sound_widen (less.expr m₁ value within)).bind
      (L.keeps_widen (kept.expr m₁ value within)) fun v m₂ _ _ => ?_
    exact (Sound.assign code v place.line).then_usual fun _ => .pure _
  | call e =>
    rw [Eval.stmt]
    exact logged fun m₁ =>
      (L.sound_widen (less.expr m₁ e (L.part (.called e) code))).then_usual fun v => .pure _
  | branch test yes no place =>
    rw [Eval.stmt.eq_def]
    dsimp only
    have tested := L.part (.tested test yes no place) code
    refine logged fun m₁ => ?_
    refine (L.sound_widen (less.condition m₁ .ifWord test tested)).bind
      (L.keeps_widen (kept.condition m₁ .ifWord test tested)) fun taken m₂ _ _ => ?_
    cases taken with
    | true =>
      exact L.sound_widen (less.block m₂ yes fun t among =>
        L.part (.yes among test no place) code)
    | false =>
      cases no with
      | some no =>
        exact L.sound_widen (less.block m₂ no fun t among =>
          L.part (.no among test yes place) code)
      | none => exact .of_usual (.pure _)
  | loop test body place =>
    rw [Eval.stmt]
    exact logged fun m₁ => L.sound_widen (less.loop m₁ test body
      (L.part (.repeated test body place) code)
      fun t among => L.part (.looped among test place) code)
  | ret value place =>
    cases value with
    | none =>
      rw [Eval.stmt]
      exact logged fun m₁ => .of_usual (.pure _)
    | some value =>
      rw [Eval.stmt]
      have within := L.part (.returned value place) code
      exact logged fun m₁ =>
        (L.sound_widen (less.expr m₁ value within)).then_usual fun v => .pure _

theorem sound_loop (m : Machine) (test : Expr) (body : List Stmt) (code : D.code (.expr test))
    (inside : ∀ s ∈ body, D.code (.stmt s)) :
    D.Sound .expression m (Eval.loop setting (fuel + 1) test body) := by
  have kept := L.kept fuel
  rw [Eval.loop]
  refine (less.condition m .whileWord test code).bind (kept.condition m .whileWord test code)
    fun again m₁ _ _ => ?_
  cases again with
  | false => exact .of_usual (.pure _)
  | true =>
    refine (less.block m₁ body inside).bind (kept.block m₁ body inside) fun flow m₂ _ _ => ?_
    cases flow with
    | next => exact less.loop m₂ test body code inside
    | returned v => exact .of_usual (.pure _)

omit L in
theorem sound_condition (m : Machine) (word : Keyword) (test : Expr) (code : D.code (.expr test)) :
    D.Sound .expression m (Eval.condition setting (fuel + 1) word test) := by
  rw [Eval.condition]
  refine (less.expr m test code).then_usual fun v => ?_
  split
  · exact .pure _
  · exact .fail trivial

omit less in
/-- Evaluation of the code of a discipline raises no fallback, with any fuel. -/
theorem sound (fuel : Nat) : D.SoundWith setting fuel := by
  induction fuel with
  | zero =>
    constructor <;> intros
    case expr => rw [Eval.expr]; exact .starved
    case exprs => rw [Eval.exprs]; exact .starved
    case callNamed => rw [Eval.callNamed]; exact .starved
    case callMethod => rw [Eval.callMethod]; exact .starved
    case callValue => rw [Eval.callValue]; exact .starved
    case pass => rw [Eval.pass]; exact .starved
    case invoke => rw [Eval.invoke]; exact .starved
    case invocation => rw [Eval.invocation]; exact .starved
    case body => rw [Eval.body]; exact .starved
    case stmts => rw [Eval.stmts]; exact .starved
    case block => rw [Eval.block]; exact .starved
    case stmt => rw [Eval.stmt]; exact .starved
    case loop => rw [Eval.loop]; exact .starved
    case condition => rw [Eval.condition]; exact .starved
  | succ fuel less =>
    exact {
      expr := L.sound_expr less
      exprs := L.sound_exprs less
      callNamed := L.sound_callNamed less
      callMethod := L.sound_callMethod less
      callValue := L.sound_callValue less
      pass := L.sound_pass less
      invoke := sound_invoke less
      invocation := L.sound_invocation less
      body := L.sound_body less
      stmts := L.sound_stmts less
      block := L.sound_block less
      stmt := L.sound_stmt less
      loop := L.sound_loop less
      condition := sound_condition less }

end Lawful

end Discipline

end Protoscript
