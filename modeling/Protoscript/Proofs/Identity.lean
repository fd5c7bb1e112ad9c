import Protoscript.Proofs.DottedAssignment
import Protoscript.Proofs.Identity.Calls
import Protoscript.Proofs.OperatorRules

/-! # Identity

Functions are told apart by which definition of the program they are, closures and objects by the
step that made them.  A table has one definition for a signature, and in a run every function that
is obtained is the one that the table has, so there functions are equal just if their signatures are
(`Function.ComesFrom.id_eq_iff`).  What `@` or a lambda comes to is unequal to all that any slot has
held by then, for every value that is held was allocated (`Eval.exists_run_of_makes`).  Whatever
hands a value on, be it an assignment, a call or a closure that captures it, hands on that very
value (`Machine.HandsOn`).  And slots that are not written keep their values, so these compare as
they did: `identities_are_kept`. -/

set_option autoImplicit false

namespace Protoscript

/-! ## Comparison -/

/-- What `==` says of the values. -/
def Value.Compares (v w : Value) (b : Bool) : Prop :=
  OperatorTable.standard.eval .eq v w = .ok (.bool b)

namespace Value

variable {v w : Value} {b : Bool}

theorem compares_iff : v.Compares w b ↔ (b = true ↔ v.Equals w) := by
  have same : (BinaryOp.eq.coerce v w).1.same (BinaryOp.eq.coerce v w).2 = true ↔ v.Equals w :=
    BinaryOp.same_coerce_iff rfl
  rw [Compares, OperatorTable.eval_eq, ← same]
  constructor
  · intro compared
    cases compared
    rfl
  · intro agree
    rw [Bool.eq_iff_iff.mpr agree]

theorem compares_self (v : Value) : v.Compares v true := by
  refine compares_iff.mpr ⟨fun _ => ?_, fun _ => rfl⟩
  cases v with
  | int n => exact .int n
  | bool b => exact .bool b
  | str text => exact .str text
  | nil => exact .nil
  | function f => exact .function rfl
  | closure c => exact .closure rfl
  | object o => exact .object o

/-- Functions are compared by their identity. -/
theorem compares_functions (f g : Function) :
    (function f).Compares (function g) (decide (f.id = g.id)) := by
  rw [compares_iff, decide_eq_true_iff]
  constructor
  · exact .function
  · intro equals
    cases equals with
    | function same => exact same

/-- Values that are not equal compare unequal, either way round. -/
theorem compares_false_of_not_equals (differs : ¬ v.Equals w) (differs' : ¬ w.Equals v) :
    v.Compares w false ∧ w.Compares v false :=
  ⟨compares_iff.mpr ⟨nofun, fun equals => absurd equals differs⟩,
    compares_iff.mpr ⟨nofun, fun equals => absurd equals differs'⟩⟩

end Value

/-! ## New values -/

namespace Store

variable {s : Store} {v : Value} (has : s.Has v)

include has

/-- No value of the store is the next object. -/
theorem compares_newObject :
    (Value.object s.newObject.1).Compares v false ∧ v.Compares (.object s.newObject.1) false := by
  apply Value.compares_false_of_not_equals
  · intro equals
    cases equals
    exact Nat.lt_irrefl _ has
  · intro equals
    cases equals
    exact Nat.lt_irrefl _ has

/-- No value of the store is the next closure, for the number of a closure is its place. -/
theorem compares_newClosure (wf : s.WellFormed) (d : Definition) (visible : Bindings) :
    (Value.closure (s.newClosure d visible).1).Compares v false ∧
      v.Compares (.closure (s.newClosure d visible).1) false := by
  have other : ∀ c : Closure, c ∈ s.closures → c.id ≠ ⟨s.closures.size⟩ := by
    intro c made same
    have place := (Array.getElem?_eq_some_iff.mp (wf.numbered c made)).1
    rw [same] at place
    exact Nat.lt_irrefl _ place
  apply Value.compares_false_of_not_equals
  · intro equals
    cases equals with
    | closure same => exact other _ has same.symm
  · intro equals
    cases equals with
    | closure same => exact other _ has same

end Store

/-- The expression makes an object or a closure. -/
inductive Expr.Makes : Expr → Prop
  | object (place : Position) : Makes (.object place)
  | lambda (d : Definition) : Makes (.lambda d)

theorem Eval.exists_run_of_makes {e : Expr} (makes : e.Makes) {m : Machine}
    (wf : m.store.WellFormed) (setting : Setting) (fuel : Nat) :
    ∃ v after, (expr setting (fuel + 1) e).run m = .ok v after ∧
      ∀ w, m.store.Has w → v.Compares w false ∧ w.Compares v false := by
  cases makes with
  | object place =>
    refine ⟨m.newObject.1, m.newObject.2, ?_, fun w has => Store.compares_newObject has⟩
    rw [expr]
    rfl
  | lambda d =>
    refine ⟨(m.newClosure d).1, (m.newClosure d).2, ?_,
      fun w has => Store.compares_newClosure has wf d (m.env.flatten m.store)⟩
    rw [expr]
    rfl

/-! ## Handing on -/

/-- What evaluation hands on, from the machine on, is the very value that it came to. -/
structure Machine.HandsOn (setting : Setting) (m : Machine) : Prop where
  /-- A variable has the value that it is bound to, -/
  read : ∀ fuel x place v, m.get? x = some v →
    (Eval.expr setting (fuel + 1) (.var x place)).run m = .ok v m
  /-- and a member the one that the object or its nearest prototype with one has. -/
  member : ∀ fuel object x place o after v,
    (Eval.expr setting fuel object).run m = .ok (.object o) after →
    after.store.getMember o x = some v →
    (Eval.expr setting (fuel + 1) (.member object x place)).run m = .ok v after
  /-- An assignment leaves the variable with the value of its expression, -/
  assigned : ∀ fuel x value place v after,
    (Eval.expr setting fuel value).run (m.record (.executed place.line)) = .ok v after →
    ∃ last, (Eval.stmt setting (fuel + 1) (.assign [x] value place)).run m = .ok .next last ∧
      last.get? x = some v
  /-- and one to a member, if it is carried out, leaves the object with it. -/
  written : ∀ fuel root parents name value place v after flow last,
    (Eval.expr setting fuel value).run (m.record (.executed place.line)) = .ok v after →
    (Eval.stmt setting (fuel + 1) (.assign (root :: (parents ++ [name])) value place)).run m =
      .ok flow last →
    ∃ o, after.Reads root parents (.object o) ∧ last.store.held? (.member o name) = some v ∧
      last.store.getMember o name = some v
  /-- A lambda captures under each name the value that is visible. -/
  captured : ∀ fuel d v after, (Eval.expr setting fuel (.lambda d)).run m = .ok v after →
    ∃ c, v = .closure c ∧ ∀ x, after.store.held? (.binding c.captured x) = m.get? x
  /-- A call whose arguments were evaluated and that the limit allows starts with their values and
  its receiver, and ends with what its body returns and holds. -/
  called : ∀ less e n c, m.Calls setting (less + 4) e n c → c.definition.arity = c.args.length →
    ∀ passed m₁,
      (Eval.pass setting (less + 3) c.definition.name c.definition.params c.args).run n =
        .ok passed m₁ → setting.reached? m₁.depth = none →
      n.Evaluates setting c.args (passed.map Eval.Passed.value) m₁ ∧
        ∃ bound, Eval.Enacted setting less c (passed.map Eval.Passed.value) m₁ bound
          ((Eval.expr setting (less + 6) e).run m)

namespace Machine

variable {setting : Setting} {m : Machine}

theorem get?_set_self (wf : m.WellFormed) (x : String) (v : Value) :
    (m.set x v).get? x = some v := by
  cases owned : m.env.owner? m.store x with
  | some f =>
    have owner : m.env.owner? (m.set x v).store x = some f := by
      rw [← owned]
      refine List.find?_congr fun g used => ?_
      rw [Bindings.contains, get?_frame_set wf owned]
      split
      · next here =>
        rw [here.1, (Environment.mem_of_owner? owned).2]
        rfl
      · rfl
    have held := get?_frame_set wf owned (v := v) f x
    rw [if_pos ⟨rfl, rfl⟩] at held
    exact (Environment.get?_of_owner? owner).trans held
  | none =>
    have written : (m.set x v).store = m.store.bind m.env.inner x v := by
      rw [set, Environment.set, owned]
      rfl
    have held : ((m.set x v).store.frame m.env.inner).get? x = some v := by
      rw [written, Store.frame_bind_self (wf.env _ m.env.inner_mem_frames), Bindings.get?_insert,
        if_pos rfl]
    have env : (m.set x v).env = m.env := rfl
    rw [get?, env, Environment.get?, Environment.frames, List.findSome?_cons, held]

theorem exists_run_assign (wf : m.WellFormed) {fuel : Nat} (x : String) {value : Expr}
    {place : Position} {v : Value} {after : Machine}
    (ended : (Eval.expr setting fuel value).run (m.record (.executed place.line)) = .ok v after) :
    ∃ last, (Eval.stmt setting (fuel + 1) (.assign [x] value place)).run m = .ok .next last ∧
      last.get? x = some v := by
  have wf' : after.WellFormed := (scoped_value wf (congrArg Outcome.machine ended)).1
  refine ⟨after.set x v, ?_, get?_set_self wf' x v⟩
  rw [run_stmt_assign, ended]
  rfl

theorem exists_written (wf : m.WellFormed) {fuel : Nat} {root : String} {parents : List String}
    {name : String} {value : Expr} {place : Position} {v : Value} {after last : Machine}
    {flow : Flow}
    (ended : (Eval.expr setting fuel value).run (m.record (.executed place.line)) = .ok v after)
    (carried :
      (Eval.stmt setting (fuel + 1) (.assign (root :: (parents ++ [name])) value place)).run m =
        .ok flow last) :
    ∃ o, after.Reads root parents (.object o) ∧ last.store.held? (.member o name) = some v ∧
      last.store.getMember o name = some v := by
  have wf' : after.WellFormed := (scoped_value wf (congrArg Outcome.machine ended)).1
  rw [run_stmt_assign, ended] at carried
  dsimp only at carried
  rcases Eval.exists_write_or_misses after root name parents v with
    ⟨o, t, reads, written⟩ | ⟨cause, misses⟩
  · rw [Eval.run_assign_of_object reads, written] at carried
    cases carried
    have allocated : o.index < after.store.objects.size := by
      obtain ⟨start, bound, leads⟩ := reads
      exact leads.has wf'.store (wf'.has_of_get? bound)
    have writes := Store.writes_of_setMember allocated written
    exact ⟨o, reads, writes.held? allocated, writes.getMember⟩
  · rw [Eval.run_assign_of_misses misses] at carried
    cases carried

theorem exists_captured {fuel : Nat} {d : Definition} {v : Value} {after : Machine}
    (ended : (Eval.expr setting fuel (.lambda d)).run m = .ok v after) :
    ∃ c, v = .closure c ∧ ∀ x, after.store.held? (.binding c.captured x) = m.get? x := by
  cases fuel with
  | zero =>
    rw [Eval.expr] at ended
    cases ended
  | succ fuel =>
    rw [Eval.expr] at ended
    cases ended
    refine ⟨_, rfl, fun x => ?_⟩
    have frame : (m.newClosure d).2.store.frame ⟨m.store.frames.size⟩ = m.env.flatten m.store :=
      Store.frame_push_self rfl
    exact (congrArg (Bindings.get? · x) frame).trans (Environment.get?_flatten m.store m.env x)

theorem WellFormed.handsOn (wf : m.WellFormed) : m.HandsOn setting where
  read fuel x place v bound := Eval.run_var_of_bound bound fuel place
  member fuel object x place o after v receiver found := by
    rw [Eval.expr, Eval.run_bind_of_ok receiver]
    exact Eval.run_memberOf_of_some found place.line
  assigned fuel x value place v after ended := exists_run_assign wf x ended
  written fuel root parents name value place v after flow last ended carried :=
    exists_written wf ended carried
  captured fuel d v after ended := exists_captured ended
  called less e n c calls arity passed m₁ evaluated allowed :=
    ⟨Eval.evaluates_of_pass arity evaluated, Eval.enacted_of_calls wf calls arity evaluated allowed⟩

end Machine

/-! ## Runs -/

/-- A value that is obtained in one of the moments: a slot holds it there, or an expression of the
program comes to it. -/
inductive Obtained (ds : List Definition) (setting : Setting) (h : List Moment) : Value → Prop
  | held {μ : Moment} {a : Slot} {v : Value} (passed : μ ∈ h)
    (held : μ.machine.store.held? a = some v) : Obtained ds setting h v
  | evaluated {μ : Moment} {fuel : Nat} {e : Expr} {v : Value} {after : Machine} (passed : μ ∈ h)
    (occurs : (Tree.expr e).Occurs ds)
    (ended : (Eval.expr setting fuel e).run μ.machine = .ok v after) : Obtained ds setting h v

/-- What the moments of a run of the program say of the identity of values. -/
structure KeepsIdentity (ds : List Definition) (setting : Setting) (h : List Moment) : Prop where
  /-- The operator `==` compares what its operands come to, -/
  compared : ∀ μ ∈ h, ∀ fuel left right place v w m₁ m₂,
    (Eval.expr setting fuel left).run μ.machine = .ok v m₁ →
    (Eval.expr setting fuel right).run m₁ = .ok w m₂ →
    ∃ b, v.Compares w b ∧
      (Eval.expr setting (fuel + 1) (.binary .eq left right place)).run μ.machine =
        .ok (.bool b) m₂
  /-- and every value is equal to itself. -/
  itself : ∀ v : Value, v.Compares v true
  /-- Functions, whenever and however they were obtained, are functions of the program, and equal if
  and only if name and arity are the same: then they are the same function. -/
  functions : ∀ f g, Obtained ds setting h (.function f) → Obtained ds setting h (.function g) →
    f ∈ Function.ofDefinitions ds ∧ setting.functions.get? f.name f.arity = some f ∧
      (Value.function f).Compares (.function g) (decide (f.name = g.name ∧ f.arity = g.arity)) ∧
      (f.name = g.name ∧ f.arity = g.arity ↔ f = g)
  /-- What is made is unequal to all that any slot holds by then. -/
  fresh : ∀ (j : Nat) (ν : Moment), h[j]? = some ν → ∀ e : Expr, e.Makes → ∀ fuel, ∃ v after,
    (Eval.expr setting (fuel + 1) e).run ν.machine = .ok v after ∧
      ∀ (i : Nat) (μ : Moment), i ≤ j → h[i]? = some μ → ∀ a w, μ.machine.store.held? a = some w →
        v.Compares w false ∧ w.Compares v false
  handsOn : ∀ μ ∈ h, μ.machine.HandsOn setting
  /-- Each moment comes from the one before it by a change that writes one slot at most. -/
  changes : h.IsChain (Eval.Follows fun m after => ∃ w, m.store.Change w after.store)
  /-- Two slots that are not written hold the values that they held, which compare as they did. -/
  steady : ∀ (i j : Nat) (μ ν : Moment) a b v w, i ≤ j → h[i]? = some μ → h[j]? = some ν →
    SparedBetween h i j a → SparedBetween h i j b →
    μ.machine.store.held? a = some v → μ.machine.store.held? b = some w →
    ν.machine.store.held? a = some v ∧ ν.machine.store.held? b = some w

section Results

variable {ds : List Definition} {p : Program} {maxDepth : Option Nat} {inputs : List String}
  {fuel : Nat} {setting : Setting} {μ ν : Moment}

theorem Eval.exists_run_eq {m m₁ m₂ : Machine} {left right : Expr} {v w : Value}
    (first : (expr setting fuel left).run m = .ok v m₁)
    (second : (expr setting fuel right).run m₁ = .ok w m₂) (place : Position) :
    ∃ b, v.Compares w b ∧
      (expr setting (fuel + 1) (.binary .eq left right place)).run m = .ok (.bool b) m₂ := by
  refine ⟨_, OperatorTable.eval_eq v w, ?_⟩
  rw [expr, run_bind_of_ok first, run_bind_of_ok second]
  rfl

theorem wellFormed_of_mem_history
    (passed : μ ∈ (Eval.main setting fuel).history (.start inputs)) : μ.machine.WellFormed := by
  rcases List.mem_cons.mp passed with rfl | passed
  · exact .start inputs
  · have course := scopeDiscipline.rooted.course_main (scopeDiscipline.lawful setting) fuel
      (.start inputs)
    exact course.moments μ passed

/-- From a moment on, nothing goes away. -/
theorem extends_of_le {i j : Nat} (order : i ≤ j)
    (first : ((Eval.main setting fuel).history (.start inputs))[i]? = some μ)
    (second : ((Eval.main setting fuel).history (.start inputs))[j]? = some ν) :
    μ.machine.store.Extends ν.machine.store := by
  have course := scopeDiscipline.rooted.course_main (scopeDiscipline.lawful setting) fuel
    (.start inputs)
  have pairs := List.pairwise_iff_getElem.mp (course.pairwise .trans)
  obtain ⟨inside, rfl⟩ := List.getElem?_eq_some_iff.mp first
  obtain ⟨inside', rfl⟩ := List.getElem?_eq_some_iff.mp second
  rcases Nat.eq_or_lt_of_le order with rfl | less
  · exact .refl _
  · exact (pairs i j inside inside' less).toExtends

/-- Functions that are obtained in a run are functions of the program. -/
theorem Obtained.comesFrom (made : Program.ofDefinitions ds = .ok p) {v : Value}
    (obtained : Obtained ds (p.setting maxDepth)
      ((Eval.main (p.setting maxDepth) fuel).history (.start inputs)) v) :
    v.ComesFrom ds p.functions := by
  cases obtained with
  | @held μ a v passed held =>
    have comes := comesFrom_of_mem_history made maxDepth passed
    cases a with
    | binding f x => exact comes.frame f x v held
    | field o x => exact comes.fields o x v held
    | proto o =>
      rw [Store.held?] at held
      split at held
      · cases held
        unfold Store.protoValue
        split <;> trivial
      · cases held
  | evaluated passed occurs ended =>
    have comes := comesFrom_of_mem_history made maxDepth passed
    exact comesFrom_of_expr made maxDepth comes occurs ended

/-- In a run of a program, functions are told apart by name and arity, what is made is new, what is
handed on keeps its identity, and slots that are not written compare as they did. -/
theorem identities_are_kept (made : Program.ofDefinitions ds = .ok p) (maxDepth : Option Nat)
    (inputs : List String) (fuel : Nat) :
    KeepsIdentity ds (p.setting maxDepth)
      ((Eval.main (p.setting maxDepth) fuel).history (.start inputs)) where
  compared μ passed fuel left right place v w m₁ m₂ first second :=
    Eval.exists_run_eq first second place
  itself := Value.compares_self
  functions f g left right := by
    have comes : f.ComesFrom ds p.functions := left.comesFrom made
    have comes' : g.ComesFrom ds p.functions := right.comesFrom made
    have identity : f.id = g.id ↔ f.name = g.name ∧ f.arity = g.arity :=
      (comes.id_eq_iff comes').trans Prod.mk_inj
    have compared := Value.compares_functions f g
    rw [decide_eq_decide.mpr identity] at compared
    refine ⟨comes.1, comes.2, compared, ?_, ?_⟩
    · intro same
      exact Function.eq_of_id_eq comes.1 comes'.1 (identity.mpr same)
    · rintro rfl
      exact ⟨rfl, rfl⟩
  fresh j ν here e makes more := by
    have wf := wellFormed_of_mem_history (List.mem_of_getElem? here)
    obtain ⟨v, after, ran, new⟩ := Eval.exists_run_of_makes makes wf.store (p.setting maxDepth) more
    refine ⟨v, after, ran, ?_⟩
    intro i μ order there a w held
    have has := (wellFormed_of_mem_history (List.mem_of_getElem? there)).store.has_of_held? held
    exact new w ((extends_of_le order there here).has has)
  handsOn μ passed := (wellFormed_of_mem_history passed).handsOn
  changes := changeDiscipline.isChain_main (p.setting maxDepth) fuel (.start inputs)
  steady i j μ ν a b v w order first last sparedA sparedB heldA heldB :=
    ⟨sparedA.held? order first last heldA, sparedB.held? order first last heldB⟩

end Results

/-- `main` binds two variables to one object, and each of two more functions returns itself. -/
def Definition.sharing : List Definition :=
  let itself (name : String) : List Stmt := [.ret (some (.var name .start)) .start]
  [⟨"main", [], [.assign ["a"] (.object ⟨2, 7⟩) ⟨2, 3⟩, .assign ["b"] (.var "a" ⟨3, 7⟩) ⟨3, 3⟩],
    ⟨1, 1⟩⟩, ⟨"f", [], itself "f", ⟨5, 1⟩⟩, ⟨"g", [], itself "g", ⟨6, 1⟩⟩]

/-- At the end of the run the second variable holds the object that was made for the first, and what
is made then is another.  The functions `f` and `g` are unequal, and each is equal to itself. -/
theorem identities_are_kept_of_sharing :
    let p : Program := ⟨(FunctionTable.collected Definition.sharing).1⟩
    let m := ((Eval.main (p.setting none) 9).run (.start [])).machine
    Program.ofDefinitions Definition.sharing = .ok p ∧
      m.store.held? (.binding ⟨2⟩ "b") = some (.object ⟨0⟩) ∧
      (∃ v after, (Eval.expr (p.setting none) 1 (.object ⟨4, 7⟩)).run m = .ok v after ∧
        v.Compares (.object ⟨0⟩) false) ∧
      ∃ f g, (Eval.expr (p.setting none) 1 (.var "f" .start)).run (.start []) =
          .ok (.function f) (.start []) ∧
        (Eval.expr (p.setting none) 1 (.var "g" .start)).run (.start []) =
          .ok (.function g) (.start []) ∧
        (Value.function f).Compares (.function f) true ∧
        (Value.function f).Compares (.function g) false := by
  intro p m
  have made : Program.ofDefinitions Definition.sharing = .ok p := rfl
  have held : m.store.held? (.binding ⟨2⟩ "b") = some (.object ⟨0⟩) := by with_unfolding_all rfl
  have first : ∃ f, (Eval.expr (p.setting none) 1 (.var "f" .start)).run (.start []) =
      .ok (.function f) (.start []) ∧ f.name = "f" := ⟨_, by with_unfolding_all rfl, rfl⟩
  have second : ∃ g, (Eval.expr (p.setting none) 1 (.var "g" .start)).run (.start []) =
      .ok (.function g) (.start []) ∧ g.name = "g" := ⟨_, by with_unfolding_all rfl, rfl⟩
  obtain ⟨f, first, named⟩ := first
  obtain ⟨g, second, named'⟩ := second
  have kept := identities_are_kept made none [] 9
  obtain ⟨j, last⟩ := List.mem_iff_getElem?.mp
    (Eval.run_mem_history (Eval.main (p.setting none) 9) (.start []))
  obtain ⟨v, after, ran, new⟩ := kept.fresh j (.of m) last _ (.object ⟨4, 7⟩) 0
  have occurs : ∀ {name d}, d ∈ Definition.sharing →
      .ret (some (.var name .start)) .start ∈ d.body →
        (Tree.expr (.var name .start)).Occurs Definition.sharing :=
    fun among inside => ((Tree.Occurs.definition among).part (.body inside)).part (.returned _ _)
  obtain ⟨-, -, differ, -⟩ := kept.functions f g
    (.evaluated List.mem_cons_self (occurs (.tail _ (.head _)) (.head _)) first)
    (.evaluated List.mem_cons_self (occurs (.tail _ (.tail _ (.head _))) (.head _)) second)
  rw [named, named'] at differ
  refine ⟨made, held, ⟨v, after, ran, (new j (.of m) (Nat.le_refl j) last _ _ held).1⟩, ?_⟩
  exact ⟨f, g, first, second, kept.itself _, differ⟩

end Protoscript
