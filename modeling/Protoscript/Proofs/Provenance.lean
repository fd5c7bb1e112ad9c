import Mathlib.Logic.Relation
import Protoscript.Proofs.Likeness.Runs

/-! # Where code comes from

All code that runs stands in the program.  In every moment of a run, a function that is a value is
one of the table, and a closure was made from a lambda of the program.  So the line that a runtime
error names is that of an expression, a statement or a definition of the program; only the error
that there is no `main` names line 0.

A run is compared with itself, by a likeness that relates to themselves only the lines, the lambdas
and the functions of the program. -/

set_option autoImplicit false

namespace Protoscript

/-- The tree stands in one of the definitions. -/
def Tree.Occurs (ds : List Definition) (t : Tree) : Prop :=
  ∃ d ∈ ds, Relation.ReflTransGen Tree.PartOf t (.definition d)

theorem Tree.Occurs.part {ds : List Definition} {t u : Tree} (part : t.PartOf u)
    (occurs : u.Occurs ds) : t.Occurs ds := by
  obtain ⟨d, among, inside⟩ := occurs
  exact ⟨d, among, .head part inside⟩

theorem Tree.Occurs.definition {ds : List Definition} {d : Definition} (among : d ∈ ds) :
    (Tree.definition d).Occurs ds :=
  ⟨d, among, .refl⟩

/-- What holds of the definitions and passes on to the parts of a tree holds of all that stands in
the program. -/
theorem Tree.Occurs.of_parts {ds : List Definition} {P : Tree → Prop}
    (whole : ∀ d ∈ ds, P (.definition d)) (part : ∀ t u, t.PartOf u → P u → P t) {t : Tree}
    (occurs : t.Occurs ds) : P t := by
  obtain ⟨d, among, inside⟩ := occurs
  induction inside using Relation.ReflTransGen.head_induction_on with
  | refl => exact whole d among
  | head first _ ih => exact part _ _ first ih

section ComesFrom

variable (ds : List Definition) (functions : FunctionTable)

/-- The function is one of the program, and the one that the table has under its signature. -/
def Function.ComesFrom (f : Function) : Prop :=
  f ∈ Function.ofDefinitions ds ∧ functions.get? f.name f.arity = some f

/-- The code of the value, if it has any, is that of a function of the table or of a lambda that
stands in the program. -/
def Value.ComesFrom : Value → Prop
  | .function f => f.ComesFrom ds functions
  | .closure c => (Tree.expr (.lambda c.definition)).Occurs ds
  | _ => True

def Bindings.ComesFrom (b : Bindings) : Prop :=
  ∀ name v, b.get? name = some v → v.ComesFrom ds functions

/-- So does all code in the store: what is bound in frames, captured ones among them, what objects
hold in their fields, and every closure that was ever made. -/
structure Store.ComesFrom (s : Store) : Prop where
  frames : ∀ b ∈ s.frames, b.ComesFrom ds functions
  objects : ∀ o ∈ s.objects, o.fields.ComesFrom ds functions
  closures : ∀ c ∈ s.closures, (Value.closure c).ComesFrom ds functions

variable {ds functions}

/-- Functions of the program are the same one just if they have the same signature. -/
theorem Function.ComesFrom.id_eq_iff {f g : Function} (left : f.ComesFrom ds functions)
    (right : g.ComesFrom ds functions) : f.id = g.id ↔ f.signature = g.signature := by
  constructor
  · intro same
    rw [Function.eq_of_id_eq left.1 right.1 same]
  · intro same
    obtain ⟨name, arity⟩ := Prod.mk.inj same
    have found := left.2
    rw [name, arity, right.2] at found
    rw [Option.some.inj found]

end ComesFrom

namespace Likeness

variable (ds : List Definition) (functions : FunctionTable)

/-- The code that stands in the program is like itself, and looks up the names that stand there.
Line 0 counts as one of it if there is no `main`. -/
def withinCode : Code where
  line i j := i = j ∧
    ((∃ t : Tree, t.Occurs ds ∧ t.line = i) ∨ functions.get? "main" 0 = none ∧ i = 0)
  lambda d e := d = e ∧ (Tree.expr (.lambda d)).Occurs ds
  name x := ∃ t : Tree, t.Occurs ds ∧ t.LooksUp x

def within : Likeness where
  code := withinCode ds functions
  function f g := f = g ∧ f.ComesFrom ds functions
  function_id same same' := by rw [same.1, same'.1]
  ids := .equal
  console := (withinCode ds functions).SameConsole [] []
  cut _ _ _ := False

variable {ds functions}

theorem covers_within : (withinCode ds functions).Covers (Tree.Occurs ds) where
  part part occurs := occurs.part part
  line occurs := ⟨rfl, .inl ⟨_, occurs, rfl⟩⟩
  lambda occurs := ⟨rfl, occurs⟩
  name occurs looksUp := ⟨_, occurs, looksUp⟩

theorem sameFunction_within {f : Function} (comes : f.ComesFrom ds functions) :
    (within ds functions).SameFunction f f where
  known := ⟨rfl, comes⟩
  same := covers_within.sameDefinition f.toDefinition
    (.definition (Function.mem_of_mem_ofDefinitions comes.1))

theorem lawful_within (made : FunctionTable.ofDefinitions ds = .ok functions)
    (maxDepth : Option Nat) :
    (within ds functions).Lawful ⟨functions, maxDepth⟩ ⟨functions, maxDepth⟩ := by
  have known : ∀ name, ∀ f ∈ functions.overloads name, (within ds functions).SameFunction f f :=
    fun name f among => sameFunction_within (FunctionTable.mem_of_mem_overloads made among)
  exact lawful_of_sameConsole rfl (.self known) (SameTable.self_get? known "main" 0) rfl maxDepth

/-! ## To be like something is to come from the program -/

theorem SameValue.comesFrom {v w : Value} (same : (within ds functions).SameValue v w) :
    v.ComesFrom ds functions := by
  cases same with
  | plain plain => cases v <;> trivial
  | function same => exact same.known.2
  | closure same => exact same.known.2
  | object => trivial

theorem SameBindings.comesFrom {b c : Bindings} (same : (within ds functions).SameBindings b c) :
    b.ComesFrom ds functions := by
  intro name v found
  have value := same name
  rw [found] at value
  generalize c.get? name = w at value
  cases value with
  | some value => exact value.comesFrom

theorem SameStore.comesFrom {s t : Store} (same : (within ds functions).SameStore s t) :
    s.ComesFrom ds functions where
  frames b among := by
    obtain ⟨c, bindings⟩ := same.frames.exists_right b among
    exact bindings.comesFrom
  objects o among := by
    obtain ⟨p, contents⟩ := same.objects.exists_right o among
    exact contents.fields.comesFrom
  closures c among := by
    obtain ⟨d, closure⟩ := same.closures.exists_right c among
    exact closure.known.2

theorem sameClosure_within {c : Closure} (made : (Value.closure c).ComesFrom ds functions) :
    (within ds functions).SameClosure c c :=
  sameClosure_self rfl ⟨rfl, made⟩
    (covers_within.sameDefinition c.definition (made.part (.lambda c.definition)))

theorem sameValue_within {v : Value} (comes : v.ComesFrom ds functions) :
    (within ds functions).SameValue v v := by
  cases v with
  | function f => exact .function (sameFunction_within comes)
  | closure c => exact .closure (sameClosure_within comes)
  | object o => exact .object (sameObject_self rfl o)
  | _ => exact .plain trivial

theorem sameBindings_within {b : Bindings} (comes : b.ComesFrom ds functions) :
    (within ds functions).SameBindings b b :=
  sameBindings_self fun name v found => sameValue_within (comes name v found)

theorem sameMachine_within {m : Machine} (comes : m.store.ComesFrom ds functions) :
    (within ds functions).SameMachine m m := by
  refine sameMachine_self rfl (sameStore_self rfl ?_ ?_ ?_) (.self m.console)
  · exact fun b among => sameBindings_within (comes.frames b among)
  · exact fun o among => sameBindings_within (comes.objects o among)
  · exact fun c among => sameClosure_within (comes.closures c among)

end Likeness

open Likeness

variable {ds : List Definition} {p : Program} (made : Program.ofDefinitions ds = .ok p)
  (maxDepth : Option Nat)

include made

theorem Program.ofDefinitions_functions : FunctionTable.ofDefinitions ds = .ok p.functions := by
  unfold Program.ofDefinitions at made
  cases table : FunctionTable.ofDefinitions ds with
  | ok t =>
    rw [table] at made
    cases made
    rfl
  | error errors =>
    rw [table] at made
    cases made

/-- In every moment of a run, all code in the store is code of the program. -/
theorem comesFrom_of_mem_history {inputs : List String} {fuel : Nat} {μ : Moment}
    (passed : μ ∈ (Eval.main (p.setting maxDepth) fuel).history (.start inputs)) :
    μ.machine.store.ComesFrom ds p.functions := by
  have lawful : (within ds p.functions).Lawful (p.setting maxDepth) (p.setting maxDepth) :=
    lawful_within (Program.ofDefinitions_functions made) maxDepth
  have start : (within ds p.functions).SameMachine (.start inputs) (.start inputs) :=
    sameMachine_start rfl (.self _)
  have fuelled : (within ds p.functions).Fuelled fuel fuel := .inl rfl
  have missing : p.functions.get? "main" 0 = none → (withinCode ds p.functions).line 0 0 :=
    fun missing => ⟨rfl, .inr ⟨missing, rfl⟩⟩
  have course := matches_main lawful fuelled missing _ _ start
  rcases List.mem_cons.mp passed with rfl | passed
  · exact start.store.comesFrom
  · obtain ⟨t, same⟩ := course.moments μ passed
    exact same.comesFrom

/-- On a store with code of the program alone, expressions of the program have values with code of
the program alone. -/
theorem comesFrom_of_expr {m after : Machine} (comes : m.store.ComesFrom ds p.functions) {e : Expr}
    (occurs : (Tree.expr e).Occurs ds) {fuel : Nat} {v : Value}
    (ended : (Eval.expr (p.setting maxDepth) fuel e).run m = .ok v after) :
    v.ComesFrom ds p.functions := by
  have lawful : (within ds p.functions).Lawful (p.setting maxDepth) (p.setting maxDepth) :=
    lawful_within (Program.ofDefinitions_functions made) maxDepth
  have same : (within ds p.functions).code.SameExpr e e := covers_within.sameExpr e occurs
  have matched : (within ds p.functions).Matches (Eval.expr (p.setting maxDepth) fuel e)
      (Eval.expr (p.setting maxDepth) fuel e) (within ds p.functions).SameValue :=
    (matched lawful (.inl rfl)).expr same
  have agree := (matched m m (sameMachine_within comes)).ends
  rw [ended] at agree
  cases agree with
  | ok _ _ value => exact value.comesFrom

/-- All code that runs comes from the program.  In every moment of a run, that is so of all that the
store holds, and of the values that expressions of the program have there.  A runtime error names
line 0 if there is no `main`, and else the line of a tree that stands in the program. -/
theorem code_comes_from_program (inputs : List String) (fuel : Nat) :
    (∀ μ ∈ (Eval.main (p.setting maxDepth) fuel).history (.start inputs),
      μ.machine.store.ComesFrom ds p.functions ∧
      ∀ e, (Tree.expr e).Occurs ds → ∀ more v after,
        (Eval.expr (p.setting maxDepth) more e).run μ.machine = .ok v after →
          v.ComesFrom ds p.functions) ∧
    ∀ e, (p.run maxDepth inputs fuel).ending = .failed e →
      if p.functions.get? "main" 0 = none then e.line = 0
      else ∃ t : Tree, t.Occurs ds ∧ t.line = e.line := by
  constructor
  · intro μ passed
    have comes : μ.machine.store.ComesFrom ds p.functions :=
      comesFrom_of_mem_history made maxDepth passed
    exact ⟨comes, fun e occurs more v after => comesFrom_of_expr made maxDepth comes occurs⟩
  · intro e failed
    have lawful : (within ds p.functions).Lawful (p.setting maxDepth) (p.setting maxDepth) :=
      lawful_within (Program.ofDefinitions_functions made) maxDepth
    have start : (within ds p.functions).SameMachine (.start inputs) (.start inputs) :=
      sameMachine_start rfl (.self _)
    have fuelled : (within ds p.functions).Fuelled fuel fuel := .inl rfl
    have missing : p.functions.get? "main" 0 = none → (withinCode ds p.functions).line 0 0 :=
      fun missing => ⟨rfl, .inr ⟨missing, rfl⟩⟩
    split
    · next missing =>
      rw [p.run_eq] at failed
      unfold Eval.main at failed
      rw [Program.setting, missing] at failed
      cases failed
      rfl
    · next found =>
      have same : (within ds p.functions).SameRun (p.run maxDepth inputs fuel)
          (p.run maxDepth inputs fuel) := sameRun lawful fuelled missing start
      cases same with
      | same endings =>
        rw [failed] at endings
        cases endings with
        | failed cause lines => exact lines.2.resolve_right fun missing => found missing.1
      | cut _ cut => exact cut.elim

omit made

/-- `main` calls a closure that divides by zero. -/
def Definition.dividing : List Definition :=
  let divide : Expr := .binary .div (.int 1 ⟨3, 8⟩) (.int 0 ⟨3, 12⟩) ⟨3, 10⟩
  let closure : Expr := .lambda ⟨"lambda", [], [.ret (some divide) ⟨3, 1⟩], ⟨2, 5⟩⟩
  [⟨"main", [], [.assign ["f"] closure ⟨2, 1⟩, .call (.call "f" [] ⟨4, 1⟩)], ⟨1, 1⟩⟩]

theorem code_comes_from_program_of_dividing :
    let p : Program := ⟨(FunctionTable.collected Definition.dividing).1⟩
    Program.ofDefinitions Definition.dividing = .ok p ∧
      (p.run none [] 20).ending = .failed ⟨.divisionByZero, 3⟩ ∧
      ∃ t : Tree, t.Occurs Definition.dividing ∧ t.line = 3 := by
  intro p
  have made : Program.ofDefinitions Definition.dividing = .ok p := rfl
  have failed : (Program.run ⟨(FunctionTable.collected Definition.dividing).1⟩
      none [] 20).ending = .failed ⟨.divisionByZero, 3⟩ := by with_unfolding_all rfl
  have present : ((FunctionTable.collected Definition.dividing).1.get? "main" 0).isSome := by
    with_unfolding_all rfl
  have named := (code_comes_from_program made none [] 20).2 _ failed
  rw [if_neg (Option.isSome_iff_ne_none.mp present)] at named
  exact ⟨made, failed, named⟩

end Protoscript
