import Protoscript.Evaluation
import Protoscript.Proofs.Likeness.Steps
import Protoscript.Proofs.Steadiness

/-! # What may stop an evaluation

An expectation says which code is evaluated, at which stops evaluation may end and on which console,
and how much fuel is enough.  What a tree costs is measured by its size; a call of a definition
costs what its body does, with one call more under way.

`Settles`: started on a machine that is like itself up to a likeness, with so many calls under way,
a step comes to a result that the likeness knows, on such a machine again, or to a stop that is
expected.  The likeness is what says that all code on the machine is code that the expectation is
about.  `Lawful` lists what has to be shown of an expectation; no law is about evaluation. -/

set_option autoImplicit false

namespace Protoscript

open Eval (Passed)

structure Expectation where
  code : Tree → Prop
  stop : Stop → Console → Prop
  /-- So much fuel is enough for what costs so much, with so many calls under way. -/
  enough : (fuel cost depth : Nat) → Prop

/-- What it costs to evaluate something of this size.  Between a tree and its parts there are at
most eight functions that take a unit of fuel each. -/
def cost {α : Type} [SizeOf α] (a : α) : Nat := 8 * sizeOf a

namespace Expectation

/-- The machine is like itself, and so many calls are under way. -/
structure At (L : Likeness) (depth : Nat) (m : Machine) : Prop where
  same : L.SameMachine m m
  depth : m.depth = depth

inductive Settled (X : Expectation) (L : Likeness) (depth : Nat) {α : Type} (V : α → Prop) :
    Outcome α → Prop
  | ok {a : α} {after : Machine} (machine : At L depth after) (result : V a) :
    Settled X L depth V (.ok a after)
  | error {s : Stop} {after : Machine} (expected : X.stop s after.console) :
    Settled X L depth V (.error s after)

def Settles (X : Expectation) (L : Likeness) (depth : Nat) {α : Type} (x : Eval α) (V : α → Prop) :
    Prop :=
  ∀ m, At L depth m → X.Settled L depth V (x.run m)

structure Lawful (X : Expectation) (L : Likeness) (setting : Setting) : Prop where
  alike : L.Lawful setting setting
  covers : L.code.Covers X.code
  lambda : ∀ {d}, L.code.lambda d d → X.code (.definition d)
  function : ∀ {f}, L.function f f → X.code (.definition f.toDefinition)
  raised : ∀ {s : Stop}, s.IsRaised → ∀ c, X.stop s c
  answered : ∀ {name values line c e after},
    Builtin.call? Builtin.all name values line c = .error e after → X.stop (.error e) after
  starved : ∀ {needed depth}, X.enough 0 needed depth → ∀ c, X.stop .outOfFuel c
  spend : ∀ {fuel needed depth}, X.enough (fuel + 1) needed depth →
    ∀ {less}, less < needed → X.enough fuel less depth
  call : ∀ {fuel needed depth}, X.enough (fuel + 1) needed depth →
    setting.reached? depth = none → ∀ {d}, X.code (.definition d) →
      X.enough fuel (cost d) (depth + 1)
  /-- What a loop costs is not known, so either there is none or no fuel is too little. -/
  loops : ∀ {test body place}, X.code (.stmt (.loop test body place)) →
    ∀ fuel needed depth, X.enough fuel needed depth

variable {X : Expectation} {L : Likeness} {setting : Setting} {depth : Nat} {α β : Type}

/-! ## Composed steps -/

theorem Settles.pure {a : α} {V : α → Prop} (result : V a) :
    X.Settles L depth (Pure.pure a : Eval α) V :=
  fun _ here => .ok here result

theorem Settles.bind {x : Eval α} {f : α → Eval β} {V : α → Prop} {U : β → Prop}
    (first : X.Settles L depth x V) (second : ∀ a, V a → X.Settles L depth (f a) U) :
    X.Settles L depth (x >>= f) U := by
  intro m here
  have settled := first m here
  cases ended : x.run m with
  | ok a after =>
    rw [ended] at settled
    rw [Eval.run_bind_of_ok ended]
    cases settled with
    | ok machine result => exact second a result after machine
  | error s after =>
    rw [ended] at settled
    rw [Eval.run_bind_of_error ended]
    cases settled with
    | error expected => exact .error expected

theorem Settles.get : X.Settles L depth Eval.get (At L depth) := fun _ here => .ok here here

theorem Settles.modify {f : Machine → Machine} (changed : ∀ m, At L depth m → At L depth (f m)) :
    X.Settles L depth (Eval.modify f) fun _ => True :=
  fun m here => .ok (changed m here) trivial

/-- The rule of brackets.  The way out leaves the console alone. -/
theorem Settles.bracket {σ : Type} {enter : Machine → σ × Machine}
    {aside : σ → List (Closure × Environment)} {leave : σ → Machine → Machine} {x : Eval α}
    {V : α → Prop} {inside : Nat} (inner : X.Settles L inside x V)
    (into : ∀ m, At L depth m → At L inside (enter m).2)
    (out : ∀ m, At L depth m → ∀ after, At L inside after → At L depth (leave (enter m).1 after))
    (console : ∀ entry after, (leave entry after).console = after.console) :
    X.Settles L depth (Eval.bracket enter aside leave x) V := by
  intro m here
  have settled := inner _ (into m here)
  dsimp only [Eval.bracket]
  cases ended : x.run (enter m).2 with
  | ok a after =>
    rw [ended] at settled
    cases settled with
    | ok machine result => exact .ok (out m here after machine) result
  | error s after =>
    rw [ended] at settled
    cases settled with
    | error expected =>
      refine .error ?_
      rw [console]
      exact expected

theorem Settles.inScope {x : Eval α} {V : α → Prop} (inner : X.Settles L depth x V) :
    X.Settles L depth (Eval.inScope x) V :=
  bracket inner (fun _ here => ⟨here.same.push, here.depth⟩)
    (fun _ _ _ after => ⟨after.same.pop, after.depth⟩) fun _ _ => rfl

theorem Settles.onCaptured {x : Eval α} {V : α → Prop} (inner : X.Settles L depth x V)
    {closure : Option Closure} (same : Option.Rel L.SameClosure closure closure) :
    X.Settles L depth (Eval.onCaptured closure x) V := by
  cases same with
  | none => exact inner
  | some pair =>
    unfold Eval.onCaptured
    refine bracket inner ?_ ?_ fun _ _ => rfl
    · exact fun _ here => ⟨here.same.onFrame pair.captured, here.depth⟩
    · intro m here after left
      exact ⟨⟨left.same.store, here.same.env, left.same.depth, left.same.console⟩, left.depth⟩

namespace Lawful

variable (lawful : X.Lawful L setting)

include lawful

theorem settles_fail {cause : RuntimeError.Cause} {line : Nat} {V : α → Prop}
    (raised : cause.IsRaised) : X.Settles L depth (Eval.fail cause line : Eval α) V :=
  fun _ _ => .error (lawful.raised ⟨cause, line, raised, rfl⟩ _)

/-- A steady step that the likeness matches with itself. -/
theorem settles_of_matches {x : Eval α} {R : α → α → Prop} (matched : L.Matches x x R)
    (steady : x.Steady) : X.Settles L depth x fun a => R a a := by
  intro m here
  have agree := (matched m m here.same).ends
  have kept := steady.depth m
  cases ended : x.run m with
  | ok a after =>
    rw [ended] at agree kept
    generalize right : x.run m = out at agree
    cases agree with
    | ok same machines results =>
      rw [ended] at same
      cases same
      exact .ok ⟨machines, kept.trans here.depth⟩ results
  | error s after => exact .error (lawful.raised (steady.stops m s after ended) _)

theorem settles_starved {needed : Nat} (enough : X.enough 0 needed depth) {V : α → Prop} :
    X.Settles L depth (Eval.stop .outOfFuel : Eval α) V :=
  fun _ _ => .error (lawful.starved enough _)

theorem settles_interact (name : String) (values : List Value) {line : Nat}
    (known : L.code.line line line) :
    X.Settles L depth (Eval.interact (Builtin.call? Builtin.all name values line))
      fun found => ∀ v, found = some v → v.IsPlain := by
  intro m here
  have agree := (lawful.alike.interact name values known m m here.same).ends
  cases called : Builtin.call? Builtin.all name values line m.console with
  | ok found after =>
    have ended := Likeness.run_interact_of_ok (m := m) called
    rw [ended] at agree ⊢
    cases agree with
    | ok same machines results =>
      rw [ended] at same
      cases same
      exact .ok ⟨machines, here.depth⟩ results.2
  | error e after =>
    rw [Likeness.run_interact_of_error (m := m) called]
    exact .error (lawful.answered called)

theorem settles_entered {d : Definition} (known : X.code (.definition d)) (closure : Bool)
    (line : Nat) {x : Eval α} {V : α → Prop}
    (inner : setting.reached? depth = none → X.Settles L (depth + 1) x V) :
    X.Settles L depth (Eval.entered setting d closure line x) V := by
  apply Settles.bind .get
  intro m here
  dsimp only
  rw [here.depth]
  cases reached : setting.reached? depth with
  | some limit => exact lawful.settles_fail trivial
  | none =>
    have alike : L.code.SameDefinition d d := lawful.covers.sameDefinition d known
    refine .bracket (inner reached) ?_ ?_ fun _ _ => rfl
    · intro m here
      exact ⟨lawful.alike.sameMachine_enter here.same alike closure, congrArg (· + 1) here.depth⟩
    · intro m _ after left
      exact ⟨left.same.leave, congrArg (· - 1) left.depth⟩

end Lawful

end Expectation

end Protoscript
