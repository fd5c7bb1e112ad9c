import Protoscript.Proofs.Likeness.Equal

/-! # Simulation up to a renaming

`Simulates`: two steps, started on machines that are the same up to a renaming, come to the same:
both to a result or both to the same stop, on machines that are again the same.  With one program on
both sides and no limit that cuts the left one short, this is what a likeness says, so evaluation
simulates itself: `simulates_body`. -/

set_option autoImplicit false

namespace Protoscript

open Eval (Passed)

/-- Both steps ended well, with results that `V` relates, or both with the same stop; `M` relates
the machines that they leave. -/
inductive Outcome.Alike {α β : Type} (M : Machine → Machine → Prop) (V : α → β → Prop) :
    Outcome α → Outcome β → Prop
  | ok {a : α} {b : β} {m n : Machine} (machines : M m n) (results : V a b) :
    Alike M V (.ok a m) (.ok b n)
  | error {s : Stop} {m n : Machine} (machines : M m n) : Alike M V (.error s m) (.error s n)

namespace Renaming

variable (ρ : Renaming)

structure SameClosure (c d : Closure) : Prop where
  id : ρ.closures.Pairs c.id.index d.id.index
  definition : c.definition = d.definition
  captured : ρ.SameFrame c.captured d.captured

/-- Values that are the same up to the renaming. -/
inductive SameValue : Value → Value → Prop
  | plain {v : Value} (plain : v.IsPlain) : SameValue v v
  | function (f : Function) : SameValue (.function f) (.function f)
  | closure {c d : Closure} (same : ρ.SameClosure c d) : SameValue (.closure c) (.closure d)
  | object {o p : ObjectId} (same : ρ.SameObject o p) : SameValue (.object o) (.object p)

/-- The same names with the same values, up to the renaming. -/
def SameBindings (b b' : Bindings) : Prop :=
  ∀ name, Option.Rel ρ.SameValue (b.get? name) (b'.get? name)

structure SameContents (ρ : Renaming) (a b : Object) : Prop where
  fields : ρ.SameBindings a.fields b.fields
  proto : Option.Rel ρ.SameObject a.proto b.proto

structure SameStore (ρ : Renaming) (s t : Store) : Prop where
  frames : ρ.frames.Rows ρ.SameBindings s.frames t.frames
  objects : ρ.objects.Rows ρ.SameContents s.objects t.objects
  closures : ρ.closures.Rows ρ.SameClosure s.closures t.closures

/-- Corresponding frames, one by one. -/
def SameEnv (ρ : Renaming) (e e' : Environment) : Prop :=
  List.Forall₂ ρ.SameFrame e.frames e'.frames

structure SameMachine (ρ : Renaming) (m n : Machine) : Prop where
  store : ρ.SameStore m.store n.store
  env : ρ.SameEnv m.env n.env
  depth : m.depth = n.depth
  console : m.console = n.console

def Simulates (ρ : Renaming) {α β : Type} (x : Eval α) (y : Eval β) (V : α → β → Prop) : Prop :=
  ∀ m n, ρ.SameMachine m n → Outcome.Alike ρ.SameMachine V (x.run m) (y.run n)

/-- Arguments with the same values, whatever variables they name. -/
def SameArgs (ρ : Renaming) : List Passed → List Passed → Prop :=
  List.Forall₂ fun a b => ρ.SameValue a.value b.value

/-- The same values for the same variables. -/
def SameReturns (ρ : Renaming) : List (String × Value) → List (String × Value) → Prop :=
  List.Forall₂ fun w u => w.1 = u.1 ∧ ρ.SameValue w.2 u.2

/-- The same value of a call, and the same write-backs if they go to the same variables. -/
structure SameCall (ρ : Renaming) (passed passed' : List Passed)
    (ended ended' : Value × List (String × Value)) : Prop where
  value : ρ.SameValue ended.1 ended'.1
  returns : SameSources passed passed' → ρ.SameReturns ended.2 ended'.2

/-! ## The likeness of a renaming -/

/-- Nothing is cut short. -/
def likeness : Likeness := .renamed ρ fun _ => False

variable {ρ}

theorem sameClosure_likeness : ρ.likeness.SameClosure = ρ.SameClosure := by
  funext c d
  apply propext
  constructor
  · rintro ⟨id, captured, known, -⟩
    exact ⟨id, known, captured⟩
  · rintro ⟨id, known, captured⟩
    exact ⟨id, captured, known, known ▸ Code.sameDefinition_equal c.definition⟩

theorem sameValue_likeness : ρ.likeness.SameValue = ρ.SameValue := by
  funext v w
  apply propext
  constructor
  · intro same
    cases same with
    | plain plain => exact .plain plain
    | @function f _ same =>
      obtain rfl : f = _ := same.known
      exact .function f
    | closure same => exact .closure (sameClosure_likeness ▸ same)
    | object pair => exact .object pair
  · intro same
    cases same with
    | plain plain => exact .plain plain
    | function f => exact .function (Likeness.sameFunction_renamed f)
    | closure same => exact .closure (sameClosure_likeness ▸ same)
    | object pair => exact .object pair

theorem sameBindings_likeness : ρ.likeness.SameBindings = ρ.SameBindings := by
  funext b b'
  rw [Likeness.SameBindings, sameValue_likeness, SameBindings]

theorem sameContents_likeness : ρ.likeness.SameContents = ρ.SameContents := by
  funext a b
  apply propext
  constructor
  · rintro ⟨fields, proto⟩
    exact ⟨sameBindings_likeness ▸ fields, proto⟩
  · rintro ⟨fields, proto⟩
    exact ⟨sameBindings_likeness ▸ fields, proto⟩

theorem sameStore_likeness_iff {s t : Store} : ρ.likeness.SameStore s t ↔ ρ.SameStore s t := by
  constructor
  · rintro ⟨frames, objects, closures⟩
    rw [sameBindings_likeness] at frames
    rw [sameContents_likeness] at objects
    rw [sameClosure_likeness] at closures
    exact ⟨frames, objects, closures⟩
  · rintro ⟨frames, objects, closures⟩
    rw [← sameBindings_likeness] at frames
    rw [← sameContents_likeness] at objects
    rw [← sameClosure_likeness] at closures
    exact ⟨frames, objects, closures⟩

theorem sameMachine_likeness_iff {m n : Machine} :
    ρ.likeness.SameMachine m n ↔ ρ.SameMachine m n := by
  constructor
  · rintro ⟨store, env, depth, console⟩
    exact ⟨sameStore_likeness_iff.mp store, env, depth, console⟩
  · rintro ⟨store, env, depth, console⟩
    exact ⟨sameStore_likeness_iff.mpr store, env, depth, console⟩

theorem sameArgs_likeness : ρ.likeness.SameArgs = ρ.SameArgs := by
  rw [Likeness.SameArgs, sameValue_likeness, SameArgs]

theorem sameReturns_likeness : ρ.likeness.SameReturns = ρ.SameReturns := by
  rw [Likeness.SameReturns, sameValue_likeness, SameReturns]

theorem eq_of_stops {s s' : Stop} (stops : ρ.likeness.Stops s s') : s = s' := by
  cases stops with
  | outOfFuel => rfl
  | error cause lines =>
    obtain rfl : _ = _ := lines
    rfl

theorem simulates_of_matches {α β : Type} {x : Eval α} {y : Eval β} {V U : α → β → Prop}
    (matched : ρ.likeness.Matches x y V) (results : ∀ a b, V a b → U a b) :
    ρ.Simulates x y U := by
  intro m n same
  have agree := (matched m n (sameMachine_likeness_iff.mpr same)).ends
  generalize x.run m = out at agree ⊢
  cases agree with
  | ok right machines value =>
    rw [right]
    exact .ok (sameMachine_likeness_iff.mp machines) (results _ _ value)
  | error right stops machines =>
    rw [right, eq_of_stops stops]
    exact .error (sameMachine_likeness_iff.mp machines)
  | cut _ _ cut => exact cut.1.elim

/-- On the same arguments and the same receiver, the body of a call comes to the same. -/
theorem simulates_body (ρ : Renaming) (setting : Setting) (fuel : Nat) (d : Definition)
    {passed passed' : List Passed} (values : ρ.SameArgs passed passed')
    {this this' : Option ObjectId} (received : Option.Rel ρ.SameObject this this') :
    ρ.Simulates (Eval.body setting fuel d passed this) (Eval.body setting fuel d passed' this')
      (ρ.SameCall passed passed') := by
  have lawful : ρ.likeness.Lawful setting setting := Likeness.lawful_renamed fun _ => .inl rfl
  have fuelled : ρ.likeness.Fuelled fuel fuel := .inl rfl
  rw [← sameArgs_likeness] at values
  have body :=
    (Likeness.matched lawful fuelled).body (Code.sameDefinition_equal d) values received
  refine simulates_of_matches body ?_
  rintro ended ended' ⟨value, returns⟩
  rw [sameValue_likeness] at value
  rw [sameReturns_likeness] at returns
  exact ⟨value, returns⟩

end Renaming

end Protoscript
