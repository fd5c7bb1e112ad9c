import Protoscript.Eval.Steps
import Protoscript.Proofs.Course
import Protoscript.Proofs.Likeness.Consoles
import Protoscript.Proofs.Likeness.Stores
import Protoscript.Proofs.Likeness.Tables

/-! # Steps up to a likeness

`Matches`: two steps, started on machines that are the same up to a likeness, come to the same, both
to a result or both to a stop, on machines that are again the same; or else the left one is cut
short on the way.  There is one rule for each way in which steps are composed.  `Lawful` lists what
the two settings have to answer alike.  Then each step that evaluates no expression matches
itself. -/

set_option autoImplicit false

namespace Protoscript

open Eval (Course Passed)

/-- Arguments that name the same variables, whatever their values. -/
def Renaming.SameSources (passed passed' : List Passed) : Prop :=
  passed.map Passed.source = passed'.map Passed.source

namespace Likeness

open Renaming (SameSources)

structure SameMachine (L : Likeness) (m n : Machine) : Prop where
  store : L.SameStore m.store n.store
  env : L.SameEnv m.env n.env
  depth : m.depth = n.depth
  console : L.console m.console n.console

inductive Stops (L : Likeness) : Stop → Stop → Prop
  | outOfFuel : Stops L .outOfFuel .outOfFuel
  | error (cause : RuntimeError.Cause) {line line' : Nat} (lines : L.code.line line line') :
    Stops L (.error ⟨cause, line⟩) (.error ⟨cause, line'⟩)

/-- What the left step came to is what `y` comes to from `n`, or the left step was cut short where
the right one goes through a moment `ν`. -/
inductive Agree (L : Likeness) {α β : Type} (V : α → β → Prop) (y : Eval β) (n : Machine) :
    Outcome α → Prop
  | ok {a : α} {b : β} {m n' : Machine} (right : y.run n = .ok b n') (machines : L.SameMachine m n')
      (results : V a b) : Agree L V y n (.ok a m)
  | error {s s' : Stop} {m n' : Machine} (right : y.run n = .error s' n') (stops : L.Stops s s')
      (machines : L.SameMachine m n') : Agree L V y n (.error s m)
  | cut {s : Stop} {m : Machine} {ν : Moment} (kept : ∃ t, L.SameStore m.store t)
      (passed : ν ∈ y.history n) (cut : L.cut s m.console ν.machine.console) :
    Agree L V y n (.error s m)

/-- The store is the same as some other: all in it is related to something. -/
def Keeps (L : Likeness) (μ : Moment) : Prop := ∃ t, L.SameStore μ.machine.store t

def Grows (m after : Machine) : Prop := m.console.Before after.console

def Matches (L : Likeness) {α β : Type} (x : Eval α) (y : Eval β) (V : α → β → Prop) : Prop :=
  ∀ m n, L.SameMachine m n → Course L.Keeps Grows m x (L.Agree V y n)

/-- Arguments with the same values, whatever variables they name. -/
def SameArgs (L : Likeness) : List Passed → List Passed → Prop :=
  List.Forall₂ fun a b => L.SameValue a.value b.value

/-- The same values for the same variables. -/
def SameReturns (L : Likeness) : List (String × Value) → List (String × Value) → Prop :=
  List.Forall₂ fun w u => w.1 = u.1 ∧ L.SameValue w.2 u.2

variable {L : Likeness} {α β γ δ : Type}

namespace SameMachine

variable {m n : Machine} (same : L.SameMachine m n)

include same

theorem get? (name : String) : Option.Rel L.SameValue (m.get? name) (n.get? name) :=
  same.env.get? same.store name

theorem set {v w : Value} (value : L.SameValue v w) (name : String) :
    L.SameMachine (m.set name v) (n.set name w) :=
  ⟨same.env.set same.store value name, same.env, same.depth, same.console⟩

theorem create {v w : Value} (value : L.SameValue v w) (name : String) :
    L.SameMachine (m.create name v) (n.create name w) :=
  ⟨same.env.create same.store value name, same.env, same.depth, same.console⟩

theorem push : L.SameMachine m.push n.push :=
  ⟨same.store.newFrame .empty, same.env.push same.store.frames.next, same.depth, same.console⟩

theorem pop : L.SameMachine m.pop n.pop :=
  ⟨same.store, same.env.pop, same.depth, same.console⟩

theorem onFrame {f g : FrameId} (pair : L.ids.SameFrame f g) :
    L.SameMachine (m.onFrame f) (n.onFrame g) :=
  ⟨same.store, .ofFrame pair, same.depth, same.console⟩

theorem leave : L.SameMachine m.leave n.leave :=
  ⟨same.store, same.env, congrArg (· - 1) same.depth, same.console⟩

/-- The values that parameters have at the end of a call go to the variables that its arguments
name. -/
theorem finalValues {ps qs : List Param} (params : List.Forall₂ Code.SameParam ps qs)
    {passed passed' : List Passed} (sources : SameSources passed passed') :
    L.SameReturns (Eval.finalValues m ps passed) (Eval.finalValues n qs passed') := by
  induction params generalizing passed passed' with
  | nil => cases passed <;> cases passed' <;> exact .nil
  | @cons p q ps qs alike _ ih =>
    cases passed with
    | nil =>
      cases passed' with
      | nil => exact .nil
      | cons b bs => cases sources
    | cons a as =>
      cases passed' with
      | nil => cases sources
      | cons b bs =>
        obtain ⟨source, sources⟩ := List.cons.inj sources
        unfold Eval.finalValues
        rw [source, alike.byRef, alike.name]
        split
        · refine .cons ⟨rfl, ?_⟩ (ih sources)
          match m.get? q.name, n.get? q.name, same.get? q.name with
          | _, _, .some value => exact value
          | _, _, .none => exact .plain trivial
        · exact ih sources

end SameMachine

namespace Agree

variable {V : α → β → Prop} {y : Eval β} {n : Machine}

theorem kept {out : Outcome α} (agree : L.Agree V y n out) :
    ∃ t, L.SameStore out.machine.store t := by
  cases agree with
  | ok _ machines => exact ⟨_, machines.store⟩
  | error _ _ machines => exact ⟨_, machines.store⟩
  | cut kept => exact kept

/-- What follows a step that ended well decides what both come to. -/
theorem after {g : β → Eval δ} {U : γ → δ → Prop} {b : β} {n' : Machine} {out : Outcome γ}
    (ended : y.run n = .ok b n') (agree : L.Agree U (g b) n' out) : L.Agree U (y >>= g) n out := by
  have right := Eval.run_bind_of_ok ended g
  cases agree with
  | ok later machines results => exact .ok (right.trans later) machines results
  | error later stops machines => exact .error (right.trans later) stops machines
  | cut kept passed cut => exact .cut kept (Eval.mem_history_bind_of_ok ended passed) cut

/-- What stops a step stops all that would follow it. -/
theorem stopped {g : β → Eval δ} {U : γ → δ → Prop} {s : Stop} {m : Machine}
    (agree : L.Agree V y n (.error s m)) : L.Agree U (y >>= g) n (.error s m) := by
  cases agree with
  | error right stops machines => exact .error (Eval.run_bind_of_error right g) stops machines
  | cut kept passed cut => exact .cut kept (Eval.mem_history_bind passed) cut

end Agree

/-! ## Composed steps -/

namespace Matches

theorem of_still {x : Eval α} {y : Eval β} {V : α → β → Prop} (still : ∀ m, x.trace m = [])
    (agree : ∀ m n, L.SameMachine m n → L.Agree V y n (x.run m)) : L.Matches x y V :=
  fun m n same => .of_trace_eq_nil (still m) (agree m n same)

theorem pure {a : α} {b : β} {V : α → β → Prop} (results : V a b) :
    L.Matches (Pure.pure a : Eval α) (Pure.pure b : Eval β) V :=
  of_still (Eval.trace_pure a) fun _ _ same => .ok rfl same results

theorem stop {s s' : Stop} {V : α → β → Prop} (stops : L.Stops s s') :
    L.Matches (Eval.stop s : Eval α) (Eval.stop s' : Eval β) V :=
  of_still (Eval.trace_stop s) fun _ _ same => .error rfl stops same

/-- A step that stops at once is cut short, if the likeness says so. -/
theorem cut {s : Stop} (cut : ∀ {c d}, L.console c d → L.cut s c d) {y : Eval β}
    {V : α → β → Prop} : L.Matches (Eval.stop s : Eval α) y V :=
  of_still (Eval.trace_stop s) fun _ _ same =>
    .cut ⟨_, same.store⟩ List.mem_cons_self (cut same.console)

theorem fail (cause : RuntimeError.Cause) {line line' : Nat} (lines : L.code.line line line')
    {V : α → β → Prop} :
    L.Matches (Eval.fail cause line : Eval α) (Eval.fail cause line' : Eval β) V :=
  stop (.error cause lines)

theorem get : L.Matches Eval.get Eval.get L.SameMachine :=
  of_still Eval.trace_get fun _ _ same => .ok rfl same same

theorem change {f : Machine → Outcome α} {g : Machine → Outcome β} {V : α → β → Prop}
    (grows : ∀ m, Grows m (f m).machine)
    (agree : ∀ m n, L.SameMachine m n → L.Agree V (Eval.change g) n (f m)) :
    L.Matches (Eval.change f) (Eval.change g) V :=
  fun m n same => .change (agree m n same).kept (grows m) (agree m n same)

theorem modify {f g : Machine → Machine} (grows : ∀ m, Grows m (f m))
    (changed : ∀ m n, L.SameMachine m n → L.SameMachine (f m) (g n)) :
    L.Matches (Eval.modify f) (Eval.modify g) fun _ _ => True :=
  change grows fun m n same => .ok rfl (changed m n same) trivial

/-- A change that leaves the console alone. -/
theorem modify_store {f g : Machine → Machine} (quiet : ∀ m, (f m).console = m.console)
    (changed : ∀ m n, L.SameMachine m n → L.SameMachine (f m) (g n)) :
    L.Matches (Eval.modify f) (Eval.modify g) fun _ _ => True := by
  apply modify _ changed
  intro m
  rw [Grows, quiet]

theorem bind {x : Eval α} {y : Eval β} {f : α → Eval γ} {g : β → Eval δ} {V : α → β → Prop}
    {U : γ → δ → Prop} (first : L.Matches x y V)
    (second : ∀ a b, V a b → L.Matches (f a) (g b) U) : L.Matches (x >>= f) (y >>= g) U := by
  intro m n same
  refine (first m n same).bind ?_ ?_
  · intro a after agree
    cases agree with
    | ok right machines results =>
      refine (second _ _ results _ _ machines).weaken (fun _ kept => kept) ?_
      exact fun out agree => agree.after right
  · intro s after agree
    exact agree.stopped

/-- The rule of brackets.  The way out leaves store and console alone. -/
theorem bracket {σ τ : Type} {enter : Machine → σ × Machine} {enter' : Machine → τ × Machine}
    {aside : σ → List (Closure × Environment)} {aside' : τ → List (Closure × Environment)}
    {leave : σ → Machine → Machine} {leave' : τ → Machine → Machine} {x : Eval α} {y : Eval β}
    {V : α → β → Prop} (inner : L.Matches x y V)
    (grows : ∀ m, Grows m (enter m).2)
    (into : ∀ m n, L.SameMachine m n → L.SameMachine (enter m).2 (enter' n).2)
    (out : ∀ m n, L.SameMachine m n → ∀ after after', L.SameMachine after after' →
      L.SameMachine (leave (enter m).1 after) (leave' (enter' n).1 after'))
    (store : ∀ entry after, (leave entry after).store = after.store)
    (console : ∀ entry after, (leave entry after).console = after.console) :
    L.Matches (Eval.bracket enter aside leave x) (Eval.bracket enter' aside' leave' y) V := by
  intro m n same
  have still : ∀ after, Grows after (leave (enter m).1 after) := by
    intro after
    rw [Grows, console]
  have kept : ∀ after, (∃ t, L.SameStore after.store t) →
      ∃ t, L.SameStore (leave (enter m).1 after).store t := by
    intro after kept
    rwa [store]
  refine (inner _ _ (into m n same)).bracket (grows m) ⟨_, (into m n same).store⟩
    (fun _ kept => kept) ?_ ?_
  · intro a after agree
    refine ⟨still after, kept after agree.kept, ?_⟩
    cases agree with
    | ok right machines results =>
      refine .ok ?_ (out m n same _ _ machines) results
      dsimp only [Eval.bracket]
      rw [right]
  · intro s after agree
    refine ⟨still after, kept after agree.kept, ?_⟩
    cases agree with
    | error right stops machines =>
      refine .error ?_ stops (out m n same _ _ machines)
      dsimp only [Eval.bracket]
      rw [right]
    | @cut _ _ ν held passed cut =>
      refine .cut (ν := ν.under (aside' (enter' n).1)) (kept after held) ?_ ?_
      · apply List.mem_cons_of_mem
        rw [Eval.trace_bracket]
        apply List.mem_append_left
        rcases List.mem_cons.mp passed with rfl | passed
        · exact List.mem_cons_self
        · exact List.mem_cons_of_mem _ (List.mem_map_of_mem passed)
      · rw [console]
        exact cut

theorem inScope {x : Eval α} {y : Eval β} {V : α → β → Prop} (inner : L.Matches x y V) :
    L.Matches (Eval.inScope x) (Eval.inScope y) V :=
  bracket inner (fun m => .refl m.console) (fun _ _ same => same.push)
    (fun _ _ _ _ _ after => after.pop) (fun _ _ => rfl) fun _ _ => rfl

theorem onCaptured {x : Eval α} {y : Eval β} {V : α → β → Prop} (inner : L.Matches x y V)
    {closure closure' : Option Closure} (closures : Option.Rel L.SameClosure closure closure') :
    L.Matches (Eval.onCaptured closure x) (Eval.onCaptured closure' y) V := by
  cases closures with
  | none => exact inner
  | some pair =>
    unfold Eval.onCaptured
    refine bracket inner (fun m => .refl m.console) ?_ ?_ (fun _ _ => rfl) fun _ _ => rfl
    · intro m n same
      exact same.onFrame pair.captured
    · intro m n same after after' left
      exact ⟨left.store, same.env, left.depth, left.console⟩

/-! ## Single steps -/

theorem attempt {line line' : Nat} (lines : L.code.line line line')
    {result result' : Except RuntimeError.Cause Value} (same : result = result')
    (plain : ∀ v, result = .ok v → v.IsPlain) :
    L.Matches (Eval.attempt line result) (Eval.attempt line' result') L.SameValue := by
  subst same
  cases result with
  | ok v => exact pure (.plain (plain v rfl))
  | error cause => exact fail _ lines

theorem binding? (name : String) :
    L.Matches (Eval.binding? name) (Eval.binding? name) (Option.Rel L.SameValue) :=
  bind get fun _ _ same => pure (same.get? name)

theorem set {v w : Value} (value : L.SameValue v w) (name : String) :
    L.Matches (Eval.set name v) (Eval.set name w) fun _ _ => True :=
  modify_store (fun _ => rfl) fun _ _ same => same.set value name

theorem create {v w : Value} (value : L.SameValue v w) (name : String) :
    L.Matches (Eval.create name v) (Eval.create name w) fun _ _ => True :=
  modify_store (fun _ => rfl) fun _ _ same => same.create value name

theorem newObject : L.Matches Eval.newObject Eval.newObject L.SameValue :=
  change (fun m => .refl m.console) fun _ _ same =>
    .ok rfl ⟨same.store.newObject, same.env, same.depth, same.console⟩
      (.object same.store.objects.next)

theorem newClosure {d d' : Definition} (known : L.code.lambda d d')
    (alike : L.code.SameDefinition d d') :
    L.Matches (Eval.newClosure d) (Eval.newClosure d') L.SameValue := by
  refine change (fun m => .refl m.console) ?_
  intro m n same
  obtain ⟨store, made⟩ := same.store.newClosure known alike (same.env.flatten same.store)
  exact .ok rfl ⟨store, same.env, same.depth, same.console⟩ (.closure made)

variable {line line' : Nat} (lines : L.code.line line line')

include lines

theorem objectOf {v w : Value} (value : L.SameValue v w) (member : String) :
    L.Matches (Eval.objectOf v member line) (Eval.objectOf w member line') L.ids.SameObject := by
  cases value with
  | plain plain =>
    cases v with
    | object o => cases plain
    | _ => exact fail _ lines
  | object pair => exact pure pair
  | _ => exact fail _ lines

theorem memberOf {v w : Value} (value : L.SameValue v w) (member : String) :
    L.Matches (Eval.memberOf v member line) (Eval.memberOf w member line') L.SameValue := by
  apply bind (objectOf lines value member)
  intro o p pair
  apply bind get
  intro m n same
  match m.store.getMember o member, n.store.getMember p member, same.store.getMember pair member
    with
  | _, _, .some value => exact pure value
  | _, _, .none => exact fail _ lines

theorem follow {v w : Value} (value : L.SameValue v w) (names : List String) :
    L.Matches (Eval.follow v line names) (Eval.follow w line' names) L.SameValue := by
  induction names generalizing v w with
  | nil => exact pure value
  | cons name names ih => exact bind (memberOf lines value name) fun _ _ next => ih next

theorem setMember {o p : ObjectId} (pair : L.ids.SameObject o p) {v w : Value}
    (value : L.SameValue v w) (name : String) :
    L.Matches (Eval.setMember o name v line) (Eval.setMember p name w line')
      fun _ _ => True := by
  apply bind get
  intro m n same
  rcases same.store.setMember pair value name with ⟨s, t, left, right, store⟩ | ⟨kind, left, right⟩
  · rw [left, right]
    exact modify_store (fun _ => rfl) fun _ _ same => ⟨store, same.env, same.depth, same.console⟩
  · rw [left, right]
    exact fail _ lines

theorem assign {v w : Value} (value : L.SameValue v w) (target : List String) :
    L.Matches (Eval.assign target v line) (Eval.assign target w line') fun _ _ => True := by
  match target with
  | [] => exact fail _ lines
  | [name] => exact set value name
  | root :: field :: fields =>
    apply bind (binding? root)
    intro found found' same
    cases same with
    | none => exact fail _ lines
    | some start =>
      apply bind (follow lines start _)
      intro holder holder' held
      apply bind (objectOf lines held _)
      intro o p pair
      exact setMember lines pair value _

omit lines

theorem sourceOf (function : String) {p q : Param} (alike : Code.SameParam p q) {e f : Expr}
    (same : L.code.SameExpr e f) :
    L.Matches (Eval.sourceOf function p e) (Eval.sourceOf function q f) Eq := by
  have refused : L.Matches
      (if p.byRef then Eval.fail (.refNeedsVariable p.name function) e.position.line
        else Pure.pure none)
      (if q.byRef then Eval.fail (.refNeedsVariable q.name function) f.position.line
        else Pure.pure none) (@Eq (Option String)) := by
    rw [alike.byRef, alike.name]
    split
    · exact fail _ same.line
    · exact pure rfl
  cases same with
  | var x =>
    apply bind (binding? x)
    intro found found' same
    cases same with
    | some value => exact pure rfl
    | none => exact refused
  | _ => exact refused

theorem bindParams {ps qs : List Param} (params : List.Forall₂ Code.SameParam ps qs)
    {passed passed' : List Passed} (values : L.SameArgs passed passed') :
    L.Matches (Eval.bindParams ps passed) (Eval.bindParams qs passed') fun _ _ => True := by
  induction params generalizing passed passed' with
  | nil => exact pure trivial
  | cons alike _ ih =>
    cases values with
    | nil => exact pure trivial
    | cons value values =>
      unfold Eval.bindParams
      rw [alike.name]
      exact bind (create value _) fun _ _ _ => ih values

theorem bindThis {this this' : Option ObjectId}
    (received : Option.Rel L.ids.SameObject this this') :
    L.Matches (Eval.bindThis this) (Eval.bindThis this') fun _ _ => True := by
  cases received with
  | none => exact pure trivial
  | some pair => exact create (.object pair) "this"

theorem writeBack {back back' : List (String × Value)} (returns : L.SameReturns back back') :
    L.Matches (Eval.writeBack back) (Eval.writeBack back') fun _ _ => True := by
  induction returns with
  | nil => exact pure trivial
  | @cons w u _ _ same _ ih =>
    obtain ⟨name, v⟩ := w
    obtain ⟨name', v'⟩ := u
    obtain ⟨rfl, value⟩ := same
    exact bind (set value name) fun _ _ _ => ih

end Matches

/-! ## Settings -/

/-- What the two settings of a likeness have to answer alike. -/
structure Lawful (L : Likeness) (setting setting' : Setting) : Prop where
  tables : L.SameTable setting.functions setting'.functions
  main : Option.Rel L.SameFunction (setting.functions.get? "main" 0)
    (setting'.functions.get? "main" 0)
  /-- Both reach the limit on calls at once, or the left evaluation is cut short there. -/
  reached : ∀ depth, setting.reached? depth = setting'.reached? depth ∨
    ∃ limit, setting.reached? depth = some limit ∧ ∀ name line {c d}, L.console c d →
      L.cut (.error ⟨.tooDeep limit name, line⟩) c d
  record : ∀ {c d}, L.console c d → ∀ {e e'}, L.code.SameEvent e e' →
    L.console (c.record e) (d.record e')
  started : ∀ {c d}, L.console c d → L.console (c.record (.started setting.functions.size))
    (d.record (.started setting'.functions.size))
  interact : ∀ name values {line line'}, L.code.line line line' →
    L.Matches (Eval.interact (Builtin.call? Builtin.all name values line))
      (Eval.interact (Builtin.call? Builtin.all name values line'))
      fun found found' => found = found' ∧ ∀ v, found = some v → v.IsPlain

theorem run_interact_of_ok {step : Builtin.Interaction α} {m : Machine} {a : α} {c : Console}
    (ended : step m.console = .ok a c) :
    (Eval.interact step).run m = .ok a { m with console := c } := by
  dsimp only [Eval.interact, Eval.change]
  rw [ended]

theorem run_interact_of_error {step : Builtin.Interaction α} {m : Machine} {e : RuntimeError}
    {c : Console} (ended : step m.console = .error e c) :
    (Eval.interact step).run m = .error (.error e) { m with console := c } := by
  dsimp only [Eval.interact, Eval.change]
  rw [ended]

namespace Matches

/-- On consoles from which the same is read, a built-in does the same. -/
theorem interact (parallel : Builtin.Parallel L.console) (name : String) (values : List Value)
    {line line' : Nat} (lines : L.code.line line line') :
    L.Matches (Eval.interact (Builtin.call? Builtin.all name values line))
      (Eval.interact (Builtin.call? Builtin.all name values line'))
      fun found found' => found = found' ∧ ∀ v, found = some v → v.IsPlain := by
  apply change
  · intro m
    cases ended : Builtin.call? Builtin.all name values line m.console with
    | ok found after => exact (Builtin.uses_of_call?_ok ended).before
    | error e after => exact (Builtin.uses_of_call?_error ended).before
  · intro m n same
    have answers := Builtin.call?_answers parallel lines Builtin.all name values same.console
    cases left : Builtin.call? Builtin.all name values line m.console with
    | ok found after =>
      cases right : Builtin.call? Builtin.all name values line' n.console with
      | ok found' after' =>
        rw [left, right] at answers
        cases answers with
        | ok _ consoles =>
          refine .ok (run_interact_of_ok right) ⟨same.store, same.env, same.depth, consoles⟩ ?_
          refine ⟨rfl, ?_⟩
          rintro v rfl
          exact Builtin.isPlain_of_call? left
      | error e' after' =>
        rw [left, right] at answers
        cases answers
    | error e after =>
      cases right : Builtin.call? Builtin.all name values line' n.console with
      | ok found' after' =>
        rw [left, right] at answers
        cases answers
      | error e' after' =>
        rw [left, right] at answers
        cases answers with
        | error cause related consoles =>
          exact .error (run_interact_of_error right) (.error cause related)
            ⟨same.store, same.env, same.depth, consoles⟩

end Matches

/-- Tables that answer alike, one limit, and logs that gain the same. -/
theorem lawful_of_sameConsole {past past' : List Event}
    (console : L.console = L.code.SameConsole past past') {t u : FunctionTable}
    (tables : L.SameTable t u)
    (main : Option.Rel L.SameFunction (t.get? "main" 0) (u.get? "main" 0))
    (size : t.size = u.size) (maxDepth : Option Nat) : L.Lawful ⟨t, maxDepth⟩ ⟨u, maxDepth⟩ where
  tables := tables
  main := main
  reached _ := .inl rfl
  record same _ _ events := by
    rw [console] at same ⊢
    exact same.record events
  started same := by
    rw [console] at same ⊢
    exact same.record (size ▸ .same _)
  interact name values _ _ lines := by
    have parallel : Builtin.Parallel L.console := by
      rw [console]
      exact Code.SameConsole.parallel L.code past past'
    exact .interact parallel name values lines

namespace Lawful

variable {setting setting' : Setting} (lawful : L.Lawful setting setting')

include lawful

theorem matches_record {e e' : Event} (events : L.code.SameEvent e e') :
    L.Matches (Eval.record e) (Eval.record e') fun _ _ => True :=
  .modify (fun m => .record m.console e) fun _ _ same =>
    ⟨same.store, same.env, same.depth, lawful.record same.console events⟩

theorem sameMachine_enter {m n : Machine} (same : L.SameMachine m n) {d d' : Definition}
    (alike : L.code.SameDefinition d d') (closure : Bool) :
    L.SameMachine (m.enter d closure) (n.enter d' closure) := by
  unfold Machine.enter
  rw [alike.name, alike.arity, same.depth]
  exact ⟨same.store, same.env, rfl, lawful.record same.console (.same _)⟩

theorem matches_entered {d d' : Definition} (alike : L.code.SameDefinition d d') (closure : Bool)
    {line line' : Nat} (lines : L.code.line line line') {x : Eval α} {y : Eval β}
    {V : α → β → Prop} (inner : L.Matches x y V) :
    L.Matches (Eval.entered setting d closure line x) (Eval.entered setting' d' closure line' y)
      V := by
  have counted : L.Matches (Eval.counted d closure x) (Eval.counted d' closure y) V :=
    .bracket inner (fun m => .record m.console _)
      (fun _ _ same => lawful.sameMachine_enter same alike closure)
      (fun _ _ _ _ _ after => after.leave) (fun _ _ => rfl) fun _ _ => rfl
  apply Matches.bind .get
  intro m n same
  dsimp only
  rw [same.depth]
  rcases lawful.reached n.depth with equal | ⟨limit, left, cut⟩
  · rw [equal, alike.name]
    split
    · exact .fail _ lines
    · exact counted
  · rw [left]
    exact .cut (cut d.name line)

theorem matches_lookup {name : String} (known : L.code.name name) {line line' : Nat}
    (lines : L.code.line line line') :
    L.Matches (Eval.lookup setting name line) (Eval.lookup setting' name line') L.SameValue := by
  apply Matches.bind (.binding? name)
  intro found found' same
  cases same with
  | some value => exact .pure value
  | none =>
    dsimp only
    match setting.functions.overloads name, setting'.functions.overloads name,
      lawful.tables.overloads known with
    | _, _, .nil => exact .fail _ lines
    | _, _, .cons function .nil => exact .pure (.function function)
    | _, _, .cons _ (.cons _ _) => exact .fail _ lines

end Lawful

end Likeness

end Protoscript
