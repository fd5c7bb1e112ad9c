import Protoscript.Proofs.Discipline.Errors
import Protoscript.Proofs.Grammar.Programs
import Protoscript.Proofs.OperatorRules
import Protoscript.Proofs.ReferenceParameters
import Protoscript.Proofs.UnwrittenVariables

/-! # Fallbacks that nothing reaches

Evaluation has a last resort wherever it asks something a second time: a built-in that its registry
does not own, a value that cannot be called, an assignment without a target, operands that a
primitive does not take, and a parameter passed by reference that is not bound when its call ends.
What is asked first, often elsewhere, leaves none of them to be needed: `fallbacks_dead`.

That no assignment lacks its target is a matter of where the code comes from.  The reader gives none
without, and whatever is called in a run of a program stands in that program. -/

set_option autoImplicit false

namespace Protoscript

namespace Discipline

variable {D : Discipline} {setting : Setting} {m : Machine}

/-- A run of `main` raises no fallback either, if the discipline also holds of a machine that starts
afresh. -/
theorem Lawful.sound_main (L : D.Lawful setting)
    (fresh : ∀ m, D.holds .expression m → D.holds .expression m.fresh) (fuel : Nat) :
    D.Sound .expression m (Eval.main setting fuel) := by
  unfold Eval.main
  split
  · exact .of_usual (.fail trivial)
  · next f found =>
    have value := L.function m.store "main" f (FunctionTable.mem_overloads found)
    intro holds err after ended
    let logged := m.record (.started setting.functions.size)
    have called : (Eval.invoke setting fuel f.toDefinition none [] none f.position.line >>=
        fun _ => pure ()).run
        logged.fresh = .error (.error err) after := ended
    have stays := L.console holds _ (.note .refl trivial : m.console.Uses logged.console)
    have sound := (L.sound fuel).invoke logged.fresh f.toDefinition none [] none f.position.line
      (L.called value rfl) .none (fun _ among => by cases among) .none
    exact sound.then_usual (fun _ => .pure ()) (fresh _ stays.holds) err after called

end Discipline

/-! ## Built-ins and callees -/

/-- Any code may run on a machine that has all that its values refer to. -/
theorem Machine.WellFormed.sound_perform {setting : Setting} {m after : Machine}
    (wf : m.WellFormed) (step : Step) (fuel : Nat) {e : RuntimeError}
    (ended : (step.perform setting fuel).run m = .error (.error e) after) :
    scopeDiscipline.Live e.cause := by
  have L := scopeDiscipline.lawful setting
  have sound := L.sound fuel
  cases step with
  | exec body =>
    exact (sound.stmts m body fun _ _ => trivial).then_usual (fun _ => .pure _) wf e after ended
  | eval e' =>
    exact (sound.expr m e' trivial).then_usual (fun _ => .pure _) wf e after ended
  | run =>
    exact (L.sound_main (fun _ wf => wf.fresh) fuel).then_usual (fun _ => .pure _) wf e after
      ended

/-! ## Targets -/

namespace Tree

/-- No assignment in it lacks its target. -/
def WellFormed : Tree → Prop
  | expr e => e.WellFormed
  | stmt s => s.WellFormed
  | definition d => d.WellFormed

theorem WellFormed.part {t u : Tree} (part : t.PartOf u) (whole : u.WellFormed) : t.WellFormed := by
  cases part with
  | member | operand => exact whole
  | argument among => exact Expr.wellFormed_of_mem whole among
  | receiver => exact whole.1
  | methodArgument among => exact Expr.wellFormed_of_mem whole.2 among
  | left => exact whole.1
  | right => exact whole.2
  | lambda => exact whole.2
  | assigned => exact whole.2
  | called => exact whole.2
  | tested e yes no =>
    cases no with
    | none => exact whole.1
    | some no => exact whole.1
  | yes among e no =>
    cases no with
    | none => exact Stmt.wellFormed_of_mem whole.2 among
    | some no => exact Stmt.wellFormed_of_mem whole.2.1 among
  | no among => exact Stmt.wellFormed_of_mem whole.2.2 among
  | repeated => exact whole.1
  | looped among => exact Stmt.wellFormed_of_mem whole.2 among
  | returned => exact whole
  | @body s d among =>
    obtain ⟨_, _, body, _⟩ := d
    exact Stmt.wellFormed_of_mem whole among

end Tree

/-- What is read from a source are definitions whose assignments have targets. -/
theorem Program.exists_definitions {source : String} {p : Program}
    (read : Program.ofSource source = .ok p) :
    ∃ ds, Program.ofDefinitions ds = .ok p ∧ ∀ d ∈ ds, d.WellFormed := by
  unfold Program.ofSource at read
  cases scanned : Token.ofSource source with
  | error errors =>
    rw [scanned] at read
    cases read
  | ok tokens =>
    rw [scanned] at read
    cases parsed : Definition.ofTokens tokens with
    | error errors =>
      dsimp only [bind, Except.bind] at read
      rw [parsed] at read
      cases read
    | ok ds =>
      dsimp only [bind, Except.bind] at read
      rw [parsed] at read
      exact ⟨ds, read, (Definition.ofTokens_eq_ok_iff.mp parsed).wellFormed⟩

/-- The discipline that all code comes from the program. -/
def provenanceDiscipline (ds : List Definition) (functions : FunctionTable) : Discipline where
  code := Tree.Occurs ds
  holds _ m := m.store.ComesFrom ds functions
  value _ v := v.ComesFrom ds functions
  named _ _ := True
  rel _ _ _ := True
  moment _ _ := True
  next _ _ := True

namespace provenanceDiscipline

variable {ds : List Definition} {functions : FunctionTable} {e : Extent} {m after : Machine}

theorem stays (comes : after.store.ComesFrom ds functions) :
    (provenanceDiscipline ds functions).Stays e m after :=
  ⟨comes, trivial, trivial⟩

theorem bracketed {inside : Machine} (comes : inside.store.ComesFrom ds functions)
    (aside : List (Closure × Environment)) (leave : Machine → Machine)
    (store : ∀ after, (leave after).store = after.store) :
    (provenanceDiscipline ds functions).Bracketed e m inside aside leave where
  holds := comes
  value _ value := value
  next := trivial
  moment _ _ := trivial
  leaves after comes _ := by
    have left : (leave after).store.ComesFrom ds functions := by
      rw [store]
      exact comes
    exact ⟨left, trivial, trivial⟩
  store := store

theorem comesFrom_set (comes : m.store.ComesFrom ds functions) {v : Value}
    (value : v.ComesFrom ds functions) (x : String) :
    (m.set x v).store.ComesFrom ds functions := by
  obtain ⟨f, -, written, -⟩ := m.exists_set_eq x v
  rw [written]
  exact comes.bind value f x

theorem lawful (made : FunctionTable.ofDefinitions ds = .ok functions) (maxDepth : Option Nat) :
    (provenanceDiscipline ds functions).Lawful ⟨functions, maxDepth⟩ where
  part part occurs := .part part occurs
  called value code := Value.ComesFrom.occurs value code
  refl _ _ := trivial
  trans _ _ := trivial
  widen _ := trivial
  narrow comes := comes
  reopen _ _ comes := comes
  value_mono _ value := value
  named_mono _ _ := trivial
  moment_of _ _ := trivial
  moment_mono _ _ := trivial
  plain _ _ plain := .of_isPlain plain
  function _ _ _ among := FunctionTable.mem_of_mem_overloads made among
  binding comes found := comes.binding found
  member comes _ found := comes.getMember found
  named_of_binding _ _ _ := trivial
  console comes _ _ := stays comes
  newObject comes := ⟨stays comes.newObject, trivial⟩
  newClosure comes _ lambda := ⟨stays (comes.newClosure lambda), lambda⟩
  setMember comes _ value written := stays (comes.setMember value written)
  set comes value x _ := stays (comesFrom_set comes value x)
  set_named comes value _ := stays (comesFrom_set comes value _)
  create comes value x := stays (comes.bind value _ x)
  scope := by
    intro m comes
    have pushed : m.push.store.ComesFrom ds functions :=
      comes.pushFrame rfl rfl .empty comes.closures
    exact bracketed pushed _ _ fun _ => rfl
  captured := by
    intro m c comes _
    have moved : (m.onFrame c.captured).store.ComesFrom ds functions := comes
    exact bracketed moved _ _ fun _ => rfl
  counted := by
    intro m comes _ d closure
    have entered : (m.enter d closure).store.ComesFrom ds functions := comes
    exact bracketed entered _ _ fun _ => rfl

end provenanceDiscipline

section Runs

variable {p : Program}

theorem Program.exists_error {maxDepth : Option Nat} {inputs : List String} {fuel : Nat}
    {e : RuntimeError} (failed : (p.run maxDepth inputs fuel).ending = .failed e) :
    ∃ after, (Eval.main (p.setting maxDepth) fuel).run (.start inputs) =
      .error (.error e) after := by
  rw [p.run_eq] at failed
  cases ended : (Eval.main (p.setting maxDepth) fuel).run (.start inputs) with
  | ok _ after =>
    rw [ended] at failed
    cases failed
  | error s after =>
    rw [ended] at failed
    cases s with
    | error e' =>
      cases failed
      exact ⟨after, rfl⟩
    | outOfFuel => cases failed

/-- A program that was read from a source has a target for each of its assignments. -/
theorem Program.cause_ne_noTarget {source : String} (read : Program.ofSource source = .ok p)
    (maxDepth : Option Nat) (inputs : List String) (fuel : Nat) {e : RuntimeError}
    (failed : (p.run maxDepth inputs fuel).ending = .failed e) : e.cause ≠ .noTarget := by
  obtain ⟨ds, made, wellFormed⟩ := Program.exists_definitions read
  have L := provenanceDiscipline.lawful (Program.ofDefinitions_functions made) maxDepth
  have fresh : ∀ m : Machine, m.store.ComesFrom ds p.functions →
      m.fresh.store.ComesFrom ds p.functions := fun m comes =>
    comes.pushFrame rfl rfl .empty comes.closures
  have first : Moment.of (.start inputs) ∈
      (Eval.main (p.setting maxDepth) fuel).history (.start inputs) := List.mem_cons_self
  have start : (Machine.start inputs).store.ComesFrom ds p.functions :=
    comesFrom_of_mem_history made maxDepth first
  obtain ⟨after, ended⟩ := Program.exists_error failed
  intro targetless
  -- An assignment that has no target would stand in the program, and so in what was read.
  rcases L.sound_main fresh fuel start e after ended with ordinary | ⟨-, value, place, occurs⟩
  · rw [targetless] at ordinary
    exact ordinary
  · have formed := occurs.of_parts (P := Tree.WellFormed) wellFormed fun _ _ => .part
    exact formed.1 rfl

end Runs

/-! ## Operands -/

namespace OperatorTable

/-- In the operation the table calls the primitive on the operands `l` and `r`. -/
structure Calls (t : OperatorTable) (op : BinaryOp) (left right : Value) (p : Primitive)
    (l r : Value) : Prop where
  coerced : op.coerce left right = (l, r)
  other : op.isEquality = false
  kinds : l.kind = r.kind
  entry : t.lookup op l.kind = some p

theorem Calls.eval_eq {t : OperatorTable} {op : BinaryOp} {left right l r : Value} {p : Primitive}
    (calls : t.Calls op left right p l r) :
    t.eval op left right = (p.compute? l r).getD (.error (.binaryUndefined op l.kind r.kind)) := by
  obtain ⟨coerced, other, kinds, entry⟩ := calls
  simp only [eval, coerced, other, Bool.false_eq_true, if_false, ← kinds, if_true, entry]

end OperatorTable

theorem Primitive.exists_compute? {p : Primitive} {l r : Value} (left : l.kind = p.kind)
    (right : r.kind = p.kind) : ∃ result, p.compute? l r = some result := by
  cases p <;> cases l <;> cases left <;> cases r <;> cases right <;> exact ⟨_, rfl⟩

/-! ## Parameters passed by reference -/

namespace Eval

variable {setting : Setting} {fuel : Nat} {m n after : Machine} {c : Call} {e : Expr} {v : Value}

/-- The call on `n`, made with `fuel`, has come to the value `v`.  Its body was run in the frame
`own`, the first that was free behind the arguments, and ended on `last`.  What was then copied out
are the final values on `last`. -/
structure EndsOn (setting : Setting) (fuel : Nat) (c : Call) (n : Machine) (own : FrameId)
    (last : Machine) (v : Value) : Prop where
  steps : ∃ passed m₁ m₂,
    (pass setting (fuel - 1) c.definition.name c.definition.params c.args).run n = .ok passed m₁ ∧
    own = ⟨m₁.store.frames.size⟩ ∧
    (invocation setting (fuel - 2) c.definition c.closure passed c.this c.line).run m₁ =
      .ok (v, finalValues last c.definition.params passed) m₂
  body : ∃ bound flow,
    (stmts setting (fuel - 4) c.definition.body).run bound = .ok flow last ∧ v = flow.value
  inner : last.env.inner = own

/-- At its end, a call has all its parameters in its own frame. -/
theorem exists_endsOn (reached : m.Reachable setting) (calls : m.Calls setting fuel e n c)
    (ended : (expr setting (fuel + 2) e).run m = .ok v after) :
    ∃ own last, EndsOn setting fuel c n own last v ∧
      ∀ p ∈ c.definition.params, (last.store.frame own).contains p.name = true := by
  obtain ⟨callee, ⟨wf, code, has, receiver⟩, same⟩ := calls.exists_callee reached.wellFormed
  rw [same] at ended
  obtain ⟨less, passed, m₁, back, m₂, rfl, arity, handed, called, rfl⟩ := callValue_eq_ok code ended
  obtain ⟨wf₁, -, closed, given, received⟩ := scoped_pass wf code has receiver handed
  cases less with
  | zero =>
    rw [invocation] at called
    cases called
  | succ less =>
    obtain ⟨inside, left, wfInside, sameStore, ran, -⟩ := body_of_invocation wf₁ closed called
    cases less with
    | zero =>
      rw [body] at ran
      cases ran
    | succ less =>
      have known : ∀ a ∈ passed, inside.store.Has a.value := fun a among =>
        sameStore ▸ (given a among).value
      obtain ⟨bound, flow, last, done, inner, same, params, -⟩ := finalValues_of_body wfInside known
        (fun o is => sameStore ▸ received o is) (handed_of_pass arity handed).length_eq ran
      rw [sameStore] at inner
      rw [inner] at params
      cases same
      exact ⟨_, last, ⟨⟨passed, m₁, m₂, handed, rfl, called⟩, ⟨bound, flow, done, rfl⟩, inner⟩,
        params⟩

end Eval

/-- The function adds to a parameter passed by reference, and `main` divides by zero. -/
def Definition.incrementing : List Definition :=
  let sum : Expr := .binary .add (.var "a" ⟨1, 17⟩) (.bool true ⟨1, 19⟩) ⟨1, 17⟩
  let quotient : Expr := .binary .div (.int 1 ⟨1, 40⟩) (.int 0 ⟨1, 42⟩) ⟨1, 40⟩
  [⟨"f", [⟨"a", true, ⟨1, 8⟩⟩], [.assign ["a"] sum ⟨1, 15⟩], ⟨1, 1⟩⟩,
    ⟨"main", [], [.assign ["x"] quotient ⟨1, 38⟩], ⟨1, 26⟩⟩]

end Protoscript
