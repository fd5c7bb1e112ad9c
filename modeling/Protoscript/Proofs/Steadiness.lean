import Protoscript.Eval.Steps

/-! # Usual steps

A usual step leaves the number of calls under way as it is, and is stopped only by an error that it
raises itself, one of those that tell what is wrong with a value or a name: it never runs out of
fuel, it never asks for input, and it needs no fallback.  All look-ups, writes and checks are usual,
but for an assignment without a target, which is merely steady.  What may stop evaluation otherwise
is the evaluation of other trees, and the built-ins. -/

set_option autoImplicit false

namespace Protoscript

/-- All that can be wrong but for missing input. -/
def RuntimeError.Cause.IsRaised : RuntimeError.Cause → Prop
  | .endOfInput => False
  | _ => True

def Stop.IsRaised (s : Stop) : Prop := ∃ cause line, cause.IsRaised ∧ s = .error ⟨cause, line⟩

/-- All that can be wrong but for missing input and what a fallback stands for. -/
def RuntimeError.Cause.IsUsual : RuntimeError.Cause → Prop
  | .endOfInput | .unknownBuiltin _ | .notCallable _ | .noTarget => False
  | _ => True

theorem RuntimeError.Cause.IsUsual.isRaised {cause : RuntimeError.Cause} (usual : cause.IsUsual) :
    cause.IsRaised := by
  cases cause <;> trivial

/-! ## Operators -/

theorem Primitive.cause_of_compute? {p : Primitive} {l r : Value}
    {cause : RuntimeError.Cause} (computed : p.compute? l r = some (.error cause)) :
    cause = .divisionByZero := by
  unfold Primitive.compute? at computed
  split at computed
  case h_4 a b =>
    split at computed
    · cases computed
      rfl
    · cases computed
  all_goals cases computed

/-- A binary operation divides by zero or is not defined. -/
theorem OperatorTable.cause_of_eval {t : OperatorTable} {op : BinaryOp} {l r : Value}
    {cause : RuntimeError.Cause} (evaluated : t.eval op l r = .error cause) :
    cause = .divisionByZero ∨ ∃ left right, cause = .binaryUndefined op left right := by
  dsimp only [OperatorTable.eval] at evaluated
  split at evaluated
  · cases evaluated
  · split at evaluated
    · split at evaluated
      · next p _ =>
        cases result : p.compute? (op.coerce l r).1 (op.coerce l r).2 with
        | none =>
          rw [result] at evaluated
          cases evaluated
          exact .inr ⟨_, _, rfl⟩
        | some computed =>
          rw [result, Option.getD_some] at evaluated
          subst evaluated
          exact .inl (Primitive.cause_of_compute? result)
      · cases evaluated
        exact .inr ⟨_, _, rfl⟩
    · cases evaluated
      exact .inr ⟨_, _, rfl⟩

theorem UnaryOp.cause_of_eval {op : UnaryOp} {v : Value} {cause : RuntimeError.Cause}
    (evaluated : op.eval v = .error cause) : ∃ kind, cause = .unaryUndefined op kind := by
  cases op with
  | neg => cases v <;> cases evaluated <;> exact ⟨_, rfl⟩
  | not => cases v <;> cases evaluated <;> exact ⟨_, rfl⟩

namespace Eval

structure Steady {α : Type} (x : Eval α) : Prop where
  depth : ∀ m, (x.run m).machine.depth = m.depth
  stops : ∀ m s after, x.run m = .error s after → s.IsRaised

structure Usual {α : Type} (x : Eval α) : Prop where
  depth : ∀ m, (x.run m).machine.depth = m.depth
  stops : ∀ m s after, x.run m = .error s after →
    ∃ cause line, RuntimeError.Cause.IsUsual cause ∧ s = .error ⟨cause, line⟩

namespace Usual

variable {α β : Type}

/-! ## Composed steps -/

theorem pure (a : α) : (Pure.pure a : Eval α).Usual where
  depth _ := rfl
  stops _ _ _ ended := by cases ended

theorem get : Eval.get.Usual where
  depth _ := rfl
  stops _ _ _ ended := by cases ended

theorem fail {cause : RuntimeError.Cause} {line : Nat} (usual : cause.IsUsual) :
    (Eval.fail cause line : Eval α).Usual where
  depth _ := rfl
  stops _ _ _ ended := by
    cases ended
    exact ⟨cause, line, usual, rfl⟩

theorem modify {f : Machine → Machine} (depth : ∀ m, (f m).depth = m.depth) :
    (Eval.modify f).Usual where
  depth := depth
  stops _ _ _ ended := by cases ended

theorem modifyGet {f : Machine → α × Machine} (depth : ∀ m, (f m).2.depth = m.depth) :
    (Eval.modifyGet f).Usual where
  depth := depth
  stops _ _ _ ended := by cases ended

theorem bind {x : Eval α} {f : α → Eval β} (first : x.Usual) (second : ∀ a, (f a).Usual) :
    (x >>= f).Usual where
  depth m := by
    have kept := first.depth m
    cases ended : x.run m with
    | ok a after =>
      rw [ended] at kept
      rw [run_bind_of_ok ended, (second a).depth after]
      exact kept
    | error s after =>
      rw [ended] at kept
      rw [run_bind_of_error ended]
      exact kept
  stops m s after stopped := by
    cases ended : x.run m with
    | ok a between =>
      rw [run_bind_of_ok ended] at stopped
      exact (second a).stops between s after stopped
    | error t between =>
      rw [run_bind_of_error ended] at stopped
      cases stopped
      exact first.stops m _ _ ended

/-! ## Single steps -/

theorem attempt {result : Except RuntimeError.Cause α}
    (usual : ∀ cause, result = .error cause → cause.IsUsual) (line : Nat) :
    (Eval.attempt line result).Usual := by
  cases result with
  | ok a => exact pure a
  | error cause => exact fail (usual cause rfl)

theorem binary (t : OperatorTable) (op : BinaryOp) (l r : Value) (line : Nat) :
    (Eval.attempt line (t.eval op l r)).Usual := by
  refine attempt (fun cause evaluated => ?_) line
  rcases OperatorTable.cause_of_eval evaluated with rfl | ⟨_, _, rfl⟩ <;> trivial

theorem unary (op : UnaryOp) (v : Value) (line : Nat) :
    (Eval.attempt line (op.eval v)).Usual := by
  refine attempt (fun cause evaluated => ?_) line
  obtain ⟨_, rfl⟩ := UnaryOp.cause_of_eval evaluated
  trivial

theorem record (e : Event) : (Eval.record e).Usual := modify fun _ => rfl

theorem binding? (name : String) : (Eval.binding? name).Usual := bind get fun _ => pure _

theorem set (name : String) (v : Value) : (Eval.set name v).Usual := modify fun _ => rfl

theorem create (name : String) (v : Value) : (Eval.create name v).Usual := modify fun _ => rfl

theorem newObject : Eval.newObject.Usual := modifyGet fun _ => rfl

theorem newClosure (d : Definition) : (Eval.newClosure d).Usual := modifyGet fun _ => rfl

theorem objectOf (v : Value) (member : String) (line : Nat) :
    (Eval.objectOf v member line).Usual := by
  cases v with
  | object o => exact pure o
  | _ => exact fail trivial

theorem memberOf (v : Value) (member : String) (line : Nat) :
    (Eval.memberOf v member line).Usual := by
  apply bind (objectOf v member line)
  intro o
  apply bind get
  intro m
  cases m.store.getMember o member with
  | some w => exact pure w
  | none => exact fail trivial

theorem lookup (setting : Setting) (name : String) (line : Nat) :
    (Eval.lookup setting name line).Usual := by
  apply bind (binding? name)
  intro found
  cases found with
  | some v => exact pure v
  | none =>
    dsimp only
    split
    · exact fail trivial
    · exact pure _
    · exact fail trivial

theorem follow (v : Value) (line : Nat) (names : List String) :
    (Eval.follow v line names).Usual := by
  induction names generalizing v with
  | nil => exact pure v
  | cons name names ih => exact bind (memberOf v name line) fun next => ih next

theorem setMember (o : ObjectId) (name : String) (v : Value) (line : Nat) :
    (Eval.setMember o name v line).Usual := by
  apply bind get
  intro m
  cases m.store.setMember o name v with
  | ok s => exact modify fun _ => rfl
  | error kind => exact fail trivial

/-- An assignment that has a target. -/
theorem assign {target : List String} (some : target ≠ []) (v : Value) (line : Nat) :
    (Eval.assign target v line).Usual := by
  match target, some with
  | [name], _ => exact set name v
  | root :: field :: fields, _ =>
    apply bind (binding? root)
    intro found
    cases found with
    | none => exact fail trivial
    | some w =>
      apply bind (follow w line _)
      intro holder
      apply bind (objectOf holder _ line)
      intro o
      exact setMember o _ v line

theorem sourceOf (function : String) (p : Param) (arg : Expr) :
    (Eval.sourceOf function p arg).Usual := by
  have refused : (if p.byRef then Eval.fail (.refNeedsVariable p.name function) arg.position.line
      else Pure.pure none : Eval (Option String)).Usual := by
    split
    · exact fail trivial
    · exact pure none
  unfold Eval.sourceOf
  dsimp only
  split
  · next name _ =>
    apply bind (binding? name)
    intro found
    split
    · exact pure _
    · exact refused
  · exact refused

theorem bindParams (ps : List Param) (passed : List Passed) :
    (Eval.bindParams ps passed).Usual := by
  induction ps generalizing passed with
  | nil => exact pure ()
  | cons p ps ih =>
    cases passed with
    | nil => exact pure ()
    | cons a as => exact bind (create p.name a.value) fun _ => ih as

theorem bindThis (this : Option ObjectId) : (Eval.bindThis this).Usual := by
  cases this with
  | none => exact pure ()
  | some o => exact create "this" (.object o)

theorem writeBack (back : List (String × Value)) : (Eval.writeBack back).Usual := by
  induction back with
  | nil => exact pure ()
  | cons w rest ih => exact bind (set w.1 w.2) fun _ => ih

theorem steady {x : Eval α} (usual : x.Usual) : x.Steady where
  depth := usual.depth
  stops m s after ended := by
    obtain ⟨cause, line, usual, same⟩ := usual.stops m s after ended
    exact ⟨cause, line, usual.isRaised, same⟩

theorem steady_assign (target : List String) (v : Value) (line : Nat) :
    (Eval.assign target v line).Steady := by
  cases target with
  | nil =>
    refine ⟨fun _ => rfl, ?_⟩
    rintro m s after ⟨⟩
    exact ⟨.noTarget, line, trivial, rfl⟩
  | cons name names => exact (assign (List.cons_ne_nil _ _) v line).steady

end Usual

end Eval

end Protoscript
