import Protoscript.Builtin
import Protoscript.Operator

/-! # Plain values

A plain value refers to nothing: it is no function, closure or object.  Operators and built-ins
give only plain values. -/

set_option autoImplicit false

namespace Protoscript

def Value.IsPlain : Value → Prop
  | .int _ | .bool _ | .str _ | .nil => True
  | .function _ | .closure _ | .object _ => False

theorem Primitive.isPlain_of_compute? {p : Primitive} {l r v : Value}
    (computed : p.compute? l r = some (.ok v)) : v.IsPlain := by
  unfold Primitive.compute? at computed
  split at computed
  case h_4 a b =>
    split at computed
    · cases computed
    · cases computed
      trivial
  all_goals
    cases computed
    try trivial

/-- A primitive takes only plain values. -/
theorem Primitive.compute?_eq_none {p : Primitive} {l r : Value}
    (plain : ¬ (l.IsPlain ∧ r.IsPlain)) : p.compute? l r = none := by
  unfold Primitive.compute?
  split
  case h_12 => rfl
  all_goals exact absurd ⟨trivial, trivial⟩ plain

theorem OperatorTable.isPlain_of_eval {t : OperatorTable} {op : BinaryOp} {l r v : Value}
    (evaluated : t.eval op l r = .ok v) : v.IsPlain := by
  dsimp only [OperatorTable.eval] at evaluated
  split at evaluated
  · cases evaluated
    trivial
  · split at evaluated
    · split at evaluated
      · next p _ =>
        cases result : p.compute? (op.coerce l r).1 (op.coerce l r).2 with
        | none =>
          rw [result] at evaluated
          cases evaluated
        | some computed =>
          rw [result, Option.getD_some] at evaluated
          subst evaluated
          exact Primitive.isPlain_of_compute? result
      · cases evaluated
    · cases evaluated

theorem UnaryOp.isPlain_of_eval {op : UnaryOp} {v w : Value} (evaluated : op.eval v = .ok w) :
    w.IsPlain := by
  cases op with
  | neg =>
    cases v <;> cases evaluated
    trivial
  | not => cases v <;> cases evaluated <;> trivial

namespace Builtin

/-- A composed interaction ends well only if both of its parts do. -/
theorem exists_of_bind_eq_ok {α β : Type} {x : Interaction α} {f : α → Interaction β}
    {c after : Console} {b : β} (ended : (x >>= f) c = .ok b after) :
    ∃ a between, x c = .ok a between ∧ f a between = .ok b after := by
  change EStateM.bind x f c = .ok b after at ended
  unfold EStateM.bind at ended
  split at ended
  · next a between first => exact ⟨a, between, first, ended⟩
  · cases ended

theorem isPlain_of_run {b : Builtin} {args : List Value} {line : Nat} {c after : Console}
    {v : Value} (ran : b.run args line c = .ok v after) : v.IsPlain := by
  obtain ⟨_, checked, _, ran⟩ := exists_of_bind_eq_ok ran
  cases b with
  | print =>
    obtain ⟨_, printed, _, ran⟩ := exists_of_bind_eq_ok ran
    cases ran
    trivial
  | inputi =>
    obtain ⟨text, asked, _, ran⟩ := exists_of_bind_eq_ok ran
    cases read : Numeral.signed? (Text.trim text.toList) with
    | some n =>
      rw [read] at ran
      cases ran
      trivial
    | none =>
      rw [read] at ran
      cases ran
  | inputs =>
    obtain ⟨text, asked, _, ran⟩ := exists_of_bind_eq_ok ran
    cases ran
    trivial

theorem isPlain_of_call? {provided : List Builtin} {name : String} {args : List Value}
    {line : Nat} {c after : Console} {v : Value}
    (called : call? provided name args line c = .ok (some v) after) : v.IsPlain := by
  unfold call? at called
  cases found : named? provided name with
  | some b =>
    rw [found] at called
    obtain ⟨w, between, ran, called⟩ := exists_of_bind_eq_ok called
    cases called
    exact isPlain_of_run ran
  | none =>
    rw [found] at called
    cases called

end Builtin

end Protoscript
