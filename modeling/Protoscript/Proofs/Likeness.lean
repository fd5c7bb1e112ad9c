import Protoscript.Eval
import Protoscript.Proofs.Likeness.Code
import Protoscript.Proofs.PlainValues
import Protoscript.Proofs.Renaming

/-! # Likenesses

A likeness says when two evaluations do the same: which lines, lambdas and functions of their
programs stand for each other, which frames, objects and closures do, how their consoles are
related, and which stops may end the left evaluation where the right one goes on.

`SameValue` relates the values of the two sides.  Values that are the same up to a likeness are
told apart by no operator and no built-in. -/

set_option autoImplicit false

namespace Protoscript

/-- Each for itself, functions are told apart alike. -/
theorem Function.id_eq_iff_of_eq {f f' g g' : Function} (same : f = f') (same' : g = g') :
    f.id = g.id ↔ f'.id = g'.id := by
  rw [same, same']

structure Likeness where
  code : Code
  /-- Functions that stand for each other as values; -/
  function : Function → Function → Prop
  /-- they are told apart alike. -/
  function_id : ∀ {f f' g g' : Function}, function f f' → function g g' →
    (f.id = g.id ↔ f'.id = g'.id)
  ids : Renaming
  console : Console → Console → Prop
  /-- The left evaluation may be cut short: it may stop so on the one console while the right one,
  that has come to the other, goes on. -/
  cut : Stop → Console → Console → Prop

namespace Likeness

variable (L : Likeness)

structure SameFunction (f g : Function) : Prop where
  known : L.function f g
  same : L.code.SameDefinition f.toDefinition g.toDefinition

structure SameClosure (c d : Closure) : Prop where
  id : L.ids.closures.Pairs c.id.index d.id.index
  captured : L.ids.SameFrame c.captured d.captured
  known : L.code.lambda c.definition d.definition
  same : L.code.SameDefinition c.definition d.definition

inductive SameValue : Value → Value → Prop
  | plain {v : Value} (plain : v.IsPlain) : SameValue v v
  | function {f g : Function} (same : L.SameFunction f g) :
    SameValue (.function f) (.function g)
  | closure {c d : Closure} (same : L.SameClosure c d) : SameValue (.closure c) (.closure d)
  | object {o p : ObjectId} (same : L.ids.SameObject o p) :
    SameValue (.object o) (.object p)

variable {L}

theorem SameClosure.id_eq_iff {c c' d d' : Closure} (same : L.SameClosure c d)
    (same' : L.SameClosure c' d') : c.id = c'.id ↔ d.id = d'.id := by
  obtain ⟨⟨i⟩, _, _⟩ := c
  obtain ⟨⟨i'⟩, _, _⟩ := c'
  obtain ⟨⟨j⟩, _, _⟩ := d
  obtain ⟨⟨j'⟩, _, _⟩ := d'
  rw [ClosureId.mk.injEq, ClosureId.mk.injEq]
  exact same.id.oneToOne same'.id

namespace SameValue

variable {v v' w w' : Value}

theorem kind_eq (same : L.SameValue v v') : v.kind = v'.kind := by cases same <;> rfl

theorem isCallable_eq (same : L.SameValue v v') : v.isCallable = v'.isCallable := by
  cases same <;> rfl

theorem text_eq (same : L.SameValue v v') : v.text = v'.text := by
  cases same with
  | function known => rw [Value.text, Value.text, known.same.name]
  | _ => rfl

/-- A conversion of plain values to plain values that leaves all others alone. -/
theorem converted {f : Value → Value} (keeps : ∀ v, v.IsPlain → (f v).IsPlain)
    (leaves : ∀ v, ¬ v.IsPlain → f v = v) (same : L.SameValue v v') : L.SameValue (f v) (f v') := by
  cases same with
  | plain plain => exact .plain (keeps v plain)
  | function known =>
    rw [leaves _ id, leaves _ id]
    exact .function known
  | closure known =>
    rw [leaves _ id, leaves _ id]
    exact .closure known
  | object pair =>
    rw [leaves _ id, leaves _ id]
    exact .object pair

theorem boolToInt (same : L.SameValue v v') : L.SameValue v.boolToInt v'.boolToInt := by
  refine same.converted ?_ ?_
  · intro v plain
    cases v <;> exact plain
  · intro v referring
    cases v <;> first | rfl | exact absurd trivial referring

theorem intToBool (same : L.SameValue v v') : L.SameValue v.intToBool v'.intToBool := by
  refine same.converted ?_ ?_
  · intro v plain
    cases v <;> exact plain
  · intro v referring
    cases v <;> first | rfl | exact absurd trivial referring

/-- Equality does not depend on the side. -/
theorem same_eq (left : L.SameValue v v') (right : L.SameValue w w') : v.same w = v'.same w' := by
  cases left with
  | plain plain =>
    cases right with
    | plain plain' => rfl
    | _ => cases v <;> first | rfl | cases plain
  | function left =>
    cases right with
    | plain plain => cases w <;> first | rfl | cases plain
    | function right =>
      rw [Value.same, Value.same, Bool.eq_iff_iff, beq_iff_eq, beq_iff_eq]
      exact L.function_id left.known right.known
    | _ => rfl
  | closure left =>
    cases right with
    | plain plain => cases w <;> first | rfl | cases plain
    | closure right =>
      rw [Value.same, Value.same, Bool.eq_iff_iff, beq_iff_eq, beq_iff_eq]
      exact left.id_eq_iff right
    | _ => rfl
  | object left =>
    cases right with
    | plain plain => cases w <;> first | rfl | cases plain
    | object right =>
      rw [Value.same, Value.same, Bool.eq_iff_iff, beq_iff_eq, beq_iff_eq]
      exact left.eq_iff right
    | _ => rfl

theorem eq_of_isPlain (same : L.SameValue v v') (plain : v.IsPlain) : v' = v := by
  cases same with
  | plain => rfl
  | _ => cases plain

theorem isPlain_iff (same : L.SameValue v v') : v.IsPlain ↔ v'.IsPlain := by
  cases same with
  | plain => exact .rfl
  | _ => exact ⟨nofun, nofun⟩

/-! ## Operators -/

theorem coerce (op : BinaryOp) (left : L.SameValue v v') (right : L.SameValue w w') :
    L.SameValue (op.coerce v w).1 (op.coerce v' w').1 ∧
      L.SameValue (op.coerce v w).2 (op.coerce v' w').2 := by
  unfold BinaryOp.coerce
  split
  · exact ⟨left.boolToInt, right.boolToInt⟩
  · split
    · exact ⟨left.intToBool, right.intToBool⟩
    · split
      · split
        · cases left
          cases right
          exact ⟨.plain trivial, .plain trivial⟩
        · cases left
          cases right
          exact ⟨.plain trivial, .plain trivial⟩
        · next unlike unlike' =>
          split
          · cases left
            cases right
            exact absurd rfl (unlike _ _ rfl)
          · cases left
            cases right
            exact absurd rfl (unlike' _ _ rfl)
          · exact ⟨left, right⟩
      · exact ⟨left, right⟩

theorem compute?_eq (p : Primitive) (left : L.SameValue v v') (right : L.SameValue w w') :
    p.compute? v w = p.compute? v' w' := by
  by_cases plain : v.IsPlain ∧ w.IsPlain
  · rw [left.eq_of_isPlain plain.1, right.eq_of_isPlain plain.2]
  · rw [Primitive.compute?_eq_none plain, Primitive.compute?_eq_none]
    rwa [← left.isPlain_iff, ← right.isPlain_iff]

/-- An operator gives the same plain value, or the same error. -/
theorem eval_eq (t : OperatorTable) (op : BinaryOp) (left : L.SameValue v v')
    (right : L.SameValue w w') : t.eval op v w = t.eval op v' w' := by
  obtain ⟨left, right⟩ := coerce op left right
  unfold OperatorTable.eval
  dsimp only
  rw [left.same_eq right, left.kind_eq, right.kind_eq]
  simp only [compute?_eq _ left right]

theorem unaryEval_eq (op : UnaryOp) (same : L.SameValue v v') : op.eval v = op.eval v' := by
  cases same with
  | plain => rfl
  | _ => cases op <;> rfl

end SameValue

theorem texts_eq {args args' : List Value} (same : List.Forall₂ L.SameValue args args') :
    args.map Value.text = args'.map Value.text := by
  induction same with
  | nil => rfl
  | cons head _ ih => rw [List.map_cons, List.map_cons, head.text_eq, ih]

end Likeness

end Protoscript
