import Protoscript.Proofs.FunctionTables
import Protoscript.Proofs.Likeness

/-! # Function tables up to a likeness

Two tables are the same up to a likeness if every look-up under a name of its code finds the same
functions in both.  To insert the same function into both is refused by both or keeps them the
same. -/

set_option autoImplicit false

namespace Protoscript

namespace Likeness

structure SameTable (L : Likeness) (t u : FunctionTable) : Prop where
  overloads : ∀ {name}, L.code.name name →
    List.Forall₂ L.SameFunction (t.overloads name) (u.overloads name)
  get? : ∀ {name}, L.code.name name → ∀ arity,
    Option.Rel L.SameFunction (t.get? name arity) (u.get? name arity)
  contains : ∀ {name}, L.code.name name → t.contains name = u.contains name

namespace SameTable

variable {L : Likeness} {t u : FunctionTable}

theorem self_get? (refl : ∀ name, ∀ f ∈ t.overloads name, L.SameFunction f f) (name : String)
    (arity : Nat) : Option.Rel L.SameFunction (t.get? name arity) (t.get? name arity) := by
  cases found : t.get? name arity with
  | none => exact .none
  | some f => exact .some (refl name f (FunctionTable.mem_overloads found))

theorem self (refl : ∀ name, ∀ f ∈ t.overloads name, L.SameFunction f f) : L.SameTable t t where
  overloads {name} _ := List.forall₂_same.mpr (refl name)
  get? {name} _ arity := self_get? refl name arity
  contains _ := rfl

theorem of_get? (get? : ∀ {name}, L.code.name name → ∀ arity, Option.Rel L.SameFunction
    (t.get? name arity) (u.get? name arity))
    (contains : ∀ {name}, L.code.name name → t.contains name = u.contains name) :
    L.SameTable t u :=
  ⟨fun known => FunctionTable.forall₂_overloads (get? known), get?, contains⟩

theorem empty : L.SameTable .empty .empty := by
  apply of_get?
  · intro name _ arity
    rw [FunctionTable.get?_empty]
    exact .none
  · exact fun _ => rfl

theorem insert (tables : L.SameTable t u) {f g : Function} (function : L.SameFunction f g)
    (known : L.code.name f.name) :
    (∃ t' u', t.insert f = (.ok (), t') ∧ u.insert g = (.ok (), u') ∧ L.SameTable t' u') ∨
      ∃ x y, t.insert f = (.error x, t) ∧ u.insert g = (.error y, u) ∧ L.SameFunction x y := by
  have found := tables.get? known f.arity
  have name := function.same.name
  have arity := function.same.arity
  generalize before : t.get? f.name f.arity = x at found
  generalize before' : u.get? f.name f.arity = y at found
  rw [name, arity] at before'
  cases found with
  | some existing =>
    exact .inr ⟨_, _, FunctionTable.insert_of_get?_eq_some before,
      FunctionTable.insert_of_get?_eq_some before', existing⟩
  | none =>
    have added := FunctionTable.insert_of_get?_eq_none before
    have added' := FunctionTable.insert_of_get?_eq_none before'
    refine .inl ⟨_, _, added, added', of_get? ?_ ?_⟩
    · intro other known count
      rw [FunctionTable.get?_of_insert added, FunctionTable.get?_of_insert added', name, arity]
      split
      · exact .some function
      · exact tables.get? known count
    · intro other known
      rw [FunctionTable.contains_of_insert added, FunctionTable.contains_of_insert added', name,
        tables.contains known]

end SameTable

end Likeness

end Protoscript
