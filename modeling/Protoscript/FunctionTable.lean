import Protoscript.Diagnostic
import Protoscript.Function
import Std.Data.ExtTreeMap

/-! # The functions of a program

Functions are found by name and number of parameters.  A table keeps them by these two and refuses
a second one of the same signature.  To insert a function makes an entry for its name before
anything is looked up there; so it leaves a table even if it refuses the function.
`get?_of_insert` says what a look-up finds after an insertion. -/

set_option autoImplicit false

namespace Protoscript

structure FunctionTable where
  byName : Std.ExtTreeMap String (Std.ExtTreeMap Nat Function)

namespace FunctionTable

def empty : FunctionTable := ⟨∅⟩

/-- The functions of that name, by number of parameters. -/
def ofName (t : FunctionTable) (name : String) : Std.ExtTreeMap Nat Function :=
  t.byName.getD name ∅

/-- The function of that name with that many parameters. -/
def get? (t : FunctionTable) (name : String) (arity : Nat) : Option Function :=
  (t.ofName name)[arity]?

/-- The functions of that name, those with fewer parameters first. -/
def overloads (t : FunctionTable) (name : String) : List Function :=
  (t.ofName name).toList.map Prod.snd

def contains (t : FunctionTable) (name : String) : Bool := t.byName.contains name

def names (t : FunctionTable) : List String := t.byName.keys

/-- How many functions the entries of all names have together. -/
def size (t : FunctionTable) : Nat := t.byName.foldl (fun count _ inner => count + inner.size) 0

def isEmpty (t : FunctionTable) : Bool := t.byName.isEmpty

/-- The table with an entry for the name.  If it had none, that is one without functions. -/
def opened (t : FunctionTable) (name : String) : FunctionTable := ⟨t.byName.insertIfNew name ∅⟩

/-- Adds a function, or gives the one that already has its signature.  Beside that comes the table
that is left. -/
def insert (t : FunctionTable) (f : Function) : Except Function Unit × FunctionTable :=
  let opened := t.opened f.name
  match opened.get? f.name f.arity with
  | some existing => (.error existing, opened)
  | none => (.ok (), ⟨opened.byName.insert f.name ((opened.ofName f.name).insert f.arity f)⟩)

theorem get?_empty (name : String) (arity : Nat) : empty.get? name arity = none := by
  simp [get?, ofName, empty]

section Insertion

variable {t : FunctionTable} {f : Function} {name : String} {arity : Nat}

theorem contains_of_get? (found : t.get? name arity = some f) : t.contains name = true := by
  rw [← Bool.not_eq_false]
  intro missing
  have none : t.byName.getD name ∅ = ∅ :=
    Std.ExtTreeMap.getD_eq_fallback_of_contains_eq_false missing
  rw [get?, ofName, none, Std.ExtTreeMap.getElem?_empty] at found
  cases found

/-- A name that has an entry keeps it. -/
theorem opened_of_contains (known : t.contains name = true) : t.opened name = t := by
  have kept : t.byName.insertIfNew name ∅ = t.byName := by
    apply Std.ExtTreeMap.ext_getElem?
    intro other
    rw [Std.ExtTreeMap.getElem?_insertIfNew, if_neg]
    exact fun new => new.2 known
  rw [opened, kept]

/-- An entry without functions is as good as none. -/
theorem ofName_opened (t : FunctionTable) (new name : String) :
    (t.opened new).ofName name = t.ofName name := by
  rw [ofName, ofName, opened, Std.ExtTreeMap.getD_insertIfNew]
  split
  · next here =>
    rw [← Std.LawfulEqCmp.eq_of_compare here.1, Std.ExtTreeMap.getD_eq_fallback here.2]
  · rfl

theorem get?_opened (t : FunctionTable) (new name : String) (arity : Nat) :
    (t.opened new).get? name arity = t.get? name arity := by
  rw [get?, ofName_opened, get?]

/-- A function whose signature is taken is refused, and then the table is as it was. -/
theorem insert_of_get?_eq_some {existing : Function}
    (found : t.get? f.name f.arity = some existing) : t.insert f = (.error existing, t) := by
  unfold insert
  dsimp only
  rw [get?_opened, found, opened_of_contains (contains_of_get? found)]

/-- Any other function is taken in. -/
theorem insert_of_get?_eq_none (free : t.get? f.name f.arity = none) :
    t.insert f = (.ok (), ⟨t.byName.insert f.name ((t.ofName f.name).insert f.arity f)⟩) := by
  have covered : ∀ inner, (t.opened f.name).byName.insert f.name inner =
      t.byName.insert f.name inner := by
    intro inner
    apply Std.ExtTreeMap.ext_getElem?
    intro name
    rw [opened, Std.ExtTreeMap.getElem?_insert, Std.ExtTreeMap.getElem?_insert,
      Std.ExtTreeMap.getElem?_insertIfNew]
    grind
  unfold insert
  dsimp only
  rw [get?_opened, free, ofName_opened, covered]

/-- What comes of an insertion. -/
theorem insert_cases (t : FunctionTable) (f : Function) :
    (∃ u, t.insert f = (.ok (), u)) ∨
      ∃ existing, t.get? f.name f.arity = some existing ∧ t.insert f = (.error existing, t) := by
  cases found : t.get? f.name f.arity with
  | none => exact .inl ⟨_, insert_of_get?_eq_none found⟩
  | some existing => exact .inr ⟨existing, rfl, insert_of_get?_eq_some found⟩

section

variable {u : FunctionTable} (added : t.insert f = (.ok (), u))

include added

theorem get?_eq_none_of_insert : t.get? f.name f.arity = none := by
  cases found : t.get? f.name f.arity with
  | none => rfl
  | some existing =>
    rw [insert_of_get?_eq_some found] at added
    cases added

theorem eq_of_insert : u = ⟨t.byName.insert f.name ((t.ofName f.name).insert f.arity f)⟩ := by
  rw [insert_of_get?_eq_none (get?_eq_none_of_insert added)] at added
  exact (congrArg Prod.snd added).symm

theorem ofName_of_insert (name : String) :
    u.ofName name =
      if name = f.name then (t.ofName f.name).insert f.arity f else t.ofName name := by
  rw [eq_of_insert added, ofName, Std.ExtTreeMap.getD_insert]
  simp only [Std.LawfulEqCmp.compare_eq_iff_eq, eq_comm (a := f.name)]
  rfl

theorem get?_of_insert (name : String) (arity : Nat) :
    u.get? name arity = if name = f.name ∧ arity = f.arity then some f else t.get? name arity := by
  rw [get?, ofName_of_insert added]
  split
  · next here =>
    subst name
    rw [Std.ExtTreeMap.getElem?_insert]
    simp only [Std.LawfulEqCmp.compare_eq_iff_eq, true_and, eq_comm (a := f.arity)]
    rfl
  · next other => rw [if_neg (fun here => other here.1), get?]

end

end Insertion

/-- Adds the functions in turn.  Each refused one is a redefinition, reported where it stands. -/
def collect (t : FunctionTable) : List Function → FunctionTable × List Diagnostic
  | [] => (t, [])
  | f :: fs =>
    match t.insert f with
    | (.ok (), grown) => grown.collect fs
    | (.error existing, left) =>
      let later := left.collect fs
      let report := ⟨.redefinition f.name f.arity existing.position.line, f.position⟩
      (later.1, report :: later.2)

/-- The table that the definitions of a program leave, and the redefinitions among them. -/
def collected (ds : List Definition) : FunctionTable × List Diagnostic :=
  empty.collect (Function.ofDefinitions ds)

/-- The table of a list of definitions, or every redefinition in it. -/
def ofDefinitions (ds : List Definition) : Except (List Diagnostic) FunctionTable :=
  match collected ds with
  | (t, []) => .ok t
  | (_, errors) => .error errors

end FunctionTable

end Protoscript
