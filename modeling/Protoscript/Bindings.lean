import Protoscript.Value
import Std.Data.ExtTreeMap

/-! # Bindings

Names with their values.  `get?_insert` says what a look-up finds after an insertion, and
`get?_shadow` that an inner binding hides the outer one of its name.  `ext`: the look-ups are all
there is to bindings. -/

set_option autoImplicit false

namespace Protoscript

structure Bindings where
  table : Std.ExtTreeMap String Value

namespace Bindings

def empty : Bindings := ⟨∅⟩

instance : Inhabited Bindings := ⟨empty⟩

def get? (b : Bindings) (name : String) : Option Value := b.table[name]?

def contains (b : Bindings) (name : String) : Bool := (b.get? name).isSome

/-- Binds `name` to `value`, in place of its old value if it has one. -/
def insert (b : Bindings) (name : String) (value : Value) : Bindings :=
  ⟨b.table.insert name value⟩

/-- The bindings of `inner` and those of `outer` for other names. -/
def shadow (inner outer : Bindings) : Bindings := ⟨outer.table ∪ inner.table⟩

/-- The names with their values, in the order of the names. -/
def entries (b : Bindings) : List (String × Value) := b.table.toList

@[ext] theorem ext {b c : Bindings} (agree : ∀ name, b.get? name = c.get? name) : b = c := by
  obtain ⟨s⟩ := b
  obtain ⟨t⟩ := c
  exact congrArg mk (Std.ExtTreeMap.ext_getElem? agree)

@[simp] theorem get?_empty (name : String) : empty.get? name = none :=
  Std.ExtTreeMap.getElem?_empty

theorem get?_insert (b : Bindings) (name other : String) (value : Value) :
    (b.insert name value).get? other = if other = name then some value else b.get? other := by
  simp only [get?, insert, Std.ExtTreeMap.getElem?_insert, Std.LawfulEqCmp.compare_eq_iff_eq]
  grind

theorem get?_shadow (inner outer : Bindings) (name : String) :
    (inner.shadow outer).get? name = (inner.get? name).or (outer.get? name) :=
  Std.ExtTreeMap.getElem?_union

end Bindings

end Protoscript
