import Protoscript.Syntax

/-! # Functions

Each definition of a program is a function, which is told apart from all others by being that one
and not by its text: whatever looks it up gets the same function, and another definition with the
same text is another function. -/

set_option autoImplicit false

namespace Protoscript

structure FunctionId where
  index : Nat
deriving DecidableEq, Repr

/-- A definition of a program, with its identity. -/
structure Function extends Definition where
  id : FunctionId

namespace Function

/-- The functions of the definitions of a program, each with its place among them as its
identity. -/
def ofDefinitions (ds : List Definition) : List Function :=
  ds.zipIdx.map fun (d, place) => ⟨d, ⟨place⟩⟩

variable {ds : List Definition} {f g : Function}

theorem map_toDefinition_ofDefinitions (ds : List Definition) :
    (ofDefinitions ds).map toDefinition = ds := by
  rw [ofDefinitions, List.map_map]
  exact List.zipIdx_map_fst 0 ds

/-- What is read off the definitions alone. -/
theorem map_ofDefinitions {α : Type} (read : Definition → α) (ds : List Definition) :
    ((ofDefinitions ds).map fun f => read f.toDefinition) = ds.map read := by
  have reads := congrArg (List.map read) (map_toDefinition_ofDefinitions ds)
  rwa [List.map_map] at reads

theorem length_ofDefinitions (ds : List Definition) : (ofDefinitions ds).length = ds.length := by
  rw [ofDefinitions, List.length_map, List.length_zipIdx]

theorem mem_of_mem_ofDefinitions (among : f ∈ ofDefinitions ds) : f.toDefinition ∈ ds := by
  rw [← map_toDefinition_ofDefinitions ds]
  exact List.mem_map_of_mem among

theorem exists_mem_ofDefinitions {d : Definition} (among : d ∈ ds) :
    ∃ f ∈ ofDefinitions ds, f.toDefinition = d := by
  rw [← map_toDefinition_ofDefinitions ds] at among
  exact List.mem_map.mp among

/-- No two functions of a program have the same identity. -/
theorem eq_of_id_eq (left : f ∈ ofDefinitions ds) (right : g ∈ ofDefinitions ds)
    (same : f.id = g.id) : f = g := by
  obtain ⟨⟨d, i⟩, at_i, rfl⟩ := List.mem_map.mp left
  obtain ⟨⟨e, j⟩, at_j, rfl⟩ := List.mem_map.mp right
  obtain rfl : i = j := congrArg FunctionId.index same
  rw [List.mk_mem_zipIdx_iff_getElem?] at at_i at_j
  obtain rfl : d = e := Option.some.inj (at_i.symm.trans at_j)
  rfl

end Function

end Protoscript
