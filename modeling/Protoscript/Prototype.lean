import Protoscript.Store

/-! # Members of objects

A member is looked up in the object itself, then along its chain of prototypes.  The chain may
run into itself.  The objects that it visits before it repeats one are distinct, so there are at
most as many as the store holds: a search of that many steps misses none.  A write goes to the
object itself.  The name `proto` stands for the prototype and is never a field. -/

set_option autoImplicit false

namespace Protoscript

namespace Store

/-- The field `name` of the first object that has it, among the first `steps` objects of the
chain that starts at `o`. -/
def findField (s : Store) (name : String) (steps : Nat) (o : ObjectId) : Option Value :=
  match steps with
  | 0 => none
  | steps + 1 =>
    match (s.object o).fields.get? name with
    | some value => some value
    | none =>
      match (s.object o).proto with
      | none => none
      | some next => s.findField name steps next

/-- The name that stands for the prototype. -/
def protoName : String := "proto"

/-- The prototype as a value: an object or nil. -/
def protoValue (s : Store) (o : ObjectId) : Value :=
  match (s.object o).proto with
  | some p => .object p
  | none => .nil

/-- The member `name` of an object: its own, or else that of the nearest prototype with one. -/
def getMember (s : Store) (o : ObjectId) (name : String) : Option Value :=
  if name = protoName then some (s.protoValue o) else s.findField name s.objects.size o

/-- Writes a member of the object itself.  A prototype has to be an object or nil; any other
value is refused, and its kind given. -/
def setMember (s : Store) (o : ObjectId) (name : String) (value : Value) : Except Kind Store :=
  if name = protoName then
    match value with
    | .object p => .ok (s.setProto o (some p))
    | .nil => .ok (s.setProto o none)
    | other => .error other.kind
  else
    .ok (s.setField o name value)

theorem frames_setMember {s t : Store} {o : ObjectId} {name : String} {value : Value}
    (written : s.setMember o name value = .ok t) : t.frames = s.frames := by
  unfold setMember at written
  split at written
  · split at written <;> cases written <;> rfl
  · cases written
    rfl

theorem closures_setMember {s t : Store} {o : ObjectId} {name : String} {value : Value}
    (written : s.setMember o name value = .ok t) : t.closures = s.closures := by
  unfold setMember at written
  split at written
  · split at written <;> cases written <;> rfl
  · cases written
    rfl

end Store

end Protoscript
