import Protoscript.Bindings

/-! # The store

Everything that values refer to: frames of variables, objects with their fields and prototype,
and the closures made.  What was never allocated reads as empty, and a write to it is
lost.  The lemmas say what each write leaves behind: it changes the one frame or object it is
for. -/

set_option autoImplicit false

namespace Protoscript

structure Object where
  fields : Bindings
  proto : Option ObjectId

def Object.empty : Object := ⟨.empty, none⟩

structure Store where
  frames : Array Bindings
  objects : Array Object
  closures : Array Closure

namespace Store

def empty : Store := ⟨#[], #[], #[]⟩

/-! ## Frames -/

def frame (s : Store) (f : FrameId) : Bindings := s.frames.getD f.index .empty

def newFrame (s : Store) (b : Bindings) : FrameId × Store :=
  (⟨s.frames.size⟩, { s with frames := s.frames.push b })

/-- Binds a name in a frame. -/
def bind (s : Store) (f : FrameId) (name : String) (value : Value) : Store :=
  { s with frames := s.frames.modify f.index fun b => b.insert name value }

theorem frame_bind_self {s : Store} {f : FrameId} (allocated : f.index < s.frames.size)
    (name : String) (value : Value) :
    (s.bind f name value).frame f = (s.frame f).insert name value := by
  simp [frame, bind, allocated, Array.getElem_modify]

theorem frame_bind_of_ne (s : Store) {f g : FrameId} (other : g ≠ f) (name : String)
    (value : Value) : (s.bind f name value).frame g = s.frame g := by
  obtain ⟨i⟩ := f
  obtain ⟨j⟩ := g
  have distinct : i ≠ j := fun h => other (by rw [h])
  simp [frame, bind, Array.getElem?_modify, Array.getD_eq_getD_getElem?, distinct]

@[simp] theorem size_frames_bind (s : Store) (f : FrameId) (name : String) (value : Value) :
    (s.bind f name value).frames.size = s.frames.size :=
  Array.size_modify

theorem frame_of_size_le {s : Store} {f : FrameId} (missing : s.frames.size ≤ f.index) :
    s.frame f = .empty := by
  simp [frame, missing]

theorem getElem?_frames {s : Store} {f : FrameId} (allocated : f.index < s.frames.size) :
    s.frames[f.index]? = some (s.frame f) := by
  simp [frame, allocated]

theorem frame_push_of_lt {s t : Store} {b : Bindings} (pushed : t.frames = s.frames.push b)
    {f : FrameId} (old : f.index < s.frames.size) : t.frame f = s.frame f := by
  simp [frame, pushed, Array.getD_eq_getD_getElem?, Array.getElem?_push, Nat.ne_of_lt old]

theorem frame_push_self {s t : Store} {b : Bindings} (pushed : t.frames = s.frames.push b) :
    t.frame ⟨s.frames.size⟩ = b := by
  simp [frame, pushed]

theorem contains_frame_bind {s : Store} {f : FrameId} (allocated : f.index < s.frames.size)
    (g : FrameId) (name other : String) (value : Value) :
    ((s.bind f name value).frame g).contains other = true ↔
      (s.frame g).contains other = true ∨ g = f ∧ other = name := by
  by_cases same : g = f
  · subst same
    rw [frame_bind_self allocated, Bindings.contains, Bindings.get?_insert, Bindings.contains]
    by_cases named : other = name <;> simp [named]
  · rw [frame_bind_of_ne s same]
    simp [same]

theorem allocated_of_contains {s : Store} {f : FrameId} {name : String}
    (bound : (s.frame f).contains name = true) : f.index < s.frames.size := by
  apply Nat.lt_of_not_le
  intro missing
  rw [frame_of_size_le missing, Bindings.contains, Bindings.get?_empty] at bound
  cases bound

/-! ## Objects -/

def object (s : Store) (o : ObjectId) : Object := s.objects.getD o.index .empty

def newObject (s : Store) : ObjectId × Store :=
  (⟨s.objects.size⟩, { s with objects := s.objects.push .empty })

def setField (s : Store) (o : ObjectId) (name : String) (value : Value) : Store :=
  { s with objects := s.objects.modify o.index fun object =>
      { object with fields := object.fields.insert name value } }

def setProto (s : Store) (o : ObjectId) (proto : Option ObjectId) : Store :=
  { s with objects := s.objects.modify o.index fun object => { object with proto := proto } }

theorem object_of_size_le {s : Store} {o : ObjectId} (missing : s.objects.size ≤ o.index) :
    s.object o = .empty := by
  simp [object, missing]

theorem getElem?_objects {s : Store} {o : ObjectId} (allocated : o.index < s.objects.size) :
    s.objects[o.index]? = some (s.object o) := by
  simp [object, allocated]

theorem object_newObject_of_lt {s : Store} {o : ObjectId} (old : o.index < s.objects.size) :
    s.newObject.2.object o = s.object o := by
  simp [object, newObject, Array.getD_eq_getD_getElem?, Array.getElem?_push, Nat.ne_of_lt old]

theorem object_newObject_of_le {s : Store} {o : ObjectId} (new : s.objects.size ≤ o.index) :
    s.newObject.2.object o = .empty := by
  rcases Nat.eq_or_lt_of_le new with same | beyond
  · simp [object, newObject, Array.getD_eq_getD_getElem?, ← same]
  · have missing : s.newObject.2.objects.size ≤ o.index := by
      rw [newObject, Array.size_push]
      exact beyond
    exact object_of_size_le missing

theorem object_setField_self {s : Store} {o : ObjectId} (allocated : o.index < s.objects.size)
    (name : String) (value : Value) :
    (s.setField o name value).object o =
      { s.object o with fields := (s.object o).fields.insert name value } := by
  simp [object, setField, allocated, Array.getElem_modify]

theorem object_setField_of_ne (s : Store) {o p : ObjectId} (other : p ≠ o) (name : String)
    (value : Value) : (s.setField o name value).object p = s.object p := by
  obtain ⟨i⟩ := o
  obtain ⟨j⟩ := p
  have distinct : i ≠ j := fun h => other (by rw [h])
  simp [object, setField, Array.getElem?_modify, Array.getD_eq_getD_getElem?, distinct]

theorem object_setProto_self {s : Store} {o : ObjectId} (allocated : o.index < s.objects.size)
    (proto : Option ObjectId) :
    (s.setProto o proto).object o = { s.object o with proto := proto } := by
  simp [object, setProto, allocated, Array.getElem_modify]

theorem object_setProto_of_ne (s : Store) {o p : ObjectId} (other : p ≠ o)
    (proto : Option ObjectId) : (s.setProto o proto).object p = s.object p := by
  obtain ⟨i⟩ := o
  obtain ⟨j⟩ := p
  have distinct : i ≠ j := fun h => other (by rw [h])
  simp [object, setProto, Array.getElem?_modify, Array.getD_eq_getD_getElem?, distinct]

/-! ## Closures -/

/-- A closure over a new frame of its own. -/
def newClosure (s : Store) (d : Definition) (visible : Bindings) : Closure × Store :=
  let c : Closure := ⟨⟨s.closures.size⟩, d, ⟨s.frames.size⟩⟩
  (c, { s with frames := s.frames.push visible, closures := s.closures.push c })

end Store

end Protoscript
