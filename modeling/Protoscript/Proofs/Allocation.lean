import Protoscript.Machine

/-! # Allocation

A store is well formed if all that its values refer to was allocated in it.  What was never
allocated cannot be named by any value, so what is allocated next is new to every one.
`Store.Extends`: nothing that was allocated goes away, and a closure made later captures a frame
allocated later.  The lemmas say of each operation that it keeps the first and does the second. -/

set_option autoImplicit false

namespace Protoscript

namespace Store

/-- What the value refers to is in the store. -/
def Has (s : Store) : Value → Prop
  | .closure c => c ∈ s.closures
  | .object o => o.index < s.objects.size
  | .int _ | .bool _ | .str _ | .nil | .function _ => True

/-- Some closure has the frame as its captured one. -/
def Captures (s : Store) (f : FrameId) : Prop := ∃ c ∈ s.closures, c.captured = f

structure WellFormed (s : Store) : Prop where
  /-- The number of a closure is its place. -/
  numbered : ∀ c ∈ s.closures, s.closures[c.id.index]? = some c
  captured : ∀ c ∈ s.closures, c.captured.index < s.frames.size
  binding : ∀ f name v, (s.frame f).get? name = some v → s.Has v
  field : ∀ o name v, (s.object o).fields.get? name = some v → s.Has v
  proto : ∀ o p, (s.object o).proto = some p → s.Has (.object p)

structure Extends (s t : Store) : Prop where
  frames : s.frames.size ≤ t.frames.size
  objects : s.objects.size ≤ t.objects.size
  closures : ∀ c ∈ s.closures, c ∈ t.closures
  later : ∀ c ∈ t.closures, c ∈ s.closures ∨ s.frames.size ≤ c.captured.index

namespace Extends

variable {s t u : Store}

theorem refl (s : Store) : s.Extends s :=
  ⟨Nat.le_refl _, Nat.le_refl _, fun _ made => made, fun _ made => .inl made⟩

theorem trans (first : s.Extends t) (second : t.Extends u) : s.Extends u where
  frames := Nat.le_trans first.frames second.frames
  objects := Nat.le_trans first.objects second.objects
  closures c made := second.closures c (first.closures c made)
  later c made := by
    rcases second.later c made with made | later
    · exact first.later c made
    · exact .inr (Nat.le_trans first.frames later)

/-- No frame that was there is captured later. -/
theorem not_captures (extends_ : s.Extends t) {f : FrameId} (allocated : f.index < s.frames.size)
    (free : ¬ s.Captures f) : ¬ t.Captures f := by
  intro captured
  obtain ⟨c, made, rfl⟩ := captured
  rcases extends_.later c made with made | later
  · exact free ⟨c, made, rfl⟩
  · omega

theorem has (extends_ : s.Extends t) {v : Value} (has : s.Has v) : t.Has v := by
  cases v with
  | closure c => exact extends_.closures c has
  | object o => exact Nat.lt_of_lt_of_le has extends_.objects
  | _ => trivial

/-- A store of the same frames, objects and closures as far as their number goes. -/
theorem of_eq (frames : t.frames.size = s.frames.size) (objects : t.objects.size = s.objects.size)
    (closures : t.closures = s.closures) : s.Extends t where
  frames := Nat.le_of_eq frames.symm
  objects := Nat.le_of_eq objects.symm
  closures _ made := closures ▸ made
  later _ made := .inl (closures ▸ made)

theorem bind (s : Store) (f : FrameId) (name : String) (v : Value) : s.Extends (s.bind f name v) :=
  of_eq (s.size_frames_bind f name v) rfl rfl

theorem newFrame (s : Store) (b : Bindings) : s.Extends (s.newFrame b).2 where
  frames := by simp [Store.newFrame]
  objects := Nat.le_refl _
  closures _ made := made
  later _ made := .inl made

theorem newObject (s : Store) : s.Extends s.newObject.2 where
  frames := Nat.le_refl _
  objects := by simp [Store.newObject]
  closures _ made := made
  later _ made := .inl made

theorem newClosure (s : Store) (d : Definition) (visible : Bindings) :
    s.Extends (s.newClosure d visible).2 where
  frames := by simp [Store.newClosure]
  objects := Nat.le_refl _
  closures _ made := Array.mem_push.mpr (.inl made)
  later c made := by
    rcases Array.mem_push.mp made with made | rfl
    · exact .inl made
    · exact .inr (Nat.le_refl _)

theorem setField (s : Store) (o : ObjectId) (name : String) (v : Value) :
    s.Extends (s.setField o name v) :=
  of_eq rfl (by simp [Store.setField]) rfl

theorem setProto (s : Store) (o : ObjectId) (proto : Option ObjectId) :
    s.Extends (s.setProto o proto) :=
  of_eq rfl (by simp [Store.setProto]) rfl

theorem setMember {o : ObjectId} {name : String} {v : Value}
    (written : s.setMember o name v = .ok t) : s.Extends t := by
  unfold Store.setMember at written
  split at written
  · split at written <;> cases written
    · exact setProto s o _
    · exact setProto s o _
  · cases written
    exact setField s o name v

end Extends

namespace WellFormed

variable {s : Store} (wf : s.WellFormed)

theorem empty : Store.empty.WellFormed where
  numbered c made := absurd made (by simp [Store.empty])
  captured c made := absurd made (by simp [Store.empty])
  binding f name v bound := by simp [Store.empty, frame] at bound
  field o name v bound := by simp [Store.empty, object, Object.empty] at bound
  proto o p linked := by simp [Store.empty, object, Object.empty] at linked

include wf

theorem not_captures_new : ¬ s.Captures ⟨s.frames.size⟩ := by
  intro captured
  obtain ⟨c, made, same⟩ := captured
  have old := wf.captured c made
  rw [same] at old
  exact Nat.lt_irrefl _ old

/-- Binding a name leaves all values of frames values of the store. -/
theorem bind {v : Value} (has : s.Has v) (f : FrameId) (name : String) :
    (s.bind f name v).WellFormed where
  numbered := wf.numbered
  captured c made := by
    rw [size_frames_bind]
    exact wf.captured c made
  binding g other w bound := by
    have extends_ := Extends.bind s f name v
    by_cases same : g = f
    · subst same
      by_cases allocated : g.index < s.frames.size
      · rw [frame_bind_self allocated, Bindings.get?_insert] at bound
        split at bound
        · cases bound
          exact extends_.has has
        · exact extends_.has (wf.binding g other w bound)
      · rw [frame_of_size_le (by rw [size_frames_bind]; exact Nat.le_of_not_lt allocated),
          Bindings.get?_empty] at bound
        cases bound
    · rw [frame_bind_of_ne s same] at bound
      exact extends_.has (wf.binding g other w bound)
  field o other w bound := wf.field o other w bound
  proto o p linked := wf.proto o p linked

/-- A new frame that holds values of the store, and perhaps a new closure with it. -/
theorem pushFrame {t : Store} {b : Bindings} (extends_ : s.Extends t)
    (frames : t.frames = s.frames.push b) (objects : t.objects = s.objects)
    (numbered : ∀ c ∈ t.closures, t.closures[c.id.index]? = some c)
    (closures : ∀ c ∈ t.closures, c ∈ s.closures ∨ c.captured = ⟨s.frames.size⟩)
    (values : ∀ name v, b.get? name = some v → s.Has v) : t.WellFormed where
  numbered := numbered
  captured c made := by
    rw [frames, Array.size_push]
    rcases closures c made with made | new
    · have old := wf.captured c made
      omega
    · rw [new]
      exact Nat.lt_succ_self _
  binding f name v bound := by
    rcases Nat.lt_trichotomy f.index s.frames.size with old | new | beyond
    · rw [frame_push_of_lt frames old] at bound
      exact extends_.has (wf.binding f name v bound)
    · have isNew : f = ⟨s.frames.size⟩ := congrArg FrameId.mk new
      rw [isNew, frame_push_self frames] at bound
      exact extends_.has (values name v bound)
    · have missing : t.frames.size ≤ f.index := by
        rw [frames, Array.size_push]
        exact beyond
      rw [frame_of_size_le missing, Bindings.get?_empty] at bound
      cases bound
  field o name v bound := by
    rw [object, objects] at bound
    exact extends_.has (wf.field o name v bound)
  proto o p linked := by
    rw [object, objects] at linked
    exact extends_.has (wf.proto o p linked)

theorem newFrame {b : Bindings} (values : ∀ name v, b.get? name = some v → s.Has v) :
    (s.newFrame b).2.WellFormed :=
  wf.pushFrame (.newFrame s b) rfl rfl wf.numbered (fun _ made => .inl made) values

theorem newClosure {d : Definition} {visible : Bindings}
    (values : ∀ name v, visible.get? name = some v → s.Has v) :
    (s.newClosure d visible).2.WellFormed := by
  refine wf.pushFrame (.newClosure s d visible) rfl rfl ?_ ?_ values
  · intro c made
    rcases Array.mem_push.mp made with made | rfl
    · have place := wf.numbered c made
      have old : c.id.index ≠ s.closures.size :=
        Nat.ne_of_lt (Array.getElem?_eq_some_iff.mp place).1
      rw [Store.newClosure, Array.getElem?_push, if_neg old, place]
    · exact Array.getElem?_push_size
  · intro c made
    rcases Array.mem_push.mp made with made | rfl
    · exact .inl made
    · exact .inr rfl

theorem newObject : s.newObject.2.WellFormed where
  numbered := wf.numbered
  captured c made := wf.captured c made
  binding f name v bound := (Extends.newObject s).has (wf.binding f name v bound)
  field o name v bound := by
    by_cases old : o.index < s.objects.size
    · rw [object_newObject_of_lt old] at bound
      exact (Extends.newObject s).has (wf.field o name v bound)
    · rw [object_newObject_of_le (Nat.le_of_not_lt old), Object.empty, Bindings.get?_empty] at bound
      cases bound
  proto o p linked := by
    by_cases old : o.index < s.objects.size
    · rw [object_newObject_of_lt old] at linked
      exact (Extends.newObject s).has (wf.proto o p linked)
    · rw [object_newObject_of_le (Nat.le_of_not_lt old)] at linked
      cases linked

theorem setField {o : ObjectId} {v : Value} (object : s.Has (.object o)) (has : s.Has v)
    (name : String) : (s.setField o name v).WellFormed where
  numbered := wf.numbered
  captured c made := wf.captured c made
  binding f other w bound := (Extends.setField s o name v).has (wf.binding f other w bound)
  field p other w bound := by
    have extends_ := Extends.setField s o name v
    by_cases same : p = o
    · subst same
      rw [object_setField_self object, Bindings.get?_insert] at bound
      split at bound
      · cases bound
        exact extends_.has has
      · exact extends_.has (wf.field p other w bound)
    · rw [object_setField_of_ne s same] at bound
      exact extends_.has (wf.field p other w bound)
  proto p q linked := by
    have extends_ := Extends.setField s o name v
    by_cases same : p = o
    · subst same
      rw [object_setField_self object] at linked
      exact extends_.has (wf.proto p q linked)
    · rw [object_setField_of_ne s same] at linked
      exact extends_.has (wf.proto p q linked)

theorem setProto {o : ObjectId} {proto : Option ObjectId} (object : s.Has (.object o))
    (has : ∀ p, proto = some p → s.Has (.object p)) : (s.setProto o proto).WellFormed where
  numbered := wf.numbered
  captured c made := wf.captured c made
  binding f name v bound := (Extends.setProto s o proto).has (wf.binding f name v bound)
  field p name v bound := by
    have extends_ := Extends.setProto s o proto
    by_cases same : p = o
    · subst same
      rw [object_setProto_self object] at bound
      exact extends_.has (wf.field p name v bound)
    · rw [object_setProto_of_ne s same] at bound
      exact extends_.has (wf.field p name v bound)
  proto p q linked := by
    have extends_ := Extends.setProto s o proto
    by_cases same : p = o
    · subst same
      rw [object_setProto_self object] at linked
      exact extends_.has (has q linked)
    · rw [object_setProto_of_ne s same] at linked
      exact extends_.has (wf.proto p q linked)

theorem setMember {t : Store} {o : ObjectId} {name : String} {v : Value}
    (object : s.Has (.object o)) (has : s.Has v) (written : s.setMember o name v = .ok t) :
    t.WellFormed := by
  unfold Store.setMember at written
  split at written
  · cases v with
    | object p =>
      cases written
      exact wf.setProto object fun q linked => by cases linked; exact has
    | nil =>
      cases written
      exact wf.setProto object fun q linked => by cases linked
    | _ => cases written
  · cases written
    exact wf.setField object has name

/-- A member of an object is a value of the store, wherever on the chain it was found. -/
theorem has_of_getMember {o : ObjectId} {name : String} {v : Value}
    (found : s.getMember o name = some v) : s.Has v := by
  have searched : ∀ steps o, s.findField name steps o = some v → s.Has v := by
    intro steps
    induction steps with
    | zero =>
      intro o found
      cases found
    | succ steps ih =>
      intro o found
      rw [findField] at found
      split at found
      · next w own =>
        cases found
        exact wf.field o name _ own
      · split at found
        · cases found
        · next p _ => exact ih p found
  unfold getMember at found
  split at found
  · cases found
    unfold protoValue
    split
    · next p linked => exact wf.proto o p linked
    · trivial
  · exact searched _ o found

end WellFormed

end Store

/-- The store is well formed, and the frames in use are allocated. -/
structure Machine.WellFormed (m : Machine) : Prop where
  store : m.store.WellFormed
  env : ∀ f ∈ m.env.frames, f.index < m.store.frames.size

namespace Machine.WellFormed

variable {m : Machine} (wf : m.WellFormed)

theorem start (inputs : List String) : (Machine.start inputs).WellFormed where
  store := Store.WellFormed.empty.newFrame fun name v bound => by
    rw [Bindings.get?_empty] at bound
    cases bound
  env f used := by
    rw [List.mem_singleton.mp used]
    exact Nat.zero_lt_one

include wf

theorem has_of_get? {name : String} {v : Value} (found : m.get? name = some v) : m.store.Has v := by
  obtain ⟨f, _, bound⟩ := List.exists_of_findSome?_eq_some found
  exact wf.store.binding f name v bound

theorem push : m.push.WellFormed where
  store := wf.store.newFrame fun name v bound => by
    rw [Bindings.get?_empty] at bound
    cases bound
  env f used := by
    have size : m.push.store.frames.size = m.store.frames.size + 1 := Array.size_push _
    rw [size]
    rcases List.mem_cons.mp used with rfl | used
    · exact Nat.lt_succ_self _
    · have old := wf.env f used
      omega

theorem fresh : m.fresh.WellFormed where
  store := wf.push.store
  env f used := by
    have size : m.fresh.store.frames.size = m.store.frames.size + 1 := Array.size_push _
    rw [List.mem_singleton.mp used, size]
    exact Nat.lt_succ_self _

theorem pop : m.pop.WellFormed where
  store := wf.store
  env f used := by
    obtain ⟨store, ⟨inner, outer⟩, depth, console⟩ := m
    cases outer with
    | nil => exact wf.env f used
    | cons g gs => exact wf.env f (List.mem_cons_of_mem inner used)

/-- The same frames over a later store. -/
theorem of_extends {after : Machine} (store : after.store.WellFormed)
    (extends_ : m.store.Extends after.store) (env : after.env = m.env) : after.WellFormed where
  store := store
  env f used := by
    rw [env] at used
    exact Nat.lt_of_lt_of_le (wf.env f used) extends_.frames

theorem newClosure (d : Definition) : (m.newClosure d).2.WellFormed := by
  have visible : ∀ name v, (m.env.flatten m.store).get? name = some v → m.store.Has v := by
    intro name v bound
    rw [Environment.get?_flatten] at bound
    exact wf.has_of_get? bound
  exact wf.of_extends (wf.store.newClosure visible) (.newClosure _ _ _) rfl

theorem bind {v : Value} (has : m.store.Has v) (f : FrameId) (name : String) :
    Machine.WellFormed { m with store := m.store.bind f name v } :=
  wf.of_extends (wf.store.bind has f name) (.bind _ f name v) rfl

end Machine.WellFormed

end Protoscript
