import Protoscript.Proofs.MemberWrites
import Protoscript.Proofs.UnwrittenVariables

/-! # Slots

Values are kept in slots: the variables of frames, captured ones among them, the fields of objects,
and their prototypes.  `Store.Change` lists what evaluation can do to the store in one step, each
time with the slot that it writes; there is one at most, and every other slot keeps its value
(`held?_of_spares`).  All moments of a run follow each other by such changes, so a slot has the
value that it had as long as none of them writes it: `SparedBetween.held?`. -/

set_option autoImplicit false

namespace Protoscript

inductive Slot
  | binding (f : FrameId) (x : String)
  | field (o : ObjectId) (x : String)
  | proto (o : ObjectId)

/-- The slot that a write to the member of an object goes to. -/
def Slot.member (o : ObjectId) (name : String) : Slot :=
  if name = Store.protoName then proto o else field o name

namespace Store

/-- What the slot holds, if it is there. -/
def held? (s : Store) : Slot → Option Value
  | .binding f x => (s.frame f).get? x
  | .field o x => s.own? o x
  | .proto o => if o.index < s.objects.size then some (s.protoValue o) else none

/-- One change of a store, with the slot that it writes, if any, and the store that it leaves. -/
inductive Change (s : Store) : Option Slot → Store → Prop
  | nothing : Change s none s
  | newFrame (b : Bindings) : Change s none (s.newFrame b).2
  | newObject : Change s none s.newObject.2
  | newClosure (d : Definition) (visible : Bindings) : Change s none (s.newClosure d visible).2
  | bind (f : FrameId) (x : String) (v : Value) : Change s (some (.binding f x)) (s.bind f x v)
  | setField (o : ObjectId) (x : String) (v : Value) :
    Change s (some (.field o x)) (s.setField o x v)
  | setProto (o : ObjectId) (p : Option ObjectId) : Change s (some (.proto o)) (s.setProto o p)

/-- One change, which does not write the slot. -/
def Spares (a : Slot) (s t : Store) : Prop := ∃ w, w ≠ some a ∧ s.Change w t

variable {s t : Store} {a : Slot} {o : ObjectId} {v : Value}

theorem held?_member_proto (allocated : o.index < s.objects.size) :
    s.held? (.member o protoName) = some (s.protoValue o) := by
  rw [Slot.member, if_pos rfl, held?, if_pos allocated]

theorem held?_member_field {name : String} (field : name ≠ protoName) :
    s.held? (.member o name) = s.own? o name := by
  rw [Slot.member, if_neg field, held?]

/-! ## What one change leaves as it is -/

theorem held?_newFrame {b : Bindings} (frames : t.frames = s.frames.push b)
    (objects : t.objects = s.objects) (held : s.held? a = some v) : t.held? a = some v := by
  cases a with
  | binding f x =>
    have allocated : f.index < s.frames.size := allocated_of_contains (congrArg Option.isSome held)
    rw [held?, frame_push_of_lt frames allocated]
    exact held
  | field o x =>
    rw [held?, own?, object, objects]
    exact held
  | proto o =>
    rw [held?, protoValue, object, objects]
    exact held

theorem held?_newObject (held : s.held? a = some v) : s.newObject.2.held? a = some v := by
  cases a with
  | binding f x => exact held
  | field o x =>
    have allocated : o.index < s.objects.size := allocated_of_own? held
    rw [held?, own?, object_newObject_of_lt allocated]
    exact held
  | proto o =>
    rw [held?] at held
    split at held
    · next allocated =>
      have grown : s.objects.size ≤ s.newObject.2.objects.size := (Extends.newObject s).objects
      rw [held?, if_pos (Nat.lt_of_lt_of_le allocated grown), protoValue,
        object_newObject_of_lt allocated]
      exact held
    · cases held

theorem held?_bind {f : FrameId} {x : String} (other : some (Slot.binding f x) ≠ some a)
    (w : Value) : (s.bind f x w).held? a = s.held? a := by
  cases a with
  | binding g y =>
    refine s.get?_frame_bind w ?_
    by_cases named : x = y
    · subst named
      exact .inr fun here => other (by rw [here])
    · exact .inl named
  | field o y => rfl
  | proto o => rfl

theorem held?_setField {x : String} (other : some (Slot.field o x) ≠ some a) (w : Value)
    (held : s.held? a = some v) : (s.setField o x w).held? a = some v := by
  cases a with
  | binding g y => exact held
  | field p y =>
    by_cases here : p = o
    · subst here
      have named : y ≠ x := fun same => other (by rw [same])
      rw [held?, own?, object_setField_self (allocated_of_own? held), Bindings.get?_insert,
        if_neg named]
      exact held
    · rw [held?, own?, object_setField_of_ne s here]
      exact held
  | proto p =>
    have size : (s.setField o x w).objects.size = s.objects.size := Array.size_modify
    rw [held?] at held ⊢
    rw [size]
    split at held
    · next allocated =>
      rw [if_pos allocated, ← held]
      by_cases here : p = o
      · subst here
        rw [protoValue, protoValue, object_setField_self allocated]
      · rw [protoValue, protoValue, object_setField_of_ne s here]
    · cases held

theorem held?_setProto {p : Option ObjectId} (other : some (Slot.proto o) ≠ some a)
    (held : s.held? a = some v) : (s.setProto o p).held? a = some v := by
  cases a with
  | binding g y => exact held
  | field q y =>
    rw [held?, own?] at held ⊢
    by_cases here : q = o
    · subst here
      rw [object_setProto_self (allocated_of_own? held)]
      exact held
    · rw [object_setProto_of_ne s here]
      exact held
  | proto q =>
    have here : q ≠ o := fun same => other (by rw [same])
    have size : (s.setProto o p).objects.size = s.objects.size := Array.size_modify
    rw [held?, protoValue] at held ⊢
    rw [size, object_setProto_of_ne s here]
    exact held

/-- What a slot holds it still holds after a change that does not write it. -/
theorem held?_of_spares (spares : s.Spares a t) (held : s.held? a = some v) :
    t.held? a = some v := by
  obtain ⟨w, other, change⟩ := spares
  cases change with
  | nothing => exact held
  | newFrame b => exact held?_newFrame rfl rfl held
  | newObject => exact held?_newObject held
  | newClosure d visible => exact held?_newFrame rfl rfl held
  | bind f x w => exact (held?_bind other w).trans held
  | setField o x w => exact held?_setField other w held
  | setProto o p => exact held?_setProto other held

/-! ## What slots hold is in the store -/

theorem WellFormed.has_of_held? (wf : s.WellFormed) (held : s.held? a = some v) : s.Has v := by
  cases a with
  | binding f x => exact wf.binding f x v held
  | field o x => exact wf.field o x v held
  | proto o =>
    rw [held?] at held
    split at held
    · cases held
      unfold protoValue
      split
      · next p linked => exact wf.proto o p linked
      · trivial
    · cases held

/-- A member that was written is held in its slot, and looking it up finds it. -/
theorem Writes.held? {name : String} (writes : s.Writes o name v t)
    (allocated : o.index < s.objects.size) : t.held? (.member o name) = some v := by
  by_cases proto : name = protoName
  · subst proto
    rw [held?_member_proto (writes.size ▸ allocated), writes.proto, if_pos ⟨rfl, rfl⟩]
  · rw [held?_member_field proto, writes.own?_self proto]

theorem Writes.getMember {name : String} (writes : s.Writes o name v t) :
    t.getMember o name = some v := by
  by_cases proto : name = protoName
  · rw [Store.getMember, if_pos proto, writes.proto, if_pos ⟨rfl, proto⟩]
  · refine writes.getMember_of_reaches proto ⟨0, rfl, ?_⟩
    intro k before
    exact absurd before (Nat.not_lt_zero k)

end Store

/-! ## Runs -/

/-- The discipline of changes, which asks nothing of code, machines and values. -/
def changeDiscipline : Discipline where
  holds _ _ := True
  value _ _ := True
  named _ _ := True
  rel _ _ _ := True
  moment _ _ := True
  next m after := ∃ w, m.store.Change w after.store

namespace changeDiscipline

variable {e : Extent} {m after : Machine}

theorem stays {w : Option Slot} (change : m.store.Change w after.store) :
    changeDiscipline.Stays e m after :=
  ⟨trivial, trivial, w, change⟩

theorem stays_set (m : Machine) (x : String) (v : Value) :
    changeDiscipline.Stays e m (m.set x v) := by
  obtain ⟨f, -, written, -⟩ := m.exists_set_eq x v
  rw [written]
  exact stays (.bind f x v)

theorem stays_setMember {o : ObjectId} {x : String} {v : Value} {s : Store}
    (written : m.store.setMember o x v = .ok s) :
    changeDiscipline.Stays e m { m with store := s } := by
  unfold Store.setMember at written
  split at written
  · cases v with
    | object p =>
      cases written
      exact stays (.setProto o (some p))
    | nil =>
      cases written
      exact stays (.setProto o none)
    | _ => cases written
  · cases written
    exact stays (.setField o x v)

/-- Entering and leaving change nothing, but that a scope has a new frame. -/
theorem bracketed {inside : Machine} {aside : List (Closure × Environment)}
    {leave : Machine → Machine} {w : Option Slot} (enters : m.store.Change w inside.store)
    (store : ∀ after, (leave after).store = after.store) :
    changeDiscipline.Bracketed e m inside aside leave where
  holds := trivial
  value _ _ := trivial
  next := ⟨w, enters⟩
  moment _ _ := trivial
  leaves after _ _ := ⟨trivial, trivial, none, store after ▸ .nothing⟩
  store := store

theorem lawful (setting : Setting) : changeDiscipline.Lawful setting where
  part _ _ := trivial
  called _ _ := trivial
  refl _ _ := trivial
  trans _ _ := trivial
  widen _ := trivial
  narrow _ := trivial
  reopen _ _ _ := trivial
  value_mono _ _ := trivial
  named_mono _ _ := trivial
  moment_of _ _ := trivial
  moment_mono _ _ := trivial
  plain _ _ _ := trivial
  function _ _ _ _ := trivial
  binding _ _ := trivial
  member _ _ _ := trivial
  named_of_binding _ _ _ := trivial
  console _ _ _ := stays .nothing
  newObject _ := ⟨stays .newObject, trivial⟩
  newClosure {m} _ d _ := ⟨stays (.newClosure d (m.env.flatten m.store)), trivial⟩
  setMember _ _ _ written := stays_setMember written
  set {m v} _ _ x _ := stays_set m x v
  set_named {m x v} _ _ _ := stays_set m x v
  create {m v} _ _ x := stays (.bind m.env.inner x v)
  scope _ := bracketed (.newFrame .empty) fun _ => rfl
  captured _ _ := bracketed .nothing fun _ => rfl
  counted _ _ _ _ := bracketed .nothing fun _ => rfl

theorem rooted : changeDiscipline.Rooted (fun _ => True) fun _ => True where
  code _ := trivial
  holds _ := trivial
  moment _ _ := trivial
  stays _ _ _ := trivial
  fresh _ := ⟨trivial, none, .newFrame .empty⟩

/-- From moment to moment of a run, the store undergoes single changes. -/
theorem isChain_main (setting : Setting) (fuel : Nat) (m : Machine) :
    ((Eval.main setting fuel).history m).IsChain
      (Eval.Follows fun n after => ∃ w, n.store.Change w after.store) :=
  (rooted.course_main (lawful setting) fuel trivial).chain

end changeDiscipline

/-- None of the changes from the `i`th of the moments to the `j`th writes the slot. -/
def SparedBetween (h : List Moment) (i j : Nat) (a : Slot) : Prop :=
  ∀ k, i ≤ k → k < j → ∀ μ ν, h[k]? = some μ → h[k + 1]? = some ν →
    μ.machine.store.Spares a ν.machine.store

/-- A slot holds what it held as long as it is not written. -/
theorem SparedBetween.held? {h : List Moment} {i j : Nat} {a : Slot} {v : Value} {μ ν : Moment}
    (spared : SparedBetween h i j a) (order : i ≤ j) (start : h[i]? = some μ)
    (ends : h[j]? = some ν) (held : μ.machine.store.held? a = some v) :
    ν.machine.store.held? a = some v := by
  induction j, order using Nat.le_induction generalizing ν with
  | base =>
    rw [start] at ends
    cases ends
    exact held
  | succ j order ih =>
    obtain ⟨κ, before⟩ : ∃ κ, h[j]? = some κ := by
      have inside : j + 1 < h.length := (List.getElem?_eq_some_iff.mp ends).1
      exact ⟨_, List.getElem?_eq_getElem (Nat.lt_of_succ_lt inside)⟩
    have earlier : SparedBetween h i j a := fun k from_ less =>
      spared k from_ (Nat.lt_succ_of_lt less)
    have here := ih earlier before
    exact Store.held?_of_spares (spared j order (Nat.lt_succ_self j) κ ν before ends) here

end Protoscript
