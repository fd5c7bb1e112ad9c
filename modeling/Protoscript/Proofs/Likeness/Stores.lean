import Protoscript.Environment
import Protoscript.Proofs.Likeness
import Protoscript.Proofs.PrototypeChain

/-! # Stores up to a likeness

Two stores are the same up to a likeness if as much was allocated in both since its numbering began,
and what corresponds has the same contents, up to the likeness.  Every operation on corresponding
frames and objects keeps this, and every look-up gives the same value. -/

set_option autoImplicit false

namespace Protoscript

namespace Likeness

variable {L : Likeness}

/-! ## Bindings -/

/-- The same names with the same values, up to the likeness. -/
def SameBindings (L : Likeness) (b b' : Bindings) : Prop :=
  ∀ name, Option.Rel L.SameValue (b.get? name) (b'.get? name)

namespace SameBindings

variable {b b' c c' : Bindings}

theorem empty : L.SameBindings .empty .empty := by
  intro name
  rw [Bindings.get?_empty]
  exact .none

theorem insert (same : L.SameBindings b b') {v v' : Value} (value : L.SameValue v v')
    (name : String) : L.SameBindings (b.insert name v) (b'.insert name v') := by
  intro other
  rw [Bindings.get?_insert, Bindings.get?_insert]
  split
  · exact .some value
  · exact same other

theorem shadow (inner : L.SameBindings b b') (outer : L.SameBindings c c') :
    L.SameBindings (b.shadow c) (b'.shadow c') := by
  intro name
  rw [Bindings.get?_shadow, Bindings.get?_shadow]
  match b.get? name, b'.get? name, inner name with
  | _, _, .some value => exact .some value
  | _, _, .none => exact outer name

theorem contains_eq (same : L.SameBindings b b') (name : String) :
    b.contains name = b'.contains name := by
  have found := same name
  rw [Bindings.contains, Bindings.contains]
  generalize b.get? name = v, b'.get? name = v' at found ⊢
  cases found with
  | some _ => rfl
  | none => rfl

end SameBindings

/-! ## Stores -/

structure SameContents (L : Likeness) (a b : Object) : Prop where
  fields : L.SameBindings a.fields b.fields
  proto : Option.Rel L.ids.SameObject a.proto b.proto

theorem SameContents.empty : L.SameContents .empty .empty := ⟨.empty, .none⟩

structure SameStore (L : Likeness) (s t : Store) : Prop where
  frames : L.ids.frames.Rows L.SameBindings s.frames t.frames
  objects : L.ids.objects.Rows L.SameContents s.objects t.objects
  closures : L.ids.closures.Rows L.SameClosure s.closures t.closures

namespace SameStore

variable {s t : Store} (same : L.SameStore s t)

include same

theorem frame {f g : FrameId} (pair : L.ids.SameFrame f g) :
    L.SameBindings (s.frame f) (t.frame g) :=
  same.frames.getD pair .empty

theorem object {o p : ObjectId} (pair : L.ids.SameObject o p) :
    L.SameContents (s.object o) (t.object p) :=
  same.objects.getD pair .empty

theorem newFrame {b b' : Bindings} (bindings : L.SameBindings b b') :
    L.SameStore (s.newFrame b).2 (t.newFrame b').2 :=
  ⟨same.frames.push bindings, same.objects, same.closures⟩

theorem bind {f g : FrameId} (pair : L.ids.SameFrame f g) {v w : Value} (value : L.SameValue v w)
    (name : String) : L.SameStore (s.bind f name v) (t.bind g name w) where
  frames := same.frames.modify pair fun _ _ bindings => bindings.insert value name
  objects := same.objects
  closures := same.closures

theorem newObject : L.SameStore s.newObject.2 t.newObject.2 :=
  ⟨same.frames, same.objects.push .empty, same.closures⟩

theorem newClosure {d d' : Definition} (known : L.code.lambda d d')
    (alike : L.code.SameDefinition d d') {b b' : Bindings} (visible : L.SameBindings b b') :
    L.SameStore (s.newClosure d b).2 (t.newClosure d' b').2 ∧
      L.SameClosure (s.newClosure d b).1 (t.newClosure d' b').1 := by
  have made : L.SameClosure (s.newClosure d b).1 (t.newClosure d' b').1 :=
    ⟨same.closures.next, same.frames.next, known, alike⟩
  exact ⟨⟨same.frames.push visible, same.objects, same.closures.push made⟩, made⟩

theorem setField {o p : ObjectId} (pair : L.ids.SameObject o p) {v w : Value}
    (value : L.SameValue v w) (name : String) :
    L.SameStore (s.setField o name v) (t.setField p name w) := by
  have written : ∀ a b, L.SameContents a b → L.SameContents
      { a with fields := a.fields.insert name v } { b with fields := b.fields.insert name w } :=
    fun a b contents => ⟨contents.fields.insert value name, contents.proto⟩
  exact ⟨same.frames, same.objects.modify pair written, same.closures⟩

theorem setProto {o p : ObjectId} (pair : L.ids.SameObject o p) {a b : Option ObjectId}
    (proto : Option.Rel L.ids.SameObject a b) : L.SameStore (s.setProto o a) (t.setProto p b) := by
  have written : ∀ c d, L.SameContents c d →
      L.SameContents { c with proto := a } { d with proto := b } :=
    fun c d contents => ⟨contents.fields, proto⟩
  exact ⟨same.frames, same.objects.modify pair written, same.closures⟩

/-- The write is refused on both sides for the same reason, or done on both. -/
theorem setMember {o p : ObjectId} (pair : L.ids.SameObject o p) {v w : Value}
    (value : L.SameValue v w) (name : String) :
    (∃ s' t', s.setMember o name v = .ok s' ∧ t.setMember p name w = .ok t' ∧
      L.SameStore s' t') ∨
    ∃ kind, s.setMember o name v = .error kind ∧ t.setMember p name w = .error kind := by
  unfold Store.setMember
  split
  · cases value with
    | plain plain =>
      cases v with
      | nil => exact .inl ⟨_, _, rfl, rfl, same.setProto pair .none⟩
      | function d => cases plain
      | closure c => cases plain
      | object q => cases plain
      | _ => exact .inr ⟨_, rfl, rfl⟩
    | function d => exact .inr ⟨_, rfl, rfl⟩
    | closure _ => exact .inr ⟨_, rfl, rfl⟩
    | object linked => exact .inl ⟨_, _, rfl, rfl, same.setProto pair (.some linked)⟩
  · exact .inl ⟨_, _, rfl, rfl, same.setField pair value name⟩

theorem findField {o p : ObjectId} (pair : L.ids.SameObject o p) (name : String) (steps : Nat) :
    Option.Rel L.SameValue (s.findField name steps o) (t.findField name steps p) := by
  induction steps generalizing o p with
  | zero => exact .none
  | succ steps ih =>
    have contents := same.object pair
    rw [Store.findField, Store.findField]
    have found := contents.fields name
    generalize (s.object o).fields.get? name = v, (t.object p).fields.get? name = w at found ⊢
    cases found with
    | some value => exact .some value
    | none =>
      have linked := contents.proto
      generalize (s.object o).proto = next, (t.object p).proto = next' at linked ⊢
      cases linked with
      | none => exact .none
      | some pair => exact ih pair

theorem getMember {o p : ObjectId} (pair : L.ids.SameObject o p) (name : String) :
    Option.Rel L.SameValue (s.getMember o name) (t.getMember p name) := by
  unfold Store.getMember
  split
  · refine .some ?_
    unfold Store.protoValue
    match (s.object o).proto, (t.object p).proto, (same.object pair).proto with
    | _, _, .none => exact .plain trivial
    | _, _, .some linked => exact .object linked
  · -- The stores may differ in size; searches of more steps find no more.
    rw [← Store.findField_of_size_le (Nat.le_max_left s.objects.size t.objects.size),
      ← Store.findField_of_size_le (Nat.le_max_right s.objects.size t.objects.size)]
    exact same.findField pair name _

end SameStore

/-! ## Environments -/

/-- Corresponding frames, one by one. -/
def SameEnv (L : Likeness) (e e' : Environment) : Prop :=
  List.Forall₂ L.ids.SameFrame e.frames e'.frames

namespace SameEnv

variable {e e' : Environment}

theorem inner (env : L.SameEnv e e') : L.ids.SameFrame e.inner e'.inner := by
  cases env with
  | cons inner _ => exact inner

theorem push (env : L.SameEnv e e') {f g : FrameId} (pair : L.ids.SameFrame f g) :
    L.SameEnv (e.push f) (e'.push g) :=
  .cons pair env

theorem ofFrame {f g : FrameId} (pair : L.ids.SameFrame f g) :
    L.SameEnv (.ofFrame f) (.ofFrame g) :=
  .cons pair .nil

theorem pop (env : L.SameEnv e e') : L.SameEnv e.pop e'.pop := by
  obtain ⟨f, fs⟩ := e
  obtain ⟨g, gs⟩ := e'
  cases env with
  | cons inner outer =>
    cases outer with
    | nil => exact .cons inner .nil
    | cons next rest => exact .cons next rest

variable {s t : Store} (env : L.SameEnv e e') (same : L.SameStore s t)

include env same

theorem get? (name : String) : Option.Rel L.SameValue (e.get? s name) (e'.get? t name) := by
  have found : ∀ fs gs, List.Forall₂ L.ids.SameFrame fs gs → Option.Rel L.SameValue
      (fs.findSome? fun f => (s.frame f).get? name)
      (gs.findSome? fun g => (t.frame g).get? name) := by
    intro fs gs pairs
    induction pairs with
    | nil => exact .none
    | @cons f g _ _ pair _ ih =>
      rw [List.findSome?_cons, List.findSome?_cons]
      match (s.frame f).get? name, (t.frame g).get? name, same.frame pair name with
      | _, _, .some value => exact .some value
      | _, _, .none => exact ih
  exact found _ _ env

theorem owner? (name : String) :
    Option.Rel L.ids.SameFrame (e.owner? s name) (e'.owner? t name) := by
  have found : ∀ fs gs, List.Forall₂ L.ids.SameFrame fs gs → Option.Rel L.ids.SameFrame
      (fs.find? fun f => (s.frame f).contains name)
      (gs.find? fun g => (t.frame g).contains name) := by
    intro fs gs pairs
    induction pairs with
    | nil => exact .none
    | @cons f g _ _ pair _ ih =>
      rw [List.find?_cons, List.find?_cons, (same.frame pair).contains_eq name]
      cases (t.frame g).contains name with
      | true => exact .some pair
      | false => exact ih
  exact found _ _ env

theorem flatten : L.SameBindings (e.flatten s) (e'.flatten t) := by
  have folded : ∀ fs gs, List.Forall₂ L.ids.SameFrame fs gs → L.SameBindings
      (fs.foldr (fun f visible => (s.frame f).shadow visible) .empty)
      (gs.foldr (fun g visible => (t.frame g).shadow visible) .empty) := by
    intro fs gs pairs
    induction pairs with
    | nil => exact .empty
    | cons pair _ ih => exact (same.frame pair).shadow ih
  exact folded _ _ env

theorem create {v w : Value} (value : L.SameValue v w) (name : String) :
    L.SameStore (e.create s name v) (e'.create t name w) :=
  same.bind env.inner value name

theorem set {v w : Value} (value : L.SameValue v w) (name : String) :
    L.SameStore (e.set s name v) (e'.set t name w) := by
  have target :
      L.ids.SameFrame ((e.owner? s name).getD e.inner) ((e'.owner? t name).getD e'.inner) := by
    match e.owner? s name, e'.owner? t name, env.owner? same name with
    | _, _, .some pair => exact pair
    | _, _, .none => exact env.inner
  exact same.bind target value name

end SameEnv

end Likeness

end Protoscript
