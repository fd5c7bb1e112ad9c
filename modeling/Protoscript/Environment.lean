import Protoscript.Store

/-! # Environments

A stack of frames that is never empty, the innermost first.  A name means its innermost binding.
The frames stay in the store, so environments may share them.  `get?_flatten`: the flattened
environment answers every look-up as the environment does. -/

set_option autoImplicit false

namespace Protoscript

structure Environment where
  inner : FrameId
  outer : List FrameId
deriving DecidableEq

namespace Environment

/-- All frames, innermost first. -/
def frames (e : Environment) : List FrameId := e.inner :: e.outer

/-- The environment whose only frame is `f`. -/
def ofFrame (f : FrameId) : Environment := ⟨f, []⟩

def push (e : Environment) (f : FrameId) : Environment := ⟨f, e.frames⟩

/-- Drops the innermost frame; the last one stays. -/
def pop (e : Environment) : Environment :=
  match e.outer with
  | [] => e
  | f :: fs => ⟨f, fs⟩

@[simp] theorem pop_push (e : Environment) (f : FrameId) : (e.push f).pop = e := rfl

/-- The innermost frame that binds `name`. -/
def owner? (s : Store) (e : Environment) (name : String) : Option FrameId :=
  e.frames.find? fun f => (s.frame f).contains name

def get? (s : Store) (e : Environment) (name : String) : Option Value :=
  e.frames.findSome? fun f => (s.frame f).get? name

/-- Binds `name` in the innermost frame. -/
def create (s : Store) (e : Environment) (name : String) (value : Value) : Store :=
  s.bind e.inner name value

/-- Overwrites the innermost binding of `name`; a name without one is bound in the innermost
frame. -/
def set (s : Store) (e : Environment) (name : String) (value : Value) : Store :=
  s.bind ((e.owner? s name).getD e.inner) name value

theorem mem_of_owner? {s : Store} {e : Environment} {name : String} {f : FrameId}
    (owner : e.owner? s name = some f) : f ∈ e.frames ∧ (s.frame f).contains name = true :=
  ⟨List.mem_of_find?_eq_some owner,
    List.find?_some (p := fun f => (s.frame f).contains name) owner⟩

/-- A name has an owner if it has a value. -/
theorem isSome_owner? (s : Store) (e : Environment) (name : String) :
    (e.owner? s name).isSome = (e.get? s name).isSome := by
  simp only [owner?, get?, List.isSome_find?, List.isSome_findSome?, Bindings.contains]

theorem isSome_get?_iff {s : Store} {e : Environment} {name : String} :
    (e.get? s name).isSome = true ↔ ∃ f ∈ e.frames, (s.frame f).contains name = true := by
  simp only [get?, List.isSome_findSome?, List.any_eq_true, Bindings.contains]

theorem inner_mem_frames (e : Environment) : e.inner ∈ e.frames := List.mem_cons_self

/-- What is visible in the environment, as one frame. -/
def flatten (s : Store) (e : Environment) : Bindings :=
  e.frames.foldr (fun f visible => (s.frame f).shadow visible) .empty

theorem get?_flatten (s : Store) (e : Environment) (name : String) :
    (e.flatten s).get? name = e.get? s name := by
  simp only [flatten, get?]
  induction e.frames with
  | nil => rfl
  | cons f fs ih =>
    rw [List.foldr_cons, Bindings.get?_shadow, ih, List.findSome?_cons]
    cases (s.frame f).get? name <;> rfl

end Environment

end Protoscript
