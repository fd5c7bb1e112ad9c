import Protoscript.Proofs.Allocation
import Protoscript.Session

/-! # Captured frames on stacks

A stack of frames has a base, its outermost frame, and frames above it.  A stack is sound if no
closure captured a frame above the base.  At a sound moment, the stack in use and every stack put
aside are sound, and each is based on the captured frame of the closure whose call it is for; the
last one, which is for no closure, is based on the frame that the step started from. -/

set_option autoImplicit false

namespace Protoscript

namespace Environment

/-- The outermost frame. -/
def base (e : Environment) : FrameId := e.outer.getLastD e.inner

/-- All frames but the outermost. -/
def above (e : Environment) : List FrameId := e.frames.dropLast

@[simp] theorem base_push (e : Environment) (f : FrameId) : (e.push f).base = e.base :=
  List.getLastD_cons

theorem frames_eq (e : Environment) : e.frames = e.above ++ [e.base] := by
  have nonempty : e.frames ≠ [] := List.cons_ne_nil _ _
  have last : e.frames.getLast nonempty = e.base := List.getLast_eq_getLastD nonempty
  rw [above, ← last, List.dropLast_concat_getLast]

theorem mem_frames_iff {e : Environment} {f : FrameId} :
    f ∈ e.frames ↔ f ∈ e.above ∨ f = e.base := by
  rw [frames_eq, List.mem_append, List.mem_singleton]

end Environment

namespace Store

/-- No frame is captured twice. -/
def Distinct (s : Store) : Prop :=
  ∀ c ∈ s.closures, ∀ d ∈ s.closures, c.captured = d.captured → c = d

/-- A stack with the given base, none of whose other frames is captured. -/
structure Based (s : Store) (f : FrameId) (e : Environment) : Prop where
  base : e.base = f
  above : ∀ g ∈ e.above, ¬ s.Captures g

/-- The stack in use and all stacks put aside are sound.  The last one is based on `root`. -/
def Sound (s : Store) (root : FrameId) : Environment → List (Closure × Environment) → Prop
  | e, [] => s.Based root e
  | e, (c, caller) :: rest => c ∈ s.closures ∧ s.Based c.captured e ∧ s.Sound root caller rest

variable {s t : Store}

theorem Based.of_extends {f : FrameId} {e : Environment} (based : s.Based f e)
    (extends_ : s.Extends t) (allocated : ∀ g ∈ e.frames, g.index < s.frames.size) :
    t.Based f e where
  base := based.base
  above g used :=
    extends_.not_captures (allocated g (Environment.mem_frames_iff.mpr (.inl used)))
      (based.above g used)

/-- A captured frame that is on such a stack is its base. -/
theorem Based.eq_of_mem {f : FrameId} {e : Environment} (based : s.Based f e) {c : Closure}
    (made : c ∈ s.closures) (used : c.captured ∈ e.frames) : c.captured = e.base :=
  (Environment.mem_frames_iff.mp used).resolve_left
    fun above => based.above c.captured above ⟨c, made, rfl⟩

/-- What is sound on the frame of a closure is sound in a call of the closure. -/
theorem Sound.append {root : FrameId} {c : Closure} {caller : Environment} (made : c ∈ s.closures)
    (based : s.Based root caller) {e : Environment} {aside : List (Closure × Environment)}
    (sound : s.Sound c.captured e aside) : s.Sound root e (aside ++ [(c, caller)]) := by
  induction aside generalizing e with
  | nil => exact ⟨made, sound, based⟩
  | cons head rest ih => exact ⟨sound.1, sound.2.1, ih sound.2.2⟩

end Store

namespace Moment

/-- The stacks of frames at a moment, the one in use first, each with the closure whose call it is
for. -/
def environmentsFrom :
    Environment → List (Closure × Environment) → List (Option Closure × Environment)
  | e, [] => [(none, e)]
  | e, (c, caller) :: rest => (some c, e) :: environmentsFrom caller rest

def environments (μ : Moment) : List (Option Closure × Environment) :=
  environmentsFrom μ.machine.env μ.aside

/-- On the stacks of a moment, a captured frame is the base of a stack that is for a call of its own
closure, and occurs nowhere else. -/
structure Owned (μ : Moment) : Prop where
  /-- Every closure that a variable or a field holds is among those made. -/
  store : μ.machine.store.WellFormed
  distinct : ∀ c ∈ μ.machine.store.closures, ∀ d ∈ μ.machine.store.closures, c ≠ d →
    c.captured ≠ d.captured
  owner : ∀ c ∈ μ.machine.store.closures, ∀ stack ∈ μ.environments, c.captured ∈ stack.2.frames →
    stack.1 = some c ∧ c.captured = stack.2.base ∧ c.captured ∉ stack.2.above
  based : ∀ c e, (some c, e) ∈ μ.environments → c ∈ μ.machine.store.closures ∧ e.base = c.captured

end Moment

namespace Store.Sound

variable {s : Store} {root : FrameId}

theorem based {e : Environment} {aside : List (Closure × Environment)}
    (sound : s.Sound root e aside) {c : Closure} {stack : Environment}
    (among : (some c, stack) ∈ Moment.environmentsFrom e aside) :
    c ∈ s.closures ∧ stack.base = c.captured := by
  induction aside generalizing e with
  | nil => cases List.mem_singleton.mp among
  | cons head rest ih =>
    obtain ⟨made, based, sound⟩ := sound
    rcases List.mem_cons.mp among with is | among
    · cases is
      exact ⟨made, based.base⟩
    · exact ih sound among

theorem owner (distinct : s.Distinct) (free : ¬ s.Captures root) {e : Environment}
    {aside : List (Closure × Environment)} (sound : s.Sound root e aside) {c : Closure}
    (made : c ∈ s.closures) {stack : Option Closure × Environment}
    (among : stack ∈ Moment.environmentsFrom e aside) (used : c.captured ∈ stack.2.frames) :
    stack.1 = some c ∧ c.captured = stack.2.base ∧ c.captured ∉ stack.2.above := by
  have on : ∀ {f : FrameId} {e : Environment}, s.Based f e → c.captured ∈ e.frames →
      c.captured = f ∧ c.captured = e.base ∧ c.captured ∉ e.above := by
    intro f e based used
    have base := based.eq_of_mem made used
    exact ⟨base.trans based.base, base, fun above => based.above _ above ⟨c, made, rfl⟩⟩
  induction aside generalizing e with
  | nil =>
    cases List.mem_singleton.mp among
    exact absurd ⟨c, made, (on sound used).1⟩ free
  | cons head rest ih =>
    obtain ⟨known, based, sound⟩ := sound
    rcases List.mem_cons.mp among with rfl | among
    · obtain ⟨same, outermost⟩ := on based used
      exact ⟨congrArg some (distinct _ known c made same.symm), outermost⟩
    · exact ih sound among

end Store.Sound

end Protoscript
