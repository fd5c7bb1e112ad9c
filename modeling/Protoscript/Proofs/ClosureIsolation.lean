import Protoscript.Proofs.Scoping
import Protoscript.Proofs.Simulation

/-! # Isolation of closures

A call of a closure neither sees nor touches the environment of its caller.  From two machines that
differ in that environment alone it comes to the same, up to the numbers of what is allocated on
the way, and it leaves the frames of the caller as they were, except those that closures captured,
which it changes in the same way on both. -/

set_option autoImplicit false

namespace Protoscript

open Eval (Passed)

/-- Machines that differ in the environment of a caller alone: in the frames that are in use, and in
the contents of frames that no closure captured.  Both are well formed, as every machine is that a
session comes through. -/
structure Machine.SameBesidesCaller (m n : Machine) : Prop where
  left : m.store.WellFormed
  right : n.store.WellFormed
  objects : n.store.objects = m.store.objects
  closures : n.store.closures = m.store.closures
  captured : ∀ c ∈ m.store.closures, n.store.frame c.captured = m.store.frame c.captured
  depth : n.depth = m.depth
  console : n.console = m.console

namespace Machine.SameBesidesCaller

variable {m n : Machine} (same : m.SameBesidesCaller n)

include same

theorem has {v : Value} (has : m.store.Has v) : n.store.Has v := by
  cases v with
  | closure c =>
    rw [Store.Has, same.closures]
    exact has
  | object o => exact Nat.lt_of_lt_of_eq has (congrArg Array.size same.objects.symm)
  | _ => trivial

theorem captured_below (i : Nat) (captured : m.store.Captures ⟨i⟩) :
    i < m.store.frames.size ∧ i < n.store.frames.size := by
  obtain ⟨c, made, here⟩ := captured
  have left := same.left.captured c made
  have right := same.right.captured c (same.closures ▸ made)
  rw [here] at left right
  exact ⟨left, right⟩

theorem objects_below (i : Nat) (allocated : i < m.store.objects.size) :
    i < m.store.objects.size ∧ i < n.store.objects.size :=
  ⟨allocated, same.objects ▸ allocated⟩

theorem closures_below (i : Nat) (made : i < m.store.closures.size) :
    i < m.store.closures.size ∧ i < n.store.closures.size :=
  ⟨made, same.closures ▸ made⟩

/-- The captured frames, the objects and the closures that there are correspond to themselves. -/
def rename : Renaming where
  frames := .keeping _ _ _ same.captured_below
  objects := .keeping _ _ _ same.objects_below
  closures := .keeping _ _ _ same.closures_below

theorem sameFrame {f : FrameId} (captured : m.store.Captures f) : same.rename.SameFrame f f :=
  .inl ⟨rfl, captured⟩

theorem sameClosure {c : Closure} (made : c ∈ m.store.closures) :
    same.rename.SameClosure c c where
  id := .inl ⟨rfl, (Array.getElem?_eq_some_iff.mp (same.left.numbered c made)).1⟩
  definition := rfl
  captured := same.sameFrame ⟨c, made, rfl⟩

theorem sameObject {o : ObjectId} (has : m.store.Has (.object o)) : same.rename.SameObject o o :=
  .inl ⟨rfl, has⟩

theorem sameValue {v : Value} (has : m.store.Has v) : same.rename.SameValue v v := by
  cases v with
  | function d => exact .function d
  | closure c => exact .closure (same.sameClosure has)
  | object o => exact .object (same.sameObject has)
  | _ => exact .plain trivial

theorem sameBindings {b : Bindings} (has : ∀ name v, b.get? name = some v → m.store.Has v) :
    same.rename.SameBindings b b := by
  intro name
  cases bound : b.get? name with
  | none => exact .none
  | some v => exact .some (same.sameValue (has name v bound))

theorem sameReceiver {this : Option ObjectId}
    (received : ∀ o, this = some o → m.store.Has (.object o)) :
    Option.Rel same.rename.SameObject this this := by
  cases this with
  | none => exact .none
  | some o => exact .some (same.sameObject (received o rfl))

theorem sameArgs {passed passed' : List Passed}
    (values : passed.map Passed.value = passed'.map Passed.value)
    (known : ∀ a ∈ passed, m.store.Has a.value) : same.rename.SameArgs passed passed' := by
  induction passed generalizing passed' with
  | nil =>
    rw [List.map_eq_nil_iff.mp values.symm]
    exact .nil
  | cons a as ih =>
    cases passed' with
    | nil => cases values
    | cons b bs =>
      obtain ⟨value, values⟩ := List.cons.inj values
      refine .cons ?_ (ih values fun x later => known x (List.mem_cons_of_mem a later))
      rw [← value]
      exact same.sameValue (known a List.mem_cons_self)

theorem sameContents (o : ObjectId) :
    same.rename.SameContents (m.store.object o) (m.store.object o) where
  fields := same.sameBindings (same.left.field o)
  proto := by
    cases linked : (m.store.object o).proto with
    | none => exact .none
    | some p => exact .some (same.sameObject (same.left.proto o p linked))

theorem sameStore : same.rename.SameStore m.store n.store where
  frames := by
    refine .keeping same.captured_below ?_
    intro i kept
    obtain ⟨c, made, captured⟩ := kept
    have left := same.left.captured c made
    have right := same.right.captured c (same.closures ▸ made)
    have bindings := same.sameBindings (same.left.binding c.captured)
    rw [captured] at left right bindings
    rw [Store.getElem?_frames left, Store.getElem?_frames right, ← captured, same.captured c made,
      captured]
    exact .some bindings
  objects := by
    refine .keeping same.objects_below ?_
    intro i allocated
    rw [same.objects, Store.getElem?_objects (o := ⟨i⟩) allocated]
    exact .some (same.sameContents ⟨i⟩)
  closures := by
    refine .keeping same.closures_below ?_
    intro i made
    rw [same.closures, Array.getElem?_eq_getElem made]
    exact .some (same.sameClosure (Array.getElem_mem made))

omit same in
/-- A caller with one more frame, which binds a name of its own. -/
theorem push_create (wf : m.WellFormed) {v : Value} (has : m.store.Has v) (name : String) :
    m.SameBesidesCaller (m.push.create name v) where
  left := wf.store
  right := wf.push.store.bind ((Store.Extends.newFrame m.store .empty).has has) _ name
  objects := rfl
  closures := rfl
  captured c made := by
    have old := wf.store.captured c made
    have other : c.captured ≠ ⟨m.store.frames.size⟩ := by
      intro same
      rw [same] at old
      exact Nat.lt_irrefl _ old
    have kept : (m.push.create name v).store.frame c.captured = m.push.store.frame c.captured :=
      Store.frame_bind_of_ne _ other name v
    rw [kept]
    exact Store.frame_push_of_lt rfl old
  depth := rfl
  console := rfl

end Machine.SameBesidesCaller

/-! ## Calls of closures -/

/-- The same outcome with another machine. -/
def Outcome.withMachine {α : Type} (f : Machine → Machine) : Outcome α → Outcome α
  | ok a after => ok a (f after)
  | error s after => error s (f after)

theorem Outcome.machine_withMachine {α : Type} (f : Machine → Machine) (out : Outcome α) :
    (out.withMachine f).machine = f out.machine := by
  cases out <;> rfl

theorem Outcome.Alike.withMachine {α β : Type} {M N : Machine → Machine → Prop}
    {V : α → β → Prop} {x : Outcome α} {y : Outcome β} (alike : Alike M V x y)
    {f g : Machine → Machine} (machines : ∀ m n, M m n → N (f m) (g n)) :
    Alike N V (x.withMachine f) (y.withMachine g) := by
  cases alike with
  | ok same value => exact .ok (machines _ _ same) value
  | error same => exact .error (machines _ _ same)

namespace Renaming

/-- All but the environment in use is the same up to the renaming. -/
structure SameBesidesEnv (ρ : Renaming) (m n : Machine) : Prop where
  store : ρ.SameStore m.store n.store
  depth : m.depth = n.depth
  console : m.console = n.console

end Renaming

section Calls

variable {setting : Setting} {fuel : Nat} {d : Definition} {c : Closure}
  {passed passed' : List Passed} {this : Option ObjectId} {line : Nat} {m n : Machine}

/-- A call of a closure runs its body on the captured frame, and then sets the environment right. -/
theorem run_invocation : (Eval.invocation setting (fuel + 1) d (some c) passed this line).run m =
    match setting.reached? m.depth with
    | some limit => .error (.error ⟨.tooDeep limit d.name, line⟩) m
    | none =>
      ((Eval.body setting fuel d passed this).run ((m.enter d true).onFrame c.captured)).withMachine
        fun after => (after.onEnv m.env).leave := by
  rw [Eval.invocation, Option.isSome_some, Eval.run_entered]
  cases setting.reached? m.depth with
  | some limit => rfl
  | none =>
    dsimp only [Eval.counted, Eval.onCaptured, Eval.bracket]
    cases (Eval.body setting fuel d passed this).run ((m.enter d true).onFrame c.captured) <;> rfl

theorem env_invocation :
    ((Eval.invocation setting fuel d (some c) passed this line).run m).machine.env = m.env :=
  (sameStack_of_keeps m (((stackDiscipline.lawful setting).kept fuel).invocation m d (some c) passed
    this line trivial (fun _ _ => trivial) (fun _ _ => ⟨trivial, fun _ _ => trivial⟩)
    fun _ _ => trivial)).env

/-- A call of a closure writes no frame that was there and that no closure captured. -/
theorem frame_invocation (wf : m.store.WellFormed) (made : c ∈ m.store.closures)
    (known : ∀ a ∈ passed, m.store.Has a.value)
    (received : ∀ o, this = some o → m.store.Has (.object o)) {f : FrameId}
    (allocated : f.index < m.store.frames.size) (free : ¬ m.store.Captures f) :
    ((Eval.invocation setting fuel d (some c) passed this line).run m).machine.store.frame f =
      m.store.frame f := by
  cases fuel with
  | zero =>
    rw [Eval.invocation]
    rfl
  | succ fuel =>
    rw [run_invocation]
    cases setting.reached? m.depth with
    | some limit => rfl
    | none =>
      have start : ((m.enter d true).onFrame c.captured).WellFormed := by
        refine ⟨wf, ?_⟩
        intro g used
        rw [List.mem_singleton.mp used]
        exact wf.captured c made
      have body := ((scopeDiscipline.lawful setting).kept fuel).body
        ((m.enter d true).onFrame c.captured) d passed this trivial known received
      have ended := (body start).ends
      have unused : f ∉ [c.captured] := by
        intro used
        exact free ⟨c, made, (List.mem_singleton.mp used).symm⟩
      dsimp only
      rw [Outcome.machine_withMachine]
      exact ended.rel.untouched f allocated unused free

/-- From machines that differ in the caller alone, a call of a closure on the same values comes to
the same. -/
theorem alike_invocation (same : m.SameBesidesCaller n) (made : c ∈ m.store.closures)
    (values : passed.map Passed.value = passed'.map Passed.value)
    (known : ∀ a ∈ passed, m.store.Has a.value)
    (received : ∀ o, this = some o → m.store.Has (.object o)) :
    Outcome.Alike same.rename.SameBesidesEnv (same.rename.SameCall passed passed')
      ((Eval.invocation setting fuel d (some c) passed this line).run m)
      ((Eval.invocation setting fuel d (some c) passed' this line).run n) := by
  have rest : same.rename.SameBesidesEnv m n := ⟨same.sameStore, same.depth.symm, same.console.symm⟩
  cases fuel with
  | zero =>
    rw [Eval.invocation, Eval.invocation]
    exact .error rest
  | succ fuel =>
    rw [run_invocation, run_invocation, same.depth]
    cases setting.reached? m.depth with
    | some limit => exact .error rest
    | none =>
      have args := same.sameArgs values known
      have receiver := same.sameReceiver received
      have inside : same.rename.SameMachine ((m.enter d true).onFrame c.captured)
          ((n.enter d true).onFrame c.captured) := by
        refine ⟨same.sameStore, .cons (same.sameFrame ⟨c, made, rfl⟩) .nil, ?_, ?_⟩
        · exact congrArg (· + 1) same.depth.symm
        · rw [Machine.enter, Machine.enter, same.depth]
          exact congrArg (Console.record · (.called d.name d.arity (m.depth + 1) true))
            same.console.symm
      have ended := same.rename.simulates_body setting fuel d args receiver _ _ inside
      refine ended.withMachine ?_
      intro after after' left
      exact ⟨left.store, congrArg (· - 1) left.depth, left.console⟩

/-- A call of a closure, up to its write-backs, from two machines that differ in the caller alone,
with the same argument values and the same receiver.  It comes to the same on both, with the same
console, the same objects and the same captured frames, up to the numbers of what it allocated.  It
leaves the environment of each caller in use again, and no frame of either has changed that no
closure captured. -/
theorem closure_call_isolated (setting : Setting) (fuel : Nat) (line : Nat)
    (same : m.SameBesidesCaller n) (made : c ∈ m.store.closures)
    (values : passed.map Passed.value = passed'.map Passed.value)
    (known : ∀ a ∈ passed, m.store.Has a.value)
    (received : ∀ o, this = some o → m.store.Has (.object o)) :
    let left := (Eval.invocation setting fuel c.definition (some c) passed this line).run m
    let right := (Eval.invocation setting fuel c.definition (some c) passed' this line).run n
    Outcome.Alike same.rename.SameBesidesEnv (same.rename.SameCall passed passed') left right ∧
      (left.machine.env = m.env ∧ right.machine.env = n.env) ∧
      (∀ f, f.index < m.store.frames.size → ¬ m.store.Captures f →
        left.machine.store.frame f = m.store.frame f) ∧
      ∀ f, f.index < n.store.frames.size → ¬ n.store.Captures f →
        right.machine.store.frame f = n.store.frame f := by
  intro left right
  refine ⟨?_, ⟨env_invocation, env_invocation⟩, ?_, ?_⟩
  · exact alike_invocation same made values known received
  · intro f allocated free
    exact frame_invocation same.left made known received allocated free
  · intro f allocated free
    refine frame_invocation same.right (same.closures ▸ made) ?_ ?_ allocated free
    · intro b among
      have value : b.value ∈ passed.map Passed.value := values ▸ List.mem_map_of_mem among
      obtain ⟨a, among, equal⟩ := List.mem_map.mp value
      exact equal ▸ same.has (known a among)
    · intro o receiver
      exact same.has (received o receiver)

/-- A closure that assigns to `x`, called beside a frame that binds `x`. -/
theorem closure_call_isolated_beside_frame :
    let d : Definition := ⟨"lambda", [], [.assign ["x"] (.int 1 .start) .start], .start⟩
    let m := ((Machine.start []).newClosure d).2
    let n := m.push.create "x" (.int 7)
    let c : Closure := ⟨⟨0⟩, d, ⟨1⟩⟩
    let right := (Eval.invocation ⟨.empty, none⟩ 9 d (some c) [] none 1).run n
    ∃ same : m.SameBesidesCaller n,
      Outcome.Alike same.rename.SameBesidesEnv (same.rename.SameCall [] [])
        ((Eval.invocation ⟨.empty, none⟩ 9 d (some c) [] none 1).run m) right ∧
      right.machine.store.frame ⟨2⟩ = n.store.frame ⟨2⟩ := by
  intro d m n c right
  have has : m.store.Has (.int 7) := trivial
  have wf : m.WellFormed := (Machine.WellFormed.start []).newClosure d
  have same : m.SameBesidesCaller n := .push_create wf has "x"
  have registry : n.store.closures = #[c] := rfl
  have made : c ∈ m.store.closures := Array.mem_push_self
  have free : ¬ n.store.Captures ⟨2⟩ := by
    intro captured
    obtain ⟨c', made', here⟩ := captured
    rw [registry] at made'
    have only : c' = c := by simpa using made'
    rw [only] at here
    cases here
  have known : ∀ a ∈ ([] : List Passed), m.store.Has a.value := nofun
  have received : ∀ o, (none : Option ObjectId) = some o → m.store.Has (.object o) := nofun
  have isolated := closure_call_isolated ⟨.empty, none⟩ 9 1 same made
    (rfl : _ = [].map Passed.value) known received
  exact ⟨same, isolated.1, isolated.2.2.2 ⟨2⟩ (by decide) free⟩

end Calls

end Protoscript
