import Protoscript.Proofs.Discipline.Session

/-! # Stack discipline

Evaluation leaves the machine with the frames and the call depth that it started from, whatever it
comes to.  So between the steps of a session there is one frame, and no call is under way. -/

set_option autoImplicit false

namespace Protoscript

/-- The same frames in the same order, and as many calls under way. -/
structure Machine.SameStack (m after : Machine) : Prop where
  env : after.env = m.env
  depth : after.depth = m.depth

namespace Machine.SameStack

variable {m m₁ m₂ : Machine}

theorem refl (m : Machine) : m.SameStack m := ⟨rfl, rfl⟩

theorem trans (first : m.SameStack m₁) (second : m₁.SameStack m₂) : m.SameStack m₂ :=
  ⟨second.env.trans first.env, second.depth.trans first.depth⟩

/-! Each bracket undoes on the way out what it did to the stack on the way in. -/

theorem pop {after : Machine} (same : m.push.SameStack after) : m.SameStack after.pop :=
  ⟨congrArg Environment.pop same.env, same.depth⟩

theorem onEnv {after : Machine} {f : FrameId} (same : (m.onFrame f).SameStack after) :
    m.SameStack (after.onEnv m.env) :=
  ⟨rfl, same.depth⟩

theorem leave {after : Machine} {d : Definition} {closure : Bool}
    (same : (m.enter d closure).SameStack after) : m.SameStack after.leave := by
  refine ⟨same.env, ?_⟩
  rw [Machine.leave, same.depth]
  exact Nat.add_sub_cancel m.depth 1

end Machine.SameStack

/-- The discipline of keeping the stack, which asks nothing of code, machines and values. -/
def stackDiscipline : Discipline where
  holds _ _ := True
  value _ _ := True
  named _ _ := True
  rel _ := Machine.SameStack
  moment _ _ := True
  next _ _ := True

namespace stackDiscipline

theorem stays {e : Extent} {m after : Machine} (same : m.SameStack after) :
    stackDiscipline.Stays e m after :=
  ⟨trivial, same, trivial⟩

/-- A bracket keeps the stack if leaving it undoes what entering did to the stack. -/
theorem bracketed {e : Extent} {m inside : Machine} {aside : List (Closure × Environment)}
    {leave : Machine → Machine} (store : ∀ after, (leave after).store = after.store)
    (undone : ∀ after, inside.SameStack after → m.SameStack (leave after)) :
    stackDiscipline.Bracketed e m inside aside leave where
  holds := trivial
  value _ _ := trivial
  next := trivial
  moment _ _ := trivial
  leaves after _ same := ⟨trivial, undone after same, trivial⟩
  store := store

theorem lawful (setting : Setting) : stackDiscipline.Lawful setting where
  part _ _ := trivial
  called _ _ := trivial
  refl _ m := .refl m
  trans := .trans
  widen same := same
  narrow _ := trivial
  reopen _ _ _ := trivial
  value_mono _ _ := trivial
  named_mono _ _ := trivial
  moment_of _ _ := trivial
  moment_mono _ _ := trivial
  plain _ _ _ := trivial
  function _ _ _ _ := trivial
  binding _ _ := trivial
  member _ _ _ := trivial
  named_of_binding _ _ _ := trivial
  console _ _ _ := stays ⟨rfl, rfl⟩
  newObject _ := ⟨stays ⟨rfl, rfl⟩, trivial⟩
  newClosure _ _ _ := ⟨stays ⟨rfl, rfl⟩, trivial⟩
  setMember _ _ _ _ := stays ⟨rfl, rfl⟩
  set _ _ _ _ := stays ⟨rfl, rfl⟩
  set_named _ _ _ := stays ⟨rfl, rfl⟩
  create _ _ _ := stays ⟨rfl, rfl⟩
  scope _ := bracketed (fun _ => rfl) fun _ => .pop
  captured _ _ := bracketed (fun _ => rfl) fun _ => .onEnv
  counted _ _ _ _ := bracketed (fun _ => rfl) fun _ => .leave

/-- Between the steps of a session there is one frame, and no call is under way. -/
theorem rooted :
    stackDiscipline.Rooted (fun m => m.env.outer = [] ∧ m.depth = 0) fun _ => True where
  code _ := trivial
  holds _ := trivial
  moment _ _ := trivial
  stays := by
    intro m after root _ same
    obtain ⟨one, none⟩ := root
    exact ⟨by rw [same.env, one], by rw [same.depth, none]⟩
  fresh _ := ⟨⟨rfl, rfl⟩, trivial⟩

end stackDiscipline

section Results

variable (setting : Setting) (fuel : Nat) (m : Machine)

theorem sameStack_of_keeps {α : Type} {e : Extent} {x : Eval α} {V : Machine → α → Prop}
    (keeps : stackDiscipline.Keeps e m x V) : m.SameStack (x.run m).machine :=
  (keeps trivial).ends.rel

theorem sameStack_expr (e : Expr) : m.SameStack ((Eval.expr setting fuel e).run m).machine :=
  sameStack_of_keeps m (((stackDiscipline.lawful setting).kept fuel).expr m e trivial)

theorem sameStack_stmt (s : Stmt) : m.SameStack ((Eval.stmt setting fuel s).run m).machine :=
  sameStack_of_keeps m (((stackDiscipline.lawful setting).kept fuel).stmt m s trivial)

theorem stack_of_session (inputs : List String) (steps : List (Nat × Step)) :
    let after := ((session setting steps).run (Machine.start inputs)).machine
    after.env.outer = [] ∧ after.depth = 0 :=
  (stackDiscipline.rooted.course_session (stackDiscipline.lawful setting) steps ⟨rfl, rfl⟩).ends

/-- Whatever a statement or an expression comes to, and whatever machine it starts from, the frames
and the call depth are afterwards what they were before.  After any steps of a session, failed ones
included, there is one frame and no call is under way. -/
theorem evaluation_restores_stack :
    (∀ s, ((Eval.stmt setting fuel s).run m).machine.env.frames = m.env.frames ∧
      ((Eval.stmt setting fuel s).run m).machine.depth = m.depth) ∧
    (∀ e, ((Eval.expr setting fuel e).run m).machine.env.frames = m.env.frames ∧
      ((Eval.expr setting fuel e).run m).machine.depth = m.depth) ∧
    ∀ inputs steps,
      ((session setting steps).run (Machine.start inputs)).machine.env.frames.length = 1 ∧
        ((session setting steps).run (Machine.start inputs)).machine.depth = 0 := by
  refine ⟨?_, ?_, ?_⟩
  · intro s
    have same := sameStack_stmt setting fuel m s
    exact ⟨congrArg Environment.frames same.env, same.depth⟩
  · intro e
    have same := sameStack_expr setting fuel m e
    exact ⟨congrArg Environment.frames same.env, same.depth⟩
  · intro inputs steps
    obtain ⟨one, none⟩ := stack_of_session setting inputs steps
    refine ⟨?_, none⟩
    rw [Environment.frames, one]
    rfl

end Results

end Protoscript
