import Protoscript.Proofs.Discipline.Session

/-! # The depth of calls

From one moment of a run to the next a call is counted in, one is counted out, or the count stays
(`Machine.Turns`).  It never exceeds the limit, and a run ends with the count that it started
with. -/

set_option autoImplicit false

namespace Protoscript

/-- The depth of the call that the event logs. -/
def Event.depth? : Event → Option Nat
  | called _ _ depth _ => some depth
  | _ => none

namespace Console

theorem log_readLine (c : Console) : c.readLine.2.log = c.log ++ [.asked c.readLine.1] := by
  obtain ⟨inputs, latest⟩ := c
  cases inputs with
  | nil => exact log_record _ _
  | cons line rest => exact log_record ⟨rest, latest⟩ _

/-- Notes and requests for lines log no call. -/
theorem Uses.log {c d : Console} (uses : c.Uses d) :
    ∃ new, d.log = c.log ++ new ∧ ∀ e ∈ new, e.depth? = none := by
  induction uses with
  | refl => exact ⟨[], (List.append_nil _).symm, fun e among => absurd among List.not_mem_nil⟩
  | @note d e _ plain ih =>
    obtain ⟨new, log, quiet⟩ := ih
    have noCall : e.depth? = none := by
      cases e with
      | called => cases plain
      | _ => rfl
    refine ⟨new ++ [e], ?_,
      List.forall_mem_append.mpr ⟨quiet, List.forall_mem_singleton.mpr noCall⟩⟩
    rw [log_record, log, List.append_assoc]
  | @readLine d _ ih =>
    obtain ⟨new, log, quiet⟩ := ih
    refine ⟨new ++ [.asked d.readLine.1], ?_,
      List.forall_mem_append.mpr ⟨quiet, List.forall_mem_singleton.mpr rfl⟩⟩
    rw [log_readLine, log, List.append_assoc]

end Console

/-! ## The limit -/

/-- So many calls may be under way. -/
def Setting.Allows (setting : Setting) (depth : Nat) : Prop :=
  ∀ k, setting.maxDepth = some k → depth ≤ k

namespace Setting

variable {setting : Setting} {depth : Nat}

theorem reached?_eq_none_iff : setting.reached? depth = none ↔ setting.Allows (depth + 1) := by
  unfold reached? Allows
  rw [Option.filter_eq_none_iff]
  refine forall₂_congr fun k _ => ?_
  rw [decide_eq_true_eq]
  omega

theorem reached?_eq_some {k : Nat} (reached : setting.reached? depth = some k) :
    setting.maxDepth = some k ∧ k ≤ depth := by
  unfold reached? at reached
  rw [Option.filter_eq_some_iff, decide_eq_true_eq] at reached
  exact reached

end Setting

/-! ## The discipline of calls -/

theorem Machine.log_enter (m : Machine) (d : Definition) (closure : Bool) :
    (m.enter d closure).console.log =
      m.console.log ++ [.called d.name d.arity (m.depth + 1) closure] :=
  Console.log_record _ _

/-- From one moment of evaluation to the next, a call is counted in, one is counted out, or the
count stays. -/
inductive Machine.Turns (m : Machine) : Machine → Prop
  | entered (d : Definition) (closure : Bool) : m.Turns (m.enter d closure)
  | left (counted : 0 < m.depth) : m.Turns m.leave
  | within {after : Machine} (depth : after.depth = m.depth)
    (uses : m.console.Uses after.console) : m.Turns after

/-- The discipline of counting calls. -/
def callDiscipline (setting : Setting) : Discipline where
  holds _ m := setting.Allows m.depth
  value _ _ := True
  named _ _ := True
  rel _ m after := after.depth = m.depth
  moment _ μ := setting.Allows μ.machine.depth
  next := Machine.Turns

namespace callDiscipline

variable {setting : Setting}

theorem stays {e : Extent} {m after : Machine} (allowed : setting.Allows m.depth)
    (depth : after.depth = m.depth) (uses : m.console.Uses after.console) :
    (callDiscipline setting).Stays e m after where
  holds := (congrArg setting.Allows depth).mpr allowed
  rel := depth
  next := .within depth uses

/-- A bracket that counts no call. -/
theorem bracketed {e : Extent} {m inside : Machine} {aside : List (Closure × Environment)}
    {leave : Machine → Machine} (allowed : setting.Allows m.depth)
    (depth : inside.depth = m.depth) (console : inside.console = m.console)
    (left : ∀ after, (leave after).store = after.store ∧ (leave after).depth = after.depth ∧
      (leave after).console = after.console) :
    (callDiscipline setting).Bracketed e m inside aside leave where
  holds := (congrArg setting.Allows depth).mpr allowed
  value _ _ := trivial
  next := .within depth (console ▸ .refl)
  moment _ moment := moment
  leaves after holds rel := by
    obtain ⟨-, same, log⟩ := left after
    have allowed := (congrArg setting.Allows same).mpr holds
    exact ⟨allowed, same.trans (rel.trans depth), .within same (log ▸ .refl)⟩
  store after := (left after).1

theorem lawful (setting : Setting) : (callDiscipline setting).Lawful setting where
  part _ _ := trivial
  called _ _ := trivial
  refl _ _ := rfl
  trans first second := second.trans first
  widen rel := rel
  narrow holds := holds
  reopen _ _ holds := holds
  value_mono _ _ := trivial
  named_mono _ _ := trivial
  moment_of holds _ := holds
  moment_mono _ moment := moment
  plain _ _ _ := trivial
  function _ _ _ _ := trivial
  binding _ _ := trivial
  member _ _ _ := trivial
  named_of_binding _ _ _ := trivial
  console holds _ uses := stays holds rfl uses
  newObject holds := ⟨stays holds rfl .refl, trivial⟩
  newClosure holds _ _ := ⟨stays holds rfl .refl, trivial⟩
  setMember holds _ _ _ := stays holds rfl .refl
  set holds _ _ _ := stays holds rfl .refl
  set_named holds _ _ := stays holds rfl .refl
  create holds _ _ := stays holds rfl .refl
  scope holds := bracketed holds rfl rfl fun _ => ⟨rfl, rfl, rfl⟩
  captured holds _ := bracketed holds rfl rfl fun _ => ⟨rfl, rfl, rfl⟩
  counted {m} holds allowed d closure := {
    holds := Setting.reached?_eq_none_iff.mp allowed
    value := fun _ _ => trivial
    next := .entered d closure
    moment := fun _ moment => moment
    leaves := by
      intro after _ rel
      have counted : after.depth = m.depth + 1 := rel
      have left : after.leave.depth = m.depth := by
        rw [Machine.leave, counted]
        exact Nat.add_sub_cancel m.depth 1
      refine ⟨(congrArg setting.Allows left).mpr holds, left, .left ?_⟩
      rw [counted]
      exact Nat.succ_pos m.depth
    store := fun _ => rfl }

/-- Between the steps of a session no call is under way. -/
theorem rooted : (callDiscipline setting).Rooted (fun m => m.depth = 0)
    fun μ => setting.Allows μ.machine.depth where
  code _ := trivial
  holds {m} root := by
    intro k _
    rw [root]
    exact Nat.zero_le k
  moment _ moment := moment
  stays root _ rel := rel.trans root
  fresh root := ⟨rfl, .within root.symm .refl⟩

end callDiscipline

/-- A run starts with no call under way, and as it goes on its calls turn. -/
theorem course_run (p : Program) (maxDepth : Option Nat) (inputs : List String) (fuel : Nat) :
    Eval.Course (fun μ => (p.setting maxDepth).Allows μ.machine.depth)
      Machine.Turns (.start inputs) (Eval.main (p.setting maxDepth) fuel)
      fun out => out.machine.depth = 0 :=
  callDiscipline.rooted.course_main (callDiscipline.lawful (p.setting maxDepth)) fuel rfl

end Protoscript
