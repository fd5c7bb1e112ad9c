import Protoscript.Proofs.Discipline.Evaluation
import Protoscript.Session

/-! # Disciplined sessions

`Rooted root P` says what a discipline needs on top of its laws to be kept from step to step of a
session, which may be of any code: `root` holds of the machine between two steps, and `P` of every
moment of every step.  A run of a program is a session of one step. -/

set_option autoImplicit false

namespace Protoscript

open Eval (Course)

namespace Discipline

variable {D : Discipline} {setting : Setting}

variable (D) in
structure Rooted (root : Machine → Prop) (P : Moment → Prop) : Prop where
  code : ∀ t, D.code t
  holds : ∀ {m}, root m → D.holds .statement m
  moment : ∀ {m μ}, root m → D.moment m μ → P μ
  stays : ∀ {m after}, root m → D.holds .expression after → D.rel .statement m after → root after
  fresh : ∀ {m}, root m → root m.fresh ∧ D.next m m.fresh

namespace Rooted

variable {root : Machine → Prop} {P : Moment → Prop} (R : D.Rooted root P)
  (L : D.Lawful setting)

include R L

theorem moment_of {m : Machine} (rooted : root m) : P (.of m) :=
  R.moment rooted (L.moment_of (L.narrow (R.holds rooted)) (L.refl .statement m))

/-- A step of evaluation that keeps to the discipline leads from root to root. -/
theorem course {α : Type} {e : Extent} {m : Machine} {x : Eval α} {V : Machine → α → Prop}
    (keeps : D.Keeps e m x V) (rooted : root m) :
    Course P D.next m x fun out => root out.machine := by
  have holds : D.holds e m := by
    cases e with
    | expression => exact L.narrow (R.holds rooted)
    | statement => exact R.holds rooted
  refine (keeps holds).weaken (fun _ => R.moment rooted) ?_
  intro out ended
  cases e with
  | expression => exact R.stays rooted ended.holds (L.widen ended.rel)
  | statement => exact R.stays rooted (L.narrow ended.holds) ended.rel

theorem course_main (fuel : Nat) {m : Machine} (rooted : root m) :
    Course P D.next m (Eval.main setting fuel) fun out => root out.machine := by
  unfold Eval.main
  split
  · exact R.course L (L.keeps_fail (m := m) (e := .expression) (V := fun _ _ => True)) rooted
  · next f found =>
    have logged := R.course L
      (L.keeps_record (m := m) (.started setting.functions.size) trivial) rooted
    refine logged.bind ?_ fun _ _ ended => ended
    intro _ m₁ (rooted₁ : root m₁)
    obtain ⟨rooted₂, next⟩ := R.fresh rooted₁
    have renewed : Course P D.next m₁ (Eval.modify Machine.fresh)
        fun out => out = .ok () m₁.fresh :=
      .change (R.moment_of L rooted₂) next rfl
    refine renewed.bind ?_ ?_
    · intro _ m₂ same
      cases same
      have given : ∀ a ∈ ([] : List Eval.Passed), D.Given m₁.fresh a := by
        intro a member
        cases member
      have called := (L.kept fuel).invoke m₁.fresh f.toDefinition none [] none f.position.line
        (R.code _) .none given .none
      refine (R.course L called rooted₂).bind ?_ fun _ _ ended => ended
      intro _ m₃ ended
      exact .pure ended
    · intro _ _ same
      cases same

theorem course_perform (fuel : Nat) (step : Step) {m : Machine} (rooted : root m) :
    Course P D.next m (step.perform setting fuel) fun out => root out.machine := by
  cases step with
  | exec body =>
    have kept := (L.kept fuel).stmts m body fun s _ => R.code (.stmt s)
    exact (R.course L kept rooted).map (fun _ _ ended => ended) fun _ _ ended => ended
  | eval e =>
    have kept := (L.kept fuel).expr m e (R.code (.expr e))
    exact (R.course L kept rooted).map (fun _ _ ended => ended) fun _ _ ended => ended
  | run =>
    exact (R.course_main L fuel rooted).map (fun _ _ ended => ended) fun _ _ ended => ended

/-- A session keeps to the discipline, whatever its steps come to. -/
theorem course_session (steps : List (Nat × Step)) {m : Machine} (rooted : root m) :
    Course P D.next m (session setting steps) fun out => root out.machine := by
  induction steps generalizing m with
  | nil => exact .pure rooted
  | cons head rest ih =>
    obtain ⟨fuel, step⟩ := head
    have settled : Course P D.next m (Eval.settle (step.perform setting fuel))
        fun out => root out.machine :=
      (R.course_perform L fuel step rooted).settle (fun _ ended => ended) fun _ ended => ended
    refine settled.bind ?_ fun _ _ ended => ended
    intro _ after ended
    exact ih ended

theorem moments_session (steps : List (Nat × Step)) {m : Machine} (rooted : root m) :
    ∀ μ ∈ (session setting steps).history m, P μ := by
  intro μ passed
  rcases List.mem_cons.mp passed with rfl | passed
  · exact R.moment_of L rooted
  · exact (R.course_session L steps rooted).moments μ passed

end Rooted

end Discipline

end Protoscript
