import Protoscript.Proofs.Likeness.Runs

/-! # Runs in a session

A run starts afresh, whatever the session did before it: `rerun_is_run`.  What earlier steps left in
the store is garbage to it.  The two runs allocate under different numbers, so they are compared by
a likeness in which nothing that is there at the start corresponds to anything. -/

set_option autoImplicit false

namespace Protoscript

namespace Likeness

/-- Nothing on the two machines corresponds but what is allocated from here on, and the logs gain
the same. -/
def apart (m n : Machine) : Likeness where
  code := .equal
  function := Eq
  function_id := Function.id_eq_iff_of_eq
  ids := {
    frames := .since m.store.frames.size n.store.frames.size
    objects := .since m.store.objects.size n.store.objects.size
    closures := .since m.store.closures.size n.store.closures.size }
  console := Code.equal.SameConsole m.console.log n.console.log
  cut _ _ _ := False

variable (m n : Machine)

theorem sameStore_apart : (apart m n).SameStore m.store n.store :=
  ⟨.since _ _, .since _ _, .since _ _⟩

theorem lawful_apart (setting : Setting) : (apart m n).Lawful setting setting := by
  have tables : (apart m n).SameTable setting.functions setting.functions :=
    .self fun _ f _ => ⟨rfl, Code.sameDefinition_equal f.toDefinition⟩
  exact lawful_of_sameConsole rfl tables (tables.get? trivial 0) rfl setting.maxDepth

end Likeness

open Likeness

/-- Both came to the same end, with the same lines unread, and added the same to their logs. -/
structure SameGain {α β : Type} (m n : Machine) (left : Outcome α) (right : Outcome β) : Prop where
  ending : left.ending = right.ending
  inputs : left.machine.console.inputs = right.machine.console.inputs
  log : ∃ new, left.machine.console.log = m.console.log ++ new ∧
    right.machine.console.log = n.console.log ++ new

namespace SameGain

variable {α β : Type} {m n : Machine} {left : Outcome α} {right : Outcome β}

theorem of_sameConsole (ending : left.ending = right.ending)
    (consoles : (apart m n).console left.machine.console right.machine.console) :
    SameGain m n left right := by
  obtain ⟨inputs, new, new', gained, gained', events⟩ := consoles
  obtain rfl := Code.eq_of_sameEvents id events
  exact ⟨ending, inputs, new, gained, gained'⟩

theorem of_agree {V : α → β → Prop} {y : Eval β} (agree : (apart m n).Agree V y n left) :
    SameGain m n left (y.run n) := by
  cases agree with
  | ok right machines =>
    rw [right]
    exact .of_sameConsole rfl machines.console
  | error right stops machines =>
    rw [right]
    exact .of_sameConsole (stops.sameEnding.eq id) machines.console
  | cut _ _ cut => exact cut.elim

end SameGain

/-- What a run of `main` does depends on nothing of the machine but the lines that wait. -/
theorem sameGain_main (setting : Setting) (fuel : Nat) {m n : Machine}
    (inputs : m.console.inputs = n.console.inputs) :
    SameGain m n ((Eval.main setting fuel).run m) ((Eval.main setting fuel).run n) := by
  cases found : setting.functions.get? "main" 0 with
  | some d =>
    have fuelled : (apart m n).Fuelled fuel fuel := .inl rfl
    have course := course_main (lawful_apart m n setting) fuelled found (sameStore_apart m n)
      (.here inputs)
    exact .of_agree course.ends
  | none =>
    unfold Eval.main
    rw [found]
    exact .of_sameConsole rfl (.here inputs)

theorem ending_map {α β : Type} (f : α → β) (x : Eval α) (m : Machine) :
    ((f <$> x).run m).ending = (x.run m).ending := by
  change ((x >>= fun a => pure (f a)).run m).ending = (x.run m).ending
  rw [Eval.run_bind]
  cases x.run m <;> rfl

theorem machine_map {α β : Type} (f : α → β) (x : Eval α) (m : Machine) :
    ((f <$> x).run m).machine = (x.run m).machine := by
  change ((x >>= fun a => pure (f a)).run m).machine = (x.run m).machine
  rw [Eval.run_bind]
  cases x.run m <;> rfl

/-- A run on any machine, whatever a session did on it, is a run of the program by itself on the
lines that still wait: it ends the same, reads the same lines, logs the same and writes the same. -/
theorem rerun_is_run (p : Program) (maxDepth : Option Nat) (fuel : Nat) (m : Machine) :
    let again := (Step.run.perform (p.setting maxDepth) fuel).run m
    let anew := p.run maxDepth m.console.inputs fuel
    again.ending = anew.ending ∧
      again.machine.console.inputs = anew.console.inputs ∧
      again.machine.console.log = m.console.log ++ anew.console.log ∧
      again.machine.console.output = m.console.output ++ anew.console.output := by
  intro again anew
  obtain ⟨ending, inputs, new, gained, gained'⟩ :=
    sameGain_main (p.setting maxDepth) fuel (m := m) (n := .start m.console.inputs) rfl
  have machine : again.machine = ((Eval.main (p.setting maxDepth) fuel).run m).machine :=
    machine_map _ _ m
  have log : again.machine.console.log = m.console.log ++ anew.console.log := by
    have whole : anew.console.log = new := by
      change (p.run maxDepth m.console.inputs fuel).console.log = new
      rw [p.run_eq]
      exact gained'
    rw [machine, gained, whole]
  refine ⟨?_, ?_, log, ?_⟩
  · change _ = (p.run maxDepth m.console.inputs fuel).ending
    rw [p.run_eq]
    exact (ending_map _ _ m).trans ending
  · change _ = (p.run maxDepth m.console.inputs fuel).console.inputs
    rw [p.run_eq, machine]
    exact inputs
  · rw [Console.output, Console.output, Console.output, log, List.filterMap_append]

end Protoscript
