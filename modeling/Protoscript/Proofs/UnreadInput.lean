import Protoscript.Proofs.DepthLimit
import Protoscript.Proofs.Expectation.Evaluation
import Protoscript.Proofs.MoreInput

/-! # Input that is not read

Evaluation writes at the end of the output and reads from the front of the input.  What a run does
not read has no influence on it: with any other lines in its place the run is the same, and leaves
these unread.  A run that ends for want of a line has read them all, and with more lines it writes
what it wrote and then perhaps more. -/

set_option autoImplicit false

namespace Protoscript

/-- In the course of the step the output only gets longer at its end and the input shorter at its
front: so it is from every moment to the end, be that a result or a stop. -/
def Eval.AppendsOnly {α : Type} (x : Eval α) (m : Machine) : Prop :=
  ∀ μ ∈ x.history m, μ.machine.console.output <+: (x.run m).machine.console.output ∧
    (x.run m).machine.console.inputs <:+ μ.machine.console.inputs

open Likeness

theorem appendsOnly_of_matches {α : Type} {x : Eval α} {V : α → α → Prop}
    (self : itself.Matches x x V) (m : Machine) : x.AppendsOnly m := by
  intro μ passed
  have before := before_of_matches self m μ passed
  exact ⟨before.output, before.inputs⟩

section AppendsOnly

variable (setting : Setting) (fuel : Nat) (m : Machine)

theorem appendsOnly_expr (e : Expr) : (Eval.expr setting fuel e).AppendsOnly m :=
  appendsOnly_of_matches
    ((matched (lawful_itself setting) (.inl rfl)).expr (Code.covers_equal.sameExpr e trivial)) m

theorem appendsOnly_stmt (s : Stmt) : (Eval.stmt setting fuel s).AppendsOnly m :=
  appendsOnly_of_matches
    ((matched (lawful_itself setting) (.inl rfl)).stmt (Code.covers_equal.sameStmt s trivial)) m

theorem appendsOnly_main : (Eval.main setting fuel).AppendsOnly m :=
  appendsOnly_of_matches (matches_main_itself setting fuel) m

end AppendsOnly

/-! ## Runs that want a line -/

namespace Expectation

/-- If evaluation stops for want of a line, no line is left. -/
def readsAll : Expectation where
  code _ := True
  stop s c := s.IsEndOfInput → c.inputs = []
  enough _ _ _ := True

theorem lawful_readsAll (setting : Setting) : readsAll.Lawful itself setting where
  alike := lawful_itself setting
  covers := Code.covers_equal
  lambda _ := trivial
  function _ := trivial
  raised := by
    intro s raised c wanting
    obtain ⟨cause, line, raised, rfl⟩ := raised
    obtain ⟨line', same⟩ := wanting
    cases same
    cases raised
  answered := by
    intro name values line c e after called wanting
    obtain ⟨line', same⟩ := wanting
    cases same
    exact (Builtin.Patient.call? Builtin.all name values line).empty c line' after called
  starved _ _ wanting := by
    obtain ⟨line, same⟩ := wanting
    cases same
  spend _ _ _ := trivial
  call _ _ _ _ := trivial
  loops _ _ _ _ := trivial

end Expectation

variable (p : Program) (maxDepth : Option Nat)

theorem inputs_eq_nil_of_isEndOfInput {inputs : List String} {fuel : Nat}
    (wanting : (p.run maxDepth inputs fuel).ending.IsEndOfInput) :
    (p.run maxDepth inputs fuel).console.inputs = [] := by
  obtain ⟨line, ended⟩ := wanting
  have lawful := Expectation.lawful_readsAll (p.setting maxDepth)
  have stopped : (p.run maxDepth inputs fuel).ending =
      (Stop.error ⟨.endOfInput, line⟩).ending := ended
  exact lawful.stop_of_run trivial (sameMachine_equal _) stopped ⟨line, rfl⟩

theorem inputs_suffix (inputs : List String) (fuel : Nat) :
    (p.run maxDepth inputs fuel).console.inputs <:+ inputs := by
  rw [p.run_eq]
  exact (appendsOnly_main (p.setting maxDepth) fuel (.start inputs) _ List.mem_cons_self).2

variable {p maxDepth}

/-- Other lines in the place of those that a run left unread. -/
theorem Program.EndsIn.reread {read : List String} {r : Run}
    (ends : p.EndsIn maxDepth (read ++ r.console.inputs) r) (fed : ¬ r.ending.IsEndOfInput)
    (others : List String) :
    p.EndsIn maxDepth (read ++ others) ⟨r.ending, ⟨others, r.console.latest⟩⟩ := by
  obtain ⟨ended, fuel, same⟩ := ends
  -- First the run without the unread lines, then that with the others.
  rcases run_awaiting p maxDepth read r.console.inputs fuel with alone | ⟨-, -, fewer⟩
  · rw [same] at alone
    have ending : (p.run maxDepth read fuel).ending = r.ending :=
      (congrArg Run.ending alone).symm
    have console : r.console = (p.run maxDepth read fuel).console.awaiting r.console.inputs :=
      congrArg Run.console alone
    have inputs : (p.run maxDepth read fuel).console.inputs = [] := by
      have split := congrArg Console.inputs console
      exact List.self_eq_append_left.mp split
    have latest : (p.run maxDepth read fuel).console.latest = r.console.latest :=
      (congrArg Console.latest console).symm
    rcases run_awaiting p maxDepth read others fuel with equal | ⟨wanting, -⟩
    · refine ⟨ended, fuel, ?_⟩
      rw [equal, ending, Console.awaiting, inputs, latest, List.nil_append]
    · rw [ending] at wanting
      exact absurd wanting fed
  · rw [same] at fewer
    omega

/-- More lines behind the input of a run that wanted one. -/
theorem Program.EndsIn.output_prefix {inputs more : List String} {r r' : Run}
    (ends : p.EndsIn maxDepth inputs r) (ends' : p.EndsIn maxDepth (inputs ++ more) r') :
    r.console.output <+: r'.console.output := by
  obtain ⟨ended, fuel, rfl⟩ := ends
  obtain ⟨ended', fuel', rfl⟩ := ends'
  have left := run_of_more_fuel p (le_max_left fuel fuel') ended
  have right := run_of_more_fuel p (le_max_right fuel fuel') ended'
  have related := run_awaiting p maxDepth inputs more (max fuel fuel')
  rw [left, right] at related
  rcases related with same | ⟨-, reads, -⟩
  · rw [same]
    exact List.prefix_rfl
  · exact reads.output

variable (p maxDepth)

/-- Evaluation appends to the output and takes lines from the front of the input; and lines that are
not read do not matter.  A run that does not end for want of a line is the same whatever lines stand
behind those it read, and leaves exactly these.  A run that does end for want of a line leaves none,
and its output is the beginning of what the program writes with more lines. -/
theorem unread_input_does_not_matter :
    (∀ fuel m, (∀ s, (Eval.stmt (p.setting maxDepth) fuel s).AppendsOnly m) ∧
      (∀ e, (Eval.expr (p.setting maxDepth) fuel e).AppendsOnly m) ∧
      (Eval.main (p.setting maxDepth) fuel).AppendsOnly m) ∧
    ∀ inputs r, p.EndsIn maxDepth inputs r →
      (¬ r.ending.IsEndOfInput → ∃ read, inputs = read ++ r.console.inputs ∧
        ∀ others,
          p.EndsIn maxDepth (read ++ others) ⟨r.ending, ⟨others, r.console.latest⟩⟩) ∧
      (r.ending.IsEndOfInput → r.console.inputs = [] ∧
        ∀ more r', p.EndsIn maxDepth (inputs ++ more) r' →
          r.console.output <+: r'.console.output) := by
  constructor
  · intro fuel m
    exact ⟨appendsOnly_stmt _ fuel m, appendsOnly_expr _ fuel m, appendsOnly_main _ fuel m⟩
  · intro inputs r ends
    constructor
    · intro fed
      have unread : r.console.inputs <:+ inputs := by
        obtain ⟨-, fuel, rfl⟩ := ends
        exact inputs_suffix p maxDepth inputs fuel
      obtain ⟨read, split⟩ := unread
      rw [← split] at ends
      exact ⟨read, split.symm, ends.reread fed⟩
    · intro wanting
      refine ⟨?_, fun more r' ends' => ends.output_prefix ends'⟩
      obtain ⟨-, fuel, rfl⟩ := ends
      exact inputs_eq_nil_of_isEndOfInput p maxDepth wanting

/-- `main` asks for a line and writes it. -/
def Program.echoing : Program :=
  let line : Expr := .call "inputs" [.str "? " .start] .start
  let main : Definition := ⟨"main", [], [.call (.call "print" [line] .start)], .start⟩
  ⟨(FunctionTable.collected [main]).1⟩

theorem unread_input_does_not_matter_of_echoing :
    let r := Program.echoing.run none ["a", "b"] 20
    let wanting := Program.echoing.run none [] 20
    (Program.echoing.EndsIn none ["a", "b"] r ∧ r.console.output = ["? ", "a"] ∧
      Program.echoing.EndsIn none ["a", "c", "d"] ⟨r.ending, ⟨["c", "d"], r.console.latest⟩⟩) ∧
    Program.echoing.EndsIn none [] wanting ∧ wanting.ending.IsEndOfInput ∧
      wanting.console.output = ["? "] ∧ wanting.console.output <+: r.console.output := by
  intro r wanting
  have finished : (Program.echoing.run none ["a", "b"] 20).ending = .finished := by
    with_unfolding_all rfl
  have failed : (Program.echoing.run none [] 20).ending = .failed ⟨.endOfInput, 1⟩ := by
    with_unfolding_all rfl
  have written : (Program.echoing.run none ["a", "b"] 20).console.output = ["? ", "a"] := by
    with_unfolding_all rfl
  have prompted : (Program.echoing.run none [] 20).console.output = ["? "] := by
    with_unfolding_all rfl
  have unread : (Program.echoing.run none ["a", "b"] 20).console.inputs = ["b"] := by
    with_unfolding_all rfl
  have ends : Program.echoing.EndsIn none ["a", "b"] r := by
    refine ⟨?_, 20, rfl⟩
    rw [finished]
    intro starved
    cases starved
  have ends' : Program.echoing.EndsIn none [] wanting := by
    refine ⟨?_, 20, rfl⟩
    rw [failed]
    intro starved
    cases starved
  have fed : ¬ r.ending.IsEndOfInput := by
    rintro ⟨line, same⟩
    rw [finished] at same
    cases same
  have runs := (unread_input_does_not_matter Program.echoing none).2
  obtain ⟨read, split, others⟩ := (runs _ r ends).1 fed
  have first : read = ["a"] := by
    rw [unread] at split
    exact (List.append_cancel_right split.symm : read = ["a"])
  have reread := others ["c", "d"]
  rw [first] at reread
  obtain ⟨-, more⟩ := (runs _ wanting ends').2 ⟨1, failed⟩
  exact ⟨⟨ends, written, reread⟩, ends', ⟨1, failed⟩, prompted, more ["a", "b"] r ends⟩

end Protoscript
