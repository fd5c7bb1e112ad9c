import Protoscript.Proofs.Likeness.Runs

/-! # Limits only cut runs short

Fuel and the limit on calls decide how far a run gets, and nothing else.  A run that ends is the
same with more fuel (`run_of_more_fuel`), so a program ends in at most one run, whatever the fuel.
With a higher limit on calls it ends in the same run, unless it ended at the limit; in that case all
that it did is the beginning of what it does with the higher limit (`depth_limit_cuts_short`). -/

set_option autoImplicit false

namespace Protoscript

/-- With the one limit, calls go no deeper than with the other. -/
def LimitsMore (low high : Option Nat) : Prop := ∀ k ∈ high, ∃ j ∈ low, j ≤ k

def RuntimeError.IsTooDeep (e : RuntimeError) : Prop := ∃ limit name, e.cause = .tooDeep limit name

/-- The run ended with the fault that reports too many calls under way. -/
def Ending.IsTooDeep (ending : Ending) : Prop := ∃ e, ending = .failed e ∧ e.IsTooDeep

/-- The run was stopped by one of its limits, and not by what the program did. -/
def Ending.IsByLimit (ending : Ending) : Prop := ending = .outOfFuel ∨ ending.IsTooDeep

/-- With enough fuel, the program ends in this run. -/
def Program.EndsIn (p : Program) (maxDepth : Option Nat) (inputs : List String) (r : Run) : Prop :=
  r.ending ≠ .outOfFuel ∧ ∃ fuel, p.run maxDepth inputs fuel = r

namespace Likeness

variable {cut : Stop → Prop}

/-- Two runs are equal, or the left one was cut short. -/
theorem eq_or_cut_of_sameRun {r r' : Run} (same : (equal cut).SameRun r r') :
    r = r' ∨ ∃ s, cut s ∧ r.ending = s.ending ∧ r.console.Before r'.console := by
  obtain ⟨ending, console⟩ := r
  obtain ⟨ending', console'⟩ := r'
  cases same with
  | same endings consoles =>
    obtain rfl : console = console' := consoles
    obtain rfl : ending = ending' := endings.eq id
    exact .inl rfl
  | @cut s ending d short before =>
    obtain ⟨short, rfl⟩ := short
    exact .inr ⟨s, short, ending, before⟩

end Likeness

open Likeness

variable (p : Program) {low high maxDepth : Option Nat} {inputs : List String}

theorem run_of_more_fuel {fuel more : Nat} (le : fuel ≤ more)
    (ended : (p.run maxDepth inputs fuel).ending ≠ .outOfFuel) :
    p.run maxDepth inputs more = p.run maxDepth inputs fuel := by
  have lawful : (equal (· = .outOfFuel)).Lawful (p.setting maxDepth) (p.setting maxDepth) :=
    lawful_renamed fun _ => .inl rfl
  have fuelled : (equal (· = .outOfFuel)).Fuelled fuel more := .inr ⟨le, fun same => ⟨rfl, same⟩⟩
  have same : (equal _).SameRun (p.run maxDepth inputs fuel) (p.run maxDepth inputs more) :=
    sameRun lawful fuelled (fun _ => rfl) (sameMachine_equal _)
  rcases eq_or_cut_of_sameRun same with equal | ⟨s, rfl, starved, -⟩
  · exact equal.symm
  · exact absurd starved ended

theorem Program.EndsIn.unique {p : Program} {r r' : Run} (ends : p.EndsIn maxDepth inputs r)
    (ends' : p.EndsIn maxDepth inputs r') : r = r' := by
  obtain ⟨ended, fuel, rfl⟩ := ends
  obtain ⟨ended', fuel', rfl⟩ := ends'
  have left := run_of_more_fuel p (le_max_left fuel fuel') ended
  have right := run_of_more_fuel p (le_max_right fuel fuel') ended'
  exact left.symm.trans right

/-- The limit is reached by both at once, or by the lower one alone. -/
theorem reached?_of_limitsMore (limits : LimitsMore low high) (functions : FunctionTable)
    (depth : Nat) :
    (Setting.mk functions low).reached? depth = (Setting.mk functions high).reached? depth ∨
      ∃ limit, (Setting.mk functions low).reached? depth = some limit := by
  unfold Setting.reached?
  dsimp only
  cases reached : low.filter (· ≤ depth) with
  | some limit => exact .inr ⟨limit, rfl⟩
  | none =>
    left
    symm
    rw [Option.filter_eq_none_iff] at reached ⊢
    intro k allowed
    obtain ⟨j, lower, le⟩ := limits k allowed
    have beyond := reached j lower
    rw [decide_eq_true_eq] at beyond ⊢
    omega

/-- A run with a lower limit and no more fuel is the same, or was cut short. -/
theorem run_of_limitsMore (limits : LimitsMore low high) {fuel more : Nat} (le : fuel ≤ more) :
    p.run low inputs fuel = p.run high inputs more ∨
      (p.run low inputs fuel).ending.IsByLimit ∧
        (p.run low inputs fuel).console.Before (p.run high inputs more).console := by
  have reached : ∀ depth,
      (p.setting low).reached? depth = (p.setting high).reached? depth ∨
        ∃ limit, (p.setting low).reached? depth = some limit ∧ ∀ name line,
          (Stop.error ⟨.tooDeep limit name, line⟩).ending.IsByLimit := by
    intro depth
    refine (reached?_of_limitsMore limits p.functions depth).imp_right ?_
    rintro ⟨limit, reached⟩
    exact ⟨limit, reached, fun name line => .inr ⟨_, rfl, limit, name, rfl⟩⟩
  have lawful : (equal fun s => s.ending.IsByLimit).Lawful (p.setting low) (p.setting high) :=
    lawful_renamed reached
  have fuelled : (equal fun s => s.ending.IsByLimit).Fuelled fuel more :=
    .inr ⟨le, fun same => ⟨.inl rfl, same⟩⟩
  have same : (equal _).SameRun (p.run low inputs fuel) (p.run high inputs more) :=
    sameRun lawful fuelled (fun _ => rfl) (sameMachine_equal _)
  refine (eq_or_cut_of_sameRun same).imp_right ?_
  rintro ⟨s, short, ending, before⟩
  rw [← ending] at short
  exact ⟨short, before⟩

/-- A limit on calls only cuts a run short.  Unless the run ends at the limit, it is the same with a
higher one or with none; and if it does, its log and its output are the beginning of those of the
run with the higher limit. -/
theorem depth_limit_cuts_short (limits : LimitsMore low high) {r : Run}
    (ends : p.EndsIn low inputs r) :
    (¬ r.ending.IsTooDeep → p.EndsIn high inputs r) ∧
      (r.ending.IsTooDeep → ∀ r', p.EndsIn high inputs r' →
        r.console.log <+: r'.console.log ∧ r.console.output <+: r'.console.output) := by
  obtain ⟨ended, fuel, rfl⟩ := ends
  constructor
  · intro shallow
    refine ⟨ended, fuel, ?_⟩
    rcases run_of_limitsMore p limits (le_refl fuel) with equal | ⟨starved | deep, -⟩
    · exact equal.symm
    · exact absurd starved ended
    · exact absurd deep shallow
  · rintro - r' ⟨ended', fuel', rfl⟩
    -- Both runs are compared at the larger fuel, where the right one is what it was.
    have enough := run_of_more_fuel p (le_max_right fuel fuel') ended'
    have before : (p.run low inputs fuel).console.Before (p.run high inputs fuel').console := by
      rw [← enough]
      rcases run_of_limitsMore p limits (le_max_left fuel fuel') with equal | ⟨-, before⟩
      · rw [equal]
      · exact before
    exact ⟨before.log, before.output⟩

/-- `main` writes `a` and calls a function that writes `b`. -/
def Program.nestedCall : Program :=
  let write (text : String) : Stmt := .call (.call "print" [.str text .start] .start)
  let main : Definition := ⟨"main", [], [write "a", .call (.call "f" [] .start)], .start⟩
  let f : Definition := ⟨"f", [], [write "b"], .start⟩
  ⟨(FunctionTable.collected [main, f]).1⟩

theorem depth_limit_cuts_short_of_nested_call :
    let r := Program.nestedCall.run (some 1) [] 20
    let r' := Program.nestedCall.run none [] 20
    (LimitsMore (some 1) none ∧ Program.nestedCall.EndsIn (some 1) [] r) ∧
      r.console.output = ["a"] ∧ r'.console.output = ["a", "b"] ∧
      r.console.output <+: r'.console.output := by
  intro r r'
  have limits : LimitsMore (some 1) none := nofun
  have atLimit : (Program.nestedCall.run (some 1) [] 20).ending =
      .failed ⟨.tooDeep 1 "f", 1⟩ := by with_unfolding_all rfl
  have finished : (Program.nestedCall.run none [] 20).ending = .finished := by
    with_unfolding_all rfl
  have left : Program.nestedCall.EndsIn (some 1) [] r := ⟨by rw [atLimit]; exact nofun, 20, rfl⟩
  have right : Program.nestedCall.EndsIn none [] r' := ⟨by rw [finished]; exact nofun, 20, rfl⟩
  have deep : r.ending.IsTooDeep := ⟨_, atLimit, 1, "f", rfl⟩
  have shortened := (depth_limit_cuts_short _ limits left).2 deep r' right
  have written : (Program.nestedCall.run (some 1) [] 20).console.output = ["a"] := by
    with_unfolding_all rfl
  have written' : (Program.nestedCall.run none [] 20).console.output = ["a", "b"] := by
    with_unfolding_all rfl
  exact ⟨⟨limits, left⟩, written, written', shortened.2⟩

end Protoscript
