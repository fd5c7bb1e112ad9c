import Protoscript.Proofs.DepthLimit
import Protoscript.Proofs.Expectation.Evaluation
import Protoscript.Proofs.Provenance

/-! # Programs without loops end

A limit on calls bounds every program without loops.  A called body is found at run time, through
variables, captured frames and prototypes; but wherever it is found, it stands in the program, and
so it costs no more than the whole program does.  With `depth` calls under way there may be
`limit - depth` more, so what is left to do costs at most what is left of the tree at hand and the
whole program once for each of these: `withinLimit`.  The walk along prototypes takes no fuel: in as
many steps as there are objects it has seen all that it can reach. -/

set_option autoImplicit false

namespace Protoscript

/-! ## Sizes of trees -/

theorem Tree.PartOf.sizeOf_lt {t u : Tree} (part : t.PartOf u) : sizeOf t < sizeOf u := by
  cases part with
  | argument among | methodArgument among | yes among | no among | looped among =>
    have inside := List.sizeOf_lt_of_mem among
    simp
    omega
  | @body s d among =>
    have inside := List.sizeOf_lt_of_mem among
    obtain ⟨name, params, body, position⟩ := d
    simp at inside ⊢
    omega
  | _ =>
    simp
    try omega

/-- No tree of a program is larger than the program. -/
theorem Tree.Occurs.sizeOf_le {ds : List Definition} {t : Tree} (occurs : t.Occurs ds) :
    sizeOf t ≤ 1 + sizeOf ds := by
  refine occurs.of_parts (P := fun t => sizeOf t ≤ 1 + sizeOf ds) ?_ ?_
  · intro d among
    have inside := List.sizeOf_lt_of_mem among
    simp
    omega
  · intro t u part small
    have smaller := part.sizeOf_lt
    omega

/-- The program has no loop, in a function or in a lambda. -/
def Loopless (ds : List Definition) : Prop :=
  ∀ test body place, ¬ (Tree.stmt (.loop test body place)).Occurs ds

/-! ## Fuel within the limit -/

namespace Expectation

/-- Only the code of the program is evaluated, and it never runs out of fuel. -/
def withinLimit (ds : List Definition) (limit : Nat) : Expectation where
  code := Tree.Occurs ds
  stop s _ := s ≠ .outOfFuel
  enough fuel needed depth := needed + (limit - depth) * (cost ds + 1) < fuel

open Likeness

variable {ds : List Definition} {functions : FunctionTable}

theorem lawful_withinLimit (made : FunctionTable.ofDefinitions ds = .ok functions)
    (loopless : Loopless ds) (limit : Nat) :
    (withinLimit ds limit).Lawful (within ds functions) ⟨functions, some limit⟩ where
  alike := lawful_within made (some limit)
  covers := covers_within
  lambda known := known.2.part (.lambda _)
  function known := .definition (Function.mem_of_mem_ofDefinitions known.2.1)
  raised := by
    rintro _ ⟨cause, line, -, rfl⟩ _
    exact nofun
  answered _ := nofun
  starved starved := absurd starved (Nat.not_lt_zero _)
  spend enough _ less := by
    dsimp only [withinLimit] at enough ⊢
    omega
  call := by
    intro fuel needed depth enough free d known
    have below : depth < limit := by
      rw [Setting.reached?, Option.filter_eq_none_iff] at free
      have beyond := free limit rfl
      rw [decide_eq_true_eq] at beyond
      omega
    have small : cost d ≤ cost ds := by
      have size := known.sizeOf_le
      rw [Tree.definition.sizeOf_spec] at size
      unfold cost
      omega
    -- One call more is under way, so the limit leaves one call less.
    have calls : limit - depth = limit - (depth + 1) + 1 := by omega
    dsimp only [withinLimit] at enough ⊢
    rw [calls, Nat.succ_mul] at enough
    omega
  loops known := absurd known (loopless _ _ _)

end Expectation

open Expectation Likeness

variable {ds : List Definition} {p : Program}

/-- Without loops and with a limit on calls, a run never needs more fuel than this. -/
theorem ending_ne_outOfFuel (made : Program.ofDefinitions ds = .ok p) (loopless : Loopless ds)
    {limit fuel : Nat} (enough : 5 + limit * (cost ds + 1) < fuel) (inputs : List String) :
    (p.run (some limit) inputs fuel).ending ≠ .outOfFuel := by
  have lawful : (withinLimit ds limit).Lawful (within ds p.functions) (p.setting (some limit)) :=
    lawful_withinLimit (Program.ofDefinitions_functions made) loopless limit
  have start : (within ds p.functions).SameMachine (.start inputs) (.start inputs) :=
    sameMachine_start rfl (.self _)
  intro starved
  exact lawful.stop_of_run (s := .outOfFuel) enough start starved rfl

/-- A limit on calls bounds every program without loops: there is an amount of fuel with which the
program ends on all inputs, with a result or a runtime error, and more fuel changes nothing.  The
walks along prototypes that it takes need no more steps than there are objects, be there cycles or
not. -/
theorem loopless_run_ends (made : Program.ofDefinitions ds = .ok p) (loopless : Loopless ds)
    (limit : Nat) :
    (∃ enough, ∀ inputs, ∃ r, p.EndsIn (some limit) inputs r ∧
      ∀ fuel, enough ≤ fuel → p.run (some limit) inputs fuel = r) ∧
    ∀ (s : Store) name steps o, s.objects.size ≤ steps →
      s.findField name steps o = s.findField name s.objects.size o := by
  constructor
  · refine ⟨6 + limit * (cost ds + 1), ?_⟩
    intro inputs
    have enough : 5 + limit * (cost ds + 1) < 6 + limit * (cost ds + 1) := by omega
    have ended := ending_ne_outOfFuel made loopless enough inputs
    refine ⟨_, ⟨ended, _, rfl⟩, ?_⟩
    intro fuel more
    exact run_of_more_fuel p more ended
  · intro s name steps o enough
    exact Store.findField_of_size_le enough

/-- `main` calls itself without end. -/
def Definition.endless : List Definition :=
  [⟨"main", [], [.call (.call "main" [] ⟨1, 14⟩)], ⟨1, 1⟩⟩]

theorem loopless_endless : Loopless Definition.endless := by
  let Listed (t : Tree) : Prop := (∃ d ∈ Definition.endless, t = .definition d) ∨
    t = .stmt (.call (.call "main" [] ⟨1, 14⟩)) ∨ t = .expr (.call "main" [] ⟨1, 14⟩)
  have part : ∀ t u : Tree, t.PartOf u → Listed u → Listed t := by
    rintro t u part (⟨d, among, rfl⟩ | rfl | rfl)
    · rw [Definition.endless, List.mem_singleton] at among
      subst among
      cases part with
      | body within => exact .inr (.inl (congrArg Tree.stmt (List.mem_singleton.mp within)))
    · cases part
      exact .inr (.inr rfl)
    · cases part with
      | argument among => cases among
  intro test body place occurs
  have listed : Listed (.stmt (.loop test body place)) :=
    occurs.of_parts (fun d among => .inl ⟨d, among, rfl⟩) part
  rcases listed with ⟨d, -, same⟩ | same | same
  all_goals cases same

theorem loopless_run_ends_of_endless :
    let p : Program := ⟨(FunctionTable.collected Definition.endless).1⟩
    (Program.ofDefinitions Definition.endless = .ok p ∧ Loopless Definition.endless) ∧
      p.EndsIn (some 2) [] (p.run (some 2) [] 40) ∧
      (p.run (some 2) [] 40).ending = .failed ⟨.tooDeep 2 "main", 1⟩ ∧
      ∃ enough, ∀ inputs, ∃ r, p.EndsIn (some 2) inputs r ∧
        ∀ fuel, enough ≤ fuel → p.run (some 2) inputs fuel = r := by
  intro p
  have made : Program.ofDefinitions Definition.endless = .ok p := rfl
  have deep : (Program.run ⟨(FunctionTable.collected Definition.endless).1⟩
      (some 2) [] 40).ending = .failed ⟨.tooDeep 2 "main", 1⟩ := by with_unfolding_all rfl
  have ends : p.EndsIn (some 2) [] (p.run (some 2) [] 40) := ⟨by rw [deep]; exact nofun, 40, rfl⟩
  exact ⟨⟨made, loopless_endless⟩, ends, deep, (loopless_run_ends made loopless_endless 2).1⟩

end Protoscript
