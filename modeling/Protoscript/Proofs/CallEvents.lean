import Protoscript.Proofs.CallDepth
import Protoscript.Proofs.CallWalk
import Protoscript.Proofs.Provenance

/-! # Events of calls

The moments of a run are a walk through its calls (`Walk`), and the depth of the machine is at each
of them the number of calls entered whose bodies have not ended.  A call is logged where it is
entered, one deeper than that (`EntersAmong`).  So the calls in the log climb one by one, from
`main` on (`Console.NestsCalls`).

A call that the limit does not allow is refused when its arguments have been evaluated, and nothing
is done for it (`Eval.Admission`). -/

set_option autoImplicit false

namespace Protoscript

/-! ## Climbing depths -/

/-- All calls are logged at a greater depth than `n`, the first at the next one and each later one
at most one deeper than the call before it. -/
def Climbs (n : Nat) (depths : List Nat) : Prop :=
  (∀ d ∈ depths, n < d) ∧ (n :: depths).IsChain fun a b => b ≤ a + 1

namespace Climbs

variable {n : Nat} {depths later : List Nat}

theorem nil (n : Nat) : Climbs n [] := ⟨fun _ among => absurd among List.not_mem_nil, .singleton n⟩

theorem append (first : Climbs n depths) (second : Climbs n later) :
    Climbs n (depths ++ later) := by
  refine ⟨List.forall_mem_append.mpr ⟨first.1, second.1⟩, ?_⟩
  rw [← List.cons_append, List.isChain_append]
  obtain ⟨next, rest⟩ := List.isChain_cons.mp second.2
  refine ⟨first.2, rest, ?_⟩
  intro a last b head
  have deep : n ≤ a := by
    rcases List.mem_cons.mp (List.mem_of_mem_getLast? last) with rfl | among
    · exact le_refl a
    · exact (first.1 a among).le
  exact (next b head).trans (Nat.succ_le_succ deep)

/-- A call one deeper, and all that is logged while it is under way. -/
theorem called (inner : Climbs (n + 1) depths) : Climbs n ((n + 1) :: depths) := by
  refine ⟨List.forall_mem_cons.mpr ⟨Nat.lt_succ_self n, ?_⟩, .cons_cons (le_refl _) inner.2⟩
  exact fun d among => Nat.lt_of_succ_lt (inner.1 d among)

end Climbs

/-- The depths logged since climb from `n`. -/
def Console.ClimbsTo (n : Nat) (c d : Console) : Prop :=
  ∃ new, d.log = c.log ++ new ∧ Climbs n (new.filterMap Event.depth?)

namespace Console.ClimbsTo

variable {n : Nat} {b c d : Console}

theorem of_uses (uses : c.Uses d) : c.ClimbsTo n d := by
  obtain ⟨new, log, none⟩ := uses.log
  refine ⟨new, log, ?_⟩
  rw [List.filterMap_eq_nil_iff.mpr none]
  exact .nil n

theorem trans (first : b.ClimbsTo n c) (second : c.ClimbsTo n d) : b.ClimbsTo n d := by
  obtain ⟨new, log, climbs⟩ := first
  obtain ⟨new', log', climbs'⟩ := second
  refine ⟨new ++ new', ?_, ?_⟩
  · rw [log', log, List.append_assoc]
  · rw [List.filterMap_append]
    exact climbs.append climbs'

/-- A call, and all that is logged while it is under way. -/
theorem of_call (call : Invocation) (inner : (c.record (call.event (n + 1))).ClimbsTo (n + 1) d) :
    c.ClimbsTo n d := by
  obtain ⟨new, log, climbs⟩ := inner
  refine ⟨call.event (n + 1) :: new, ?_, climbs.called⟩
  rw [log, Console.log_record, List.append_assoc]
  rfl

end Console.ClimbsTo

/-- What a walk logs climbs from the number of calls under way. -/
theorem Walk.climbs {setting : Setting} {n : Nat} {m last : Machine} {later : List (Machine × Nat)}
    {halted : Option Stop} (walk : Walk setting n m later last halted) :
    m.console.ClimbsTo n last.console := by
  induction walk with
  | done n m => exact .of_uses .refl
  | within uses _ ih => exact (Console.ClimbsTo.of_uses uses).trans ih
  | returned call _ entered _ _ _ left _ inner ih
  | halted call _ entered _ _ _ _ left _ _ inner ih =>
    rw [entered] at inner
    rw [left] at ih
    exact (Console.ClimbsTo.of_call call inner).trans ih

/-! ## Calls that are let in -/

open Eval (Follows)

/-- A list begins as its part without the last entry does. -/
theorem mem_head?_concat {α : Type} {h : List α} {a b c : α} (first : c ∈ (h ++ [a]).head?) :
    c ∈ (h ++ [a] ++ [b]).head? := by
  rw [List.head?_append_of_ne_nil _ (List.concat_ne_nil a h)]
  exact first

/-- The last turn of a course. -/
theorem turns_of_chain {h : List Moment} {μ ν : Moment}
    (chain : (h ++ [μ] ++ [ν]).IsChain (Follows Machine.Turns)) :
    (h ++ [μ]).IsChain (Follows Machine.Turns) ∧ μ.machine.Turns ν.machine := by
  obtain ⟨before, -, turns⟩ := List.isChain_append.mp chain
  exact ⟨before, turns μ List.getLast?_concat ν rfl⟩

/-- An entry of a list of two parts is in the one or in the other. -/
theorem split_of_append {α : Type} {old new before after : List α} {a : α}
    (same : old ++ new = before ++ a :: after) :
    (∃ rest, old = before ++ a :: rest) ∨ ∃ between, before = old ++ between ∧
      new = between ++ a :: after := by
  rcases List.append_eq_append_iff.mp same with ⟨between, longer, rest⟩ | ⟨rest, longer, later⟩
  · exact .inr ⟨between, longer, rest⟩
  · cases rest with
    | nil =>
      rw [List.append_nil] at longer
      exact .inr ⟨[], by rw [longer, List.append_nil], later.symm⟩
    | cons b rest =>
      obtain ⟨rfl, -⟩ := List.cons.inj later
      exact .inl ⟨rest, longer⟩

/-- A call that is in the log after a turn was there before, or it is entered by the turn. -/
theorem Machine.Turns.logged {m n : Machine} (turns : m.Turns n) {before after : List Event}
    {e : Event} (call : e.depth?.isSome) (log : n.console.log = before ++ e :: after) :
    (∃ rest, m.console.log = before ++ e :: rest) ∨ ∃ d closure, n = m.enter d closure ∧
      m.console.log = before ∧ e = .called d.name d.arity (m.depth + 1) closure := by
  cases turns with
  | entered d closure =>
    rw [Machine.log_enter] at log
    rcases split_of_append log with old | ⟨between, same, last⟩
    · exact .inl old
    · right
      cases between with
      | cons e' between => cases between <;> cases last
      | nil =>
        cases last
        rw [List.append_nil] at same
        exact ⟨d, closure, rfl, same.symm, rfl⟩
  | left _ => exact .inl ⟨after, log⟩
  | within _ uses =>
    obtain ⟨new, logged, quiet⟩ := uses.log
    rcases split_of_append (logged.symm.trans log) with old | ⟨between, -, last⟩
    · exact .inl old
    · have among : e ∈ new := by
        rw [last]
        exact List.mem_append_right _ List.mem_cons_self
      rw [quiet e among] at call
      cases call

/-- Among the moments, each with the number of calls under way there, the call that the event logs
is entered where the log is `before`, and its depth is one more than that number. -/
def EntersAmong (moments : List (Machine × Nat)) (before : List Event) (e : Event) : Prop :=
  ∃ h m n rest d closure, moments = h ++ (m, n) :: (m.enter d closure, n + 1) :: rest ∧
    m.console.log = before ∧ e = .called d.name d.arity (n + 1) closure

theorem EntersAmong.concat {moments : List (Machine × Nat)} {before : List Event} {e : Event}
    (enters : EntersAmong moments before e) (entry : Machine × Nat) :
    EntersAmong (moments ++ [entry]) before e := by
  obtain ⟨h, m, n, rest, d, closure, split, entered⟩ := enters
  refine ⟨h, m, n, rest ++ [entry], d, closure, ?_, entered⟩
  rw [split, List.append_assoc]
  rfl

/-- A course that starts with an empty log enters each call that it has logged. -/
theorem entersAmong_of_chain {h : List Moment} {μ : Moment}
    (start : ∀ first ∈ (h ++ [μ]).head?, first.machine.console.log = [])
    (chain : (h ++ [μ]).IsChain (Follows Machine.Turns)) {before after : List Event} {e : Event}
    (call : e.depth?.isSome) (log : μ.machine.console.log = before ++ e :: after) :
    EntersAmong ((h ++ [μ]).map Moment.counted) before e := by
  induction h using List.reverseRecOn generalizing μ after with
  | nil =>
    rw [start μ rfl] at log
    exact absurd log.symm (List.append_ne_nil_of_right_ne_nil _ (List.cons_ne_nil _ _))
  | append_singleton h μ' ih =>
    obtain ⟨earlier, turn⟩ := turns_of_chain chain
    have start' := fun first among => start first (mem_head?_concat among)
    rw [List.map_append]
    rcases turn.logged call log with ⟨rest, old⟩ | ⟨d, closure, entered, same, logged⟩
    · exact (ih start' earlier old).concat μ.counted
    · have inside : μ.counted = (μ'.machine.enter d closure, μ'.machine.depth + 1) := by
        rw [Moment.counted, entered]
        rfl
      refine ⟨h.map Moment.counted, μ'.machine, μ'.machine.depth, [], d, closure, ?_, same, logged⟩
      rw [List.map_append, List.map_singleton, List.map_singleton, inside, List.append_assoc]
      rfl

/-! ## Calls that are refused -/

namespace Eval

variable {setting : Setting} {α β : Type} {d : Definition} {closure : Bool} {line : Nat}
  {m : Machine}

/-- What becomes of a call of `d` that is due on `m`.  It is refused if it would be one more than
the limit allows, and then nothing is done; else it is counted in before anything is done. -/
inductive Admission (setting : Setting) (d : Definition) (closure : Bool) (line : Nat)
    (x : Eval α) (m : Machine) : Prop
  | refused {k : Nat} (limit : setting.maxDepth = some k) (beyond : m.depth + 1 = k + 1)
    (refuses : x.run m = .error (.error ⟨.tooDeep k d.name, line⟩) m) (still : x.trace m = [])
  | entered (allowed : setting.Allows (m.depth + 1))
    (enters : ∃ later, x.trace m = .of (m.enter d closure) :: later)

theorem trace_entered (setting : Setting) (d : Definition) (closure : Bool) (line : Nat)
    (x : Eval α) (m : Machine) : (entered setting d closure line x).trace m =
      match setting.reached? m.depth with
      | some _ => []
      | none => (counted d closure x).trace m := by
  have read : Eval.get.run m = .ok m m := rfl
  have chosen : (entered setting d closure line x).trace m =
      (match setting.reached? m.depth with
      | some limit => fail (.tooDeep limit d.name) line
      | none => counted d closure x).trace m := by
    refine (trace_bind_of_ok read _).trans ?_
    exact congrArg (· ++ _) (trace_get m)
  rw [chosen]
  cases setting.reached? m.depth with
  | some limit => exact trace_stop _ m
  | none => rfl

theorem admission_entered {x : Eval α} (allowed : setting.Allows m.depth) :
    Admission setting d closure line (entered setting d closure line x) m := by
  cases reached : setting.reached? m.depth with
  | some k =>
    obtain ⟨limit, beyond⟩ := Setting.reached?_eq_some reached
    refine .refused limit (congrArg (· + 1) (le_antisymm (allowed k limit) beyond)) ?_ ?_
    · rw [run_entered, reached]
    · rw [trace_entered, reached]
  | none =>
    refine .entered (Setting.reached?_eq_none_iff.mp reached) ?_
    rw [trace_entered, reached]
    exact ⟨_, trace_bracket _ _ _ x m⟩

theorem Admission.bind {x : Eval α} (admission : Admission setting d closure line x m)
    (f : α → Eval β) : Admission setting d closure line (x >>= f) m := by
  cases admission with
  | refused limit beyond refuses still =>
    refine .refused limit beyond (run_bind_of_error refuses f) ?_
    rw [trace_bind_of_error refuses, still]
  | entered allowed enters =>
    obtain ⟨later, enters⟩ := enters
    refine .entered allowed ?_
    cases ended : x.run m with
    | ok a after => exact ⟨_, by rw [trace_bind_of_ok ended, enters, List.cons_append]⟩
    | error s after => exact ⟨later, by rw [trace_bind_of_error ended, enters]⟩

theorem admission_invoke {closure : Option Closure} (allowed : setting.Allows m.depth) (fuel : Nat)
    (passed : List Passed) (this : Option ObjectId) :
    Admission setting d closure.isSome line
      (invoke setting (fuel + 2) d closure passed this line) m := by
  rw [invoke, invocation]
  exact (admission_entered allowed).bind _

/-- The step `x` is a call of `d`, whose arguments `args` evaluates.  If that stops, so does the
call; and then only the call is admitted. -/
structure CallsAfter (setting : Setting) (d : Definition) (closure : Bool) (line : Nat)
    (args : Eval α) (x : Eval β) (m : Machine) : Prop where
  stopped : ∀ s after, args.run m = .error s after →
    x.run m = .error s after ∧ x.trace m = args.trace m
  passed : ∀ a m₁, args.run m = .ok a m₁ → ∃ call : Eval β,
    Admission setting d closure line call m₁ ∧ x.run m = call.run m₁ ∧
      x.trace m = args.trace m ++ call.trace m₁

theorem callsAfter_callValue {callee : Value} {closure : Option Closure} {args : List Expr}
    (code : callee.code? = some (d, closure)) (arity : d.arity = args.length)
    (allowed : setting.Allows m.depth) (fuel : Nat) (this : Option ObjectId) :
    CallsAfter setting d closure.isSome line (pass setting (fuel + 2) d.name d.params args)
      (callValue setting (fuel + 3) callee args this line) m := by
  have parts : callValue setting (fuel + 3) callee args this line =
      pass setting (fuel + 2) d.name d.params args >>= fun passed =>
        invoke setting (fuel + 2) d closure passed this line := by
    rw [callValue, code]
    exact if_pos arity
  rw [parts]
  refine ⟨fun s after ended => ⟨run_bind_of_error ended _, trace_bind_of_error ended _⟩, ?_⟩
  intro passed m₁ ended
  have depth := ((allWalk setting (fuel + 2)).pass m d.name d.params args).depth_eq
  rw [ended] at depth
  have allowed₁ : setting.Allows m₁.depth := (congrArg setting.Allows depth).mpr allowed
  exact ⟨_, admission_invoke allowed₁ fuel passed this, run_bind_of_ok ended _,
    trace_bind_of_ok ended _⟩

/-! ## The log of a run -/

theorem console_bind {x : Eval α} {f : α → Eval β}
    (quiet : ∀ a after, ((f a).run after).machine.console = after.console) :
    ((x >>= f).run m).machine.console = (x.run m).machine.console := by
  rw [run_bind]
  cases x.run m with
  | ok a after => exact quiet a after
  | error s after => rfl

theorem console_counted (x : Eval α) :
    ((counted d closure x).run m).machine.console =
      (x.run (m.enter d closure)).machine.console := by
  dsimp only [counted, bracket]
  cases x.run (m.enter d closure) <;> rfl

theorem console_writeBack (back : List (String × Value)) (m : Machine) :
    ((writeBack back).run m).machine.console = m.console := by
  induction back generalizing m with
  | nil => rfl
  | cons w back ih => exact ih (m.set w.1 w.2)

/-- The log that a call of a function without parameters leaves: nothing is logged, or the call and
then what is done while it is under way. -/
theorem log_invoke (fuel : Nat) :
    let after := ((invoke setting fuel d none [] none line).run m).machine
    after.console.log = m.console.log ∨ ∃ later, after.console.log =
        m.console.log ++ .called d.name d.arity (m.depth + 1) false :: later ∧
      Climbs (m.depth + 1) (later.filterMap Event.depth?) := by
  match fuel with
  | 0 => exact .inl (by rw [invoke]; rfl)
  | 1 => exact .inl (by rw [invoke, invocation]; rfl)
  | fuel + 2 =>
    dsimp only
    rw [invoke, console_bind, invocation, run_entered]
    · cases setting.reached? m.depth with
      | some limit => exact .inl rfl
      | none =>
        right
        have body := (allWalk setting fuel).body (m.enter d false) d [] none
        obtain ⟨halted, walk, -⟩ := body
        obtain ⟨later, log, climbs⟩ := walk.climbs
        rw [m.log_enter, List.append_assoc] at log
        refine ⟨later, ?_, climbs⟩
        rw [← List.singleton_append, ← log]
        exact congrArg Console.log (console_counted _)
    · intro ended after
      rw [console_bind fun _ _ => rfl]
      exact console_writeBack ended.2 after

end Eval

namespace Console

/-- The calls of the log. -/
def calls (c : Console) : List Event := c.log.filter (·.depth?.isSome)

def depths (c : Console) : List Nat := c.log.filterMap Event.depth?

/-- The first call is `main`, without parameters and at depth 1.  Each later one is at a greater
depth, at most one deeper than the call before it, and none is deeper than the limit. -/
structure NestsCalls (c : Console) (maxDepth : Option Nat) : Prop where
  first : ∀ e ∈ c.calls.head?, e = .called "main" 0 1 false
  later : ∀ d ∈ c.depths.tail, 2 ≤ d
  climbs : c.depths.IsChain fun a b => b ≤ a + 1
  bounded : ∀ k, maxDepth = some k → ∀ d ∈ c.depths, d ≤ k

end Console

section Results

variable {ds : List Definition} {p : Program} (maxDepth : Option Nat) (inputs : List String)
  (fuel : Nat)

/-- A run logs no call, or that of `main` and then what is done while it is under way. -/
theorem log_run (made : Program.ofDefinitions ds = .ok p) :
    let log := (p.run maxDepth inputs fuel).console.log
    log.filterMap Event.depth? = [] ∨ ∃ later, log = .started p.functions.size ::
      .called "main" 0 1 false :: later ∧ Climbs 1 (later.filterMap Event.depth?) := by
  dsimp only
  rw [p.run_eq]
  dsimp only
  unfold Eval.main
  split
  · exact .inl rfl
  · next f found =>
    obtain ⟨-, name, arity⟩ :=
      FunctionTable.mem_of_get? (Program.ofDefinitions_functions made) found
    let called := ((Machine.start inputs).record (.started p.functions.size)).fresh
    let call := Eval.invoke (p.setting maxDepth) fuel f.toDefinition none [] none f.position.line
    have console : ((call >>= fun _ => pure ()).run called).machine.console =
        (call.run called).machine.console := Eval.console_bind fun _ _ => rfl
    have logged : (call.run called).machine.console.log = [.started p.functions.size] ∨
        ∃ later, (call.run called).machine.console.log =
          [.started p.functions.size] ++ .called f.name f.arity 1 false :: later ∧
            Climbs 1 (later.filterMap Event.depth?) := Eval.log_invoke fuel
    rw [name, arity, ← console] at logged
    rcases logged with log | logged
    · left
      exact congrArg (List.filterMap Event.depth?) log
    · exact .inr logged

theorem entersAmong_run {before after : List Event} {e : Event} (call : e.depth?.isSome)
    (log : (p.run maxDepth inputs fuel).console.log = before ++ e :: after) :
    EntersAmong
      (((Eval.main (p.setting maxDepth) fuel).history (.start inputs)).map Moment.counted)
      before e := by
  obtain ⟨h, split⟩ := (Eval.main (p.setting maxDepth) fuel).exists_history_eq (.start inputs)
  have chain := (course_run p maxDepth inputs fuel).chain
  have start : ∀ first ∈ ((Eval.main (p.setting maxDepth) fuel).history (.start inputs)).head?,
      first.machine.console.log = [] := by
    rintro first ⟨⟩
    rfl
  rw [p.run_eq] at log
  rw [split] at chain start ⊢
  exact entersAmong_of_chain start chain call log

/-- At no moment are more calls under way than the limit allows. -/
theorem allowed_of_mem_history {μ : Moment}
    (passed : μ ∈ (Eval.main (p.setting maxDepth) fuel).history (.start inputs)) :
    (p.setting maxDepth).Allows μ.machine.depth := by
  rcases List.mem_cons.mp passed with rfl | passed
  · exact fun k _ => Nat.zero_le k
  · exact (course_run p maxDepth inputs fuel).moments μ passed

theorem depth_le_of_mem_depths {k d : Nat} (limit : maxDepth = some k)
    (among : d ∈ (p.run maxDepth inputs fuel).console.depths) : d ≤ k := by
  obtain ⟨e, logged, depth⟩ := List.mem_filterMap.mp among
  obtain ⟨before, after, log⟩ := List.append_of_mem logged
  have call : e.depth?.isSome := by
    rw [depth]
    rfl
  obtain ⟨h, m, n, rest, f, closure, split, -, rfl⟩ :=
    entersAmong_run maxDepth inputs fuel call log
  have entry : (m.enter f closure, n + 1) ∈
      ((Eval.main (p.setting maxDepth) fuel).history (.start inputs)).map Moment.counted := by
    rw [split]
    exact List.mem_append_right h (List.mem_cons_of_mem _ List.mem_cons_self)
  obtain ⟨μ, passed, counted⟩ := List.mem_map.mp entry
  obtain ⟨-, count⟩ := Prod.mk.inj counted
  cases depth
  rw [← count]
  exact allowed_of_mem_history maxDepth inputs fuel passed k limit

theorem nestsCalls_run (made : Program.ofDefinitions ds = .ok p) :
    (p.run maxDepth inputs fuel).console.NestsCalls maxDepth := by
  have bounded := fun k limit d => depth_le_of_mem_depths (p := p) maxDepth inputs fuel (k := k)
    (d := d) limit
  have logged := log_run maxDepth inputs fuel made
  generalize (p.run maxDepth inputs fuel).console = console at bounded logged
  rcases logged with none | ⟨later, log, climbs⟩
  · have depths : console.depths = [] := none
    have calls : console.calls = [] := by
      refine List.filter_eq_nil_iff.mpr fun e among => ?_
      rw [List.filterMap_eq_nil_iff.mp none e among]
      exact Bool.false_ne_true
    refine ⟨?_, ?_, ?_, bounded⟩
    · rw [calls]
      exact fun e first => absurd first (Option.not_mem_none e)
    · rw [depths]
      exact fun d among => absurd among List.not_mem_nil
    · rw [depths]
      exact .nil
  · have depths : console.depths = 1 :: later.filterMap Event.depth? := by
      rw [Console.depths, log]
      rfl
    refine ⟨?_, ?_, ?_, bounded⟩
    · rw [Console.calls, log]
      rintro e ⟨⟩
      rfl
    · rw [depths]
      exact climbs.1
    · rw [depths]
      exact climbs.2

end Results

/-- `main` calls a closure that calls a function, and then the function itself. -/
def Definition.nesting : List Definition :=
  let call (name : String) : Stmt := .call (.call name [] .start)
  let closure : Expr := .lambda ⟨"lambda", [], [call "g"], .start⟩
  [⟨"main", [], [.assign ["f"] closure .start, call "f", call "g"], .start⟩,
    ⟨"g", [], [], .start⟩]

end Protoscript
