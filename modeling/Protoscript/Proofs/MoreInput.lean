import Protoscript.Proofs.Likeness.Runs
import Protoscript.Proofs.Steadiness

/-! # More lines of input

A built-in that finds a line to read does the same when more lines wait behind it.  One that finds
none ends in an error, where with more lines it would have read the first of these: `Furthered`.

So a run and the run with more lines behind its input do the same, until the first of these is
read; that is where the shorter run is cut short: `run_awaiting`. -/

set_option autoImplicit false

namespace Protoscript

/-- The fault that no line is left to read. -/
def Stop.IsEndOfInput (s : Stop) : Prop := ∃ line, s = .error ⟨.endOfInput, line⟩

def Ending.IsEndOfInput (ending : Ending) : Prop := ∃ line, ending = .failed ⟨.endOfInput, line⟩

theorem Stop.IsEndOfInput.ending {s : Stop} (ended : s.IsEndOfInput) : s.ending.IsEndOfInput := by
  obtain ⟨line, same⟩ := ended
  exact ⟨line, congrArg Stop.ending same⟩

/-- The console with more lines behind those that wait. -/
def Console.awaiting (c : Console) (more : List String) : Console :=
  { c with inputs := c.inputs ++ more }

/-- The one console was asked for a line when none was left; the other has the same log up to there,
but there was a line. -/
def Console.ReadsOn (c d : Console) : Prop :=
  ∃ log text, c.log = log ++ [.asked none] ∧ log ++ [.asked (some text)] <+: d.log

namespace Console.ReadsOn

variable {c d e : Console}

theorem before (reads : c.ReadsOn d) (later : d.Before e) : c.ReadsOn e := by
  obtain ⟨log, text, asked, began⟩ := reads
  exact ⟨log, text, asked, began.trans later.log⟩

/-- To read a line writes nothing. -/
theorem output (reads : c.ReadsOn d) : c.output <+: d.output := by
  obtain ⟨log, text, asked, began⟩ := reads
  have written := began.filterMap Event.printed?
  rw [List.filterMap_append, List.filterMap_cons_none rfl, List.filterMap_nil] at written
  rw [Console.output, asked, List.filterMap_append, List.filterMap_cons_none rfl,
    List.filterMap_nil]
  exact written

end Console.ReadsOn

namespace Builtin

/-- The console that an interaction leaves. -/
def left {α : Type} : EStateM.Result RuntimeError Console α → Console
  | .ok _ c | .error _ c => c

/-- What comes of an interaction, and what comes of it with more lines: the same, or an error for
want of a line that is there with more. -/
inductive Furthered (more : List String) {α : Type} :
    EStateM.Result RuntimeError Console α → EStateM.Result RuntimeError Console α → Prop
  | ok (a : α) (c : Console) : Furthered more (.ok a c) (.ok a (c.awaiting more))
  | error (e : RuntimeError) (c : Console) :
    Furthered more (.error e c) (.error e (c.awaiting more))
  | starved (line : Nat) {c : Console} {out : EStateM.Result RuntimeError Console α}
    (reads : c.ReadsOn (left out)) (read : (left out).inputs.length < more.length) :
    Furthered more (.error ⟨.endOfInput, line⟩ c) out

/-- An interaction that sees no more of its input than it reads. -/
structure Patient {α : Type} (x : Interaction α) : Prop where
  grows : ∀ c : Console, c.Before (left (x c))
  furthered : ∀ more c, Furthered more (x c) (x (c.awaiting more))
  empty : ∀ c line after, x c = .error ⟨.endOfInput, line⟩ after → after.inputs = []

namespace Patient

variable {α β : Type}

theorem pure (a : α) : Patient (Pure.pure a : Interaction α) where
  grows c := .refl c
  furthered _ c := .ok a c
  empty c line after ended := by cases ended

/-- An error that is not for want of a line. -/
theorem throw {cause : RuntimeError.Cause} {line : Nat} (raised : cause.IsRaised) :
    Patient (MonadExcept.throw ⟨cause, line⟩ : Interaction α) where
  grows c := .refl c
  furthered _ c := .error _ c
  empty c l after ended := by
    cases ended
    cases raised

theorem print (text : String) : Patient (modify (·.print text) : Interaction Unit) where
  grows c := .record c _
  furthered more c := .ok () (c.print text)
  empty c line after ended := by cases ended

theorem bind {x : Interaction α} {f : α → Interaction β} (first : Patient x)
    (second : ∀ a, Patient (f a)) : Patient (x >>= f) where
  grows c := by
    have before := first.grows c
    change c.Before (left (EStateM.bind x f c))
    unfold EStateM.bind
    cases ended : x c with
    | ok a d =>
      rw [ended] at before
      exact before.trans ((second a).grows d)
    | error e d =>
      rw [ended] at before
      exact before
  furthered more c := by
    have furthered := first.furthered more c
    change Furthered more (EStateM.bind x f c) (EStateM.bind x f (c.awaiting more))
    unfold EStateM.bind
    generalize x c = out, x (c.awaiting more) = out' at furthered ⊢
    cases furthered with
    | ok a d => exact (second a).furthered more d
    | error e d => exact .error e d
    | starved line reads read =>
      -- What follows only takes more lines and writes more.
      cases out' with
      | error e d => exact .starved line reads read
      | ok a d =>
        have before := (second a).grows d
        exact .starved line (reads.before before)
          (Nat.lt_of_le_of_lt before.inputs.length_le read)
  empty c line after ended := by
    change EStateM.bind x f c = .error ⟨.endOfInput, line⟩ after at ended
    unfold EStateM.bind at ended
    cases first_ended : x c with
    | ok a d =>
      rw [first_ended] at ended
      exact (second a).empty d line after ended
    | error e d =>
      rw [first_ended] at ended
      cases ended
      exact first.empty c line _ first_ended

/-- A line is read, or it is an error that there is none. -/
theorem read (line : Nat) : Patient (do
    match ← modifyGet Console.readLine with
    | some text => return text
    | none => MonadExcept.throw ⟨.endOfInput, line⟩ : Interaction String) where
  grows c := by
    obtain ⟨inputs, latest⟩ := c
    cases inputs with
    | nil => exact .readLine ⟨[], latest⟩
    | cons text rest => exact .readLine ⟨text :: rest, latest⟩
  furthered more c := by
    obtain ⟨inputs, latest⟩ := c
    cases inputs with
    | cons text rest => exact .ok text ⟨rest, _⟩
    | nil =>
      cases more with
      | nil => exact .error _ ⟨[], _⟩
      | cons text rest =>
        have reads : (Console.readLine ⟨[], latest⟩).2.ReadsOn
            (Console.readLine ⟨text :: rest, latest⟩).2 := by
          refine ⟨latest.reverse, text, Console.log_record _ _, ?_⟩
          rw [Console.readLine, Console.log_record]
          exact List.prefix_rfl
        exact .starved line reads (Nat.lt_succ_self rest.length)
  empty c l after ended := by
    obtain ⟨inputs, latest⟩ := c
    cases inputs with
    | cons text rest => cases ended
    | nil =>
      cases ended
      rfl

theorem ask (args : List Value) (line : Nat) : Patient (Builtin.ask args line) := by
  have prompted : Patient (prompt args) := by
    cases args with
    | nil => exact pure ()
    | cons v vs => exact print v.text
  exact bind prompted fun _ => read line

theorem run (b : Builtin) (args : List Value) (line : Nat) : Patient (b.run args line) := by
  have checked : Patient (b.checkCount args.length line) := by
    unfold checkCount
    cases b.most?.filter (· < args.length) with
    | some most => exact throw trivial
    | none => exact pure ()
  refine bind checked ?_
  intro _
  cases b with
  | print => exact bind (print _) fun _ => pure _
  | inputi =>
    refine bind (ask args line) ?_
    intro text
    cases Numeral.signed? (Text.trim text.toList) with
    | some n => exact pure _
    | none => exact throw trivial
  | inputs => exact bind (ask args line) fun _ => pure _

theorem call? (provided : List Builtin) (name : String) (args : List Value) (line : Nat) :
    Patient (Builtin.call? provided name args line) := by
  unfold Builtin.call?
  cases named? provided name with
  | some b => exact bind (run b args line) fun _ => pure _
  | none => exact pure none

end Patient

end Builtin

namespace Likeness

/-- The right console awaits more lines.  The left evaluation is cut short where the right one reads
the first of these. -/
def awaiting (more : List String) : Likeness where
  code := .equal
  function := Eq
  function_id := Function.id_eq_iff_of_eq
  ids := .equal
  console c d := d = c.awaiting more
  cut s c d := s.IsEndOfInput ∧ c.ReadsOn d ∧ d.inputs.length < more.length

variable {more : List String}

theorem machine_interact {α : Type} (step : Builtin.Interaction α) (m : Machine) :
    ((Eval.interact step).run m).machine = { m with console := Builtin.left (step m.console) } := by
  cases ended : step m.console with
  | ok a after =>
    rw [run_interact_of_ok ended]
    rfl
  | error e after =>
    rw [run_interact_of_error ended]
    rfl

theorem matches_interact_awaiting (name : String) (values : List Value) (line : Nat) :
    (awaiting more).Matches (Eval.interact (Builtin.call? Builtin.all name values line))
      (Eval.interact (Builtin.call? Builtin.all name values line))
      fun found found' => found = found' ∧ ∀ v, found = some v → v.IsPlain := by
  have patient := Builtin.Patient.call? Builtin.all name values line
  have ends := machine_interact (Builtin.call? Builtin.all name values line)
  have plain := @Builtin.isPlain_of_call? Builtin.all name values line
  generalize Builtin.call? Builtin.all name values line = step at patient ends plain ⊢
  apply Matches.change
  · intro m
    change m.console.Before ((Eval.interact step).run m).machine.console
    rw [ends]
    exact patient.grows m.console
  · intro m n same
    have further : n.console = m.console.awaiting more := same.console
    have furthered := patient.furthered more m.console
    have passed := (Eval.interact step).run_mem_history n
    rw [ends] at passed
    rw [← further] at furthered
    generalize called : step m.console = out, called' : step n.console = out' at furthered passed ⊢
    cases furthered with
    | ok found after =>
      refine .ok (run_interact_of_ok called') ⟨same.store, same.env, same.depth, rfl⟩ ⟨rfl, ?_⟩
      intro v answered
      subst answered
      exact plain called
    | error e after =>
      exact .error (run_interact_of_error called') (.error e.cause rfl)
        ⟨same.store, same.env, same.depth, rfl⟩
    | starved l reads read =>
      -- By the end of this step the right evaluation has read one of its further lines.
      exact .cut ⟨_, same.store⟩ passed ⟨⟨l, rfl⟩, reads, read⟩

theorem lawful_awaiting (functions : FunctionTable) (maxDepth : Option Nat) :
    (awaiting more).Lawful ⟨functions, maxDepth⟩ ⟨functions, maxDepth⟩ where
  tables := .self fun _ f _ => ⟨rfl, Code.sameDefinition_equal f.toDefinition⟩
  main := SameTable.self_get?
    (fun _ f _ => ⟨rfl, Code.sameDefinition_equal f.toDefinition⟩) "main" 0
  reached _ := .inl rfl
  record := by
    intro c d same e e' events
    obtain rfl : d = c.awaiting more := same
    cases events with
    | same e => rfl
    | executed lines =>
      exact congrArg (fun line => (c.awaiting more).record (.executed line)) lines.symm
  started := by
    intro c d same
    obtain rfl : d = c.awaiting more := same
    rfl
  interact name values line line' lines := by
    obtain rfl : line = line' := lines
    exact matches_interact_awaiting name values line

end Likeness

open Likeness

variable (p : Program) (maxDepth : Option Nat) (inputs more : List String) (fuel : Nat)

/-- With more lines behind its input a run ends the same and leaves these unread.  Or it ended for
want of a line; then with more lines it reads one of these, and goes on from what it wrote. -/
theorem run_awaiting :
    let r := p.run maxDepth inputs fuel
    let r' := p.run maxDepth (inputs ++ more) fuel
    r' = ⟨r.ending, r.console.awaiting more⟩ ∨
      r.ending.IsEndOfInput ∧ r.console.ReadsOn r'.console ∧
        r'.console.inputs.length < more.length := by
  intro r r'
  have start : (awaiting more).SameMachine (.start inputs) (.start (inputs ++ more)) :=
    sameMachine_start rfl rfl
  have same : (awaiting more).SameRun r r' :=
    sameRun (lawful_awaiting p.functions maxDepth) (.inl rfl) (fun _ => rfl) start
  cases same with
  | same endings consoles =>
    left
    have ending : r.ending = r'.ending := endings.eq id
    have console : r'.console = r.console.awaiting more := consoles
    rw [ending, ← console]
  | @cut s ending d cut before =>
    right
    obtain ⟨short, reads, read⟩ := cut
    rw [ending]
    exact ⟨short.ending, reads.before before,
      Nat.lt_of_le_of_lt before.inputs.length_le read⟩

end Protoscript
