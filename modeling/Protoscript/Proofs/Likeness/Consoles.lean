import Mathlib.Data.List.Forall2
import Protoscript.Proofs.Likeness.Code
import Protoscript.Proofs.PlainValues

/-! # Consoles of two runs

A console only grows: its log gets longer at the end, its waiting lines fewer at the front
(`Before`).  All that is done to it but for the counting of calls is to note something in its log
and to read lines (`Uses`).  Two runs write the same if what their logs gained is the same but for
the lines of statements (`Code.SameConsole`).  A built-in gives the same answer on consoles from
which the same is read: `Builtin.call?_answers`. -/

set_option autoImplicit false

namespace Protoscript

namespace Console

/-- The one console comes of the other by logging and by reading lines. -/
structure Before (c d : Console) : Prop where
  log : c.log <+: d.log
  inputs : d.inputs <:+ c.inputs

namespace Before

variable {b c d : Console}

@[refl]
theorem refl (c : Console) : c.Before c := ⟨List.prefix_rfl, List.suffix_rfl⟩

theorem trans (first : b.Before c) (second : c.Before d) : b.Before d :=
  ⟨first.log.trans second.log, second.inputs.trans first.inputs⟩

theorem record (c : Console) (e : Event) : c.Before (c.record e) := by
  refine ⟨?_, List.suffix_rfl⟩
  rw [log_record]
  exact List.prefix_append _ _

theorem readLine (c : Console) : c.Before c.readLine.2 := by
  obtain ⟨inputs, latest⟩ := c
  cases inputs with
  | nil => exact record _ _
  | cons line rest =>
    refine ⟨?_, List.suffix_cons line rest⟩
    exact (record ⟨line :: rest, latest⟩ (.asked (some line))).log

theorem output (before : c.Before d) : c.output <+: d.output :=
  before.log.filterMap _

end Before

end Console

/-- The event counts no call in and asks for no line. -/
def Event.IsNote : Event → Prop
  | called _ _ _ _ | asked _ => False
  | started _ | executed _ | printed _ => True

namespace Console

/-- The one console comes of the other by notes in its log and by requests for lines. -/
inductive Uses (c : Console) : Console → Prop
  | refl : c.Uses c
  | note {d : Console} {e : Event} (uses : c.Uses d) (plain : e.IsNote) : c.Uses (d.record e)
  | readLine {d : Console} (uses : c.Uses d) : c.Uses d.readLine.2

theorem Uses.before {c d : Console} (uses : c.Uses d) : c.Before d := by
  induction uses with
  | refl => exact .refl c
  | note _ _ ih => exact ih.trans (.record _ _)
  | readLine _ ih => exact ih.trans (.readLine _)

end Console

/-! ## Related logs -/

namespace Code

/-- The same event, but for the line of a statement. -/
inductive SameEvent (K : Code) : Event → Event → Prop
  | same (e : Event) : SameEvent K e e
  | executed {line line' : Nat} (lines : K.line line line') :
    SameEvent K (.executed line) (.executed line')

/-- The same lines wait, and what the logs gained on top of their pasts is the same but for the
lines of statements. -/
structure SameConsole (K : Code) (past past' : List Event) (c d : Console) : Prop where
  inputs : c.inputs = d.inputs
  log : ∃ new new', c.log = past ++ new ∧ d.log = past' ++ new' ∧ List.Forall₂ K.SameEvent new new'

variable {K : Code} {past past' : List Event} {c d : Console}

theorem printed?_eq {e e' : Event} (same : K.SameEvent e e') : e.printed? = e'.printed? := by
  cases same <;> rfl

theorem printed_eq {es es' : List Event} (same : List.Forall₂ K.SameEvent es es') :
    es.filterMap Event.printed? = es'.filterMap Event.printed? := by
  induction same with
  | nil => rfl
  | cons head _ ih => rw [List.filterMap_cons, List.filterMap_cons, printed?_eq head, ih]

/-- A code that keeps lines apart keeps logs apart. -/
theorem eq_of_sameEvents (lines : ∀ {i j}, K.line i j → i = j) {es es' : List Event}
    (same : List.Forall₂ K.SameEvent es es') : es = es' := by
  induction same with
  | nil => rfl
  | cons head _ ih =>
    cases head with
    | same e => rw [ih]
    | executed line => rw [lines line, ih]

namespace SameConsole

theorem self (c : Console) : K.SameConsole [] [] c c :=
  ⟨rfl, c.log, c.log, rfl, rfl, List.forall₂_same.mpr fun e _ => .same e⟩

theorem here (inputs : c.inputs = d.inputs) : K.SameConsole c.log d.log c d :=
  ⟨inputs, [], [], (List.append_nil _).symm, (List.append_nil _).symm, .nil⟩

theorem record (same : K.SameConsole past past' c d) {e e' : Event} (events : K.SameEvent e e') :
    K.SameConsole past past' (c.record e) (d.record e') := by
  obtain ⟨inputs, new, new', left, right, related⟩ := same
  refine ⟨inputs, new ++ [e], new' ++ [e'], ?_, ?_, ?_⟩
  · rw [Console.log_record, left, List.append_assoc]
  · rw [Console.log_record, right, List.append_assoc]
  · exact List.rel_append related (.cons events .nil)

/-- Consoles of a code that keeps lines apart are the same if they had the same past. -/
theorem eq (lines : ∀ {i j}, K.line i j → i = j) (same : K.SameConsole past past c d) : c = d := by
  obtain ⟨inputs, new, new', left, right, related⟩ := same
  have log : c.log = d.log := by rw [left, right, eq_of_sameEvents lines related]
  obtain ⟨lines, latest⟩ := c
  obtain ⟨lines', latest'⟩ := d
  obtain rfl : lines = lines' := inputs
  obtain rfl : latest = latest' := List.reverse_injective log
  rfl

theorem output_eq (same : K.SameConsole [] [] c d) : c.output = d.output := by
  obtain ⟨_, new, new', left, right, related⟩ := same
  rw [Console.output, Console.output, left, right]
  exact printed_eq related

end SameConsole

end Code

/-! ## Answers of built-ins -/

namespace Builtin

section Texts

variable {args args' : List Value} (texts : args.map Value.text = args'.map Value.text)

include texts

theorem prompt_eq : prompt args = prompt args' := by
  cases args with
  | nil => rw [List.map_eq_nil_iff.mp texts.symm]
  | cons v vs =>
    cases args' with
    | nil => cases texts
    | cons w ws =>
      have first : v.text = w.text := (List.cons.inj texts).1
      rw [prompt, prompt, first]

/-- A built-in sees no more of its arguments than their texts. -/
theorem run_eq (b : Builtin) (line : Nat) : b.run args line = b.run args' line := by
  have count : args.length = args'.length := by
    have lengths := congrArg List.length texts
    rwa [List.length_map, List.length_map] at lengths
  unfold run ask
  rw [count, texts, prompt_eq texts]

theorem call?_eq (provided : List Builtin) (name : String) (line : Nat) :
    call? provided name args line = call? provided name args' line := by
  unfold call?
  simp only [run_eq texts]

end Texts

/-- The same is read on both sides and related consoles stay related. -/
structure Parallel (R : Console → Console → Prop) : Prop where
  print : ∀ {c d}, R c d → ∀ text, R (c.print text) (d.print text)
  readLine : ∀ {c d}, R c d →
    c.readLine.1 = d.readLine.1 ∧ R c.readLine.2 d.readLine.2

/-- The same result or the same cause of an error, on related consoles. -/
inductive Answers (lines : Nat → Nat → Prop) (R : Console → Console → Prop) {α : Type} :
    EStateM.Result RuntimeError Console α → EStateM.Result RuntimeError Console α → Prop
  | ok (a : α) {c d : Console} (consoles : R c d) : Answers lines R (.ok a c) (.ok a d)
  | error (cause : RuntimeError.Cause) {line line' : Nat} (related : lines line line')
      {c d : Console} (consoles : R c d) :
    Answers lines R (.error ⟨cause, line⟩ c) (.error ⟨cause, line'⟩ d)

section Answers

variable {α β : Type} {lines : Nat → Nat → Prop} {R : Console → Console → Prop}

theorem answers_bind {x y : Interaction α} {f g : α → Interaction β}
    (first : ∀ {c d}, R c d → Answers lines R (x c) (y d))
    (second : ∀ a {c d}, R c d → Answers lines R (f a c) (g a d)) {c d : Console}
    (consoles : R c d) : Answers lines R ((x >>= f) c) ((y >>= g) d) := by
  change Answers lines R (EStateM.bind x f c) (EStateM.bind y g d)
  unfold EStateM.bind
  match x c, y d, first consoles with
  | _, _, .ok a after => exact second a after
  | _, _, .error cause related after => exact .error cause related after

variable (parallel : Parallel R) {line line' : Nat} (related : lines line line')

include related in
theorem checkCount_answers (b : Builtin) (count : Nat) {c d : Console} (consoles : R c d) :
    Answers lines R (b.checkCount count line c) (b.checkCount count line' d) := by
  unfold checkCount
  cases b.most?.filter (· < count) with
  | some most => exact .error _ related consoles
  | none => exact .ok _ consoles

include parallel

theorem prompt_answers (args : List Value) {c d : Console} (consoles : R c d) :
    Answers lines R (prompt args c) (prompt args d) := by
  cases args with
  | nil => exact .ok _ consoles
  | cons v _ => exact .ok _ (parallel.print consoles v.text)

theorem readLine_answers {c d : Console} (consoles : R c d) :
    Answers lines R ((modifyGet Console.readLine : Interaction (Option String)) c)
      ((modifyGet Console.readLine : Interaction (Option String)) d) := by
  obtain ⟨same, after⟩ := parallel.readLine consoles
  change Answers lines R (.ok c.readLine.1 c.readLine.2) (.ok d.readLine.1 d.readLine.2)
  rw [same]
  exact .ok _ after

include related

theorem ask_answers (args : List Value) {c d : Console} (consoles : R c d) :
    Answers lines R (ask args line c) (ask args line' d) := by
  refine answers_bind (prompt_answers parallel args) ?_ consoles
  intro _ c d consoles
  refine answers_bind (readLine_answers parallel) ?_ consoles
  intro read c d consoles
  cases read with
  | some text => exact .ok text consoles
  | none => exact .error _ related consoles

theorem run_answers (b : Builtin) (args : List Value) {c d : Console} (consoles : R c d) :
    Answers lines R (b.run args line c) (b.run args line' d) := by
  refine answers_bind (checkCount_answers related b args.length) ?_ consoles
  intro _ c d consoles
  cases b with
  | print => exact .ok _ (parallel.print consoles _)
  | inputi =>
    refine answers_bind (ask_answers parallel related args) ?_ consoles
    intro text c d consoles
    cases Numeral.signed? (Text.trim text.toList) with
    | some n => exact .ok _ consoles
    | none => exact .error _ related consoles
  | inputs =>
    refine answers_bind (ask_answers parallel related args) ?_ consoles
    intro text c d consoles
    exact .ok _ consoles

theorem call?_answers (provided : List Builtin) (name : String) (args : List Value)
    {c d : Console} (consoles : R c d) :
    Answers lines R (call? provided name args line c) (call? provided name args line' d) := by
  unfold call?
  cases named? provided name with
  | some b =>
    refine answers_bind (run_answers parallel related b args) ?_ consoles
    intro v c d consoles
    exact .ok _ consoles
  | none => exact .ok _ consoles

end Answers

/-- The same console, that comes of a given one. -/
theorem parallel_after (b : Console) : Parallel fun c d => b.Uses c ∧ c = d where
  print := by
    rintro c _ ⟨uses, rfl⟩ text
    exact ⟨uses.note trivial, rfl⟩
  readLine := by
    rintro c _ ⟨uses, rfl⟩
    exact ⟨rfl, uses.readLine, rfl⟩

theorem answers_self (provided : List Builtin) (name : String) (args : List Value) (line : Nat)
    (c : Console) :
    Answers (fun _ _ => True) (fun d d' => c.Uses d ∧ d = d') (call? provided name args line c)
      (call? provided name args line c) :=
  call?_answers (parallel_after c) trivial provided name args ⟨.refl, rfl⟩

section Uses

variable {provided : List Builtin} {name : String} {args : List Value} {line : Nat}
  {c after : Console}

theorem uses_of_call?_ok {found : Option Value}
    (called : call? provided name args line c = .ok found after) : c.Uses after := by
  have answers := answers_self provided name args line c
  rw [called] at answers
  cases answers with
  | ok _ consoles => exact consoles.1

theorem uses_of_call?_error {e : RuntimeError}
    (called : call? provided name args line c = .error e after) : c.Uses after := by
  have answers := answers_self provided name args line c
  rw [called] at answers
  cases answers with
  | error _ _ consoles => exact consoles.1

end Uses

end Builtin

theorem Code.SameConsole.parallel (K : Code) (past past' : List Event) :
    Builtin.Parallel (K.SameConsole past past') where
  print same text := same.record (.same (.printed text))
  readLine := by
    rintro ⟨inputs, latest⟩ ⟨inputs', latest'⟩ same
    obtain rfl : inputs = inputs' := same.inputs
    cases inputs with
    | nil => exact ⟨rfl, same.record (.same (.asked none))⟩
    | cons line rest =>
      have read := same.record (.same (.asked (some line)))
      exact ⟨rfl, rfl, read.log⟩

end Protoscript
