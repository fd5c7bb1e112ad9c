import Mathlib.Data.List.DropRight
import Protoscript.CommandLine
import Protoscript.Proofs.CallEvents
import Protoscript.Proofs.Encoding
import Protoscript.Proofs.UnreadInput

/-! # The command line and the library

Standard input gives its lines one by one, and only as many as are asked for.  As a program never
asks again when it was told that there is none, it cannot tell that from all lines being there at
the start: what a run is answered (`Console.answers`) is what the stream gives in that order
(`endsOn_iff`).  So the command line answers with what the run on these lines comes to. -/

set_option autoImplicit false

namespace Protoscript

/-! ## Lines of standard input -/

namespace StandardInput

/-- The bytes that end a line, as those of a character. -/
theorem isEnd_of_mem_utf8EncodeChar {c : Char} {b : UInt8} (among : b ∈ String.utf8EncodeChar c)
    (ends : b = '\n'.toUInt8 ∨ b = '\r'.toUInt8) : c = '\n' ∨ c = '\r' := by
  rcases ends with rfl | rfl
  · exact .inl (Text.eq_of_mem_utf8EncodeChar (by decide) among)
  · exact .inr (Text.eq_of_mem_utf8EncodeChar (by decide) among)

/-- To take newlines and carriage returns off the end of a text is to take their bytes off. -/
theorem rdropWhile_encodeAll (cs : List Char) :
    (Text.encodeAll cs).rdropWhile (fun b => b = '\n'.toUInt8 ∨ b = '\r'.toUInt8) =
      Text.encodeAll (cs.rdropWhile fun c => c = '\n' ∨ c = '\r') := by
  induction cs using List.reverseRecOn with
  | nil => rfl
  | append_singleton cs c ih =>
    by_cases ends : c = '\n' ∨ c = '\r'
    · have byte : String.utf8EncodeChar c = [c.toUInt8] := by
        apply Text.utf8EncodeChar_of_lt
        rcases ends with rfl | rfl <;> decide
      have last : c.toUInt8 = '\n'.toUInt8 ∨ c.toUInt8 = '\r'.toUInt8 :=
        ends.imp (congrArg Char.toUInt8) (congrArg Char.toUInt8)
      rw [Text.encodeAll_append, Text.encodeAll_cons, byte, Text.encodeAll_nil, List.append_nil,
        List.rdropWhile_concat, if_pos (decide_eq_true last), List.rdropWhile_concat,
        if_pos (decide_eq_true ends), ih]
    · have other : ¬ decide (c = '\n' ∨ c = '\r') = true :=
        fun same => ends (of_decide_eq_true same)
      rw [List.rdropWhile_concat, if_neg other, List.rdropWhile_eq_self_iff]
      intro nonempty last
      refine ends (isEnd_of_mem_utf8EncodeChar ?_ (of_decide_eq_true last))
      have bytes : String.utf8EncodeChar c ≠ [] := by
        intro empty
        have size := String.length_utf8EncodeChar c
        rw [empty] at size
        exact absurd size (Nat.ne_of_lt c.utf8Size_pos)
      have whole : Text.encodeAll (cs ++ [c]) = Text.encodeAll cs ++ String.utf8EncodeChar c := by
        rw [Text.encodeAll_append, Text.encodeAll_cons, Text.encodeAll_nil, List.append_nil]
      simp only [whole, List.getLast_append_of_ne_nil _ bytes]
      exact List.getLast_mem bytes

/-- A line without the bytes at its end is well formed only if it was with them. -/
theorem exists_decode?_of_stripLine (bytes : List UInt8) {t : String}
    (decoded : Text.decode? (Console.stripLine bytes) = some t) :
    ∃ s, Text.decode? bytes = some s := by
  obtain ⟨cs, stripped, -⟩ := Text.exists_encodeAll_eq decoded
  suffices whole : ∃ ds, bytes = Text.encodeAll ds by
    obtain ⟨ds, rfl⟩ := whole
    exact ⟨_, Text.decode?_encodeAll ds⟩
  have same : bytes.rdropWhile (fun b => b = '\n'.toUInt8 ∨ b = '\r'.toUInt8) =
    Text.encodeAll cs := stripped
  clear stripped decoded
  induction bytes using List.reverseRecOn with
  | nil => exact ⟨[], rfl⟩
  | append_singleton bytes b ih =>
    rw [List.rdropWhile_concat] at same
    split at same
    · next ends =>
      obtain ⟨ds, rfl⟩ := ih same
      rcases of_decide_eq_true ends with rfl | rfl
      · exact ⟨ds ++ ['\n'], by rw [Text.encodeAll_append]; rfl⟩
      · exact ⟨ds ++ ['\r'], by rw [Text.encodeAll_append]; rfl⟩
    · exact ⟨cs, same⟩

/-- It is the same whether a line is decoded first and then trimmed, or stripped first. -/
theorem map_trimEnd_decode? (bytes : List UInt8) :
    (Text.decode? bytes).map trimEnd = Text.decode? (Console.stripLine bytes) := by
  cases decoded : Text.decode? bytes with
  | none =>
    cases stripped : Text.decode? (Console.stripLine bytes) with
    | none => rfl
    | some t =>
      obtain ⟨s, whole⟩ := exists_decode?_of_stripLine bytes stripped
      rw [decoded] at whole
      cases whole
  | some s =>
    obtain ⟨cs, rfl, rfl⟩ := Text.exists_encodeAll_eq decoded
    have stripped : Console.stripLine (Text.encodeAll cs) =
      Text.encodeAll (cs.rdropWhile fun c => c = '\n' ∨ c = '\r') := rdropWhile_encodeAll cs
    rw [stripped, Text.decode?_encodeAll, Option.map_some, trimEnd, String.toList_ofList]
    rfl

/-- Line by line, standard input gives what there is to cut off the stream. -/
theorem lines_eq_linesOf (stream : List UInt8) : lines stream = Console.linesOf stream := by
  induction size : stream.length using Nat.strong_induction_on generalizing stream with
  | _ n ih =>
    cases stream with
    | nil => rw [lines, Console.linesOf]
    | cons b rest =>
      have shorter := Console.cutLine_rest_length_lt b rest
      rw [lines, Console.linesOf]
      dsimp only [readLine]
      rw [map_trimEnd_decode?]
      cases Text.decode? (Console.stripLine (Console.cutLine (b :: rest)).1) with
      | none => rfl
      | some line => exact congrArg (line :: ·) (ih _ (size ▸ shorter) _ rfl)

/-- The answers to so many requests for a line, each of which reads on in the stream. -/
def answers : List UInt8 → Nat → List (Option String)
  | _, 0 => []
  | stream, n + 1 => (readLine stream).1 :: answers (readLine stream).2 n

/-- These lines are the first that are read. -/
theorem map_some_eq_answers_iff {stream : List UInt8} {read : List String} :
    read.map some = answers stream read.length ↔ read <+: lines stream := by
  induction read generalizing stream with
  | nil => exact ⟨fun _ => List.nil_prefix, fun _ => rfl⟩
  | cons line read ih =>
    rw [List.length_cons, answers, List.map_cons, lines_eq, List.cons.injEq, ih]
    cases (readLine stream).1 with
    | none => simp
    | some first => simp [List.cons_prefix_cons]

/-- These lines are all that are read before there is none. -/
theorem concat_none_eq_answers_iff {stream : List UInt8} {read : List String} :
    read.map some ++ [none] = answers stream (read.length + 1) ↔ read = lines stream := by
  induction read generalizing stream with
  | nil =>
    rw [lines_eq, List.map_nil, List.nil_append, List.length_nil, answers, answers]
    cases (readLine stream).1 <;> simp
  | cons line read ih =>
    rw [List.length_cons, answers, List.map_cons, lines_eq, List.cons_append, List.cons.injEq, ih]
    cases (readLine stream).1 <;> simp

end StandardInput

/-! ## Requests of a run -/

/-- The answer that the event gave, if it is a request for a line. -/
def Event.answer? : Event → Option (Option String)
  | asked line => some line
  | _ => none

namespace Console

/-- The answers to the requests for a line, in order. -/
def answers (c : Console) : List (Option String) := c.log.filterMap Event.answer?

theorem answers_record (c : Console) (e : Event) :
    (c.record e).answers = c.answers ++ [e].filterMap Event.answer? := by
  rw [answers, log_record, List.filterMap_append]
  rfl

/-- The first of the lines were read, and the others wait.  Only when all were read can a request
have got no line. -/
def Drains (inputs : List String) (c : Console) : Prop :=
  ∃ read wanted, inputs = read ++ c.inputs ∧
    c.answers = read.map some ++ List.replicate wanted none ∧ (wanted ≠ 0 → c.inputs = [])

namespace Drains

variable {inputs : List String} {c d : Console}

theorem record (drains : c.Drains inputs) {e : Event} (other : e.answer? = none) :
    (c.record e).Drains inputs := by
  obtain ⟨read, wanted, lines, answers, spent⟩ := drains
  refine ⟨read, wanted, lines, ?_, spent⟩
  rw [answers_record, List.filterMap_cons_none other, List.filterMap_nil, List.append_nil, answers]

theorem readLine (drains : c.Drains inputs) : c.readLine.2.Drains inputs := by
  obtain ⟨read, wanted, lines, answers, spent⟩ := drains
  obtain ⟨waiting, latest⟩ := c
  cases waiting with
  | nil =>
    refine ⟨read, wanted + 1, lines, ?_, fun _ => rfl⟩
    rw [Console.readLine, answers_record, answers, List.replicate_succ', List.append_assoc]
    rfl
  | cons line rest =>
    have fed : wanted = 0 := by
      by_contra some
      cases spent some
    have more : inputs = (read ++ [line]) ++ rest := by
      rw [lines, List.append_assoc]
      rfl
    refine ⟨read ++ [line], 0, more, ?_, fun some => absurd rfl some⟩
    rw [fed, List.replicate_zero, List.append_nil] at answers
    have before : Console.answers ⟨rest, latest⟩ = read.map some := answers
    rw [Console.readLine, answers_record, before, List.replicate_zero, List.append_nil,
      List.map_append]
    rfl

theorem uses (drains : c.Drains inputs) (uses : c.Uses d) : d.Drains inputs := by
  induction uses with
  | refl => exact drains
  | @note d e _ plain ih =>
    refine ih.record ?_
    cases e with
    | asked => cases plain
    | _ => rfl
  | readLine _ ih => exact ih.readLine

/-- No request has got no line. -/
theorem answers_of_inputs_ne_nil (drains : c.Drains inputs) (waiting : c.inputs ≠ []) :
    ∃ read, inputs = read ++ c.inputs ∧ c.answers = read.map some := by
  obtain ⟨read, wanted, lines, answers, spent⟩ := drains
  have fed : wanted = 0 := by
    by_contra some
    exact waiting (spent some)
  rw [fed, List.replicate_zero, List.append_nil] at answers
  exact ⟨read, lines, answers⟩

/-- Up to a request that got a line, each one did. -/
theorem none_not_mem_before (drains : c.Drains inputs) {before : List (Option String)}
    {line : String} (began : before ++ [some line] <+: c.answers) : none ∉ before := by
  obtain ⟨read, wanted, -, answers, -⟩ := drains
  obtain ⟨rest, whole⟩ := began
  rw [answers, List.append_assoc] at whole
  rcases split_of_append whole.symm with ⟨rest, early⟩ | ⟨between, -, late⟩
  · intro among
    have early : none ∈ read.map some := by
      rw [early]
      exact List.mem_append_left _ among
    obtain ⟨_, -, same⟩ := List.mem_map.mp early
    cases same
  · have late : some line ∈ List.replicate wanted none := by
      rw [late]
      exact List.mem_append_right _ List.mem_cons_self
    cases List.eq_of_mem_replicate late

/-- If only the last request got no line, the lines that were read answer all others. -/
theorem answers_of_concat (drains : c.Drains inputs) {before : List (Option String)}
    (fed : none ∉ before) (last : c.answers = before ++ [none]) :
    before = inputs.map some := by
  obtain ⟨read, wanted, lines, answers, spent⟩ := drains
  rcases split_of_append (answers.symm.trans last) with ⟨rest, early⟩ | ⟨between, same, late⟩
  · have early : none ∈ read.map some := by
      rw [early]
      exact List.mem_append_right _ List.mem_cons_self
    obtain ⟨_, -, same⟩ := List.mem_map.mp early
    cases same
  · have wants : wanted ≠ 0 := by
      rintro rfl
      exact absurd late.symm (List.concat_ne_nil _ _)
    have nothing : between = [] := by
      refine List.eq_nil_iff_forall_not_mem.mpr fun answer among => ?_
      have none : answer ∈ List.replicate wanted none := by
        rw [late]
        exact List.mem_append_left _ among
      rw [List.eq_of_mem_replicate none] at among
      rw [same] at fed
      exact fed (List.mem_append_right _ among)
    rw [nothing, List.append_nil] at same
    rw [spent wants, List.append_nil] at lines
    rw [same, lines]

end Drains

end Console

section Requests

variable (p : Program) (maxDepth : Option Nat) {inputs : List String} {fuel : Nat}

theorem drains_run (inputs : List String) (fuel : Nat) :
    (p.run maxDepth inputs fuel).console.Drains inputs := by
  have start : (Console.ofInputs inputs).Drains inputs :=
    ⟨[], 0, rfl, rfl, fun some => absurd rfl some⟩
  rw [p.run_eq]
  refine (course_run p maxDepth inputs fuel).chain.induction
    (fun μ => μ.machine.console.Drains inputs) _ ?_ (fun _ => start) _ (Eval.run_mem_history _ _)
  intro μ ν turns drains
  unfold Eval.Follows at turns
  generalize ν.machine = m at turns ⊢
  cases turns with
  | entered d closure => exact drains.record rfl
  | left _ => exact drains
  | within _ uses => exact drains.uses uses

/-- In a run that does not end for want of a line, each request gets a line. -/
theorem answers_of_fed (fed : ¬ (p.run maxDepth inputs fuel).ending.IsEndOfInput) :
    ∃ read, inputs = read ++ (p.run maxDepth inputs fuel).console.inputs ∧
      (p.run maxDepth inputs fuel).console.answers = read.map some := by
  -- With one more line the run is the same, and as this line is left no request got none.
  rcases run_awaiting p maxDepth inputs [""] fuel with same | ⟨wanting, -⟩
  · have drains := drains_run p maxDepth (inputs ++ [""]) fuel
    rw [same] at drains
    obtain ⟨read, lines, answers⟩ := drains.answers_of_inputs_ne_nil (List.concat_ne_nil _ _)
    rw [Console.awaiting, ← List.append_assoc] at lines
    exact ⟨read, List.append_cancel_right lines, answers⟩
  · exact absurd wanting fed

/-- In a run that ends for want of a line, the last request alone gets none. -/
theorem answers_of_wanting (wanting : (p.run maxDepth inputs fuel).ending.IsEndOfInput) :
    (p.run maxDepth inputs fuel).console.answers = inputs.map some ++ [none] := by
  rcases run_awaiting p maxDepth inputs [""] fuel with same | ⟨-, ⟨log, text, asked, began⟩, -⟩
  · -- The run with one more line would have read that line too.
    have longer : (p.run maxDepth (inputs ++ [""]) fuel).ending.IsEndOfInput := by
      rw [same]
      exact wanting
    have none := inputs_eq_nil_of_isEndOfInput p maxDepth longer
    rw [same] at none
    exact absurd none (List.concat_ne_nil _ _)
  · -- The run with one more line did the same, up to a request that got this line.
    have fed : none ∉ log.filterMap Event.answer? := by
      have began := began.filterMap Event.answer?
      rw [List.filterMap_append] at began
      exact (drains_run p maxDepth (inputs ++ [""]) fuel).none_not_mem_before began
    have last : (p.run maxDepth inputs fuel).console.answers =
        log.filterMap Event.answer? ++ [none] := by
      rw [Console.answers, asked, List.filterMap_append]
      rfl
    rw [last, (drains_run p maxDepth inputs fuel).answers_of_concat fed last]

end Requests

/-! ## Runs on standard input -/

/-- The program ends so, and leaves this log, when each of its requests for a line is answered from
the stream, which is read on for it.  The run may be one on any lines, so long as these were the
answers. -/
def Program.EndsOn (p : Program) (maxDepth : Option Nat) (stream : List UInt8) (ending : Ending)
    (log : List Event) : Prop :=
  ∃ inputs r, p.EndsIn maxDepth inputs r ∧
    r.console.answers = StandardInput.answers stream r.console.answers.length ∧
    r.ending = ending ∧ r.console.log = log

/-- The same run with the lines of the stream. -/
theorem Program.EndsIn.on_lines {p : Program} {maxDepth : Option Nat} {inputs : List String}
    {r : Run} (ends : p.EndsIn maxDepth inputs r) {stream : List UInt8}
    (answered : r.console.answers = StandardInput.answers stream r.console.answers.length) :
    ∃ r', p.EndsIn maxDepth (StandardInput.lines stream) r' ∧ r'.ending = r.ending ∧
      r'.console.log = r.console.log := by
  by_cases wanting : r.ending.IsEndOfInput
  · have answers : r.console.answers = inputs.map some ++ [none] := by
      obtain ⟨-, fuel, rfl⟩ := ends
      exact answers_of_wanting p maxDepth wanting
    rw [answers, List.length_append, List.length_map] at answered
    obtain rfl := StandardInput.concat_none_eq_answers_iff.mp answered
    exact ⟨r, ends, rfl, rfl⟩
  · obtain ⟨read, lines, answers⟩ :
        ∃ read, inputs = read ++ r.console.inputs ∧ r.console.answers = read.map some := by
      obtain ⟨-, fuel, rfl⟩ := ends
      exact answers_of_fed p maxDepth wanting
    rw [answers, List.length_map] at answered
    obtain ⟨others, more⟩ := StandardInput.map_some_eq_answers_iff.mp answered
    rw [lines] at ends
    rw [← more]
    exact ⟨_, ends.reread wanting others, rfl, rfl⟩

/-- On the lines of a stream every request is answered from the stream. -/
theorem Program.EndsIn.answers_eq {p : Program} {maxDepth : Option Nat} {stream : List UInt8}
    {r : Run} (ends : p.EndsIn maxDepth (StandardInput.lines stream) r) :
    r.console.answers = StandardInput.answers stream r.console.answers.length := by
  obtain ⟨-, fuel, rfl⟩ := ends
  by_cases wanting : (p.run maxDepth (StandardInput.lines stream) fuel).ending.IsEndOfInput
  · rw [answers_of_wanting p maxDepth wanting, List.length_append, List.length_map]
    exact StandardInput.concat_none_eq_answers_iff.mpr rfl
  · obtain ⟨read, lines, answers⟩ := answers_of_fed p maxDepth wanting
    rw [answers, List.length_map]
    exact StandardInput.map_some_eq_answers_iff.mpr ⟨_, lines.symm⟩

/-- A program that reads standard input line by line does what it does with all lines at hand. -/
theorem endsOn_iff {p : Program} {maxDepth : Option Nat} {stream : List UInt8} {ending : Ending}
    {log : List Event} : p.EndsOn maxDepth stream ending log ↔
      ∃ r, p.EndsIn maxDepth (Console.linesOf stream) r ∧ r.ending = ending ∧
        r.console.log = log := by
  rw [← StandardInput.lines_eq_linesOf]
  constructor
  · rintro ⟨inputs, r, ends, answered, rfl, rfl⟩
    exact ends.on_lines answered
  · rintro ⟨r, ends, ended, logged⟩
    exact ⟨_, r, ends, ends.answers_eq, ended, logged⟩

/-! ## The command line -/

namespace CommandLine

variable {args : List String} {path : String} {maxDepth : Option Nat}
  {read : String → Except ReadError (List UInt8)} {bytes : List UInt8} {source : String}

theorem respond_eq_runSource (asked : request args = .ok (.run path maxDepth))
    (found : read path = .ok bytes) (text : Text.decode? bytes = some source)
    (stdin : List UInt8) (fuel : Nat) :
    respond args read stdin fuel = runSource path source maxDepth stdin fuel := by
  rw [respond, asked]
  dsimp only
  rw [found]
  dsimp only [Bind.bind, Except.bind]
  rw [text]

/-- The response shows how a run ended: its output line by line, and its error if it ended in
one. -/
inductive Shows (path : String) (output : List String) : Ending → Response → Prop
  | finished : Shows path output .finished ⟨0, lines output, ""⟩
  | failed (e : RuntimeError) :
    Shows path output (.failed e) ⟨1, lines output, s!"{path}: {e.display}\n"⟩

theorem shows_runSource (path : String) {p : Program} (made : Program.ofSource source = .ok p)
    {stdin : List UInt8} {r : Run} (ends : p.EndsIn maxDepth (StandardInput.lines stdin) r) :
    ∃ enough, ∀ fuel, enough ≤ fuel →
      Shows path r.console.output r.ending (runSource path source maxDepth stdin fuel) := by
  obtain ⟨ended, enough, rfl⟩ := ends
  refine ⟨enough, fun fuel le => ?_⟩
  have same := run_of_more_fuel p le ended
  rw [runSource, made]
  dsimp only
  rw [same]
  generalize p.run maxDepth (StandardInput.lines stdin) enough = r at ended
  cases ending : r.ending with
  | finished => exact .finished
  | failed e => exact .failed e
  | outOfFuel => exact absurd ending ended

/-- The command line agrees with the library.  A source that cannot be compiled is answered by its
errors.  Of any other, the run that reads standard input line by line ends as that with all lines at
hand, and with enough fuel the answer is the output of that run with its error, if it ended in
one. -/
theorem respond_agrees_with_run (asked : request args = .ok (.run path maxDepth))
    (found : read path = .ok bytes) (text : Text.decode? bytes = some source)
    (stdin : List UInt8) :
    (∀ ds, Program.ofSource source = .error ds → ∀ fuel, respond args read stdin fuel =
      ⟨1, "", lines (ds.map fun d => s!"{path}: {d.display}")⟩) ∧
    ∀ p, Program.ofSource source = .ok p →
      (∀ ending log, p.EndsOn maxDepth stdin ending log ↔
        ∃ r, p.EndsIn maxDepth (Console.linesOf stdin) r ∧ r.ending = ending ∧
          r.console.log = log) ∧
      ∀ r, p.EndsIn maxDepth (Console.linesOf stdin) r → ∃ enough, ∀ fuel, enough ≤ fuel →
        Shows path r.console.output r.ending (respond args read stdin fuel) := by
  have response := respond_eq_runSource asked found text stdin
  constructor
  · intro ds refused fuel
    rw [response, runSource, refused]
  · intro p made
    refine ⟨fun ending log => endsOn_iff, ?_⟩
    intro r ends
    rw [← StandardInput.lines_eq_linesOf] at ends
    obtain ⟨enough, shows⟩ := shows_runSource path made ends
    refine ⟨enough, fun fuel le => ?_⟩
    rw [response]
    exact shows fuel le

/-- `main` writes a line that it reads, and asks for another one. -/
def echoing : List Definition :=
  let ask (column : Nat) : Expr := .call "inputs" [] ⟨1, column⟩
  let print : Stmt := .call (.call "print" [ask 21] ⟨1, 15⟩)
  [⟨"main", [], [print, .call (ask 32)], ⟨1, 1⟩⟩]

def reading : Program := ⟨(FunctionTable.collected echoing).1⟩

theorem respond_agrees_with_run_of_reading :
    let source := "func main() \x7b print(inputs()); inputs(); \x7d"
    let args := ["a.br", "--max-depth", "3"]
    let read : String → Except ReadError (List UInt8) := fun _ => .ok (Text.encode source)
    let stdin := "b\r\n".toList.map Char.toUInt8
    request args = .ok (.run "a.br" (some 3)) ∧ Program.ofSource source = .ok reading ∧
      Console.linesOf stdin = ["b"] ∧ ∃ enough, ∀ fuel, enough ≤ fuel →
        Shows "a.br" ["b"] (.failed ⟨.endOfInput, 1⟩) (respond args read stdin fuel) := by
  intro source args read stdin
  have asked : request args = .ok (.run "a.br" (some 3)) := by with_unfolding_all rfl
  have made : Program.ofSource source = .ok reading := by
    have parsed : (Token.ofSource source >>= Definition.ofTokens) = .ok echoing := by
      with_unfolding_all rfl
    have checked : Program.ofSource source =
        (Token.ofSource source >>= Definition.ofTokens) >>= Program.ofDefinitions :=
      (bind_assoc _ _ _).symm
    rw [checked, parsed]
    rfl
  have text : Text.decode? (Text.encode source) = some source := Text.decode?_encode source
  have cut : Console.linesOf stdin = ["b"] := by
    have read : ["b"].map some ++ [none] = StandardInput.answers stdin 2 := by
      with_unfolding_all rfl
    rw [← StandardInput.lines_eq_linesOf]
    exact (StandardInput.concat_none_eq_answers_iff.mp read).symm
  have failed : (reading.run (some 3) ["b"] 20).ending = .failed ⟨.endOfInput, 1⟩ := by
    with_unfolding_all rfl
  have written : (reading.run (some 3) ["b"] 20).console.output = ["b"] := by
    with_unfolding_all rfl
  have ends : reading.EndsIn (some 3) (Console.linesOf stdin) (reading.run (some 3) ["b"] 20) := by
    rw [cut]
    refine ⟨?_, 20, rfl⟩
    rw [failed]
    intro starved
    cases starved
  have found : read "a.br" = .ok (Text.encode source) := rfl
  have shown := ((respond_agrees_with_run asked found text stdin).2 _ made).2 _ ends
  rw [failed, written] at shown
  exact ⟨asked, made, cut, shown⟩

end CommandLine

end Protoscript
