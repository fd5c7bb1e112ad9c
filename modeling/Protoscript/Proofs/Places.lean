import Protoscript.Proofs.Likeness.Runs
import Protoscript.Proofs.Places.Reading

/-! # Layout and meaning

Where the words of a source stand makes no difference to what it means.  Sources whose words are of
the same kinds are both refused, with the same errors, or both run, and then the runs read the same,
write the same and end the same, but for the line that an error names: `layout_keeps_meaning`. -/

set_option autoImplicit false

namespace Protoscript

namespace Likeness

/-- Programs that are the same but for their places, one beside the other. -/
def anywhere : Likeness where
  code := .anywhere
  function f g := f.id = g.id
  function_id same same' := by rw [same, same']
  ids := .equal
  console := Code.anywhere.SameConsole [] []
  cut _ _ _ := False

end Likeness

open Reader (SameDefinition)

/-! ## Tables -/

/-- The same functions, and as many. -/
structure FunctionTable.SameAnywhere (t u : FunctionTable) : Prop where
  tables : Likeness.anywhere.SameTable t u
  size : t.size = u.size

theorem FunctionTable.collect_alike {fs gs : List Function}
    (same : List.Forall₂
      (fun f g => f.id = g.id ∧ SameDefinition f.toDefinition g.toDefinition) fs gs)
    {t u : FunctionTable} (tables : t.SameAnywhere u) :
    (t.collect fs).1.SameAnywhere (u.collect gs).1 ∧
      (t.collect fs).2.map Diagnostic.unplaced = (u.collect gs).2.map Diagnostic.unplaced := by
  induction same generalizing t u with
  | nil => exact ⟨tables, rfl⟩
  | @cons f g fs gs alike _ ih =>
    unfold collect
    rcases tables.tables.insert ⟨alike.1, alike.2⟩ trivial with
      ⟨t', u', added, added', grown⟩ | ⟨x, y, refused, refused', -⟩
    · have size : t'.size = u'.size := by
        rw [size_of_insert added, size_of_insert added', tables.size]
      rw [added, added']
      exact ih ⟨grown, size⟩
    · obtain ⟨kept, errors⟩ := ih tables
      rw [refused, refused']
      refine ⟨kept, ?_⟩
      rw [List.map_cons, List.map_cons, errors, alike.2.name, alike.2.arity]
      rfl

theorem Program.ofDefinitions_alike {ds es : List Definition}
    (same : List.Forall₂ SameDefinition ds es) :
    SameCheck (fun p q => p.functions.SameAnywhere q.functions) (Program.ofDefinitions ds)
      (Program.ofDefinitions es) := by
  obtain ⟨tables, errors⟩ := FunctionTable.collect_alike (Function.forall₂_ofDefinitions same)
    (t := .empty) (u := .empty) ⟨.empty, rfl⟩
  rw [← FunctionTable.collected, ← FunctionTable.collected] at tables errors
  unfold Program.ofDefinitions FunctionTable.ofDefinitions
  generalize FunctionTable.collected ds = left at tables errors ⊢
  generalize FunctionTable.collected es = right at tables errors ⊢
  obtain ⟨t, reports⟩ := left
  obtain ⟨u, reports'⟩ := right
  cases reports with
  | nil =>
    cases reports' with
    | nil => exact .ok tables
    | cons => cases errors
  | cons =>
    cases reports' with
    | nil => cases errors
    | cons => exact .error errors

/-! ## Runs -/

/-- The ending, with line 0 for whatever line an error names. -/
def Ending.unplaced : Ending → Ending
  | failed e => failed ⟨e.cause, 0⟩
  | other => other

theorem Likeness.SameEnding.unplaced {L : Likeness} {r r' : Ending} (same : L.SameEnding r r') :
    r.unplaced = r'.unplaced := by
  cases same <;> rfl

/-- The runs end the same but for the line of an error, they wrote the same, and as much is left
unread by both. -/
structure Run.SameBesidesPlaces (r r' : Run) : Prop where
  ending : r.ending.unplaced = r'.ending.unplaced
  output : r.console.output = r'.console.output
  inputs : r.console.inputs = r'.console.inputs

theorem Program.run_alike {p q : Program} (same : p.functions.SameAnywhere q.functions)
    (maxDepth : Option Nat) (inputs : List String) (fuel : Nat) :
    (p.run maxDepth inputs fuel).SameBesidesPlaces (q.run maxDepth inputs fuel) := by
  have lawful : Likeness.anywhere.Lawful (p.setting maxDepth) (q.setting maxDepth) :=
    Likeness.lawful_of_sameConsole rfl same.tables (same.tables.get? trivial 0) same.size maxDepth
  have start : Likeness.anywhere.SameMachine (.start inputs) (.start inputs) :=
    Likeness.sameMachine_start rfl (.self _)
  have alike : Likeness.anywhere.SameRun (p.run maxDepth inputs fuel)
      (q.run maxDepth inputs fuel) :=
    Likeness.sameRun lawful (.inl rfl) (fun _ => trivial) start
  cases alike with
  | same endings consoles => exact ⟨endings.unplaced, consoles.output_eq, consoles.inputs⟩
  | cut _ cut => exact cut.elim

/-- Errors that differ in places alone have the same codes one by one, and the same messages unless
these quote a line. -/
theorem Diagnostic.forall₂_of_unplaced {ds es : List Diagnostic}
    (same : ds.map unplaced = es.map unplaced) :
    List.Forall₂ (fun d e => d.code = e.code ∧ (d.code ≠ .S003 → d.message = e.message)) ds es := by
  rw [← List.forall₂_eq_eq_eq, List.forall₂_map_left_iff, List.forall₂_map_right_iff] at same
  exact same.imp fun _ _ alike => ⟨code_eq_of_unplaced alike, message_eq_of_unplaced alike⟩

/-- Sources with words of the same kinds mean the same, wherever the words stand and however they
are written: both are refused with the same errors, or with any limit, on any input and with any
fuel, their runs are the same.  Errors are the same if their codes are, and but for a line that a
redefinition quotes, their messages. -/
theorem layout_keeps_meaning {source source' : String} {tokens tokens' : List Token}
    (left : Token.ofSource source = .ok tokens) (right : Token.ofSource source' = .ok tokens')
    (same : SameKinds tokens tokens') :
    SameCheck
      (fun p q => ∀ maxDepth inputs fuel,
        (p.run maxDepth inputs fuel).SameBesidesPlaces (q.run maxDepth inputs fuel))
      (Program.ofSource source) (Program.ofSource source') ∧
    ∀ ds es, Program.ofSource source = .error ds → Program.ofSource source' = .error es →
      List.Forall₂ (fun d e => d.code = e.code ∧ (d.code ≠ .S003 → d.message = e.message))
        ds es := by
  have checked : SameCheck
      (fun p q => ∀ maxDepth inputs fuel,
        (p.run maxDepth inputs fuel).SameBesidesPlaces (q.run maxDepth inputs fuel))
      (Program.ofSource source) (Program.ofSource source') := by
    unfold Program.ofSource
    rw [left, right]
    apply (Definition.ofTokens_alike same).bind
    intro ds es definitions
    exact (Program.ofDefinitions_alike definitions).imp fun _ _ tables => Program.run_alike tables
  refine ⟨checked, fun ds es refused refused' => ?_⟩
  rw [refused, refused'] at checked
  cases checked with
  | error errors => exact Diagnostic.forall₂_of_unplaced errors

theorem layout_keeps_meaning_of_respaced :
    ∃ tokens tokens', Token.ofSource "func main()\x7b\x7d" = .ok tokens ∧
      Token.ofSource "func main ( )\n\x7b // nothing\n\x7d" = .ok tokens' ∧
      SameKinds tokens tokens' ∧
      SameCheck
        (fun p q => ∀ maxDepth inputs fuel,
          (p.run maxDepth inputs fuel).SameBesidesPlaces (q.run maxDepth inputs fuel))
        (Program.ofSource "func main()\x7b\x7d")
        (Program.ofSource "func main ( )\n\x7b // nothing\n\x7d") := by
  have left : Token.ofSource "func main()\x7b\x7d" = .ok
      [⟨.keyword .func, ⟨1, 1⟩⟩, ⟨.ident "main", ⟨1, 6⟩⟩, ⟨.sign .leftParen, ⟨1, 10⟩⟩,
        ⟨.sign .rightParen, ⟨1, 11⟩⟩, ⟨.sign .leftBrace, ⟨1, 12⟩⟩, ⟨.sign .rightBrace, ⟨1, 13⟩⟩,
        ⟨.eof, ⟨1, 14⟩⟩] := by with_unfolding_all rfl
  have right : Token.ofSource "func main ( )\n\x7b // nothing\n\x7d" = .ok
      [⟨.keyword .func, ⟨1, 1⟩⟩, ⟨.ident "main", ⟨1, 6⟩⟩, ⟨.sign .leftParen, ⟨1, 11⟩⟩,
        ⟨.sign .rightParen, ⟨1, 13⟩⟩, ⟨.sign .leftBrace, ⟨2, 1⟩⟩, ⟨.sign .rightBrace, ⟨3, 1⟩⟩,
        ⟨.eof, ⟨3, 2⟩⟩] := by with_unfolding_all rfl
  exact ⟨_, _, left, right, rfl, (layout_keeps_meaning left right rfl).1⟩

end Protoscript
