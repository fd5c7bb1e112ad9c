import Protoscript.Program
import Protoscript.Proofs.Diagnostics.Reading
import Protoscript.Proofs.Grammar.Programs

/-! # Errors of a source are ordered and located

A source that is not a program has errors, all of one phase.  Each is reported at a byte of the
source or at its end, and after those reported before it: `errors_ordered_and_located`.  The places
of tokens are among those of the bytes, and the places of definitions among those of tokens, so
each phase reports at some places of the text, in their order (`Program.exists_reports`). -/

set_option autoImplicit false

namespace Protoscript

open Diagnostic (Phase Reports)

/-! ## Redefinitions -/

namespace FunctionTable

theorem reports_collect (t : FunctionTable) (fs : List Function) :
    Reports .definitions (fs.map (·.position)) (t.collect fs).2 := by
  induction fs generalizing t with
  | nil => exact .nil
  | cons f fs ih =>
    rw [collect]
    split
    · next grown _ => exact (ih grown).mono (List.sublist_cons_self _ _)
    · next existing left _ =>
      let report : Diagnostic := ⟨.redefinition f.name f.arity existing.position.line, f.position⟩
      exact Reports.cons (d := report) rfl (ih left)

theorem reports_of_ofDefinitions {ds : List Definition} {errors : List Diagnostic}
    (failed : ofDefinitions ds = .error errors) :
    errors ≠ [] ∧ Reports .definitions (ds.map Definition.position) errors := by
  have reports := reports_collect empty (Function.ofDefinitions ds)
  rw [Function.map_ofDefinitions, ← collected] at reports
  rw [ofDefinitions] at failed
  split at failed
  · cases failed
  · next nonempty whole =>
    cases failed
    rw [whole] at reports
    exact ⟨nonempty, reports⟩

end FunctionTable

/-- Definitions stand where their first words do. -/
theorem Definition.positions_sublist {ds : List Definition} {ts : List Token}
    (rendered : Renders Eq (.program ds) ts) :
    (ds.map Definition.position).Sublist (ts.map Token.position) := by
  induction ds generalizing ts with
  | nil => exact List.nil_sublist _
  | cons d ds ih =>
    cases rendered with
    | moreDefinitions place _ later =>
      rw [List.map_cons, List.map_cons, List.map_cons, List.map_append, place]
      exact (((ih later).trans (List.sublist_append_right _ _)).cons _).cons_cons _

/-! ## Sources -/

namespace Program

theorem reports_of_ofDefinitions {ds : List Definition} {errors : List Diagnostic}
    (failed : ofDefinitions ds = .error errors) :
    errors ≠ [] ∧ Reports .definitions (ds.map Definition.position) errors := by
  apply FunctionTable.reports_of_ofDefinitions
  rw [ofDefinitions] at failed
  cases table : FunctionTable.ofDefinitions ds with
  | ok t =>
    rw [table] at failed
    cases failed
  | error _ =>
    rw [table] at failed
    cases failed
    rfl

/-- The phase that fails first gives all the errors. -/
theorem ofSource_eq_error {source : String} {errors : List Diagnostic}
    (failed : ofSource source = .error errors) :
    Token.ofSource source = .error errors ∨ ∃ tokens, Token.ofSource source = .ok tokens ∧
      (Definition.ofTokens tokens = .error errors ∨ ∃ ds, Definition.ofTokens tokens = .ok ds ∧
        ofDefinitions ds = .error errors) := by
  rw [ofSource] at failed
  cases words : Token.ofSource source with
  | error _ =>
    rw [words] at failed
    cases failed
    exact .inl rfl
  | ok tokens =>
    rw [words] at failed
    refine .inr ⟨tokens, rfl, ?_⟩
    replace failed : (Definition.ofTokens tokens >>= ofDefinitions) = .error errors := failed
    cases grammar : Definition.ofTokens tokens with
    | error _ =>
      rw [grammar] at failed
      cases failed
      exact .inl rfl
    | ok ds =>
      rw [grammar] at failed
      exact .inr ⟨ds, rfl, failed⟩

theorem exists_reports {source : String} {errors : List Diagnostic}
    (failed : ofSource source = .error errors) :
    errors ≠ [] ∧ ∃ phase, Reports phase (Position.start.places (Text.encode source)) errors := by
  rcases ofSource_eq_error failed with words | ⟨tokens, words, grammar | ⟨ds, grammar, failed⟩⟩
  · obtain ⟨nonempty, reports⟩ := Token.reports_of_ofBytes words
    exact ⟨nonempty, _, reports⟩
  · obtain ⟨front, ending, rfl, standing⟩ := Token.exists_front_of_ofBytes words
    obtain ⟨nonempty, reports⟩ := Definition.reports_of_ofTokens grammar
    exact ⟨nonempty, _, reports.mono standing⟩
  · obtain ⟨front, ending, rfl, standing⟩ := Token.exists_front_of_ofBytes words
    obtain ⟨nonempty, reports⟩ := reports_of_ofDefinitions failed
    have rendered := Definition.ofTokens_eq_ok_iff.mp grammar
    have prefixed : beforeEnd (front ++ [⟨.eof, ending⟩]) <+: front ++ [⟨.eof, ending⟩] :=
      List.takeWhile_prefix _
    have among := (Definition.positions_sublist rendered).trans (prefixed.sublist.map _)
    rw [List.map_append] at among
    exact ⟨nonempty, _, reports.mono (among.trans standing)⟩

end Program

/-- A source that is refused has errors.  All of them are of one phase, each is reported strictly
after those before it, so no two at one place, and each at a byte of the source or at its end. -/
theorem errors_ordered_and_located {source : String} {errors : List Diagnostic}
    (failed : Program.ofSource source = .error errors) :
    errors ≠ [] ∧
      (∃ phase, ∀ d ∈ errors, d.code.phase = phase) ∧
      (errors.map Diagnostic.position).Pairwise Position.Precedes ∧
      (errors.map Diagnostic.position).Nodup ∧
      ∀ d ∈ errors, ∃ before, before <+: Text.encode source ∧ d.position = .past before := by
  obtain ⟨nonempty, phase, reports⟩ := Program.exists_reports failed
  have ordered : (errors.map Diagnostic.position).Pairwise Position.Precedes :=
    (Position.pairwise_places _ _).sublist reports.sublist
  refine ⟨nonempty, ⟨phase, reports.phase_eq⟩, ordered, ?_, ?_⟩
  · exact ordered.imp Position.Precedes.ne
  · intro d member
    have among := reports.sublist.subset (List.mem_map_of_mem member)
    exact Position.exists_past [] among

/-- A name that is no call, reported at its statement, and a sign where an expression should be,
reported there. -/
theorem errors_ordered_and_located_of_two_slips :
    let source := "func f() \x7b x; \x7d\nfunc g() \x7b return 1 + ; \x7d"
    let errors : List Diagnostic :=
      [⟨.expectedStatement, ⟨1, 12⟩⟩, ⟨.expectedExpression (.sign .semicolon), ⟨2, 23⟩⟩]
    Program.ofSource source = .error errors ∧
      (errors.map Diagnostic.position).Pairwise Position.Precedes ∧
      ∀ d ∈ errors, ∃ before, before <+: Text.encode source ∧ d.position = .past before := by
  intro source errors
  have failed : Program.ofSource source = .error errors := by with_unfolding_all rfl
  obtain ⟨-, -, ordered, -, located⟩ := errors_ordered_and_located failed
  exact ⟨failed, ordered, located⟩

end Protoscript
