import Protoscript.Proofs.Bounds.Reading
import Protoscript.Proofs.Bounds.Scanning
import Protoscript.Proofs.DefinitionsInFront
import Protoscript.Proofs.Diagnostics.Reading

/-! # Bounds and progress of the front end

Neither the scan of a source nor the reading of a token list ever leaves its input, stands still or
goes on without end (`front_end_in_bounds`).  Both are followed by index: `Scan.tokens` and
`Tape.definitions` check every single read, every turn of a loop and every result for having moved
on, and come to the same tokens, definitions and errors without having tripped. -/

set_option autoImplicit false

namespace Protoscript

/-- Where the reader comes to a result, it has taken a token at least. -/
def Reader.Consumes {α : Type} (x : Reader α) : Prop :=
  ∀ c v d, x c = .ok v d → d.rest.length < c.rest.length

namespace Cursor

theorem recover_of_stops {c : Cursor} (stops : c.kind.Stops) : c.recover = c :=
  Definition.recover_before stops (List.forall_mem_nil _)

theorem recover_of_other {c : Cursor} (other : ¬ c.kind.Stops) : c.recover = c.advance.recover := by
  obtain ⟨_ | ⟨t, rest⟩, ending⟩ := c
  · exact absurd (.inr rfl) other
  · obtain ⟨notFunc, notEnd⟩ := not_or.mp other
    rw [kind] at notFunc notEnd
    simp [recover, advance, notFunc, notEnd]

end Cursor

namespace Reader

theorem definition_ne_exhausted {fuel : Nat} {c d : Cursor} (here : c.kind = .keyword .func)
    (enough : 16 * c.rest.length ≤ fuel) : definition fuel c ≠ .error .exhausted d := by
  obtain ⟨_ | ⟨⟨k, p⟩, body⟩, ending⟩ := c
  · cases here
  · obtain rfl : k = .keyword .func := here
    have atEnd : Cursor.SameStop ⟨[], ending⟩ ⟨[], ending⟩ := ⟨rfl, rfl, .inr rfl⟩
    have least : 16 * body.length + 1 ≤ fuel := by
      simp only [List.length_cons] at enough
      omega
    have same := Definition.definition_abreast atEnd (p := p) least least
    have whole : Cursor.before ⟨[], ending⟩ (Keyword.func.token p :: body) =
        ⟨⟨.keyword .func, p⟩ :: body, ending⟩ :=
      congrArg (Cursor.mk · ending) (List.append_nil _)
    rw [whole] at same
    intro run
    rw [run] at same
    cases same

end Reader

namespace Tape

variable {α : Type} {tokens : List Token} {i j fuel turns : Nat} {c d : Cursor}

theorem faces_ofTokens (tokens : List Token) :
    Faces (closed tokens) 0 (Cursor.ofTokens tokens) := by
  rw [Faces, List.drop_zero, closed, Cursor.ofTokens]
  rcases tokens.eq_nil_or_concat with rfl | ⟨front, last, rfl⟩
  · rfl
  · rw [List.concat_eq_append, List.getLast?_concat]
    obtain ⟨k, p⟩ := last
    by_cases ends : k = .eof
    · subst ends
      simp
    · simp [ends]

theorem recover_run (faces : Faces tokens i c) (enough : c.rest.length < turns) :
    ∃ j, recover tokens turns i = .ok () j ∧ Faces tokens j c.recover := by
  induction turns generalizing i c with
  | zero => cases enough
  | succ turns ih =>
    by_cases stops : c.kind.Stops
    · refine ⟨i, ?_, by rwa [Cursor.recover_of_stops stops]⟩
      change (kind tokens >>= _) i = _
      rw [bind_of_run (kind_run faces), if_pos (Or.comm.mp stops)]
      rfl
    · obtain ⟨j, run, next, -, moved⟩ := advance_run faces
      obtain rfl := moved fun ends => stops (.inr ends)
      have some := List.length_pos_iff.mpr (Cursor.rest_ne_nil fun ends => stops (.inr ends))
      have shorter : c.advance.rest.length < turns := by
        rw [Cursor.advance, List.length_tail]
        omega
      obtain ⟨j, later, ends⟩ := ih next shorter
      rw [Cursor.recover_of_other stops]
      refine ⟨j, ?_, ends⟩
      change (kind tokens >>= _) i = _
      rw [bind_of_run (kind_run faces), if_neg fun either => stops (Or.comm.mp either),
        bind_of_run run, bind_of_run (onward_run (Nat.lt_succ_self i)), later]

theorem report_run (faces : Faces tokens i c) (e : Diagnostic) :
    ∃ j, report tokens e i = .ok (.error e) j ∧ Faces tokens j c.recover := by
  have length := faces.length
  obtain ⟨j, run, ends⟩ := recover_run faces (show c.rest.length < tokens.length by omega)
  refine ⟨j, ?_, ends⟩
  rw [report, bind_of_run run]
  rfl

theorem follows_definition (fuel : Nat) :
    Follows tokens i (i + 1) (definition tokens fuel) (Reader.definition fuel) := by
  refine .position fun p => .expect (by decide) (.identifier fun name _ => ?_)
  exact ((allFollow tokens fuel).function _ name p).mono (by omega)

theorem attempt_of_ok {x : Tape α} {a : α} (run : x i = .ok a j) :
    attempt x i = .ok (.ok a) j := by
  rw [attempt, run]

theorem attempt_of_refused {x : Tape α} {e : Diagnostic} (run : x i = .error (.refused e) j) :
    attempt x i = .ok (.error e) j := by
  rw [attempt, run]

/-- A turn of the loop over the definitions ends further on, where the loop goes on. -/
def Turns (tokens : List Token) (fuel i : Nat) (c : Cursor) : Prop :=
  ∃ found j d, turn tokens fuel i = .ok found j ∧ Faces tokens j d ∧
    d.rest.length < c.rest.length ∧ ∀ count, Definition.readAll fuel (count + 1) c =
      together (found.map some) (Definition.readAll fuel count d)

theorem turns_of_func (faces : Faces tokens i c) (here : c.kind = .keyword .func)
    (enough : 16 * c.rest.length ≤ fuel) : Turns tokens fuel i c := by
  have same := follows_definition fuel c faces
  have fuelled := fun d => Reader.definition_ne_exhausted (d := d) here enough
  have located := Reader.located_definition fuel here
  generalize run : definition tokens fuel i = r at same
  generalize run' : Reader.definition fuel c = r' at same fuelled located
  cases same with
  | @ok j d a ends moved =>
    refine ⟨.ok a, j, d, ?_, ends, ?_, fun count => ?_⟩
    · rw [turn, bind_of_run (kind_run faces), if_pos here, bind_of_run (attempt_of_ok run)]
      rfl
    · have := ends.length
      have := faces.length
      omega
    · rw [Definition.readAll_func here, run']
      rfl
  | @refused j d e ends =>
    obtain ⟨j', reported, ends'⟩ := report_run ends e
    refine ⟨.error e, j', d.recover, ?_, ends', ?_, fun count => ?_⟩
    · rw [turn, bind_of_run (kind_run faces), if_pos here, bind_of_run (attempt_of_refused run)]
      exact reported
    · -- An error may leave all of the definition but its first word.
      have some := List.length_pos_iff.mpr (Cursor.rest_ne_nil (c := c) (by rw [here]; decide))
      cases located with
      | error passed reached =>
        have left := (reached.1.trans passed.1).length_le
        rw [Cursor.advance, List.length_tail] at left
        have := Definition.length_recover_le d
        omega
    · rw [Definition.readAll_func here, run']
      rfl
  | exhausted => exact absurd rfl (fuelled _)

theorem turns_of_other (faces : Faces tokens i c) (other : ¬ c.kind.Stops) :
    Turns tokens fuel i c := by
  let e : Diagnostic := ⟨.expectedDefinition c.kind, c.position⟩
  obtain ⟨j, reported, ends⟩ := report_run faces e
  refine ⟨.error e, j, c.recover, ?_, ends, Cursor.length_recover_lt other, fun count => ?_⟩
  · rw [turn, bind_of_run (kind_run faces), if_neg fun func => other (.inl func),
      bind_of_run (position_run faces)]
    exact reported
  · rw [Definition.readAll_other other]
    rfl

/-- Every turn moves on, so there are enough of them to get to the end. -/
theorem readAll_run (faces : Faces tokens i c) (enough : c.rest.length < turns)
    (fuelled : 16 * c.rest.length ≤ fuel) :
    ∃ j, readAll tokens fuel turns i = .ok (Definition.readAll fuel turns c) j := by
  induction turns generalizing i c with
  | zero => cases enough
  | succ turns ih =>
    by_cases ends : c.kind = .eof
    · refine ⟨i, ?_⟩
      rw [readAll, bind_of_run (kind_run faces), if_pos ends, Definition.readAll, ends]
      rfl
    · have turns : Turns tokens fuel i c := by
        by_cases func : c.kind = .keyword .func
        · exact turns_of_func faces func fuelled
        · exact turns_of_other faces fun stops => stops.elim func ends
      obtain ⟨found, j, d, run, next, shorter, reads⟩ := turns
      obtain ⟨j', later⟩ := ih next (by omega) (by omega)
      have moved : i < j := by
        have := faces.length
        have := next.length
        omega
      refine ⟨j', ?_⟩
      rw [readAll, bind_of_run (kind_run faces), if_neg ends]
      change (turn tokens fuel >>= _) i = _
      rw [bind_of_run run, bind_of_run (onward_run moved), bind_of_run later, reads]
      rfl

/-- The reading never trips, and comes to the definitions or the errors of the list. -/
theorem definitions_eq (tokens : List Token) :
    definitions tokens = .ok (Definition.ofTokens tokens) := by
  have short := Cursor.length_ofTokens_le tokens
  have fuelled : 16 * (Cursor.ofTokens tokens).rest.length ≤
      Definition.readingFuel tokens.length := by
    rw [Definition.readingFuel]
    omega
  obtain ⟨j, run⟩ := readAll_run (faces_ofTokens tokens) (Nat.lt_succ_of_le short) fuelled
  rw [definitions, run, Definition.ofTokens]
  generalize Definition.readAll _ _ _ = r
  obtain ⟨_ | ⟨e, errors⟩, found⟩ := r <;> rfl

/-- What follows a reading by index that ends behind its first token consumes a token. -/
theorem consumes_of_follows {x : List Token → Tape α} {y : Reader α}
    (follows : ∀ tokens, Follows tokens 0 1 (x tokens) y) : y.Consumes := by
  intro c v d run
  have faces : Faces (c.rest ++ [⟨.eof, c.ending⟩]) 0 c := rfl
  have same := follows _ c faces
  rw [run] at same
  generalize x _ 0 = r at same
  cases same with
  | ok v ends moved =>
    have := faces.length
    have := ends.length
    omega

end Tape

/-- The front end is total and stays in bounds.  Scanning any source by index comes to its tokens or
its errors without a trip: no byte outside of it is read, each call for a token takes a byte, and
every loop ends.  Reading any list of tokens by index, with end marks anywhere or none, comes to its
definitions or its errors without a trip: no token outside of it is read and no index moves there,
every turn of a loop moves on, and the loop over the definitions need not be moved on by force.  An
expression or a statement that is read takes a token, wherever it is read. -/
theorem front_end_in_bounds :
    (∀ source : List UInt8, Scan.tokens source = .ok (Token.ofBytes source)) ∧
      (∀ tokens : List Token, Tape.definitions tokens = .ok (Definition.ofTokens tokens)) ∧
      ∀ fuel : Nat, (Reader.expr fuel).Consumes ∧ (∀ level, (Reader.tier fuel level).Consumes) ∧
        (Reader.unary fuel).Consumes ∧ (Reader.primary fuel).Consumes ∧
        (Reader.stmt fuel).Consumes ∧ (Reader.assignment fuel).Consumes ∧
        (Reader.callStmt fuel).Consumes := by
  refine ⟨Scan.tokens_eq, Tape.definitions_eq, fun fuel => ?_⟩
  have follow := fun tokens => Tape.allFollow tokens fuel
  refine ⟨?_, fun level => ?_, ?_, ?_, ?_, ?_, ?_⟩
  · exact Tape.consumes_of_follows fun tokens => (follow tokens).expr 0
  · exact Tape.consumes_of_follows fun tokens => (follow tokens).tier 0 level
  · exact Tape.consumes_of_follows fun tokens => (follow tokens).unary 0
  · exact Tape.consumes_of_follows fun tokens => (follow tokens).primary 0
  · exact Tape.consumes_of_follows fun tokens => (follow tokens).stmt 0
  · exact Tape.consumes_of_follows fun tokens => (follow tokens).assignment 0
  · exact Tape.consumes_of_follows fun tokens => (follow tokens).callStmt 0

end Protoscript
