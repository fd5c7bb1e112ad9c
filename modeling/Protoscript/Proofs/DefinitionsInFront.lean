import Protoscript.Proofs.Recovery

/-! # Definitions in front of other tokens

Definitions that are fine on their own are read the same in front of any tokens, broken ones and
ones with an end mark among them too, and then those tokens are read as they are on their own:
`Definition.ofTokens_after_definitions`.

The list with the definitions in front is longer, so what follows them is read there with more fuel
than alone.  Hence the other half: from any cursor the loop comes to the same with any fuel that is
enough (`readAll_congr`), since reading one definition does (`definition_congr`). -/

set_option autoImplicit false

namespace Protoscript

namespace Cursor

/-- A cursor stands before some tokens that are no stops, and then a stop. -/
theorem exists_stop (c : Cursor) :
    ∃ (s : Cursor) (front : List Token), c = s.before front ∧ s.kind.Stops ∧
      ∀ t ∈ front, ¬ t.kind.Stops := by
  obtain ⟨rest, ending⟩ := c
  induction rest with
  | nil => exact ⟨⟨[], ending⟩, [], rfl, .inr rfl, nofun⟩
  | cons t rest ih =>
    by_cases stops : t.kind.Stops
    · exact ⟨⟨t :: rest, ending⟩, [], rfl, stops, nofun⟩
    · obtain ⟨s, front, same, atStop, free⟩ := ih
      refine ⟨s, t :: front, ?_, atStop, List.forall_mem_cons.mpr ⟨stops, free⟩⟩
      rw [before_cons, ← same]
      rfl

theorem length_recover_lt {c : Cursor} (other : ¬ c.kind.Stops) :
    c.recover.rest.length < c.rest.length := by
  obtain ⟨s, front, rfl, stops, free⟩ := c.exists_stop
  cases front with
  | nil => exact absurd stops other
  | cons t front =>
    rw [Definition.recover_before stops free, length_before, List.length_cons]
    omega

/-- The end of a list is that of its last part, if there is one. -/
theorem ofTokens_append (A : List Token) {B : List Token} (some : B ≠ []) :
    ofTokens (A ++ B) = (ofTokens B).before A := by
  obtain ⟨front, last, rfl⟩ := (List.eq_nil_or_concat B).resolve_left some
  rw [List.concat_eq_append, ← List.append_assoc, ofTokens, ofTokens, List.getLast?_concat,
    List.getLast?_concat]
  dsimp only
  split
  · rw [List.dropLast_concat, List.dropLast_concat]
    rfl
  · rw [List.append_assoc]
    rfl

end Cursor

namespace Definition

/-- A definition is read the same with any fuel that is enough, and reading gets on. -/
theorem definition_congr {c : Cursor} (here : c.kind = .keyword .func) {fuel other : Nat}
    (enough : 16 * c.rest.length ≤ fuel) (enough' : 16 * c.rest.length ≤ other) :
    Reader.definition fuel c = Reader.definition other c ∧
      match Reader.definition fuel c with
      | .ok _ d | .error _ d => d.rest.length < c.rest.length := by
  obtain ⟨p, behind, rfl⟩ := Cursor.exists_push here nofun
  obtain ⟨s, body, rfl, stops, -⟩ := behind.exists_stop
  rw [Cursor.length_push, Cursor.length_before] at enough enough' ⊢
  have self : s.SameStop s := ⟨rfl, rfl, stops⟩
  have enough : 16 * body.length + 1 ≤ fuel := by omega
  have enough' : 16 * body.length + 1 ≤ other := by omega
  have abreast := definition_abreast self (p := p) enough enough'
  rw [Cursor.before_cons] at abreast
  generalize Reader.definition fuel _ = r at abreast ⊢
  generalize Reader.definition other _ = r' at abreast
  cases abreast with
  | ok d shorter =>
    have := shorter.length_le
    exact ⟨rfl, by simp only [Cursor.length_before]; omega⟩
  | refused d shorter =>
    have := shorter.length_le
    exact ⟨rfl, by simp only [Cursor.length_before]; omega⟩
  | passed d => exact ⟨rfl, by simp only [Cursor.advance, List.length_tail]; omega⟩

/-- The loop over the definitions comes to the same with any fuel and any count that are enough. -/
theorem readAll_congr {c : Cursor} {fuel other count steps : Nat}
    (enough : 16 * c.rest.length ≤ fuel) (enough' : 16 * c.rest.length ≤ other)
    (counts : c.rest.length < count) (counts' : c.rest.length < steps) :
    readAll fuel count c = readAll other steps c := by
  induction count generalizing c steps with
  | zero => omega
  | succ count ih =>
    obtain ⟨steps, rfl⟩ := Nat.exists_eq_add_one_of_ne_zero (Nat.ne_zero_of_lt counts')
    by_cases ends : c.kind = .eof
    · rw [readAll, readAll, ends]
    by_cases here : c.kind = .keyword .func
    · obtain ⟨same, shorter⟩ := definition_congr here enough enough'
      rw [readAll_func here, readAll_func here, ← same]
      generalize Reader.definition fuel c = r at shorter
      cases r with
      | ok d next =>
        have shorter : next.rest.length < c.rest.length := shorter
        have later : readAll fuel count next = readAll other steps next :=
          ih (by omega) (by omega) (by omega) (by omega)
        dsimp only
        rw [later]
      | error stop next =>
        have shorter : next.rest.length < c.rest.length := shorter
        have := length_recover_le next
        have later : readAll fuel count next.recover = readAll other steps next.recover :=
          ih (by omega) (by omega) (by omega) (by omega)
        dsimp only
        rw [later]
    · have noStop : ¬ c.kind.Stops := fun stops => stops.elim here ends
      have := Cursor.length_recover_lt noStop
      have later : readAll fuel count c.recover = readAll other steps c.recover :=
        ih (by omega) (by omega) (by omega) (by omega)
      rw [readAll_other noStop, readAll_other noStop, later]

/-- Definitions in front change nothing for what follows them: where tokens without an end mark
hold the definitions `ds`, a list that starts with them holds `ds` and then the definitions of the
rest, or it has just the errors of the rest, with their places. -/
theorem ofTokens_after_definitions {A B : List Token} {ds : List Definition}
    (free : ∀ t ∈ A, t.kind ≠ .eof) (read : ofTokens A = .ok ds) :
    ofTokens (A ++ B) = match ofTokens B with
      | .ok later => .ok (ds ++ later)
      | .error errors => .error errors := by
  have all : beforeEnd A = A := List.takeWhile_eq_self_iff.mpr (by simpa using free)
  have rendered := ofTokens_eq_ok_iff.mp read
  rw [all] at rendered
  by_cases none : B = []
  · obtain rfl := none
    rw [List.append_nil, read]
    exact congrArg Except.ok (List.append_nil ds).symm
  · have short := Cursor.length_ofTokens_le (A ++ B)
    have shortAlone := Cursor.length_ofTokens_le B
    rw [Cursor.ofTokens_append A none] at short
    have enough : 16 * ((Cursor.ofTokens B).before A).rest.length ≤
        readingFuel (A ++ B).length := by
      rw [readingFuel]
      omega
    obtain ⟨left, more, here⟩ := readAll_before rendered enough (Nat.lt_add_one_of_le short)
    rw [Cursor.length_before] at short
    have alone : readAll (readingFuel (A ++ B).length) left (Cursor.ofTokens B) =
        readAll (readingFuel B.length) (B.length + 1) (Cursor.ofTokens B) :=
      readAll_congr (by rw [readingFuel]; omega) (by rw [readingFuel]; omega) more (by omega)
    rw [ofTokens, ofTokens, Cursor.ofTokens_append A none, here, alone]
    generalize readAll _ _ (Cursor.ofTokens B) = r
    obtain ⟨_ | ⟨e, errors⟩, later⟩ := r <;> rfl

/-- A definition that ends in an `if` without `else`, in front of an `else`, an end mark and a
definition. -/
theorem ofTokens_after_definitions_of_else :
    ofTokens [Keyword.func.token ⟨1, 1⟩, nameToken "f" ⟨1, 6⟩, Sign.leftParen.token ⟨1, 7⟩,
      Sign.rightParen.token ⟨1, 8⟩, Sign.leftBrace.token ⟨1, 10⟩, Keyword.ifWord.token ⟨1, 12⟩,
      Sign.leftParen.token ⟨1, 15⟩, nameToken "x" ⟨1, 16⟩, Sign.rightParen.token ⟨1, 17⟩,
      Sign.leftBrace.token ⟨1, 19⟩, Sign.rightBrace.token ⟨1, 20⟩, Sign.rightBrace.token ⟨1, 22⟩,
      Keyword.elseWord.token ⟨2, 1⟩, ⟨.eof, ⟨2, 5⟩⟩, Keyword.func.token ⟨3, 1⟩] =
        .error [⟨.expectedDefinition (.keyword .elseWord), ⟨2, 1⟩⟩] := by
  have first : ofTokens [Keyword.func.token ⟨1, 1⟩, nameToken "f" ⟨1, 6⟩,
      Sign.leftParen.token ⟨1, 7⟩, Sign.rightParen.token ⟨1, 8⟩, Sign.leftBrace.token ⟨1, 10⟩,
      Keyword.ifWord.token ⟨1, 12⟩, Sign.leftParen.token ⟨1, 15⟩, nameToken "x" ⟨1, 16⟩,
      Sign.rightParen.token ⟨1, 17⟩, Sign.leftBrace.token ⟨1, 19⟩, Sign.rightBrace.token ⟨1, 20⟩,
      Sign.rightBrace.token ⟨1, 22⟩] =
        .ok [⟨"f", [], [.branch (.var "x" ⟨1, 16⟩) [] none ⟨1, 12⟩], ⟨1, 1⟩⟩] := by
    with_unfolding_all rfl
  exact (ofTokens_after_definitions (by decide) first).trans (by with_unfolding_all rfl)

end Definition

end Protoscript
