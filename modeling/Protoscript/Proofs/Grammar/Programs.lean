import Mathlib.Data.List.TakeWhile
import Protoscript.Proofs.Grammar.Canonical
import Protoscript.Proofs.Grammar.Completeness
import Protoscript.Proofs.Grammar.Places
import Protoscript.Proofs.Grammar.Soundness

/-! # Reading is the inverse of rendering

The definitions that a token list holds are those that its tokens before the first end mark render:
`ofTokens_eq_ok_iff`.  So reading gives a rendered program back up to places, and whatever is read
has been rendered. -/

set_option autoImplicit false

namespace Protoscript

/-- The tokens before the first end mark. -/
def beforeEnd (tokens : List Token) : List Token := tokens.takeWhile fun t => t.kind ≠ .eof

theorem beforeEnd_before {c : Cursor} {ts : List Token} (free : ∀ t ∈ ts, t.kind ≠ .eof)
    (ends : c.kind = .eof) : beforeEnd (c.before ts).rest = ts := by
  have none : c.rest.takeWhile (fun t => decide (t.kind ≠ .eof)) = [] := by
    obtain ⟨_ | ⟨t, rest⟩, ending⟩ := c
    · rfl
    · have ends : t.kind = .eof := ends
      simp [ends]
  rw [beforeEnd, Cursor.before, List.takeWhile_append_of_pos (by simpa using free), none,
    List.append_nil]

theorem beforeEnd_concat (front : List Token) {last : Token} (ends : last.kind = .eof) :
    beforeEnd (front ++ [last]) = beforeEnd front := by
  induction front with
  | nil => simp [beforeEnd, ends]
  | cons t front ih =>
    simp only [beforeEnd, List.cons_append, List.takeWhile_cons] at ih ⊢
    rw [ih]

theorem beforeEnd_ofTokens (tokens : List Token) :
    beforeEnd (Cursor.ofTokens tokens).rest = beforeEnd tokens := by
  rcases tokens.eq_nil_or_concat with rfl | ⟨front, last, rfl⟩
  · rfl
  rw [List.concat_eq_append, Cursor.ofTokens, List.getLast?_concat]
  dsimp only
  split
  · next ends =>
    rw [List.dropLast_concat]
    exact (beforeEnd_concat front ends).symm
  · rfl

/-- A cursor stands before the tokens up to the first end mark. -/
theorem Cursor.exists_end (c : Cursor) :
    ∃ d : Cursor, c = d.before (beforeEnd c.rest) ∧ d.kind = .eof := by
  obtain ⟨rest, ending⟩ := c
  induction rest with
  | nil => exact ⟨⟨[], ending⟩, rfl, rfl⟩
  | cons t rest ih =>
    by_cases ends : t.kind = .eof
    · exact ⟨⟨t :: rest, ending⟩, by simp [beforeEnd, ends], ends⟩
    · obtain ⟨d, same, atEnd⟩ := ih
      have more : beforeEnd (t :: rest) = t :: beforeEnd rest :=
        List.takeWhile_cons_of_pos (by simpa using ends)
      refine ⟨d, ?_, atEnd⟩
      rw [more, before_cons, ← same]
      rfl

theorem Cursor.length_ofTokens_le (tokens : List Token) :
    (Cursor.ofTokens tokens).rest.length ≤ tokens.length := by
  rw [Cursor.ofTokens]
  split
  · simp
  · split <;> simp

namespace Definition

theorem definition_of_renders {fuel : Nat} {d : Definition} {ts : List Token} {q : Position}
    {c : Cursor} (rendered : Renders Eq (.function d) ts)
    (enough : 16 * (c.before ts).rest.length + 1 ≤ fuel) :
    Reader.definition fuel (((c.before ts).push (nameToken d.name q)).push
      (Keyword.func.token d.position)) = .ok d c := by
  rw [Reader.definition, Reader.position_bind, Reader.expect_push, Reader.identifier_push]
  exact Reader.completes_of_renders rendered fuel enough

/-- In front of anything, what has been rendered is read first. -/
theorem readAll_before {fuel count : Nat} {ds : List Definition} {ts : List Token} {c : Cursor}
    (rendered : Renders Eq (.program ds) ts) (enough : 16 * (c.before ts).rest.length ≤ fuel)
    (steps : (c.before ts).rest.length < count) :
    ∃ left, c.rest.length < left ∧ readAll fuel count (c.before ts) =
      ((readAll fuel left c).1, ds ++ (readAll fuel left c).2) := by
  induction ds generalizing ts count with
  | nil =>
    cases rendered with
    | noDefinitions => exact ⟨count, steps, rfl⟩
  | cons d ds ih =>
    cases rendered with
    | @moreDefinitions _ _ p q ts us place function later =>
      obtain ⟨count, rfl⟩ := Nat.exists_eq_add_one_of_ne_zero (Nat.ne_zero_of_lt steps)
      obtain rfl := place
      simp only [Cursor.before_cons, Cursor.before_append] at enough steps ⊢
      have first : 16 * ((c.before us).before ts).rest.length + 1 ≤ fuel := by
        simp at enough ⊢
        omega
      have reads := definition_of_renders (q := q) function first
      have fewer : (c.before us).rest.length < count := by
        simp at steps ⊢
        omega
      obtain ⟨left, more, rest⟩ := ih later (by simp at enough ⊢; omega) fewer
      refine ⟨left, more, ?_⟩
      rw [readAll, Cursor.kind_push]
      dsimp only
      rw [reads]
      dsimp only
      rw [rest, List.cons_append]

theorem readAll_of_renders {fuel count : Nat} {ds : List Definition} {ts : List Token} {c : Cursor}
    (rendered : Renders Eq (.program ds) ts) (ends : c.kind = .eof)
    (enough : 16 * (c.before ts).rest.length ≤ fuel) (steps : (c.before ts).rest.length < count) :
    readAll fuel count (c.before ts) = ([], ds) := by
  obtain ⟨left, more, read⟩ := readAll_before rendered enough steps
  obtain ⟨left, rfl⟩ := Nat.exists_eq_add_one_of_ne_zero (Nat.ne_zero_of_lt more)
  have atEnd : readAll fuel (left + 1) c = ([], []) := by rw [readAll, ends]
  rw [read, atEnd, List.append_nil]

theorem takes_definition (fuel : Nat) (c : Cursor) :
    Reader.Takes c (Reader.definition fuel) fun ts d => ∃ p q us,
      ts = Keyword.func.token p :: nameToken d.name q :: us ∧ d.position = p ∧
        Renders Eq (.function d) us := by
  rw [Reader.definition]
  refine .position (.expect nofun ?_)
  rintro p c rfl
  refine .identifier ?_
  rintro name q c rfl
  refine ((Reader.sound fuel).function name p c).imp ?_
  rintro ts d ⟨rfl, place, rendered⟩
  exact ⟨p, q, ts, rfl, place, rendered⟩

theorem renders_of_readAll {fuel count : Nat} {ds : List Definition} {c : Cursor}
    (read : readAll fuel count c = ([], ds)) (steps : c.rest.length < count) :
    ∃ ts d, c = Cursor.before d ts ∧ d.kind = .eof ∧ Renders Eq (.program ds) ts := by
  induction count generalizing ds c with
  | zero => omega
  | succ count ih =>
    rw [readAll] at read
    split at read
    · next ends =>
      cases read
      exact ⟨[], c, rfl, ends, .noDefinitions⟩
    · split at read
      · next d b first =>
        obtain ⟨errors, rfl⟩ := Prod.mk.inj read
        obtain ⟨_, rfl, p, q, us, rfl, place, rendered⟩ := takes_definition fuel c d b first
        obtain ⟨ts, e, rfl, ends, later⟩ :=
          ih (Prod.ext errors rfl) (by simp at steps; omega)
        exact ⟨_, e, by simp, ends, .moreDefinitions (q := q) place rendered later⟩
      · cases read
    · cases read

/-- The definitions that tokens hold are those that they render up to the first end mark. -/
theorem ofTokens_eq_ok_iff {tokens : List Token} {ds : List Definition} :
    ofTokens tokens = .ok ds ↔ Renders Eq (.program ds) (beforeEnd tokens) := by
  have short := Cursor.length_ofTokens_le tokens
  have front := beforeEnd_ofTokens tokens
  constructor
  · intro read
    have all : readAll (readingFuel tokens.length) (tokens.length + 1) (Cursor.ofTokens tokens) =
        ([], ds) := by
      rw [ofTokens] at read
      split at read
      · next all =>
        cases read
        exact all
      · cases read
    obtain ⟨ts, d, same, ends, rendered⟩ := renders_of_readAll all (by omega)
    rwa [← front, same, beforeEnd_before rendered.kind_ne_eof ends]
  · intro rendered
    obtain ⟨c, same, ends⟩ := (Cursor.ofTokens tokens).exists_end
    rw [front] at same
    rw [same] at short
    have all : readAll (readingFuel tokens.length) (tokens.length + 1) (Cursor.ofTokens tokens) =
        ([], ds) := by
      rw [same]
      exact readAll_of_renders rendered ends (by rw [readingFuel]; omega) (by omega)
    rw [ofTokens, all]

/-- Whether tokens of the kinds render the definitions, wherever they stand. -/
def RenderedAs (ds : List Definition) (kinds : List TokenKind) : Prop :=
  ∃ ts, ts.map Token.kind = kinds ∧ Renders anywhere (.program ds) ts

/-- Reading undoes rendering: well-formed definitions have their canonical rendering, and each of
their renderings, at any places and with or without an end mark, is read back up to places. -/
theorem ofTokens_of_renderedAs (ds : List Definition) (wellFormed : ∀ d ∈ ds, d.WellFormed) :
    RenderedAs ds (programKinds ds) ∧
      ∀ tokens, RenderedAs ds ((beforeEnd tokens).map Token.kind) →
        ∃ ds', ofTokens tokens = .ok ds' ∧ ds'.map unplaced = ds.map unplaced := by
  refine ⟨⟨_, map_kind_atStart _, renders_programKinds wellFormed⟩, ?_⟩
  rintro tokens ⟨us, same, rendered⟩
  obtain ⟨ds', alike, placed⟩ := rendered.placedAt same.symm
  exact ⟨ds', ofTokens_eq_ok_iff.mpr placed, alike⟩

/-- A call with parentheses around its argument and a comma behind it. -/
theorem ofTokens_of_spare_parens :
    ∃ ds', ofTokens [Keyword.func.token ⟨1, 1⟩, nameToken "main" ⟨1, 6⟩,
        Sign.leftParen.token ⟨1, 10⟩, Sign.rightParen.token ⟨1, 11⟩, Sign.leftBrace.token ⟨1, 13⟩,
        nameToken "f" ⟨2, 1⟩, Sign.leftParen.token ⟨2, 2⟩, Sign.leftParen.token ⟨2, 3⟩,
        ⟨.int 1, ⟨2, 4⟩⟩, Sign.rightParen.token ⟨2, 5⟩, Sign.comma.token ⟨2, 6⟩,
        Sign.rightParen.token ⟨2, 7⟩, Sign.semicolon.token ⟨2, 8⟩, Sign.rightBrace.token ⟨3, 1⟩] =
          .ok ds' ∧
      ds'.map unplaced =
        [⟨"main", [], [.call (.call "f" [.int 1 .start] .start)], .start⟩].map unplaced := by
  refine (ofTokens_of_renderedAs [⟨"main", [], [.call (.call "f" [.int 1 .start] .start)], .start⟩]
    ?_).2 _ ?_
  · simp [WellFormed, Stmt.AllWellFormed, Stmt.WellFormed, Expr.WellFormed, Expr.AllWellFormed,
      Expr.isCall]
  · have one : Renders anywhere (.expr loosest (.int 1 .start)) [⟨.int 1, .start⟩] :=
      .loosen_le (.atom rfl trivial) (by decide)
    have argument : Renders anywhere (.expr loosest (.int 1 .start))
        (inParens .start .start [⟨.int 1, .start⟩]) := one.group.loosen_le (by decide)
    have call : Renders anywhere (.expr loosest (.call "f" [.int 1 .start] .start))
        (nameToken "f" .start :: inParens .start .start
          (inParens .start .start [⟨.int 1, .start⟩] ++ [Sign.comma.token .start])) :=
      .loosen_le (.call trivial (argument.moreArgs .noArgs)) (by decide)
    have body := (call.callStmt (p := .start) rfl).moreStmts .noStmts
    have function : Renders anywhere
        (.function ⟨"main", [], [.call (.call "f" [.int 1 .start] .start)], .start⟩) _ :=
      .function (p := .start) (q := .start) .noParams (body.block (p := .start) (q := .start))
    refine ⟨_, ?_, .moreDefinitions (p := .start) (q := .start) trivial function .noDefinitions⟩
    rfl

/-- Only renderings are read: the tokens up to the first end mark are the canonical ones with
parentheses and commas put in as the grammar allows, every place is exact, and tokens behind the
first end mark do not matter. -/
theorem renders_of_ofTokens {tokens : List Token} {ds : List Definition}
    (read : ofTokens tokens = .ok ds) :
    Renders Eq (.program ds) (beforeEnd tokens) ∧
      Padded (programKinds ds) ((beforeEnd tokens).map Token.kind) ∧
      (∀ d ∈ ds, d.WellFormed) ∧
      ∀ others, beforeEnd others = beforeEnd tokens → ofTokens others = .ok ds := by
  have rendered := ofTokens_eq_ok_iff.mp read
  refine ⟨rendered, rendered.padded, rendered.wellFormed, ?_⟩
  intro others same
  rw [ofTokens_eq_ok_iff, same]
  exact rendered

/-- The same call, before an end mark with a word behind it. -/
theorem renders_of_spare_parens :
    Renders Eq (.program [⟨"main", [], [.call (.call "f" [.int 1 ⟨2, 4⟩] ⟨2, 1⟩)], ⟨1, 1⟩⟩])
        (beforeEnd [Keyword.func.token ⟨1, 1⟩, nameToken "main" ⟨1, 6⟩,
          Sign.leftParen.token ⟨1, 10⟩, Sign.rightParen.token ⟨1, 11⟩,
          Sign.leftBrace.token ⟨1, 13⟩, nameToken "f" ⟨2, 1⟩, Sign.leftParen.token ⟨2, 2⟩,
          Sign.leftParen.token ⟨2, 3⟩, ⟨.int 1, ⟨2, 4⟩⟩, Sign.rightParen.token ⟨2, 5⟩,
          Sign.comma.token ⟨2, 6⟩, Sign.rightParen.token ⟨2, 7⟩, Sign.semicolon.token ⟨2, 8⟩,
          Sign.rightBrace.token ⟨3, 1⟩, ⟨.eof, ⟨3, 2⟩⟩, nameToken "f" ⟨3, 2⟩]) :=
  (renders_of_ofTokens (by rfl)).1

end Definition

end Protoscript
