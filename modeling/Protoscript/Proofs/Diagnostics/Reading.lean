import Protoscript.Proofs.Diagnostics.Words
import Protoscript.Proofs.Grammar.Reading

/-! # Where errors of the grammar stand

A reader moves on through the tokens and never back.  It may report a place that it has already
passed, but none before the token it started from (`Reader.locates`, by induction on the fuel).
Reading goes on behind the place where it stopped, at a definition or at the end, so the next error
stands after this one (`Definition.reports_readAll`). -/

set_option autoImplicit false

namespace Protoscript

/-! ## Cursors -/

namespace Cursor

/-- The places of the tokens that are left, and that of the end mark. -/
def places (c : Cursor) : List Position := c.rest.map Token.position ++ [c.ending]

/-- Moving on through the tokens leads from `c` to `d`. -/
def Reaches (c d : Cursor) : Prop := d.rest <:+ c.rest ∧ d.ending = c.ending

namespace Reaches

variable {b c d : Cursor}

theorem refl (c : Cursor) : c.Reaches c := ⟨List.suffix_refl _, rfl⟩

theorem trans (first : b.Reaches c) (second : c.Reaches d) : b.Reaches d :=
  ⟨second.1.trans first.1, second.2.trans first.2⟩

theorem advance (c : Cursor) : c.Reaches c.advance := ⟨List.tail_suffix _, rfl⟩

theorem places_sublist (reached : c.Reaches d) : d.places.Sublist c.places := by
  obtain ⟨left, same⟩ := reached
  rw [places, places, same]
  exact (left.sublist.map _).append_right _

end Reaches

theorem places_eq (c : Cursor) : c.places = c.position :: c.places.tail := by
  obtain ⟨_ | ⟨t, rest⟩, ending⟩ := c <;> rfl

theorem places_advance {c : Cursor} (more : c.kind ≠ .eof) :
    c.advance.places = c.places.tail := by
  obtain ⟨_ | ⟨t, rest⟩, ending⟩ := c
  · exact absurd rfl more
  · rfl

end Cursor

namespace Reader

/-! ## How a reading ends -/

variable {α β : Type} {start c : Cursor}

/-- A reading that began at `start` has moved on.  If it stopped, then for an error of the grammar
at a place between `start` and where it stopped. -/
inductive Located (start : Cursor) : EStateM.Result ReadStop Cursor α → Prop
  | ok {a : α} {d : Cursor} (reached : start.Reaches d) : Located start (.ok a d)
  | error {stop : ReadStop} {b d : Cursor} (passed : start.Reaches b) (reached : b.Reaches d)
      (place : (stop.diagnostic d).position = b.position)
      (own : (stop.diagnostic d).code.phase = .grammar) : Located start (.error stop d)

theorem Located.mono {r : EStateM.Result ReadStop Cursor α} (located : Located c r)
    (passed : start.Reaches c) : Located start r := by
  cases located with
  | ok reached => exact .ok (passed.trans reached)
  | error before reached place own => exact .error (passed.trans before) reached place own

/-- Run from any place after `start`, `x` reports no place before it. -/
def Locates (start : Cursor) (x : Reader α) : Prop := ∀ c, start.Reaches c → Located start (x c)

namespace Locates

theorem pure (a : α) : Locates start (Pure.pure a : Reader α) := fun _ reached => .ok reached

theorem exhausted : Locates start (throw .exhausted : Reader α) :=
  fun c reached => .error reached (.refl c) rfl rfl

theorem refuse {cause : Diagnostic.Cause} (own : cause.code.phase = .grammar) (start : Cursor) :
    Locates start (Reader.refuse cause start.position : Reader α) :=
  fun _ reached => .error (.refl start) reached rfl own

theorem bind {x : Reader α} {f : α → Reader β} (first : Locates start x)
    (second : ∀ a, Locates start (f a)) : Locates start (x >>= f) := by
  intro c reached
  change Located start (EStateM.bind x f c)
  unfold EStateM.bind
  match x c, first c reached with
  | _, .ok reached => exact second _ _ reached
  | _, .error passed reached place own => exact .error passed reached place own

/-- What is reported of a place comes after it. -/
theorem position {f : Position → Reader β} (later : ∀ c, Locates c (f c.position)) :
    Locates start (Reader.position >>= f) :=
  fun c reached => (later c c (.refl c)).mono reached

theorem kind : Locates start Reader.kind := fun _ reached => .ok reached

theorem get : Locates start (MonadState.get : Reader Cursor) := fun _ reached => .ok reached

theorem advance : Locates start Reader.advance :=
  fun c reached => .ok (reached.trans (.advance c))

theorem accept (wanted : TokenKind) : Locates start (Reader.accept wanted) := by
  apply bind kind
  intro found
  split
  · exact bind advance fun _ => pure true
  · exact pure false

theorem expect (wanted : TokenKind) : Locates start (Reader.expect wanted) := by
  apply bind kind
  intro found
  split
  · exact advance
  · exact position fun c => refuse rfl c

theorem identifier : Locates start Reader.identifier := by
  apply bind kind
  intro found
  apply position
  intro c
  apply bind advance
  intro _
  cases found with
  | ident name => exact pure name
  | _ => exact refuse rfl c

end Locates

/-! ## Readers of the grammar -/

theorem locates_params (fuel : Nat) {start : Cursor} : Locates start (params fuel) := by
  induction fuel generalizing start with
  | zero => exact .exhausted
  | succ fuel ih =>
    unfold params
    apply Locates.bind .kind
    intro found
    split
    · exact .pure []
    · apply Locates.position
      intro c
      apply Locates.bind (.accept _)
      intro byRef
      apply Locates.bind .identifier
      intro name
      apply Locates.bind (.accept _)
      intro more
      split
      · exact Locates.bind ih fun _ => .pure _
      · exact .pure _

/-- With so much fuel, no reader of the grammar reports a place before its start. -/
structure AllLocate (fuel : Nat) : Prop where
  expr : ∀ {start}, Locates start (expr fuel)
  tier : ∀ {start} level, Locates start (tier fuel level)
  chain : ∀ {start} level left, Locates start (chain fuel level left)
  unary : ∀ {start}, Locates start (unary fuel)
  members : ∀ {start} object, Locates start (members fuel object)
  primary : ∀ {start}, Locates start (primary fuel)
  args : ∀ {start}, Locates start (args fuel)
  function : ∀ {start} name place, Locates start (function fuel name place)
  block : ∀ {start}, Locates start (block fuel)
  stmts : ∀ {start}, Locates start (stmts fuel)
  stmt : ∀ {start}, Locates start (stmt fuel)
  branch : ∀ {start}, Locates start (branch fuel)
  loop : ∀ {start}, Locates start (loop fuel)
  ret : ∀ {start}, Locates start (ret fuel)
  assignment : ∀ {start}, Locates start (assignment fuel)
  path : ∀ {start}, Locates start (path fuel)
  callStmt : ∀ {start}, Locates start (callStmt fuel)

namespace AllLocate

variable {fuel : Nat} {start : Cursor} (less : AllLocate fuel)

include less

theorem tier_succ (level : Nat) : Locates start (Reader.tier (fuel + 1) level) := by
  cases level with
  | zero =>
    rw [Reader.tier]
    exact less.unary
  | succ level =>
    rw [Reader.tier]
    exact Locates.bind (less.tier level) fun left => less.chain level left

theorem chain_succ (level : Nat) (left : Expr) :
    Locates start (Reader.chain (fuel + 1) level left) := by
  rw [Reader.chain]
  apply Locates.bind .kind
  intro found
  cases binaryOp? (level + 1) found with
  | none => exact .pure left
  | some op =>
    apply Locates.bind .advance
    intro _
    exact Locates.bind (less.tier level) fun right => less.chain level _

theorem unary_succ : Locates start (Reader.unary (fuel + 1)) := by
  rw [Reader.unary]
  apply Locates.position
  intro c
  apply Locates.bind .kind
  intro found
  cases unaryOp? found with
  | some op =>
    apply Locates.bind .advance
    intro _
    exact Locates.bind less.unary fun _ => .pure _
  | none => exact Locates.bind less.primary fun object => less.members object

theorem members_succ (object : Expr) : Locates start (Reader.members (fuel + 1) object) := by
  rw [Reader.members]
  apply Locates.bind (.accept _)
  intro dotted
  split
  · apply Locates.bind .identifier
    intro name
    apply Locates.bind (.accept _)
    intro called
    split
    · apply Locates.bind less.args
      intro args
      exact Locates.bind (.expect _) fun _ => less.members _
    · exact less.members _
  · exact .pure object

theorem primary_succ : Locates start (Reader.primary (fuel + 1)) := by
  refine .position fun c => .bind .kind fun found => ?_
  cases found with
  | int value => exact .bind .advance fun _ => .pure _
  | bool value => exact .bind .advance fun _ => .pure _
  | str text => exact .bind .advance fun _ => .pure _
  | nil => exact .bind .advance fun _ => .pure _
  | ident name =>
    refine .bind .advance fun _ => .bind (.accept _) fun called => ?_
    split
    · refine .bind less.args fun args => ?_
      exact .bind (.expect _) fun _ => .pure _
    · exact .pure _
  | keyword word =>
    cases word with
    | lambda =>
      refine .bind .advance fun _ => .bind (less.function "lambda" _) ?_
      exact fun _ => .pure _
    | _ => exact .refuse rfl c
  | sign s =>
    cases s with
    | atSign => exact .bind .advance fun _ => .pure _
    | leftParen =>
      refine .bind .advance fun _ => .bind less.expr fun inner => ?_
      exact .bind (.expect _) fun _ => .pure _
    | _ => exact .refuse rfl c
  | eof => exact .refuse rfl c

theorem args_succ : Locates start (Reader.args (fuel + 1)) := by
  rw [Reader.args]
  apply Locates.bind .kind
  intro found
  split
  · exact .pure []
  · apply Locates.bind less.expr
    intro arg
    apply Locates.bind (.accept _)
    intro more
    split
    · exact Locates.bind less.args fun _ => .pure _
    · exact .pure _

theorem function_succ (name : String) (place : Position) :
    Locates start (Reader.function (fuel + 1) name place) := by
  rw [Reader.function]
  apply Locates.bind (.expect _)
  intro _
  apply Locates.bind (locates_params fuel)
  intro params
  apply Locates.bind (.expect _)
  intro _
  exact Locates.bind less.block fun _ => .pure _

theorem block_succ : Locates start (Reader.block (fuel + 1)) := by
  rw [Reader.block]
  apply Locates.bind (.expect _)
  intro _
  apply Locates.bind less.stmts
  intro body
  exact Locates.bind (.expect _) fun _ => .pure body

theorem stmts_succ : Locates start (Reader.stmts (fuel + 1)) := by
  rw [Reader.stmts]
  apply Locates.bind .kind
  intro found
  split
  · exact .pure []
  · apply Locates.bind less.stmt
    intro first
    exact Locates.bind less.stmts fun _ => .pure _

theorem stmt_succ : Locates start (Reader.stmt (fuel + 1)) := by
  rw [Reader.stmt]
  apply Locates.bind .kind
  intro found
  split
  · exact less.branch
  · exact less.loop
  · exact less.ret
  · apply Locates.bind .get
    intro c
    split
    · exact less.assignment
    · exact less.callStmt

theorem branch_succ : Locates start (Reader.branch (fuel + 1)) := by
  rw [Reader.branch]
  apply Locates.position
  intro c
  apply Locates.bind .advance
  intro _
  apply Locates.bind (.expect _)
  intro _
  apply Locates.bind less.expr
  intro condition
  apply Locates.bind (.expect _)
  intro _
  apply Locates.bind less.block
  intro yes
  apply Locates.bind (.accept _)
  intro more
  split
  · exact Locates.bind less.block fun _ => .pure _
  · exact .pure _

theorem loop_succ : Locates start (Reader.loop (fuel + 1)) := by
  rw [Reader.loop]
  apply Locates.position
  intro c
  apply Locates.bind .advance
  intro _
  apply Locates.bind (.expect _)
  intro _
  apply Locates.bind less.expr
  intro condition
  apply Locates.bind (.expect _)
  intro _
  exact Locates.bind less.block fun _ => .pure _

theorem ret_succ : Locates start (Reader.ret (fuel + 1)) := by
  rw [Reader.ret]
  apply Locates.position
  intro c
  apply Locates.bind .advance
  intro _
  apply Locates.bind (.accept _)
  intro bare
  split
  · exact .pure _
  · apply Locates.bind less.expr
    intro value
    exact Locates.bind (.expect _) fun _ => .pure _

theorem assignment_succ : Locates start (Reader.assignment (fuel + 1)) := by
  rw [Reader.assignment]
  apply Locates.position
  intro c
  apply Locates.bind .identifier
  intro root
  apply Locates.bind less.path
  intro fields
  apply Locates.bind (.expect _)
  intro _
  apply Locates.bind less.expr
  intro value
  exact Locates.bind (.expect _) fun _ => .pure _

theorem path_succ : Locates start (Reader.path (fuel + 1)) := by
  rw [Reader.path]
  apply Locates.bind (.accept _)
  intro dotted
  split
  · apply Locates.bind .identifier
    intro name
    exact Locates.bind less.path fun _ => .pure _
  · exact .pure []

/-- The place reported is that of the statement, behind which the expression was read. -/
theorem callStmt_succ : Locates start (Reader.callStmt (fuel + 1)) := by
  rw [Reader.callStmt]
  apply Locates.position
  intro c
  apply Locates.bind less.expr
  intro value
  split
  · exact Locates.bind (.expect _) fun _ => .pure _
  · exact .refuse rfl c

end AllLocate

theorem allLocate (fuel : Nat) : AllLocate fuel := by
  induction fuel with
  | zero =>
    constructor <;> intros
    case expr => rw [expr]; exact .exhausted
    case tier => rw [tier]; exact .exhausted
    case chain => rw [chain]; exact .exhausted
    case unary => rw [unary]; exact .exhausted
    case members => rw [members]; exact .exhausted
    case primary => exact .exhausted
    case args => rw [args]; exact .exhausted
    case function => rw [function]; exact .exhausted
    case block => rw [block]; exact .exhausted
    case stmts => rw [stmts]; exact .exhausted
    case stmt => rw [stmt]; exact .exhausted
    case branch => rw [branch]; exact .exhausted
    case loop => rw [loop]; exact .exhausted
    case ret => rw [ret]; exact .exhausted
    case assignment => rw [assignment]; exact .exhausted
    case path => rw [path]; exact .exhausted
    case callStmt => rw [callStmt]; exact .exhausted
  | succ fuel less =>
    exact {
      expr := by rw [expr]; exact less.tier 5
      tier := less.tier_succ
      chain := less.chain_succ
      unary := less.unary_succ
      members := less.members_succ
      primary := less.primary_succ
      args := less.args_succ
      function := less.function_succ
      block := less.block_succ
      stmts := less.stmts_succ
      stmt := less.stmt_succ
      branch := less.branch_succ
      loop := less.loop_succ
      ret := less.ret_succ
      assignment := less.assignment_succ
      path := less.path_succ
      callStmt := less.callStmt_succ }

/-- Behind its first word, a definition reports no place before the second. -/
theorem located_definition (fuel : Nat) (here : c.kind = .keyword .func) :
    Located c.advance (definition fuel c) := by
  have rest : Locates c.advance
      (identifier >>= fun name => function fuel name c.position) :=
    .bind .identifier fun name => (allLocate fuel).function name c.position
  rw [definition, position_bind, expect_bind here]
  exact rest c.advance (.refl _)

end Reader

/-! ## Whole lists of tokens -/

namespace Definition

open Diagnostic (Reports)

variable {fuel count : Nat}

theorem readAll_of_end {c : Cursor} (ends : c.kind = .eof) : (readAll fuel count c).1 = [] := by
  cases count with
  | zero => rfl
  | succ count => rw [readAll, ends]

/-- Errors from the next definition on stand behind the place where it is looked for, if those from
a definition on stand behind its first word. -/
theorem reports_recover
    (behind : ∀ c, c.kind = .keyword .func →
      Reports .grammar c.places.tail (readAll fuel count c).1) (c : Cursor) :
    Reports .grammar c.places.tail (readAll fuel count c.recover).1 := by
  obtain ⟨rest, ending⟩ := c
  induction rest with
  | nil =>
    rw [readAll_of_end rfl]
    exact .nil
  | cons t rest ih =>
    by_cases stays : t.kind = .keyword .func ∨ t.kind = .eof
    · have same : Cursor.recover ⟨t :: rest, ending⟩ = ⟨t :: rest, ending⟩ := by
        rcases stays with kind | kind <;> simp [Cursor.recover, kind]
      rw [same]
      rcases stays with func | ends
      · exact behind _ func
      · rw [readAll_of_end (c := ⟨t :: rest, ending⟩) ends]
        exact .nil
    · have same : Cursor.recover ⟨t :: rest, ending⟩ = Cursor.recover ⟨rest, ending⟩ := by
        rw [not_or] at stays
        simp [Cursor.recover, stays]
      rw [same]
      exact ih.mono (List.tail_sublist _)

/-- From a cursor on, errors stand at the places of its tokens; from a definition on, behind its
first word. -/
theorem reports_readAll (fuel count : Nat) (c : Cursor) :
    Reports .grammar c.places (readAll fuel count c).1 ∧
      (c.kind = .keyword .func → Reports .grammar c.places.tail (readAll fuel count c).1) := by
  induction count generalizing c with
  | zero => exact ⟨.nil, fun _ => .nil⟩
  | succ count ih =>
    have stopped {b d : Cursor} {e : Diagnostic} (reached : b.Reaches d)
        (place : e.position = b.position) (own : e.code.phase = .grammar) :
        Reports .grammar b.places (e :: (readAll fuel count d.recover).1) := by
      rw [b.places_eq, ← place]
      refine .cons own ((reports_recover (fun c => (ih c).2) d).mono ?_)
      exact reached.places_sublist.tail
    by_cases func : c.kind = .keyword .func
    · have behind : Reports .grammar c.places.tail (readAll fuel (count + 1) c).1 := by
        rw [← Cursor.places_advance (by rw [func]; decide), readAll, func]
        dsimp only
        match Reader.definition fuel c, Reader.located_definition fuel func with
        | .ok d b, .ok reached => exact (ih b).1.mono reached.places_sublist
        | .error stop d, .error passed reached place own =>
          exact (stopped reached place own).mono passed.places_sublist
      exact ⟨behind.mono (List.tail_sublist _), fun _ => behind⟩
    · refine ⟨?_, fun other => absurd other func⟩
      rw [readAll]
      split
      · exact .nil
      · next other => exact absurd other func
      · exact stopped (.refl c) rfl rfl

theorem reports_of_ofTokens {front : List Token} {ending : Position} {errors : List Diagnostic}
    (failed : ofTokens (front ++ [⟨.eof, ending⟩]) = .error errors) :
    errors ≠ [] ∧ Reports .grammar (front.map Token.position ++ [ending]) errors := by
  have cursor : Cursor.ofTokens (front ++ [⟨.eof, ending⟩]) = ⟨front, ending⟩ := by
    simp [Cursor.ofTokens]
  rw [ofTokens, cursor] at failed
  split at failed
  · cases failed
  · next nonempty whole =>
    cases failed
    obtain rfl : _ = errors := congrArg Prod.fst whole
    exact ⟨nonempty, (reports_readAll _ _ ⟨front, ending⟩).1⟩

end Definition

end Protoscript
