import Protoscript.Proofs.Grammar.Reading

/-! # What is rendered is read

A reader that stands before the tokens of a rendering returns the tree and moves past just these
tokens, whatever comes after them that cannot go on the phrase.  The proof is by induction on the
rendering.  For an expression it says what the reading does after the tokens: the first operand of a
chain of operators is read as a part of the whole chain. -/

set_option autoImplicit false

namespace Protoscript

namespace Reader

/-- With fuel in proportion to the tokens left, the reading returns `v` and goes on to `d`. -/
def Settles {α : Type} (extra : Nat) (read : Nat → Reader α) (c : Cursor) (v : α) (d : Cursor) :
    Prop :=
  ∀ fuel, 16 * c.rest.length + extra ≤ fuel → read fuel c = .ok v d

/-- The reader of expressions of a level. -/
def reading : Nat → Nat → Reader Expr
  | 0, fuel => unary fuel
  | level + 1, fuel => tier fuel level

/-- What is left to do at a level after an expression of the level. -/
def after : Nat → Expr → Nat → Reader Expr
  | 0, e, fuel => members fuel e
  | 1, e, _ => pure e
  | level + 2, e, fuel => chain fuel level e

/-- Whether a token after an expression of the level is no part of a call or of what binds more
tightly. -/
def Fits (level : Nat) (k : TokenKind) : Prop :=
  k ≠ .sign .leftParen ∧ (0 < level → k ≠ .sign .dot) ∧
    ∀ op : BinaryOp, k = .sign op.sign → level ≤ op.tier + 1

/-- What ends an expression: whatever comes after it in a rendering. -/
def Closes (k : TokenKind) : Prop :=
  k = .sign .rightParen ∨ k = .sign .comma ∨ k = .sign .semicolon

/-- The tokens are read as the phrase.  The fuel beside that for the tokens is how deep the readers
call one another before a token is passed over: 12 from `stmts`, down to 1 for `primary`. -/
def Completes : Phrase → List Token → Prop
  | .expr level e, ts => ∀ {c v d}, Fits level c.kind → Settles 1 (after level e) c v d →
    Settles (level + 2) (reading level) (c.before ts) v d
  | .args es, ts => ∀ {c}, c.kind = .sign .rightParen → Settles 10 args (c.before ts) es c
  | .param a, ts => ∀ {c fuel}, params (fuel + 1) (c.before ts) = moreParams fuel a c
  | .params ps, ts => ∀ {c}, c.kind = .sign .rightParen → Settles 1 params (c.before ts) ps c
  | .function d, ts => ∀ {c},
    Settles 1 (fun fuel => function fuel d.name d.position) (c.before ts) d c
  | .block body, ts => ∀ {c}, Settles 1 block (c.before ts) body c
  | .stmts body, ts => ∀ {c}, c.kind = .sign .rightBrace → Settles 12 stmts (c.before ts) body c
  | .stmt s, ts => ∀ {c}, c.kind ≠ .keyword .elseWord → Settles 11 stmt (c.before ts) s c
  | .fields names, ts => ∀ {c}, c.kind = .sign .assign → Settles 1 path (c.before ts) names c
  | .program _, _ => True

theorem Settles.succ {α : Type} {extra : Nat} {read : Nat → Reader α} {c d : Cursor} {v : α}
    (step : ∀ fuel, 16 * c.rest.length + extra ≤ fuel → read (fuel + 1) c = .ok v d) :
    Settles (extra + 1) read c v d := by
  intro fuel enough
  obtain ⟨fuel, rfl⟩ : ∃ n, fuel = n + 1 := ⟨fuel - 1, by omega⟩
  exact step fuel (by omega)

section

variable {α : Type} {c : Cursor} {p : Position}

theorem advance_push (f : Unit → Reader α) (t : Token) : (advance >>= f) (c.push t) = f () c := rfl

theorem expect_push (k : TokenKind) (f : Unit → Reader α) :
    (expect k >>= f) (c.push ⟨k, p⟩) = f () c := expect_bind rfl f

theorem accept_push (k : TokenKind) (f : Bool → Reader α) :
    (accept k >>= f) (c.push ⟨k, p⟩) = f true c := accept_bind_of_eq rfl f

theorem accept_then (k : TokenKind) (x y : Reader α) :
    (accept k >>= fun taken => if taken = true then x else y) (c.push ⟨k, p⟩) = x c := by
  rw [accept_push, if_pos rfl]

theorem accept_else {k : TokenKind} (other : c.kind ≠ k) (x y : Reader α) :
    (accept k >>= fun taken => if taken = true then x else y) c = y c := by
  rw [accept_bind_of_ne other, if_neg Bool.false_ne_true]

theorem identifier_push (name : String) (f : String → Reader α) :
    (identifier >>= f) (c.push (nameToken name p)) = f name c := identifier_bind rfl f

theorem primary_ident (fuel : Nat) (name : String) :
    primary (fuel + 1) (c.push (nameToken name p)) = (do
      if ← accept (.sign .leftParen) then
        let arguments ← args fuel
        expect (.sign .rightParen)
        return Expr.call name arguments p
      else
        return Expr.var name p) c := rfl

theorem primary_leftParen (fuel : Nat) : primary (fuel + 1) (c.push (Sign.leftParen.token p)) = (do
      let inner ← expr fuel
      expect (.sign .rightParen)
      return inner) c := rfl

theorem primary_lambda (fuel : Nat) : primary (fuel + 1) (c.push (Keyword.lambda.token p)) = (do
      let definition ← function fuel "lambda" p
      return Expr.lambda definition) c := rfl

end

/-! ## Ends of expressions -/

theorem Fits.tighter {level : Nat} {k : TokenKind} (fits : Fits (level + 1) k) : Fits level k := by
  obtain ⟨notParen, notDot, notOp⟩ := fits
  exact ⟨notParen, fun _ => notDot (Nat.succ_pos level),
    fun op same => Nat.le_of_succ_le (notOp op same)⟩

theorem fits_sign (op : BinaryOp) : Fits (op.tier + 1) (.sign op.sign) := by
  refine ⟨by cases op <;> nofun, fun _ => by cases op <;> nofun, fun other same => ?_⟩
  have same : op.sign = other.sign := TokenKind.sign.inj same
  have found := BinaryOp.ofSign?_sign op
  rw [same, BinaryOp.ofSign?_sign] at found
  exact Nat.le_of_eq (by rw [Option.some.inj found])

theorem Closes.fits {k : TokenKind} (closes : Closes k) (level : Nat) : Fits level k := by
  rcases closes with rfl | rfl | rfl <;> refine ⟨nofun, nofun, fun op same => ?_⟩ <;>
    cases op <;> cases same

/-- Nothing is left to do at a level above 0 before a token that fits a looser level. -/
theorem settles_after {level : Nat} {c : Cursor} (e : Expr) (fits : Fits (level + 1) c.kind) :
    Settles 1 (after level e) c e c := by
  obtain ⟨-, notDot, notOp⟩ := fits
  match level with
  | 0 =>
    refine .succ fun fuel _ => ?_
    rw [after, members, accept_else (notDot Nat.zero_lt_one)]
    rfl
  | 1 => exact fun _ _ => rfl
  | level + 2 =>
    refine .succ fun fuel _ => ?_
    rw [after, chain, kind_bind, binaryOp?_eq_none]
    · rfl
    · intro op same
      have := notOp op same
      omega

theorem not_ends_of_opens {e : Expr} {level : Nat} {ts : List Token} {c : Cursor}
    (opens : (Phrase.expr level e).Opens ts) : ¬ ends .rightParen (c.before ts).kind = true := by
  obtain ⟨⟨k, p⟩, us, rfl, opens⟩ := opens
  rw [Cursor.before_cons, Cursor.kind_push, ends, decide_eq_true_eq]
  rintro (rfl | rfl) <;> cases opens

theorem settles_pure (e : Expr) (c : Cursor) : Settles 1 (after 1 e) c e c := fun _ _ => rfl

theorem eq_of_settles_pure {e v : Expr} {c d : Cursor} (settles : Settles 1 (after 1 e) c v d) :
    e = v ∧ c = d := by
  cases settles _ (Nat.le_refl _)
  exact ⟨rfl, rfl⟩

namespace Completes

section Expr

variable {e : Expr} {level : Nat} {ts us : List Token} {c : Cursor}

/-- An expression that stands alone before what ends it. -/
theorem closed (completes : Completes (.expr loosest e) ts) (closes : Closes c.kind) :
    Settles 9 expr (c.before ts) e c := by
  refine .succ fun fuel enough => ?_
  rw [Reader.expr]
  exact completes (closes.fits _) (settles_after e (closes.fits _)) fuel enough

theorem primary_members {start c d : Cursor} {v : Expr} (other : unaryOp? start.kind = none)
    (shorter : c.rest.length ≤ start.rest.length) (first : Settles 1 primary start e c)
    (later : Settles 1 (after 0 e) c v d) : Settles 2 (reading 0) start v d := by
  refine .succ fun fuel enough => ?_
  rw [reading, unary, position_bind, kind_bind, other]
  exact (bind_of_ok (first fuel enough) _).trans (later fuel (by omega))

theorem atom {t : Token} (kind : e.atom? = some t.kind) (place : e.position = t.position) :
    Completes (.expr 0 e) [t] := by
  intro c v d fits later
  obtain ⟨k, p⟩ := t
  have other : unaryOp? k = none := by cases e <;> cases kind <;> rfl
  refine primary_members (c := c) other (by simp) (.succ fun fuel _ => ?_) later
  cases e <;> cases kind <;> obtain rfl := place
  case var =>
    rw [Cursor.before_cons, Cursor.before_nil, primary_ident, accept_else fits.1]
    rfl
  all_goals rfl

theorem group {p q : Position} (inner : Completes (.expr loosest e) ts) :
    Completes (.expr 0 e) (inParens p q ts) := by
  intro c v d fits later
  rw [Cursor.before_inParens]
  refine primary_members (c := c) rfl (by simp; omega) (.succ fun fuel enough => ?_) later
  have first := inner.closed (c := c.push (Sign.rightParen.token q)) (.inl rfl)
  rw [primary_leftParen, bind_of_ok (first fuel (by simp at enough ⊢; omega)), expect_push]
  rfl

theorem lambda {f : Definition} {p : Position} (name : f.name = "lambda") (place : f.position = p)
    (inner : Completes (.function f) ts) :
    Completes (.expr 0 (.lambda f)) (Keyword.lambda.token p :: ts) := by
  intro c v d fits later
  rw [Cursor.before_cons]
  refine primary_members (c := c) rfl (by simp; omega) (.succ fun fuel enough => ?_) later
  have first := inner (c := c) fuel (by simp at enough ⊢; omega)
  rw [name, place] at first
  rw [primary_lambda, bind_of_ok first]
  rfl

theorem call {name : String} {es : List Expr} {p q r : Position} (args : Completes (.args es) ts) :
    Completes (.expr 0 (.call name es p)) (nameToken name p :: inParens q r ts) := by
  intro c v d fits later
  rw [Cursor.before_cons, Cursor.before_inParens]
  refine primary_members (c := c) rfl (by simp; omega) (.succ fun fuel enough => ?_) later
  have first := args (c := c.push (Sign.rightParen.token r)) rfl
  rw [primary_ident, accept_then, bind_of_ok (first fuel (by simp at enough ⊢; omega)),
    expect_push]
  rfl

theorem member {name : String} {p q : Position} (object : Completes (.expr 0 e) ts) :
    Completes (.expr 0 (.member e name e.position))
      (ts ++ [Sign.dot.token p, nameToken name q]) := by
  intro c v d fits later
  rw [Cursor.before_append, Cursor.before_cons, Cursor.before_cons, Cursor.before_nil]
  refine object ⟨nofun, nofun, fun op same => Nat.zero_le _⟩ (.succ fun fuel enough => ?_)
  rw [after, members, accept_then, identifier_push, accept_else fits.1]
  exact later fuel (by simp at enough ⊢; omega)

theorem method {name : String} {es : List Expr} {p q r s : Position}
    (object : Completes (.expr 0 e) ts) (args : Completes (.args es) us) :
    Completes (.expr 0 (.method e name es e.position))
      (ts ++ Sign.dot.token p :: nameToken name q :: inParens r s us) := by
  intro c v d fits later
  rw [Cursor.before_append, Cursor.before_cons, Cursor.before_cons, Cursor.before_inParens]
  refine object ⟨nofun, nofun, fun op same => Nat.zero_le _⟩ (.succ fun fuel enough => ?_)
  have first := args (c := c.push (Sign.rightParen.token s)) rfl
  rw [after, members, accept_then, identifier_push, accept_then,
    bind_of_ok (first fuel (by simp at enough ⊢; omega)), expect_push]
  exact later fuel (by simp at enough ⊢; omega)

theorem unary {op : UnaryOp} {p : Position} (operand : Completes (.expr 1 e) ts) :
    Completes (.expr 1 (.unary op e p)) (op.sign.token p :: ts) := by
  intro c v d fits later
  obtain ⟨rfl, rfl⟩ := eq_of_settles_pure later
  have first := operand fits (settles_pure e c)
  rw [Cursor.before_cons]
  refine .succ fun fuel enough => ?_
  obtain ⟨fuel, rfl⟩ : ∃ n, fuel = n + 1 := ⟨fuel - 1, by omega⟩
  have operand : Reader.unary fuel (c.before ts) = .ok e c := by
    have tier := first (fuel + 1) (by simp at enough ⊢; omega)
    rwa [reading, Reader.tier] at tier
  rw [reading, tier, Reader.unary, position_bind, kind_bind, Cursor.kind_push, unaryOp?_sign]
  dsimp only
  rw [advance_push, bind_of_ok operand]
  rfl

theorem binary {op : BinaryOp} {left right : Expr} {p : Position}
    (first : Completes (.expr (op.tier + 1) left) ts)
    (second : Completes (.expr op.tier right) us) :
    Completes (.expr (op.tier + 1) (.binary op left right left.position))
      (ts ++ op.sign.token p :: us) := by
  intro c v d fits later
  obtain ⟨level, same, low⟩ : ∃ level, op.tier = level + 1 ∧ level ≤ 4 :=
    ⟨op.tier - 1, by cases op <;> decide⟩
  have spelled := binaryOp?_sign op
  have fitsOp := fits_sign op
  rw [same] at first second fits later spelled fitsOp ⊢
  have second : Settles (level + 3) (fun fuel => tier fuel level) (c.before us) right c :=
    second fits.tighter (settles_after right fits)
  rw [Cursor.before_append, Cursor.before_cons]
  -- The left operand begins the chain that goes on with the operator, and `later` ends that chain.
  refine first fitsOp (.succ fun fuel enough => ?_)
  rw [after, chain, kind_bind, Cursor.kind_push, spelled]
  dsimp only
  rw [advance_push, bind_of_ok (second fuel (by simp at enough ⊢; omega))]
  exact later fuel (by simp at enough ⊢; omega)

theorem loosen (completes : Completes (.expr level e) ts) : Completes (.expr (level + 1) e) ts := by
  intro c v d fits later
  have first := completes fits.tighter (settles_after e fits)
  refine .succ fun fuel enough => ?_
  cases level with
  | zero =>
    obtain ⟨rfl, rfl⟩ := eq_of_settles_pure later
    rw [reading, tier]
    exact first fuel (by omega)
  | succ level =>
    have first : Settles (level + 3) (fun fuel => tier fuel level) (c.before ts) e c := first
    rw [reading, tier, bind_of_ok (first fuel (by omega))]
    exact later fuel (by simp at enough; omega)

end Expr

/-! ### Lists and statements -/

section

variable {c : Cursor} {ts us vs : List Token} {e : Expr}

/-- A statement is read by the reader that its first tokens call for. -/
theorem settles_stmt (read : Nat → Reader Stmt) {d : Cursor} {s : Stmt}
    (calls : ∀ fuel, stmt (fuel + 1) c = read fuel c) (reads : Settles 10 read c s d) :
    Settles 11 stmt c s d := by
  refine .succ fun fuel enough => ?_
  rw [calls]
  exact reads fuel enough

theorem lastArg (opens : (Phrase.expr loosest e).Opens ts)
    (last : Completes (.expr loosest e) ts) : Completes (.args [e]) ts := by
  intro c close
  refine .succ fun fuel enough => ?_
  rw [args, kind_bind, if_neg (not_ends_of_opens opens),
    bind_of_ok (last.closed (.inl close) fuel enough), accept_else (by simp [close])]
  rfl

theorem moreArgs {es : List Expr} {p : Position} (opens : (Phrase.expr loosest e).Opens ts)
    (first : Completes (.expr loosest e) ts) (more : Completes (.args es) us) :
    Completes (.args (e :: es)) (ts ++ Sign.comma.token p :: us) := by
  intro c close
  rw [Cursor.before_append, Cursor.before_cons]
  refine .succ fun fuel enough => ?_
  rw [args, kind_bind, if_neg (not_ends_of_opens opens),
    bind_of_ok (first.closed (.inr (.inl rfl)) fuel enough), accept_then,
    bind_of_ok (more close fuel (by simp at enough ⊢; omega))]
  rfl

theorem valueParam {name : String} {p : Position} :
    Completes (.param ⟨name, false, p⟩) [nameToken name p] := by
  intro c fuel
  rw [Cursor.before_cons, Cursor.before_nil, params_succ, kind_bind, if_neg nofun, position_bind,
    accept_bind_of_ne (by nofun), identifier_push]
  rfl

theorem refParam {name : String} {p q : Position} :
    Completes (.param ⟨name, true, p⟩) [Keyword.ref.token p, nameToken name q] := by
  intro c fuel
  rw [Cursor.before_cons, Cursor.before_cons, Cursor.before_nil, params_succ, kind_bind,
    if_neg nofun, position_bind, accept_push, identifier_push]
  rfl

theorem noParams : Completes (.params []) [] := by
  intro c close
  refine .succ fun fuel enough => ?_
  rw [Cursor.before_nil, params, kind_bind, close]
  rfl

theorem lastParam {a : Param} (last : Completes (.param a) ts) : Completes (.params [a]) ts := by
  intro c close
  refine .succ fun fuel enough => ?_
  rw [last, Reader.moreParams, accept_else (by simp [close])]
  rfl

theorem moreParams {a : Param} {ps : List Param} {p : Position} (first : Completes (.param a) ts)
    (more : Completes (.params ps) us) :
    Completes (.params (a :: ps)) (ts ++ Sign.comma.token p :: us) := by
  intro c close
  rw [Cursor.before_append, Cursor.before_cons]
  refine .succ fun fuel enough => ?_
  rw [first, Reader.moreParams, accept_then,
    bind_of_ok (more close fuel (by simp at enough ⊢; omega))]
  rfl

theorem function {f : Definition} {p q : Position} (params : Completes (.params f.params) ts)
    (block : Completes (.block f.body) us) : Completes (.function f) (inParens p q ts ++ us) := by
  intro c
  obtain ⟨name, ps, body, place⟩ := f
  rw [Cursor.before_append, Cursor.before_inParens]
  refine .succ fun fuel enough => ?_
  have first := params (c := (c.before us).push (Sign.rightParen.token q)) rfl
  rw [Reader.function, expect_push, bind_of_ok (first fuel (by simp at enough ⊢; omega)),
    expect_push, bind_of_ok (block fuel (by simp at enough ⊢; omega))]
  rfl

theorem block {body : List Stmt} {p q : Position} (inner : Completes (.stmts body) ts) :
    Completes (.block body) (inBraces p q ts) := by
  intro c
  rw [Cursor.before_inBraces]
  refine .succ fun fuel enough => ?_
  have first := inner (c := c.push (Sign.rightBrace.token q)) rfl
  rw [Reader.block, expect_push, bind_of_ok (first fuel (by simp at enough ⊢; omega)), expect_push]
  rfl

theorem noStmts : Completes (.stmts []) [] := by
  intro c close
  refine .succ fun fuel enough => ?_
  rw [Cursor.before_nil, stmts, kind_bind, close]
  rfl

theorem moreStmts {s : Stmt} {body : List Stmt} (opens : (Phrase.stmt s).Opens ts)
    (laterOpens : (Phrase.stmts body).Opens us) (first : Completes (.stmt s) ts)
    (later : Completes (.stmts body) us) : Completes (.stmts (s :: body)) (ts ++ us) := by
  intro c close
  rw [Cursor.before_append]
  -- Otherwise a branch would take the next tokens for its own.
  have notElse : (c.before us).kind ≠ .keyword .elseWord := by
    cases us with
    | nil => simp [close]
    | cons t us =>
      have opens := laterOpens t rfl
      rw [Cursor.before_cons, Cursor.kind_push]
      intro same
      rw [same] at opens
      cases opens
  obtain ⟨⟨k, p⟩, vs, rfl, opens⟩ := opens
  have notEnd : ¬ ends .rightBrace k = true := by
    rw [ends, decide_eq_true_eq]
    rintro (rfl | rfl) <;> cases opens
  refine .succ fun fuel enough => ?_
  rw [stmts, kind_bind, Cursor.before_cons, Cursor.kind_push, if_neg notEnd, ← Cursor.before_cons,
    bind_of_ok (first notElse fuel enough),
    bind_of_ok (later close fuel (by simp at enough ⊢; omega))]
  rfl

theorem noFields : Completes (.fields []) [] := by
  intro c close
  refine .succ fun fuel enough => ?_
  rw [Cursor.before_nil, path, accept_else (by simp [close])]
  rfl

theorem moreFields {name : String} {names : List String} {p q : Position}
    (later : Completes (.fields names) ts) :
    Completes (.fields (name :: names)) (Sign.dot.token p :: nameToken name q :: ts) := by
  intro c close
  rw [Cursor.before_cons, Cursor.before_cons]
  refine .succ fun fuel enough => ?_
  rw [path, accept_then, identifier_push,
    bind_of_ok (later close fuel (by simp at enough ⊢; omega))]
  rfl

theorem assign {root : String} {names : List String} {p q r : Position}
    (leaves : (Phrase.fields names).LeavesAssign ts) (fields : Completes (.fields names) ts)
    (value : Completes (.expr loosest e) us) :
    Completes (.stmt (.assign (root :: names) e p))
      (nameToken root p :: (ts ++ Sign.assign.token q :: (us ++ [Sign.semicolon.token r]))) := by
  intro c _
  simp only [Cursor.before_cons, Cursor.before_append, Cursor.before_nil]
  have starts : (((((c.push (Sign.semicolon.token r)).before us).push
      (Sign.assign.token q)).before ts).push (nameToken root p)).startsAssignment = true :=
    leaves _
  have first := fields (c := ((c.push (Sign.semicolon.token r)).before us).push
    (Sign.assign.token q)) rfl
  have second := value.closed (c := c.push (Sign.semicolon.token r)) (.inr (.inr rfl))
  refine settles_stmt assignment (fun _ => ?_) (.succ fun fuel enough => ?_)
  · rw [stmt_of_opensExpr rfl, if_pos starts]
  rw [assignment, position_bind, identifier_push,
    bind_of_ok (first fuel (by simp at enough ⊢; omega)), expect_push,
    bind_of_ok (second fuel (by simp at enough ⊢; omega)), expect_push]
  rfl

theorem callStmt {p : Position} (opens : (Phrase.expr loosest e).Opens ts)
    (leaves : (Phrase.expr loosest e).LeavesAssign ts) (is : e.isCall = true)
    (call : Completes (.expr loosest e) ts) :
    Completes (.stmt (.call e)) (ts ++ [Sign.semicolon.token p]) := by
  intro c _
  have notAssigned : ¬ ((c.push (Sign.semicolon.token p)).before ts).startsAssignment = true := by
    intro starts
    cases leaves _ _ starts
  have opens : ((c.push (Sign.semicolon.token p)).before ts).kind.opensExpr = true := by
    obtain ⟨t, us, rfl, opens⟩ := opens
    exact opens
  rw [Cursor.before_append, Cursor.before_cons, Cursor.before_nil]
  have first := call.closed (c := c.push (Sign.semicolon.token p)) (.inr (.inr rfl))
  refine settles_stmt Reader.callStmt (fun _ => ?_) (.succ fun fuel enough => ?_)
  · rw [stmt_of_opensExpr opens, if_neg notAssigned]
  rw [Reader.callStmt, position_bind, bind_of_ok (first fuel enough), if_pos is, expect_push]
  rfl

theorem branch {yes : List Stmt} {p q r : Position} (condition : Completes (.expr loosest e) ts)
    (block : Completes (.block yes) us) :
    Completes (.stmt (.branch e yes none p))
      (Keyword.ifWord.token p :: (inParens q r ts ++ us)) := by
  intro c notElse
  rw [Cursor.before_cons, Cursor.before_append, Cursor.before_inParens]
  have first := condition.closed (c := (c.before us).push (Sign.rightParen.token r)) (.inl rfl)
  refine settles_stmt Reader.branch (fun _ => rfl) (.succ fun fuel enough => ?_)
  rw [Reader.branch, position_bind, advance_push, expect_push,
    bind_of_ok (first fuel (by simp at enough ⊢; omega)), expect_push,
    bind_of_ok (block fuel (by simp at enough ⊢; omega)), accept_else notElse]
  rfl

theorem branchElse {yes no : List Stmt} {p q r s : Position}
    (condition : Completes (.expr loosest e) ts) (block : Completes (.block yes) us)
    (other : Completes (.block no) vs) :
    Completes (.stmt (.branch e yes (some no) p))
      (Keyword.ifWord.token p :: (inParens q r ts ++ (us ++ Keyword.elseWord.token s :: vs))) := by
  intro c _
  rw [Cursor.before_cons, Cursor.before_append, Cursor.before_inParens, Cursor.before_append,
    Cursor.before_cons]
  have first := condition.closed (c := (((c.before vs).push (Keyword.elseWord.token s)).before
    us).push (Sign.rightParen.token r)) (.inl rfl)
  refine settles_stmt Reader.branch (fun _ => rfl) (.succ fun fuel enough => ?_)
  rw [Reader.branch, position_bind, advance_push, expect_push,
    bind_of_ok (first fuel (by simp at enough ⊢; omega)), expect_push,
    bind_of_ok (block fuel (by simp at enough ⊢; omega)), accept_then,
    bind_of_ok (other fuel (by simp at enough ⊢; omega))]
  rfl

theorem loop {body : List Stmt} {p q r : Position} (condition : Completes (.expr loosest e) ts)
    (block : Completes (.block body) us) :
    Completes (.stmt (.loop e body p)) (Keyword.whileWord.token p :: (inParens q r ts ++ us)) := by
  intro c _
  rw [Cursor.before_cons, Cursor.before_append, Cursor.before_inParens]
  have first := condition.closed (c := (c.before us).push (Sign.rightParen.token r)) (.inl rfl)
  refine settles_stmt Reader.loop (fun _ => rfl) (.succ fun fuel enough => ?_)
  rw [Reader.loop, position_bind, advance_push, expect_push,
    bind_of_ok (first fuel (by simp at enough ⊢; omega)), expect_push,
    bind_of_ok (block fuel (by simp at enough ⊢; omega))]
  rfl

theorem ret {p q : Position} :
    Completes (.stmt (.ret none p)) [Keyword.returnWord.token p, Sign.semicolon.token q] := by
  intro c _
  rw [Cursor.before_cons, Cursor.before_cons, Cursor.before_nil]
  refine settles_stmt Reader.ret (fun _ => rfl) (.succ fun fuel enough => ?_)
  rw [Reader.ret, position_bind, advance_push, accept_then]
  rfl

theorem retValue {p q : Position} (opens : (Phrase.expr loosest e).Opens ts)
    (value : Completes (.expr loosest e) ts) :
    Completes (.stmt (.ret (some e) p))
      (Keyword.returnWord.token p :: (ts ++ [Sign.semicolon.token q])) := by
  intro c _
  rw [Cursor.before_cons, Cursor.before_append, Cursor.before_cons, Cursor.before_nil]
  have notEmpty : ((c.push (Sign.semicolon.token q)).before ts).kind ≠ .sign .semicolon := by
    obtain ⟨t, us, rfl, opens⟩ := opens
    intro same
    rw [Cursor.before_cons, Cursor.kind_push] at same
    rw [same] at opens
    cases opens
  have first := value.closed (c := c.push (Sign.semicolon.token q)) (.inr (.inr rfl))
  refine settles_stmt Reader.ret (fun _ => rfl) (.succ fun fuel enough => ?_)
  rw [Reader.ret, position_bind, advance_push, accept_else notEmpty,
    bind_of_ok (first fuel (by simp at enough ⊢; omega)), expect_push]
  rfl

theorem noArgs : Completes (.args []) [] := by
  intro c close
  refine .succ fun fuel enough => ?_
  rw [Cursor.before_nil, args, kind_bind, close]
  rfl

end

end Completes

theorem completes_of_renders {φ : Phrase} {ts : List Token} (rendered : Renders Eq φ ts) :
    Completes φ ts := by
  induction rendered with
  | atom kind place => exact Completes.atom kind place
  | group _ ih => exact Completes.group ih
  | lambda name place _ ih => exact Completes.lambda name place ih
  | call place _ ih =>
    obtain rfl := place
    exact Completes.call ih
  | member place _ ih =>
    obtain rfl := place
    exact Completes.member ih
  | method place _ _ ih args =>
    obtain rfl := place
    exact Completes.method ih args
  | unary place _ ih =>
    obtain rfl := place
    exact Completes.unary ih
  | binary place _ _ left right =>
    obtain rfl := place
    exact Completes.binary left right
  | loosen _ ih => exact Completes.loosen ih
  | noArgs => exact Completes.noArgs
  | lastArg last ih => exact Completes.lastArg last.opens ih
  | moreArgs first _ ih more => exact Completes.moreArgs first.opens ih more
  | valueParam place =>
    obtain rfl := place
    exact Completes.valueParam
  | refParam place =>
    obtain rfl := place
    exact Completes.refParam
  | noParams => exact Completes.noParams
  | lastParam _ ih => exact Completes.lastParam ih
  | moreParams _ _ ih more => exact Completes.moreParams ih more
  | function _ _ params block => exact Completes.function params block
  | block _ ih => exact Completes.block ih
  | noStmts => exact Completes.noStmts
  | moreStmts first later ih more => exact Completes.moreStmts first.opens later.opens ih more
  | assign place fields _ ih value =>
    obtain rfl := place
    exact Completes.assign fields.leavesAssign ih value
  | noFields => exact Completes.noFields
  | moreFields _ ih => exact Completes.moreFields ih
  | callStmt is call ih => exact Completes.callStmt call.opens call.leavesAssign is ih
  | branch place _ _ condition block =>
    obtain rfl := place
    exact Completes.branch condition block
  | branchElse place _ _ _ condition block other =>
    obtain rfl := place
    exact Completes.branchElse condition block other
  | loop place _ _ condition block =>
    obtain rfl := place
    exact Completes.loop condition block
  | ret place =>
    obtain rfl := place
    exact Completes.ret
  | retValue place value ih =>
    obtain rfl := place
    exact Completes.retValue value.opens ih
  | noDefinitions => trivial
  | moreDefinitions => trivial

end Reader

end Protoscript
