import Protoscript.Syntax
import Protoscript.Syntax.Cursor

/-! # How definitions are written in tokens

The grammar as a relation between trees and the tokens that render them.  An expression is
rendered at a level: 0 for what a member access may follow, 1 for operands of a unary operator, and
one more than the tier for each tier of binary operators.  The left operand of an operator stands at
the operator's level and the right one below it, so operators of one tier group to the left.
Parentheses take any expression to level 0, and a comma may follow the last of some parameters or
arguments. -/

set_option autoImplicit false

namespace Protoscript

/-! ## Tokens -/

abbrev Sign.token (s : Sign) (p : Position) : Token := ⟨.sign s, p⟩

abbrev Keyword.token (k : Keyword) (p : Position) : Token := ⟨.keyword k, p⟩

/-- The token of an identifier. -/
abbrev nameToken (name : String) (p : Position) : Token := ⟨.ident name, p⟩

def inParens (p q : Position) (ts : List Token) : List Token :=
  Sign.leftParen.token p :: (ts ++ [Sign.rightParen.token q])

def inBraces (p q : Position) (ts : List Token) : List Token :=
  Sign.leftBrace.token p :: (ts ++ [Sign.rightBrace.token q])

/-- The kind of the token that is the whole of an expression. -/
def Expr.atom? : Expr → Option TokenKind
  | .int value _ => some (.int value)
  | .bool value _ => some (.bool value)
  | .str text _ => some (.str text)
  | .nil _ => some .nil
  | .var name _ => some (.ident name)
  | .object _ => some (.sign .atSign)
  | _ => none

/-! ## Phrases -/

/-- The trees that tokens render, and the lists of trees. -/
inductive Phrase
  | expr (level : Nat) (e : Expr)
  | args (es : List Expr)
  | param (p : Param)
  | params (ps : List Param)
  /-- What comes after the keyword and the name of a definition. -/
  | function (d : Definition)
  | block (body : List Stmt)
  | stmts (body : List Stmt)
  | stmt (s : Stmt)
  /-- What comes after the root of a path. -/
  | fields (names : List String)
  | program (ds : List Definition)

/-- The level that any expression can stand at without parentheses. -/
def loosest : Nat := 6

/-- The tokens that render a phrase.  `placed` relates each place in a tree to the place it stands
for: that of the first token of the tree, or for a binary operation, a member access and a method
call the place of the operand that comes first. -/
inductive Renders (placed : Position → Position → Prop) : Phrase → List Token → Prop
  | atom {e : Expr} {t : Token} : e.atom? = some t.kind → placed e.position t.position →
      Renders placed (.expr 0 e) [t]
  | group {e : Expr} {p q : Position} {ts : List Token} : Renders placed (.expr loosest e) ts →
      Renders placed (.expr 0 e) (inParens p q ts)
  | lambda {d : Definition} {p : Position} {ts : List Token} :
    d.name = "lambda" → placed d.position p → Renders placed (.function d) ts →
      Renders placed (.expr 0 (.lambda d)) (Keyword.lambda.token p :: ts)
  | call {name : String} {es : List Expr} {place p q r : Position} {ts : List Token} :
    placed place p → Renders placed (.args es) ts →
      Renders placed (.expr 0 (.call name es place)) (nameToken name p :: inParens q r ts)
  | member {e : Expr} {name : String} {place p q : Position} {ts : List Token} :
    placed place e.position → Renders placed (.expr 0 e) ts →
      Renders placed (.expr 0 (.member e name place)) (ts ++ [Sign.dot.token p, nameToken name q])
  | method {e : Expr} {name : String} {es : List Expr} {place p q r s : Position}
      {ts us : List Token} :
    placed place e.position → Renders placed (.expr 0 e) ts → Renders placed (.args es) us →
      Renders placed (.expr 0 (.method e name es place))
        (ts ++ Sign.dot.token p :: nameToken name q :: inParens r s us)
  | unary {op : UnaryOp} {e : Expr} {place p : Position} {ts : List Token} :
    placed place p → Renders placed (.expr 1 e) ts →
      Renders placed (.expr 1 (.unary op e place)) (op.sign.token p :: ts)
  | binary {op : BinaryOp} {left right : Expr} {place p : Position} {ts us : List Token} :
    placed place left.position → Renders placed (.expr (op.tier + 1) left) ts →
      Renders placed (.expr op.tier right) us →
        Renders placed (.expr (op.tier + 1) (.binary op left right place))
          (ts ++ op.sign.token p :: us)
  | loosen {level : Nat} {e : Expr} {ts : List Token} : Renders placed (.expr level e) ts →
      Renders placed (.expr (level + 1) e) ts
  | noArgs : Renders placed (.args []) []
  | lastArg {e : Expr} {ts : List Token} : Renders placed (.expr loosest e) ts →
      Renders placed (.args [e]) ts
  | moreArgs {e : Expr} {es : List Expr} {p : Position} {ts us : List Token} :
    Renders placed (.expr loosest e) ts → Renders placed (.args es) us →
      Renders placed (.args (e :: es)) (ts ++ Sign.comma.token p :: us)
  | valueParam {name : String} {place p : Position} : placed place p →
      Renders placed (.param ⟨name, false, place⟩) [nameToken name p]
  | refParam {name : String} {place p q : Position} : placed place p →
      Renders placed (.param ⟨name, true, place⟩) [Keyword.ref.token p, nameToken name q]
  | noParams : Renders placed (.params []) []
  | lastParam {a : Param} {ts : List Token} : Renders placed (.param a) ts →
      Renders placed (.params [a]) ts
  | moreParams {a : Param} {ps : List Param} {p : Position} {ts us : List Token} :
    Renders placed (.param a) ts → Renders placed (.params ps) us →
      Renders placed (.params (a :: ps)) (ts ++ Sign.comma.token p :: us)
  | function {d : Definition} {p q : Position} {ts us : List Token} :
    Renders placed (.params d.params) ts → Renders placed (.block d.body) us →
      Renders placed (.function d) (inParens p q ts ++ us)
  | block {body : List Stmt} {p q : Position} {ts : List Token} : Renders placed (.stmts body) ts →
      Renders placed (.block body) (inBraces p q ts)
  | noStmts : Renders placed (.stmts []) []
  | moreStmts {s : Stmt} {body : List Stmt} {ts us : List Token} :
    Renders placed (.stmt s) ts → Renders placed (.stmts body) us →
      Renders placed (.stmts (s :: body)) (ts ++ us)
  | assign {root : String} {names : List String} {value : Expr} {place p q r : Position}
      {ts us : List Token} :
    placed place p → Renders placed (.fields names) ts → Renders placed (.expr loosest value) us →
      Renders placed (.stmt (.assign (root :: names) value place))
        (nameToken root p :: (ts ++ Sign.assign.token q :: (us ++ [Sign.semicolon.token r])))
  | noFields : Renders placed (.fields []) []
  | moreFields {name : String} {names : List String} {p q : Position} {ts : List Token} :
    Renders placed (.fields names) ts →
      Renders placed (.fields (name :: names)) (Sign.dot.token p :: nameToken name q :: ts)
  | callStmt {e : Expr} {p : Position} {ts : List Token} :
    e.isCall = true → Renders placed (.expr loosest e) ts →
      Renders placed (.stmt (.call e)) (ts ++ [Sign.semicolon.token p])
  | branch {condition : Expr} {yes : List Stmt} {place p q r : Position} {ts us : List Token} :
    placed place p → Renders placed (.expr loosest condition) ts → Renders placed (.block yes) us →
      Renders placed (.stmt (.branch condition yes none place))
        (Keyword.ifWord.token p :: (inParens q r ts ++ us))
  | branchElse {condition : Expr} {yes no : List Stmt} {place p q r s : Position}
      {ts us vs : List Token} :
    placed place p → Renders placed (.expr loosest condition) ts → Renders placed (.block yes) us →
      Renders placed (.block no) vs →
        Renders placed (.stmt (.branch condition yes (some no) place))
          (Keyword.ifWord.token p :: (inParens q r ts ++ (us ++ Keyword.elseWord.token s :: vs)))
  | loop {condition : Expr} {body : List Stmt} {place p q r : Position} {ts us : List Token} :
    placed place p → Renders placed (.expr loosest condition) ts → Renders placed (.block body) us →
      Renders placed (.stmt (.loop condition body place))
        (Keyword.whileWord.token p :: (inParens q r ts ++ us))
  | ret {place p q : Position} : placed place p →
      Renders placed (.stmt (.ret none place))
        [Keyword.returnWord.token p, Sign.semicolon.token q]
  | retValue {value : Expr} {place p q : Position} {ts : List Token} :
    placed place p → Renders placed (.expr loosest value) ts →
      Renders placed (.stmt (.ret (some value) place))
        (Keyword.returnWord.token p :: (ts ++ [Sign.semicolon.token q]))
  | noDefinitions : Renders placed (.program []) []
  | moreDefinitions {d : Definition} {ds : List Definition} {p q : Position} {ts us : List Token} :
    placed d.position p → Renders placed (.function d) ts → Renders placed (.program ds) us →
      Renders placed (.program (d :: ds))
        (Keyword.func.token p :: nameToken d.name q :: (ts ++ us))

/-- No place in a tree is held to anything. -/
def anywhere (_ _ : Position) : Prop := True

namespace Renders

variable {placed : Position → Position → Prop} {φ : Phrase} {e : Expr} {level : Nat}
  {ts : List Token}

theorem loosen_le {looser : Nat} (rendered : Renders placed (.expr level e) ts)
    (le : level ≤ looser) : Renders placed (.expr looser e) ts := by
  induction le with
  | refl => exact rendered
  | step _ ih => exact ih.loosen

/-! ## The tokens of a rendering -/

/-- No end mark is part of a rendering. -/
theorem kind_ne_eof (rendered : Renders placed φ ts) : ∀ t ∈ ts, t.kind ≠ .eof := by
  have sign (s : Sign) (p : Position) : (s.token p).kind ≠ .eof := nofun
  have keyword (k : Keyword) (p : Position) : (k.token p).kind ≠ .eof := nofun
  have name (name : String) (p : Position) : (nameToken name p).kind ≠ .eof := nofun
  induction rendered with
  | @atom e t kind _ =>
    have free : ∀ k ∈ e.atom?, k ≠ .eof := by cases e <;> simp [Expr.atom?]
    simpa using free _ kind
  | _ => simp_all [inParens, inBraces, or_imp]

end Renders

/-- Whether an expression may begin with a token of the kind. -/
def TokenKind.opensExpr : TokenKind → Bool
  | .int _ | .bool _ | .str _ | .nil | .ident _ | .keyword .lambda => true
  | .sign .atSign | .sign .leftParen | .sign .minus | .sign .bang => true
  | _ => false

/-- Whether a statement may begin with a token of the kind. -/
def TokenKind.opensStmt : TokenKind → Bool
  | .keyword .ifWord | .keyword .whileWord | .keyword .returnWord => true
  | other => other.opensExpr

theorem TokenKind.opensStmt_of_opensExpr {k : TokenKind} (opens : k.opensExpr = true) :
    k.opensStmt = true := by
  unfold opensStmt
  split
  case h_4 => exact opens
  all_goals rfl

/-- How the tokens of an expression or of statements begin. -/
def Phrase.Opens : Phrase → List Token → Prop
  | .expr _ _, ts => ∃ t us, ts = t :: us ∧ t.kind.opensExpr = true
  | .stmt _, ts => ∃ t us, ts = t :: us ∧ t.kind.opensStmt = true
  | .stmts _, ts => ∀ t ∈ ts.head?, t.kind.opensStmt = true
  | _, _ => True

theorem Renders.opens {placed : Position → Position → Prop} {φ : Phrase} {ts : List Token}
    (rendered : Renders placed φ ts) : φ.Opens ts := by
  induction rendered with
  | @atom e t kind _ =>
    refine ⟨t, [], rfl, ?_⟩
    have opens : ∀ k ∈ e.atom?, k.opensExpr = true := by
      intro k isAtom
      cases e <;> cases isAtom <;> rfl
    exact opens _ kind
  | member _ _ ih | method _ _ _ ih _ | binary _ _ _ ih _ =>
    obtain ⟨t, us, rfl, opens⟩ := ih
    exact ⟨t, _, rfl, opens⟩
  | unary => exact ⟨_, _, rfl, by rename UnaryOp => op; cases op <;> rfl⟩
  | callStmt _ _ ih =>
    obtain ⟨t, us, rfl, opens⟩ := ih
    exact ⟨t, _, rfl, TokenKind.opensStmt_of_opensExpr opens⟩
  | loosen _ ih => exact ih
  | group | lambda | call | assign | branch | branchElse | loop | ret | retValue =>
    exact ⟨_, _, rfl, rfl⟩
  | noStmts => exact nofun
  | moreStmts _ _ ih _ =>
    obtain ⟨t, us, rfl, opens⟩ := ih
    rintro _ ⟨⟩
    exact opens
  | _ => trivial

/-- Where an assignment seems to start with an expression, the expression is a path, and what comes
after it goes on to the `=`. -/
def Phrase.LeavesAssign : Phrase → List Token → Prop
  | .expr _ _, ts => ∀ rest ending, Cursor.startsAssignment ⟨ts ++ rest, ending⟩ = true →
    Cursor.pathAssigned rest = true
  | .fields _, ts => ∀ rest, Cursor.pathAssigned (ts ++ rest) = Cursor.pathAssigned rest
  | _, _ => True

theorem Renders.leavesAssign {placed : Position → Position → Prop} {φ : Phrase} {ts : List Token}
    (rendered : Renders placed φ ts) : φ.LeavesAssign ts := by
  induction rendered with
  | @atom e t kind _ =>
    intro rest ending starts
    rcases t with ⟨_ | _ | _ | _ | _ | _ | _ | _, p⟩
    case ident name => exact starts
    all_goals cases starts
  | member _ _ ih =>
    intro rest ending starts
    rw [List.append_assoc] at starts
    have goes := ih _ ending starts
    simpa [Cursor.pathAssigned, Sign.token, nameToken] using goes
  | method _ _ _ ih _ =>
    intro rest ending starts
    rw [List.append_assoc] at starts
    -- The look-ahead would have to pass the parenthesis.
    have goes := ih _ ending starts
    simp [Cursor.pathAssigned, Sign.token, nameToken, inParens] at goes
  | @binary op left right place p ts us _ _ _ ih _ =>
    intro rest ending starts
    rw [List.append_assoc] at starts
    have goes := ih _ ending starts
    cases op <;> simp [Cursor.pathAssigned, Sign.token, BinaryOp.sign] at goes
  | @call name es place p q r ts _ _ _ =>
    intro rest ending starts
    simp [Cursor.startsAssignment, Cursor.pathAssigned, nameToken, inParens, Sign.token] at starts
  | loosen _ ih => exact ih
  | group | lambda | unary =>
    intro rest ending starts
    simp [Cursor.startsAssignment, Sign.token, Keyword.token, inParens] at starts
  | noFields => exact fun _ => rfl
  | moreFields _ ih => exact ih
  | _ => trivial

end Protoscript
