import Protoscript.Proofs.Grammar.Programs

/-! # Every node has its true place

The grammar once more, a rule at a time (`Production`) and without places, so that one can speak of
every node of a derivation and the tokens that it stands for (`Derived`).  The place of a node is
true if it is that of the node's own first token: the first one that is no parenthesis around an
expression.  A binary operation, a member access and a method call take theirs from the operand that
comes first, so true places are passed up along any nesting on the left (`Renders.truePlace`);
and true places throughout are the places that are read: `ofTokens_eq_ok_iff_derived`. -/

set_option autoImplicit false

namespace Protoscript

/-! ## Derivations -/

/-- A rule of the grammar: a phrase, its tokens, and the phrases that it is made of with theirs. -/
inductive Production : Phrase → List Token → List (Phrase × List Token) → Prop
  | atom {e : Expr} {t : Token} : e.atom? = some t.kind → Production (.expr 0 e) [t] []
  | group {e : Expr} {p q : Position} {ts : List Token} :
      Production (.expr 0 e) (inParens p q ts) [(.expr loosest e, ts)]
  | lambda {d : Definition} {p : Position} {ts : List Token} : d.name = "lambda" →
      Production (.expr 0 (.lambda d)) (Keyword.lambda.token p :: ts) [(.function d, ts)]
  | call {name : String} {es : List Expr} {place p q r : Position} {ts : List Token} :
      Production (.expr 0 (.call name es place)) (nameToken name p :: inParens q r ts)
        [(.args es, ts)]
  | member {e : Expr} {name : String} {place p q : Position} {ts : List Token} :
      Production (.expr 0 (.member e name place)) (ts ++ [Sign.dot.token p, nameToken name q])
        [(.expr 0 e, ts)]
  | method {e : Expr} {name : String} {es : List Expr} {place p q r s : Position}
      {ts us : List Token} :
      Production (.expr 0 (.method e name es place))
        (ts ++ Sign.dot.token p :: nameToken name q :: inParens r s us)
        [(.expr 0 e, ts), (.args es, us)]
  | unary {op : UnaryOp} {e : Expr} {place p : Position} {ts : List Token} :
      Production (.expr 1 (.unary op e place)) (op.sign.token p :: ts) [(.expr 1 e, ts)]
  | binary {op : BinaryOp} {left right : Expr} {place p : Position} {ts us : List Token} :
      Production (.expr (op.tier + 1) (.binary op left right place)) (ts ++ op.sign.token p :: us)
        [(.expr (op.tier + 1) left, ts), (.expr op.tier right, us)]
  | loosen {level : Nat} {e : Expr} {ts : List Token} :
      Production (.expr (level + 1) e) ts [(.expr level e, ts)]
  | noArgs : Production (.args []) [] []
  | lastArg {e : Expr} {ts : List Token} : Production (.args [e]) ts [(.expr loosest e, ts)]
  | moreArgs {e : Expr} {es : List Expr} {p : Position} {ts us : List Token} :
      Production (.args (e :: es)) (ts ++ Sign.comma.token p :: us)
        [(.expr loosest e, ts), (.args es, us)]
  | valueParam {name : String} {place p : Position} :
      Production (.param ⟨name, false, place⟩) [nameToken name p] []
  | refParam {name : String} {place p q : Position} :
      Production (.param ⟨name, true, place⟩) [Keyword.ref.token p, nameToken name q] []
  | noParams : Production (.params []) [] []
  | lastParam {a : Param} {ts : List Token} : Production (.params [a]) ts [(.param a, ts)]
  | moreParams {a : Param} {ps : List Param} {p : Position} {ts us : List Token} :
      Production (.params (a :: ps)) (ts ++ Sign.comma.token p :: us)
        [(.param a, ts), (.params ps, us)]
  | function {d : Definition} {p q : Position} {ts us : List Token} :
      Production (.function d) (inParens p q ts ++ us) [(.params d.params, ts), (.block d.body, us)]
  | block {body : List Stmt} {p q : Position} {ts : List Token} :
      Production (.block body) (inBraces p q ts) [(.stmts body, ts)]
  | noStmts : Production (.stmts []) [] []
  | moreStmts {s : Stmt} {body : List Stmt} {ts us : List Token} :
      Production (.stmts (s :: body)) (ts ++ us) [(.stmt s, ts), (.stmts body, us)]
  | assign {root : String} {names : List String} {value : Expr} {place p q r : Position}
      {ts us : List Token} :
      Production (.stmt (.assign (root :: names) value place))
        (nameToken root p :: (ts ++ Sign.assign.token q :: (us ++ [Sign.semicolon.token r])))
        [(.fields names, ts), (.expr loosest value, us)]
  | noFields : Production (.fields []) [] []
  | moreFields {name : String} {names : List String} {p q : Position} {ts : List Token} :
      Production (.fields (name :: names)) (Sign.dot.token p :: nameToken name q :: ts)
        [(.fields names, ts)]
  | callStmt {e : Expr} {p : Position} {ts : List Token} : e.isCall = true →
      Production (.stmt (.call e)) (ts ++ [Sign.semicolon.token p]) [(.expr loosest e, ts)]
  | branch {condition : Expr} {yes : List Stmt} {place p q r : Position} {ts us : List Token} :
      Production (.stmt (.branch condition yes none place))
        (Keyword.ifWord.token p :: (inParens q r ts ++ us))
        [(.expr loosest condition, ts), (.block yes, us)]
  | branchElse {condition : Expr} {yes no : List Stmt} {place p q r s : Position}
      {ts us vs : List Token} :
      Production (.stmt (.branch condition yes (some no) place))
        (Keyword.ifWord.token p :: (inParens q r ts ++ (us ++ Keyword.elseWord.token s :: vs)))
        [(.expr loosest condition, ts), (.block yes, us), (.block no, vs)]
  | loop {condition : Expr} {body : List Stmt} {place p q r : Position} {ts us : List Token} :
      Production (.stmt (.loop condition body place))
        (Keyword.whileWord.token p :: (inParens q r ts ++ us))
        [(.expr loosest condition, ts), (.block body, us)]
  | ret {place p q : Position} :
      Production (.stmt (.ret none place)) [Keyword.returnWord.token p, Sign.semicolon.token q] []
  | retValue {value : Expr} {place p q : Position} {ts : List Token} :
      Production (.stmt (.ret (some value) place))
        (Keyword.returnWord.token p :: (ts ++ [Sign.semicolon.token q]))
        [(.expr loosest value, ts)]
  | noDefinitions : Production (.program []) [] []
  | moreDefinitions {d : Definition} {ds : List Definition} {p q : Position}
      {ts us : List Token} :
      Production (.program (d :: ds)) (Keyword.func.token p :: nameToken d.name q :: (ts ++ us))
        [(.function d, ts), (.program ds, us)]

/-- The phrase has a derivation from the tokens in which every node has the property. -/
inductive Derived (P : Phrase → List Token → Prop) : Phrase → List Token → Prop
  | node {φ : Phrase} {ts : List Token} {parts : List (Phrase × List Token)}
      (rule : Production φ ts parts) (here : P φ ts)
      (below : ∀ part ∈ parts, Derived P part.1 part.2) : Derived P φ ts

/-! ## True places -/

/-- The kind of the token that an expression's place is the place of. -/
def Expr.firstKind : Expr → TokenKind
  | .int value _ => .int value
  | .bool value _ => .bool value
  | .str text _ => .str text
  | .nil _ => .nil
  | .var name _ => .ident name
  | .object _ => .sign .atSign
  | .member e _ _ => e.firstKind
  | .call name _ _ => .ident name
  | .method e _ _ _ => e.firstKind
  | .binary _ left _ _ => left.firstKind
  | .unary op _ _ => .sign op.sign
  | .lambda _ => .keyword .lambda

/-- The first token after any opening parentheses. -/
def firstInside (ts : List Token) : Option Token := ts.find? (·.kind ≠ .sign .leftParen)

/-- The place that the phrase carries, if it carries one, is that of its own first token. -/
def Phrase.TruePlace : Phrase → List Token → Prop
  | .expr _ e, ts => firstInside ts = some ⟨e.firstKind, e.position⟩
  | .param ⟨_, true, p⟩, ts => ts.head? = some (Keyword.ref.token p)
  | .param ⟨name, false, p⟩, ts => ts.head? = some (nameToken name p)
  | .stmt (.assign (root :: _) _ p), ts => ts.head? = some (nameToken root p)
  | .stmt (.branch _ _ _ p), ts => ts.head? = some (Keyword.ifWord.token p)
  | .stmt (.loop _ _ p), ts => ts.head? = some (Keyword.whileWord.token p)
  | .stmt (.ret _ p), ts => ts.head? = some (Keyword.returnWord.token p)
  | .program (d :: _), ts => ts.head? = some (Keyword.func.token d.position)
  | _, _ => True

theorem Expr.firstKind_of_atom {e : Expr} {k : TokenKind} (atom : e.atom? = some k) :
    e.firstKind = k ∧ k ≠ .sign .leftParen := by
  cases e <;> cases atom <;> exact ⟨rfl, nofun⟩

theorem firstInside_cons {t : Token} (own : t.kind ≠ .sign .leftParen) (ts : List Token) :
    firstInside (t :: ts) = some t :=
  List.find?_cons_of_pos (by simpa using own)

theorem firstInside_append {t : Token} {ts : List Token} (first : firstInside ts = some t)
    (us : List Token) : firstInside (ts ++ us) = some t := by
  rw [firstInside, List.find?_append]
  exact congrArg (Option.or · _) first

theorem firstInside_inParens {t : Token} {ts : List Token} (first : firstInside ts = some t)
    (p q : Position) : firstInside (inParens p q ts) = some t := by
  rw [firstInside, inParens, List.find?_cons_of_neg (by simp)]
  exact firstInside_append first _

/-- Where each place is that of the first token of its tree or of the operand that comes first, it
is the true place. -/
theorem Renders.truePlace {φ : Phrase} {ts : List Token} (rendered : Renders Eq φ ts) :
    φ.TruePlace ts := by
  induction rendered with
  | @atom e t atom place =>
    obtain ⟨kind, own⟩ := Expr.firstKind_of_atom atom
    rw [Phrase.TruePlace, firstInside_cons own, kind, place]
  | group _ ih => exact firstInside_inParens ih _ _
  | lambda _ place _ _ | call place _ _ =>
    cases place
    exact firstInside_cons (by nofun) _
  | @unary op _ _ _ _ place _ _ =>
    cases place
    exact firstInside_cons (by cases op <;> nofun) _
  | member place _ ih | method place _ _ ih _ | binary place _ _ ih _ =>
    cases place
    exact firstInside_append ih _
  | loosen _ ih => exact ih
  | valueParam place | refParam place | assign place _ _ _ _ | branch place _ _ _ _
  | branchElse place _ _ _ _ _ _ | loop place _ _ _ _ | ret place | retValue place _ _
  | moreDefinitions place _ _ _ _ =>
    cases place
    rfl
  | _ => trivial

/-! ## Derivations and renderings -/

/-- A rendering is a derivation, and what holds of renderings holds of every node of it. -/
theorem Renders.derived {placed : Position → Position → Prop} {P : Phrase → List Token → Prop}
    (holds : ∀ {φ ts}, Renders placed φ ts → P φ ts) {φ : Phrase} {ts : List Token}
    (rendered : Renders placed φ ts) : Derived P φ ts := by
  -- A rule has no part, one, two, or three.
  have none : ∀ part ∈ ([] : List (Phrase × List Token)), Derived P part.1 part.2 := nofun
  have one {ψ us} (first : Derived P ψ us) : ∀ part ∈ [(ψ, us)], Derived P part.1 part.2 := by
    simpa using first
  have two {ψ us χ vs} (first : Derived P ψ us) (second : Derived P χ vs) :
      ∀ part ∈ [(ψ, us), (χ, vs)], Derived P part.1 part.2 := by
    simpa using ⟨first, second⟩
  induction rendered with
  | atom atom place => exact .node (.atom atom) (holds (.atom atom place)) none
  | group inner ih => exact .node .group (holds inner.group) (one ih)
  | lambda name place inner ih =>
    exact .node (.lambda name) (holds (.lambda name place inner)) (one ih)
  | call place args ih => exact .node .call (holds (.call place args)) (one ih)
  | member place inner ih => exact .node .member (holds (.member place inner)) (one ih)
  | method place inner args ih more =>
    exact .node .method (holds (.method place inner args)) (two ih more)
  | unary place inner ih => exact .node .unary (holds (.unary place inner)) (one ih)
  | binary place left right ih more =>
    exact .node .binary (holds (.binary place left right)) (two ih more)
  | loosen inner ih => exact .node .loosen (holds inner.loosen) (one ih)
  | noArgs => exact .node .noArgs (holds .noArgs) none
  | lastArg inner ih => exact .node .lastArg (holds inner.lastArg) (one ih)
  | moreArgs inner args ih more =>
    exact .node .moreArgs (holds (.moreArgs inner args)) (two ih more)
  | valueParam place => exact .node .valueParam (holds (.valueParam place)) none
  | refParam place => exact .node .refParam (holds (.refParam place)) none
  | noParams => exact .node .noParams (holds .noParams) none
  | lastParam inner ih => exact .node .lastParam (holds inner.lastParam) (one ih)
  | moreParams inner params ih more =>
    exact .node .moreParams (holds (.moreParams inner params)) (two ih more)
  | function params block ih more =>
    exact .node .function (holds (.function params block)) (two ih more)
  | block inner ih => exact .node .block (holds inner.block) (one ih)
  | noStmts => exact .node .noStmts (holds .noStmts) none
  | moreStmts inner body ih more =>
    exact .node .moreStmts (holds (.moreStmts inner body)) (two ih more)
  | assign place fields value ih more =>
    exact .node .assign (holds (.assign place fields value)) (two ih more)
  | noFields => exact .node .noFields (holds .noFields) none
  | moreFields inner ih => exact .node .moreFields (holds inner.moreFields) (one ih)
  | callStmt is inner ih => exact .node (.callStmt is) (holds (inner.callStmt is)) (one ih)
  | branch place condition yes ih more =>
    exact .node .branch (holds (.branch place condition yes)) (two ih more)
  | branchElse place condition yes no ih more last =>
    refine .node .branchElse (holds (.branchElse place condition yes no)) ?_
    simpa using ⟨ih, more, last⟩
  | loop place condition body ih more =>
    exact .node .loop (holds (.loop place condition body)) (two ih more)
  | ret place => exact .node .ret (holds (.ret place)) none
  | retValue place inner ih => exact .node .retValue (holds (.retValue place inner)) (one ih)
  | noDefinitions => exact .node .noDefinitions (holds .noDefinitions) none
  | moreDefinitions place function later ih more =>
    exact .node .moreDefinitions (holds (.moreDefinitions place function later)) (two ih more)

/-- A derivation with true places is a rendering with each place that of the first token of its
tree or of the operand that comes first. -/
theorem Derived.renders {φ : Phrase} {ts : List Token} (derived : Derived Phrase.TruePlace φ ts) :
    Renders Eq φ ts := by
  have own {t : Token} {ts : List Token} {k : TokenKind} {p : Position}
      (other : t.kind ≠ .sign .leftParen) (here : firstInside (t :: ts) = some ⟨k, p⟩) :
      p = t.position := by
    cases (firstInside_cons other ts).symm.trans here
    rfl
  have same {t : Token} {ts us : List Token} {k : TokenKind} {p : Position}
      (first : firstInside ts = some t) (here : firstInside (ts ++ us) = some ⟨k, p⟩) :
      p = t.position := by
    cases (firstInside_append first us).symm.trans here
    rfl
  have head {t u : Token} {ts : List Token} (here : (t :: ts).head? = some u) :
      u.position = t.position := by
    cases here
    rfl
  induction derived with
  | node rule here _ ih =>
    cases rule with
    | atom atom => exact .atom atom (own (Expr.firstKind_of_atom atom).2 here)
    | group => exact (ih _ (.head _)).group
    | lambda name => exact .lambda name (own (by nofun) here) (ih _ (.head _))
    | call => exact .call (own (by nofun) here) (ih _ (.head _))
    | member =>
      have inner := ih _ (.head _)
      exact .member (same inner.truePlace here) inner
    | method =>
      have inner := ih _ (.head _)
      exact .method (same inner.truePlace here) inner (ih _ (.tail _ (.head _)))
    | @unary op => exact .unary (own (by cases op <;> nofun) here) (ih _ (.head _))
    | binary =>
      have left := ih _ (.head _)
      exact .binary (same left.truePlace here) left (ih _ (.tail _ (.head _)))
    | loosen => exact (ih _ (.head _)).loosen
    | noArgs => exact .noArgs
    | lastArg => exact (ih _ (.head _)).lastArg
    | moreArgs => exact .moreArgs (ih _ (.head _)) (ih _ (.tail _ (.head _)))
    | valueParam => exact .valueParam (head here)
    | refParam => exact .refParam (head here)
    | noParams => exact .noParams
    | lastParam => exact (ih _ (.head _)).lastParam
    | moreParams => exact .moreParams (ih _ (.head _)) (ih _ (.tail _ (.head _)))
    | function => exact .function (ih _ (.head _)) (ih _ (.tail _ (.head _)))
    | block => exact (ih _ (.head _)).block
    | noStmts => exact .noStmts
    | moreStmts => exact .moreStmts (ih _ (.head _)) (ih _ (.tail _ (.head _)))
    | assign => exact .assign (head here) (ih _ (.head _)) (ih _ (.tail _ (.head _)))
    | noFields => exact .noFields
    | moreFields => exact (ih _ (.head _)).moreFields
    | callStmt is => exact (ih _ (.head _)).callStmt is
    | branch => exact .branch (head here) (ih _ (.head _)) (ih _ (.tail _ (.head _)))
    | branchElse =>
      exact .branchElse (head here) (ih _ (.head _)) (ih _ (.tail _ (.head _)))
        (ih _ (.tail _ (.tail _ (.head _))))
    | loop => exact .loop (head here) (ih _ (.head _)) (ih _ (.tail _ (.head _)))
    | ret => exact .ret (head here)
    | retValue => exact .retValue (head here) (ih _ (.head _))
    | noDefinitions => exact .noDefinitions
    | moreDefinitions =>
      exact .moreDefinitions (head here) (ih _ (.head _)) (ih _ (.tail _ (.head _)))

/-- The definitions that tokens hold are those derived from the tokens up to the first end mark with
every place true: of a definition, a lambda, a branch, a loop and a return that of the keyword, of a
parameter that of `ref` or else the name, of an assignment that of the first name, and of any other
expression that of its first token inside the parentheses around it. -/
theorem Definition.ofTokens_eq_ok_iff_derived {tokens : List Token} {ds : List Definition} :
    ofTokens tokens = .ok ds ↔ Derived Phrase.TruePlace (.program ds) (beforeEnd tokens) := by
  rw [ofTokens_eq_ok_iff]
  exact ⟨Renders.derived Renders.truePlace, Derived.renders⟩

end Protoscript
