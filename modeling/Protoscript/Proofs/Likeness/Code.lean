import Mathlib.Data.List.Forall2
import Protoscript.Syntax

/-! # Trees that differ in their places alone

Two programs may be the same but for where their words stand.  A `Code` says which lines stand for
each other, and which lambdas, and under which names functions may be looked up; trees are the same
up to it if they have the same shape, the same names and the same literals, all their lines and
lambdas stand for each other, and they look up no other names.

A tree is the same as itself if the code relates every line and every lambda in it to itself and
has every name that is looked up in it: `Code.Covers.sameDefinition`. -/

set_option autoImplicit false

namespace Protoscript

structure Code where
  line : Nat → Nat → Prop
  lambda : Definition → Definition → Prop
  /-- The names of variables and of calls, under which functions may be looked up. -/
  name : String → Prop

namespace Code

/-- Parameters are only told apart by name and by how they are passed. -/
structure SameParam (p q : Param) : Prop where
  name : p.name = q.name
  byRef : p.byRef = q.byRef

mutual

inductive SameExpr (K : Code) : Expr → Expr → Prop
  | int (n : Int64) {p q : Position} (line : K.line p.line q.line) :
    SameExpr K (.int n p) (.int n q)
  | bool (b : Bool) {p q : Position} (line : K.line p.line q.line) :
    SameExpr K (.bool b p) (.bool b q)
  | str (text : String) {p q : Position} (line : K.line p.line q.line) :
    SameExpr K (.str text p) (.str text q)
  | nil {p q : Position} (line : K.line p.line q.line) : SameExpr K (.nil p) (.nil q)
  | var (name : String) (known : K.name name) {p q : Position} (line : K.line p.line q.line) :
    SameExpr K (.var name p) (.var name q)
  | object {p q : Position} (line : K.line p.line q.line) : SameExpr K (.object p) (.object q)
  | member {e f : Expr} (object : SameExpr K e f) (field : String) {p q : Position}
      (line : K.line p.line q.line) : SameExpr K (.member e field p) (.member f field q)
  | call (callee : String) (known : K.name callee) {es fs : List Expr}
      (args : List.Forall₂ (SameExpr K) es fs) {p q : Position} (line : K.line p.line q.line) :
    SameExpr K (.call callee es p) (.call callee fs q)
  | method {e f : Expr} (object : SameExpr K e f) (name : String) {es fs : List Expr}
      (args : List.Forall₂ (SameExpr K) es fs) {p q : Position} (line : K.line p.line q.line) :
    SameExpr K (.method e name es p) (.method f name fs q)
  | binary (op : BinaryOp) {l l' r r' : Expr} (left : SameExpr K l l') (right : SameExpr K r r')
      {p q : Position} (line : K.line p.line q.line) :
    SameExpr K (.binary op l r p) (.binary op l' r' q)
  | unary (op : UnaryOp) {e f : Expr} (operand : SameExpr K e f) {p q : Position}
      (line : K.line p.line q.line) : SameExpr K (.unary op e p) (.unary op f q)
  | lambda {d d' : Definition} (known : K.lambda d d') (same : SameDefinition K d d') :
    SameExpr K (.lambda d) (.lambda d')

inductive SameStmt (K : Code) : Stmt → Stmt → Prop
  | assign (target : List String) {e f : Expr} (value : SameExpr K e f) {p q : Position}
      (line : K.line p.line q.line) : SameStmt K (.assign target e p) (.assign target f q)
  | call {e f : Expr} (expr : SameExpr K e f) : SameStmt K (.call e) (.call f)
  | branch {e f : Expr} (condition : SameExpr K e f) {ss ts : List Stmt}
      (yes : List.Forall₂ (SameStmt K) ss ts) {us vs : Option (List Stmt)}
      (no : Option.Rel (List.Forall₂ (SameStmt K)) us vs) {p q : Position}
      (line : K.line p.line q.line) : SameStmt K (.branch e ss us p) (.branch f ts vs q)
  | loop {e f : Expr} (condition : SameExpr K e f) {ss ts : List Stmt}
      (body : List.Forall₂ (SameStmt K) ss ts) {p q : Position} (line : K.line p.line q.line) :
    SameStmt K (.loop e ss p) (.loop f ts q)
  | ret {e f : Option Expr} (value : Option.Rel (SameExpr K) e f) {p q : Position}
      (line : K.line p.line q.line) : SameStmt K (.ret e p) (.ret f q)

inductive SameDefinition (K : Code) : Definition → Definition → Prop
  | mk {d e : Definition} (name : d.name = e.name)
      (params : List.Forall₂ SameParam d.params e.params)
      (body : List.Forall₂ (SameStmt K) d.body e.body)
      (line : K.line d.position.line e.position.line) : SameDefinition K d e

end

variable {K : Code}

namespace SameDefinition

variable {d e : Definition} (same : K.SameDefinition d e)

include same

theorem name : d.name = e.name := by
  cases same with
  | mk name _ _ _ => exact name

theorem params : List.Forall₂ SameParam d.params e.params := by
  cases same with
  | mk _ params _ _ => exact params

theorem body : List.Forall₂ K.SameStmt d.body e.body := by
  cases same with
  | mk _ _ body _ => exact body

theorem line : K.line d.position.line e.position.line := by
  cases same with
  | mk _ _ _ line => exact line

theorem arity : d.arity = e.arity := same.params.length_eq

theorem signature : d.signature = e.signature := by
  rw [Definition.signature, Definition.signature, same.name, same.arity]

end SameDefinition

theorem SameExpr.line {e f : Expr} (same : K.SameExpr e f) :
    K.line e.position.line f.position.line := by
  cases same with
  | lambda _ same => exact same.line
  | int _ line | bool _ line | str _ line | nil line | var _ _ line | object line
  | member _ _ line | call _ _ _ line | method _ _ _ line | binary _ _ _ line
  | unary _ _ line => exact line

theorem SameStmt.line {s t : Stmt} (same : K.SameStmt s t) :
    K.line s.position.line t.position.line := by
  cases same with
  | call expr => exact expr.line
  | assign _ _ line | branch _ _ _ line | loop _ _ line | ret _ line => exact line

end Code

/-! ## The trees inside a tree -/

inductive Tree
  | expr (e : Expr)
  | stmt (s : Stmt)
  | definition (d : Definition)

namespace Tree

def line : Tree → Nat
  | expr e => e.position.line
  | stmt s => s.position.line
  | definition d => d.position.line

/-- The tree itself is a variable or a call of that name, so that a function may be looked up under
it. -/
def LooksUp : Tree → String → Prop
  | expr (.var x _), name => x = name
  | expr (.call callee _ _), name => callee = name
  | _, _ => False

/-- The tree itself is an assignment to that single name, or a call or a method call with the bare
variable as an argument, so that the variable may be written. -/
def Writes : Tree → String → Prop
  | stmt (.assign target _ _), x => target = [x]
  | expr (.call _ args _), x | expr (.method _ _ args _), x => ∃ p, Expr.var x p ∈ args
  | _, _ => False

/-- A tree stands right inside another. -/
inductive PartOf : Tree → Tree → Prop
  | member (e : Expr) (field : String) (p : Position) : PartOf (expr e) (expr (.member e field p))
  | argument {e : Expr} {es : List Expr} (among : e ∈ es) (callee : String) (p : Position) :
    PartOf (expr e) (expr (.call callee es p))
  | receiver (e : Expr) (name : String) (es : List Expr) (p : Position) :
    PartOf (expr e) (expr (.method e name es p))
  | methodArgument {e : Expr} {es : List Expr} (among : e ∈ es) (object : Expr) (name : String)
      (p : Position) : PartOf (expr e) (expr (.method object name es p))
  | left (op : BinaryOp) (l r : Expr) (p : Position) : PartOf (expr l) (expr (.binary op l r p))
  | right (op : BinaryOp) (l r : Expr) (p : Position) : PartOf (expr r) (expr (.binary op l r p))
  | operand (op : UnaryOp) (e : Expr) (p : Position) : PartOf (expr e) (expr (.unary op e p))
  | lambda (d : Definition) : PartOf (definition d) (expr (.lambda d))
  | assigned (target : List String) (e : Expr) (p : Position) :
    PartOf (expr e) (stmt (.assign target e p))
  | called (e : Expr) : PartOf (expr e) (stmt (.call e))
  | tested (e : Expr) (yes : List Stmt) (no : Option (List Stmt)) (p : Position) :
    PartOf (expr e) (stmt (.branch e yes no p))
  | yes {s : Stmt} {ss : List Stmt} (among : s ∈ ss) (e : Expr) (no : Option (List Stmt))
      (p : Position) : PartOf (stmt s) (stmt (.branch e ss no p))
  | no {s : Stmt} {ss : List Stmt} (among : s ∈ ss) (e : Expr) (yes : List Stmt) (p : Position) :
    PartOf (stmt s) (stmt (.branch e yes (some ss) p))
  | repeated (e : Expr) (body : List Stmt) (p : Position) : PartOf (expr e) (stmt (.loop e body p))
  | looped {s : Stmt} {body : List Stmt} (among : s ∈ body) (e : Expr) (p : Position) :
    PartOf (stmt s) (stmt (.loop e body p))
  | returned (e : Expr) (p : Position) : PartOf (expr e) (stmt (.ret (some e) p))
  | body {s : Stmt} {d : Definition} (among : s ∈ d.body) : PartOf (stmt s) (definition d)

end Tree

namespace Code

/-- The trees of `within` and all trees inside them have lines and lambdas that the code relates to
themselves, and look up names that it has. -/
structure Covers (K : Code) (within : Tree → Prop) : Prop where
  part : ∀ {t u}, t.PartOf u → within u → within t
  line : ∀ {t}, within t → K.line t.line t.line
  lambda : ∀ {d}, within (.expr (.lambda d)) → K.lambda d d
  name : ∀ {t name}, within t → t.LooksUp name → K.name name

theorem sameParams_self (ps : List Param) : List.Forall₂ SameParam ps ps :=
  List.forall₂_same.mpr fun _ _ => ⟨rfl, rfl⟩

namespace Covers

variable {K : Code} {within : Tree → Prop}

mutual

theorem sameExpr (covers : K.Covers within) : ∀ e, within (.expr e) → K.SameExpr e e
  | .int n _, here => .int n (covers.line here)
  | .bool b _, here => .bool b (covers.line here)
  | .str text _, here => .str text (covers.line here)
  | .nil _, here => .nil (covers.line here)
  | .var name _, here => .var name (covers.name here rfl) (covers.line here)
  | .object _, here => .object (covers.line here)
  | .member e field p, here =>
    .member (covers.sameExpr e (covers.part (.member e field p) here)) field (covers.line here)
  | .call callee es p, here =>
    .call callee (covers.name here rfl)
      (covers.sameExprs es fun _ among => covers.part (.argument among callee p) here)
      (covers.line here)
  | .method e name es p, here =>
    .method (covers.sameExpr e (covers.part (.receiver e name es p) here)) name
      (covers.sameExprs es fun _ among => covers.part (.methodArgument among e name p) here)
      (covers.line here)
  | .binary op l r p, here =>
    .binary op (covers.sameExpr l (covers.part (.left op l r p) here))
      (covers.sameExpr r (covers.part (.right op l r p) here)) (covers.line here)
  | .unary op e p, here =>
    .unary op (covers.sameExpr e (covers.part (.operand op e p) here)) (covers.line here)
  | .lambda d, here =>
    .lambda (covers.lambda here) (covers.sameDefinition d (covers.part (.lambda d) here))

theorem sameExprs (covers : K.Covers within) : ∀ es : List Expr, (∀ e ∈ es, within (.expr e)) →
    List.Forall₂ K.SameExpr es es
  | [], _ => .nil
  | e :: es, here =>
    .cons (covers.sameExpr e (here e List.mem_cons_self))
      (covers.sameExprs es fun f among => here f (List.mem_cons_of_mem e among))

theorem sameStmt (covers : K.Covers within) : ∀ s, within (.stmt s) → K.SameStmt s s
  | .assign target e p, here =>
    .assign target (covers.sameExpr e (covers.part (.assigned target e p) here)) (covers.line here)
  | .call e, here => .call (covers.sameExpr e (covers.part (.called e) here))
  | .branch e yes none p, here =>
    .branch (covers.sameExpr e (covers.part (.tested e yes none p) here))
      (covers.sameStmts yes fun _ among => covers.part (.yes among e none p) here) .none
      (covers.line here)
  | .branch e yes (some no) p, here =>
    .branch (covers.sameExpr e (covers.part (.tested e yes (some no) p) here))
      (covers.sameStmts yes fun _ among => covers.part (.yes among e (some no) p) here)
      (.some (covers.sameStmts no fun _ among => covers.part (.no among e yes p) here))
      (covers.line here)
  | .loop e body p, here =>
    .loop (covers.sameExpr e (covers.part (.repeated e body p) here))
      (covers.sameStmts body fun _ among => covers.part (.looped among e p) here) (covers.line here)
  | .ret none _, here => .ret .none (covers.line here)
  | .ret (some e) p, here =>
    .ret (.some (covers.sameExpr e (covers.part (.returned e p) here))) (covers.line here)

theorem sameStmts (covers : K.Covers within) : ∀ ss : List Stmt, (∀ s ∈ ss, within (.stmt s)) →
    List.Forall₂ K.SameStmt ss ss
  | [], _ => .nil
  | s :: ss, here =>
    .cons (covers.sameStmt s (here s List.mem_cons_self))
      (covers.sameStmts ss fun t among => here t (List.mem_cons_of_mem s among))

theorem sameDefinition (covers : K.Covers within) : ∀ d, within (.definition d) →
    K.SameDefinition d d
  | ⟨_, ps, body, _⟩, here =>
    .mk rfl (sameParams_self ps)
      (covers.sameStmts body fun _ among => covers.part (.body among) here) (covers.line here)

end

end Covers

/-- Only the same lines and the same lambdas stand for each other. -/
def equal : Code := ⟨Eq, Eq, fun _ => True⟩

theorem covers_equal : equal.Covers fun _ => True :=
  ⟨fun _ _ => trivial, fun _ => rfl, fun _ => rfl, fun _ _ => trivial⟩

theorem sameDefinition_equal (d : Definition) : equal.SameDefinition d d :=
  covers_equal.sameDefinition d trivial

end Code

end Protoscript
