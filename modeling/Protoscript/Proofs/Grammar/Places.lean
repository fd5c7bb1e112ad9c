import Mathlib.Data.List.Basic
import Protoscript.Proofs.Grammar

/-! # Trees up to their places

Two trees are the same up to places if they are equal once every place is moved to the start.
Tokens of the same kinds as a rendering render the same tree up to places, with each place where
the tokens stand. -/

set_option autoImplicit false

namespace Protoscript

def Param.unplaced (a : Param) : Param := { a with position := .start }

mutual

/-- The expression with every place moved to the start. -/
def Expr.unplaced : Expr → Expr
  | .int value _ => .int value .start
  | .bool value _ => .bool value .start
  | .str text _ => .str text .start
  | .nil _ => .nil .start
  | .var name _ => .var name .start
  | .object _ => .object .start
  | .member e name _ => .member e.unplaced name .start
  | .call name es _ => .call name (Expr.unplacedAll es) .start
  | .method e name es _ => .method e.unplaced name (Expr.unplacedAll es) .start
  | .binary op left right _ => .binary op left.unplaced right.unplaced .start
  | .unary op e _ => .unary op e.unplaced .start
  | .lambda d => .lambda d.unplaced

def Expr.unplacedAll : List Expr → List Expr
  | [] => []
  | e :: es => e.unplaced :: Expr.unplacedAll es

@[inherit_doc Expr.unplaced]
def Stmt.unplaced : Stmt → Stmt
  | .assign target value _ => .assign target value.unplaced .start
  | .call e => .call e.unplaced
  | .branch condition yes none _ =>
    .branch condition.unplaced (Stmt.unplacedAll yes) none .start
  | .branch condition yes (some no) _ =>
    .branch condition.unplaced (Stmt.unplacedAll yes) (some (Stmt.unplacedAll no)) .start
  | .loop condition body _ => .loop condition.unplaced (Stmt.unplacedAll body) .start
  | .ret none _ => .ret none .start
  | .ret (some value) _ => .ret (some value.unplaced) .start

def Stmt.unplacedAll : List Stmt → List Stmt
  | [] => []
  | s :: body => s.unplaced :: Stmt.unplacedAll body

@[inherit_doc Expr.unplaced]
def Definition.unplaced : Definition → Definition
  | ⟨name, ps, body, _⟩ => ⟨name, ps.map Param.unplaced, Stmt.unplacedAll body, .start⟩

end

theorem Expr.isCall_unplaced (e : Expr) : e.unplaced.isCall = e.isCall := by
  cases e <;> simp [Expr.unplaced, Expr.isCall]

/-! ## Tokens of the same kinds -/

def SameKinds (ts us : List Token) : Prop := ts.map Token.kind = us.map Token.kind

namespace SameKinds

variable {ts us vs : List Token} {t : Token} {p q : Position}

theorem nil (same : SameKinds ts []) : ts = [] := List.map_eq_nil_iff.mp same

theorem cons (same : SameKinds ts (t :: us)) :
    ∃ p us', ts = ⟨t.kind, p⟩ :: us' ∧ SameKinds us' us := by
  obtain ⟨⟨_, p⟩, us', rfl, rfl, rest⟩ := List.map_eq_cons_iff.mp same
  exact ⟨p, us', rfl, rest⟩

theorem singleton (same : SameKinds ts [t]) : ∃ p, ts = [⟨t.kind, p⟩] := by
  obtain ⟨p, _, rfl, rest⟩ := same.cons
  exact ⟨p, by rw [rest.nil]⟩

theorem append (same : SameKinds ts (us ++ vs)) :
    ∃ us' vs', ts = us' ++ vs' ∧ SameKinds us' us ∧ SameKinds vs' vs := by
  rw [SameKinds, List.map_append] at same
  exact List.map_eq_append_iff.mp same

theorem inParens (same : SameKinds ts (inParens p q us)) :
    ∃ p' q' us', ts = Protoscript.inParens p' q' us' ∧ SameKinds us' us := by
  obtain ⟨p', _, rfl, closed⟩ := same.cons
  obtain ⟨us', _, rfl, inner, close⟩ := closed.append
  obtain ⟨q', rfl⟩ := close.singleton
  exact ⟨p', q', us', rfl, inner⟩

theorem inBraces (same : SameKinds ts (inBraces p q us)) :
    ∃ p' q' us', ts = Protoscript.inBraces p' q' us' ∧ SameKinds us' us := by
  obtain ⟨p', _, rfl, closed⟩ := same.cons
  obtain ⟨us', _, rfl, inner, close⟩ := closed.append
  obtain ⟨q', rfl⟩ := close.singleton
  exact ⟨p', q', us', rfl, inner⟩

end SameKinds

/-! ## Renderings at other places -/

/-- The tokens render the phrase up to places, with each place where they stand. -/
def Phrase.PlacedAt : Phrase → List Token → Prop
  | .expr level e, ts => ∃ e', e'.unplaced = e.unplaced ∧ Renders Eq (.expr level e') ts
  | .args es, ts => ∃ es', Expr.unplacedAll es' = Expr.unplacedAll es ∧ Renders Eq (.args es') ts
  | .param a, ts => ∃ a', a'.unplaced = a.unplaced ∧ Renders Eq (.param a') ts
  | .params ps, ts => ∃ ps', ps'.map Param.unplaced = ps.map Param.unplaced ∧
    Renders Eq (.params ps') ts
  -- A definition stands at its keyword, which is no part of the phrase.
  | .function d, ts => ∀ place, ∃ ps body,
    Definition.unplaced ⟨d.name, ps, body, place⟩ = d.unplaced ∧
      Renders Eq (.function ⟨d.name, ps, body, place⟩) ts
  | .block body, ts => ∃ body', Stmt.unplacedAll body' = Stmt.unplacedAll body ∧
    Renders Eq (.block body') ts
  | .stmts body, ts => ∃ body', Stmt.unplacedAll body' = Stmt.unplacedAll body ∧
    Renders Eq (.stmts body') ts
  | .stmt s, ts => ∃ s', s'.unplaced = s.unplaced ∧ Renders Eq (.stmt s') ts
  | .fields names, ts => Renders Eq (.fields names) ts
  | .program ds, ts => ∃ ds', ds'.map Definition.unplaced = ds.map Definition.unplaced ∧
    Renders Eq (.program ds') ts

/-- An atomic expression at any place. -/
theorem Expr.exists_atom {e : Expr} {k : TokenKind} (kind : e.atom? = some k) (p : Position) :
    ∃ e' : Expr, e'.unplaced = e.unplaced ∧ e'.atom? = some k ∧ e'.position = p := by
  cases e <;> cases kind
  case int value _ => exact ⟨.int value p, rfl, rfl, rfl⟩
  case bool value _ => exact ⟨.bool value p, rfl, rfl, rfl⟩
  case str text _ => exact ⟨.str text p, rfl, rfl, rfl⟩
  case nil => exact ⟨.nil p, rfl, rfl, rfl⟩
  case var name _ => exact ⟨.var name p, rfl, rfl, rfl⟩
  case object => exact ⟨.object p, rfl, rfl, rfl⟩

/-- Tokens of the same kinds as a rendering render the phrase up to places. -/
theorem Renders.placedAt {placed : Position → Position → Prop} {φ : Phrase} {us ts : List Token}
    (rendered : Renders placed φ us) (same : SameKinds ts us) : φ.PlacedAt ts := by
  induction rendered generalizing ts with
  | atom kind _ =>
    obtain ⟨p, rfl⟩ := same.singleton
    obtain ⟨e, alike, kind, place⟩ := Expr.exists_atom kind p
    exact ⟨e, alike, .atom kind place⟩
  | group _ ih =>
    obtain ⟨p, q, ts, rfl, inner⟩ := same.inParens
    obtain ⟨e, alike, rendered⟩ := ih inner
    exact ⟨e, alike, rendered.group⟩
  | lambda name _ _ ih =>
    obtain ⟨p, ts, rfl, inner⟩ := same.cons
    obtain ⟨ps, body, alike, rendered⟩ := ih inner p
    exact ⟨.lambda _, congrArg Expr.lambda alike, rendered.lambda name rfl⟩
  | @call name _ _ _ _ _ _ _ _ ih =>
    obtain ⟨p, _, rfl, behind⟩ := same.cons
    obtain ⟨q, r, ts, rfl, inner⟩ := behind.inParens
    obtain ⟨es, alike, rendered⟩ := ih inner
    exact ⟨.call name es p, by simp [Expr.unplaced, alike], .call rfl rendered⟩
  | @member _ name _ _ _ _ _ _ ih =>
    obtain ⟨ts, _, rfl, inner, access⟩ := same.append
    obtain ⟨p, _, rfl, field⟩ := access.cons
    obtain ⟨q, rfl⟩ := field.singleton
    obtain ⟨e, alike, rendered⟩ := ih inner
    exact ⟨.member e name e.position, by simp [Expr.unplaced, alike], .member rfl rendered⟩
  | @method _ name _ _ _ _ _ _ _ _ _ _ _ ih more =>
    obtain ⟨ts, _, rfl, inner, access⟩ := same.append
    obtain ⟨p, _, rfl, call⟩ := access.cons
    obtain ⟨q, _, rfl, behind⟩ := call.cons
    obtain ⟨r, s, us, rfl, args⟩ := behind.inParens
    obtain ⟨e, alike, rendered⟩ := ih inner
    obtain ⟨es, alikeArgs, renderedArgs⟩ := more args
    exact ⟨.method e name es e.position, by simp [Expr.unplaced, alike, alikeArgs],
      .method rfl rendered renderedArgs⟩
  | @unary op _ _ _ _ _ _ ih =>
    obtain ⟨p, ts, rfl, inner⟩ := same.cons
    obtain ⟨e, alike, rendered⟩ := ih inner
    exact ⟨.unary op e p, by simp [Expr.unplaced, alike], .unary rfl rendered⟩
  | @binary op _ _ _ _ _ _ _ _ _ first second =>
    obtain ⟨ts, _, rfl, left, rest⟩ := same.append
    obtain ⟨p, us, rfl, right⟩ := rest.cons
    obtain ⟨l, alikeLeft, renderedLeft⟩ := first left
    obtain ⟨r, alikeRight, renderedRight⟩ := second right
    exact ⟨.binary op l r l.position, by simp [Expr.unplaced, alikeLeft, alikeRight],
      .binary rfl renderedLeft renderedRight⟩
  | loosen _ ih =>
    obtain ⟨e, alike, rendered⟩ := ih same
    exact ⟨e, alike, rendered.loosen⟩
  | noArgs =>
    obtain rfl := same.nil
    exact ⟨[], rfl, .noArgs⟩
  | lastArg _ ih =>
    obtain ⟨e, alike, rendered⟩ := ih same
    exact ⟨[e], by simp [Expr.unplacedAll, alike], rendered.lastArg⟩
  | moreArgs _ _ ih more =>
    obtain ⟨ts, _, rfl, first, rest⟩ := same.append
    obtain ⟨p, us, rfl, later⟩ := rest.cons
    obtain ⟨e, alike, rendered⟩ := ih first
    obtain ⟨es, alikeLater, renderedLater⟩ := more later
    exact ⟨e :: es, by simp [Expr.unplacedAll, alike, alikeLater], rendered.moreArgs renderedLater⟩
  | @valueParam name _ _ _ =>
    obtain ⟨p, rfl⟩ := same.singleton
    exact ⟨⟨name, false, p⟩, rfl, .valueParam rfl⟩
  | @refParam name _ _ _ _ =>
    obtain ⟨p, _, rfl, rest⟩ := same.cons
    obtain ⟨q, rfl⟩ := rest.singleton
    exact ⟨⟨name, true, p⟩, rfl, .refParam rfl⟩
  | noParams =>
    obtain rfl := same.nil
    exact ⟨[], rfl, .noParams⟩
  | lastParam _ ih =>
    obtain ⟨a, alike, rendered⟩ := ih same
    exact ⟨[a], by simp [alike], rendered.lastParam⟩
  | moreParams _ _ ih more =>
    obtain ⟨ts, _, rfl, first, rest⟩ := same.append
    obtain ⟨p, us, rfl, later⟩ := rest.cons
    obtain ⟨a, alike, rendered⟩ := ih first
    obtain ⟨ps, alikeLater, renderedLater⟩ := more later
    exact ⟨a :: ps, by simp [alike, alikeLater], rendered.moreParams renderedLater⟩
  | @function d _ _ _ _ _ _ params block =>
    intro place
    obtain ⟨_, us, rfl, front, back⟩ := same.append
    obtain ⟨p, q, ts, rfl, inner⟩ := front.inParens
    obtain ⟨ps, alikeParams, renderedParams⟩ := params inner
    obtain ⟨body, alikeBody, renderedBody⟩ := block back
    obtain ⟨name, _, _, _⟩ := d
    exact ⟨ps, body, by simp [Definition.unplaced, alikeParams, alikeBody],
      .function renderedParams renderedBody⟩
  | block _ ih =>
    obtain ⟨p, q, ts, rfl, inner⟩ := same.inBraces
    obtain ⟨body, alike, rendered⟩ := ih inner
    exact ⟨body, alike, rendered.block⟩
  | noStmts =>
    obtain rfl := same.nil
    exact ⟨[], rfl, .noStmts⟩
  | moreStmts _ _ ih more =>
    obtain ⟨ts, us, rfl, first, later⟩ := same.append
    obtain ⟨s, alike, rendered⟩ := ih first
    obtain ⟨body, alikeLater, renderedLater⟩ := more later
    exact ⟨s :: body, by simp [Stmt.unplacedAll, alike, alikeLater],
      rendered.moreStmts renderedLater⟩
  | @assign root names _ _ _ _ _ _ _ _ _ _ fields value =>
    obtain ⟨p, _, rfl, behind⟩ := same.cons
    obtain ⟨ts, _, rfl, path, source⟩ := behind.append
    obtain ⟨q, _, rfl, closed⟩ := source.cons
    obtain ⟨us, _, rfl, inner, close⟩ := closed.append
    obtain ⟨r, rfl⟩ := close.singleton
    obtain ⟨e, alike, rendered⟩ := value inner
    exact ⟨.assign (root :: names) e p, by simp [Stmt.unplaced, alike],
      .assign rfl (fields path) rendered⟩
  | noFields =>
    obtain rfl := same.nil
    exact .noFields
  | moreFields _ ih =>
    obtain ⟨p, _, rfl, rest⟩ := same.cons
    obtain ⟨q, ts, rfl, later⟩ := rest.cons
    exact .moreFields (ih later)
  | callStmt is _ ih =>
    obtain ⟨ts, _, rfl, inner, rest⟩ := same.append
    obtain ⟨p, rfl⟩ := rest.singleton
    obtain ⟨e, alike, rendered⟩ := ih inner
    have isCall : e.isCall = true := by rw [← e.isCall_unplaced, alike, Expr.isCall_unplaced, is]
    exact ⟨.call e, by simp [Stmt.unplaced, alike], rendered.callStmt isCall⟩
  | branch _ _ _ condition block =>
    obtain ⟨p, _, rfl, behind⟩ := same.cons
    obtain ⟨_, us, rfl, front, back⟩ := behind.append
    obtain ⟨q, r, ts, rfl, inner⟩ := front.inParens
    obtain ⟨e, alike, rendered⟩ := condition inner
    obtain ⟨yes, alikeYes, renderedYes⟩ := block back
    exact ⟨.branch e yes none p, by simp [Stmt.unplaced, alike, alikeYes],
      .branch rfl rendered renderedYes⟩
  | branchElse _ _ _ _ condition block other =>
    obtain ⟨p, _, rfl, behind⟩ := same.cons
    obtain ⟨_, _, rfl, front, back⟩ := behind.append
    obtain ⟨q, r, ts, rfl, inner⟩ := front.inParens
    obtain ⟨us, _, rfl, first, rest⟩ := back.append
    obtain ⟨s, vs, rfl, last⟩ := rest.cons
    obtain ⟨e, alike, rendered⟩ := condition inner
    obtain ⟨yes, alikeYes, renderedYes⟩ := block first
    obtain ⟨no, alikeNo, renderedNo⟩ := other last
    exact ⟨.branch e yes (some no) p, by simp [Stmt.unplaced, alike, alikeYes, alikeNo],
      .branchElse rfl rendered renderedYes renderedNo⟩
  | loop _ _ _ condition block =>
    obtain ⟨p, _, rfl, behind⟩ := same.cons
    obtain ⟨_, us, rfl, front, back⟩ := behind.append
    obtain ⟨q, r, ts, rfl, inner⟩ := front.inParens
    obtain ⟨e, alike, rendered⟩ := condition inner
    obtain ⟨body, alikeBody, renderedBody⟩ := block back
    exact ⟨.loop e body p, by simp [Stmt.unplaced, alike, alikeBody],
      .loop rfl rendered renderedBody⟩
  | ret _ =>
    obtain ⟨p, _, rfl, rest⟩ := same.cons
    obtain ⟨q, rfl⟩ := rest.singleton
    exact ⟨.ret none p, by simp [Stmt.unplaced], .ret rfl⟩
  | retValue _ _ ih =>
    obtain ⟨p, _, rfl, closed⟩ := same.cons
    obtain ⟨ts, _, rfl, inner, close⟩ := closed.append
    obtain ⟨q, rfl⟩ := close.singleton
    obtain ⟨e, alike, rendered⟩ := ih inner
    exact ⟨.ret (some e) p, by simp [Stmt.unplaced, alike], .retValue rfl rendered⟩
  | noDefinitions =>
    obtain rfl := same.nil
    exact ⟨[], rfl, .noDefinitions⟩
  | @moreDefinitions d _ _ _ _ _ _ _ _ ih more =>
    obtain ⟨p, _, rfl, named⟩ := same.cons
    obtain ⟨q, _, rfl, behind⟩ := named.cons
    obtain ⟨ts, us, rfl, first, later⟩ := behind.append
    obtain ⟨ps, body, alike, rendered⟩ := ih first p
    obtain ⟨ds, alikeLater, renderedLater⟩ := more later
    exact ⟨⟨d.name, ps, body, p⟩ :: ds, by rw [List.map_cons, List.map_cons, alike, alikeLater],
      .moreDefinitions rfl rendered renderedLater⟩

end Protoscript
