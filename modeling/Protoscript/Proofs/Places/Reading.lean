import Protoscript.Proofs.Grammar.Places
import Protoscript.Proofs.Likeness.Code
import Protoscript.Syntax.Grammar

/-! # Reading tokens of the same kinds

Readers look at the kinds of tokens alone.  On cursors before tokens of the same kinds, wherever
these stand, they return trees of the same shape, or refuse for the same cause (`readsAlike`, by
induction on the fuel).  So lists of tokens of the same kinds hold the same definitions up to their
places, or the same errors up to theirs: `Definition.ofTokens_alike`. -/

set_option autoImplicit false

namespace Protoscript

/-- Trees are told apart by their shape and not by their places. -/
def Code.anywhere : Code := ⟨fun _ _ => True, fun _ _ => True, fun _ => True⟩

theorem Code.SameExpr.isCall_eq {K : Code} {e f : Expr} (same : K.SameExpr e f) :
    e.isCall = f.isCall := by
  cases same <;> rfl

/-- The cause without the line that a redefinition quotes. -/
def Diagnostic.Cause.unplaced : Diagnostic.Cause → Diagnostic.Cause
  | .redefinition name arity _ => .redefinition name arity 0
  | other => other

/-- The diagnostic moved to the start. -/
def Diagnostic.unplaced (d : Diagnostic) : Diagnostic := ⟨d.cause.unplaced, .start⟩

namespace Diagnostic

variable {d e : Diagnostic}

theorem code_eq_of_unplaced (same : d.unplaced = e.unplaced) : d.code = e.code := by
  have code : ∀ cause : Cause, cause.unplaced.code = cause.code := by
    intro cause
    cases cause <;> rfl
  have causes : d.cause.unplaced = e.cause.unplaced := congrArg Diagnostic.cause same
  rw [Diagnostic.code, Diagnostic.code, ← code d.cause, ← code e.cause, causes]

/-- Only a redefinition quotes a line. -/
theorem message_eq_of_unplaced (same : d.unplaced = e.unplaced) (other : d.code ≠ .S003) :
    d.message = e.message := by
  have causes : d.cause.unplaced = e.cause.unplaced := congrArg Diagnostic.cause same
  have equal : d.cause = e.cause := by
    obtain ⟨left, p⟩ := d
    obtain ⟨right, q⟩ := e
    cases left with
    | redefinition => exact absurd rfl other
    | _ => cases right <;> first | exact causes | cases causes
  rw [Diagnostic.message, Diagnostic.message, equal]

end Diagnostic

/-- Both are fine and `V` relates what comes of them, or both have the same errors up to their
places and the lines that these quote. -/
inductive SameCheck {α β : Type} (V : α → β → Prop) :
    Except (List Diagnostic) α → Except (List Diagnostic) β → Prop
  | ok {a : α} {b : β} (results : V a b) : SameCheck V (.ok a) (.ok b)
  | error {ds es : List Diagnostic}
      (errors : ds.map Diagnostic.unplaced = es.map Diagnostic.unplaced) :
    SameCheck V (.error ds) (.error es)

theorem SameCheck.imp {α β : Type} {V U : α → β → Prop} {x : Except (List Diagnostic) α}
    {y : Except (List Diagnostic) β} (same : SameCheck V x y) (weaken : ∀ a b, V a b → U a b) :
    SameCheck U x y := by
  cases same with
  | ok results => exact .ok (weaken _ _ results)
  | error errors => exact .error errors

theorem SameCheck.bind {α β γ δ : Type} {V : α → β → Prop} {U : γ → δ → Prop}
    {x : Except (List Diagnostic) α} {y : Except (List Diagnostic) β}
    {f : α → Except (List Diagnostic) γ} {g : β → Except (List Diagnostic) δ}
    (first : SameCheck V x y) (second : ∀ a b, V a b → SameCheck U (f a) (g b)) :
    SameCheck U (x >>= f) (y >>= g) := by
  cases first with
  | ok results => exact second _ _ results
  | error errors => exact .error errors

/-! ## Cursors -/

namespace Cursor

def SameKinds (c d : Cursor) : Prop := Protoscript.SameKinds c.rest d.rest

theorem pathAssigned_eq {ts us : List Token} (same : Protoscript.SameKinds ts us) :
    pathAssigned ts = pathAssigned us := by
  induction us using pathAssigned.induct generalizing ts with
  | case1 p name q us ih =>
    obtain ⟨p', _, rfl, behind⟩ := same.cons
    obtain ⟨q', ts, rfl, rest⟩ := behind.cons
    rw [pathAssigned, pathAssigned]
    exact ih rest
  | case2 p us =>
    obtain ⟨p', _, rfl, -⟩ := same.cons
    rw [pathAssigned, pathAssigned]
  | case3 us notPath notAssigned =>
    have same : Protoscript.SameKinds us ts := same.symm
    rw [pathAssigned.eq_3 us notPath notAssigned]
    unfold pathAssigned
    split
    · obtain ⟨p', _, rfl, behind⟩ := same.cons
      obtain ⟨q', us, rfl, -⟩ := behind.cons
      exact (notPath _ _ _ _ rfl).elim
    · obtain ⟨p', us, rfl, -⟩ := same.cons
      exact (notAssigned _ _ rfl).elim
    · rfl

namespace SameKinds

variable {c d : Cursor}

/-- Both stand on their end marks, or before tokens of one kind. -/
theorem cases (same : c.SameKinds d) :
    c.rest = [] ∧ d.rest = [] ∨ ∃ t u ts us, c.rest = t :: ts ∧ d.rest = u :: us ∧
      t.kind = u.kind ∧ Protoscript.SameKinds ts us := by
  obtain ⟨ts, p⟩ := c
  obtain ⟨us, q⟩ := d
  cases us with
  | nil => exact .inl ⟨Protoscript.SameKinds.nil same, rfl⟩
  | cons u us =>
    obtain ⟨p', ts, rest, same⟩ := Protoscript.SameKinds.cons same
    exact .inr ⟨_, u, ts, us, rest, rfl, rfl, same⟩

theorem kind_eq (same : c.SameKinds d) : c.kind = d.kind := by
  unfold kind
  rcases same.cases with ⟨left, right⟩ | ⟨t, u, ts, us, left, right, kind, -⟩
  · rw [left, right]
  · rw [left, right]
    exact kind

theorem advance (same : c.SameKinds d) : c.advance.SameKinds d.advance := by
  unfold SameKinds Cursor.advance
  rcases same.cases with ⟨left, right⟩ | ⟨t, u, ts, us, left, right, -, rest⟩
  · rw [left, right]
    rfl
  · rw [left, right]
    exact rest

theorem startsAssignment_eq (same : c.SameKinds d) :
    c.startsAssignment = d.startsAssignment := by
  unfold startsAssignment
  rcases same.cases with ⟨left, right⟩ | ⟨⟨k, p⟩, ⟨_, q⟩, ts, us, left, right, rfl, rest⟩
  · rw [left, right]
  · rw [left, right]
    cases k with
    | ident name => exact pathAssigned_eq rest
    | _ => rfl

theorem recover (same : c.SameKinds d) : c.recover.SameKinds d.recover := by
  have skipped : ∀ {ts us}, Protoscript.SameKinds ts us → Protoscript.SameKinds
      (ts.dropWhile fun t => t.kind ≠ .keyword .func ∧ t.kind ≠ .eof)
      (us.dropWhile fun t => t.kind ≠ .keyword .func ∧ t.kind ≠ .eof) := by
    intro ts us same
    induction us generalizing ts with
    | nil =>
      rw [same.nil]
      rfl
    | cons u us ih =>
      obtain ⟨p, ts, rfl, rest⟩ := same.cons
      rw [List.dropWhile_cons, List.dropWhile_cons]
      split
      · exact ih rest
      · exact same
  exact skipped same

theorem ofTokens {ts us : List Token} (same : Protoscript.SameKinds ts us) :
    (Cursor.ofTokens ts).SameKinds (Cursor.ofTokens us) := by
  have last : (ts.getLast?).map Token.kind = (us.getLast?).map Token.kind := by
    rw [← List.getLast?_map, ← List.getLast?_map, same]
  unfold Cursor.ofTokens
  generalize ts.getLast? = t, us.getLast? = u at last
  cases t with
  | none =>
    cases u with
    | none => rfl
    | some u => cases last
  | some t =>
    cases u with
    | none => cases last
    | some u =>
      have kind : t.kind = u.kind := Option.some.inj last
      dsimp only
      rw [kind]
      split
      · unfold SameKinds Protoscript.SameKinds
        rw [List.map_dropLast, List.map_dropLast, same]
      · exact same

end SameKinds

end Cursor

namespace Reader

/-! ## What two readers return -/

variable {α β γ δ : Type}

/-- Both readings end well, with results that `V` relates, or both stop, for the same cause. -/
inductive SameReading (V : α → β → Prop) :
    EStateM.Result ReadStop Cursor α → EStateM.Result ReadStop Cursor β → Prop
  | ok {a : α} {b : β} {c d : Cursor} (results : V a b) (cursors : c.SameKinds d) :
    SameReading V (.ok a c) (.ok b d)
  | refused (cause : Diagnostic.Cause) (p q : Position) {c d : Cursor}
      (cursors : c.SameKinds d) :
    SameReading V (.error (.refused ⟨cause, p⟩) c) (.error (.refused ⟨cause, q⟩) d)
  | exhausted {c d : Cursor} (cursors : c.SameKinds d) :
    SameReading V (.error .exhausted c) (.error .exhausted d)

def Alike (V : α → β → Prop) (x : Reader α) (y : Reader β) : Prop :=
  ∀ c d, c.SameKinds d → SameReading V (x c) (y d)

namespace Alike

variable {V : α → β → Prop}

theorem pure {a : α} {b : β} (results : V a b) :
    Alike V (Pure.pure a : Reader α) (Pure.pure b : Reader β) :=
  fun _ _ same => .ok results same

theorem refuse (cause : Diagnostic.Cause) (p q : Position) :
    Alike V (Reader.refuse cause p : Reader α) (Reader.refuse cause q : Reader β) :=
  fun _ _ same => .refused cause p q same

theorem exhausted : Alike V (throw .exhausted : Reader α) (throw .exhausted : Reader β) :=
  fun _ _ same => .exhausted same

theorem bind {x : Reader α} {y : Reader β} {f : α → Reader γ} {g : β → Reader δ}
    {U : γ → δ → Prop} (first : Alike V x y) (second : ∀ a b, V a b → Alike U (f a) (g b)) :
    Alike U (x >>= f) (y >>= g) := by
  intro c d same
  change SameReading U (EStateM.bind x f c) (EStateM.bind y g d)
  unfold EStateM.bind
  match x c, y d, first c d same with
  | _, _, .ok results cursors => exact second _ _ results _ _ cursors
  | _, _, .refused cause p q cursors => exact .refused cause p q cursors
  | _, _, .exhausted cursors => exact .exhausted cursors

theorem kind : Alike Eq Reader.kind Reader.kind := fun _ _ same => .ok same.kind_eq same

theorem position : Alike (fun _ _ => True) Reader.position Reader.position :=
  fun _ _ same => .ok trivial same

theorem get : Alike Cursor.SameKinds (MonadState.get : Reader Cursor) MonadState.get :=
  fun _ _ same => .ok same same

theorem advance : Alike (fun _ _ => True) Reader.advance Reader.advance :=
  fun _ _ same => .ok trivial same.advance

theorem accept (wanted : TokenKind) : Alike Eq (Reader.accept wanted) (Reader.accept wanted) := by
  apply bind kind
  rintro found _ rfl
  split
  · exact bind advance fun _ _ _ => pure rfl
  · exact pure rfl

theorem expect (wanted : TokenKind) :
    Alike (fun _ _ => True) (Reader.expect wanted) (Reader.expect wanted) := by
  apply bind kind
  rintro found _ rfl
  split
  · exact advance
  · exact bind position fun p q _ => refuse _ p q

theorem identifier : Alike Eq Reader.identifier Reader.identifier := by
  apply bind kind
  rintro found _ rfl
  apply bind position
  intro p q _
  apply bind advance
  intro _ _ _
  cases found with
  | ident name => exact pure rfl
  | _ => exact refuse _ p q

end Alike

/-! ## Readers of the grammar -/

theorem params_alike (fuel : Nat) :
    Alike (List.Forall₂ Code.SameParam) (params fuel) (params fuel) := by
  induction fuel with
  | zero => exact .exhausted
  | succ fuel ih =>
    unfold params
    apply Alike.bind .kind
    rintro found _ rfl
    split
    · exact .pure .nil
    · apply Alike.bind .position
      intro p q _
      apply Alike.bind (.accept _)
      rintro byRef _ rfl
      apply Alike.bind .identifier
      rintro name _ rfl
      apply Alike.bind (.accept _)
      rintro more _ rfl
      have same : Code.SameParam ⟨name, byRef, p⟩ ⟨name, byRef, q⟩ := ⟨rfl, rfl⟩
      split
      · exact Alike.bind ih fun _ _ later => .pure (.cons same later)
      · exact .pure (.cons same .nil)

abbrev SameExpr : Expr → Expr → Prop := Code.anywhere.SameExpr

abbrev SameStmt : Stmt → Stmt → Prop := Code.anywhere.SameStmt

abbrev SameDefinition : Definition → Definition → Prop := Code.anywhere.SameDefinition

/-- With so much fuel, all readers of the grammar return what is the same anywhere. -/
structure ReadsAlike (fuel : Nat) : Prop where
  expr : Alike SameExpr (expr fuel) (expr fuel)
  tier : ∀ level, Alike SameExpr (tier fuel level) (tier fuel level)
  chain : ∀ level {left left'}, SameExpr left left' →
    Alike SameExpr (chain fuel level left) (chain fuel level left')
  unary : Alike SameExpr (unary fuel) (unary fuel)
  members : ∀ {object object'}, SameExpr object object' →
    Alike SameExpr (members fuel object) (members fuel object')
  primary : Alike SameExpr (primary fuel) (primary fuel)
  args : Alike (List.Forall₂ SameExpr) (args fuel) (args fuel)
  function : ∀ name p q, Alike SameDefinition (function fuel name p) (function fuel name q)
  block : Alike (List.Forall₂ SameStmt) (block fuel) (block fuel)
  stmts : Alike (List.Forall₂ SameStmt) (stmts fuel) (stmts fuel)
  stmt : Alike SameStmt (stmt fuel) (stmt fuel)
  branch : Alike SameStmt (branch fuel) (branch fuel)
  loop : Alike SameStmt (loop fuel) (loop fuel)
  ret : Alike SameStmt (ret fuel) (ret fuel)
  assignment : Alike SameStmt (assignment fuel) (assignment fuel)
  path : Alike Eq (path fuel) (path fuel)
  callStmt : Alike SameStmt (callStmt fuel) (callStmt fuel)

namespace ReadsAlike

variable {fuel : Nat} (less : ReadsAlike fuel)

include less

theorem tier_succ (level : Nat) :
    Alike SameExpr (Reader.tier (fuel + 1) level) (Reader.tier (fuel + 1) level) := by
  cases level with
  | zero =>
    rw [Reader.tier]
    exact less.unary
  | succ level =>
    rw [Reader.tier]
    exact Alike.bind (less.tier level) fun _ _ left => less.chain level left

theorem chain_succ (level : Nat) {left left' : Expr} (same : SameExpr left left') :
    Alike SameExpr (Reader.chain (fuel + 1) level left) (Reader.chain (fuel + 1) level left') := by
  rw [Reader.chain, Reader.chain]
  apply Alike.bind .kind
  rintro found _ rfl
  cases binaryOp? (level + 1) found with
  | none => exact .pure same
  | some op =>
    apply Alike.bind .advance
    intro _ _ _
    apply Alike.bind (less.tier level)
    intro right right' operand
    exact less.chain level (.binary op same operand trivial)

theorem unary_succ : Alike SameExpr (Reader.unary (fuel + 1)) (Reader.unary (fuel + 1)) := by
  rw [Reader.unary]
  apply Alike.bind .position
  intro p q _
  apply Alike.bind .kind
  rintro found _ rfl
  cases unaryOp? found with
  | some op =>
    apply Alike.bind .advance
    intro _ _ _
    exact Alike.bind less.unary fun _ _ operand => .pure (.unary op operand trivial)
  | none => exact Alike.bind less.primary fun _ _ object => less.members object

theorem members_succ {object object' : Expr} (same : SameExpr object object') :
    Alike SameExpr (Reader.members (fuel + 1) object) (Reader.members (fuel + 1) object') := by
  rw [Reader.members, Reader.members]
  apply Alike.bind (.accept _)
  rintro dotted _ rfl
  split
  · apply Alike.bind .identifier
    rintro name _ rfl
    apply Alike.bind (.accept _)
    rintro called _ rfl
    split
    · apply Alike.bind less.args
      intro args args' given
      apply Alike.bind (.expect _)
      intro _ _ _
      exact less.members (.method same name given trivial)
    · exact less.members (.member same name trivial)
  · exact .pure same

theorem primary_succ : Alike SameExpr (Reader.primary (fuel + 1)) (Reader.primary (fuel + 1)) := by
  refine .bind .position fun p q _ => .bind .kind ?_
  rintro found _ rfl
  cases found with
  | int value => exact .bind .advance fun _ _ _ => .pure (.int value trivial)
  | bool value => exact .bind .advance fun _ _ _ => .pure (.bool value trivial)
  | str text => exact .bind .advance fun _ _ _ => .pure (.str text trivial)
  | nil => exact .bind .advance fun _ _ _ => .pure (.nil trivial)
  | ident name =>
    refine .bind .advance fun _ _ _ => .bind (.accept _) ?_
    rintro called _ rfl
    split
    · refine .bind less.args fun args args' given => ?_
      exact .bind (.expect _) fun _ _ _ => .pure (.call name trivial given trivial)
    · exact .pure (.var name trivial trivial)
  | keyword word =>
    cases word with
    | lambda =>
      refine .bind .advance fun _ _ _ => .bind (less.function "lambda" p q) ?_
      exact fun _ _ same => .pure (.lambda trivial same)
    | _ => exact .refuse _ p q
  | sign s =>
    cases s with
    | atSign => exact .bind .advance fun _ _ _ => .pure (.object trivial)
    | leftParen =>
      refine .bind .advance fun _ _ _ => .bind less.expr fun inner inner' same => ?_
      exact .bind (.expect _) fun _ _ _ => .pure same
    | _ => exact .refuse _ p q
  | eof => exact .refuse _ p q

theorem args_succ :
    Alike (List.Forall₂ SameExpr) (Reader.args (fuel + 1)) (Reader.args (fuel + 1)) := by
  rw [Reader.args]
  apply Alike.bind .kind
  rintro found _ rfl
  split
  · exact .pure .nil
  · apply Alike.bind less.expr
    intro arg arg' same
    apply Alike.bind (.accept _)
    rintro more _ rfl
    split
    · exact Alike.bind less.args fun _ _ later => .pure (.cons same later)
    · exact .pure (.cons same .nil)

theorem function_succ (name : String) (p q : Position) :
    Alike SameDefinition (Reader.function (fuel + 1) name p)
      (Reader.function (fuel + 1) name q) := by
  rw [Reader.function, Reader.function]
  apply Alike.bind (.expect _)
  intro _ _ _
  apply Alike.bind (params_alike fuel)
  intro params params' parameters
  apply Alike.bind (.expect _)
  intro _ _ _
  exact Alike.bind less.block fun _ _ body => .pure (.mk rfl parameters body trivial)

theorem block_succ :
    Alike (List.Forall₂ SameStmt) (Reader.block (fuel + 1)) (Reader.block (fuel + 1)) := by
  rw [Reader.block]
  apply Alike.bind (.expect _)
  intro _ _ _
  apply Alike.bind less.stmts
  intro body body' same
  exact Alike.bind (.expect _) fun _ _ _ => .pure same

theorem stmts_succ :
    Alike (List.Forall₂ SameStmt) (Reader.stmts (fuel + 1)) (Reader.stmts (fuel + 1)) := by
  rw [Reader.stmts]
  apply Alike.bind .kind
  rintro found _ rfl
  split
  · exact .pure .nil
  · apply Alike.bind less.stmt
    intro first first' same
    exact Alike.bind less.stmts fun _ _ later => .pure (.cons same later)

theorem stmt_succ : Alike SameStmt (Reader.stmt (fuel + 1)) (Reader.stmt (fuel + 1)) := by
  rw [Reader.stmt]
  apply Alike.bind .kind
  rintro found _ rfl
  split
  · exact less.branch
  · exact less.loop
  · exact less.ret
  · apply Alike.bind .get
    intro c d same
    rw [same.startsAssignment_eq]
    split
    · exact less.assignment
    · exact less.callStmt

theorem branch_succ : Alike SameStmt (Reader.branch (fuel + 1)) (Reader.branch (fuel + 1)) := by
  rw [Reader.branch]
  apply Alike.bind .position
  intro p q _
  apply Alike.bind .advance
  intro _ _ _
  apply Alike.bind (.expect _)
  intro _ _ _
  apply Alike.bind less.expr
  intro condition condition' test
  apply Alike.bind (.expect _)
  intro _ _ _
  apply Alike.bind less.block
  intro yes yes' taken
  apply Alike.bind (.accept _)
  rintro more _ rfl
  split
  · exact Alike.bind less.block fun _ _ other => .pure (.branch test taken (.some other) trivial)
  · exact .pure (.branch test taken .none trivial)

theorem loop_succ : Alike SameStmt (Reader.loop (fuel + 1)) (Reader.loop (fuel + 1)) := by
  rw [Reader.loop]
  apply Alike.bind .position
  intro p q _
  apply Alike.bind .advance
  intro _ _ _
  apply Alike.bind (.expect _)
  intro _ _ _
  apply Alike.bind less.expr
  intro condition condition' test
  apply Alike.bind (.expect _)
  intro _ _ _
  exact Alike.bind less.block fun _ _ body => .pure (.loop test body trivial)

theorem ret_succ : Alike SameStmt (Reader.ret (fuel + 1)) (Reader.ret (fuel + 1)) := by
  rw [Reader.ret]
  apply Alike.bind .position
  intro p q _
  apply Alike.bind .advance
  intro _ _ _
  apply Alike.bind (.accept _)
  rintro bare _ rfl
  split
  · exact .pure (.ret .none trivial)
  · apply Alike.bind less.expr
    intro value value' same
    exact Alike.bind (.expect _) fun _ _ _ => .pure (.ret (.some same) trivial)

theorem assignment_succ :
    Alike SameStmt (Reader.assignment (fuel + 1)) (Reader.assignment (fuel + 1)) := by
  rw [Reader.assignment]
  apply Alike.bind .position
  intro p q _
  apply Alike.bind .identifier
  rintro root _ rfl
  apply Alike.bind less.path
  rintro fields _ rfl
  apply Alike.bind (.expect _)
  intro _ _ _
  apply Alike.bind less.expr
  intro value value' same
  exact Alike.bind (.expect _) fun _ _ _ => .pure (.assign _ same trivial)

theorem path_succ : Alike Eq (Reader.path (fuel + 1)) (Reader.path (fuel + 1)) := by
  rw [Reader.path]
  apply Alike.bind (.accept _)
  rintro dotted _ rfl
  split
  · apply Alike.bind .identifier
    rintro name _ rfl
    exact Alike.bind less.path fun _ _ same => .pure (congrArg (name :: ·) same)
  · exact .pure rfl

theorem callStmt_succ :
    Alike SameStmt (Reader.callStmt (fuel + 1)) (Reader.callStmt (fuel + 1)) := by
  rw [Reader.callStmt]
  apply Alike.bind .position
  intro p q _
  apply Alike.bind less.expr
  intro value value' same
  rw [same.isCall_eq]
  split
  · exact Alike.bind (.expect _) fun _ _ _ => .pure (.call same)
  · exact .refuse _ p q

end ReadsAlike

theorem readsAlike (fuel : Nat) : ReadsAlike fuel := by
  induction fuel with
  | zero =>
    constructor <;> intros
    case expr => rw [expr]; exact .exhausted
    case tier => rw [tier]; exact .exhausted
    case chain => rw [chain, chain]; exact .exhausted
    case unary => rw [unary]; exact .exhausted
    case members => rw [members, members]; exact .exhausted
    case primary => exact .exhausted
    case args => rw [args]; exact .exhausted
    case function => rw [function, function]; exact .exhausted
    case block => rw [block]; exact .exhausted
    case stmts => rw [stmts]; exact .exhausted
    case stmt => rw [stmt]; exact .exhausted
    case branch => rw [branch]; exact .exhausted
    case loop => rw [loop]; exact .exhausted
    case ret => rw [ret]; exact .exhausted
    case assignment => rw [assignment]; exact .exhausted
    case path => rw [path]; exact .exhausted
    case callStmt => rw [callStmt]; exact .exhausted
  | succ fuel less =>
    exact {
      expr := by rw [expr]; exact less.tier 5
      tier := less.tier_succ
      chain := less.chain_succ
      unary := less.unary_succ
      members := less.members_succ
      primary := less.primary_succ
      args := less.args_succ
      function := less.function_succ
      block := less.block_succ
      stmts := less.stmts_succ
      stmt := less.stmt_succ
      branch := less.branch_succ
      loop := less.loop_succ
      ret := less.ret_succ
      assignment := less.assignment_succ
      path := less.path_succ
      callStmt := less.callStmt_succ }

theorem definition_alike (fuel : Nat) :
    Alike SameDefinition (definition fuel) (definition fuel) := by
  apply Alike.bind .position
  intro p q _
  apply Alike.bind (.expect _)
  intro _ _ _
  apply Alike.bind .identifier
  rintro name _ rfl
  exact (readsAlike fuel).function name p q

end Reader

/-! ## Whole lists of tokens -/

namespace Definition

open Reader (SameDefinition)

theorem readAll_alike (fuel count : Nat) {c d : Cursor} (same : c.SameKinds d) :
    (readAll fuel count c).1.map Diagnostic.unplaced =
        (readAll fuel count d).1.map Diagnostic.unplaced ∧
      List.Forall₂ SameDefinition (readAll fuel count c).2 (readAll fuel count d).2 := by
  induction count generalizing c d with
  | zero => exact ⟨rfl, .nil⟩
  | succ count ih =>
    unfold readAll
    rw [same.kind_eq]
    split
    · exact ⟨rfl, .nil⟩
    · match Reader.definition fuel c, Reader.definition fuel d,
        Reader.definition_alike fuel c d same with
      | _, _, .ok definition cursors =>
        obtain ⟨errors, definitions⟩ := ih cursors
        exact ⟨errors, .cons definition definitions⟩
      | _, _, .refused cause p q cursors =>
        obtain ⟨errors, definitions⟩ := ih cursors.recover
        exact ⟨congrArg (_ :: ·) errors, definitions⟩
      | .error _ c, .error _ d, .exhausted cursors =>
        obtain ⟨errors, definitions⟩ := ih cursors.recover
        refine ⟨?_, definitions⟩
        dsimp only [ReadStop.diagnostic]
        rw [List.map_cons, List.map_cons, errors, cursors.kind_eq]
        rfl
    · obtain ⟨errors, definitions⟩ := ih same.recover
      exact ⟨congrArg (_ :: ·) errors, definitions⟩

theorem ofTokens_alike {ts us : List Token} (same : SameKinds ts us) :
    SameCheck (List.Forall₂ SameDefinition) (ofTokens ts) (ofTokens us) := by
  have length : ts.length = us.length := by
    rw [← List.length_map Token.kind, same, List.length_map]
  unfold ofTokens
  rw [length]
  obtain ⟨errors, definitions⟩ :=
    readAll_alike (readingFuel us.length) (us.length + 1) (Cursor.SameKinds.ofTokens same)
  generalize readAll _ _ (Cursor.ofTokens ts) = left at errors definitions ⊢
  generalize readAll _ _ (Cursor.ofTokens us) = right at errors definitions ⊢
  obtain ⟨ds, left⟩ := left
  obtain ⟨es, right⟩ := right
  cases ds with
  | nil =>
    cases es with
    | nil => exact .ok definitions
    | cons e es => cases errors
  | cons d ds =>
    cases es with
    | nil => cases errors
    | cons e es => exact .error errors

end Definition

end Protoscript
