import Protoscript.Proofs.Grammar.Reading

/-! # What is read is rendered

A reader that returns a tree has read tokens that render it, and has left all others where they
were.  The proof is by induction on fuel, with one lemma for each reader. -/

set_option autoImplicit false

namespace Protoscript

namespace Reader

/-- Whatever is read, the tokens passed over render it. -/
def Reads {α : Type} (read : Reader α) (phrase : α → Phrase) : Prop :=
  ∀ c, Takes c read fun ts v => Renders Eq (phrase v) ts

/-- Whatever is read, the tokens passed over render it after those of the expression that came
first. -/
def Extends (read : Expr → Reader Expr) (level : Nat) : Prop :=
  ∀ {e front}, Renders Eq (.expr level e) front →
    ∀ c, Takes c (read e) fun ts v => Renders Eq (.expr level v) (front ++ ts)

/-- What is read with `fuel` is rendered. -/
structure Sound (fuel : Nat) : Prop where
  expr : Reads (expr fuel) (.expr loosest)
  tier (level : Nat) : Reads (tier fuel level) (.expr (level + 1))
  chain (level : Nat) : Extends (chain fuel level) (level + 2)
  unary : Reads (unary fuel) (.expr 1)
  members : Extends (members fuel) 0
  primary : Reads (primary fuel) (.expr 0)
  args : Reads (args fuel) .args
  function (name : String) (place : Position) (c : Cursor) :
    Takes c (function fuel name place) fun ts v =>
      v.name = name ∧ v.position = place ∧ Renders Eq (.function v) ts
  block : Reads (block fuel) .block
  stmts : Reads (stmts fuel) .stmts
  stmt : Reads (stmt fuel) .stmt
  branch (c : Cursor) : c.kind = .keyword .ifWord →
    Takes c (branch fuel) fun ts v => Renders Eq (.stmt v) ts
  loop (c : Cursor) : c.kind = .keyword .whileWord →
    Takes c (loop fuel) fun ts v => Renders Eq (.stmt v) ts
  ret (c : Cursor) : c.kind = .keyword .returnWord →
    Takes c (ret fuel) fun ts v => Renders Eq (.stmt v) ts
  assignment : Reads (assignment fuel) .stmt
  path : Reads (path fuel) .fields
  callStmt : Reads (callStmt fuel) .stmt

theorem takes_moreParams {fuel : Nat} (ih : Reads (params fuel) .params) {a : Param}
    {front : List Token} (param : Renders Eq (.param a) front) (c : Cursor) :
    Takes c (moreParams fuel a) fun ts ps => Renders Eq (.params ps) (front ++ ts) := by
  rw [moreParams]
  refine .accept nofun ?_ fun _ => .pure (by simpa using param.lastParam)
  rintro p c rfl
  refine .bind (ih c) fun ps ts d _ later => .pure ?_
  simpa using param.moreParams (p := p) later

theorem reads_params (fuel : Nat) : Reads (params fuel) .params := by
  induction fuel with
  | zero => exact fun _ => .throw
  | succ fuel ih =>
    intro c
    rw [params_succ]
    refine .kind ?_
    split
    · exact .pure .noParams
    refine .position (.accept nofun ?_ fun _ => .identifier ?_)
    · rintro p c rfl
      refine .identifier ?_
      rintro name q c rfl
      exact takes_moreParams ih (.refParam rfl) c
    · rintro name p c rfl
      exact takes_moreParams ih (.valueParam rfl) c

namespace Sound

variable {fuel : Nat}

theorem succ_expr (ih : Sound fuel) : Reads (Reader.expr (fuel + 1)) (.expr loosest) := by
  intro c
  rw [Reader.expr]
  exact ih.tier 5 c

theorem succ_tier (ih : Sound fuel) (level : Nat) :
    Reads (Reader.tier (fuel + 1) level) (.expr (level + 1)) := by
  intro c
  cases level with
  | zero =>
    rw [Reader.tier]
    exact ih.unary c
  | succ level =>
    rw [Reader.tier]
    exact .bind (ih.tier level c) fun left ts d _ rendered => ih.chain level rendered.loosen d

theorem succ_chain (ih : Sound fuel) (level : Nat) :
    Extends (Reader.chain (fuel + 1) level) (level + 2) := by
  intro left front rendered c
  rw [Reader.chain]
  refine .kind ?_
  cases found : binaryOp? (level + 1) c.kind with
  | none => exact .pure (by simpa using rendered)
  | some op =>
    obtain ⟨tier, kind⟩ := binaryOp?_eq_some found
    refine .advance kind nofun ?_
    rintro p c rfl
    refine .bind (ih.tier level c) fun right ts d _ later => ?_
    have whole : Renders Eq (.expr (op.tier + 1) (.binary op left right left.position))
        (front ++ op.sign.token p :: ts) := by
      rw [← tier] at later
      rw [show level + 2 = op.tier + 1 by omega] at rendered
      exact .binary rfl rendered later
    rw [tier] at whole
    simpa using ih.chain level whole d

theorem succ_unary (ih : Sound fuel) : Reads (Reader.unary (fuel + 1)) (.expr 1) := by
  intro c
  rw [Reader.unary]
  refine .position (.kind ?_)
  cases found : unaryOp? c.kind with
  | none =>
    refine .bind (ih.primary c) fun e ts d _ rendered => ?_
    exact (ih.members rendered d).imp fun _ _ whole => whole.loosen
  | some op =>
    refine .advance (unaryOp?_eq_some found) nofun ?_
    rintro p c rfl
    refine .bind (ih.unary c) fun e ts d _ rendered => .pure ?_
    simpa [Cursor.position_push] using rendered.unary rfl

theorem succ_members (ih : Sound fuel) : Extends (Reader.members (fuel + 1)) 0 := by
  intro e front rendered c
  rw [Reader.members]
  refine .accept nofun ?_ fun _ => .pure (by simpa using rendered)
  rintro p c rfl
  refine .identifier ?_
  rintro name q c rfl
  refine .accept nofun ?_ fun _ => ?_
  · rintro r c rfl
    refine .bind (ih.args c) fun es us d _ args => .expect nofun ?_
    rintro s d rfl
    have whole : Renders Eq (.expr 0 (.method e name es e.position))
        (front ++ Sign.dot.token p :: nameToken name q :: inParens r s us) :=
      .method rfl rendered args
    simpa [inParens] using ih.members whole d
  · have whole : Renders Eq (.expr 0 (.member e name e.position))
        (front ++ [Sign.dot.token p, nameToken name q]) := .member rfl rendered
    simpa using ih.members whole c

theorem succ_args (ih : Sound fuel) : Reads (Reader.args (fuel + 1)) .args := by
  intro c
  rw [Reader.args]
  refine .kind ?_
  split
  · exact .pure .noArgs
  refine .bind (ih.expr c) fun e ts d _ rendered => .accept nofun ?_ fun _ => .pure ?_
  · rintro p d rfl
    refine .bind (ih.args d) fun es us _ _ later => .pure ?_
    simpa using rendered.moreArgs (p := p) later
  · simpa using rendered.lastArg

/-- A token that is the whole of an expression. -/
theorem takes_atom {c : Cursor} {k : TokenKind} (make : Position → Expr) (here : c.kind = k)
    (ne : k ≠ .eof) (atom : ∀ p, (make p).atom? = some k ∧ (make p).position = p) :
    Takes c (advance >>= fun _ => pure (make c.position)) fun ts v =>
      Renders Eq (.expr 0 v) ts := by
  refine .advance here ne ?_
  rintro p d rfl
  exact .pure (.atom (atom p).1 (atom p).2)

theorem succ_primary (ih : Sound fuel) : Reads (Reader.primary (fuel + 1)) (.expr 0) := by
  intro c
  refine .position (.kind ?_)
  cases here : c.kind with
  | int value => exact takes_atom (.int value) here nofun fun _ => ⟨rfl, rfl⟩
  | bool value => exact takes_atom (.bool value) here nofun fun _ => ⟨rfl, rfl⟩
  | str text => exact takes_atom (.str text) here nofun fun _ => ⟨rfl, rfl⟩
  | nil => exact takes_atom .nil here nofun fun _ => ⟨rfl, rfl⟩
  | ident name =>
    refine .advance here nofun ?_
    rintro p c rfl
    refine .accept nofun ?_ fun _ => .pure (.atom rfl rfl)
    rintro q c rfl
    refine .bind (ih.args c) fun es ts d _ args => .expect nofun ?_
    rintro r d rfl
    exact .pure (.call rfl args)
  | keyword word =>
    cases word with
    | lambda =>
      refine .advance here nofun ?_
      rintro p c rfl
      refine .bind (ih.function _ _ c) fun d ts b _ ⟨name, place, rendered⟩ => .pure ?_
      simpa [Cursor.position_push] using rendered.lambda name place
    | _ => exact .throw
  | sign s =>
    cases s with
    | atSign => exact takes_atom .object here nofun fun _ => ⟨rfl, rfl⟩
    | leftParen =>
      refine .advance here nofun ?_
      rintro p c rfl
      refine .bind (ih.expr c) fun e ts d _ rendered => .expect nofun ?_
      rintro q d rfl
      exact .pure rendered.group
    | _ => exact .throw
  | eof => exact .throw

theorem succ_function (ih : Sound fuel) (name : String) (place : Position) (c : Cursor) :
    Takes c (Reader.function (fuel + 1) name place) fun ts v =>
      v.name = name ∧ v.position = place ∧ Renders Eq (.function v) ts := by
  rw [Reader.function]
  refine .expect nofun ?_
  rintro p c rfl
  refine .bind (reads_params fuel c) fun ps ts d _ params => .expect nofun ?_
  rintro q d rfl
  refine .bind (ih.block d) fun body us b _ block => .pure ⟨rfl, rfl, ?_⟩
  have whole := Renders.function (d := ⟨name, ps, body, place⟩) (p := p) (q := q) params block
  simpa [inParens] using whole

theorem succ_block (ih : Sound fuel) : Reads (Reader.block (fuel + 1)) .block := by
  intro c
  rw [Reader.block]
  refine .expect nofun ?_
  rintro p c rfl
  refine .bind (ih.stmts c) fun body ts d _ rendered => .expect nofun ?_
  rintro q d rfl
  exact .pure rendered.block

theorem succ_stmts (ih : Sound fuel) : Reads (Reader.stmts (fuel + 1)) .stmts := by
  intro c
  rw [Reader.stmts]
  refine .kind ?_
  split
  · exact .pure .noStmts
  refine .bind (ih.stmt c) fun s ts d _ first => ?_
  refine .bind (ih.stmts d) fun body us b _ later => .pure ?_
  simpa using first.moreStmts later

theorem succ_stmt (ih : Sound fuel) : Reads (Reader.stmt (fuel + 1)) .stmt := by
  intro c
  rw [Reader.stmt]
  refine .kind ?_
  split
  · next here => exact ih.branch c here
  · next here => exact ih.loop c here
  · next here => exact ih.ret c here
  · refine .get ?_
    split
    · exact ih.assignment c
    · exact ih.callStmt c

theorem succ_branch (ih : Sound fuel) (c : Cursor) (here : c.kind = .keyword .ifWord) :
    Takes c (Reader.branch (fuel + 1)) fun ts v => Renders Eq (.stmt v) ts := by
  rw [Reader.branch]
  refine .position (.advance here nofun ?_)
  rintro p c rfl
  refine .expect nofun ?_
  rintro q c rfl
  refine .bind (ih.expr c) fun condition ts d _ rendered => .expect nofun ?_
  rintro r d rfl
  refine .bind (ih.block d) fun yes us b _ block => .accept nofun ?_ fun _ => .pure ?_
  · rintro s b rfl
    refine .bind (ih.block b) fun no vs _ _ other => .pure ?_
    have whole := Renders.branchElse (p := p) (q := q) (r := r) (s := s) rfl rendered block other
    simpa [inParens, Cursor.position_push] using whole
  · have whole := Renders.branch (p := p) (q := q) (r := r) rfl rendered block
    simpa [inParens, Cursor.position_push] using whole

theorem succ_loop (ih : Sound fuel) (c : Cursor) (here : c.kind = .keyword .whileWord) :
    Takes c (Reader.loop (fuel + 1)) fun ts v => Renders Eq (.stmt v) ts := by
  rw [Reader.loop]
  refine .position (.advance here nofun ?_)
  rintro p c rfl
  refine .expect nofun ?_
  rintro q c rfl
  refine .bind (ih.expr c) fun condition ts d _ rendered => .expect nofun ?_
  rintro r d rfl
  refine .bind (ih.block d) fun body us b _ block => .pure ?_
  have whole := Renders.loop (p := p) (q := q) (r := r) rfl rendered block
  simpa [inParens, Cursor.position_push] using whole

theorem succ_ret (ih : Sound fuel) (c : Cursor) (here : c.kind = .keyword .returnWord) :
    Takes c (Reader.ret (fuel + 1)) fun ts v => Renders Eq (.stmt v) ts := by
  rw [Reader.ret]
  refine .position (.advance here nofun ?_)
  rintro p c rfl
  refine .accept nofun ?_ fun _ => ?_
  · rintro q c rfl
    exact .pure (.ret rfl)
  · refine .bind (ih.expr c) fun value ts d _ rendered => .expect nofun ?_
    rintro q d rfl
    exact .pure (.retValue rfl rendered)

theorem succ_path (ih : Sound fuel) : Reads (Reader.path (fuel + 1)) .fields := by
  intro c
  rw [Reader.path]
  refine .accept nofun ?_ fun _ => .pure .noFields
  rintro p c rfl
  refine .identifier ?_
  rintro name q c rfl
  refine .bind (ih.path c) fun names ts d _ later => .pure ?_
  simpa using later.moreFields

theorem succ_assignment (ih : Sound fuel) : Reads (Reader.assignment (fuel + 1)) .stmt := by
  intro c
  rw [Reader.assignment]
  refine .position (.identifier ?_)
  rintro root p c rfl
  refine .bind (ih.path c) fun names ts d _ fields => .expect nofun ?_
  rintro q d rfl
  refine .bind (ih.expr d) fun value us b _ rendered => .expect nofun ?_
  rintro r b rfl
  exact .pure (.assign rfl fields rendered)

theorem succ_callStmt (ih : Sound fuel) : Reads (Reader.callStmt (fuel + 1)) .stmt := by
  intro c
  rw [Reader.callStmt]
  refine .position (.bind (ih.expr c) fun e ts d _ rendered => ?_)
  split
  · next is =>
    refine .expect nofun ?_
    rintro p d rfl
    exact .pure (rendered.callStmt is)
  · exact .throw

end Sound

theorem sound (fuel : Nat) : Sound fuel := by
  induction fuel with
  | zero =>
    exact {
      expr := fun _ => .throw
      tier := fun _ _ => .throw
      chain := fun _ _ _ _ _ => .throw
      unary := fun _ => .throw
      members := fun _ _ => .throw
      primary := fun _ => .throw
      args := fun _ => .throw
      function := fun _ _ _ => .throw
      block := fun _ => .throw
      stmts := fun _ => .throw
      stmt := fun _ => .throw
      branch := fun _ _ => .throw
      loop := fun _ _ => .throw
      ret := fun _ _ => .throw
      assignment := fun _ => .throw
      path := fun _ => .throw
      callStmt := fun _ => .throw }
  | succ fuel ih =>
    exact {
      expr := ih.succ_expr
      tier := ih.succ_tier
      chain := ih.succ_chain
      unary := ih.succ_unary
      members := ih.succ_members
      primary := ih.succ_primary
      args := ih.succ_args
      function := ih.succ_function
      block := ih.succ_block
      stmts := ih.succ_stmts
      stmt := ih.succ_stmt
      branch := ih.succ_branch
      loop := ih.succ_loop
      ret := ih.succ_ret
      assignment := ih.succ_assignment
      path := ih.succ_path
      callStmt := ih.succ_callStmt }

end Reader

end Protoscript
