import Protoscript.Proofs.Grammar
import Protoscript.Syntax.Grammar

/-! # Steps of reading

What each step of a reader does at a cursor that stands before a token, and from the outcome of a
step back to the token that was there. -/

set_option autoImplicit false

namespace Protoscript

namespace Cursor

/-- The cursor before a token, with `c` after it. -/
def push (c : Cursor) (t : Token) : Cursor := ⟨t :: c.rest, c.ending⟩

/-- The cursor before some tokens, with `c` after them. -/
def before (c : Cursor) (ts : List Token) : Cursor := ⟨ts ++ c.rest, c.ending⟩

section

variable (c : Cursor) (t : Token) (ts us : List Token)

@[simp] theorem before_nil : c.before [] = c := rfl

@[simp] theorem before_cons : c.before (t :: ts) = (c.before ts).push t := rfl

@[simp] theorem before_append : c.before (ts ++ us) = (c.before us).before ts := by
  simp [before]

@[simp] theorem before_inParens (p q : Position) : c.before (inParens p q ts) =
    ((c.push (Sign.rightParen.token q)).before ts).push (Sign.leftParen.token p) := by
  simp [inParens]

@[simp] theorem before_inBraces (p q : Position) : c.before (inBraces p q ts) =
    ((c.push (Sign.rightBrace.token q)).before ts).push (Sign.leftBrace.token p) := by
  simp [inBraces]

@[simp] theorem kind_push : (c.push t).kind = t.kind := rfl

theorem position_push : (c.push t).position = t.position := rfl

@[simp] theorem advance_push : (c.push t).advance = c := rfl

@[simp] theorem length_push : (c.push t).rest.length = c.rest.length + 1 := rfl

@[simp] theorem length_before : (c.before ts).rest.length = ts.length + c.rest.length := by
  simp [before]

end

/-- Anything but an end mark is the kind of a token there. -/
theorem exists_push {c : Cursor} {k : TokenKind} (kind : c.kind = k) (ne : k ≠ .eof) :
    ∃ p d, c = Cursor.push d ⟨k, p⟩ := by
  obtain ⟨rest, ending⟩ := c
  cases rest with
  | nil => exact absurd kind.symm ne
  | cons t rest =>
    obtain rfl : t.kind = k := kind
    exact ⟨t.position, ⟨rest, ending⟩, rfl⟩

end Cursor

namespace Reader

/-! ## Operators -/

theorem binaryOp?_eq_some {level : Nat} {k : TokenKind} {op : BinaryOp}
    (found : binaryOp? level k = some op) : op.tier = level ∧ k = .sign op.sign := by
  cases k with
  | sign s =>
    obtain ⟨spelled, tier⟩ := Option.filter_eq_some_iff.mp found
    have sign := List.find?_some spelled
    simp_all
  | _ => cases found

theorem binaryOp?_eq_none {level : Nat} {k : TokenKind}
    (other : ∀ op : BinaryOp, k = .sign op.sign → op.tier ≠ level) : binaryOp? level k = none := by
  cases found : binaryOp? level k with
  | none => rfl
  | some op =>
    obtain ⟨tier, same⟩ := binaryOp?_eq_some found
    exact absurd tier (other op same)

theorem binaryOp?_sign (op : BinaryOp) : binaryOp? op.tier (.sign op.sign) = some op := by
  cases op <;> rfl

theorem unaryOp?_eq_some {k : TokenKind} {op : UnaryOp} (found : unaryOp? k = some op) :
    k = .sign op.sign := by
  unfold unaryOp? at found
  split at found <;> cases found <;> rfl

theorem unaryOp?_sign (op : UnaryOp) : unaryOp? (.sign op.sign) = some op := by
  cases op <;> rfl

variable {α β : Type} {c d : Cursor} {v : β}

/-! ## Forward -/

theorem kind_bind (f : TokenKind → Reader β) : (kind >>= f) c = f c.kind c := rfl

theorem position_bind (f : Position → Reader β) : (position >>= f) c = f c.position c := rfl

theorem advance_bind (f : Unit → Reader β) : (advance >>= f) c = f () c.advance := rfl

theorem bind_of_ok {x : Reader α} {a : α} (run : x c = .ok a d) (f : α → Reader β) :
    (x >>= f) c = f a d := by
  change EStateM.bind x f c = _
  simp [EStateM.bind, run]

theorem accept_bind_of_eq {wanted : TokenKind} (here : c.kind = wanted) (f : Bool → Reader β) :
    (accept wanted >>= f) c = f true c.advance := by
  have run : accept wanted c = .ok true c.advance := by
    rw [accept, kind_bind, if_pos here]
    rfl
  exact bind_of_ok run f

theorem accept_bind_of_ne {wanted : TokenKind} (other : c.kind ≠ wanted) (f : Bool → Reader β) :
    (accept wanted >>= f) c = f false c := by
  have run : accept wanted c = .ok false c := by
    rw [accept, kind_bind, if_neg other]
    rfl
  exact bind_of_ok run f

theorem expect_bind {wanted : TokenKind} (here : c.kind = wanted) (f : Unit → Reader β) :
    (expect wanted >>= f) c = f () c.advance := by
  have run : expect wanted c = .ok () c.advance := by
    rw [expect, kind_bind, if_pos here]
    rfl
  exact bind_of_ok run f

theorem identifier_bind {name : String} (here : c.kind = .ident name) (f : String → Reader β) :
    (identifier >>= f) c = f name c.advance := by
  have run : identifier c = .ok name c.advance := by
    rw [identifier, kind_bind, position_bind, advance_bind, here]
    rfl
  exact bind_of_ok run f

theorem bind_eq_ok {x : Reader α} {f : α → Reader β} (run : (x >>= f) c = .ok v d) :
    ∃ a b, x c = .ok a b ∧ f a b = .ok v d := by
  change EStateM.bind x f c = _ at run
  rw [EStateM.bind] at run
  split at run
  · next a b first => exact ⟨a, b, first, run⟩
  · cases run

/-! ## Statements and parameters -/

theorem stmt_of_opensExpr {fuel : Nat} (opens : c.kind.opensExpr = true) :
    stmt (fuel + 1) c =
      (if c.startsAssignment = true then assignment fuel else callStmt fuel) c := by
  rw [stmt, kind_bind]
  cases here : c.kind with
  | keyword word =>
    rw [here] at opens
    cases word with
    | lambda => rfl
    | _ => cases opens
  | _ => rfl

/-- What is left to do after a parameter. -/
def moreParams (fuel : Nat) (a : Param) : Reader (List Param) := do
  if ← accept (.sign .comma) then
    return a :: (← params fuel)
  else
    return [a]

theorem params_succ (fuel : Nat) : params (fuel + 1) = (do
    if ends .rightParen (← kind) then
      return []
    let place ← position
    let byRef ← accept (.keyword .ref)
    let name ← identifier
    moreParams fuel ⟨name, byRef, place⟩) := rfl

/-! ## What a reader takes -/

/-- Whatever `read` returns from the cursor, it has moved past some tokens, and they and what it
returns satisfy `post`. -/
def Takes (c : Cursor) (read : Reader α) (post : List Token → α → Prop) : Prop :=
  ∀ v d, read c = .ok v d → ∃ ts, c = d.before ts ∧ post ts v

namespace Takes

variable {x : Reader α} {f : α → Reader β} {first : List Token → α → Prop}
  {post : List Token → β → Prop}

theorem pure {v : β} (holds : post [] v) : Takes c (pure v) post := by
  intro _ _ run
  cases run
  exact ⟨[], rfl, holds⟩

theorem imp {weaker : List Token → β → Prop} {x : Reader β} (takes : Takes c x post)
    (weaken : ∀ ts v, post ts v → weaker ts v) : Takes c x weaker := by
  intro v d run
  obtain ⟨ts, same, holds⟩ := takes v d run
  exact ⟨ts, same, weaken ts v holds⟩

theorem throw {stop : ReadStop} : Takes c (throw stop : Reader β) post := nofun

theorem bind (takes : Takes c x first)
    (later : ∀ a ts d, c = Cursor.before d ts → first ts a →
      Takes d (f a) fun us v => post (ts ++ us) v) : Takes c (x >>= f) post := by
  intro v d run
  obtain ⟨a, b, start, run⟩ := bind_eq_ok run
  obtain ⟨ts, same, holds⟩ := takes a b start
  obtain ⟨us, rfl, whole⟩ := later a ts b same holds v d run
  exact ⟨ts ++ us, by simp [same], whole⟩

theorem kind {f : TokenKind → Reader β} (later : Takes c (f c.kind) post) :
    Takes c (kind >>= f) post := later

theorem position {f : Position → Reader β} (later : Takes c (f c.position) post) :
    Takes c (position >>= f) post := later

theorem get {f : Cursor → Reader β} (later : Takes c (f c) post) :
    Takes c ((MonadState.get : Reader Cursor) >>= f) post := later

/-- A reader that goes on from the next token. -/
theorem moved {x y : Reader β} {k : TokenKind} (here : c.kind = k) (ne : k ≠ .eof)
    (step : x c = y c.advance)
    (later : ∀ p d, c = Cursor.push d ⟨k, p⟩ → Takes d y fun ts v => post (⟨k, p⟩ :: ts) v) :
    Takes c x post := by
  intro v d run
  obtain ⟨p, b, same⟩ := Cursor.exists_push here ne
  rw [step, same] at run
  obtain ⟨ts, rfl, holds⟩ := later p b same v d run
  exact ⟨⟨k, p⟩ :: ts, same, holds⟩

theorem advance {f : Unit → Reader β} {k : TokenKind} (here : c.kind = k) (ne : k ≠ .eof)
    (later : ∀ p d, c = Cursor.push d ⟨k, p⟩ → Takes d (f ()) fun ts v => post (⟨k, p⟩ :: ts) v) :
    Takes c (advance >>= f) post := moved here ne (advance_bind f) later

theorem expect {f : Unit → Reader β} {wanted : TokenKind} (ne : wanted ≠ .eof)
    (later : ∀ p d, c = Cursor.push d ⟨wanted, p⟩ →
      Takes d (f ()) fun ts v => post (⟨wanted, p⟩ :: ts) v) :
    Takes c (expect wanted >>= f) post := by
  by_cases here : c.kind = wanted
  · exact moved here ne (expect_bind here f) later
  · intro v d run
    obtain ⟨_, _, start, -⟩ := bind_eq_ok run
    rw [Reader.expect, kind_bind, if_neg here] at start
    cases start

theorem accept {f : Bool → Reader β} {wanted : TokenKind} (ne : wanted ≠ .eof)
    (taken : ∀ p d, c = Cursor.push d ⟨wanted, p⟩ →
      Takes d (f true) fun ts v => post (⟨wanted, p⟩ :: ts) v)
    (left : c.kind ≠ wanted → Takes c (f false) post) : Takes c (accept wanted >>= f) post := by
  by_cases here : c.kind = wanted
  · exact moved here ne (accept_bind_of_eq here f) taken
  · intro v d run
    rw [accept_bind_of_ne here] at run
    exact left here v d run

theorem identifier {f : String → Reader β}
    (later : ∀ name p d, c = Cursor.push d (nameToken name p) →
      Takes d (f name) fun ts v => post (nameToken name p :: ts) v) :
    Takes c (identifier >>= f) post := by
  cases here : c.kind with
  | ident name => exact moved here nofun (identifier_bind here f) (later name)
  | _ =>
    intro v d run
    obtain ⟨_, _, start, -⟩ := bind_eq_ok run
    rw [Reader.identifier, kind_bind, position_bind, advance_bind, here] at start
    cases start

end Takes

end Reader

end Protoscript
