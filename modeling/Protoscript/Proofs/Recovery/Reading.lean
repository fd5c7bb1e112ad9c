import Protoscript.Proofs.Grammar.Soundness

/-! # Reading up to a stop

A reader never looks behind the next `func` or end mark, except that a name that is missing right
before it takes it away.  So a reader that stands before some tokens and such a stop ends alike
whatever comes behind the stop, and with whatever fuel, if that is in proportion to the tokens
before the stop: `Reader.readsAbreast`, by induction on the fuel. -/

set_option autoImplicit false

namespace Protoscript

/-- Whether no definition goes on at a token of the kind. -/
def TokenKind.Stops (k : TokenKind) : Prop := k = .keyword .func ∨ k = .eof

instance : DecidablePred TokenKind.Stops :=
  fun k => inferInstanceAs (Decidable (k = .keyword .func ∨ k = .eof))

namespace Cursor

/-! ## Stops -/

theorem pathAssigned_of_stops {c : Cursor} (stops : c.kind.Stops) :
    pathAssigned c.rest = false ∧ ∀ p, pathAssigned (Sign.dot.token p :: c.rest) = false := by
  obtain ⟨_ | ⟨⟨k, q⟩, rest⟩, ending⟩ := c
  · exact ⟨rfl, fun _ => rfl⟩
  · rcases stops with rfl | rfl <;> exact ⟨rfl, fun _ => rfl⟩

theorem pathAssigned_cons {t : Token} (other : t.kind ≠ .sign .dot) (ts : List Token) :
    pathAssigned (t :: ts) = decide (t.kind = .sign .assign) := by
  obtain ⟨k, p⟩ := t
  cases k with
  | sign s =>
    cases s with
    | dot => exact absurd rfl other
    | _ => rfl
  | _ => rfl

/-- The look-ahead for an assignment ends at a stop. -/
theorem pathAssigned_before {c d : Cursor} (atStop : c.kind.Stops) (atStop' : d.kind.Stops) :
    ∀ front : List Token, pathAssigned (front ++ c.rest) = pathAssigned (front ++ d.rest)
  | [] => (pathAssigned_of_stops atStop).1.trans (pathAssigned_of_stops atStop').1.symm
  | t :: front => by
    obtain ⟨k, p⟩ := t
    by_cases dot : k = .sign .dot
    · obtain rfl := dot
      cases front with
      | nil =>
        have ends := (pathAssigned_of_stops atStop).2 p
        exact ends.trans ((pathAssigned_of_stops atStop').2 p).symm
      | cons u rest =>
        obtain ⟨l, q⟩ := u
        cases l with
        | ident name => exact pathAssigned_before atStop atStop' rest
        | _ => rfl
    · exact (pathAssigned_cons dot _).trans (pathAssigned_cons dot _).symm

/-- Both cursors stand at a stop of one kind and at one place. -/
structure SameStop (s s' : Cursor) : Prop where
  kind : s'.kind = s.kind
  position : s'.position = s.position
  stops : s.kind.Stops

namespace SameStop

variable {s s' : Cursor} (same : s.SameStop s')

include same

theorem kind_before (front : List Token) : (s'.before front).kind = (s.before front).kind := by
  cases front with
  | nil => exact same.kind
  | cons => rfl

theorem position_before (front : List Token) :
    (s'.before front).position = (s.before front).position := by
  cases front with
  | nil => exact same.position
  | cons => rfl

/-- A token that is no stop is one of those before the stop. -/
theorem exists_cons {front : List Token} {k : TokenKind} (found : (s.before front).kind = k)
    (own : ¬ k.Stops) : ∃ t left, front = t :: left ∧ t.kind = k := by
  cases front with
  | nil =>
    have found : s.kind = k := found
    exact absurd (found ▸ same.stops) own
  | cons t left => exact ⟨t, left, rfl, found⟩

theorem startsAssignment_before (front : List Token) :
    (s'.before front).startsAssignment = (s.before front).startsAssignment := by
  have atStop' : s'.kind.Stops := same.kind ▸ same.stops
  have never : ∀ {c : Cursor}, c.kind.Stops → c.startsAssignment = false := by
    rintro ⟨_ | ⟨⟨k, q⟩, rest⟩, ending⟩ stops
    · rfl
    · rcases stops with rfl | rfl <;> rfl
  cases front with
  | nil => exact (never atStop').trans (never same.stops).symm
  | cons t front =>
    obtain ⟨k, p⟩ := t
    cases k with
    | ident name => exact pathAssigned_before atStop' same.stops front
    | _ => rfl

end SameStop

end Cursor

namespace Reader

variable {α β : Type} {s s' : Cursor} {front : List Token}

theorem bind_of_error {x : Reader α} {c d : Cursor} {stop : ReadStop} (run : x c = .error stop d)
    (f : α → Reader β) : (x >>= f) c = .error stop d := by
  change EStateM.bind x f c = _
  simp [EStateM.bind, run]

theorem expect_of_ne {c : Cursor} {wanted : TokenKind} (other : c.kind ≠ wanted) :
    expect wanted c = .error (.refused ⟨.expectedToken wanted c.kind, c.position⟩) c := by
  rw [expect, kind_bind, if_neg other]
  rfl

theorem identifier_of_ne {c : Cursor} (other : ∀ name, c.kind ≠ .ident name) :
    identifier c = .error (.refused ⟨.expectedIdentifier, c.position⟩) c.advance := by
  rw [identifier, kind_bind, position_bind, advance_bind]
  cases here : c.kind with
  | ident name => exact absurd here (other name)
  | _ => rfl

/-! ## Readings of the same tokens -/

/-- Both readings have left the same tokens before the stop and have the same outcome, or both have
passed over the stop because they missed a name there. -/
inductive SameOutcome (s s' : Cursor) (front : List Token) :
    EStateM.Result ReadStop Cursor α → EStateM.Result ReadStop Cursor α → Prop
  | ok (v : α) {left : List Token} (shorter : left <:+ front) :
    SameOutcome s s' front (.ok v (s.before left)) (.ok v (s'.before left))
  | refused (d : Diagnostic) {left : List Token} (shorter : left <:+ front) :
    SameOutcome s s' front (.error (.refused d) (s.before left))
      (.error (.refused d) (s'.before left))
  | passed (d : Diagnostic) :
    SameOutcome s s' front (.error (.refused d) s.advance) (.error (.refused d) s'.advance)

theorem SameOutcome.mono {left : List Token} {r r' : EStateM.Result ReadStop Cursor α}
    (same : SameOutcome s s' left r r') (shorter : left <:+ front) :
    SameOutcome s s' front r r' := by
  cases same with
  | ok v later => exact .ok v (later.trans shorter)
  | refused d later => exact .refused d (later.trans shorter)
  | passed d => exact .passed d

/-- The readers do the same before `front` and the stop. -/
def Abreast (s s' : Cursor) (front : List Token) (x y : Reader α) : Prop :=
  SameOutcome s s' front (x (s.before front)) (y (s'.before front))

namespace Abreast

theorem pure (v : α) : Abreast s s' front (Pure.pure v) (Pure.pure v) :=
  .ok v (List.suffix_refl front)

theorem refuse (cause : Diagnostic.Cause) (p : Position) :
    Abreast s s' front (Reader.refuse cause p : Reader α) (Reader.refuse cause p) :=
  .refused _ (List.suffix_refl front)

theorem bind_of_run {x y : Reader α} {f g : α → Reader β} (first : Abreast s s' front x y)
    (later : ∀ v left, left <:+ front → x (s.before front) = .ok v (s.before left) →
      Abreast s s' left (f v) (g v)) : Abreast s s' front (x >>= f) (y >>= g) := by
  change SameOutcome s s' front (EStateM.bind x f _) (EStateM.bind y g _)
  unfold EStateM.bind
  unfold Abreast at first
  generalize run : x (s.before front) = r at first later
  match r, y (s'.before front), first with
  | _, _, .ok v shorter => exact (later v _ shorter rfl).mono shorter
  | _, _, .refused d shorter => exact .refused d shorter
  | _, _, .passed d => exact .passed d

theorem bind {x y : Reader α} {f g : α → Reader β} (first : Abreast s s' front x y)
    (later : ∀ v left, left <:+ front → Abreast s s' left (f v) (g v)) :
    Abreast s s' front (x >>= f) (y >>= g) :=
  first.bind_of_run fun v left shorter _ => later v left shorter

theorem advance {t : Token} {f g : Unit → Reader β} (later : Abreast s s' front (f ()) (g ())) :
    Abreast s s' (t :: front) (Reader.advance >>= f) (Reader.advance >>= g) :=
  SameOutcome.mono later (List.suffix_cons t front)

/-- The look-ahead for an assignment is all that is asked of a whole cursor. -/
theorem get {f g : Cursor → Reader β}
    (later : Abreast s s' front (f (s.before front)) (g (s'.before front))) :
    Abreast s s' front ((MonadState.get : Reader Cursor) >>= f)
      ((MonadState.get : Reader Cursor) >>= g) := later

section

variable (same : s.SameStop s')

include same

theorem kind {f g : TokenKind → Reader β}
    (later : ∀ k, (s.before front).kind = k → Abreast s s' front (f k) (g k)) :
    Abreast s s' front (Reader.kind >>= f) (Reader.kind >>= g) := by
  rw [Abreast, kind_bind, kind_bind, same.kind_before]
  exact later _ rfl

theorem position {f g : Position → Reader β} (later : ∀ p, Abreast s s' front (f p) (g p)) :
    Abreast s s' front (Reader.position >>= f) (Reader.position >>= g) := by
  rw [Abreast, position_bind, position_bind, same.position_before]
  exact later _

theorem expect {wanted : TokenKind} (own : ¬ wanted.Stops) {f g : Unit → Reader β}
    (later : ∀ t left, front = t :: left → Abreast s s' left (f ()) (g ())) :
    Abreast s s' front (Reader.expect wanted >>= f) (Reader.expect wanted >>= g) := by
  by_cases here : (s.before front).kind = wanted
  · obtain ⟨t, left, rfl, rfl⟩ := same.exists_cons here own
    rw [Abreast, expect_bind here, expect_bind ((same.kind_before _).trans here)]
    exact SameOutcome.mono (later t left rfl) (List.suffix_cons t left)
  · have here' : (s'.before front).kind ≠ wanted := same.kind_before front ▸ here
    rw [Abreast, bind_of_error (expect_of_ne here), bind_of_error (expect_of_ne here'),
      same.kind_before, same.position_before]
    exact .refused _ (List.suffix_refl front)

theorem accept {wanted : TokenKind} (own : ¬ wanted.Stops) {f g : Bool → Reader β}
    (taken : ∀ t left, front = t :: left → Abreast s s' left (f true) (g true))
    (passed : Abreast s s' front (f false) (g false)) :
    Abreast s s' front (Reader.accept wanted >>= f) (Reader.accept wanted >>= g) := by
  by_cases here : (s.before front).kind = wanted
  · obtain ⟨t, left, rfl, rfl⟩ := same.exists_cons here own
    rw [Abreast, accept_bind_of_eq here, accept_bind_of_eq ((same.kind_before _).trans here)]
    exact SameOutcome.mono (taken t left rfl) (List.suffix_cons t left)
  · have here' : (s'.before front).kind ≠ wanted := same.kind_before front ▸ here
    rw [Abreast, accept_bind_of_ne here, accept_bind_of_ne here']
    exact passed

theorem identifier {f g : String → Reader β}
    (later : ∀ name t left, front = t :: left → Abreast s s' left (f name) (g name)) :
    Abreast s s' front (Reader.identifier >>= f) (Reader.identifier >>= g) := by
  cases front with
  | nil =>
    have missing : ∀ {c : Cursor}, c.kind.Stops → ∀ name, c.kind ≠ .ident name := by
      rintro c (stop | stop) name <;> rw [stop] <;> nofun
    have missing' := missing (same.kind ▸ same.stops)
    rw [Abreast, Cursor.before_nil, Cursor.before_nil,
      bind_of_error (identifier_of_ne (missing same.stops)),
      bind_of_error (identifier_of_ne missing'), same.position]
    exact .passed _
  | cons t left =>
    obtain ⟨k, p⟩ := t
    by_cases named : ∃ name, k = .ident name
    · obtain ⟨name, rfl⟩ := named
      rw [Abreast, identifier_bind rfl, identifier_bind rfl]
      exact SameOutcome.mono (later name _ left rfl) (List.suffix_cons _ left)
    · have missing : ∀ c : Cursor, ∀ name, (c.before (⟨k, p⟩ :: left)).kind ≠ .ident name :=
        fun _ name same => named ⟨name, same⟩
      rw [Abreast, bind_of_error (identifier_of_ne (missing s)),
        bind_of_error (identifier_of_ne (missing s'))]
      exact .refused _ (List.suffix_cons _ left)

end

end Abreast

/-! ## Readers of the grammar -/

theorem length_lt_of_stmt {fuel : Nat} {c d : Cursor} {v : Stmt} (run : stmt fuel c = .ok v d) :
    d.rest.length < c.rest.length := by
  obtain ⟨ts, rfl, rendered⟩ := (sound fuel).stmt c v d run
  obtain ⟨t, us, rfl, -⟩ := rendered.opens
  simp only [Cursor.length_before, List.length_cons]
  omega

/-- With `fuel` and any other fuel in proportion to the tokens before the stop, the reader does the
same. -/
def Keeps (s s' : Cursor) (extra : Nat) (read : Nat → Reader α) (fuel : Nat) : Prop :=
  ∀ front other, 16 * front.length + extra ≤ fuel → 16 * front.length + extra ≤ other →
    Abreast s s' front (read fuel) (read other)

theorem Keeps.zero {extra : Nat} {read : Nat → Reader α} : Keeps s s' (extra + 1) read 0 :=
  fun _ _ enough _ => absurd enough (by omega)

theorem Keeps.succ {extra fuel : Nat} {read : Nat → Reader α}
    (step : ∀ front other, 16 * front.length + extra ≤ fuel → 16 * front.length + extra ≤ other →
      Abreast s s' front (read (fuel + 1)) (read (other + 1))) :
    Keeps s s' (extra + 1) read (fuel + 1) := by
  intro front other enough enough'
  obtain ⟨other, rfl⟩ : ∃ n, other = n + 1 := ⟨other - 1, by omega⟩
  exact step front other (by omega) (by omega)

/-- The same of a reader that passes over its first token unseen. -/
def KeepsOn (s s' : Cursor) (read : Nat → Reader α) (fuel : Nat) : Prop :=
  ∀ t front other, 16 * front.length + 10 ≤ fuel → 16 * front.length + 10 ≤ other →
    Abreast s s' (t :: front) (read fuel) (read other)

theorem KeepsOn.zero {read : Nat → Reader α} : KeepsOn s s' read 0 :=
  fun _ _ _ enough _ => absurd enough (by omega)

theorem KeepsOn.succ {fuel : Nat} {read : Nat → Reader α}
    (step : ∀ t front other, 16 * front.length + 9 ≤ fuel → 16 * front.length + 9 ≤ other →
      Abreast s s' (t :: front) (read (fuel + 1)) (read (other + 1))) :
    KeepsOn s s' read (fuel + 1) := by
  intro t front other enough enough'
  obtain ⟨other, rfl⟩ : ∃ n, other = n + 1 := ⟨other - 1, by omega⟩
  exact step t front other (by omega) (by omega)

theorem keeps_params (same : s.SameStop s') (fuel : Nat) : Keeps s s' 1 params fuel := by
  induction fuel with
  | zero => exact .zero
  | succ fuel ih =>
    refine .succ fun front other enough enough' => ?_
    rw [params_succ, params_succ]
    refine .kind same fun k _ => ?_
    split
    · exact .pure []
    · refine .position same fun p => ?_
      have named : ∀ byRef left, left <:+ front → Abreast s s' left
          (do moreParams fuel ⟨← identifier, byRef, p⟩)
          (do moreParams other ⟨← identifier, byRef, p⟩) := by
        intro byRef left shorter
        have := shorter.length_le
        refine .identifier same ?_
        rintro name _ left rfl
        refine .accept same (by decide) ?_ (.pure _)
        rintro _ left rfl
        simp only [List.length_cons] at this
        exact .bind (ih left other (by omega) (by omega)) fun _ _ _ => .pure _
      refine .accept same (by decide) ?_ (named false front (List.suffix_refl front))
      rintro _ left rfl
      exact named true left (List.suffix_cons _ left)

/-- With so much fuel, all readers of the grammar do the same before tokens and a stop.  What is
added to the fuel for the tokens is how deep the readers call one another before a token is passed
over. -/
structure ReadsAbreast (s s' : Cursor) (fuel : Nat) : Prop where
  expr : Keeps s s' 9 expr fuel
  tier : ∀ level ≤ 5, Keeps s s' (level + 3) (tier · level) fuel
  chain : ∀ level ≤ 5, ∀ left, Keeps s s' 1 (chain · level left) fuel
  unary : Keeps s s' 2 unary fuel
  members : ∀ object, Keeps s s' 1 (members · object) fuel
  primary : Keeps s s' 1 primary fuel
  args : Keeps s s' 10 args fuel
  function : ∀ name place, Keeps s s' 1 (function · name place) fuel
  block : Keeps s s' 1 block fuel
  stmts : Keeps s s' 12 stmts fuel
  stmt : Keeps s s' 11 stmt fuel
  branch : KeepsOn s s' branch fuel
  loop : KeepsOn s s' loop fuel
  ret : KeepsOn s s' ret fuel
  assignment : Keeps s s' 10 assignment fuel
  path : Keeps s s' 1 path fuel
  callStmt : Keeps s s' 10 callStmt fuel

namespace ReadsAbreast

variable {fuel : Nat} (same : s.SameStop s') (less : ReadsAbreast s s' fuel)

include less

theorem expr_succ : Keeps s s' 9 Reader.expr (fuel + 1) := by
  refine .succ fun front other enough enough' => ?_
  rw [Reader.expr, Reader.expr]
  exact less.tier 5 (Nat.le_refl 5) front other enough enough'

theorem tier_succ (level : Nat) (le : level ≤ 5) :
    Keeps s s' (level + 3) (Reader.tier · level) (fuel + 1) := by
  refine .succ fun front other enough enough' => ?_
  cases level with
  | zero =>
    rw [Reader.tier, Reader.tier]
    exact less.unary front other enough enough'
  | succ level =>
    rw [Reader.tier, Reader.tier]
    refine .bind (less.tier level (by omega) front other enough enough') fun left rest shorter => ?_
    have := shorter.length_le
    exact less.chain level (by omega) left rest other (by omega) (by omega)

include same

theorem chain_succ (level : Nat) (le : level ≤ 5) (left : Expr) :
    Keeps s s' 1 (Reader.chain · level left) (fuel + 1) := by
  refine .succ fun front other enough enough' => ?_
  rw [Reader.chain, Reader.chain]
  refine .kind same fun k found => ?_
  cases spelled : binaryOp? (level + 1) k with
  | none => exact .pure left
  | some op =>
    obtain ⟨-, rfl⟩ := binaryOp?_eq_some spelled
    obtain ⟨t, front, rfl, -⟩ := same.exists_cons found (by cases op <;> decide)
    simp only [List.length_cons] at enough enough'
    refine .advance ?_
    refine .bind (less.tier level le front other (by omega) (by omega)) fun right rest shorter => ?_
    have := shorter.length_le
    exact less.chain level le _ rest other (by omega) (by omega)

theorem unary_succ : Keeps s s' 2 Reader.unary (fuel + 1) := by
  refine .succ fun front other enough enough' => ?_
  rw [Reader.unary, Reader.unary]
  refine .position same fun p => .kind same fun k found => ?_
  cases spelled : unaryOp? k with
  | some op =>
    obtain rfl := unaryOp?_eq_some spelled
    obtain ⟨t, front, rfl, -⟩ := same.exists_cons found (by cases op <;> decide)
    simp only [List.length_cons] at enough enough'
    exact .advance (.bind (less.unary front other (by omega) (by omega)) fun _ _ _ => .pure _)
  | none =>
    refine .bind (less.primary front other (by omega) (by omega)) fun object rest shorter => ?_
    have := shorter.length_le
    exact less.members object rest other (by omega) (by omega)

theorem members_succ (object : Expr) : Keeps s s' 1 (Reader.members · object) (fuel + 1) := by
  refine .succ fun front other enough enough' => ?_
  rw [Reader.members, Reader.members]
  refine .accept same (by decide) ?_ (.pure object)
  rintro _ front rfl
  refine .identifier same ?_
  rintro name _ front rfl
  simp only [List.length_cons] at enough enough'
  refine .accept same (by decide) ?_ (less.members _ front other (by omega) (by omega))
  rintro _ front rfl
  simp only [List.length_cons] at enough enough'
  refine .bind (less.args front other (by omega) (by omega)) fun arguments rest shorter => ?_
  have := shorter.length_le
  refine .expect same (by decide) ?_
  rintro _ rest rfl
  simp only [List.length_cons] at this
  exact less.members _ rest other (by omega) (by omega)

theorem primary_succ : Keeps s s' 1 Reader.primary (fuel + 1) := by
  refine .succ fun front other enough enough' => ?_
  refine .position same fun p => .kind same fun k found => ?_
  by_cases own : k.Stops
  · rcases own with rfl | rfl <;> exact .refuse _ p
  obtain ⟨t, front, rfl, -⟩ := same.exists_cons found own
  simp only [List.length_cons] at enough enough'
  cases k with
  | int value => exact .advance (.pure _)
  | bool value => exact .advance (.pure _)
  | str text => exact .advance (.pure _)
  | nil => exact .advance (.pure _)
  | ident name =>
    refine .advance (.accept same (by decide) ?_ (.pure _))
    rintro _ front rfl
    simp only [List.length_cons] at enough enough'
    refine .bind (less.args front other (by omega) (by omega)) fun arguments rest _ => ?_
    refine .expect same (by decide) ?_
    rintro _ rest rfl
    exact .pure _
  | keyword word =>
    cases word with
    | lambda =>
      exact .advance (.bind (less.function "lambda" p front other (by omega) (by omega))
        fun _ _ _ => .pure _)
    | _ => exact .refuse _ p
  | sign s =>
    cases s with
    | atSign => exact .advance (.pure _)
    | leftParen =>
      refine .advance (.bind (less.expr front other (by omega) (by omega)) fun inner rest _ => ?_)
      refine .expect same (by decide) ?_
      rintro _ rest rfl
      exact .pure _
    | _ => exact .refuse _ p
  | eof => exact .refuse _ p

theorem args_succ : Keeps s s' 10 Reader.args (fuel + 1) := by
  refine .succ fun front other enough enough' => ?_
  rw [Reader.args, Reader.args]
  refine .kind same fun k _ => ?_
  split
  · exact .pure []
  · refine .bind (less.expr front other enough enough') fun arg rest shorter => ?_
    have := shorter.length_le
    refine .accept same (by decide) ?_ (.pure _)
    rintro _ rest rfl
    simp only [List.length_cons] at this
    exact .bind (less.args rest other (by omega) (by omega)) fun _ _ _ => .pure _

theorem function_succ (name : String) (place : Position) :
    Keeps s s' 1 (Reader.function · name place) (fuel + 1) := by
  refine .succ fun front other enough enough' => ?_
  rw [Reader.function, Reader.function]
  refine .expect same (by decide) ?_
  rintro _ front rfl
  simp only [List.length_cons] at enough enough'
  have parameters := keeps_params same fuel front other (by omega) (by omega)
  refine .bind parameters fun params rest shorter => ?_
  have := shorter.length_le
  refine .expect same (by decide) ?_
  rintro _ rest rfl
  simp only [List.length_cons] at this
  exact .bind (less.block rest other (by omega) (by omega)) fun _ _ _ => .pure _

theorem block_succ : Keeps s s' 1 Reader.block (fuel + 1) := by
  refine .succ fun front other enough enough' => ?_
  rw [Reader.block, Reader.block]
  refine .expect same (by decide) ?_
  rintro _ front rfl
  simp only [List.length_cons] at enough enough'
  refine .bind (less.stmts front other (by omega) (by omega)) fun body rest _ => ?_
  refine .expect same (by decide) ?_
  rintro _ rest rfl
  exact .pure _

theorem stmts_succ : Keeps s s' 12 Reader.stmts (fuel + 1) := by
  refine .succ fun front other enough enough' => ?_
  rw [Reader.stmts, Reader.stmts]
  refine .kind same fun k _ => ?_
  split
  · exact .pure []
  · refine .bind_of_run (less.stmt front other enough enough') fun first rest _ run => ?_
    have shorter := length_lt_of_stmt run
    simp only [Cursor.length_before] at shorter
    exact .bind (less.stmts rest other (by omega) (by omega)) fun _ _ _ => .pure _

theorem stmt_succ : Keeps s s' 11 Reader.stmt (fuel + 1) := by
  refine .succ fun front other enough enough' => ?_
  rw [Reader.stmt, Reader.stmt]
  refine .kind same fun k found => ?_
  have moves : ∀ {read : Nat → Reader Stmt}, ¬ k.Stops → KeepsOn s s' read fuel →
      Abreast s s' front (read fuel) (read other) := by
    intro read own keeps
    obtain ⟨t, front, rfl, -⟩ := same.exists_cons found own
    simp only [List.length_cons] at enough enough'
    exact keeps t front other (by omega) (by omega)
  split
  · exact moves (by decide) less.branch
  · exact moves (by decide) less.loop
  · exact moves (by decide) less.ret
  · refine .get ?_
    rw [same.startsAssignment_before]
    split
    · exact less.assignment front other (by omega) (by omega)
    · exact less.callStmt front other (by omega) (by omega)

theorem branch_succ : KeepsOn s s' Reader.branch (fuel + 1) := by
  refine .succ fun t front other enough enough' => ?_
  rw [Reader.branch, Reader.branch]
  refine .position same fun p => .advance (.expect same (by decide) ?_)
  rintro _ front rfl
  simp only [List.length_cons] at enough enough'
  refine .bind (less.expr front other (by omega) (by omega)) fun condition rest shorter => ?_
  have := shorter.length_le
  refine .expect same (by decide) ?_
  rintro _ rest rfl
  simp only [List.length_cons] at this
  refine .bind (less.block rest other (by omega) (by omega)) fun yes later shorter => ?_
  have := shorter.length_le
  refine .accept same (by decide) ?_ (.pure _)
  rintro _ later rfl
  simp only [List.length_cons] at this
  exact .bind (less.block later other (by omega) (by omega)) fun _ _ _ => .pure _

theorem loop_succ : KeepsOn s s' Reader.loop (fuel + 1) := by
  refine .succ fun t front other enough enough' => ?_
  rw [Reader.loop, Reader.loop]
  refine .position same fun p => .advance (.expect same (by decide) ?_)
  rintro _ front rfl
  simp only [List.length_cons] at enough enough'
  refine .bind (less.expr front other (by omega) (by omega)) fun condition rest shorter => ?_
  have := shorter.length_le
  refine .expect same (by decide) ?_
  rintro _ rest rfl
  simp only [List.length_cons] at this
  exact .bind (less.block rest other (by omega) (by omega)) fun _ _ _ => .pure _

theorem ret_succ : KeepsOn s s' Reader.ret (fuel + 1) := by
  refine .succ fun t front other enough enough' => ?_
  rw [Reader.ret, Reader.ret]
  refine .position same fun p => .advance (.accept same (by decide) (fun _ _ _ => .pure _) ?_)
  refine .bind (less.expr front other (by omega) (by omega)) fun value rest _ => ?_
  exact .expect same (by decide) fun _ _ _ => .pure _

theorem assignment_succ : Keeps s s' 10 Reader.assignment (fuel + 1) := by
  refine .succ fun front other enough enough' => ?_
  rw [Reader.assignment, Reader.assignment]
  refine .position same fun p => .identifier same ?_
  rintro root _ front rfl
  simp only [List.length_cons] at enough enough'
  refine .bind (less.path front other (by omega) (by omega)) fun fields rest shorter => ?_
  have := shorter.length_le
  refine .expect same (by decide) ?_
  rintro _ rest rfl
  simp only [List.length_cons] at this
  refine .bind (less.expr rest other (by omega) (by omega)) fun value rest _ => ?_
  exact .expect same (by decide) fun _ _ _ => .pure _

theorem path_succ : Keeps s s' 1 Reader.path (fuel + 1) := by
  refine .succ fun front other enough enough' => ?_
  rw [Reader.path, Reader.path]
  refine .accept same (by decide) ?_ (.pure _)
  rintro _ front rfl
  refine .identifier same ?_
  rintro name _ front rfl
  simp only [List.length_cons] at enough enough'
  exact .bind (less.path front other (by omega) (by omega)) fun _ _ _ => .pure _

theorem callStmt_succ : Keeps s s' 10 Reader.callStmt (fuel + 1) := by
  refine .succ fun front other enough enough' => ?_
  rw [Reader.callStmt, Reader.callStmt]
  refine .position same fun p => ?_
  refine .bind (less.expr front other enough enough') fun value rest _ => ?_
  split
  · exact .expect same (by decide) fun _ _ _ => .pure _
  · exact .refuse _ p

end ReadsAbreast

/-- Before tokens and a stop, the readers do the same with any fuel that is enough, whatever comes
behind the stop. -/
theorem readsAbreast (same : s.SameStop s') (fuel : Nat) : ReadsAbreast s s' fuel := by
  induction fuel with
  | zero => constructor <;> intros <;> exact .zero
  | succ fuel less =>
    exact {
      expr := less.expr_succ
      tier := less.tier_succ
      chain := less.chain_succ same
      unary := less.unary_succ same
      members := less.members_succ same
      primary := less.primary_succ same
      args := less.args_succ same
      function := less.function_succ same
      block := less.block_succ same
      stmts := less.stmts_succ same
      stmt := less.stmt_succ same
      branch := less.branch_succ same
      loop := less.loop_succ same
      ret := less.ret_succ same
      assignment := less.assignment_succ same
      path := less.path_succ same
      callStmt := less.callStmt_succ same }

end Reader

end Protoscript
