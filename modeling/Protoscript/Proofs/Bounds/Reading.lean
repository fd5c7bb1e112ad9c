import Protoscript.Proofs.Bounds.Tape
import Protoscript.Proofs.Recovery.Reading

/-! # Reading by index follows the cursor

From an index at which a token list goes on like a cursor, reading by index comes to what reading
from the cursor comes to, and ends where the list goes on like the cursor again.  It trips for
nothing but the fuel, and only where that is too little for the cursor as well
(`Tape.allFollow`, by induction on the fuel).  An expression or a statement ends behind its first
token at least: that is the bound which every `Tape.Follows` carries, and which keeps the checks for
progress from tripping. -/

set_option autoImplicit false

namespace Protoscript

theorem Cursor.rest_ne_nil {c : Cursor} (more : c.kind ≠ .eof) : c.rest ≠ [] := by
  rintro none
  obtain ⟨rest, ending⟩ := c
  obtain rfl : rest = [] := none
  exact more rfl

namespace Tape

variable {α β : Type} {tokens : List Token} {i j least mid : Nat} {c d : Cursor} {k : TokenKind}

/-! ## Indices and cursors -/

/-- From the index `i` on the list is what is left at the cursor, and an end mark. -/
def Faces (tokens : List Token) (i : Nat) (c : Cursor) : Prop :=
  tokens.drop i = c.rest ++ [⟨.eof, c.ending⟩]

namespace Faces

theorem length (faces : Faces tokens i c) : i + c.rest.length + 1 = tokens.length := by
  have lengths := congrArg List.length faces
  rw [List.length_drop, List.length_append, List.length_singleton] at lengths
  omega

theorem token (faces : Faces tokens i c) : tokens[i]? = some ⟨c.kind, c.position⟩ := by
  rw [← List.head?_drop, faces]
  obtain ⟨_ | ⟨t, rest⟩, ending⟩ := c <;> rfl

theorem advance (faces : Faces tokens i c) (more : c.rest ≠ []) :
    Faces tokens (i + 1) c.advance := by
  obtain ⟨_ | ⟨t, rest⟩, ending⟩ := c
  · exact absurd rfl more
  · rw [Faces, ← List.tail_drop, faces]
    rfl

theorem advance_of_end (faces : Faces tokens i c) (last : c.rest = []) :
    Faces tokens i c.advance := by
  obtain ⟨rest, ending⟩ := c
  obtain rfl : rest = [] := last
  exact faces

end Faces

/-! ## Single tokens -/

theorem tokenAt_run {t : Token} (here : tokens[i]? = some t) (s : Nat) :
    tokenAt tokens i s = .ok t s := by
  rw [tokenAt, here]
  rfl

theorem peek_run (faces : Faces tokens i c) : peek tokens i = .ok ⟨c.kind, c.position⟩ i :=
  tokenAt_run faces.token i

theorem kind_run (faces : Faces tokens i c) : kind tokens i = .ok c.kind i := by
  rw [kind, bind_of_run (peek_run faces)]
  rfl

theorem position_run (faces : Faces tokens i c) : position tokens i = .ok c.position i := by
  rw [position, bind_of_run (peek_run faces)]
  rfl

theorem advance_run (faces : Faces tokens i c) :
    ∃ j, advance tokens i = .ok ⟨c.kind, c.position⟩ j ∧ Faces tokens j c.advance ∧ i ≤ j ∧
      (c.kind ≠ .eof → j = i + 1) := by
  have length := faces.length
  by_cases last : c.rest = []
  · refine ⟨i, ?_, faces.advance_of_end last, Nat.le_refl i, fun more => ?_⟩
    · change (tokenAt tokens i >>= _) i = _
      rw [bind_of_run (tokenAt_run faces.token i), if_neg (by simp [last] at length; omega)]
      rfl
    · exact absurd last (Cursor.rest_ne_nil more)
  · refine ⟨i + 1, ?_, faces.advance last, Nat.le_succ i, fun _ => rfl⟩
    have inside : i + 1 < tokens.length := by
      have some := List.length_pos_iff.mpr last
      omega
    change (tokenAt tokens i >>= _) i = _
    rw [bind_of_run (tokenAt_run faces.token i), if_pos inside, moveTo, if_pos inside]
    rfl

theorem onward_run {start : Nat} (moved : start < i) : onward start i = .ok () i := by
  change (if i ≤ start then _ else _ : Tape Unit) i = _
  rw [if_neg (Nat.not_le.mpr moved)]
  rfl

theorem consuming_of_ok {x : Tape α} {a : α} (run : x i = .ok a j) (moved : i < j) :
    consuming x i = .ok a j := by
  change (x >>= _) i = _
  rw [bind_of_run run, bind_of_run (onward_run moved)]
  rfl

theorem consuming_of_error {x : Tape α} {stop : TapeStop} (run : x i = .error stop j) :
    consuming x i = .error stop j := by
  change EStateM.bind x _ i = _
  rw [EStateM.bind, run]

/-! ## How a reading by index ends -/

/-- Both readings end alike: with the same result behind the index `least`, with the same error, or
with too little fuel. -/
inductive SameEnd (tokens : List Token) (least : Nat) :
    EStateM.Result TapeStop Nat α → EStateM.Result ReadStop Cursor α → Prop
  | ok {i : Nat} {c : Cursor} (a : α) (faces : Faces tokens i c) (moved : least ≤ i) :
    SameEnd tokens least (.ok a i) (.ok a c)
  | refused {i : Nat} {c : Cursor} (d : Diagnostic) (faces : Faces tokens i c) :
    SameEnd tokens least (.error (.refused d) i) (.error (.refused d) c)
  | exhausted {i : Nat} {c : Cursor} :
    SameEnd tokens least (.error (.tripped .endless) i) (.error .exhausted c)

/-- From the index `i`, reading `x` by index comes to what `y` comes to from the cursor.  Where that
is a result, it ends at the index `least` or behind it. -/
def Follows (tokens : List Token) (i least : Nat) (x : Tape α) (y : Reader α) : Prop :=
  ∀ c, Faces tokens i c → SameEnd tokens least (x i) (y c)

/-- The token at the index is of the kind. -/
def Shows (tokens : List Token) (i : Nat) (k : TokenKind) : Prop :=
  tokens[i]?.map Token.kind = some k

theorem Faces.shows_kind (faces : Faces tokens i c) : Shows tokens i c.kind := by
  rw [Shows, faces.token]
  rfl

theorem Faces.kind_eq (faces : Faces tokens i c) (seen : Shows tokens i k) : c.kind = k := by
  rw [Shows, faces.token] at seen
  exact Option.some.inj seen

namespace Follows

theorem pure (a : α) (moved : least ≤ i) :
    Follows tokens i least (Pure.pure a) (Pure.pure a) := fun _ faces => .ok a faces moved

theorem refuse (cause : Diagnostic.Cause) (p : Position) :
    Follows tokens i least (Tape.refuse cause p : Tape α) (Reader.refuse cause p) :=
  fun _ faces => .refused _ faces

theorem refuse_bind (cause : Diagnostic.Cause) (p : Position) {f : α → Tape β} {g : α → Reader β} :
    Follows tokens i least (Tape.refuse cause p >>= f) (Reader.refuse cause p >>= g) :=
  fun _ faces => .refused _ faces

theorem exhausted :
    Follows tokens i least (throw (.tripped .endless) : Tape α) (throw .exhausted) :=
  fun _ _ => .exhausted

theorem mono {x : Tape α} {y : Reader α} (same : Follows tokens i mid x y) (le : least ≤ mid) :
    Follows tokens i least x y := by
  intro c faces
  match x i, y c, same c faces with
  | _, _, .ok a faces moved => exact .ok a faces (Nat.le_trans le moved)
  | _, _, .refused d faces => exact .refused d faces
  | _, _, .exhausted => exact .exhausted

theorem bind {x : Tape α} {y : Reader α} {f : α → Tape β} {g : α → Reader β}
    (first : Follows tokens i mid x y)
    (later : ∀ a j, mid ≤ j → Follows tokens j least (f a) (g a)) :
    Follows tokens i least (x >>= f) (y >>= g) := by
  intro c faces
  change SameEnd tokens least (EStateM.bind x f i) (EStateM.bind y g c)
  unfold EStateM.bind
  match x i, y c, first c faces with
  | _, _, .ok a faces moved => exact later a _ moved _ faces
  | _, _, .refused d faces => exact .refused d faces
  | _, _, .exhausted => exact .exhausted

/-- Remembering where a turn of a loop started does nothing. -/
theorem start {f : Nat → Tape β} {y : Reader β} (later : Follows tokens i least (f i) y) :
    Follows tokens i least (get >>= f) y := later

/-- A turn that has moved on does not trip. -/
theorem onward {start : Nat} {f : Unit → Tape β} {y : Reader β} (moved : start < i)
    (later : Follows tokens i least (f ()) y) :
    Follows tokens i least (Tape.onward start >>= f) y := by
  intro c faces
  rw [bind_of_run (onward_run moved)]
  exact later c faces

/-- What ends behind its first token does not trip for having taken nothing. -/
theorem consuming {x : Tape α} {y : Reader α} (inside : Follows tokens i (i + 1) x y) :
    Follows tokens i (i + 1) (Tape.consuming x) y := by
  intro c faces
  have same := inside c faces
  generalize run : x i = r at same
  generalize y c = r' at same ⊢
  cases same with
  | ok a ends moved =>
    rw [consuming_of_ok run moved]
    exact .ok a ends moved
  | refused e ends =>
    rw [consuming_of_error run]
    exact .refused e ends
  | exhausted =>
    rw [consuming_of_error run]
    exact .exhausted

theorem kind {f : TokenKind → Tape β} {g : TokenKind → Reader β}
    (later : ∀ k, Shows tokens i k → Follows tokens i least (f k) (g k)) :
    Follows tokens i least (Tape.kind tokens >>= f) (Reader.kind >>= g) := by
  intro c faces
  rw [bind_of_run (kind_run faces), Reader.kind_bind]
  exact later c.kind faces.shows_kind c faces

theorem position {f : Position → Tape β} {g : Position → Reader β}
    (later : ∀ p, Follows tokens i least (f p) (g p)) :
    Follows tokens i least (Tape.position tokens >>= f) (Reader.position >>= g) := by
  intro c faces
  rw [bind_of_run (position_run faces), Reader.position_bind]
  exact later c.position c faces

theorem advance {f : Token → Tape β} {g : Unit → Reader β}
    (later : ∀ t j, i ≤ j → Follows tokens j least (f t) (g ())) :
    Follows tokens i least (Tape.advance tokens >>= f) (Reader.advance >>= g) := by
  intro c faces
  obtain ⟨j, run, ends, le, -⟩ := advance_run faces
  rw [bind_of_run run, Reader.advance_bind]
  exact later _ j le _ ends

/-- A token that is not an end mark is not the last one. -/
theorem advance_past {f : Token → Tape β} {g : Unit → Reader β} (seen : Shows tokens i k)
    (more : k ≠ .eof) (later : ∀ t, Follows tokens (i + 1) least (f t) (g ())) :
    Follows tokens i least (Tape.advance tokens >>= f) (Reader.advance >>= g) := by
  intro c faces
  obtain ⟨j, run, ends, -, next⟩ := advance_run faces
  obtain rfl := next (faces.kind_eq seen ▸ more)
  rw [bind_of_run run, Reader.advance_bind]
  exact later _ _ ends

/-- A token that makes an expression by itself is taken. -/
theorem atom (e : Expr) (seen : Shows tokens i k) (more : k ≠ .eof) :
    Follows tokens i (i + 1) (Tape.advance tokens >>= fun _ => Pure.pure e)
      (Reader.advance >>= fun _ => Pure.pure e) :=
  advance_past seen more fun _ => pure e (Nat.le_refl _)

theorem accept {wanted : TokenKind} (own : wanted ≠ .eof) {f : Bool → Tape β} {g : Bool → Reader β}
    (taken : Follows tokens (i + 1) least (f true) (g true))
    (passed : Follows tokens i least (f false) (g false)) :
    Follows tokens i least (Tape.accept tokens wanted >>= f) (Reader.accept wanted >>= g) := by
  rw [Tape.accept, Reader.accept, bind_assoc, bind_assoc]
  refine kind fun k seen => ?_
  by_cases here : k = wanted
  · rw [if_pos here, if_pos here, bind_assoc, bind_assoc]
    exact advance_past seen (here ▸ own) fun _ => taken
  · rw [if_neg here, if_neg here]
    exact passed

theorem accepted {wanted : TokenKind} (own : wanted ≠ .eof) :
    Follows tokens i i (Tape.accept tokens wanted) (Reader.accept wanted) := by
  rw [← bind_pure (Tape.accept tokens wanted), ← bind_pure (Reader.accept wanted)]
  exact accept own (pure true (Nat.le_succ i)) (pure false (Nat.le_refl i))

theorem expect {wanted : TokenKind} (own : wanted ≠ .eof) {f : Unit → Tape β} {g : Unit → Reader β}
    (later : Follows tokens (i + 1) least (f ()) (g ())) :
    Follows tokens i least (Tape.expect tokens wanted >>= f) (Reader.expect wanted >>= g) := by
  rw [Tape.expect, Reader.expect, bind_assoc, bind_assoc]
  refine kind fun k seen => ?_
  by_cases here : k = wanted
  · rw [if_pos here, if_pos here]
    rw [bind_assoc]
    exact advance_past seen (here ▸ own) fun _ => later
  · rw [if_neg here, if_neg here, bind_assoc, bind_assoc]
    exact position fun p => refuse_bind _ p

/-- A token that is known to be the expected one is moved past. -/
theorem expect_past {f : Unit → Tape β} {g : Unit → Reader β} (seen : Shows tokens i k)
    (more : k ≠ .eof) (later : Follows tokens (i + 1) least (f ()) (g ())) :
    Follows tokens i least (Tape.expect tokens k >>= f) (Reader.advance >>= g) := by
  intro c faces
  have here := faces.kind_eq seen
  have same := expect more later c faces
  rwa [Reader.expect_bind here] at same

theorem identifier {f : String → Tape β} {g : String → Reader β}
    (later : ∀ name, Shows tokens i (.ident name) →
      Follows tokens (i + 1) least (f name) (g name)) :
    Follows tokens i least (Tape.identifier tokens >>= f) (Reader.identifier >>= g) := by
  intro c faces
  obtain ⟨j, run, ends, -, next⟩ := advance_run faces
  have seen := faces.shows_kind
  rw [Tape.identifier, Reader.identifier, bind_assoc, bind_assoc, bind_of_run run,
    Reader.kind_bind, bind_assoc, Reader.position_bind, bind_assoc, Reader.advance_bind]
  dsimp only
  generalize c.kind = k at next seen ⊢
  cases k with
  | ident name =>
    obtain rfl := next (by rintro ⟨⟩)
    exact later name seen _ ends
  | _ => exact refuse_bind _ _ _ ends

theorem identifier_past {name : String} {f : String → Tape β} {g : Unit → Reader β}
    (seen : Shows tokens i (.ident name))
    (later : Follows tokens (i + 1) least (f name) (g ())) :
    Follows tokens i least (Tape.identifier tokens >>= f) (Reader.advance >>= g) := by
  intro c faces
  have only (other : String) (seen' : Shows tokens i (.ident other)) :
      Follows tokens (i + 1) least (f other) (g ()) := by
    obtain rfl : name = other := by
      cases seen.symm.trans seen'
      rfl
    exact later
  have same := identifier only c faces
  rwa [Reader.identifier_bind (faces.kind_eq seen)] at same

end Follows

/-! ## The look-ahead for an assignment -/

theorem dottedAt_run {t u : Token} (here : tokens[i]? = some t) (next : tokens[i + 1]? = some u)
    (s : Nat) :
    dottedAt tokens i s = .ok (decide (t.kind = .sign .dot) && u.kind.isIdent) s := by
  have inside : i + 1 < tokens.length := (List.getElem?_eq_some_iff.mp next).1
  rw [dottedAt, if_pos inside, bind_of_run (tokenAt_run here s)]
  by_cases dot : t.kind = .sign .dot
  · rw [if_pos dot, decide_eq_true dot, Bool.true_and, bind_of_run (tokenAt_run next s)]
    rfl
  · rw [if_neg dot, decide_eq_false dot]
    rfl

theorem dottedAt_of_last (last : tokens[i + 1]? = none) (s : Nat) :
    dottedAt tokens i s = .ok false s := by
  rw [dottedAt, if_neg (Nat.not_lt.mpr (List.getElem?_eq_none_iff.mp last))]
  rfl

theorem assignsAt_run {t : Token} (here : tokens[i]? = some t) (s : Nat) :
    assignsAt tokens i s = .ok (decide (t.kind = .sign .assign)) s := by
  rw [assignsAt, if_pos (List.getElem?_eq_some_iff.mp here).1, bind_of_run (tokenAt_run here s)]
  rfl

/-- Without a dot and a name, only the first token counts. -/
theorem pathAssigned_of_undotted {t : Token} {rest : List Token}
    (undotted : t.kind = .sign .dot → ∀ u ∈ rest.head?, u.kind.isIdent = false) :
    Cursor.pathAssigned (t :: rest) = decide (t.kind = .sign .assign) := by
  by_cases dot : t.kind = .sign .dot
  · obtain ⟨k, p⟩ := t
    obtain rfl : k = .sign .dot := dot
    cases rest with
    | nil => rfl
    | cons u rest =>
      have other := undotted rfl u rfl
      obtain ⟨l, q⟩ := u
      cases l with
      | ident name => cases other
      | _ => rfl
  · exact Cursor.pathAssigned_cons dot rest

theorem pathAssigned_of_dotted {t u : Token} (dot : t.kind = .sign .dot)
    (named : u.kind.isIdent = true) (rest : List Token) :
    Cursor.pathAssigned (t :: u :: rest) = Cursor.pathAssigned rest := by
  obtain ⟨k, p⟩ := t
  obtain rfl : k = .sign .dot := dot
  obtain ⟨l, q⟩ := u
  cases l with
  | ident name => rfl
  | _ => cases named

/-- The index never runs ahead of the list: a dot is not the last token, and the last is no name. -/
theorem pathAssigned_run {turns : Nat} {p : Position} {rest : List Token}
    (faces : Faces tokens i ⟨rest, p⟩) (enough : rest.length < turns) (s : Nat) :
    pathAssigned tokens turns i s = .ok (Cursor.pathAssigned rest) s := by
  induction turns generalizing i rest with
  | zero => cases enough
  | succ turns ih =>
    have alone (t : Token) (here : tokens[i]? = some t) (run : dottedAt tokens i s = .ok false s) :
        pathAssigned tokens (turns + 1) i s = .ok (decide (t.kind = .sign .assign)) s := by
      rw [pathAssigned, bind_of_run run]
      exact assignsAt_run here s
    cases rest with
    | nil =>
      have last : tokens[i + 1]? = none := by
        rw [List.getElem?_eq_none_iff, ← faces.length]
        exact Nat.le_refl _
      exact alone _ faces.token (dottedAt_of_last last s)
    | cons t later =>
      have next : Faces tokens (i + 1) ⟨later, p⟩ := faces.advance (List.cons_ne_nil t later)
      have run : dottedAt tokens i s =
          .ok (decide (t.kind = .sign .dot) && (Cursor.mk later p).kind.isIdent) s :=
        dottedAt_run faces.token next.token s
      by_cases dotted :
          (decide (t.kind = .sign .dot) && (Cursor.mk later p).kind.isIdent) = true
      · obtain ⟨dot, named⟩ := Bool.and_eq_true_iff.mp dotted
        cases later with
        | nil => cases named
        | cons u rest =>
          have behind : Faces tokens (i + 2) ⟨rest, p⟩ := next.advance (List.cons_ne_nil u rest)
          simp only [List.length_cons] at enough
          rw [pathAssigned_of_dotted (of_decide_eq_true dot) named, pathAssigned,
            bind_of_run run, if_pos dotted]
          exact ih behind (by omega)
      · have undotted : t.kind = .sign .dot → ∀ u ∈ later.head?, u.kind.isIdent = false := by
          intro dot u here
          obtain ⟨rest, rfl⟩ := List.head?_eq_some_iff.mp here
          rw [Bool.eq_false_iff]
          exact fun named => dotted (Bool.and_eq_true_iff.mpr ⟨decide_eq_true dot, named⟩)
        rw [pathAssigned_of_undotted undotted]
        refine alone t faces.token (run.trans ?_)
        exact congrArg (EStateM.Result.ok · s) (Bool.eq_false_iff.mpr dotted)

theorem startsAssignment_run (faces : Faces tokens i c) :
    startsAssignment tokens i = .ok c.startsAssignment i := by
  change (tokenAt tokens i >>= _) i = _
  rw [bind_of_run (tokenAt_run faces.token i)]
  obtain ⟨_ | ⟨⟨k, q⟩, rest⟩, p⟩ := c
  · rfl
  · cases k with
    | ident name =>
      have next : Faces tokens (i + 1) ⟨rest, p⟩ := faces.advance (List.cons_ne_nil _ rest)
      have short : rest.length < tokens.length := by
        have length : i + 1 + rest.length + 1 = tokens.length := next.length
        omega
      exact pathAssigned_run next short i
    | _ => rfl

theorem Follows.startsAssignment {x x' : Tape β} {y y' : Reader β}
    (yes : Follows tokens i least x y) (no : Follows tokens i least x' y') :
    Follows tokens i least (do if ← Tape.startsAssignment tokens then x else x')
      (do if (← get).startsAssignment then y else y') := by
  intro c faces
  rw [bind_of_run (startsAssignment_run faces)]
  change SameEnd tokens least _ ((if c.startsAssignment = true then y else y') c)
  split
  · exact yes c faces
  · exact no c faces

/-! ## Readers of the grammar -/

theorem follows_params (fuel : Nat) :
    Follows tokens i i (params tokens fuel) (Reader.params fuel) := by
  induction fuel generalizing i with
  | zero => exact .exhausted
  | succ fuel ih =>
    rw [params, Reader.params]
    refine .start (.kind fun k _ => ?_)
    split
    · exact .pure [] (Nat.le_refl i)
    · refine .position fun p => .bind (.accepted (by decide)) fun byRef j le => ?_
      refine .identifier fun name _ => .accept (by decide) ?_ ?_
      · refine .onward (by omega) (.bind ih fun later j' le' => ?_)
        exact .pure _ (by omega)
      · exact .onward (by omega) (.pure _ (by omega))

/-- With so much fuel, every reading by index follows the one from the cursor.  Expressions and
statements end behind their first token. -/
structure AllFollow (tokens : List Token) (fuel : Nat) : Prop where
  expr : ∀ i, Follows tokens i (i + 1) (expr tokens fuel) (Reader.expr fuel)
  tier : ∀ i level, Follows tokens i (i + 1) (tier tokens fuel level) (Reader.tier fuel level)
  chain : ∀ i level left,
    Follows tokens i i (chain tokens fuel level left) (Reader.chain fuel level left)
  unary : ∀ i, Follows tokens i (i + 1) (unary tokens fuel) (Reader.unary fuel)
  members : ∀ i object, Follows tokens i i (members tokens fuel object) (Reader.members fuel object)
  primary : ∀ i, Follows tokens i (i + 1) (primary tokens fuel) (Reader.primary fuel)
  args : ∀ i, Follows tokens i i (args tokens fuel) (Reader.args fuel)
  function : ∀ i name place, Follows tokens i (i + 1) (function tokens fuel name place)
    (Reader.function fuel name place)
  block : ∀ i, Follows tokens i (i + 1) (block tokens fuel) (Reader.block fuel)
  stmts : ∀ i, Follows tokens i i (stmts tokens fuel) (Reader.stmts fuel)
  stmt : ∀ i, Follows tokens i (i + 1) (stmt tokens fuel) (Reader.stmt fuel)
  branch : ∀ i, Shows tokens i (.keyword .ifWord) →
    Follows tokens i (i + 1) (branch tokens fuel) (Reader.branch fuel)
  loop : ∀ i, Shows tokens i (.keyword .whileWord) →
    Follows tokens i (i + 1) (loop tokens fuel) (Reader.loop fuel)
  ret : ∀ i, Shows tokens i (.keyword .returnWord) →
    Follows tokens i (i + 1) (ret tokens fuel) (Reader.ret fuel)
  assignment : ∀ i, Follows tokens i (i + 1) (assignment tokens fuel) (Reader.assignment fuel)
  path : ∀ i, Follows tokens i i (path tokens fuel) (Reader.path fuel)
  callStmt : ∀ i, Follows tokens i (i + 1) (callStmt tokens fuel) (Reader.callStmt fuel)

namespace AllFollow

variable {fuel : Nat} (less : AllFollow tokens fuel)

include less

theorem tier_succ (i level : Nat) : Follows tokens i (i + 1)
    (Tape.tier tokens (fuel + 1) level) (Reader.tier (fuel + 1) level) := by
  cases level with
  | zero =>
    rw [Tape.tier, Reader.tier]
    exact .consuming (less.unary i)
  | succ level =>
    rw [Tape.tier, Reader.tier]
    refine .consuming (.bind (less.tier i level) fun left j moved => ?_)
    exact (less.chain j level left).mono moved

theorem chain_succ (i level : Nat) (left : Expr) : Follows tokens i i
    (Tape.chain tokens (fuel + 1) level left) (Reader.chain (fuel + 1) level left) := by
  rw [Tape.chain, Reader.chain]
  refine .start (.kind fun k _ => ?_)
  cases Reader.binaryOp? (level + 1) k with
  | none => exact .pure left (Nat.le_refl i)
  | some op =>
    refine .advance fun _ j le => .bind (less.tier j level) fun right j' moved => ?_
    exact .onward (by omega) ((less.chain j' level _).mono (by omega))

theorem unary_succ (i : Nat) :
    Follows tokens i (i + 1) (Tape.unary tokens (fuel + 1)) (Reader.unary (fuel + 1)) := by
  rw [Tape.unary, Reader.unary]
  refine .consuming (.position fun p => .kind fun k _ => ?_)
  cases Reader.unaryOp? k with
  | some op =>
    refine .advance fun _ j le => .bind (less.unary j) fun operand j' moved => ?_
    exact .pure _ (by omega)
  | none =>
    refine .bind (less.primary i) fun object j moved => ?_
    exact (less.members j object).mono moved

theorem members_succ (i : Nat) (object : Expr) : Follows tokens i i
    (Tape.members tokens (fuel + 1) object) (Reader.members (fuel + 1) object) := by
  rw [Tape.members, Reader.members]
  refine .start (.accept (by decide) ?_ (.pure object (Nat.le_refl i)))
  refine .identifier fun name _ => .accept (by decide) ?_ ?_
  · refine .bind (less.args _) fun arguments j le => .expect (by decide) ?_
    exact .onward (by omega) ((less.members (j + 1) _).mono (by omega))
  · exact .onward (by omega) ((less.members (i + 1 + 1) _).mono (by omega))

theorem primary_succ (i : Nat) :
    Follows tokens i (i + 1) (Tape.primary tokens (fuel + 1)) (Reader.primary (fuel + 1)) := by
  refine .consuming (.position fun p => .kind fun k seen => ?_)
  cases k with
  | int value => exact Follows.atom (.int value p) seen nofun
  | bool value => exact Follows.atom (.bool value p) seen nofun
  | str text => exact Follows.atom (.str text p) seen nofun
  | nil => exact Follows.atom (.nil p) seen nofun
  | ident name =>
    refine .identifier_past seen (.accept (by decide) ?_ (.pure _ (Nat.le_refl _)))
    refine .bind (less.args _) fun arguments j le => .expect (by decide) ?_
    exact .pure _ (by omega)
  | keyword word =>
    cases word with
    | lambda =>
      refine .expect_past seen (by decide) ?_
      refine .bind (less.function _ "lambda" p) fun definition j moved => ?_
      exact .pure _ (by omega)
    | _ => exact .refuse _ p
  | sign s =>
    cases s with
    | atSign => exact Follows.atom (.object p) seen nofun
    | leftParen =>
      refine .advance fun _ j le => .bind (less.expr j) fun inner j' moved => ?_
      exact .expect (by decide) (.pure _ (by omega))
    | _ => exact .refuse _ p
  | eof => exact .refuse _ p

theorem args_succ (i : Nat) :
    Follows tokens i i (Tape.args tokens (fuel + 1)) (Reader.args (fuel + 1)) := by
  rw [Tape.args, Reader.args]
  refine .start (.kind fun k _ => ?_)
  split
  · exact .pure [] (Nat.le_refl i)
  · refine .bind (less.expr i) fun arg j moved => .accept (by decide) ?_ ?_
    · refine .onward (by omega) (.bind (less.args _) fun later j' le => ?_)
      exact .pure _ (by omega)
    · exact .onward moved (.pure _ (by omega))

theorem function_succ (i : Nat) (name : String) (place : Position) : Follows tokens i (i + 1)
    (Tape.function tokens (fuel + 1) name place) (Reader.function (fuel + 1) name place) := by
  rw [Tape.function, Reader.function]
  refine .consuming (.expect (by decide) (.bind (follows_params fuel) fun parameters j le => ?_))
  refine .expect (by decide) (.bind (less.block _) fun body j' moved => ?_)
  exact .pure _ (by omega)

theorem block_succ (i : Nat) :
    Follows tokens i (i + 1) (Tape.block tokens (fuel + 1)) (Reader.block (fuel + 1)) := by
  rw [Tape.block, Reader.block]
  refine .consuming (.expect (by decide) (.bind (less.stmts _) fun body j le => ?_))
  exact .expect (by decide) (.pure _ (by omega))

theorem stmts_succ (i : Nat) :
    Follows tokens i i (Tape.stmts tokens (fuel + 1)) (Reader.stmts (fuel + 1)) := by
  rw [Tape.stmts, Reader.stmts]
  refine .start (.kind fun k _ => ?_)
  split
  · exact .pure [] (Nat.le_refl i)
  · refine .bind (less.stmt i) fun first j moved => .onward moved ?_
    refine .bind (less.stmts j) fun later j' le => ?_
    exact .pure _ (by omega)

theorem stmt_succ (i : Nat) :
    Follows tokens i (i + 1) (Tape.stmt tokens (fuel + 1)) (Reader.stmt (fuel + 1)) := by
  rw [Tape.stmt, Reader.stmt]
  refine .consuming (.kind fun k seen => ?_)
  cases k with
  | keyword word =>
    cases word with
    | ifWord => exact less.branch i seen
    | whileWord => exact less.loop i seen
    | returnWord => exact less.ret i seen
    | _ => exact .startsAssignment (less.assignment i) (less.callStmt i)
  | _ => exact .startsAssignment (less.assignment i) (less.callStmt i)

theorem branch_succ (i : Nat) (seen : Shows tokens i (.keyword .ifWord)) :
    Follows tokens i (i + 1) (Tape.branch tokens (fuel + 1)) (Reader.branch (fuel + 1)) := by
  rw [Tape.branch, Reader.branch]
  refine .consuming (.position fun p => .expect_past seen (by decide) (.expect (by decide) ?_))
  refine .bind (less.expr _) fun condition j moved => .expect (by decide) ?_
  refine .bind (less.block _) fun yes j' moved' => .accept (by decide) ?_ (.pure _ (by omega))
  exact .bind (less.block _) fun no j'' moved'' => .pure _ (by omega)

theorem loop_succ (i : Nat) (seen : Shows tokens i (.keyword .whileWord)) :
    Follows tokens i (i + 1) (Tape.loop tokens (fuel + 1)) (Reader.loop (fuel + 1)) := by
  rw [Tape.loop, Reader.loop]
  refine .consuming (.position fun p => .expect_past seen (by decide) (.expect (by decide) ?_))
  refine .bind (less.expr _) fun condition j moved => .expect (by decide) ?_
  exact .bind (less.block _) fun body j' moved' => .pure _ (by omega)

theorem ret_succ (i : Nat) (seen : Shows tokens i (.keyword .returnWord)) :
    Follows tokens i (i + 1) (Tape.ret tokens (fuel + 1)) (Reader.ret (fuel + 1)) := by
  rw [Tape.ret, Reader.ret]
  refine .consuming (.position fun p => .expect_past seen (by decide) ?_)
  refine .accept (by decide) (.pure _ (by omega)) ?_
  refine .bind (less.expr _) fun value j moved => ?_
  exact .expect (by decide) (.pure _ (by omega))

theorem assignment_succ (i : Nat) : Follows tokens i (i + 1)
    (Tape.assignment tokens (fuel + 1)) (Reader.assignment (fuel + 1)) := by
  rw [Tape.assignment, Reader.assignment]
  refine .consuming (.position fun p => .identifier fun root _ => ?_)
  refine .bind (less.path _) fun fields j le => .expect (by decide) ?_
  refine .bind (less.expr _) fun value j' moved => ?_
  exact .expect (by decide) (.pure _ (by omega))

theorem path_succ (i : Nat) :
    Follows tokens i i (Tape.path tokens (fuel + 1)) (Reader.path (fuel + 1)) := by
  rw [Tape.path, Reader.path]
  refine .start (.accept (by decide) ?_ (.pure [] (Nat.le_refl i)))
  refine .identifier fun name _ => .onward (by omega) ?_
  exact .bind (less.path _) fun later j le => .pure _ (by omega)

theorem callStmt_succ (i : Nat) :
    Follows tokens i (i + 1) (Tape.callStmt tokens (fuel + 1)) (Reader.callStmt (fuel + 1)) := by
  rw [Tape.callStmt, Reader.callStmt]
  refine .consuming (.position fun p => .bind (less.expr i) fun value j moved => ?_)
  split
  · exact .expect (by decide) (.pure _ (by omega))
  · exact .refuse _ p

end AllFollow

theorem allFollow (tokens : List Token) (fuel : Nat) : AllFollow tokens fuel := by
  induction fuel with
  | zero =>
    constructor <;> intros
    case expr => rw [expr, Reader.expr]; exact .exhausted
    case tier => rw [tier, Reader.tier]; exact .exhausted
    case chain => rw [chain, Reader.chain]; exact .exhausted
    case unary => rw [unary, Reader.unary]; exact .exhausted
    case members => rw [members, Reader.members]; exact .exhausted
    case primary => exact .exhausted
    case args => rw [args, Reader.args]; exact .exhausted
    case function => rw [function, Reader.function]; exact .exhausted
    case block => rw [block, Reader.block]; exact .exhausted
    case stmts => rw [stmts, Reader.stmts]; exact .exhausted
    case stmt => rw [stmt, Reader.stmt]; exact .exhausted
    case branch => rw [branch, Reader.branch]; exact .exhausted
    case loop => rw [loop, Reader.loop]; exact .exhausted
    case ret => rw [ret, Reader.ret]; exact .exhausted
    case assignment => rw [assignment, Reader.assignment]; exact .exhausted
    case path => rw [path, Reader.path]; exact .exhausted
    case callStmt => rw [callStmt, Reader.callStmt]; exact .exhausted
  | succ fuel less =>
    exact {
      expr := fun i => by rw [expr, Reader.expr]; exact .consuming (less.tier i 5)
      tier := less.tier_succ
      chain := less.chain_succ
      unary := less.unary_succ
      members := less.members_succ
      primary := less.primary_succ
      args := less.args_succ
      function := less.function_succ
      block := less.block_succ
      stmts := less.stmts_succ
      stmt := less.stmt_succ
      branch := less.branch_succ
      loop := less.loop_succ
      ret := less.ret_succ
      assignment := less.assignment_succ
      path := less.path_succ
      callStmt := less.callStmt_succ }

end Tape

end Protoscript
