import Protoscript.Proofs.Layout

/-! # Where tokens and faults stand

The places of a text are those of its bytes in turn and that of its end.  Each one precedes all
those after it (`Position.pairwise_places`), so what stands at some of them, in their order, never
stands at one place twice.  A lexeme gives at most one token or fault, at one of its own bytes
(`Lexeme.filterMap_placed_sublist`): the tokens of a text stand so, and so do its faults. -/

set_option autoImplicit false

namespace Protoscript

/-! ## Places -/

namespace Position

/-- On an earlier line, or further left on the same one. -/
def Precedes (p q : Position) : Prop := p.line < q.line ∨ p.line = q.line ∧ p.column < q.column

theorem Precedes.trans {p q r : Position} (first : p.Precedes q) (second : q.Precedes r) :
    p.Precedes r := by
  unfold Precedes at *
  omega

theorem Precedes.ne {p q : Position} (before : p.Precedes q) : p ≠ q := by
  intro same
  unfold Precedes at before
  rw [same] at before
  omega

theorem precedes_next (p : Position) (b : UInt8) : p.Precedes (p.next b) := by
  by_cases newline : b = '\n'.toUInt8 <;> simp [Precedes, next, newline]

/-- The places of the bytes of a text that starts at `p`, and the place after them. -/
def places (p : Position) : List UInt8 → List Position
  | [] => [p]
  | b :: bytes => p :: (p.next b).places bytes

theorem precedes_of_mem_places {p q : Position} {b : UInt8} {bytes : List UInt8}
    (later : q ∈ (p.next b).places bytes) : p.Precedes q := by
  induction bytes generalizing p b with
  | nil =>
    rw [List.mem_singleton.mp later]
    exact p.precedes_next b
  | cons c bytes ih =>
    cases later with
    | head => exact p.precedes_next b
    | tail _ later => exact (p.precedes_next b).trans (ih later)

theorem pairwise_places (p : Position) (bytes : List UInt8) :
    (p.places bytes).Pairwise Precedes := by
  induction bytes generalizing p with
  | nil => exact List.pairwise_singleton _ _
  | cons b bytes ih => exact .cons (fun _ => precedes_of_mem_places) (ih _)

/-- Each of the places is the one past some first bytes. -/
theorem exists_past (before : List UInt8) {bytes : List UInt8} {q : Position}
    (here : q ∈ (past before).places bytes) :
    ∃ front, front <+: before ++ bytes ∧ q = past front := by
  induction bytes generalizing before with
  | nil => exact ⟨before, List.prefix_append _ _, List.mem_singleton.mp here⟩
  | cons b bytes ih =>
    cases here with
    | head => exact ⟨before, List.prefix_append _ _, rfl⟩
    | tail _ later =>
      rw [← past_append_singleton] at later
      obtain ⟨front, heads, same⟩ := ih _ later
      exact ⟨front, by simpa using heads, same⟩

theorem places_after_sublist (p : Position) (left right : List UInt8) :
    ((p.after left).places right).Sublist (p.places (left ++ right)) := by
  induction left generalizing p with
  | nil => exact List.Sublist.refl _
  | cons b left ih => exact (ih (p.next b)).cons p

/-- The place of one of the bytes on the left, before all those from the right on. -/
theorem after_take_sublist (p : Position) {left : List UInt8} {k : Nat} (inside : k < left.length)
    (right : List UInt8) :
    (p.after (left.take k) :: (p.after left).places right).Sublist (p.places (left ++ right)) := by
  induction left generalizing p k with
  | nil => cases inside
  | cons b left ih =>
    cases k with
    | zero => exact (places_after_sublist (p.next b) left right).cons_cons p
    | succ k => exact (ih (p.next b) (Nat.lt_of_succ_lt_succ inside)).cons p

end Position

/-! ## Phases -/

namespace Diagnostic

/-- What a source is checked for: its words, then its grammar, then its set of definitions. -/
inductive Phase
  | words | grammar | definitions

def Code.phase : Code → Phase
  | L001 | L002 | L003 => .words
  | P001 | P002 => .grammar
  | S003 => .definitions

/-- The errors belong to the phase and stand at some of the places, in their order. -/
structure Reports (phase : Phase) (places : List Position) (errors : List Diagnostic) : Prop where
  phase_eq : ∀ d ∈ errors, d.code.phase = phase
  sublist : (errors.map Diagnostic.position).Sublist places

namespace Reports

variable {phase : Phase} {places more : List Position} {errors : List Diagnostic}

theorem nil : Reports phase places [] := ⟨by simp, List.nil_sublist places⟩

theorem cons {d : Diagnostic} (own : d.code.phase = phase) (later : Reports phase places errors) :
    Reports phase (d.position :: places) (d :: errors) := by
  refine ⟨?_, later.sublist.cons_cons _⟩
  intro e member
  cases member with
  | head => exact own
  | tail _ member => exact later.phase_eq e member

theorem mono (reports : Reports phase places errors) (among : places.Sublist more) :
    Reports phase more errors := ⟨reports.phase_eq, reports.sublist.trans among⟩

end Reports

end Diagnostic

/-! ## Lexemes -/

/-- An unknown escape is inside the literal. -/
theorem Piece.offset_lt {ps : List Piece} {offset : Nat} {bad : UInt8}
    (failed : Piece.decodeAll ps = .error (offset, bad)) :
    offset < (ps.flatMap Piece.bytes).length := by
  induction ps generalizing offset with
  | nil => cases failed
  | cons p ps ih =>
    rw [Piece.decodeAll] at failed
    split at failed
    · next unknown =>
      cases failed
      cases p with
      | plain b => cases unknown
      | escape b => simp [Piece.bytes]
    · split at failed
      · cases failed
      · next later =>
        cases failed
        have inside := ih later
        simp only [List.flatMap_cons, List.length_append]
        omega

namespace Lexeme

theorem flatMap_cutAll (bytes : List UInt8) : (cutAll bytes).flatMap Lexeme.bytes = bytes := by
  induction bytes using cutAll.induct with
  | case1 => simp [cutAll]
  | case2 b rest ih => rw [cutAll, List.flatMap_cons, ih, first_bytes]

/-- What is so of every first lexeme is so of all. -/
theorem forall_mem_cutAll {P : Lexeme → Prop} (each : ∀ b rest, P (first b rest).1)
    (bytes : List UInt8) : ∀ l ∈ cutAll bytes, P l := by
  induction bytes using cutAll.induct with
  | case1 => simp [cutAll]
  | case2 b rest ih =>
    rw [cutAll, List.forall_mem_cons]
    exact ⟨each b rest, ih⟩

/-- A fault is an error of the words, at a byte of its lexeme. -/
def FaultInside (l : Lexeme) : Prop :=
  ∀ cause offset, l.reading = .fault cause offset →
    cause.code.phase = .words ∧ offset < l.bytes.length

theorem faultInside_of_zero {l : Lexeme} (nonempty : l.bytes ≠ [])
    (atStart : ∀ cause offset, l.reading = .fault cause offset →
      cause.code.phase = .words ∧ offset = 0) : l.FaultInside := by
  intro cause offset fault
  obtain ⟨own, zero⟩ := atStart cause offset fault
  rw [zero]
  exact ⟨own, List.length_pos_iff.mpr nonempty⟩

theorem fault_ofDigits {digits : List UInt8} {cause : Diagnostic.Cause} {offset : Nat}
    (fault : ofDigits digits = .fault cause offset) :
    cause.code.phase = .words ∧ offset = 0 := by
  unfold ofDigits at fault
  split at fault
  · cases fault
  · cases fault
    exact ⟨rfl, rfl⟩

theorem fault_ofStray {b : UInt8} {cause : Diagnostic.Cause} {offset : Nat}
    (fault : ofStray b = .fault cause offset) : cause.code.phase = .words ∧ offset = 0 := by
  unfold ofStray at fault
  split_ifs at fault <;> cases fault <;> exact ⟨rfl, rfl⟩

/-- A literal is unterminated from its quote on; an unknown escape is reported at the byte after
the backslash. -/
theorem faultInside_literal (quote : UInt8) (literal : Literal) :
    FaultInside ⟨quote :: literal.bytes, literal.reading⟩ := by
  intro cause offset fault
  change literal.reading = _ at fault
  unfold Literal.reading at fault
  split at fault
  · split at fault
    · cases fault
    · next failed =>
      cases fault
      have inside := Piece.offset_lt failed
      refine ⟨rfl, ?_⟩
      simp only [Literal.bytes, List.length_cons, List.length_append]
      omega
  · cases fault
    exact ⟨rfl, by simp⟩

theorem faultInside_first (b : UInt8) (rest : List UInt8) : (first b rest).1.FaultInside := by
  have nonempty := first_ne_nil b rest
  revert nonempty
  rw [first]
  split
  · exact (faultInside_of_zero · fun _ _ fault => by cases fault)
  split
  · exact (faultInside_of_zero · fun _ _ => fault_ofDigits)
  split
  · exact (faultInside_of_zero · fun _ _ fault => by cases fault)
  split
  · exact fun _ => faultInside_literal b (Literal.cut rest)
  split
  · exact (faultInside_of_zero · fun _ _ fault => by cases fault)
  split
  · exact (faultInside_of_zero · fun _ _ fault => by cases fault)
  split
  · exact (faultInside_of_zero · fun _ _ fault => by cases fault)
  · exact (faultInside_of_zero · fun _ _ => fault_ofStray)

/-- What is picked from each lexeme at one of its bytes stands in order, before the end. -/
theorem filterMap_placed_sublist {α : Type} (pick : Position × Lexeme → Option α)
    (place : α → Position) {ls : List Lexeme}
    (inside : ∀ l ∈ ls, ∀ p a, pick (p, l) = some a →
      ∃ k, k < l.bytes.length ∧ place a = p.after (l.bytes.take k)) (p : Position) :
    (((placed p ls).filterMap pick).map place ++ [p.after (ls.flatMap Lexeme.bytes)]).Sublist
      (p.places (ls.flatMap Lexeme.bytes)) := by
  induction ls generalizing p with
  | nil => exact List.Sublist.refl _
  | cons l ls ih =>
    rw [List.forall_mem_cons] at inside
    obtain ⟨here, later⟩ := inside
    have rest := ih later (p.after l.bytes)
    rw [placed, List.flatMap_cons, Position.after_append]
    cases picked : pick (p, l) with
    | none =>
      rw [List.filterMap_cons_none picked]
      exact rest.trans (p.places_after_sublist _ _)
    | some a =>
      obtain ⟨k, short, same⟩ := here p a picked
      rw [List.filterMap_cons_some picked, List.map_cons, same]
      exact (rest.cons_cons _).trans (p.after_take_sublist short _)

theorem mem_of_mem_placed {p q : Position} {l : Lexeme} {ls : List Lexeme}
    (member : (q, l) ∈ placed p ls) : l ∈ ls := by
  induction ls generalizing p with
  | nil => cases member
  | cons _ ls ih =>
    cases member with
    | head => exact List.mem_cons_self
    | tail _ member => exact List.mem_cons_of_mem _ (ih member)

theorem diagnostic?_eq_some {p : Position} {l : Lexeme} {d : Diagnostic}
    (reported : diagnostic? (p, l) = some d) :
    ∃ offset, l.reading = .fault d.cause offset ∧ d.position = p.after (l.bytes.take offset) := by
  obtain ⟨bytes, reading⟩ := l
  cases reading with
  | fault cause offset =>
    cases reported
    exact ⟨offset, rfl, rfl⟩
  | _ => cases reported

theorem token?_eq_some {p : Position} {l : Lexeme} {t : Token} (read : token? (p, l) = some t) :
    t.position = p := by
  obtain ⟨bytes, reading⟩ := l
  cases reading with
  | token kind =>
    cases read
    rfl
  | _ => cases read

/-! ## Texts -/

/-- The faults of a text are errors of the words at bytes of the text. -/
theorem reports_diagnostics (bytes : List UInt8) :
    Diagnostic.Reports .words (Position.start.places bytes)
      ((placed .start (cutAll bytes)).filterMap diagnostic?) := by
  have inside := forall_mem_cutAll faultInside_first bytes
  constructor
  · intro d member
    obtain ⟨⟨p, l⟩, standing, reported⟩ := List.mem_filterMap.mp member
    obtain ⟨offset, fault, -⟩ := diagnostic?_eq_some reported
    exact (inside l (mem_of_mem_placed standing) d.cause offset fault).1
  · have atByte : ∀ l ∈ cutAll bytes, ∀ p d, diagnostic? (p, l) = some d →
        ∃ k, k < l.bytes.length ∧ d.position = p.after (l.bytes.take k) := by
      intro l member p d reported
      obtain ⟨offset, fault, place⟩ := diagnostic?_eq_some reported
      exact ⟨offset, (inside l member d.cause offset fault).2, place⟩
    have standing := filterMap_placed_sublist _ _ atByte .start
    rw [flatMap_cutAll] at standing
    exact (List.sublist_append_left _ _).trans standing

/-- The tokens of a text stand at bytes of the text, before its end. -/
theorem tokens_sublist (bytes : List UInt8) :
    (((placed .start (cutAll bytes)).filterMap token?).map Token.position ++
      [Position.start.after bytes]).Sublist (Position.start.places bytes) := by
  have nonempty : ∀ l ∈ cutAll bytes, l.bytes ≠ [] := forall_mem_cutAll first_ne_nil bytes
  have atByte : ∀ l ∈ cutAll bytes, ∀ p t, token? (p, l) = some t →
      ∃ k, k < l.bytes.length ∧ t.position = p.after (l.bytes.take k) := by
    intro l member p t read
    exact ⟨0, List.length_pos_iff.mpr (nonempty l member), token?_eq_some read⟩
  have standing := filterMap_placed_sublist _ _ atByte .start
  rwa [flatMap_cutAll] at standing

end Lexeme

namespace Token

theorem reports_of_ofBytes {bytes : List UInt8} {errors : List Diagnostic}
    (failed : ofBytes bytes = .error errors) :
    errors ≠ [] ∧ Diagnostic.Reports .words (Position.start.places bytes) errors := by
  rw [ofBytes] at failed
  split at failed
  · cases failed
  · next some =>
    cases failed
    exact ⟨some, Lexeme.reports_diagnostics bytes⟩

/-- The end mark is last, and it and the tokens before it stand at places of the text. -/
theorem exists_front_of_ofBytes {bytes : List UInt8} {tokens : List Token}
    (read : ofBytes bytes = .ok tokens) :
    ∃ front ending, tokens = front ++ [⟨.eof, ending⟩] ∧
      (front.map Token.position ++ [ending]).Sublist (Position.start.places bytes) := by
  rw [ofBytes] at read
  split at read
  · cases read
    exact ⟨_, _, rfl, Lexeme.tokens_sublist bytes⟩
  · cases read

end Token

end Protoscript
