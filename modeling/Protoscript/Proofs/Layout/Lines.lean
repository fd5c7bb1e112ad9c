import Protoscript.Proofs.Diagnostics.Words
import Protoscript.Proofs.Layout.Tokens

/-! # Lines of a source

A newline ends what stands before it: the tokens and the faults of a source with a newline behind it
and then another source are those of the first and, that many lines further down, those of the
second (`Token.ofSource_lines`).  Two lexemes at the end of a source take the newline to themselves:
a block comment that is not closed, and a string literal that ends in a backslash, which escapes the
newline.  Either of the two is open to the end of the source, so every other lexeme stays as it is
(`Lexeme.first_before_newline`), and blanks may be passed over one by one. -/

set_option autoImplicit false

namespace Protoscript

/-! ## Further down -/

def Position.down (lines : Nat) (p : Position) : Position := ⟨p.line + lines, p.column⟩

def Token.down (lines : Nat) (t : Token) : Token := ⟨t.kind, t.position.down lines⟩

def Diagnostic.down (lines : Nat) (d : Diagnostic) : Diagnostic := ⟨d.cause, d.position.down lines⟩

theorem Position.next_down (lines : Nat) (p : Position) (b : UInt8) :
    (p.down lines).next b = (p.next b).down lines := by
  rw [next, next]
  split
  · exact congrArg (Position.mk · 1) (Nat.add_right_comm p.line lines 1)
  · rfl

theorem Position.after_down (lines : Nat) (p : Position) (bytes : List UInt8) :
    (p.down lines).after bytes = (p.after bytes).down lines := by
  induction bytes generalizing p with
  | nil => rfl
  | cons b bytes ih => rw [after_cons, after_cons, next_down, ih]

theorem Position.line_after (p : Position) (bytes : List UInt8) :
    (p.after bytes).line = p.line + bytes.count '\n'.toUInt8 := by
  induction bytes generalizing p with
  | nil => rfl
  | cons b bytes ih =>
    rw [after_cons, ih, next, List.count_cons]
    by_cases newline : b = '\n'.toUInt8
    · simp [newline]
      omega
    · simp [newline]

/-- A newline starts the next line, wherever it stands. -/
theorem Position.next_newline (p : Position) :
    p.next '\n'.toUInt8 = Position.start.down p.line := by
  simp [next, down, start, Nat.add_comm]

/-- How many newlines are in a text. -/
def lineBreaks (text : String) : Nat := text.toList.count '\n'

theorem count_newline_encode (text : String) :
    (Text.encode text).count '\n'.toUInt8 = lineBreaks text := by
  rw [Text.encode_eq, lineBreaks]
  induction text.toList with
  | nil => rfl
  | cons c cs ih =>
    rw [Text.encodeAll_cons, List.count_append, ih, List.count_cons, Nat.add_comm]
    by_cases newline : c = '\n'
    · subst newline
      rfl
    · have none : '\n'.toUInt8 ∉ String.utf8EncodeChar c := fun member =>
        newline (Text.eq_of_mem_utf8EncodeChar (by decide) member)
      rw [List.count_eq_zero_of_not_mem none, if_neg (by simpa using newline)]

namespace Lexeme

/-- Faults and tokens, and then more of both. -/
def join (x y : List Diagnostic × List Token) : List Diagnostic × List Token :=
  (x.1 ++ y.1, x.2 ++ y.2)

theorem join_assoc (x y z : List Diagnostic × List Token) :
    join (join x y) z = join x (join y z) := by
  simp [join]

theorem nil_join (x : List Diagnostic × List Token) : join ([], []) x = x := rfl

/-- What one lexeme at `p` comes to. -/
def scanOne (p : Position) (l : Lexeme) : List Diagnostic × List Token :=
  ([(p, l)].filterMap diagnostic?, [(p, l)].filterMap token?)

section

variable {p : Position} {b : UInt8} {rest later : List UInt8} {l : Lexeme}

theorem scan_cons (cut : first b rest = (l, later)) :
    scan p (b :: rest) = join (scanOne p l) (scan (p.after l.bytes) later) := by
  rw [scan, cutAll, cut, placed, ← List.singleton_append, List.filterMap_append,
    List.filterMap_append]
  rfl

theorem scan_blanks {blanks : List UInt8} (all : ∀ c ∈ blanks, isBlankByte c = true)
    (p : Position) (rest : List UInt8) : scan p (blanks ++ rest) = scan (p.after blanks) rest := by
  induction blanks generalizing p with
  | nil => rfl
  | cons c blanks ih =>
    rw [List.cons_append, scan_blank (all c List.mem_cons_self), Position.after_cons,
      ih fun d member => all d (List.mem_cons_of_mem c member)]

end

theorem scan_down (lines : Nat) (p : Position) (input : List UInt8) :
    scan (p.down lines) input =
      ((scan p input).1.map (Diagnostic.down lines), (scan p input).2.map (Token.down lines)) := by
  have one (p : Position) (l : Lexeme) : scanOne (p.down lines) l =
      ((scanOne p l).1.map (Diagnostic.down lines), (scanOne p l).2.map (Token.down lines)) := by
    obtain ⟨bytes, reading⟩ := l
    cases reading with
    | gap => rfl
    | token kind => rfl
    | fault cause offset =>
      simp only [scanOne, List.filterMap_cons, List.filterMap_nil, diagnostic?, token?,
        Position.after_down]
      rfl
  induction input using cutAll.induct generalizing p with
  | case1 => simp
  | case2 b rest ih =>
    rcases cut : first b rest with ⟨l, later⟩
    rw [cut] at ih
    rw [scan_cons cut, scan_cons cut, one, Position.after_down, ih]
    simp only [join, List.map_append]

/-! ## Lexemes before a newline -/

theorem run_before_newline {inClass : UInt8 → Bool} (out : inClass '\n'.toUInt8 = false)
    (input more : List UInt8) (reading : List UInt8 → Reading) :
    run inClass (input ++ '\n'.toUInt8 :: more) reading =
      ((run inClass input reading).1, (run inClass input reading).2 ++ '\n'.toUInt8 :: more) := by
  have whole := run_bytes inClass input reading
  rcases cut : run inClass input reading with ⟨⟨word, r⟩, rest⟩
  obtain ⟨rfl, -, all, stops⟩ := run_eq cut
  rw [cut] at whole
  rw [← whole, List.append_assoc]
  refine run_append all ?_ reading
  cases rest with
  | nil => simpa using out
  | cons c rest => exact stops

theorem head?_before_newline {c : UInt8} (other : c ≠ '\n'.toUInt8) (input more : List UInt8) :
    (input ++ '\n'.toUInt8 :: more).head? = some c ↔ input.head? = some c := by
  cases input with
  | nil => simp [other.symm]
  | cons => rfl

/-- No newline is in a sign. -/
theorem heading?_before_newline (input more : List UInt8) :
    Sign.heading? (input ++ '\n'.toUInt8 :: more) = Sign.heading? input := by
  have none : ∀ s : Sign, '\n'.toUInt8 ∉ s.bytes := by
    intro s
    cases s <;> decide
  have same : ∀ bytes : List UInt8, '\n'.toUInt8 ∉ bytes →
      bytes.isPrefixOf (input ++ '\n'.toUInt8 :: more) = bytes.isPrefixOf input := by
    intro bytes free
    induction bytes generalizing input with
    | nil => rfl
    | cons c bytes ih =>
      rw [List.mem_cons, not_or] at free
      cases input with
      | nil =>
        have other : (c == '\n'.toUInt8) = false := beq_eq_false_iff_ne.mpr (Ne.symm free.1)
        simp [List.isPrefixOf, other]
      | cons d input => simp [List.isPrefixOf, ih input free.2]
  rw [Sign.heading?, Sign.heading?]
  exact congrArg (Sign.all.find? ·) (funext fun s => same s.bytes (none s))

theorem cutComment_before_newline {input : List UInt8}
    (closed : blockClosing <:+: (cutComment input).1) (more : List UInt8) :
    cutComment (input ++ more) = ((cutComment input).1, (cutComment input).2 ++ more) := by
  rcases cutComment_cases input with ⟨text, same, open_⟩ | ⟨same, open_⟩
  · have whole : text ++ blockClosing ++ ((cutComment input).2 ++ more) = input ++ more := by
      rw [← List.append_assoc, ← same, cutComment_append]
    rw [← whole, cutComment_append_closing open_, same]
  · rw [same] at closed
    exact absurd closed open_

end Lexeme

deriving instance DecidableEq for Piece

namespace Literal

theorem cut_newline (rest : List UInt8) :
    cut ('\n'.toUInt8 :: rest) = ⟨[], false, '\n'.toUInt8 :: rest⟩ := by
  rw [cut.eq_def]
  exact if_pos rfl

theorem cut_quote (rest : List UInt8) : cut ('"'.toUInt8 :: rest) = ⟨[], true, rest⟩ := by
  rw [cut.eq_def]
  exact (if_neg (by decide)).trans (if_pos rfl)

theorem cut_escape (e : UInt8) (rest : List UInt8) :
    cut ('\\'.toUInt8 :: e :: rest) = (cut rest).cons (.escape e) := by
  rw [cut.eq_def]
  rfl

theorem cut_plain {b : UInt8} (newline : b ≠ '\n'.toUInt8) (quote : b ≠ '"'.toUInt8)
    (backslash : b ≠ '\\'.toUInt8) (rest : List UInt8) :
    cut (b :: rest) = (cut rest).cons (.plain b) := by
  rw [cut.eq_def]
  exact (if_neg newline).trans ((if_neg quote).trans (if_neg backslash))

/-- A backslash that nothing is left to be escaped by. -/
def EndsInBackslash (input : List UInt8) : Prop := Piece.plain '\\'.toUInt8 ∈ (cut input).pieces

theorem rest_of_endsInBackslash {input : List UInt8} (ends : EndsInBackslash input) :
    (cut input).closed = false ∧ (cut input).rest = [] := by
  unfold EndsInBackslash at ends
  fun_induction cut input with
  | case1 | case2 | case3 => cases ends
  | case4 => exact ⟨rfl, rfl⟩
  | case5 e rest _ _ ih => exact ih ((List.mem_cons.mp ends).resolve_left Piece.noConfusion)
  | case6 b rest _ _ backslash ih =>
    refine ih ((List.mem_cons.mp ends).resolve_left fun same => ?_)
    exact backslash (Piece.plain.inj same).symm

theorem cut_before_newline {input : List UInt8} (ends : ¬ EndsInBackslash input)
    (more : List UInt8) : cut (input ++ '\n'.toUInt8 :: more) =
      ⟨(cut input).pieces, (cut input).closed, (cut input).rest ++ '\n'.toUInt8 :: more⟩ := by
  unfold EndsInBackslash at ends
  fun_induction cut input with
  | case1 | case2 => exact cut_newline _
  | case3 => exact cut_quote _
  | case4 => exact absurd List.mem_cons_self ends
  | case5 e rest _ _ ih =>
    rw [List.cons_append, List.cons_append, cut_escape,
      ih fun inside => ends (List.mem_cons_of_mem _ inside)]
    rfl
  | case6 b rest newline quote backslash ih =>
    rw [List.cons_append, cut_plain newline quote backslash,
      ih fun inside => ends (List.mem_cons_of_mem _ inside)]
    rfl

theorem escape_of_endsInBackslash {input : List UInt8} (ends : EndsInBackslash input)
    (more : List UInt8) :
    Piece.escape '\n'.toUInt8 ∈ (cut (input ++ '\n'.toUInt8 :: more)).pieces := by
  unfold EndsInBackslash at ends
  fun_induction cut input with
  | case1 | case2 | case3 => cases ends
  | case4 =>
    rw [List.singleton_append, cut_escape]
    exact List.mem_cons_self
  | case5 e rest _ _ ih =>
    rw [List.cons_append, List.cons_append, cut_escape]
    exact List.mem_cons_of_mem _ (ih ((List.mem_cons.mp ends).resolve_left Piece.noConfusion))
  | case6 b rest newline quote backslash ih =>
    rw [List.cons_append, cut_plain newline quote backslash]
    have later := (List.mem_cons.mp ends).resolve_left fun same =>
      backslash (Piece.plain.inj same).symm
    exact List.mem_cons_of_mem _ (ih later)

/-- A newline in a literal stands behind a backslash. -/
theorem backslash_before_newline {input left right : List UInt8}
    (here : (cut input).bytes = left ++ '\n'.toUInt8 :: right) :
    left.getLast? = some '\\'.toUInt8 ∧ Piece.escape '\n'.toUInt8 ∈ (cut input).pieces := by
  fun_induction cut input generalizing left with
  | case1 | case2 => cases left <;> cases here
  | case3 => obtain _ | ⟨c, _ | _⟩ := left <;> cases here
  | case4 => obtain _ | ⟨c, _ | _⟩ := left <;> cases here
  | case5 e rest _ _ ih =>
    rw [cons_bytes] at here
    obtain _ | ⟨c, _ | ⟨d, left⟩⟩ := left
    · cases here
    · obtain ⟨backslash, here⟩ := List.cons.inj here
      obtain ⟨rfl, -⟩ := List.cons.inj here
      exact ⟨congrArg some backslash.symm, List.mem_cons_self⟩
    · obtain ⟨-, here⟩ := List.cons.inj here
      obtain ⟨-, here⟩ := List.cons.inj here
      obtain ⟨last, piece⟩ := ih here
      exact ⟨by simp [List.getLast?_cons, last], List.mem_cons_of_mem _ piece⟩
  | case6 b rest newline _ _ ih =>
    rw [cons_bytes] at here
    obtain _ | ⟨c, left⟩ := left
    · exact absurd (List.cons.inj here).1 newline
    · obtain ⟨last, piece⟩ := ih (List.cons.inj here).2
      exact ⟨by simp [List.getLast?_cons, last], List.mem_cons_of_mem _ piece⟩

/-- No escape stands for anything with a newline for its letter. -/
theorem fault_of_escaped_newline {l : Literal} (inside : Piece.escape '\n'.toUInt8 ∈ l.pieces) :
    ∃ cause offset, l.reading = .fault cause offset := by
  have unknown : ∀ pieces, Piece.escape '\n'.toUInt8 ∈ pieces →
      ∃ offset bad, Piece.decodeAll pieces = .error (offset, bad) := by
    intro pieces inside
    induction pieces with
    | nil => cases inside
    | cons p pieces ih =>
      rw [Piece.decodeAll]
      cases known : p.decoded? with
      | none => exact ⟨_, _, rfl⟩
      | some b =>
        have later := (List.mem_cons.mp inside).resolve_left (by rintro rfl; cases known)
        obtain ⟨offset, bad, failed⟩ := ih later
        exact ⟨_, _, by rw [failed]⟩
  obtain ⟨offset, bad, failed⟩ := unknown l.pieces inside
  rw [reading]
  split
  · rw [failed]
    exact ⟨_, _, rfl⟩
  · exact ⟨_, _, rfl⟩

end Literal

namespace Lexeme

/-- A block comment that is not closed. -/
def LeavesComment (l : Lexeme) : Prop :=
  blockOpening <+: l.bytes ∧ ¬ blockClosing <:+: l.bytes.drop 2

/-- A string literal whose last byte is a backslash that escapes nothing. -/
def LeavesEscape (l : Lexeme) : Prop :=
  l.bytes.head? = some '"'.toUInt8 ∧ Literal.EndsInBackslash l.bytes.tail

instance : DecidablePred LeavesComment := fun l =>
  inferInstanceAs (Decidable (blockOpening <+: l.bytes ∧ ¬ blockClosing <:+: l.bytes.drop 2))

instance : DecidablePred LeavesEscape := fun l => inferInstanceAs (Decidable
  (l.bytes.head? = some '"'.toUInt8 ∧
    Piece.plain '\\'.toUInt8 ∈ (Literal.cut l.bytes.tail).pieces))

section

variable {p : Position} {b : UInt8} {rest later : List UInt8} {l : Lexeme}

/-- A lexeme that begins with a quote is a literal. -/
theorem first_quote (rest : List UInt8) : first '"'.toUInt8 rest =
    (⟨'"'.toUInt8 :: (Literal.cut rest).bytes, (Literal.cut rest).reading⟩,
      (Literal.cut rest).rest) := by
  rw [first, if_neg (by decide), if_neg (by decide), if_neg (by decide), if_pos rfl]

/-- With a newline behind the input its first lexeme is the same, unless it is all of the input and
left open there. -/
theorem first_before_newline (cut : first b rest = (l, later)) (notBlank : isBlankByte b = false)
    (comment : later = [] → ¬ l.LeavesComment) (escape : later = [] → ¬ l.LeavesEscape)
    (more : List UInt8) :
    first b (rest ++ '\n'.toUInt8 :: more) = (l, later ++ '\n'.toUInt8 :: more) := by
  have slash := head?_before_newline (c := '/'.toUInt8) (by decide) rest more
  have star := head?_before_newline (c := '*'.toUInt8) (by decide) rest more
  rw [first] at cut ⊢
  simp only [slash, star]
  rw [if_neg (by simp [notBlank])] at cut ⊢
  split at cut
  · next digit =>
    rw [if_pos digit, ← List.cons_append, run_before_newline (by decide), cut]
  rw [if_neg ‹_›]
  split at cut
  · next word =>
    rw [if_pos word, ← List.cons_append, run_before_newline (by decide), cut]
  rw [if_neg ‹_›]
  split at cut
  · next quote =>
    obtain ⟨rfl, rfl⟩ := Prod.mk.inj cut
    have ends : ¬ Literal.EndsInBackslash rest := by
      intro ends
      have none := (Literal.rest_of_endsInBackslash ends).2
      have whole := Literal.bytes_append_rest rest
      rw [none, List.append_nil] at whole
      refine escape none ⟨congrArg some quote, ?_⟩
      rwa [List.tail_cons, whole]
    rw [if_pos quote]
    simp only [Literal.cut_before_newline ends]
    rfl
  rw [if_neg ‹_›]
  split at cut
  · next opening =>
    rw [if_pos opening, ← List.cons_append, run_before_newline (by decide), cut]
  rw [if_neg ‹_›]
  split at cut
  · next opening =>
    obtain ⟨rfl, head⟩ := opening
    obtain ⟨tail, rfl⟩ := List.head?_eq_some_iff.mp head
    obtain ⟨rfl, rfl⟩ := Prod.mk.inj cut
    have closed : blockClosing <:+: (cutComment tail).1 := by
      rcases cutComment_cases tail with ⟨text, same, -⟩ | ⟨same, open_⟩
      · exact same ▸ (List.suffix_append text blockClosing).isInfix
      · refine absurd ⟨⟨_, rfl⟩, ?_⟩ (comment (congrArg Prod.snd same))
        rw [List.tail_cons, same]
        exact open_
    rw [if_pos ⟨rfl, head⟩, List.cons_append, List.tail_cons,
      cutComment_before_newline closed]
    rfl
  rw [if_neg ‹_›, ← List.cons_append, heading?_before_newline]
  split at cut
  · next sign found =>
    obtain ⟨rfl, rfl⟩ := Prod.mk.inj cut
    have heads : sign.bytes <+: b :: rest := by simpa using List.find?_some found
    rw [List.drop_append_of_le_length heads.length_le]
  · obtain ⟨rfl, rfl⟩ := Prod.mk.inj cut
    rfl

/-- With a newline behind the input, what its first lexeme comes to is the same. -/
theorem scan_before_newline (cut : first b rest = (l, later))
    (comment : later = [] → ¬ l.LeavesComment) (escape : later = [] → ¬ l.LeavesEscape)
    (more : List UInt8) : scan p (b :: rest ++ '\n'.toUInt8 :: more) =
      join (scanOne p l) (scan (p.after l.bytes) (later ++ '\n'.toUInt8 :: more)) := by
  by_cases blank : isBlankByte b = true
  · -- Blanks behind the newline belong to one run with those before it.
    have whole := first_bytes b rest
    rw [cut] at whole
    rw [first, if_pos blank] at cut
    obtain ⟨bytes, reading⟩ := l
    obtain ⟨rfl, -, all, -⟩ := run_eq cut
    rw [← whole, List.append_assoc, scan_blanks all]
    rfl
  · exact scan_cons (first_before_newline cut (eq_false_of_ne_true blank) comment escape more)

end

/-- The last lexeme of an input is as `P` says. -/
def Last (P : Lexeme → Prop) (input : List UInt8) : Prop := ∃ l ∈ (cutAll input).getLast?, P l

instance {P : Lexeme → Prop} [DecidablePred P] (input : List UInt8) : Decidable (Last P input) :=
  inferInstanceAs (Decidable (∃ l ∈ (cutAll input).getLast?, P l))

section

variable {P : Lexeme → Prop} {b : UInt8} {rest later : List UInt8} {l : Lexeme}

theorem not_last_nil : ¬ Last P [] := by
  rintro ⟨l, last, -⟩
  rw [cutAll] at last
  cases last

theorem last_of_first (cut : first b rest = (l, [])) : Last P (b :: rest) ↔ P l := by
  rw [Last, cutAll, cut, cutAll]
  simp

theorem last_of_later (cut : first b rest = (l, later)) (more : later ≠ []) :
    Last P (b :: rest) ↔ Last P later := by
  obtain ⟨c, later, rfl⟩ := List.exists_cons_of_ne_nil more
  rw [Last, Last, cutAll, cut, cutAll, List.getLast?_cons_cons]

/-- What is not so at the end of the input is not so of the first lexeme, if that is all, nor at
the end of what follows it. -/
theorem not_last (cut : first b rest = (l, later)) (none : ¬ Last P (b :: rest)) :
    (later = [] → ¬ P l) ∧ ¬ Last P later := by
  by_cases all : later = []
  · subst all
    exact ⟨fun _ => mt (last_of_first cut).mpr none, not_last_nil⟩
  · exact ⟨fun none => absurd none all, mt (last_of_later cut all).mpr none⟩

end

/-- A newline parts what stands before it from what stands behind it. -/
theorem scan_lines {input : List UInt8} (comment : ¬ Last LeavesComment input)
    (escape : ¬ Last LeavesEscape input) (p : Position) (more : List UInt8) :
    scan p (input ++ '\n'.toUInt8 :: more) =
      join (scan p input) (scan ((p.after input).next '\n'.toUInt8) more) := by
  induction input using cutAll.induct generalizing p with
  | case1 => rw [scan_nil, nil_join, List.nil_append, scan_blank rfl, Position.after_nil]
  | case2 b rest ih =>
    have whole := first_bytes b rest
    rcases cut : first b rest with ⟨l, later⟩
    rw [cut] at whole ih
    obtain ⟨notComment, comment⟩ := not_last cut comment
    obtain ⟨notEscape, escape⟩ := not_last cut escape
    rw [scan_before_newline cut notComment notEscape, scan_cons cut, ih comment escape, join_assoc,
      ← whole, Position.after_append]

/-- Where a literal is open behind a backslash there is a fault, with a newline behind it too. -/
theorem faults_of_leavesEscape {input : List UInt8} (escape : Last LeavesEscape input)
    (p : Position) (more : List UInt8) :
    (scan p input).1 ≠ [] ∧ (scan p (input ++ '\n'.toUInt8 :: more)).1 ≠ [] := by
  induction input using cutAll.induct generalizing p with
  | case1 => exact absurd escape not_last_nil
  | case2 b rest ih =>
    rcases cut : first b rest with ⟨l, later⟩
    rw [cut] at ih
    by_cases all : later = []
    · subst all
      have whole := first_bytes b rest
      rw [cut, List.append_nil] at whole
      obtain ⟨quote, ends⟩ := (last_of_first cut).mp escape
      rw [whole] at quote ends
      rw [List.tail_cons] at ends
      obtain rfl := Option.some.inj quote
      obtain ⟨open_, -⟩ := Literal.rest_of_endsInBackslash ends
      have fault : (Literal.cut rest).reading = .fault .unterminatedString 0 := by
        rw [Literal.reading, open_]
        rfl
      obtain ⟨cause, offset, fault'⟩ :=
        Literal.fault_of_escaped_newline (Literal.escape_of_endsInBackslash ends more)
      have here := first_quote rest
      have here' := first_quote (rest ++ '\n'.toUInt8 :: more)
      rw [fault] at here
      rw [fault'] at here'
      rw [List.cons_append, scan_fault here, scan_fault here']
      exact ⟨List.cons_ne_nil _ _, List.cons_ne_nil _ _⟩
    · rw [scan_before_newline cut (absurd · all) (absurd · all), scan_cons cut]
      obtain ⟨alone, before⟩ := ih ((last_of_later cut all).mp escape) (p.after l.bytes)
      exact ⟨List.append_ne_nil_of_right_ne_nil _ alone,
        List.append_ne_nil_of_right_ne_nil _ before⟩

/-- A newline in a string literal stands behind a backslash, and the literal is a fault. -/
theorem newline_in_literal {input : List UInt8} : ∀ l ∈ cutAll input,
    l.bytes.head? = some '"'.toUInt8 → ∀ left right, l.bytes = left ++ '\n'.toUInt8 :: right →
      left.getLast? = some '\\'.toUInt8 ∧ ∃ cause offset, l.reading = .fault cause offset := by
  refine forall_mem_cutAll (fun b rest quote left right here => ?_) input
  have whole := first_bytes b rest
  obtain rfl : b = '"'.toUInt8 := by
    obtain ⟨tail, same⟩ := List.head?_eq_some_iff.mp quote
    rw [same] at whole
    exact (List.cons.inj whole).1.symm
  rw [first_quote] at here ⊢
  obtain _ | ⟨c, left⟩ := left
  · cases here
  · obtain ⟨last, escaped⟩ := Literal.backslash_before_newline (List.cons.inj here).2
    exact ⟨by simp [List.getLast?_cons, last], Literal.fault_of_escaped_newline escaped⟩

end Lexeme

/-! ## Sources -/

/-- The source ends inside a block comment. -/
def EndsInComment (source : String) : Prop :=
  Lexeme.Last Lexeme.LeavesComment (Text.encode source)

/-- The source ends inside a string literal, behind a backslash of it. -/
def EndsInEscape (source : String) : Prop :=
  Lexeme.Last Lexeme.LeavesEscape (Text.encode source)

instance : DecidablePred EndsInComment := fun source =>
  inferInstanceAs (Decidable (Lexeme.Last Lexeme.LeavesComment (Text.encode source)))

instance : DecidablePred EndsInEscape := fun source =>
  inferInstanceAs (Decidable (Lexeme.Last Lexeme.LeavesEscape (Text.encode source)))

namespace Token

/-- The errors that a reading has come to. -/
def faults : Except (List Diagnostic) (List Token) → List Diagnostic
  | .ok _ => []
  | .error errors => errors

/-- The tokens of the first reading without their end mark, then those of the second, so many lines
further down; or the errors of both. -/
def stacked (lines : Nat) (first second : Except (List Diagnostic) (List Token)) :
    Except (List Diagnostic) (List Token) :=
  match first, second with
  | .ok left, .ok right => .ok (left.dropLast ++ right.map (down lines))
  | _, _ => .error (faults first ++ (faults second).map (Diagnostic.down lines))

theorem stacked_of_ne {lines : Nat} {first second : Except (List Diagnostic) (List Token)}
    (some : faults first ++ faults second ≠ []) : stacked lines first second =
      .error (faults first ++ (faults second).map (Diagnostic.down lines)) := by
  match first, second, some with
  | .ok _, .ok _, some => exact absurd rfl some
  | .ok _, .error _, _ => rfl
  | .error _, _, _ => rfl

theorem ofBytes_eq_error_of_ne {bytes : List UInt8} (some : (Lexeme.scan .start bytes).1 ≠ []) :
    ofBytes bytes = .error (Lexeme.scan .start bytes).1 := by
  rw [ofBytes]
  split
  · next none => exact absurd none some
  · rfl

theorem faults_ofBytes (bytes : List UInt8) :
    faults (ofBytes bytes) = (Lexeme.scan .start bytes).1 := by
  by_cases none : (Lexeme.scan .start bytes).1 = []
  · rw [none, ofBytes_eq_ok_iff.mpr ⟨none, rfl⟩]
    rfl
  · rw [ofBytes_eq_error_of_ne none]
    rfl

theorem encode_lines (s t : String) :
    Text.encode (s ++ "\n" ++ t) = Text.encode s ++ '\n'.toUInt8 :: Text.encode t := by
  rw [Text.encode_append, Text.encode_append, List.append_assoc]
  rfl

theorem next_newline_encode (s : String) : (Position.start.after (Text.encode s)).next
    '\n'.toUInt8 = Position.start.down (lineBreaks s + 1) := by
  rw [Position.next_newline, Position.line_after, count_newline_encode, Nat.add_comm]
  rfl

/-- A source, a newline and a second source.  Unless the first one ends in a comment or behind a
backslash in a literal, tokens and errors are those of the two, the second ones by as many lines
further down as there are lines before.  A backslash before the newline escapes it: the first source
alone has an error there, and so have the two.  In any source a newline within a string literal
stands right behind a backslash, and such a literal is an error. -/
theorem ofSource_lines (s t : String) :
    (¬ EndsInComment s → ¬ EndsInEscape s →
      ofSource (s ++ "\n" ++ t) = stacked (lineBreaks s + 1) (ofSource s) (ofSource t)) ∧
    (EndsInEscape s →
      (∃ errors, ofSource s = .error errors) ∧
        ∃ errors, ofSource (s ++ "\n" ++ t) = .error errors) ∧
    ∀ l ∈ Lexeme.cutAll (Text.encode s), l.bytes.head? = some '"'.toUInt8 →
      ∀ left right, l.bytes = left ++ '\n'.toUInt8 :: right →
        left.getLast? = some '\\'.toUInt8 ∧ ∃ cause offset, l.reading = .fault cause offset := by
  simp only [ofSource, encode_lines]
  refine ⟨fun comment escape => ?_, fun escape => ?_, Lexeme.newline_in_literal⟩
  · have whole := Lexeme.scan_lines comment escape .start (Text.encode t)
    rw [next_newline_encode, Lexeme.scan_down] at whole
    by_cases none : (Lexeme.scan .start (Text.encode s)).1 = [] ∧
        (Lexeme.scan .start (Text.encode t)).1 = []
    · obtain ⟨first, second⟩ := none
      have place : Position.start.after (Text.encode s ++ '\n'.toUInt8 :: Text.encode t) =
          (Position.start.after (Text.encode t)).down (lineBreaks s + 1) := by
        rw [Position.after_append, Position.after_cons, next_newline_encode, Position.after_down]
      rw [ofBytes_eq_ok_iff.mpr ⟨first, rfl⟩, ofBytes_eq_ok_iff.mpr ⟨second, rfl⟩]
      refine ofBytes_eq_ok_iff.mpr ⟨?_, ?_⟩
      · simp [whole, Lexeme.join, first, second]
      · simp [whole, Lexeme.join, place, down]
    · have some : (Lexeme.scan .start (Text.encode s ++ '\n'.toUInt8 :: Text.encode t)).1 ≠ [] := by
        simpa [whole, Lexeme.join] using none
      rw [stacked_of_ne (by simpa [faults_ofBytes] using none), ofBytes_eq_error_of_ne some, whole,
        faults_ofBytes, faults_ofBytes]
      rfl
  · obtain ⟨alone, before⟩ := Lexeme.faults_of_leavesEscape escape .start (Text.encode t)
    exact ⟨⟨_, ofBytes_eq_error_of_ne alone⟩, _, ofBytes_eq_error_of_ne before⟩

/-- Half an operator and an open literal stand before the newline, a bad escape behind it. -/
theorem ofSource_lines_of_open_literal :
    ofSource "a <\"oops\n= \"\\q\"" =
      .error [⟨.unterminatedString, ⟨1, 4⟩⟩, ⟨.unknownEscape 'q'.toUInt8, ⟨2, 5⟩⟩] :=
  ((ofSource_lines "a <\"oops" "= \"\\q\"").1 (by decide +kernel) (by decide +kernel)).trans
    (by with_unfolding_all rfl)

/-- A backslash before the newline takes it into the literal, which goes on with the second source:
its quote closes the literal, and the two open literals are one bad escape. -/
theorem newline_taken_by_backslash :
    ¬ ∀ s t : String, ¬ EndsInComment s →
      ofSource (s ++ "\n" ++ t) = stacked (lineBreaks s + 1) (ofSource s) (ofSource t) := by
  intro claim
  have same := claim "\"a\\" "b\"" (by decide +kernel)
  have joined : faults (ofSource ("\"a\\" ++ "\n" ++ "b\"")) =
      [⟨.unknownEscape '\n'.toUInt8, ⟨1, 4⟩⟩] := by with_unfolding_all rfl
  have apart : faults (stacked (lineBreaks "\"a\\" + 1) (ofSource "\"a\\") (ofSource "b\"")) =
      [⟨.unterminatedString, ⟨1, 1⟩⟩, ⟨.unterminatedString, ⟨2, 2⟩⟩] := by with_unfolding_all rfl
  rw [same, apart] at joined
  cases joined

end Token

end Protoscript
