import Protoscript.Proofs.Layout.Literals

/-! # Tokens are read off the layout

A source has exactly the tokens that it lays out: `Token.ofSource_eq_ok_iff`.  A spelled token that
cannot go on is the first lexeme of what it begins (`first_of_spells`), and so is a comment; a
first lexeme that is a token spells it (`ends_of_first`), one that is a gap is a run of blanks or a
comment (`gap_of_first`).  A source that does not lay out any tokens has a fault. -/

set_option autoImplicit false

namespace Protoscript

namespace Lexeme

/-! ## The first lexeme -/

theorem first_of_word {word : String} {rest : List UInt8} (is : isWord word = true)
    (stops : ∀ b ∈ rest.head?, isWordByte b = false) :
    ∃ b tail, Text.encode word = b :: tail ∧
      first b (tail ++ rest) = (⟨Text.encode word, .token (.ofWord word)⟩, rest) := by
  obtain ⟨b, tail, bytes, start, all, text⟩ := exists_bytes_of_isWord is
  obtain ⟨notBlank, notDigit⟩ := classes_of_wordStart start
  refine ⟨b, tail, bytes, ?_⟩
  rw [first, if_neg (by simp [notBlank]), if_neg (by simp [notDigit]), if_pos start,
    ← List.cons_append, run_append all stops, text, bytes]

theorem first_of_literal {inside : List UInt8} {text : String}
    (reads : Unescapes inside (Text.encode text)) (rest : List UInt8) :
    first '"'.toUInt8 (inside ++ ['"'.toUInt8] ++ rest) =
      (⟨'"'.toUInt8 :: inside ++ ['"'.toUInt8], .token (.str text)⟩, rest) := by
  obtain ⟨pieces, cut, same, decoded⟩ := cut_of_unescapes reads rest
  rw [first, if_neg (by decide), if_neg (by decide), if_neg (by decide), if_pos rfl,
    List.append_assoc, List.singleton_append]
  simp only [cut, Literal.bytes, Literal.reading, decoded, Text.decode?_encode, same, if_true,
    Option.getD_some, List.cons_append]

/-- No sign begins like a blank, a digit, a word or a literal, and only one begins like a
comment. -/
theorem bytes_of_sign (s : Sign) : ∃ b tail, s.bytes = b :: tail ∧ isBlankByte b = false ∧
    isDigitByte b = false ∧ isWordStart b = false ∧ b ≠ '"'.toUInt8 ∧
      (b = '/'.toUInt8 → s = .slash ∧ tail = []) := by
  cases s <;> exact ⟨_, _, rfl, by decide +kernel⟩

theorem first_of_sign {s : Sign} {rest : List UInt8}
    (stops : ∀ b ∈ rest.head?, (TokenKind.sign s).goesOn b = false) :
    ∃ b tail, s.bytes = b :: tail ∧
      first b (tail ++ rest) = (⟨s.bytes, .token (.sign s)⟩, rest) := by
  obtain ⟨b, tail, bytes, notBlank, notDigit, notWord, notQuote, slash⟩ := bytes_of_sign s
  have notComment (c : UInt8) (opens : c = '/'.toUInt8 ∨ c = '*'.toUInt8) :
      ¬ (b = '/'.toUInt8 ∧ (tail ++ rest).head? = some c) := by
    rintro ⟨same, head⟩
    obtain ⟨rfl, rfl⟩ := slash same
    exact ne_true_of_eq_false (stops c head) (TokenKind.goesOn_slash.mpr opens)
  refine ⟨b, tail, bytes, ?_⟩
  rw [first, if_neg (by simp [notBlank]), if_neg (by simp [notDigit]), if_neg (by simp [notWord]),
    if_neg notQuote, if_neg (notComment _ (.inl rfl)), if_neg (notComment _ (.inr rfl)),
    ← List.cons_append, ← bytes, heading?_append stops]
  simp

/-- A run of digits is one lexeme, as far as there are digits. -/
theorem first_of_digits {digits rest : List UInt8} (nonempty : digits ≠ [])
    (all : ∀ b ∈ digits, isDigitByte b = true) (stops : ∀ b ∈ rest.head?, isDigitByte b = false) :
    ∃ b tail, digits = b :: tail ∧ first b (tail ++ rest) = (⟨digits, ofDigits digits⟩, rest) := by
  obtain ⟨b, tail, rfl⟩ := List.exists_cons_of_ne_nil nonempty
  have digit := all b (List.mem_cons_self ..)
  refine ⟨b, tail, rfl, ?_⟩
  rw [first, if_neg (by simp [isBlankByte_of_digit digit]), if_pos digit, ← List.cons_append,
    run_append all stops]

/-- Bytes that spell a token and cannot go on are the first lexeme. -/
theorem first_of_spells {kind : TokenKind} {lexeme rest : List UInt8} (spells : Spells kind lexeme)
    (stops : ∀ b ∈ rest.head?, kind.goesOn b = false) :
    ∃ b tail, lexeme = b :: tail ∧ first b (tail ++ rest) = (⟨lexeme, .token kind⟩, rest) := by
  cases kind with
  | int value =>
    obtain ⟨nonempty, digits, same⟩ := spells
    rw [← ofDigits_eq_token_iff.mpr same]
    exact first_of_digits nonempty digits stops
  | bool value =>
    cases value with
    | true =>
      obtain rfl := spells
      exact first_of_word (by decide) stops
    | false =>
      obtain rfl := spells
      exact first_of_word (by decide) stops
  | nil =>
    obtain rfl := spells
    exact first_of_word (by decide) stops
  | ident name =>
    obtain ⟨⟨is, free⟩, rfl⟩ := spells
    rw [← ofWord_of_not_reserved free]
    exact first_of_word is stops
  | keyword word =>
    obtain rfl := spells
    rw [← ofWord_spelling]
    exact first_of_word (by cases word <;> decide) stops
  | str text =>
    obtain ⟨inside, rfl, reads⟩ := spells
    exact ⟨_, _, rfl, first_of_literal reads rest⟩
  | sign sign =>
    obtain rfl := spells
    exact first_of_sign stops
  | eof => exact spells.elim

/-- The lexeme spells the token, and could not have gone on with what comes later. -/
def Ends (kind : TokenKind) (lexeme later : List UInt8) : Prop :=
  Spells kind lexeme ∧ ∀ c ∈ later.head?, kind.goesOn c = false

section

variable {b : UInt8} {before rest lexeme later : List UInt8} {kind : TokenKind}

theorem ends_of_digits (digit : isDigitByte b = true)
    (cut : run isDigitByte (b :: rest) ofDigits = (⟨lexeme, .token kind⟩, later)) :
    Ends kind lexeme later := by
  obtain ⟨reading, whole, digits, stops⟩ := run_eq cut
  obtain ⟨value, rfl⟩ : ∃ value, kind = .int value := by
    rw [ofDigits] at reading
    split at reading
    · exact ⟨_, (Reading.token.inj reading).symm⟩
    · cases reading
  have nonempty : lexeme ≠ [] := by
    rintro rfl
    obtain rfl : later = b :: rest := whole
    simp [digit] at stops
  exact ⟨⟨nonempty, digits, ofDigits_eq_token_iff.mp reading⟩, stops⟩

theorem ends_of_word (start : isWordStart b = true)
    (cut : run isWordByte (b :: rest) (fun word => .token (.ofWord (asciiText word))) =
      (⟨lexeme, .token kind⟩, later)) : Ends kind lexeme later := by
  obtain ⟨reading, whole, all, stops⟩ := run_eq cut
  obtain rfl := Reading.token.inj reading
  cases lexeme with
  | nil =>
    obtain rfl : later = b :: rest := whole
    simp [isWordByte, start] at stops
  | cons c lexeme =>
    obtain rfl : c = b := (List.cons.inj whole).1
    constructor
    · have spells := spells_ofWord (isWord_asciiText start all)
      rwa [encode_asciiText fun d member => lt_of_wordByte (all d member)] at spells
    · simpa only [goesOn_ofWord] using stops

theorem ends_of_literal {cs : List Char}
    (text : Text.encodeAll cs = before ++ '"'.toUInt8 :: rest)
    (reading : (Literal.cut rest).reading = .token kind) :
    Ends kind ('"'.toUInt8 :: (Literal.cut rest).bytes) (Literal.cut rest).rest := by
  obtain ⟨bytes, handed⟩ := Literal.exists_handed_of_reading reading
  obtain ⟨value, rfl, same⟩ := Literal.text_of_handed text handed
  obtain rfl := Reading.token.inj (reading.symm.trans same)
  obtain ⟨inside, ends, reads⟩ := Literal.unescapes_of_handed handed
  refine ⟨⟨inside, ?_, reads⟩, fun _ _ => rfl⟩
  rw [ends, List.cons_append]

theorem ends_of_sign {sign : Sign}
    (notSlashes : ¬ (b = '/'.toUInt8 ∧ rest.head? = some '/'.toUInt8))
    (notComment : ¬ (b = '/'.toUInt8 ∧ rest.head? = some '*'.toUInt8))
    (found : Sign.heading? (b :: rest) = some sign) :
    Ends (.sign sign) sign.bytes ((b :: rest).drop sign.bytes.length) := by
  refine ⟨rfl, ?_⟩
  obtain ⟨later, whole⟩ : sign.bytes <+: b :: rest := by simpa using List.find?_some found
  rw [← whole, List.drop_left]
  intro c here
  obtain ⟨tail, rfl⟩ := List.head?_eq_some_iff.mp here
  by_contra goes
  replace goes := eq_true_of_ne_false goes
  by_cases slash : sign = .slash
  · subst slash
    obtain ⟨rfl, rfl⟩ := List.cons.inj whole
    rcases TokenKind.goesOn_slash.mp goes with rfl | rfl
    · exact notSlashes ⟨rfl, rfl⟩
    · exact notComment ⟨rfl, rfl⟩
  · obtain ⟨longer, other, bytes, stops⟩ := exists_longer goes slash
    have found' : Sign.heading? (longer.bytes ++ tail) = some longer :=
      heading?_append fun c _ => stops c
    rw [bytes, List.append_assoc, List.singleton_append, whole, found] at found'
    exact other (Option.some.inj found').symm

/-- A first lexeme that is a token spells it, and could not have gone on. -/
theorem ends_of_first {cs : List Char} (text : Text.encodeAll cs = before ++ b :: rest)
    (cut : first b rest = (⟨lexeme, .token kind⟩, later)) : Ends kind lexeme later := by
  rw [first] at cut
  split at cut
  · cases (run_eq cut).1
  split at cut
  · next digit => exact ends_of_digits digit cut
  split at cut
  · next start => exact ends_of_word start cut
  split at cut
  · next quote =>
    subst quote
    obtain ⟨⟨rfl, reading⟩, rfl⟩ := Prod.mk.inj cut |>.imp_left Lexeme.mk.inj
    exact ends_of_literal text reading
  split at cut
  · cases (run_eq cut).1
  split at cut
  · cases cut
  · next notSlashes notComment =>
    split at cut
    · next sign found =>
      obtain ⟨⟨rfl, ⟨⟩⟩, rfl⟩ := Prod.mk.inj cut |>.imp_left Lexeme.mk.inj
      exact ends_of_sign notSlashes notComment found
    · obtain ⟨⟨-, stray⟩, -⟩ := Prod.mk.inj cut |>.imp_left Lexeme.mk.inj
      rw [ofStray] at stray
      split_ifs at stray

/-- A gap is a run of blanks, a comment to the end of the line, or a block comment. -/
theorem gap_of_first (cut : first b rest = (⟨lexeme, .gap⟩, later)) :
    (∀ c ∈ lexeme, isBlankByte c = true) ∨
      (∃ text, lexeme = lineOpening ++ text ∧ '\n'.toUInt8 ∉ text ∧
        ∀ c ∈ later.head?, c = '\n'.toUInt8) ∨
      (∃ text, lexeme = blockOpening ++ text ++ blockClosing ∧ ¬ blockClosing <:+: text) ∨
      ∃ text, lexeme = blockOpening ++ text ∧ later = [] ∧ ¬ blockClosing <:+: text := by
  rw [first] at cut
  split at cut
  · exact .inl (run_eq cut).2.2.1
  split at cut
  · have reading := (run_eq cut).1
    rw [ofDigits] at reading
    split at reading <;> cases reading
  split at cut
  · cases (run_eq cut).1
  split at cut
  · obtain ⟨⟨-, reading⟩, -⟩ := Prod.mk.inj cut |>.imp_left Lexeme.mk.inj
    rw [Literal.reading] at reading
    split at reading
    · split at reading <;> cases reading
    · cases reading
  split at cut
  · next opening =>
    obtain ⟨rfl, head⟩ := opening
    obtain ⟨tail, rfl⟩ := List.head?_eq_some_iff.mp head
    obtain ⟨-, -, all, stops⟩ := run_eq cut
    have shape : lexeme = lineOpening ++ tail.takeWhile (· != '\n'.toUInt8) :=
      (Lexeme.mk.inj (Prod.mk.inj cut).1).1.symm
    refine .inr (.inl ⟨_, shape, ?_, by simpa using stops⟩)
    intro newline
    exact absurd (all _ (shape ▸ List.mem_append_right _ newline)) (by decide)
  split at cut
  · next opening =>
    obtain ⟨rfl, head⟩ := opening
    obtain ⟨tail, rfl⟩ := List.head?_eq_some_iff.mp head
    obtain ⟨⟨rfl, -⟩, rfl⟩ := Prod.mk.inj cut |>.imp_left Lexeme.mk.inj
    refine .inr (.inr ?_)
    rcases cutComment_cases tail with ⟨text, same, open_⟩ | ⟨same, open_⟩
    · exact .inl ⟨text, by simp [same, blockOpening], open_⟩
    · exact .inr ⟨tail, by simp [same, blockOpening], by simp [same], open_⟩
  split at cut
  · cases cut
  · obtain ⟨⟨-, stray⟩, -⟩ := Prod.mk.inj cut |>.imp_left Lexeme.mk.inj
    rw [ofStray] at stray
    split_ifs at stray

end

/-! ## Scanning -/

/-- The faults and the tokens of an input that starts at `p`. -/
def scan (p : Position) (input : List UInt8) : List Diagnostic × List Token :=
  ((placed p (cutAll input)).filterMap diagnostic?, (placed p (cutAll input)).filterMap token?)

section

variable {p : Position} {b : UInt8} {rest lexeme later : List UInt8}

@[simp] theorem scan_nil : scan p [] = ([], []) := by simp [scan, cutAll, placed]

theorem scan_gap (cut : first b rest = (⟨lexeme, .gap⟩, later)) :
    scan p (b :: rest) = scan (p.after lexeme) later := by
  simp only [scan, cutAll, placed, cut]
  rfl

theorem scan_token {kind : TokenKind} (cut : first b rest = (⟨lexeme, .token kind⟩, later)) :
    scan p (b :: rest) =
      ((scan (p.after lexeme) later).1, ⟨kind, p⟩ :: (scan (p.after lexeme) later).2) := by
  simp only [scan, cutAll, placed, cut]
  rfl

theorem scan_fault {cause : Diagnostic.Cause} {offset : Nat}
    (cut : first b rest = (⟨lexeme, .fault cause offset⟩, later)) :
    (scan p (b :: rest)).1 = ⟨cause, p.after (lexeme.take offset)⟩ ::
      (scan (p.after lexeme) later).1 := by
  simp only [scan, cutAll, placed, cut]
  rfl

/-- A blank may be passed over by itself. -/
theorem scan_blank (blank : isBlankByte b = true) (p : Position) (rest : List UInt8) :
    scan p (b :: rest) = scan (p.next b) rest := by
  have cut {c : UInt8} (blank : isBlankByte c = true) (rest : List UInt8) :
      first c rest = (⟨c :: rest.takeWhile isBlankByte, .gap⟩, rest.dropWhile isBlankByte) := by
    rw [first, if_pos blank, run, List.takeWhile_cons_of_pos blank,
      List.dropWhile_cons_of_pos blank]
  rw [scan_gap (cut blank rest), Position.after_cons]
  cases rest with
  | nil => rfl
  | cons c rest =>
    by_cases more : isBlankByte c = true
    · rw [scan_gap (cut more rest), List.takeWhile_cons_of_pos more,
        List.dropWhile_cons_of_pos more]
    · rw [List.takeWhile_cons_of_neg more, List.dropWhile_cons_of_neg more, Position.after_nil]

end

theorem first_of_lineComment {text rest : List UInt8} (open_ : '\n'.toUInt8 ∉ text)
    (stops : ∀ b ∈ rest.head?, b = '\n'.toUInt8) :
    first '/'.toUInt8 ('/'.toUInt8 :: text ++ rest) = (⟨lineOpening ++ text, .gap⟩, rest) := by
  have all : ∀ b ∈ lineOpening ++ text, (b != '\n'.toUInt8) = true := by
    intro b member
    rcases List.mem_append.mp member with opening | inside
    · simp only [lineOpening, List.mem_cons, List.not_mem_nil, or_false, or_self] at opening
      subst opening
      decide
    · rw [bne_iff_ne]
      rintro rfl
      exact open_ inside
  rw [first, if_neg (by decide), if_neg (by decide), if_neg (by decide), if_neg (by decide),
    if_pos ⟨rfl, rfl⟩]
  exact run_append all (fun b here => by simp [stops b here]) _

theorem first_of_blockComment (text : List UInt8) :
    first '/'.toUInt8 ('*'.toUInt8 :: text) =
      (⟨blockOpening ++ (cutComment text).1, .gap⟩, (cutComment text).2) := by
  rw [first, if_neg (by decide), if_neg (by decide), if_neg (by decide), if_neg (by decide),
    if_neg, if_pos ⟨rfl, rfl⟩]
  · rfl
  · rintro ⟨-, head⟩
    exact absurd (Option.some.inj head) (by decide)

/-- A layout has no faults, and its tokens are those that are read. -/
theorem scan_of_layout {before rest : List UInt8} {tokens : List Token}
    (layout : Layout before rest tokens) :
    (scan (.past before) rest).1 = [] ∧
      tokens = (scan (.past before) rest).2 ++ [⟨.eof, .past (before ++ rest)⟩] := by
  induction layout with
  | finish => simp
  | blank blank _ ih =>
    rw [scan_blank blank, ← Position.past_append_singleton]
    simpa using ih
  | @lineComment before text rest tokens open_ stops _ ih =>
    have step : scan (.past before) (lineOpening ++ text ++ rest) =
        scan (.past (before ++ (lineOpening ++ text))) rest := by
      rw [Position.past_append]
      exact scan_gap (first_of_lineComment open_ stops)
    rw [step]
    simpa only [List.append_assoc] using ih
  | @blockComment before text rest tokens open_ _ ih =>
    have step : scan (.past before) (blockOpening ++ text ++ blockClosing ++ rest) =
        scan (.past (before ++ (blockOpening ++ text ++ blockClosing))) rest := by
      have cut := first_of_blockComment (text ++ blockClosing ++ rest)
      rw [cutComment_append_closing open_] at cut
      rw [Position.past_append, List.append_assoc blockOpening]
      exact scan_gap cut
    rw [step]
    simpa only [List.append_assoc] using ih
  | @openComment before text open_ =>
    have step : scan (.past before) (blockOpening ++ text) = ([], []) := by
      have cut := first_of_blockComment text
      rw [cutComment_of_open open_] at cut
      exact (scan_gap cut).trans scan_nil
    rw [step]
    exact ⟨rfl, rfl⟩
  | @token before lexeme rest kind tokens spells stops _ ih =>
    obtain ⟨b, tail, rfl, cut⟩ := first_of_spells spells stops
    rw [List.cons_append, scan_token cut, ← Position.past_append]
    simpa using ih

end Lexeme

theorem Layout.blanks {blanks before rest : List UInt8} {tokens : List Token}
    (all : ∀ b ∈ blanks, isBlankByte b = true) (layout : Layout (before ++ blanks) rest tokens) :
    Layout before (blanks ++ rest) tokens := by
  induction blanks generalizing before with
  | nil => simpa using layout
  | cons b blanks ih =>
    refine .blank (all b (List.mem_cons_self ..)) (ih (fun c member => ?_) (by simpa using layout))
    exact all c (List.mem_cons_of_mem b member)

namespace Lexeme

/-- An input without faults lays out the tokens that are read. -/
theorem layout_of_scan {cs : List Char} (rest : List UInt8) {before : List UInt8}
    (text : Text.encodeAll cs = before ++ rest) (clean : (scan (.past before) rest).1 = []) :
    Layout before rest
      ((scan (.past before) rest).2 ++ [⟨.eof, .past (before ++ rest)⟩]) := by
  induction rest using cutAll.induct generalizing before with
  | case1 => simpa using Layout.finish
  | case2 b rest ih =>
    have whole := first_bytes b rest
    rcases cut : first b rest with ⟨⟨lexeme, reading⟩, later⟩
    rw [cut] at whole ih
    change lexeme ++ later = b :: rest at whole
    have text' : Text.encodeAll cs = (before ++ lexeme) ++ later := by
      rw [text, List.append_assoc, whole]
    cases reading with
    | gap =>
      rw [scan_gap cut, ← Position.past_append] at clean ⊢
      have layout := ih text' clean
      rw [List.append_assoc, whole] at layout
      rw [← whole] at layout ⊢
      rcases gap_of_first cut with
        blanks | ⟨comment, rfl, open_, stops⟩ | ⟨comment, rfl, open_⟩ | ⟨comment, rfl, rfl, open_⟩
      · exact .blanks blanks layout
      · exact .lineComment open_ stops layout
      · exact .blockComment open_ layout
      · simpa using @Layout.openComment before comment open_
    | token kind =>
      obtain ⟨spells, stops⟩ := ends_of_first text cut
      rw [scan_token cut, ← Position.past_append] at clean ⊢
      have layout := ih text' clean
      rw [List.append_assoc, whole] at layout
      rw [← whole] at layout ⊢
      exact .token spells stops layout
    | fault cause offset =>
      rw [scan_fault cut] at clean
      cases clean

end Lexeme

theorem Token.ofBytes_eq_ok_iff {bytes : List UInt8} {tokens : List Token} :
    ofBytes bytes = .ok tokens ↔ (Lexeme.scan .start bytes).1 = [] ∧
      tokens = (Lexeme.scan .start bytes).2 ++ [⟨.eof, Position.start.after bytes⟩] := by
  rw [ofBytes]
  constructor
  · intro read
    split at read
    · next clean => exact ⟨clean, (Except.ok.inj read).symm⟩
    · cases read
  · rintro ⟨clean, rfl⟩
    replace clean :
        (Lexeme.placed .start (Lexeme.cutAll bytes)).filterMap Lexeme.diagnostic? = [] := clean
    rw [clean]
    rfl

/-- The tokens of a source are those that it lays out. -/
theorem Token.ofSource_eq_ok_iff {source : String} {tokens : List Token} :
    ofSource source = .ok tokens ↔ Layout [] (Text.encode source) tokens := by
  have atStart : Position.start = .past [] := rfl
  rw [ofSource, ofBytes_eq_ok_iff, atStart, ← Position.past_append, List.nil_append]
  constructor
  · rintro ⟨clean, rfl⟩
    exact Lexeme.layout_of_scan _ (Text.encode_eq source).symm clean
  · intro layout
    obtain ⟨clean, same⟩ := Lexeme.scan_of_layout layout
    exact ⟨clean, same⟩

/-- The source of tokens is made up of their spellings with blanks and comments around them.  The
end mark stands at its end, and nowhere before. -/
theorem Token.source_of_tokens {source : String} {tokens : List Token}
    (read : ofSource source = .ok tokens) :
    Layout [] (Text.encode source) tokens ∧
      ∃ front, tokens = front ++ [⟨.eof, .past (Text.encode source)⟩] ∧
        ∀ t ∈ front, t.kind ≠ .eof := by
  have layout := ofSource_eq_ok_iff.mp read
  exact ⟨layout, layout.exists_front⟩

/-- A comment that looks closed at once, leading zeros, an escape in a literal, and a comment up to
the end of the source. -/
theorem Token.source_of_int_and_str :
    Layout [] (Text.encode "/*/ é*/ 007\n\"é\\n\"// x")
        [⟨.int 7, ⟨1, 10⟩⟩, ⟨.str "é\n", ⟨2, 1⟩⟩, ⟨.eof, ⟨2, 11⟩⟩] ∧
      ∃ front, [⟨.int 7, ⟨1, 10⟩⟩, ⟨.str "é\n", ⟨2, 1⟩⟩, ⟨.eof, ⟨2, 11⟩⟩] =
          front ++ [⟨.eof, .past (Text.encode "/*/ é*/ 007\n\"é\\n\"// x")⟩] ∧
        ∀ t ∈ front, Token.kind t ≠ .eof :=
  source_of_tokens (ofBytes_eq_ok_iff.mpr (by decide +kernel))

end Protoscript
