import Protoscript.Proofs.Layout.Tokens

/-! # Tokens with spacing

Tokens are written in their canonical spellings with blanks and comments between them.  The
canonical spelling of a token spells it (`spells_spelling`), so the written source lays out the
tokens and reading gives them back, whatever the spacing: `read_written`. -/

set_option autoImplicit false

namespace Protoscript

/-! ## Canonical spellings -/

/-- Whether tokens of the kind can be written.  An integer literal has no sign, and a reserved word
is no identifier. -/
def TokenKind.Writable : TokenKind → Prop
  | .int value => 0 ≤ value.toInt
  | .ident name => IsName name
  | .eof => False
  | _ => True

/-- A character inside a string literal. -/
def escapeChar (c : Char) : List Char :=
  if c = '"' then ['\\', '"'] else if c = '\\' then ['\\', '\\'] else if c = '\n' then ['\\', 'n']
  else [c]

/-- The canonical spelling: integers in decimal without leading zeros, and in a literal the quote,
the backslash and the newline as escapes. -/
def TokenKind.spelling : TokenKind → String
  | .int value => toString value.toInt
  | .bool true => "true"
  | .bool false => "false"
  | .ident name => name
  | .str text => String.ofList ('"' :: text.toList.flatMap escapeChar ++ ['"'])
  | .nil => "nil"
  | .keyword word => word.spelling
  | .sign s => String.ofList s.spelling
  | .eof => ""

theorem spells_int {value : Int64} (nonneg : 0 ≤ value.toInt) :
    Spells (.int value) (Text.encode (toString value.toInt)) := by
  obtain ⟨n, same⟩ := Int.eq_ofNat_of_zero_le nonneg
  rw [same]
  exact Lexeme.spells_of_isDecimal (Numeral.isDecimal_toString n) same

theorem unescapes_of_plain {bytes inside later : List UInt8}
    (plain : ∀ b ∈ bytes, b ≠ '"'.toUInt8 ∧ b ≠ '\n'.toUInt8 ∧ b ≠ '\\'.toUInt8)
    (reads : Unescapes inside later) : Unescapes (bytes ++ inside) (bytes ++ later) := by
  induction bytes with
  | nil => exact reads
  | cons b bytes ih =>
    obtain ⟨quote, newline, backslash⟩ := plain b (List.mem_cons_self ..)
    exact .plain quote newline backslash
      (ih fun c member => plain c (List.mem_cons_of_mem b member))

theorem unescapes_escaped (cs : List Char) :
    Unescapes (Text.encodeAll (cs.flatMap escapeChar)) (Text.encodeAll cs) := by
  induction cs with
  | nil => exact .nil
  | cons c cs ih =>
    rw [List.flatMap_cons, Text.encodeAll_append, Text.encodeAll_cons, escapeChar]
    split_ifs with quote backslash newline
    · subst quote
      exact .escape (by decide) ih
    · subst backslash
      exact .escape (by decide) ih
    · subst newline
      exact .escape (by decide) ih
    · have here : Text.encodeAll [c] = String.utf8EncodeChar c := List.append_nil _
      rw [here]
      refine unescapes_of_plain (fun b member => ⟨?_, ?_, ?_⟩) ih <;> rintro rfl
      · exact quote (Text.eq_of_mem_utf8EncodeChar (by decide) member)
      · exact newline (Text.eq_of_mem_utf8EncodeChar (by decide) member)
      · exact backslash (Text.eq_of_mem_utf8EncodeChar (by decide) member)

theorem spells_str (text : String) :
    Spells (.str text) (Text.encode (TokenKind.str text).spelling) := by
  refine ⟨Text.encodeAll (text.toList.flatMap escapeChar), ?_, ?_⟩
  · rw [TokenKind.spelling, Text.encode_ofList, Text.encodeAll_append]
    rfl
  · rw [Text.encode_eq]
    exact unescapes_escaped text.toList

theorem encode_sign (s : Sign) : Text.encode (String.ofList s.spelling) = s.bytes := by
  have ascii : ∀ c ∈ s.spelling, c.toNat < 128 :=
    List.forall_iff_forall_mem.mp (by cases s <;> decide)
  rw [Text.encode_ofList, Text.encodeAll_eq_map ascii]
  rfl

theorem spells_spelling {kind : TokenKind} (writable : kind.Writable) :
    Spells kind (Text.encode kind.spelling) := by
  cases kind with
  | int value => exact spells_int writable
  | bool value => cases value <;> exact rfl
  | ident name => exact ⟨writable, rfl⟩
  | str text => exact spells_str text
  | nil => exact rfl
  | keyword word => exact rfl
  | sign s => exact encode_sign s
  | eof => exact writable.elim

/-! ## Spacing -/

/-- What may stand between tokens: a blank, a comment to the end of the line with its newline, or
a block comment. -/
inductive Filler
  | blank (c : Char) (is : c ∈ [' ', '\t', '\r', '\n'])
  | lineComment (text : String) (inside : '\n' ∉ text.toList)
  | blockComment (text : String) (inside : ¬ ['*', '/'] <:+: text.toList)

def Filler.chars : Filler → List Char
  | blank c _ => [c]
  | lineComment text _ => ['/', '/'] ++ text.toList ++ ['\n']
  | blockComment text _ => ['/', '*'] ++ text.toList ++ ['*', '/']

/-- A token that can be written, and what stands after it: a blank, then anything. -/
structure Spaced where
  kind : TokenKind
  writable : kind.Writable
  blank : Char
  is : blank ∈ [' ', '\t', '\r', '\n']
  fillers : List Filler

def Spaced.chars (w : Spaced) : List Char :=
  w.kind.spelling.toList ++ w.blank :: w.fillers.flatMap Filler.chars

/-- The source that begins with fillers and goes on with spaced tokens. -/
def written (fillers : List Filler) (words : List Spaced) : String :=
  String.ofList (fillers.flatMap Filler.chars ++ words.flatMap Spaced.chars)

theorem isBlankByte_of_mem {c : Char} (is : c ∈ [' ', '\t', '\r', '\n']) :
    isBlankByte c.toUInt8 = true ∧ Text.encodeAll [c] = [c.toUInt8] := by
  simp only [List.mem_cons, List.not_mem_nil, or_false] at is
  rcases is with rfl | rfl | rfl | rfl <;> exact ⟨rfl, rfl⟩

theorem newline_not_mem_encodeAll {cs : List Char} (inside : '\n' ∉ cs) :
    '\n'.toUInt8 ∉ Text.encodeAll cs := by
  intro member
  obtain ⟨left, right, cut⟩ := List.append_of_mem member
  obtain ⟨before, after, rfl, -, -⟩ := Text.exists_split (by decide) cut
  exact inside (by simp [Text.charOf_toUInt8])

theorem not_closing_encodeAll {cs : List Char} (inside : ¬ ['*', '/'] <:+: cs) :
    ¬ blockClosing <:+: Text.encodeAll cs := by
  rintro ⟨left, right, cut⟩
  have star : Text.encodeAll cs = left ++ '*'.toUInt8 :: ('/'.toUInt8 :: right) := by
    simpa [blockClosing] using cut.symm
  obtain ⟨before, middle, rfl, -, slash⟩ := Text.exists_split (by decide) star
  rw [← List.nil_append ('/'.toUInt8 :: right)] at slash
  obtain ⟨gap, after, rfl, empty, -⟩ := Text.exists_split (by decide) slash
  obtain rfl := Text.eq_nil_of_encodeAll empty
  refine inside ⟨before, after, ?_⟩
  simp [Text.charOf_toUInt8]

theorem goesOn_of_blank {kind : TokenKind} {b : UInt8} (blank : isBlankByte b = true) :
    kind.goesOn b = false := by
  have classes : ∀ b, isBlankByte b = true → isDigitByte b = false ∧ isWordByte b = false ∧
      b ≠ '='.toUInt8 ∧ b ≠ '/'.toUInt8 ∧ b ≠ '*'.toUInt8 := by
    decide +kernel
  obtain ⟨notDigit, notWord, notEqual, notSlash, notStar⟩ := classes b blank
  cases kind with
  | int _ => exact notDigit
  | bool _ | ident _ | nil | keyword _ => exact notWord
  | str _ | eof => rfl
  | sign s =>
    cases s with
    | assign | bang | less | greater => exact decide_eq_false notEqual
    | slash => exact decide_eq_false (by simp [notSlash, notStar])
    | _ => rfl

/-- Wherever the bytes stand, they lay out tokens of these kinds. -/
def LaysOut (bytes : List UInt8) (kinds : List TokenKind) : Prop :=
  ∀ before, ∃ tokens, Layout before bytes tokens ∧ tokens.map Token.kind = kinds

namespace LaysOut

variable {rest : List UInt8} {kinds : List TokenKind}

theorem blank {b : UInt8} (blank : isBlankByte b = true) (later : LaysOut rest kinds) :
    LaysOut (b :: rest) kinds := by
  intro before
  obtain ⟨tokens, layout, same⟩ := later (before ++ [b])
  exact ⟨tokens, .blank blank layout, same⟩

theorem filler (f : Filler) (later : LaysOut rest kinds) :
    LaysOut (Text.encodeAll f.chars ++ rest) kinds := by
  cases f with
  | blank c is =>
    obtain ⟨blank, bytes⟩ := isBlankByte_of_mem is
    rw [Filler.chars, bytes]
    exact later.blank blank
  | lineComment text inside =>
    intro before
    obtain ⟨tokens, layout, same⟩ :=
      later.blank (b := '\n'.toUInt8) rfl (before ++ (lineOpening ++ Text.encodeAll text.toList))
    refine ⟨tokens, ?_, same⟩
    have shape : Text.encodeAll (Filler.lineComment text inside).chars ++ rest =
        lineOpening ++ Text.encodeAll text.toList ++ '\n'.toUInt8 :: rest := by
      simp only [Filler.chars, Text.encodeAll_append, List.append_assoc]
      rfl
    rw [shape]
    exact .lineComment (newline_not_mem_encodeAll inside) (by simp) layout
  | blockComment text inside =>
    intro before
    obtain ⟨tokens, layout, same⟩ :=
      later (before ++ (blockOpening ++ Text.encodeAll text.toList ++ blockClosing))
    refine ⟨tokens, ?_, same⟩
    have shape : Text.encodeAll (Filler.blockComment text inside).chars ++ rest =
        blockOpening ++ Text.encodeAll text.toList ++ blockClosing ++ rest := by
      simp only [Filler.chars, Text.encodeAll_append, List.append_assoc]
      rfl
    rw [shape]
    exact .blockComment (not_closing_encodeAll inside) layout

theorem fillers (fs : List Filler) (later : LaysOut rest kinds) :
    LaysOut (Text.encodeAll (fs.flatMap Filler.chars) ++ rest) kinds := by
  induction fs with
  | nil => exact later
  | cons f fs ih =>
    rw [List.flatMap_cons, Text.encodeAll_append, List.append_assoc]
    exact ih.filler f

theorem spaced (w : Spaced) (later : LaysOut rest kinds) :
    LaysOut (Text.encodeAll w.chars ++ rest) (w.kind :: kinds) := by
  intro before
  obtain ⟨blank, bytes⟩ := isBlankByte_of_mem w.is
  have spacing := (later.fillers w.fillers).blank blank
  obtain ⟨tokens, layout, same⟩ := spacing (before ++ Text.encode w.kind.spelling)
  have shape : Text.encodeAll w.chars ++ rest = Text.encode w.kind.spelling ++
      w.blank.toUInt8 :: (Text.encodeAll (w.fillers.flatMap Filler.chars) ++ rest) := by
    rw [Spaced.chars, ← List.singleton_append, Text.encodeAll_append, Text.encodeAll_append, bytes,
      Text.encode_eq]
    simp
  rw [shape]
  refine ⟨_, .token (spells_spelling w.writable) ?_ layout, by simp [same]⟩
  intro b here
  obtain rfl : w.blank.toUInt8 = b := by simpa using here
  exact goesOn_of_blank blank

theorem words (ws : List Spaced) :
    LaysOut (Text.encodeAll (ws.flatMap Spaced.chars)) (ws.map Spaced.kind ++ [.eof]) := by
  induction ws with
  | nil => exact fun before => ⟨_, .finish, rfl⟩
  | cons w ws ih =>
    rw [List.flatMap_cons, Text.encodeAll_append]
    exact ih.spaced w

end LaysOut

/-- Reading written tokens gives them back, whatever the spacing. -/
theorem Token.read_written (fillers : List Filler) (words : List Spaced) :
    ∃ tokens, Token.ofSource (written fillers words) = .ok tokens ∧
      tokens.map Token.kind = words.map Spaced.kind ++ [.eof] := by
  obtain ⟨tokens, layout, same⟩ := (LaysOut.words words).fillers fillers []
  refine ⟨tokens, ?_, same⟩
  rw [Token.ofSource_eq_ok_iff, written, Text.encode_ofList, Text.encodeAll_append]
  exact layout

end Protoscript
