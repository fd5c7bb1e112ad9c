import Protoscript.Proofs.Layout.Tokens

/-! # What string tokens stand for

A string token of a source has the text that is written between its quotes, with the escapes
replaced: `Token.StandsFor`.  The bytes that are decoded to make it are well formed, for every quote
of a source that could open a literal, whether or not the source has faults elsewhere; so no
replacement character is ever put into a text. -/

set_option autoImplicit false

namespace Protoscript

/-- A string token was read off a literal of the source: the text `written` between two quotes
behind `before`.  It is on one line; its bytes, with a quote only behind a backslash and a backslash
only in front of the letter of an escape, stand for the text of the token and for nothing else; and
the bytes that were decoded are those of that text. -/
structure Token.StandsFor (source : String) (t : Token) (text : String)
    (before written after : String) : Prop where
  kind_eq : t.kind = .str text
  source_eq : source = before ++ "\"" ++ written ++ "\"" ++ after
  position_eq : t.position = .past (Text.encode before)
  oneLine : '\n'.toUInt8 ∉ Text.encode written
  unescapes_iff : ∀ bytes, Unescapes (Text.encode written) bytes ↔ bytes = Text.encode text
  handed?_eq : (Literal.cut (Text.encode (written ++ "\"" ++ after))).handed? =
    some (Text.encode text)

/-- Quotes among the bytes of a source are characters of it. -/
theorem Text.exists_quoted {source : String} {front inside back : List UInt8}
    (whole : encode source = front ++ ('"'.toUInt8 :: inside ++ ['"'.toUInt8]) ++ back) :
    ∃ before written after : String, source = before ++ "\"" ++ written ++ "\"" ++ after ∧
      encode before = front ∧ encode written = inside ∧ encode after = back := by
  rw [encode_eq, List.append_assoc, List.cons_append, List.cons_append, List.append_assoc,
    List.singleton_append] at whole
  obtain ⟨cs, ds, es, chars, rfl, rfl, rfl⟩ := exists_between (by decide) (by decide) whole
  refine ⟨.ofList cs, .ofList ds, .ofList es, ?_, encode_ofList _, encode_ofList _, encode_ofList _⟩
  rw [charOf_toUInt8 (by decide)] at chars
  rw [← String.toList_inj, chars]
  simp

namespace Token

variable {source text : String} {tokens : List Token} {t : Token}

/-- A string token that is laid out stands for what is written there. -/
theorem exists_standsFor (layout : Layout [] (Text.encode source) tokens) (member : t ∈ tokens)
    (kind : t.kind = .str text) :
    ∃ before written after, t.StandsFor source text before written after := by
  have inner : t.kind ≠ .eof := by
    rw [kind]
    exact TokenKind.noConfusion
  obtain ⟨front, lexeme, back, whole, place, spells⟩ := layout.exists_lexeme member inner
  rw [kind] at spells
  obtain ⟨inside, rfl, reads⟩ := spells
  obtain ⟨before, written, after, parts, rfl, rfl, -⟩ := Text.exists_quoted whole
  refine ⟨before, written, after, kind, parts, place, reads.newline_notMem, ?_, ?_⟩
  · intro bytes
    constructor
    · exact fun other => other.unique reads
    · rintro rfl
      exact reads
  · rw [Text.encode_append, Text.encode_append, List.append_assoc]
    exact Literal.handed?_of_unescapes reads _

/-- Every string token of a source stands for what is written between its quotes.  And whatever a
literal hands on, in any source, is decoded to the text of its token. -/
theorem literals_decoded (source : String) :
    (∀ tokens, ofSource source = .ok tokens → ∀ t ∈ tokens, ∀ text, t.kind = .str text →
      ∃ before written after, t.StandsFor source text before written after) ∧
    ∀ front input bytes, Text.encode source = front ++ '"'.toUInt8 :: input →
      (Literal.cut input).handed? = some bytes →
        ∃ text, Text.decode? bytes = some text ∧
          (Literal.cut input).reading = .token (.str text) := by
  constructor
  · intro tokens read t member text kind
    exact exists_standsFor (ofSource_eq_ok_iff.mp read) member kind
  · intro front input bytes quote handed
    rw [Text.encode_eq] at quote
    obtain ⟨text, rfl, reading⟩ := Literal.text_of_handed quote handed
    exact ⟨text, Text.decode?_encode text, reading⟩

/-- A literal with characters of two and three bytes and with escapes between them, and one that
stands before a literal with an unknown escape. -/
theorem literals_decoded_of_wide_characters :
    (∃ before written after, StandsFor "x(\"é\\\"\\n€\")" ⟨.str "é\"\n€", ⟨1, 3⟩⟩ "é\"\n€"
      before written after) ∧
      ∃ text, Text.decode? (Text.encode "é\n") = some text ∧
        (Literal.cut (Text.encode "é\\n\"\"\\q\"")).reading = .token (.str text) :=
  ⟨(literals_decoded "x(\"é\\\"\\n€\")").1
      [⟨.ident "x", ⟨1, 1⟩⟩, ⟨.sign .leftParen, ⟨1, 2⟩⟩, ⟨.str "é\"\n€", ⟨1, 3⟩⟩,
        ⟨.sign .rightParen, ⟨1, 14⟩⟩, ⟨.eof, ⟨1, 15⟩⟩]
      (ofBytes_eq_ok_iff.mpr (by decide +kernel)) _ (by decide) _ rfl,
    (literals_decoded "\"é\\n\"\"\\q\"").2 [] _ _ (by decide +kernel) (by decide +kernel)⟩

end Token

end Protoscript
