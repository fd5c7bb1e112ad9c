import Protoscript.Proofs.Layout.Lexemes

/-! # String literals

A literal that is closed and has no unknown escape hands on bytes to be decoded: those that its
inside stands for.  In a source, what stands before, inside and after a literal are the bytes of
texts, since quotes are whole characters; so are the bytes that are handed on, since escapes take
whole characters, too (`exists_text_of_unescapes`).  Hence they are always decoded
(`Literal.text_of_handed`). -/

set_option autoImplicit false

namespace Protoscript

namespace Lexeme

/-! ## Cutting -/

theorem mem_escapes_iff {letter b : UInt8} :
    (letter, b) ∈ escapes ↔ (Piece.escape letter).decoded? = some b := by
  constructor
  · intro member
    simp only [escapes, List.mem_cons, Prod.mk.injEq, List.not_mem_nil, or_false] at member
    rcases member with ⟨rfl, rfl⟩ | ⟨rfl, rfl⟩ | ⟨rfl, rfl⟩ | ⟨rfl, rfl⟩ <;> rfl
  · intro decoded
    rw [Piece.decoded?] at decoded
    split_ifs at decoded with n t quote backslash <;> cases decoded <;> simp [escapes, *]

theorem cut_of_unescapes {inside bytes : List UInt8} (reads : Unescapes inside bytes)
    (rest : List UInt8) :
    ∃ pieces, Literal.cut (inside ++ '"'.toUInt8 :: rest) = ⟨pieces, true, rest⟩ ∧
      pieces.flatMap Piece.bytes = inside ∧ Piece.decodeAll pieces = .ok bytes := by
  induction reads with
  | nil =>
    refine ⟨[], ?_, rfl, rfl⟩
    rw [List.nil_append, Literal.cut.eq_def]
    exact (if_neg (by decide)).trans (if_pos rfl)
  | @plain b inside bytes quote newline backslash _ ih =>
    obtain ⟨pieces, cut, same, decoded⟩ := ih
    refine ⟨.plain b :: pieces, ?_, ?_, ?_⟩
    · rw [List.cons_append, Literal.cut.eq_def]
      simp only [if_neg newline, if_neg quote, if_neg backslash, cut]
      rfl
    · rw [List.flatMap_cons, same]
      rfl
    · simp only [Piece.decodeAll, Piece.decoded?, decoded]
  | @escape letter b inside bytes known _ ih =>
    obtain ⟨pieces, cut, same, decoded⟩ := ih
    refine ⟨.escape letter :: pieces, ?_, ?_, ?_⟩
    · rw [List.cons_append, List.cons_append, Literal.cut.eq_def]
      simp only [cut]
      rfl
    · rw [List.flatMap_cons, same]
      rfl
    · simp only [Piece.decodeAll, mem_escapes_iff.mp known, decoded]

theorem unescapes_of_cut {input bytes : List UInt8} (closed : (Literal.cut input).closed = true)
    (decoded : Piece.decodeAll (Literal.cut input).pieces = .ok bytes) :
    Unescapes ((Literal.cut input).pieces.flatMap Piece.bytes) bytes := by
  have peel {p : Piece} {ps : List Piece} {bytes : List UInt8}
      (decoded : Piece.decodeAll (p :: ps) = .ok bytes) :
      ∃ b later, p.decoded? = some b ∧ Piece.decodeAll ps = .ok later ∧ bytes = b :: later := by
    rw [Piece.decodeAll] at decoded
    split at decoded
    · cases decoded
    · next b known =>
      split at decoded
      · next later same =>
        cases decoded
        exact ⟨b, later, known, same, rfl⟩
      · cases decoded
  fun_induction Literal.cut input generalizing bytes with
  | case1 => cases closed
  | case2 => cases closed
  | case3 =>
    cases decoded
    exact .nil
  | case4 => cases closed
  | case5 letter rest _ _ ih =>
    obtain ⟨b, later, known, same, rfl⟩ := peel decoded
    exact .escape (mem_escapes_iff.mpr known) (ih closed same)
  | case6 b rest newline quote backslash ih =>
    obtain ⟨c, later, known, same, rfl⟩ := peel decoded
    cases known
    exact .plain quote newline backslash (ih closed same)

/-! ## Texts -/

theorem unescapes_cons {b : UInt8} {inside bytes : List UInt8}
    (reads : Unescapes (b :: inside) bytes) :
    (∃ later, bytes = b :: later ∧ Unescapes inside later) ∨
      ∃ letter tail d later, b = '\\'.toUInt8 ∧ inside = letter :: tail ∧
        (letter, d) ∈ escapes ∧ bytes = d :: later ∧ Unescapes tail later := by
  generalize whole : b :: inside = all at reads
  cases reads with
  | nil => cases whole
  | plain _ _ _ reads =>
    cases whole
    exact .inl ⟨_, rfl, reads⟩
  | escape known reads =>
    obtain ⟨rfl, rfl⟩ := List.cons.inj whole
    exact .inr ⟨_, _, _, _, rfl, rfl, known, rfl, reads⟩

theorem unescapes_of_wide {wide inside bytes : List UInt8} (large : ∀ b ∈ wide, 128 ≤ b.toNat)
    (reads : Unescapes (wide ++ inside) bytes) :
    ∃ later, bytes = wide ++ later ∧ Unescapes inside later := by
  induction wide generalizing bytes with
  | nil => exact ⟨bytes, rfl, reads⟩
  | cons b wide ih =>
    rcases unescapes_cons reads with ⟨later, rfl, tail⟩ | ⟨_, _, _, _, rfl, _⟩
    · obtain ⟨later, rfl, rest⟩ := ih (fun c member => large c (List.mem_cons_of_mem b member)) tail
      exact ⟨later, rfl, rest⟩
    · exact absurd (large _ (List.mem_cons_self ..)) (by decide)

theorem classes_of_mem_escapes {letter b : UInt8} (known : (letter, b) ∈ escapes) :
    letter.toNat < 128 ∧ letter ≠ '\n'.toUInt8 ∧ b.toNat < 128 := by
  simp only [escapes, List.mem_cons, Prod.mk.injEq, List.not_mem_nil, or_false] at known
  rcases known with ⟨rfl, rfl⟩ | ⟨rfl, rfl⟩ | ⟨rfl, rfl⟩ | ⟨rfl, rfl⟩ <;> decide

/-- What the inside of a literal stands for is a text if the inside is. -/
theorem exists_text_of_unescapes {bytes : List UInt8} (cs : List Char)
    (reads : Unescapes (Text.encodeAll cs) bytes) : ∃ ds, Text.encodeAll ds = bytes := by
  -- An escape takes two characters at once, hence the induction on the length.
  induction size : cs.length using Nat.strongRecOn generalizing cs bytes with
  | ind size ih =>
    subst size
    cases cs with
    | nil =>
      cases reads
      exact ⟨[], rfl⟩
    | cons c cs =>
      rw [Text.encodeAll_cons] at reads
      by_cases ascii : c.toNat < 128
      · rw [Text.utf8EncodeChar_of_lt ascii] at reads
        rcases unescapes_cons reads with
          ⟨later, rfl, rest⟩ | ⟨letter, tail, d, later, -, whole, known, rfl, rest⟩
        · obtain ⟨ds, rfl⟩ := ih cs.length (Nat.lt_succ_self _) cs rest rfl
          exact ⟨c :: ds, by rw [Text.encodeAll_cons, Text.utf8EncodeChar_of_lt ascii]; rfl⟩
        · obtain ⟨letterAscii, -, byteAscii⟩ := classes_of_mem_escapes known
          have cut : Text.encodeAll cs = [] ++ letter :: tail := whole
          obtain ⟨before, after, rfl, -, rfl⟩ := Text.exists_split letterAscii cut
          obtain ⟨ds, rfl⟩ := ih after.length (by simp; omega) after rest rfl
          refine ⟨Text.charOf d :: ds, ?_⟩
          rw [← toNat_charOf] at byteAscii
          rw [Text.encodeAll_cons, Text.utf8EncodeChar_of_lt byteAscii, toUInt8_charOf]
          rfl
      · have wide := fun b => Text.le_of_mem_utf8EncodeChar (b := b) (Nat.le_of_not_lt ascii)
        obtain ⟨later, rfl, rest⟩ := unescapes_of_wide wide reads
        obtain ⟨ds, rfl⟩ := ih cs.length (Nat.lt_succ_self _) cs rest rfl
        exact ⟨c :: ds, rfl⟩

end Lexeme

namespace Literal

/-! ## Decoding -/

/-- The bytes that a literal hands on to be decoded, if it is closed and all its escapes are
known. -/
def handed? (l : Literal) : Option (List UInt8) :=
  if l.closed then (Piece.decodeAll l.pieces).toOption else none

theorem handed?_eq_some_iff {l : Literal} {bytes : List UInt8} :
    l.handed? = some bytes ↔ l.closed = true ∧ Piece.decodeAll l.pieces = .ok bytes := by
  rw [handed?]
  split
  · next closed =>
    cases Piece.decodeAll l.pieces <;> simp [Except.toOption, closed]
  · next open_ => simp [open_]

theorem exists_handed_of_reading {l : Literal} {kind : TokenKind}
    (reading : l.reading = .token kind) : ∃ bytes, l.handed? = some bytes := by
  rw [Literal.reading] at reading
  split at reading
  · next closed =>
    split at reading
    · next bytes decoded => exact ⟨bytes, handed?_eq_some_iff.mpr ⟨closed, decoded⟩⟩
    · cases reading
  · cases reading

theorem reading_of_handed {l : Literal} {bytes : List UInt8} (handed : l.handed? = some bytes) :
    l.reading = .token (.str ((Text.decode? bytes).getD "\uFFFD")) := by
  obtain ⟨closed, decoded⟩ := handed?_eq_some_iff.mp handed
  rw [reading, if_pos closed, decoded]

section

variable {inside bytes input : List UInt8}

/-- A literal that stands for bytes hands them on. -/
theorem handed?_of_unescapes (reads : Unescapes inside bytes) (rest : List UInt8) :
    (cut (inside ++ '"'.toUInt8 :: rest)).handed? = some bytes := by
  obtain ⟨pieces, whole, -, decoded⟩ := Lexeme.cut_of_unescapes reads rest
  rw [whole]
  exact handed?_eq_some_iff.mpr ⟨rfl, decoded⟩

/-- The bytes that are handed on are those that the inside stands for. -/
theorem unescapes_of_handed (handed : (cut input).handed? = some bytes) :
    ∃ inside, (cut input).bytes = inside ++ ['"'.toUInt8] ∧ Unescapes inside bytes := by
  obtain ⟨closed, decoded⟩ := handed?_eq_some_iff.mp handed
  exact ⟨_, by rw [Literal.bytes, if_pos closed], Lexeme.unescapes_of_cut closed decoded⟩

/-- In a source, the bytes that a literal hands on are always those of a text. -/
theorem text_of_handed {cs : List Char} {before : List UInt8}
    (quote : Text.encodeAll cs = before ++ '"'.toUInt8 :: input)
    (handed : (cut input).handed? = some bytes) :
    ∃ text, bytes = Text.encode text ∧ (cut input).reading = .token (.str text) := by
  obtain ⟨inside, ends, reads⟩ := unescapes_of_handed handed
  have whole : Text.encodeAll cs =
      before ++ '"'.toUInt8 :: (inside ++ '"'.toUInt8 :: (cut input).rest) := by
    have parts := bytes_append_rest input
    rw [ends, List.append_assoc, List.singleton_append] at parts
    rw [quote, parts]
  obtain ⟨-, between, -, -, -, rfl, -⟩ := Text.exists_between (by decide) (by decide) whole
  obtain ⟨ds, rfl⟩ := Lexeme.exists_text_of_unescapes between reads
  refine ⟨String.ofList ds, (Text.encode_ofList ds).symm, ?_⟩
  rw [reading_of_handed handed, Text.decode?_encodeAll]
  rfl

end

end Literal

namespace Unescapes

variable {inside bytes bytes' : List UInt8}

/-- An inside stands for one run of bytes only. -/
theorem unique (reads : Unescapes inside bytes) (reads' : Unescapes inside bytes') :
    bytes = bytes' := by
  have handed := Literal.handed?_of_unescapes reads []
  rw [Literal.handed?_of_unescapes reads' []] at handed
  exact (Option.some.inj handed).symm

/-- The inside of a literal has no newline. -/
theorem newline_notMem (reads : Unescapes inside bytes) :
    '\n'.toUInt8 ∉ inside := by
  induction reads with
  | nil => exact List.not_mem_nil
  | plain _ newline _ _ ih => exact List.not_mem_cons_of_ne_of_not_mem newline.symm ih
  | @escape letter b inside bytes known _ ih =>
    obtain ⟨-, newline, -⟩ := Lexeme.classes_of_mem_escapes known
    have tail := List.not_mem_cons_of_ne_of_not_mem newline.symm ih
    exact List.not_mem_cons_of_ne_of_not_mem (by decide) tail

end Unescapes

end Protoscript
