import Mathlib.Data.List.TakeWhile
import Protoscript.Proofs.Layout
import Protoscript.Proofs.Numerals

/-! # Cutting and spelling

How each way to cut a lexeme off an input goes with the spellings: runs of a class of bytes,
comments, words, integers and signs. -/

set_option autoImplicit false

namespace Protoscript

/-! ## Classes of bytes -/

/-- What is said of all bytes can be checked byte by byte. -/
instance decidableForallByte {P : UInt8 → Prop} [∀ b, Decidable (P b)] : Decidable (∀ b, P b) :=
  decidable_of_iff (∀ n : Nat, n < 256 → P (UInt8.ofNat n)) <| by
    constructor
    · intro all b
      have holds := all b.toNat b.toNat_lt
      rwa [UInt8.ofNat_toNat] at holds
    · intro all n _
      exact all _

/-- The byte and its character are of the same classes, and stand for each other. -/
theorem classes_of_charOf : ∀ b, isNameStart (Text.charOf b) = isWordStart b ∧
    isNameChar (Text.charOf b) = isWordByte b ∧ (Text.charOf b).isDigit = isDigitByte b ∧
    (Text.charOf b).toUInt8 = b ∧ (Text.charOf b).toNat = b.toNat := by
  decide +kernel

theorem isNameStart_charOf (b : UInt8) : isNameStart (Text.charOf b) = isWordStart b :=
  (classes_of_charOf b).1

theorem isNameChar_charOf (b : UInt8) : isNameChar (Text.charOf b) = isWordByte b :=
  (classes_of_charOf b).2.1

theorem isDigit_charOf (b : UInt8) : (Text.charOf b).isDigit = isDigitByte b :=
  (classes_of_charOf b).2.2.1

theorem toUInt8_charOf (b : UInt8) : (Text.charOf b).toUInt8 = b := (classes_of_charOf b).2.2.2.1

theorem toNat_charOf (b : UInt8) : (Text.charOf b).toNat = b.toNat := (classes_of_charOf b).2.2.2.2

/-- Words begin with no blank and no digit, digits are no blanks, and all are ASCII in words. -/
theorem classes_of_byte : ∀ b, (isDigitByte b = true → isBlankByte b = false) ∧
    (isWordStart b = true → isBlankByte b = false ∧ isDigitByte b = false) ∧
    (isWordByte b = true → b.toNat < 128) := by
  decide +kernel

theorem isBlankByte_of_digit {b : UInt8} : isDigitByte b = true → isBlankByte b = false :=
  (classes_of_byte b).1

theorem classes_of_wordStart {b : UInt8} :
    isWordStart b = true → isBlankByte b = false ∧ isDigitByte b = false :=
  (classes_of_byte b).2.1

theorem lt_of_wordByte {b : UInt8} : isWordByte b = true → b.toNat < 128 := (classes_of_byte b).2.2

namespace Lexeme

/-! ## Runs -/

theorem run_append {inClass : UInt8 → Bool} {word rest : List UInt8}
    (all : ∀ b ∈ word, inClass b = true) (stops : ∀ b ∈ rest.head?, inClass b = false)
    (reading : List UInt8 → Reading) :
    run inClass (word ++ rest) reading = (⟨word, reading word⟩, rest) := by
  have ends : rest.takeWhile inClass = [] ∧ rest.dropWhile inClass = rest := by
    cases rest with
    | nil => exact ⟨rfl, rfl⟩
    | cons b rest =>
      have out := stops b rfl
      simp [out]
  simp [run, List.takeWhile_append_of_pos all, List.dropWhile_append_of_pos all, ends]

theorem run_eq {inClass : UInt8 → Bool} {input bytes rest : List UInt8}
    {reading : List UInt8 → Reading} {r : Reading}
    (cut : run inClass input reading = (⟨bytes, r⟩, rest)) :
    reading bytes = r ∧ bytes ++ rest = input ∧ (∀ b ∈ bytes, inClass b = true) ∧
      ∀ b ∈ rest.head?, inClass b = false := by
  obtain ⟨⟨rfl, rfl⟩, rfl⟩ := Prod.mk.inj cut |>.imp_left Lexeme.mk.inj
  refine ⟨rfl, List.takeWhile_append_dropWhile, fun _ => List.mem_takeWhile_imp, ?_⟩
  intro b here
  have stopped := List.head?_dropWhile_not inClass input
  rw [show (input.dropWhile inClass).head? = some b from here] at stopped
  exact stopped

/-! ## Comments -/

theorem cutComment_append_closing {text : List UInt8} (open_ : ¬ blockClosing <:+: text)
    (rest : List UInt8) :
    cutComment (text ++ blockClosing ++ rest) = (text ++ blockClosing, rest) := by
  induction text with
  | nil => simp [cutComment, blockClosing]
  | cons b text ih =>
    rw [List.infix_cons_iff, not_or] at open_
    obtain ⟨notHere, later⟩ := open_
    have goes : ¬ (b = '*'.toUInt8 ∧ (text ++ blockClosing ++ rest).head? = some '/'.toUInt8) := by
      rintro ⟨rfl, head⟩
      cases text with
      | nil => exact absurd (Option.some.inj head) (by decide)
      | cons c text =>
        obtain rfl : c = '/'.toUInt8 := by simpa using head
        exact notHere ⟨text, rfl⟩
    simp only [List.cons_append]
    rw [cutComment, if_neg goes, ih later]

theorem cutComment_of_open {text : List UInt8} (open_ : ¬ blockClosing <:+: text) :
    cutComment text = (text, []) := by
  induction text with
  | nil => rfl
  | cons b text ih =>
    rw [List.infix_cons_iff, not_or] at open_
    obtain ⟨notHere, later⟩ := open_
    have goes : ¬ (b = '*'.toUInt8 ∧ text.head? = some '/'.toUInt8) := by
      rintro ⟨rfl, head⟩
      obtain ⟨tail, rfl⟩ := List.head?_eq_some_iff.mp head
      exact notHere ⟨tail, rfl⟩
    rw [cutComment, if_neg goes, ih later]

/-- A comment ends with its first closing pair, or takes everything if there is none. -/
theorem cutComment_cases (input : List UInt8) :
    (∃ text, (cutComment input).1 = text ++ blockClosing ∧ ¬ blockClosing <:+: text) ∨
      cutComment input = (input, []) ∧ ¬ blockClosing <:+: input := by
  induction input with
  | nil => exact .inr ⟨rfl, by simp [blockClosing]⟩
  | cons b rest ih =>
    rw [cutComment]
    split
    · next closing => exact .inl ⟨[], by simp [blockClosing, closing.1], by simp [blockClosing]⟩
    · next goes =>
      have notHere {tail : List UInt8} (front : tail <+: rest) : ¬ blockClosing <+: b :: tail := by
        rintro ⟨more, same⟩
        obtain ⟨rfl, rfl⟩ : '*'.toUInt8 = b ∧ '/'.toUInt8 :: more = tail := by
          simpa [blockClosing] using same
        obtain ⟨rest, rfl⟩ := front
        exact goes ⟨rfl, rfl⟩
      rcases ih with ⟨text, same, open_⟩ | ⟨same, open_⟩
      · have front : text <+: rest := by
          refine ⟨blockClosing ++ (cutComment rest).2, ?_⟩
          rw [← List.append_assoc, ← same, cutComment_append]
        refine .inl ⟨b :: text, by simp [same], ?_⟩
        rw [List.infix_cons_iff, not_or]
        exact ⟨notHere front, open_⟩
      · refine .inr ⟨by simp [same], ?_⟩
        rw [List.infix_cons_iff, not_or]
        exact ⟨notHere (List.prefix_refl rest), open_⟩

/-! ## Words -/

theorem encode_asciiText {bytes : List UInt8} (ascii : ∀ b ∈ bytes, b.toNat < 128) :
    Text.encode (asciiText bytes) = bytes := by
  rw [asciiText, Text.encode_ofList, Text.encodeAll_eq_map]
  · simp [Function.comp_def, toUInt8_charOf]
  · intro c member
    obtain ⟨b, inside, rfl⟩ := List.mem_map.mp member
    rw [toNat_charOf]
    exact ascii b inside

theorem lt_of_isNameChar {c : Char} (is : isNameChar c = true) : c.toNat < 128 := by
  have upTo (last : Char) (ascii : last.toNat < 128) (le : c.val ≤ last.val) : c.toNat < 128 :=
    Nat.lt_of_le_of_lt (UInt32.le_iff_toNat_le.mp le) ascii
  rcases Bool.or_eq_true_iff.mp is with start | digit
  · rcases Bool.or_eq_true_iff.mp start with alpha | underscore
    · rcases Bool.or_eq_true_iff.mp alpha with upper | lower
      · exact upTo 'Z' (by decide) (of_decide_eq_true upper).2
      · exact upTo 'z' (by decide) (of_decide_eq_true (Bool.and_eq_true_iff.mp lower).2)
    · obtain rfl := of_decide_eq_true underscore
      decide
  · exact upTo '9' (by decide) (of_decide_eq_true (Bool.and_eq_true_iff.mp digit).2)

/-- A word as bytes: they begin a word, go on with one, and read as that word. -/
theorem exists_bytes_of_isWord {word : String} (is : isWord word = true) :
    ∃ b tail, Text.encode word = b :: tail ∧ isWordStart b = true ∧
      (∀ c ∈ b :: tail, isWordByte c = true) ∧ asciiText (b :: tail) = word := by
  rw [isWord] at is
  split at is
  · cases is
  · next c cs whole =>
    obtain ⟨start, all⟩ := Bool.and_eq_true_iff.mp is
    have named : ∀ d ∈ c :: cs, isNameChar d = true := by
      intro d member
      rcases List.mem_cons.mp member with rfl | member
      · simp [isNameChar, start]
      · exact List.all_eq_true.mp all d member
    have ascii : ∀ d ∈ c :: cs, d.toNat < 128 := fun d member => lt_of_isNameChar (named d member)
    refine ⟨c.toUInt8, cs.map Char.toUInt8, ?_, ?_, ?_, ?_⟩
    · rw [Text.encode_eq, whole, Text.encodeAll_eq_map ascii, List.map_cons]
    · rw [← isNameStart_charOf, Text.charOf_toUInt8 (ascii c (List.mem_cons_self ..))]
      exact start
    · intro b member
      obtain ⟨d, inside, rfl⟩ : ∃ d ∈ c :: cs, d.toUInt8 = b := List.mem_map.mp member
      rw [← isNameChar_charOf, Text.charOf_toUInt8 (ascii d inside)]
      exact named d inside
    · rw [asciiText, ← List.map_cons, Text.map_charOf_toUInt8 ascii, ← whole, String.ofList_toList]

theorem ofWord_of_not_reserved {word : String} (free : word ∉ reservedWords) :
    TokenKind.ofWord word = .ident word := by
  simp only [reservedWords, List.mem_append, List.mem_cons, List.mem_map, not_or] at free
  obtain ⟨⟨notTrue, notFalse, notNil, -⟩, notKeyword⟩ := free
  have none : Keyword.all.find? (fun k => decide (k.spelling = word)) = none := by
    rw [List.find?_eq_none]
    intro k member same
    exact notKeyword ⟨k, member, of_decide_eq_true same⟩
  rw [TokenKind.ofWord, if_neg notTrue, if_neg notFalse, if_neg notNil, none]

theorem ofWord_spelling (k : Keyword) : TokenKind.ofWord k.spelling = .keyword k := by
  cases k <;> decide

theorem spells_ofWord {word : String} (is : isWord word = true) :
    Spells (.ofWord word) (Text.encode word) := by
  by_cases reserved : word ∈ reservedWords
  · have which :
        word = "true" ∨ word = "false" ∨ word = "nil" ∨ ∃ k, Keyword.spelling k = word := by
      simp only [reservedWords, List.mem_append, List.mem_cons, List.mem_map, List.not_mem_nil,
        or_false, or_assoc] at reserved
      refine reserved.imp_right (.imp_right (.imp_right ?_))
      exact fun ⟨k, _, same⟩ => ⟨k, same⟩
    rcases which with rfl | rfl | rfl | ⟨k, rfl⟩
    · exact rfl
    · exact rfl
    · exact rfl
    · rw [ofWord_spelling]
      exact rfl
  · rw [ofWord_of_not_reserved reserved]
    exact ⟨⟨is, reserved⟩, rfl⟩

theorem isWord_asciiText {b : UInt8} {tail : List UInt8} (start : isWordStart b = true)
    (all : ∀ c ∈ b :: tail, isWordByte c = true) : isWord (asciiText (b :: tail)) = true := by
  have text : (asciiText (b :: tail)).toList = Text.charOf b :: tail.map Text.charOf := by
    rw [asciiText, String.toList_ofList, List.map_cons]
  rw [isWord, text]
  simp only [Bool.and_eq_true, isNameStart_charOf, start, true_and, List.all_map, List.all_eq_true,
    Function.comp_apply, isNameChar_charOf]
  exact fun c member => all c (List.mem_cons_of_mem b member)

theorem goesOn_ofWord (word : String) (b : UInt8) :
    (TokenKind.ofWord word).goesOn b = isWordByte b := by
  rw [TokenKind.ofWord]
  split
  · rfl
  split
  · rfl
  split
  · rfl
  split <;> rfl

/-! ## Integers -/

/-- The bytes of a run of digits. -/
theorem encode_of_isDecimal {run : String} {n : Nat} (decimal : Numeral.IsDecimal run.toList n) :
    Text.encode run ≠ [] ∧ (∀ b ∈ Text.encode run, isDigitByte b = true) ∧
      (Text.encode run).map Text.charOf = run.toList := by
  have ascii : ∀ c ∈ run.toList, c.toNat < 128 := fun c member =>
    lt_of_isNameChar (by simp [isNameChar, decimal.isDigit c member])
  rw [Text.encode_eq, Text.encodeAll_eq_map ascii]
  refine ⟨by simpa using decimal.nonempty, fun b member => ?_, Text.map_charOf_toUInt8 ascii⟩
  obtain ⟨c, inside, rfl⟩ := List.mem_map.mp member
  rw [← isDigit_charOf, Text.charOf_toUInt8 (ascii c inside)]
  exact decimal.isDigit c inside

theorem spells_of_isDecimal {run : String} {n : Nat} {value : Int64}
    (decimal : Numeral.IsDecimal run.toList n) (same : value.toInt = n) :
    Spells (.int value) (Text.encode run) := by
  obtain ⟨nonempty, digits, text⟩ := encode_of_isDecimal decimal
  refine ⟨nonempty, digits, ?_⟩
  rw [text, Numeral.value_eq_ofDigitChars, decimal.value, same]

theorem ofDigits_eq_token_iff {digits : List UInt8} {value : Int64} :
    ofDigits digits = .token (.int value) ↔
      value.toInt = Numeral.value (digits.map Text.charOf) := by
  have limit : Numeral.maxSigned = 2 ^ 63 - 1 := by decide
  have below := value.toInt_lt
  rw [ofDigits, Numeral.upTo?_eq, limit]
  split
  · next n fits =>
    split at fits
    · obtain rfl := Option.some.inj fits
      have same : (Int64.ofNat (Numeral.value (digits.map Text.charOf))).toInt =
          Numeral.value (digits.map Text.charOf) :=
        Int64.toInt_ofNat_of_lt (by omega)
      rw [Reading.token.injEq, TokenKind.int.injEq, ← Int64.toInt_inj, same, eq_comm]
    · cases fits
  · next large =>
    split at large
    · cases large
    · constructor
      · exact nofun
      · intro same
        omega

/-! ## Signs -/

/-- A sign that cannot go on is the longest sign there. -/
theorem heading?_append {s : Sign} {rest : List UInt8}
    (stops : ∀ b ∈ rest.head?, (TokenKind.sign s).goesOn b = false) :
    Sign.heading? (s.bytes ++ rest) = some s := by
  cases rest with
  | nil => cases s <;> rfl
  | cons b rest =>
    have out := stops b rfl
    cases s with
    | assign | bang | less | greater =>
      have shorter : ('='.toUInt8 == b) = false := by
        rw [beq_eq_false_iff_ne]
        exact Ne.symm (of_decide_eq_false out)
      simp +decide [Sign.heading?, Sign.all, Sign.bytes, Sign.spelling, List.isPrefixOf, shorter]
    | _ => rfl

/-- If the bytes of a sign could go on, a longer sign would be found. -/
theorem exists_longer {s : Sign} {b : UInt8} (goes : (TokenKind.sign s).goesOn b = true)
    (other : s ≠ .slash) : ∃ t, t ≠ s ∧ t.bytes = s.bytes ++ [b] ∧
      ∀ c, (TokenKind.sign t).goesOn c = false := by
  cases s with
  | slash => exact absurd rfl other
  | assign =>
    obtain rfl := of_decide_eq_true goes
    exact ⟨.equal, nofun, rfl, fun _ => rfl⟩
  | bang =>
    obtain rfl := of_decide_eq_true goes
    exact ⟨.notEqual, nofun, rfl, fun _ => rfl⟩
  | less =>
    obtain rfl := of_decide_eq_true goes
    exact ⟨.lessEqual, nofun, rfl, fun _ => rfl⟩
  | greater =>
    obtain rfl := of_decide_eq_true goes
    exact ⟨.greaterEqual, nofun, rfl, fun _ => rfl⟩
  | _ => cases goes

end Lexeme

end Protoscript
