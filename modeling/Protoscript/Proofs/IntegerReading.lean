import Protoscript.Builtin
import Protoscript.Proofs.Layout.Lines
import Protoscript.Proofs.Numerals

/-! # Integers are read exactly

There are two readers of integers, of literals in a source and of lines of input, and one writer.
The lexer takes a run of digits whole (`first_of_digits`), wherever it comes to one (`Comes`);
a line is read without the blanks around it (`signed?_trim_eq_some_iff`).  Both give the value in
decimal notation or none, and so what is written for an integer is read back as that integer. -/

set_option autoImplicit false

namespace Protoscript

open Numeral (IsDecimal IsSigned)

/-! ## Literals -/

namespace Lexeme

variable {source : List UInt8} {read : List Diagnostic × List Token} {p : Position}
  {rest : List UInt8} {run : String} {n : Nat}

/-- Reading `source`, the lexer has come in front of `rest` at `p`, with what it read so far. -/
inductive Comes (source : List UInt8) :
    List Diagnostic × List Token → Position → List UInt8 → Prop
  | start : Comes source ([], []) .start source
  | step {read : List Diagnostic × List Token} {p : Position} {b : UInt8} {rest later : List UInt8}
      {l : Lexeme} (comes : Comes source read p (b :: rest)) (cut : first b rest = (l, later)) :
      Comes source (join read (scanOne p l)) (p.after l.bytes) later

/-- What is read in the end is what was read so far and what is read of the rest. -/
theorem Comes.scan_eq (comes : Comes source read p rest) :
    scan .start source = join read (scan p rest) := by
  induction comes with
  | start => rfl
  | step comes cut ih => rw [ih, scan_cons cut, join_assoc]

theorem Comes.exists_front (comes : Comes source read p rest) :
    ∃ front, source = front ++ rest ∧ p = Position.start.after front := by
  induction comes with
  | start => exact ⟨[], rfl, rfl⟩
  | @step _ _ b rest later l _ cut ih =>
    obtain ⟨front, whole, place⟩ := ih
    have bytes := first_bytes b rest
    rw [cut] at bytes
    refine ⟨front ++ l.bytes, ?_, ?_⟩
    · rw [whole, ← bytes, List.append_assoc]
    · rw [place, Position.after_append]

/-- What the whole source gives, from the errors and tokens in it. -/
def answer (source : List UInt8) (read : List Diagnostic × List Token) :
    Except (List Diagnostic) (List Token) :=
  match read.1 with
  | [] => .ok (read.2 ++ [⟨.eof, Position.start.after source⟩])
  | faults => .error faults

theorem ofBytes_eq_answer (source : List UInt8) :
    Token.ofBytes source = answer source (scan .start source) := rfl

/-- What a run of digits in front of `p` comes to: a token with its value, or one error that quotes
it whole. -/
inductive Yields (run : String) (n : Nat) (p : Position) : List Diagnostic × List Token → Prop
  | token {value : Int64} (inRange : n ≤ 2 ^ 63 - 1) (same : value.toInt = n) :
      Yields run n p ([], [⟨.int value, p⟩])
  | error {d : Diagnostic} (beyond : 2 ^ 63 - 1 < n) (code : d.code = .L001)
      (place : d.position = p) (quotes : d.message = s!"integer literal `{run}` is out of range") :
      Yields run n p ([d], [])

theorem yields_ofDigits (decimal : IsDecimal run.toList n) (p : Position) :
    Yields run n p (scanOne p ⟨Text.encode run, ofDigits (Text.encode run)⟩) := by
  obtain ⟨-, -, text⟩ := encode_of_isDecimal decimal
  have limit : Numeral.maxSigned = 2 ^ 63 - 1 := by decide
  have value : Numeral.value run.toList = n :=
    (Numeral.value_eq_ofDigitChars _).trans decimal.value
  rw [ofDigits, asciiText, text, Numeral.upTo?_eq, value, limit, String.ofList_toList]
  by_cases inRange : n ≤ 2 ^ 63 - 1
  · rw [if_pos inRange]
    exact .token inRange (Int64.toInt_ofNat_of_lt (by omega))
  · rw [if_neg inRange]
    exact .error (by omega) rfl rfl rfl

/-- Where the lexer comes to a run of digits, the run yields its value or one error, at its first
digit, between what was read before and what is read behind it. -/
theorem ofBytes_of_digits (comes : Comes source read p (Text.encode run ++ rest))
    (decimal : IsDecimal run.toList n) (stops : ∀ b ∈ rest.head?, isDigitByte b = false) :
    ∃ here, Yields run n p here ∧ Token.ofBytes source =
      answer source (join read (join here (scan (p.after (Text.encode run)) rest))) := by
  obtain ⟨nonempty, digits, -⟩ := encode_of_isDecimal decimal
  obtain ⟨b, tail, bytes, cut⟩ := first_of_digits nonempty digits stops
  refine ⟨_, yields_ofDigits decimal p, ?_⟩
  rw [ofBytes_eq_answer, comes.scan_eq, bytes, List.cons_append, scan_cons (bytes ▸ cut)]

/-- The text that is written for an integer from zero on lexes to that integer. -/
theorem ofSource_text {value : Int64} (nonneg : 0 ≤ value.toInt) :
    Token.ofSource (Value.int value).text = .ok [⟨.int value, .start⟩,
      ⟨.eof, Position.start.after (Text.encode (Value.int value).text)⟩] := by
  obtain ⟨n, same⟩ := Int.eq_ofNat_of_zero_le nonneg
  have below := value.toInt_lt
  have text : (Value.int value).text = toString (n : Int) := by rw [← same]; rfl
  have comes : Comes (Text.encode (Value.int value).text) ([], []) .start
      (Text.encode (toString (n : Int)) ++ []) := by
    rw [List.append_nil, text]
    exact .start
  obtain ⟨here, yields, answered⟩ :=
    ofBytes_of_digits comes (Numeral.isDecimal_toString n) (by simp)
  rw [Token.ofSource, answered, scan_nil]
  cases yields with
  | token inRange read =>
    obtain rfl := Int64.toInt_inj.mp (read.trans same.symm)
    rfl
  | error beyond => omega

end Lexeme

/-! ## Lines of input -/

namespace Numeral

/-- The line is the integer in decimal notation, with an optional sign, and blanks around it. -/
def Denotes (line : String) (z : Int) : Prop :=
  ∃ left core right : List Char, line.toList = left ++ core ++ right ∧
    (∀ c ∈ left, Text.isBlank c = true) ∧ (∀ c ∈ right, Text.isBlank c = true) ∧ IsSigned core z

theorem signed?_trim_eq_some_iff {line : String} {n : Int64} :
    signed? (Text.trim line.toList) = some n ↔ Denotes line n.toInt := by
  rw [signed?_eq_some_iff]
  constructor
  · intro signed
    obtain ⟨left, right, before, after, whole⟩ := Text.exists_blanks_trim line.toList
    exact ⟨left, _, right, whole, before, after, signed⟩
  · rintro ⟨left, core, right, whole, before, after, signed⟩
    rwa [whole, Text.trim_append before after signed.nonempty signed.isBlank_eq_false]

end Numeral

namespace Builtin

open Numeral (Denotes)

/-- The console when the prompt is written and a line read. -/
def asked (args : List Value) (c : Console) : Console :=
  (match args with
    | [] => c
    | v :: _ => c.print v.text).readLine.2

variable {args : List Value} {line : Nat} {c : Console} {text : String} {later : List String}

theorem call?_inputi (few : args.length ≤ 1) (waits : c.inputs = text :: later) :
    call? all "inputi" args line c =
      match Numeral.signed? (Text.trim text.toList) with
      | some n => .ok (some (.int n)) (asked args c)
      | none => .error ⟨.notInteger text, line⟩ (asked args c) := by
  have found : named? all "inputi" = some inputi := by decide
  have counted : checkCount inputi args.length line = pure () := by
    have fits : inputi.most?.filter (· < args.length) = none := by
      simp [most?, Option.filter_some, few]
    rw [checkCount, fits]
  have asks : ask args line c = .ok text (asked args c) := by
    obtain ⟨inputs, latest⟩ := c
    obtain rfl : inputs = text :: later := waits
    cases args <;> rfl
  simp only [call?, found, run, counted]
  simp only [bind, EStateM.bind, pure, EStateM.pure, asks]
  cases Numeral.signed? (Text.trim text.toList) with
  | none => rfl
  | some n => rfl

/-- A line that waits is read as the integer that it denotes, if that is in range; any other line
is an error that quotes it. -/
theorem inputi_of_line (few : args.length ≤ 1) (waits : c.inputs = text :: later) :
    (∀ v after, call? all "inputi" args line c = .ok v after ↔ after = asked args c ∧
      ∃ z, Denotes text z ∧ -2 ^ 63 ≤ z ∧ z < 2 ^ 63 ∧ ∃ n, v = some (.int n) ∧ n.toInt = z) ∧
    ((¬ ∃ z, Denotes text z ∧ -2 ^ 63 ≤ z ∧ z < 2 ^ 63) →
      call? all "inputi" args line c = .error ⟨.notInteger text, line⟩ (asked args c)) := by
  rw [call?_inputi few waits]
  constructor
  · intro v after
    cases read : Numeral.signed? (Text.trim text.toList) with
    | none =>
      refine ⟨nofun, ?_⟩
      rintro ⟨-, z, denotes, -, -, n, -, rfl⟩
      rw [Numeral.signed?_trim_eq_some_iff.mpr denotes] at read
      cases read
    | some m =>
      have denotes := Numeral.signed?_trim_eq_some_iff.mp read
      constructor
      · rintro ⟨⟩
        exact ⟨rfl, m.toInt, denotes, m.le_toInt, m.toInt_lt, m, rfl, rfl⟩
      · rintro ⟨rfl, z, other, -, -, n, rfl, rfl⟩
        have same := Numeral.signed?_trim_eq_some_iff.mpr other
        obtain rfl := Option.some.inj (read.symm.trans same)
        rfl
  · intro none
    cases read : Numeral.signed? (Text.trim text.toList) with
    | none => rfl
    | some m =>
      exact absurd ⟨m.toInt, Numeral.signed?_trim_eq_some_iff.mp read, m.le_toInt, m.toInt_lt⟩ none

theorem denotes_text (n : Int64) {left right : List Char}
    (before : ∀ c ∈ left, Text.isBlank c = true) (after : ∀ c ∈ right, Text.isBlank c = true) :
    Denotes (String.ofList left ++ (Value.int n).text ++ String.ofList right) n.toInt :=
  ⟨left, _, right, by simp [Value.text], before, after, Numeral.isSigned_toString n.toInt⟩

/-- The text is what is printed for the integer, and is read back as that integer, from any line
with blanks around it and, if the integer is not negative, from a source. -/
structure ReadBack (n : Int64) (text : String) : Prop where
  printed : ∀ line c, call? all "print" [.int n] line c = .ok (some .nil) (c.print text)
  line : ∀ {args : List Value} {line : Nat} {c : Console} {left right : List Char}
    {later : List String}, args.length ≤ 1 → (∀ c ∈ left, Text.isBlank c = true) →
    (∀ c ∈ right, Text.isBlank c = true) →
    c.inputs = (String.ofList left ++ text ++ String.ofList right) :: later →
    call? all "inputi" args line c = .ok (some (.int n)) (asked args c)
  literal : 0 ≤ n.toInt → Token.ofSource text =
    .ok [⟨.int n, .start⟩, ⟨.eof, Position.start.after (Text.encode text)⟩]

theorem readBack_text (n : Int64) : ReadBack n (Value.int n).text where
  printed line c := by
    have whole : String.join [(Value.int n).text] = (Value.int n).text := by simp [String.join]
    rw [← whole]
    rfl
  line few before after waits := by
    rw [call?_inputi few waits,
      Numeral.signed?_trim_eq_some_iff.mpr (denotes_text n before after)]
  literal := Lexeme.ofSource_text

end Builtin

/-- Integers are read exactly.  A run of digits that the lexer comes to is one token of its decimal
value, or one error at its first digit that quotes it whole.  A line of input is read if it is a
numeral in range with blanks around it, as its value, and is an error otherwise.  So what is printed
for an integer is read back. -/
theorem integers_read_exactly :
    (∀ {source read p run n rest},
      Lexeme.Comes source read p (Text.encode run ++ rest) → IsDecimal run.toList n →
      (∀ b ∈ rest.head?, isDigitByte b = false) →
      ∃ front here, source = front ++ (Text.encode run ++ rest) ∧
        p = Position.start.after front ∧ Lexeme.Yields run n p here ∧
        Token.ofBytes source = Lexeme.answer source
          (Lexeme.join read (Lexeme.join here (Lexeme.scan (p.after (Text.encode run)) rest)))) ∧
    (∀ {args : List Value} {line : Nat} {c : Console} {text : String} {later : List String},
      args.length ≤ 1 → c.inputs = text :: later →
      (∀ v after, Builtin.call? Builtin.all "inputi" args line c = .ok v after ↔
        after = Builtin.asked args c ∧ ∃ z, Numeral.Denotes text z ∧ -2 ^ 63 ≤ z ∧ z < 2 ^ 63 ∧
          ∃ n, v = some (.int n) ∧ n.toInt = z) ∧
      ((¬ ∃ z, Numeral.Denotes text z ∧ -2 ^ 63 ≤ z ∧ z < 2 ^ 63) →
        Builtin.call? Builtin.all "inputi" args line c =
          .error ⟨.notInteger text, line⟩ (Builtin.asked args c))) ∧
    ∀ n : Int64, ∃ text, Builtin.ReadBack n text := by
  refine ⟨fun comes decimal stops => ?_, fun few waits => Builtin.inputi_of_line few waits,
    fun n => ⟨_, Builtin.readBack_text n⟩⟩
  obtain ⟨front, whole, place⟩ := comes.exists_front
  obtain ⟨here, yields, answered⟩ := Lexeme.ofBytes_of_digits comes decimal stops
  exact ⟨front, here, whole, place, yields, answered⟩

theorem integers_read_exactly_of_extremes :
    Builtin.call? Builtin.all "inputi" [] 1 (.ofInputs ["\t-9223372036854775808 "]) =
      .ok (some (.int Int64.minValue))
        (Builtin.asked [] (.ofInputs ["\t-9223372036854775808 "])) ∧
    ∃ here, Lexeme.Yields "0009223372036854775808" 9223372036854775808 .start here ∧
      Token.ofBytes (Text.encode "0009223372036854775808" ++ [';'.toUInt8]) =
        Lexeme.answer (Text.encode "0009223372036854775808" ++ [';'.toUInt8])
          (Lexeme.join here (Lexeme.scan ⟨1, 23⟩ [';'.toUInt8])) := by
  constructor
  · refine ((integers_read_exactly.2.1 (by decide) rfl).1 _ _).mpr
      ⟨rfl, -9223372036854775808, ⟨['\t'], "-9223372036854775808".toList, [' '], ?_⟩,
        by decide, by decide, _, rfl, by decide⟩
    exact ⟨by decide, List.all_eq_true.mp rfl, List.all_eq_true.mp rfl,
      .minus ⟨by decide, List.all_eq_true.mp rfl, rfl⟩⟩
  · have decimal : IsDecimal "0009223372036854775808".toList 9223372036854775808 :=
      ⟨by decide, List.all_eq_true.mp rfl, rfl⟩
    have stops : ∀ b ∈ [';'.toUInt8].head?, isDigitByte b = false := by
      rintro b ⟨⟩
      decide
    obtain ⟨front, here, -, -, yields, answered⟩ := integers_read_exactly.1 .start decimal stops
    exact ⟨here, yields, answered⟩

end Protoscript
