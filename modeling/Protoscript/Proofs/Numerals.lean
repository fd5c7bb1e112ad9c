import Mathlib.Algebra.Ring.Int.Defs
import Mathlib.Algebra.Ring.Nat
import Mathlib.Data.List.DropRight
import Protoscript.Numeral
import Protoscript.Text.Blank

/-! # What numerals are read

Each reading of a numeral is tied to the texts that it reads and their value in decimal notation:
`natural?_eq_some_iff`, `count?_eq_some_iff`, `signed?_eq_some_iff`.  The texts are described by
how they are made up, and the value is that of the standard library, whose written form of a
number is read back (`isSigned_toString`). -/

set_option autoImplicit false

namespace Protoscript

namespace Numeral

/-- One or more digits, of value `n` in decimal notation. -/
structure IsDecimal (digits : List Char) (n : Nat) : Prop where
  nonempty : digits ≠ []
  isDigit : ∀ c ∈ digits, c.isDigit = true
  value : Nat.ofDigitChars 10 digits 0 = n

/-- Digits with a plus or nothing in front, of a value below 2^64. -/
inductive IsCount : List Char → Nat → Prop
  | plain {digits : List Char} {n : Nat} (decimal : IsDecimal digits n) (bound : n < 2 ^ 64) :
      IsCount digits n
  | plus {digits : List Char} {n : Nat} (decimal : IsDecimal digits n) (bound : n < 2 ^ 64) :
      IsCount ('+' :: digits) n

/-- Digits with a sign or nothing in front. -/
inductive IsSigned : List Char → Int → Prop
  | plain {digits : List Char} {n : Nat} (decimal : IsDecimal digits n) : IsSigned digits n
  | plus {digits : List Char} {n : Nat} (decimal : IsDecimal digits n) :
      IsSigned ('+' :: digits) n
  | minus {digits : List Char} {n : Nat} (decimal : IsDecimal digits n) :
      IsSigned ('-' :: digits) (-n)

theorem value_eq_ofDigitChars (digits : List Char) :
    value digits = Nat.ofDigitChars 10 digits 0 :=
  Nat.ofDigitChars_eq_foldl.symm

theorem IsDecimal.head_ne {c d : Char} {digits : List Char} {n : Nat}
    (decimal : IsDecimal (c :: digits) n) (other : d.isDigit = false) : c ≠ d := by
  rintro rfl
  rw [decimal.isDigit c (List.mem_cons_self ..)] at other
  cases other

theorem isDecimal_toDigits (n : Nat) : IsDecimal (Nat.toDigits 10 n) n where
  nonempty := by simp
  isDigit c member := Nat.isDigit_of_mem_toDigits (by decide) (by decide) member
  value := Nat.ofDigitChars_ten_toDigits

theorem natural?_eq_some_iff {limit n : Nat} {cs : List Char} :
    natural? limit cs = some n ↔ IsDecimal cs n ∧ n ≤ limit := by
  unfold natural?
  rw [upTo?_eq, value_eq_ofDigitChars]
  constructor
  · intro read
    split at read
    · next shape =>
      split at read
      · next bound =>
        cases read
        exact ⟨⟨shape.1, List.all_eq_true.mp shape.2, rfl⟩, bound⟩
      · cases read
    · cases read
  · rintro ⟨⟨nonempty, isDigit, rfl⟩, bound⟩
    rw [if_pos ⟨nonempty, List.all_eq_true.mpr isDigit⟩, if_pos bound]

theorem count?_eq_some_iff {cs : List Char} {n : Nat} : count? cs = some n ↔ IsCount cs n := by
  have size : UInt64.size - 1 = 2 ^ 64 - 1 := rfl
  unfold count?
  rw [size, natural?_eq_some_iff]
  constructor
  · rintro ⟨decimal, bound⟩
    split at decimal
    · exact .plus decimal (by omega)
    · exact .plain decimal (by omega)
  · rintro (⟨decimal, bound⟩ | ⟨decimal, bound⟩)
    · refine ⟨?_, by omega⟩
      split
      · exact absurd rfl (decimal.head_ne (d := '+') (by decide))
      · exact decimal
    · exact ⟨decimal, by omega⟩

theorem count?_eq_none_iff {cs : List Char} : count? cs = none ↔ ¬ ∃ n, IsCount cs n := by
  rw [Option.eq_none_iff_forall_ne_some]
  exact ⟨fun none ⟨n, counts⟩ => none n (count?_eq_some_iff.mpr counts),
    fun none n read => none ⟨n, count?_eq_some_iff.mp read⟩⟩

/-- The digits of a number in the positive range, as a machine integer. -/
theorem map_ofNat_eq_some_iff {digits : List Char} {n : Int64} :
    (natural? maxSigned digits).map Int64.ofNat = some n ↔
      ∃ m : Nat, IsDecimal digits m ∧ n.toInt = m := by
  have most : maxSigned = 2 ^ 63 - 1 := by decide
  have below := n.toInt_lt
  rw [Option.map_eq_some_iff]
  constructor
  · rintro ⟨m, read, rfl⟩
    obtain ⟨decimal, bound⟩ := natural?_eq_some_iff.mp read
    exact ⟨m, decimal, Int64.toInt_ofNat_of_lt (by omega)⟩
  · rintro ⟨m, decimal, same⟩
    refine ⟨m, natural?_eq_some_iff.mpr ⟨decimal, by omega⟩, Int64.toInt_inj.mp ?_⟩
    rw [same, Int64.toInt_ofNat_of_lt (by omega)]

theorem map_neg_eq_some_iff {digits : List Char} {n : Int64} :
    ((natural? (maxSigned + 1) digits).map fun m => Int64.ofInt (-m)) = some n ↔
      ∃ m : Nat, IsDecimal digits m ∧ n.toInt = -m := by
  have most : maxSigned = 2 ^ 63 - 1 := by decide
  have above := n.le_toInt
  rw [Option.map_eq_some_iff]
  constructor
  · rintro ⟨z, lifted, rfl⟩
    obtain ⟨m, read, same⟩ := Option.bind_eq_some_iff.mp lifted
    cases same
    obtain ⟨decimal, bound⟩ := natural?_eq_some_iff.mp read
    exact ⟨m, decimal, Int64.toInt_ofInt_of_le (by omega) (by omega)⟩
  · rintro ⟨m, decimal, same⟩
    have read := natural?_eq_some_iff.mpr ⟨decimal, (by omega : m ≤ maxSigned + 1)⟩
    refine ⟨m, Option.bind_eq_some_iff.mpr ⟨m, read, rfl⟩, Int64.toInt_inj.mp ?_⟩
    rw [same, Int64.toInt_ofInt_of_le (by omega) (by omega)]

/-- A text is read as the machine integer that it is a numeral of, if it is one in range. -/
theorem signed?_eq_some_iff {cs : List Char} {n : Int64} :
    signed? cs = some n ↔ IsSigned cs n.toInt := by
  constructor
  · intro read
    unfold signed? at read
    split at read
    · obtain ⟨m, decimal, same⟩ := map_neg_eq_some_iff.mp read
      exact same ▸ .minus decimal
    · obtain ⟨m, decimal, same⟩ := map_ofNat_eq_some_iff.mp read
      exact same ▸ .plus decimal
    · obtain ⟨m, decimal, same⟩ := map_ofNat_eq_some_iff.mp read
      exact same ▸ .plain decimal
  · generalize valued : n.toInt = z
    rintro (⟨decimal⟩ | ⟨decimal⟩ | ⟨decimal⟩)
    · unfold signed?
      split
      · exact absurd rfl (decimal.head_ne (d := '-') (by decide))
      · exact absurd rfl (decimal.head_ne (d := '+') (by decide))
      · exact map_ofNat_eq_some_iff.mpr ⟨_, decimal, valued⟩
    · exact map_ofNat_eq_some_iff.mpr ⟨_, decimal, valued⟩
    · exact map_neg_eq_some_iff.mpr ⟨_, decimal, valued⟩

theorem isDecimal_toString (n : Nat) : IsDecimal (toString (n : Int)).toList n := by
  have text : toString (n : Int) = String.ofList (Nat.toDigits 10 n) :=
    Nat.toString_eq_ofList_toDigits
  rw [text, String.toList_ofList]
  exact isDecimal_toDigits n

/-- What is written for an integer is a numeral of it. -/
theorem isSigned_toString (z : Int) : IsSigned (toString z).toList z := by
  cases z with
  | ofNat n => exact .plain (isDecimal_toString n)
  | negSucc n =>
    have text : toString (Int.negSucc n) = "-" ++ toString (n + 1) := rfl
    have chars : (toString (Int.negSucc n)).toList = '-' :: Nat.toDigits 10 (n + 1) := by
      rw [text, Nat.toString_eq_ofList_toDigits]
      simp
    rw [chars, Int.negSucc_eq]
    exact .minus (isDecimal_toDigits (n + 1))

theorem IsSigned.nonempty {cs : List Char} {z : Int} (signed : IsSigned cs z) : cs ≠ [] := by
  cases signed with
  | plain decimal => exact decimal.nonempty
  | plus | minus => exact List.cons_ne_nil _ _

/-- A numeral has no blank in it. -/
theorem IsSigned.isBlank_eq_false {cs : List Char} {z : Int} (signed : IsSigned cs z) :
    ∀ c ∈ cs, Text.isBlank c = false := by
  have among {digits : List Char} {n : Nat} (decimal : IsDecimal digits n) (c : Char)
      (member : c ∈ digits) : Text.isBlank c = false := by
    obtain ⟨low, high⟩ := Char.isDigit_iff_toNat.mp (decimal.isDigit c member)
    have zero : '0'.toNat = 48 := rfl
    have nine : '9'.toNat = 57 := rfl
    simp only [Text.isBlank, List.contains_cons, List.contains_nil, Bool.or_eq_false_iff,
      Bool.and_eq_false_iff, decide_eq_false_iff_not, beq_eq_false_iff_ne, and_true]
    omega
  intro c member
  cases signed with
  | plain decimal => exact among decimal c member
  | plus decimal | minus decimal =>
    rcases List.mem_cons.mp member with rfl | later
    · decide
    · exact among decimal c later

end Numeral

namespace Text

/-- Blanks at both ends are all that is taken away. -/
theorem exists_blanks_trim (cs : List Char) :
    ∃ left right : List Char, (∀ c ∈ left, isBlank c = true) ∧ (∀ c ∈ right, isBlank c = true) ∧
      cs = left ++ trim cs ++ right := by
  have start : cs.takeWhile isBlank ++ trimStart cs = cs := List.takeWhile_append_dropWhile
  have stop : trim cs ++ (trimStart cs).rtakeWhile isBlank = trimStart cs :=
    List.rdropWhile_append_rtakeWhile ..
  refine ⟨cs.takeWhile isBlank, (trimStart cs).rtakeWhile isBlank,
    fun c => List.mem_takeWhile_imp, fun c member => List.mem_rtakeWhile_imp member, ?_⟩
  rw [List.append_assoc, stop, start]

theorem trimStart_append {left rest : List Char} (blank : ∀ c ∈ left, isBlank c = true)
    (solid : ∀ c ∈ rest.head?, isBlank c = false) : trimStart (left ++ rest) = rest := by
  rw [trimStart, List.dropWhile_append_of_pos blank]
  cases rest with
  | nil => rfl
  | cons c rest => exact List.dropWhile_cons_of_neg (by simp [solid c rfl])

/-- A text without blanks is what is left of it with blanks around it. -/
theorem trim_append {left core right : List Char} (before : ∀ c ∈ left, isBlank c = true)
    (after : ∀ c ∈ right, isBlank c = true) (nonempty : core ≠ [])
    (solid : ∀ c ∈ core, isBlank c = false) : trim (left ++ core ++ right) = core := by
  have first : trimStart (left ++ core ++ right) = core ++ right := by
    rw [List.append_assoc]
    refine trimStart_append before fun c head => ?_
    rw [List.head?_append_of_ne_nil core nonempty] at head
    exact solid c (List.mem_of_mem_head? head)
  have last : trimStart (right.reverse ++ core.reverse) = core.reverse := by
    refine trimStart_append (fun c member => after c (List.mem_reverse.mp member)) fun c head => ?_
    exact solid c (List.mem_reverse.mp (List.mem_of_mem_head? head))
  rw [trim, first, List.reverse_append, last, List.reverse_reverse]

end Text

end Protoscript
