/-! # Decimal numerals

The value of a run of digits, and the two readings built on it: a signed 64-bit integer with an
optional sign, and an unsigned 64-bit count with an optional plus.  A value out of range is
refused, never wrapped: `upTo?_eq`. -/

set_option autoImplicit false

namespace Protoscript.Numeral

def digitValue (c : Char) : Nat := c.toNat - '0'.toNat

/-- The value of a run of digits, from the value of all but the last and the last digit. -/
def withDigit (n : Nat) (c : Char) : Nat := 10 * n + digitValue c

/-- The value of a run of digits, most significant first. -/
def value (digits : List Char) : Nat := digits.foldl withDigit 0

/-- The value of a run of digits, if it is at most `limit`.  The reading ends at the first digit
that takes the value beyond. -/
def upTo? (limit : Nat) (digits : List Char) : Option Nat :=
  digits.foldlM (fun n c => if withDigit n c ≤ limit then some (withDigit n c) else none) 0

theorem le_foldl_withDigit (digits : List Char) (n : Nat) : n ≤ digits.foldl withDigit n := by
  induction digits generalizing n with
  | nil => exact Nat.le_refl n
  | cons c rest ih => exact Nat.le_trans (by unfold withDigit; omega) (ih (withDigit n c))

theorem upTo?_eq (limit : Nat) (digits : List Char) :
    upTo? limit digits = if value digits ≤ limit then some (value digits) else none := by
  have onward (n : Nat) (inRange : n ≤ limit) :
      digits.foldlM (fun n c => if withDigit n c ≤ limit then some (withDigit n c) else none) n =
        if digits.foldl withDigit n ≤ limit then some (digits.foldl withDigit n) else none := by
    induction digits generalizing n with
    | nil => simp [inRange]
    | cons c rest ih =>
      have grows := le_foldl_withDigit rest (withDigit n c)
      by_cases fits : withDigit n c ≤ limit
      · rw [List.foldlM_cons, if_pos fits]
        exact ih (withDigit n c) fits
      · have beyond : ¬ rest.foldl withDigit (withDigit n c) ≤ limit := by omega
        simp [fits, beyond]
  exact onward 0 (Nat.zero_le limit)

/-- One or more digits and nothing else, of a value that is at most `limit`. -/
def natural? (limit : Nat) (cs : List Char) : Option Nat :=
  if cs ≠ [] ∧ cs.all Char.isDigit then upTo? limit cs else none

/-- The greatest value of a signed 64-bit integer. -/
def maxSigned : Nat := Int64.maxValue.toNatClampNeg

/-- An optional `+` or `-`, then digits, within the signed 64-bit range. -/
def signed? : List Char → Option Int64
  | '-' :: digits => (natural? (maxSigned + 1) digits).map fun n => Int64.ofInt (-n)
  | '+' :: digits => (natural? maxSigned digits).map Int64.ofNat
  | digits => (natural? maxSigned digits).map Int64.ofNat

/-- An optional `+`, then digits, within the unsigned 64-bit range. -/
def count? (cs : List Char) : Option Nat :=
  natural? (UInt64.size - 1) <| match cs with
    | '+' :: digits => digits
    | digits => digits

end Protoscript.Numeral
