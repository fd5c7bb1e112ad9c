import Protoscript.Proofs.OperatorRules

/-! # Laws of the operators

Operations on values, put together to formulas.  Two formulas agree if both have the same value or
both are type errors.  A formula may count as an integer, read as a text or hold as a truth value;
`counts_binary`, `reads_binary` and `holds_binary` say which integers, texts and truth values an
operation makes of those of its operands.  Since only a division fails in another way than by a
type error, formulas without divisions agree as soon as they count, read or hold alike.

`operator_laws`: sums and products of three values may be bracketed either way, products
distribute over sums, operands may change places except in a concatenation, and negation turns
conjunctions and disjunctions into each other, errors included.  Equality is reflexive and
symmetric, and transitive except where an integer and a truth value meet. -/

set_option autoImplicit false

namespace Protoscript

/-- Values put together by operators. -/
inductive Formula
  | value (v : Value)
  | binary (op : BinaryOp) (left right : Formula)
  | unary (op : UnaryOp) (operand : Formula)

/-- Arithmetic takes the value as an integer. -/
def Value.IsNumeric (v : Value) : Prop := v.kind = .int ∨ v.kind = .bool

namespace Formula

instance : Coe Value Formula := ⟨value⟩
instance : Add Formula := ⟨binary .add⟩
instance : Sub Formula := ⟨binary .sub⟩
instance : Mul Formula := ⟨binary .mul⟩

def and (f g : Formula) : Formula := binary .and f g

def or (f g : Formula) : Formula := binary .or f g

def not (f : Formula) : Formula := unary .not f

def equals (f g : Formula) : Formula := binary .eq f g

def differs (f g : Formula) : Formula := binary .ne f g

/-- The value of a formula: operands from left to right, then the operation. -/
def eval : Formula → Except RuntimeError.Cause Value
  | value v => .ok v
  | binary op left right => do
    let l ← left.eval
    let r ← right.eval
    OperatorTable.standard.eval op l r
  | unary op operand => do
    let v ← operand.eval
    op.eval v

/-- The formula fails with a type error. -/
def IsTypeError (f : Formula) : Prop := ∃ c, f.eval = .error c ∧ c.errorClass = .type

/-- Both formulas have the same value, or both are type errors. -/
def Agree (f g : Formula) : Prop :=
  (∃ v, f.eval = .ok v ∧ g.eval = .ok v) ∨ f.IsTypeError ∧ g.IsTypeError

/-- Nothing is divided in the formula. -/
def undivided : Formula → Bool
  | value _ => true
  | binary op left right => op != .div && (left.undivided && right.undivided)
  | unary _ operand => operand.undivided

/-- The formula counts as an integer in arithmetic. -/
def Counts (f : Formula) (n : Int64) : Prop := ∃ v, f.eval = .ok v ∧ v.boolToInt = .int n

/-- The formula is a text. -/
def Reads (f : Formula) (text : String) : Prop := f.eval = .ok (.str text)

/-- The formula counts as a truth value in logic. -/
def Holds (f : Formula) (b : Bool) : Prop := ∃ v, f.eval = .ok v ∧ v.intToBool = .bool b

end Formula

namespace BinaryOp

/-- What the operator makes of two integers. -/
def Computes (op : BinaryOp) (compute : Int64 → Int64 → Int64) : Prop :=
  op.isArithmetic = true ∧ ∃ p, OperatorTable.standard.lookup op .int = some p ∧
    ∀ m n, p.compute? (.int m) (.int n) = some (.ok (.int (compute m n)))

/-- What the operator makes of two truth values. -/
def Connects (op : BinaryOp) (connect : Bool → Bool → Bool) : Prop :=
  op.isLogical = true ∧ ∃ p, OperatorTable.standard.lookup op .bool = some p ∧
    ∀ a b, p.compute? (.bool a) (.bool b) = some (.ok (.bool (connect a b)))

theorem apart_of_isArithmetic {op : BinaryOp} (arithmetic : op.isArithmetic = true) :
    op.isEquality = false ∧ op.isOrdering = false ∧ op.isLogical = false := by
  cases op <;> first | exact ⟨rfl, rfl, rfl⟩ | cases arithmetic

theorem apart_of_isLogical {op : BinaryOp} (logical : op.isLogical = true) :
    op.isEquality = false ∧ op.isOrdering = false ∧ op.isArithmetic = false := by
  cases op <;> first | exact ⟨rfl, rfl, rfl⟩ | cases logical

theorem computes_add : add.Computes (· + ·) := ⟨rfl, .addInt, rfl, fun _ _ => rfl⟩

theorem computes_sub : sub.Computes (· - ·) := ⟨rfl, .subInt, rfl, fun _ _ => rfl⟩

theorem computes_mul : mul.Computes (· * ·) := ⟨rfl, .mulInt, rfl, fun _ _ => rfl⟩

theorem connects_and : and.Connects (· && ·) := ⟨rfl, .andBool, rfl, fun _ _ => rfl⟩

theorem connects_or : or.Connects (· || ·) := ⟨rfl, .orBool, rfl, fun _ _ => rfl⟩

end BinaryOp

/-! ## Single operations -/

namespace OperatorTable

open BinaryOp

variable {op : BinaryOp} {l r v : Value}

theorem takes_of_eval_eq_ok (evaluated : standard.eval op l r = .ok v) : op.Takes l r := by
  by_contra refused
  rw [eval_of_not_takes refused] at evaluated
  cases evaluated

theorem eval_arithmetic_eq_ok_iff {compute : Int64 → Int64 → Int64}
    (computes : op.Computes compute) :
    standard.eval op l r = .ok v ↔
      (∃ m n, l.boolToInt = .int m ∧ r.boolToInt = .int n ∧ v = .int (compute m n)) ∨
        op = .add ∧ ∃ s t, l = .str s ∧ r = .str t ∧ v = .str (s ++ t) := by
  obtain ⟨arithmetic, p, entry, computed⟩ := computes
  obtain ⟨noEquality, noOrdering, noLogic⟩ := apart_of_isArithmetic arithmetic
  have number {m n : Int64} (left : l.boolToInt = .int m) (right : r.boolToInt = .int n) :
      standard.eval op l r = .ok (.int (compute m n)) := by
    have coerced : op.coerce l r = (.int m, .int n) := by
      rw [coerce_of_arithmetic arithmetic, left, right]
    exact eval_of_entry noEquality coerced rfl entry (computed m n)
  constructor
  · intro evaluated
    cases takes_of_eval_eq_ok evaluated with
    | equality equality => exact absurd equality (Bool.eq_false_iff.mp noEquality)
    | ordering ordering => exact absurd ordering (Bool.eq_false_iff.mp noOrdering)
    | logic logical => exact absurd logical (Bool.eq_false_iff.mp noLogic)
    | arithmetic _ left right =>
      obtain ⟨m, left, -⟩ := Value.boolToInt_of_number? left
      obtain ⟨n, right, -⟩ := Value.boolToInt_of_number? right
      rw [number left right] at evaluated
      exact .inl ⟨m, n, left, right, (Except.ok.inj evaluated).symm⟩
    | texts s t => exact .inr ⟨rfl, s, t, rfl, rfl, (Except.ok.inj evaluated).symm⟩
  · rintro (⟨m, n, left, right, rfl⟩ | ⟨rfl, s, t, rfl, rfl, rfl⟩)
    · exact number left right
    · rfl

theorem eval_logic_eq_ok_iff {connect : Bool → Bool → Bool} (connects : op.Connects connect) :
    standard.eval op l r = .ok v ↔
      ∃ a b, l.intToBool = .bool a ∧ r.intToBool = .bool b ∧ v = .bool (connect a b) := by
  obtain ⟨logical, p, entry, computed⟩ := connects
  obtain ⟨noEquality, noOrdering, noArithmetic⟩ := apart_of_isLogical logical
  have truth {a b : Bool} (left : l.intToBool = .bool a) (right : r.intToBool = .bool b) :
      standard.eval op l r = .ok (.bool (connect a b)) := by
    have coerced : op.coerce l r = (.bool a, .bool b) := by
      rw [coerce_of_logical logical, left, right]
    exact eval_of_entry noEquality coerced rfl entry (computed a b)
  constructor
  · intro evaluated
    cases takes_of_eval_eq_ok evaluated with
    | equality equality => exact absurd equality (Bool.eq_false_iff.mp noEquality)
    | ordering ordering => exact absurd ordering (Bool.eq_false_iff.mp noOrdering)
    | arithmetic arithmetic => exact absurd arithmetic (Bool.eq_false_iff.mp noArithmetic)
    | texts => cases noArithmetic
    | logic _ left right =>
      have left := Value.intToBool_of_truth? left
      have right := Value.intToBool_of_truth? right
      rw [truth left right] at evaluated
      exact ⟨_, _, left, right, (Except.ok.inj evaluated).symm⟩
  · rintro ⟨a, b, left, right, rfl⟩
    exact truth left right

/-- Only a division fails in another way than by a type error. -/
theorem type_of_eval_eq_error {c : RuntimeError.Cause} (undivided : op ≠ .div)
    (failed : standard.eval op l r = .error c) : c.errorClass = .type := by
  obtain ⟨out, gives⟩ := exists_gives op l r 0
  have same := eval_of_gives gives
  rw [failed] at same
  cases gives with
  | byZero => exact absurd rfl undivided
  | undefined =>
    cases same
    rfl
  | _ => cases same

end OperatorTable

theorem UnaryOp.type_of_eval_eq_error {op : UnaryOp} {v : Value} {c : RuntimeError.Cause}
    (failed : op.eval v = .error c) : c.errorClass = .type := by
  cases op with
  | neg => cases v <;> cases failed <;> rfl
  | not => cases v <;> cases failed <;> rfl

theorem UnaryOp.eval_not_eq_ok_iff {v w : Value} :
    UnaryOp.not.eval v = .ok w ↔ ∃ a, v.intToBool = .bool a ∧ w = .bool !a := by
  constructor
  · intro evaluated
    cases v <;> cases evaluated <;> exact ⟨_, rfl, rfl⟩
  · rintro ⟨a, truth, rfl⟩
    rw [UnaryOp.eval, truth]

/-! ## Formulas -/

namespace Formula

variable {f g : Formula} {op : BinaryOp} {v : Value}

theorem eval_binary_eq_ok_iff :
    (binary op f g).eval = .ok v ↔
      ∃ l r, f.eval = .ok l ∧ g.eval = .ok r ∧ OperatorTable.standard.eval op l r = .ok v := by
  rw [eval]
  constructor
  · intro evaluated
    cases first : f.eval with
    | error c => rw [first] at evaluated; cases evaluated
    | ok l =>
      cases second : g.eval with
      | error c => rw [first, second] at evaluated; cases evaluated
      | ok r =>
        rw [first, second] at evaluated
        exact ⟨l, r, rfl, rfl, evaluated⟩
  · rintro ⟨l, r, first, second, evaluated⟩
    rw [first, second]
    exact evaluated

theorem eval_unary_eq_ok_iff {op : UnaryOp} :
    (unary op f).eval = .ok v ↔ ∃ w, f.eval = .ok w ∧ op.eval w = .ok v := by
  rw [eval]
  constructor
  · intro evaluated
    cases first : f.eval with
    | error c => rw [first] at evaluated; cases evaluated
    | ok w =>
      rw [first] at evaluated
      exact ⟨w, rfl, evaluated⟩
  · rintro ⟨w, first, evaluated⟩
    rw [first]
    exact evaluated

/-- A formula without divisions has a value or is a type error. -/
theorem exists_value_or_isTypeError (undivided : f.undivided = true) :
    (∃ v, f.eval = .ok v) ∨ f.IsTypeError := by
  induction f with
  | value v => exact .inl ⟨v, rfl⟩
  | binary op left right ihLeft ihRight =>
    rw [Formula.undivided, Bool.and_eq_true, Bool.and_eq_true, bne_iff_ne] at undivided
    obtain ⟨here, onLeft, onRight⟩ := undivided
    rcases ihLeft onLeft with ⟨l, first⟩ | ⟨c, first, typed⟩
    · rcases ihRight onRight with ⟨r, second⟩ | ⟨c, second, typed⟩
      · cases out : OperatorTable.standard.eval op l r with
        | ok v => exact .inl ⟨v, eval_binary_eq_ok_iff.mpr ⟨l, r, first, second, out⟩⟩
        | error c =>
          refine .inr ⟨c, ?_, OperatorTable.type_of_eval_eq_error here out⟩
          rw [eval, first, second]
          exact out
      · exact .inr ⟨c, by rw [eval, first, second]; rfl, typed⟩
    · exact .inr ⟨c, by rw [eval, first]; rfl, typed⟩
  | unary op operand ih =>
    rcases ih undivided with ⟨w, first⟩ | ⟨c, first, typed⟩
    · cases out : op.eval w with
      | ok v => exact .inl ⟨v, eval_unary_eq_ok_iff.mpr ⟨w, first, out⟩⟩
      | error c =>
        refine .inr ⟨c, ?_, UnaryOp.type_of_eval_eq_error out⟩
        rw [eval, first]
        exact out
    · exact .inr ⟨c, by rw [eval, first]; rfl, typed⟩

/-- Formulas without divisions agree if they have the same values. -/
theorem agree_of_values (left : f.undivided = true) (right : g.undivided = true)
    (values : ∀ v, f.eval = .ok v ↔ g.eval = .ok v) : f.Agree g := by
  rcases exists_value_or_isTypeError left with ⟨v, first⟩ | first
  · exact .inl ⟨v, first, (values v).mp first⟩
  · rcases exists_value_or_isTypeError right with ⟨v, second⟩ | second
    · obtain ⟨c, failed, -⟩ := first
      rw [(values v).mpr second] at failed
      cases failed
    · exact .inr ⟨first, second⟩

/-! ## What formulas count as, read as and hold as -/

theorem counts_unique {m n : Int64} (first : f.Counts m) (second : f.Counts n) : m = n := by
  obtain ⟨v, evaluated, counts⟩ := first
  obtain ⟨w, evaluated', counts'⟩ := second
  cases evaluated.symm.trans evaluated'
  cases counts.symm.trans counts'
  rfl

section

variable {compute : Int64 → Int64 → Int64} (computes : op.Computes compute)
include computes

theorem eval_arithmetic_eq_ok_iff :
    (binary op f g).eval = .ok v ↔
      (∃ m n, f.Counts m ∧ g.Counts n ∧ v = .int (compute m n)) ∨
        op = .add ∧ ∃ s t, f.Reads s ∧ g.Reads t ∧ v = .str (s ++ t) := by
  rw [eval_binary_eq_ok_iff]
  constructor
  · rintro ⟨l, r, first, second, evaluated⟩
    rcases (OperatorTable.eval_arithmetic_eq_ok_iff computes).mp evaluated with
      ⟨m, n, left, right, rfl⟩ | ⟨sum, s, t, rfl, rfl, rfl⟩
    · exact .inl ⟨m, n, ⟨l, first, left⟩, ⟨r, second, right⟩, rfl⟩
    · exact .inr ⟨sum, s, t, first, second, rfl⟩
  · rintro (⟨m, n, ⟨l, first, left⟩, ⟨r, second, right⟩, rfl⟩ | ⟨sum, s, t, first, second, rfl⟩)
    · exact ⟨l, r, first, second,
        (OperatorTable.eval_arithmetic_eq_ok_iff computes).mpr (.inl ⟨m, n, left, right, rfl⟩)⟩
    · exact ⟨_, _, first, second,
        (OperatorTable.eval_arithmetic_eq_ok_iff computes).mpr (.inr ⟨sum, s, t, rfl, rfl, rfl⟩)⟩

theorem counts_binary {k : Int64} :
    (binary op f g).Counts k ↔ ∃ m n, f.Counts m ∧ g.Counts n ∧ k = compute m n := by
  constructor
  · rintro ⟨v, evaluated, counts⟩
    rcases (eval_arithmetic_eq_ok_iff computes).mp evaluated with
      ⟨m, n, left, right, rfl⟩ | ⟨-, s, t, -, -, rfl⟩
    · exact ⟨m, n, left, right, (Value.int.inj counts).symm⟩
    · cases counts
  · rintro ⟨m, n, left, right, rfl⟩
    exact ⟨_, (eval_arithmetic_eq_ok_iff computes).mpr (.inl ⟨m, n, left, right, rfl⟩), rfl⟩

theorem reads_binary {text : String} :
    (binary op f g).Reads text ↔ op = .add ∧ ∃ s t, f.Reads s ∧ g.Reads t ∧ text = s ++ t := by
  rw [Reads, eval_arithmetic_eq_ok_iff computes]
  constructor
  · rintro (⟨m, n, -, -, counts⟩ | ⟨sum, s, t, left, right, reads⟩)
    · cases counts
    · exact ⟨sum, s, t, left, right, Value.str.inj reads⟩
  · rintro ⟨sum, s, t, left, right, rfl⟩
    exact .inr ⟨sum, s, t, left, right, rfl⟩

/-- An arithmetic formula counts as an integer or reads as a text, and has no other values. -/
theorem eval_eq_ok_iff_counts_or_reads :
    (binary op f g).eval = .ok v ↔
      (∃ n, (binary op f g).Counts n ∧ v = .int n) ∨
        ∃ text, (binary op f g).Reads text ∧ v = .str text := by
  constructor
  · intro evaluated
    rcases (eval_arithmetic_eq_ok_iff computes).mp evaluated with
      ⟨m, n, -, -, rfl⟩ | ⟨-, s, t, -, -, rfl⟩
    · exact .inl ⟨_, ⟨_, evaluated, rfl⟩, rfl⟩
    · exact .inr ⟨_, evaluated, rfl⟩
  · rintro (⟨n, counts, rfl⟩ | ⟨text, reads, rfl⟩)
    · obtain ⟨m, n, left, right, rfl⟩ := (counts_binary computes).mp counts
      exact (eval_arithmetic_eq_ok_iff computes).mpr (.inl ⟨m, n, left, right, rfl⟩)
    · exact reads

end

section

variable {connect : Bool → Bool → Bool} (connects : op.Connects connect)
include connects

theorem eval_logic_eq_ok_iff :
    (binary op f g).eval = .ok v ↔
      ∃ a b, f.Holds a ∧ g.Holds b ∧ v = .bool (connect a b) := by
  rw [eval_binary_eq_ok_iff]
  constructor
  · rintro ⟨l, r, first, second, evaluated⟩
    obtain ⟨a, b, left, right, rfl⟩ := (OperatorTable.eval_logic_eq_ok_iff connects).mp evaluated
    exact ⟨a, b, ⟨l, first, left⟩, ⟨r, second, right⟩, rfl⟩
  · rintro ⟨a, b, ⟨l, first, left⟩, ⟨r, second, right⟩, rfl⟩
    exact ⟨l, r, first, second,
      (OperatorTable.eval_logic_eq_ok_iff connects).mpr ⟨a, b, left, right, rfl⟩⟩

theorem holds_binary {c : Bool} :
    (binary op f g).Holds c ↔ ∃ a b, f.Holds a ∧ g.Holds b ∧ c = connect a b := by
  constructor
  · rintro ⟨v, evaluated, holds⟩
    obtain ⟨a, b, left, right, rfl⟩ := (eval_logic_eq_ok_iff connects).mp evaluated
    exact ⟨a, b, left, right, (Value.bool.inj holds).symm⟩
  · rintro ⟨a, b, left, right, rfl⟩
    exact ⟨_, (eval_logic_eq_ok_iff connects).mpr ⟨a, b, left, right, rfl⟩, rfl⟩

end

theorem eval_not_eq_ok_iff : f.not.eval = .ok v ↔ ∃ a, f.Holds a ∧ v = .bool !a := by
  rw [not, eval_unary_eq_ok_iff]
  constructor
  · rintro ⟨w, first, evaluated⟩
    obtain ⟨a, holds, rfl⟩ := UnaryOp.eval_not_eq_ok_iff.mp evaluated
    exact ⟨a, ⟨w, first, holds⟩, rfl⟩
  · rintro ⟨a, ⟨w, first, holds⟩, rfl⟩
    exact ⟨w, first, UnaryOp.eval_not_eq_ok_iff.mpr ⟨a, holds, rfl⟩⟩

theorem holds_not {c : Bool} : f.not.Holds c ↔ ∃ a, f.Holds a ∧ c = !a := by
  constructor
  · rintro ⟨v, evaluated, holds⟩
    obtain ⟨a, inner, rfl⟩ := eval_not_eq_ok_iff.mp evaluated
    exact ⟨a, inner, (Value.bool.inj holds).symm⟩
  · rintro ⟨a, inner, rfl⟩
    exact ⟨_, eval_not_eq_ok_iff.mpr ⟨a, inner, rfl⟩, rfl⟩

/-! ## Laws of arithmetic -/

section

variable {h : Formula} {n : Int64} {text : String}

section

variable {compute : Int64 → Int64 → Int64} (computes : op.Computes compute)
include computes

theorem counts_comm (commutes : ∀ l m, compute l m = compute m l) :
    (binary op f g).Counts n ↔ (binary op g f).Counts n := by
  simp only [counts_binary computes]
  constructor
  · rintro ⟨l, m, left, right, rfl⟩
    exact ⟨m, l, right, left, commutes l m⟩
  · rintro ⟨m, l, right, left, rfl⟩
    exact ⟨l, m, left, right, commutes m l⟩

theorem counts_assoc
    (associates : ∀ k l m, compute (compute k l) m = compute k (compute l m)) :
    (binary op (binary op f g) h).Counts n ↔ (binary op f (binary op g h)).Counts n := by
  simp only [counts_binary computes]
  constructor
  · rintro ⟨_, m, ⟨k, l, first, second, rfl⟩, third, rfl⟩
    exact ⟨k, compute l m, first, ⟨l, m, second, third, rfl⟩, associates k l m⟩
  · rintro ⟨k, _, first, ⟨l, m, second, third, rfl⟩, rfl⟩
    exact ⟨compute k l, m, ⟨k, l, first, second, rfl⟩, third, (associates k l m).symm⟩

/-- Texts are only added. -/
theorem not_reads (other : op ≠ .add) : ¬ (binary op f g).Reads text :=
  fun reads => other ((reads_binary computes).mp reads).1

end

theorem counts_add : (f + g).Counts n ↔ ∃ l m, f.Counts l ∧ g.Counts m ∧ n = l + m :=
  counts_binary BinaryOp.computes_add

theorem counts_sub : (f - g).Counts n ↔ ∃ l m, f.Counts l ∧ g.Counts m ∧ n = l - m :=
  counts_binary BinaryOp.computes_sub

theorem counts_mul : (f * g).Counts n ↔ ∃ l m, f.Counts l ∧ g.Counts m ∧ n = l * m :=
  counts_binary BinaryOp.computes_mul

theorem reads_add : (f + g).Reads text ↔ ∃ s t, f.Reads s ∧ g.Reads t ∧ text = s ++ t :=
  (reads_binary BinaryOp.computes_add).trans (and_iff_right rfl)

theorem not_reads_sub : ¬ (f - g).Reads text := not_reads BinaryOp.computes_sub (by decide)

theorem not_reads_mul : ¬ (f * g).Reads text := not_reads BinaryOp.computes_mul (by decide)

theorem reads_add_assoc : (f + g + h).Reads text ↔ (f + (g + h)).Reads text := by
  simp only [reads_add]
  constructor
  · rintro ⟨_, u, ⟨s, t, first, second, rfl⟩, third, rfl⟩
    exact ⟨s, t ++ u, first, ⟨t, u, second, third, rfl⟩, String.append_assoc⟩
  · rintro ⟨s, _, first, ⟨t, u, second, third, rfl⟩, rfl⟩
    exact ⟨s ++ t, u, ⟨s, t, first, second, rfl⟩, third, String.append_assoc.symm⟩

theorem counts_mul_add : (f * (g + h)).Counts n ↔ (f * g + f * h).Counts n := by
  simp only [counts_mul, counts_add]
  constructor
  · rintro ⟨k, _, first, ⟨l, m, second, third, rfl⟩, rfl⟩
    exact ⟨k * l, k * m, ⟨k, l, first, second, rfl⟩, ⟨k, m, first, third, rfl⟩, Int64.mul_add⟩
  · rintro ⟨_, _, ⟨k, l, first, second, rfl⟩, ⟨k', m, again, third, rfl⟩, rfl⟩
    obtain rfl := counts_unique first again
    exact ⟨k, l + m, first, ⟨l, m, second, third, rfl⟩, Int64.mul_add.symm⟩

theorem counts_sub_eq : (f - g).Counts n ↔ (f + value (.int (-1)) * g).Counts n := by
  have negated (l m : Int64) : l - m = l + (-1) * m := by
    rw [Int64.sub_eq_add_neg, Int64.neg_eq_neg_one_mul]
  simp only [counts_sub, counts_add, counts_mul]
  constructor
  · rintro ⟨l, m, left, right, rfl⟩
    exact ⟨l, -1 * m, left, ⟨-1, m, ⟨_, rfl, rfl⟩, right, rfl⟩, negated l m⟩
  · rintro ⟨l, _, left, ⟨_, m, minusOne, right, rfl⟩, rfl⟩
    obtain rfl := counts_unique minusOne ⟨_, rfl, rfl⟩
    exact ⟨l, m, left, right, (negated l m).symm⟩

end

/-! ## Laws of logic -/

section

variable {c : Bool} {connect : Bool → Bool → Bool} (connects : op.Connects connect)
include connects

theorem holds_comm (commutes : ∀ a b, connect a b = connect b a) :
    (binary op f g).Holds c ↔ (binary op g f).Holds c := by
  simp only [holds_binary connects]
  constructor
  · rintro ⟨a, b, left, right, rfl⟩
    exact ⟨b, a, right, left, commutes a b⟩
  · rintro ⟨b, a, right, left, rfl⟩
    exact ⟨a, b, left, right, commutes b a⟩

/-- Negation carries over to the operands of the dual operator. -/
theorem holds_not_binary {dual : BinaryOp} {connect' : Bool → Bool → Bool}
    (connects' : dual.Connects connect') (negates : ∀ a b, (!connect a b) = connect' (!a) (!b)) :
    (binary op f g).not.Holds c ↔ (binary dual f.not g.not).Holds c := by
  simp only [holds_not, holds_binary connects, holds_binary connects']
  constructor
  · rintro ⟨_, ⟨a, b, left, right, rfl⟩, rfl⟩
    exact ⟨!a, !b, ⟨a, left, rfl⟩, ⟨b, right, rfl⟩, negates a b⟩
  · rintro ⟨_, _, ⟨a, left, rfl⟩, ⟨b, right, rfl⟩, rfl⟩
    exact ⟨connect a b, ⟨a, b, left, right, rfl⟩, (negates a b).symm⟩

end

/-! ## Agreement -/

/-- Arithmetic formulas agree if they count and read alike. -/
theorem agree_of_counts {op' : BinaryOp} {f' g' : Formula}
    {compute compute' : Int64 → Int64 → Int64} (computes : op.Computes compute)
    (computes' : op'.Computes compute') (left : (binary op f g).undivided = true)
    (right : (binary op' f' g').undivided = true)
    (counts : ∀ n, (binary op f g).Counts n ↔ (binary op' f' g').Counts n)
    (reads : ∀ text, (binary op f g).Reads text ↔ (binary op' f' g').Reads text) :
    (binary op f g).Agree (binary op' f' g') := by
  apply agree_of_values left right
  intro v
  simp only [eval_eq_ok_iff_counts_or_reads computes, eval_eq_ok_iff_counts_or_reads computes',
    counts, reads]

/-- The values of the formula are truth values. -/
def IsTruth (f : Formula) : Prop := ∀ v, f.eval = .ok v ↔ ∃ b, f.Holds b ∧ v = .bool b

theorem isTruth_binary {connect : Bool → Bool → Bool} (connects : op.Connects connect) :
    (binary op f g).IsTruth := by
  intro v
  rw [eval_logic_eq_ok_iff connects]
  simp only [holds_binary connects]
  constructor
  · rintro ⟨a, b, left, right, rfl⟩
    exact ⟨_, ⟨a, b, left, right, rfl⟩, rfl⟩
  · rintro ⟨_, ⟨a, b, left, right, rfl⟩, rfl⟩
    exact ⟨a, b, left, right, rfl⟩

theorem isTruth_not : f.not.IsTruth := by
  intro v
  rw [eval_not_eq_ok_iff]
  simp only [holds_not]
  constructor
  · rintro ⟨a, holds, rfl⟩
    exact ⟨_, ⟨a, holds, rfl⟩, rfl⟩
  · rintro ⟨_, ⟨a, holds, rfl⟩, rfl⟩
    exact ⟨a, holds, rfl⟩

theorem agree_of_holds (truth : f.IsTruth) (truth' : g.IsTruth) (left : f.undivided = true)
    (right : g.undivided = true) (holds : ∀ b, f.Holds b ↔ g.Holds b) : f.Agree g := by
  apply agree_of_values left right
  intro v
  rw [truth v, truth' v]
  simp only [holds]

end Formula

theorem Value.IsNumeric.not_reads {v : Value} (numeric : v.IsNumeric) {text : String} :
    ¬ (v : Formula).Reads text := by
  intro reads
  obtain rfl := Except.ok.inj reads
  rcases numeric with int | bool
  · cases int
  · cases bool

/-! ## Equality -/

namespace Value

variable {a b c : Value}

/-- Both an integer and a truth value are among the values. -/
def Mixes (vs : List Value) : Prop := (∃ v ∈ vs, v.kind = .int) ∧ ∃ v ∈ vs, v.kind = .bool

theorem Equals.refl (a : Value) : a.Equals a := by
  cases a with
  | function d => exact .function rfl
  | closure c => exact .closure rfl
  | _ => constructor

theorem Equals.symm (equals : a.Equals b) : b.Equals a := by
  cases equals with
  | function same => exact .function same.symm
  | closure same => exact .closure same.symm
  | intAsBool counts => exact .boolAsInt counts
  | boolAsInt counts => exact .intAsBool counts
  | _ => constructor

theorem Equals.trans (apart : ¬ Mixes [a, b, c]) (first : a.Equals b) (second : b.Equals c) :
    a.Equals c := by
  cases first with
  | @intAsBool n t _ =>
    exact absurd ⟨⟨Value.int n, by simp, rfl⟩, ⟨Value.bool t, by simp, rfl⟩⟩ apart
  | @boolAsInt n t _ =>
    exact absurd ⟨⟨Value.int n, by simp, rfl⟩, ⟨Value.bool t, by simp, rfl⟩⟩ apart
  | function same =>
    cases second with
    | function same' => exact .function (same.trans same')
  | closure same =>
    cases second with
    | closure same' => exact .closure (same.trans same')
  | _ => exact second

/-- Two integers that count as true are equal to `true`, but not to each other. -/
example : (int 1).Equals (bool true) ∧ (bool true).Equals (int 2) ∧ ¬ (int 1).Equals (int 2) :=
  ⟨.intAsBool rfl, .boolAsInt rfl, nofun⟩

end Value

namespace Formula

/-- Equality always has a value. -/
theorem exists_eval_equals (a b : Value) :
    ∃ t, (t = true ↔ a.Equals b) ∧ (equals a b).eval = .ok (.bool t) ∧
      (differs a b).eval = .ok (.bool !t) :=
  ⟨_, BinaryOp.same_coerce_iff rfl, OperatorTable.eval_eq a b, OperatorTable.eval_ne a b⟩

theorem eval_equals_iff {a b : Value} : (equals a b).eval = .ok (.bool true) ↔ a.Equals b := by
  obtain ⟨t, same, evaluated, -⟩ := exists_eval_equals a b
  rw [evaluated, ← same, Except.ok.injEq, Value.bool.injEq]

theorem eval_equals_comm (a b : Value) : (equals a b).eval = (equals b a).eval := by
  obtain ⟨t, same, evaluated, -⟩ := exists_eval_equals a b
  obtain ⟨t', same', evaluated', -⟩ := exists_eval_equals b a
  have alike : t = t' := by
    rw [Bool.eq_iff_iff, same, same']
    exact ⟨Value.Equals.symm, Value.Equals.symm⟩
  rw [evaluated, evaluated', alike]

end Formula

/-- The laws of the operators on any three values, errors included.  The operands of a sum may
change places unless both are texts.  Equality has a value on all operands. -/
theorem operator_laws (a b c : Value) :
    (a + b + c : Formula).Agree (a + (b + c)) ∧
    (a * b * c : Formula).Agree (a * (b * c)) ∧
    (a * (b + c) : Formula).Agree (a * b + a * c) ∧
    (a.IsNumeric ∨ b.IsNumeric → (a + b : Formula).Agree (b + a)) ∧
    (a * b : Formula).Agree (b * a) ∧
    (a - b : Formula).Agree (a + Formula.value (.int (-1)) * b) ∧
    (Formula.and a b).Agree (.and b a) ∧
    (Formula.or a b).Agree (.or b a) ∧
    (Formula.and a b).not.Agree (.or (.not a) (.not b)) ∧
    (Formula.or a b).not.Agree (.and (.not a) (.not b)) ∧
    (∃ t, (Formula.equals a b).eval = .ok (.bool t) ∧
      (Formula.differs a b).eval = .ok (.bool !t)) ∧
    (Formula.equals a a).eval = .ok (.bool true) ∧
    (Formula.equals a b).eval = (Formula.equals b a).eval ∧
    (¬ Value.Mixes [a, b, c] → (Formula.equals a b).eval = .ok (.bool true) →
      (Formula.equals b c).eval = .ok (.bool true) →
        (Formula.equals a c).eval = .ok (.bool true)) := by
  open BinaryOp Formula in
  refine ⟨?_, ?_, ?_, ?_, ?_, ?_, ?_, ?_, ?_, ?_, ?_, ?_, eval_equals_comm a b, ?_⟩
  · exact agree_of_counts computes_add computes_add rfl rfl
      (fun n => counts_assoc computes_add Int64.add_assoc) fun text => reads_add_assoc
  · exact agree_of_counts computes_mul computes_mul rfl rfl
      (fun n => counts_assoc computes_mul Int64.mul_assoc)
      fun text => iff_of_false not_reads_mul not_reads_mul
  · refine agree_of_counts computes_mul computes_add rfl rfl (fun n => counts_mul_add)
      fun text => iff_of_false not_reads_mul fun reads => ?_
    obtain ⟨s, t, left, -, -⟩ := reads_add.mp reads
    exact not_reads_mul left
  · intro numeric
    refine agree_of_counts computes_add computes_add rfl rfl
      (fun n => counts_comm computes_add Int64.add_comm)
      fun text => iff_of_false (fun reads => ?_) fun reads => ?_
    · obtain ⟨s, t, left, right, -⟩ := reads_add.mp reads
      exact numeric.elim (fun first => first.not_reads left) fun second => second.not_reads right
    · obtain ⟨s, t, right, left, -⟩ := reads_add.mp reads
      exact numeric.elim (fun first => first.not_reads left) fun second => second.not_reads right
  · exact agree_of_counts computes_mul computes_mul rfl rfl
      (fun n => counts_comm computes_mul Int64.mul_comm)
      fun text => iff_of_false not_reads_mul not_reads_mul
  · refine agree_of_counts computes_sub computes_add rfl rfl (fun n => counts_sub_eq)
      fun text => iff_of_false not_reads_sub fun reads => ?_
    obtain ⟨s, t, -, right, -⟩ := reads_add.mp reads
    exact not_reads_mul right
  · exact agree_of_holds (isTruth_binary connects_and) (isTruth_binary connects_and) rfl rfl
      fun b => holds_comm connects_and Bool.and_comm
  · exact agree_of_holds (isTruth_binary connects_or) (isTruth_binary connects_or) rfl rfl
      fun b => holds_comm connects_or Bool.or_comm
  · exact agree_of_holds isTruth_not (isTruth_binary connects_or) rfl rfl
      fun b => holds_not_binary connects_and connects_or Bool.not_and
  · exact agree_of_holds isTruth_not (isTruth_binary connects_and) rfl rfl
      fun b => holds_not_binary connects_or connects_and Bool.not_or
  · obtain ⟨t, -, evaluated⟩ := exists_eval_equals a b
    exact ⟨t, evaluated⟩
  · exact eval_equals_iff.mpr (.refl a)
  · intro apart first second
    exact eval_equals_iff.mpr (.trans apart (eval_equals_iff.mp first) (eval_equals_iff.mp second))

/-- A sum of a truth value and an integer, and three texts that are equal. -/
theorem operator_laws_of_values :
    (Value.bool true).IsNumeric ∧
      (Value.bool true + Value.int 2 : Formula).Agree (Value.int 2 + Value.bool true) ∧
    ¬ Value.Mixes [.str "é", .str "é", .str "é"] ∧
      (Formula.equals (Value.str "é") (Value.str "é")).eval = .ok (.bool true) := by
  have numeric : (Value.bool true).IsNumeric := .inr rfl
  have apart : ¬ Value.Mixes [.str "é", .str "é", .str "é"] := by
    simp [Value.Mixes, Value.kind]
  obtain ⟨-, -, -, sum, -⟩ := operator_laws (.bool true) (.int 2) .nil
  obtain ⟨-, -, -, -, -, -, -, -, -, -, -, self, -, trans⟩ :=
    operator_laws (.str "é") (.str "é") (.str "é")
  exact ⟨numeric, sum (.inl numeric), apart, trans apart self self⟩

end Protoscript
