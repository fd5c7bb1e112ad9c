import Mathlib.Logic.ExistsUnique
import Protoscript.Eval.Steps
import Protoscript.Proofs.FloorDivision

/-! # The rules of the binary operators

What each binary operator means, said of the integers and truth values that operands count as and
not of conversions and table entries.  `BinaryOp.Gives` has one rule for each way in which an
operation comes out; where none of the others applies, the operation is not defined.
`operators_follow_rules`: an operation comes out in exactly one way, the one that evaluation
gives.  Sums, differences and products are those of the integers, taken modulo 2^64 into the range
of 64 signed bits; quotients are rounded down, and only that of the smallest integer and -1 is out
of range, and wraps. -/

set_option autoImplicit false

namespace Protoscript

namespace Value

/-- The integer that the value counts as in arithmetic. -/
def number? : Value → Option Int
  | int n => some n.toInt
  | bool b => some (if b then 1 else 0)
  | _ => none

/-- The truth value that the value counts as in logic. -/
def truth? : Value → Option Bool
  | int n => some (decide (n.toInt ≠ 0))
  | bool b => some b
  | _ => none

/-- Equality of values: of the same kind and content or identity, or an integer and a truth value
that it counts as. -/
inductive Equals : Value → Value → Prop
  | int (n : Int64) : Equals (int n) (int n)
  | bool (b : Bool) : Equals (bool b) (bool b)
  | str (text : String) : Equals (str text) (str text)
  | nil : Equals nil nil
  | function {f g : Function} (same : f.id = g.id) : Equals (function f) (function g)
  | closure {c d : Closure} (same : c.id = d.id) : Equals (closure c) (closure d)
  | object (o : ObjectId) : Equals (object o) (object o)
  | intAsBool {n : Int64} {b : Bool} (counts : (int n).truth? = some b) : Equals (int n) (bool b)
  | boolAsInt {n : Int64} {b : Bool} (counts : (int n).truth? = some b) : Equals (bool b) (int n)

end Value

namespace BinaryOp

def isOrdering : BinaryOp → Bool
  | lt | le | gt | ge => true
  | _ => false

/-- The operands are of kinds that the operator is for. -/
inductive Takes : BinaryOp → Value → Value → Prop
  | equality {op : BinaryOp} (equality : op.isEquality = true) (l r : Value) : Takes op l r
  | arithmetic {op : BinaryOp} (arithmetic : op.isArithmetic = true) {l r : Value} {a b : Int}
    (left : l.number? = some a) (right : r.number? = some b) : Takes op l r
  | texts (s t : String) : Takes .add (.str s) (.str t)
  | ordering {op : BinaryOp} (ordering : op.isOrdering = true) (a b : Int64) :
    Takes op (.int a) (.int b)
  | logic {op : BinaryOp} (logical : op.isLogical = true) {l r : Value} {a b : Bool}
    (left : l.truth? = some a) (right : r.truth? = some b) : Takes op l r

/-- The kind that an operand counts as: arithmetic takes truth values as integers, and logic takes
integers as truth values. -/
def kindOf (op : BinaryOp) (v : Value) : Kind :=
  match v.kind with
  | .bool => if op.isArithmetic then .int else .bool
  | .int => if op.isLogical then .bool else .int
  | other => other

/-- The complaint about operands of such kinds. -/
def complaint (op : BinaryOp) (left right : Kind) : String :=
  if left = right then "operator `" ++ op.symbol ++ "` not defined for " ++ left.name
  else "operator `" ++ op.symbol ++ "` not defined for " ++ left.name ++ " and " ++ right.name

/-- An operation at `line` on two values comes out so. -/
inductive Gives (line : Nat) : BinaryOp → Value → Value → Except RuntimeError Value → Prop
  | equal {l r : Value} (equals : l.Equals r) : Gives line .eq l r (.ok (.bool true))
  | unequal {l r : Value} (differs : ¬ l.Equals r) : Gives line .eq l r (.ok (.bool false))
  | notUnequal {l r : Value} (equals : l.Equals r) : Gives line .ne l r (.ok (.bool false))
  | notEqual {l r : Value} (differs : ¬ l.Equals r) : Gives line .ne l r (.ok (.bool true))
  | sum {l r : Value} {a b : Int} {n : Int64} (left : l.number? = some a)
    (right : r.number? = some b) (wraps : n.toInt = (a + b).bmod (2 ^ 64)) :
    Gives line .add l r (.ok (.int n))
  | difference {l r : Value} {a b : Int} {n : Int64} (left : l.number? = some a)
    (right : r.number? = some b) (wraps : n.toInt = (a - b).bmod (2 ^ 64)) :
    Gives line .sub l r (.ok (.int n))
  | product {l r : Value} {a b : Int} {n : Int64} (left : l.number? = some a)
    (right : r.number? = some b) (wraps : n.toInt = (a * b).bmod (2 ^ 64)) :
    Gives line .mul l r (.ok (.int n))
  | quotient {l r : Value} {a b : Int} {n : Int64} (left : l.number? = some a)
    (right : r.number? = some b) (nonzero : b ≠ 0) (inRange : a ≠ -2 ^ 63 ∨ b ≠ -1)
    (rounds : n.toInt = a.fdiv b) : Gives line .div l r (.ok (.int n))
  | wrapped {l r : Value} {n : Int64} (left : l.number? = some (-2 ^ 63))
    (right : r.number? = some (-1)) (wraps : n.toInt = -2 ^ 63) :
    Gives line .div l r (.ok (.int n))
  | byZero {l r : Value} {a : Int} (left : l.number? = some a) (right : r.number? = some 0) :
    Gives line .div l r (.error ⟨.divisionByZero, line⟩)
  | joined (s t : String) : Gives line .add (.str s) (.str t) (.ok (.str (s ++ t)))
  | less (a b : Int64) :
    Gives line .lt (.int a) (.int b) (.ok (.bool (decide (a.toInt < b.toInt))))
  | atMost (a b : Int64) :
    Gives line .le (.int a) (.int b) (.ok (.bool (decide (a.toInt ≤ b.toInt))))
  | greater (a b : Int64) :
    Gives line .gt (.int a) (.int b) (.ok (.bool (decide (b.toInt < a.toInt))))
  | atLeast (a b : Int64) :
    Gives line .ge (.int a) (.int b) (.ok (.bool (decide (b.toInt ≤ a.toInt))))
  | both {l r : Value} {a b : Bool} (left : l.truth? = some a) (right : r.truth? = some b) :
    Gives line .and l r (.ok (.bool (a && b)))
  | either {l r : Value} {a b : Bool} (left : l.truth? = some a) (right : r.truth? = some b) :
    Gives line .or l r (.ok (.bool (a || b)))
  | undefined {op : BinaryOp} {l r : Value} (refused : ¬ op.Takes l r) :
    Gives line op l r (.error ⟨.binaryUndefined op (op.kindOf l) (op.kindOf r), line⟩)

end BinaryOp

/-! ## Conversions -/

namespace Value

variable {v l r : Value}

theorem boolToInt_of_number? {a : Int} (counts : v.number? = some a) :
    ∃ n : Int64, v.boolToInt = .int n ∧ n.toInt = a := by
  cases v with
  | int n => exact ⟨n, rfl, Option.some.inj counts⟩
  | bool b => exact ⟨if b then 1 else 0, rfl, by cases b <;> exact Option.some.inj counts⟩
  | _ => cases counts

theorem number?_of_boolToInt (converted : v.boolToInt.kind = .int) :
    ∃ a, v.number? = some a := by
  cases v with
  | int n => exact ⟨_, rfl⟩
  | bool b => exact ⟨_, rfl⟩
  | _ => cases converted

theorem ne_zero_eq_decide (n : Int64) : (n != 0) = decide (n.toInt ≠ 0) := by
  have zero : n.toInt = 0 ↔ n = 0 := by rw [← Int64.toInt_inj, Int64.toInt_zero]
  rw [bne, decide_not, decide_eq_decide.mpr zero]
  rfl

theorem intToBool_of_truth? {b : Bool} (counts : v.truth? = some b) : v.intToBool = .bool b := by
  cases v with
  | int n =>
    obtain rfl := Option.some.inj counts
    exact congrArg Value.bool (Value.ne_zero_eq_decide n)
  | bool b' => exact congrArg Value.bool (Option.some.inj counts)
  | _ => cases counts

theorem truth?_of_intToBool (converted : v.intToBool.kind = .bool) : ∃ b, v.truth? = some b := by
  cases v with
  | int n => exact ⟨_, rfl⟩
  | bool b => exact ⟨_, rfl⟩
  | _ => cases converted

theorem eq_int_of_kind (int : v.kind = .int) : ∃ n, v = .int n := by
  cases v with
  | int n => exact ⟨n, rfl⟩
  | _ => cases int

theorem eq_str_of_boolToInt (string : v.boolToInt.kind = .string) : ∃ text, v = .str text := by
  cases v with
  | str text => exact ⟨text, rfl⟩
  | _ => cases string

theorem equals_of_same (same : l.same r = true) : l.Equals r := by
  unfold Value.same at same
  split at same
  · rw [eq_of_beq same]
    exact .int _
  · rw [eq_of_beq same]
    exact .bool _
  · rw [eq_of_beq same]
    exact .str _
  · exact .nil
  · exact .function (eq_of_beq same)
  · exact .closure (eq_of_beq same)
  · rw [eq_of_beq same]
    exact .object _
  · cases same

end Value

namespace BinaryOp

variable {op : BinaryOp} {l r : Value}

/-- After the conversion for equality, values are the same just if they are equal. -/
theorem same_coerce_iff (equality : op.isEquality = true) :
    (op.coerce l r).1.same (op.coerce l r).2 = true ↔ l.Equals r := by
  have coerced : op.coerce l r = BinaryOp.eq.coerce l r := by
    cases op <;> first | rfl | cases equality
  rw [coerced, BinaryOp.coerce.eq_def, if_neg (by decide), if_neg (by decide),
    if_pos (by decide)]
  constructor
  · intro same
    split at same
    · next n b =>
      exact .intAsBool (congrArg some ((Value.ne_zero_eq_decide n).symm.trans (eq_of_beq same)))
    · next b n =>
      have counts := (eq_of_beq same).trans (Value.ne_zero_eq_decide n)
      exact .boolAsInt (congrArg some counts.symm)
    · exact Value.equals_of_same same
  · intro equals
    cases equals with
    | intAsBool counts =>
      dsimp only
      rw [Value.intToBool_of_truth? counts]
      exact beq_self_eq_true _
    | boolAsInt counts =>
      dsimp only
      rw [Value.intToBool_of_truth? counts]
      exact beq_self_eq_true _
    | nil => rfl
    | function same | closure same => exact beq_iff_eq.mpr same
    | _ => exact beq_self_eq_true _

/-- Other conversions are of each operand for itself. -/
theorem coerce_of_arithmetic (arithmetic : op.isArithmetic = true) (l r : Value) :
    op.coerce l r = (l.boolToInt, r.boolToInt) :=
  if_pos arithmetic

theorem coerce_of_logical (logical : op.isLogical = true) (l r : Value) :
    op.coerce l r = (l.intToBool, r.intToBool) := by
  cases op <;> first | rfl | cases logical

theorem coerce_of_ordering (ordering : op.isOrdering = true) (l r : Value) :
    op.coerce l r = (l, r) := by
  cases op <;> first | rfl | cases ordering

theorem kind_coerce (other : op.isEquality = false) (l r : Value) :
    (op.coerce l r).1.kind = op.kindOf l ∧ (op.coerce l r).2.kind = op.kindOf r := by
  cases op with
  | eq | ne => cases other
  | _ => exact ⟨by cases l <;> rfl, by cases r <;> rfl⟩

end BinaryOp

/-! ## Evaluation -/

namespace OperatorTable

open BinaryOp

variable {op : BinaryOp} {l r x y : Value}

/-- What is registered, in this order: the primitive for an operator on operands of a kind. -/
def registered : List (BinaryOp × Kind × Primitive) :=
  [(add, .int, .addInt), (sub, .int, .subInt), (mul, .int, .mulInt), (div, .int, .divInt),
    (lt, .int, .ltInt), (le, .int, .leInt), (gt, .int, .gtInt), (ge, .int, .geInt),
    (and, .bool, .andBool), (or, .bool, .orBool), (add, .string, .concat)]

theorem standard_eq_register :
    standard = registered.foldl (fun t e => t.register e.1 e.2.1 e.2.2) empty := by
  apply congrArg OperatorTable.mk
  funext op kind
  cases op <;> cases kind <;> rfl

/-- An entry was registered, or it was there before. -/
theorem lookup_foldl_register {entries : List (BinaryOp × Kind × Primitive)} {k : Kind}
    {p : Primitive} {t : OperatorTable}
    (entry : (entries.foldl (fun t e => t.register e.1 e.2.1 e.2.2) t).lookup op k = some p) :
    (op, k, p) ∈ entries ∨ t.lookup op k = some p := by
  induction entries generalizing t with
  | nil => exact .inr entry
  | cons e rest ih =>
    rcases ih entry with later | before
    · exact .inl (List.mem_cons_of_mem e later)
    · dsimp only [register] at before
      split at before
      · next here =>
        obtain ⟨rfl, rfl⟩ := here
        cases before
        exact .inl List.mem_cons_self
      · exact .inr before

/-- The table has no entry but those that were registered. -/
theorem mem_registered_of_lookup {k : Kind} {p : Primitive}
    (entry : standard.lookup op k = some p) : (op, k, p) ∈ registered := by
  rw [standard_eq_register] at entry
  rcases lookup_foldl_register entry with among | before
  · exact among
  · cases before

/-- Each primitive is registered for operands of the kind it takes, and for an operator that is for
that kind. -/
theorem kinds_of_registered : ∀ e ∈ registered, e.2.1 = e.2.2.kind ∧
    (e.1.isArithmetic = true ∧ e.2.1 = .int ∨ e.1 = .add ∧ e.2.1 = .string ∨
      e.1.isOrdering = true ∧ e.2.1 = .int ∨ e.1.isLogical = true ∧ e.2.1 = .bool) := by
  decide

theorem eval_of_entry (other : op.isEquality = false) (coerced : op.coerce l r = (x, y))
    (kinds : x.kind = y.kind) {p : Primitive} (entry : standard.lookup op x.kind = some p)
    {out : Except RuntimeError.Cause Value} (computed : p.compute? x y = some out) :
    standard.eval op l r = out := by
  simp only [eval, coerced, other, Bool.false_eq_true, if_false, kinds, if_true]
  rw [← kinds, entry]
  simp only [computed, Option.getD_some]

theorem eval_eq (l r : Value) : standard.eval .eq l r =
    .ok (.bool ((BinaryOp.eq.coerce l r).1.same (BinaryOp.eq.coerce l r).2)) := rfl

theorem eval_ne (l r : Value) : standard.eval .ne l r =
    .ok (.bool !(BinaryOp.ne.coerce l r).1.same (BinaryOp.ne.coerce l r).2) := rfl

/-- Operands of other kinds than the operator is for are refused. -/
theorem eval_of_not_takes (refused : ¬ op.Takes l r) :
    standard.eval op l r = .error (.binaryUndefined op (op.kindOf l) (op.kindOf r)) := by
  have other : op.isEquality = false :=
    Bool.eq_false_iff.mpr fun equality => refused (.equality equality l r)
  obtain ⟨left, right⟩ := kind_coerce other l r
  have missing : (op.coerce l r).1.kind = (op.coerce l r).2.kind →
      standard.lookup op (op.coerce l r).1.kind = none := by
    intro kinds
    rw [Option.eq_none_iff_forall_ne_some]
    intro p entry
    apply refused
    obtain ⟨-, takes⟩ := kinds_of_registered _ (mem_registered_of_lookup entry)
    rcases takes with ⟨arithmetic, int⟩ | ⟨rfl, string⟩ | ⟨ordering, int⟩ | ⟨logical, bool⟩
    · rw [coerce_of_arithmetic arithmetic] at int kinds
      obtain ⟨a, first⟩ := Value.number?_of_boolToInt int
      obtain ⟨b, second⟩ := Value.number?_of_boolToInt (kinds.symm.trans int)
      exact .arithmetic arithmetic first second
    · obtain ⟨s, rfl⟩ := Value.eq_str_of_boolToInt string
      obtain ⟨t, rfl⟩ := Value.eq_str_of_boolToInt (kinds.symm.trans string)
      exact .texts s t
    · rw [coerce_of_ordering ordering] at int kinds
      obtain ⟨a, rfl⟩ := Value.eq_int_of_kind int
      obtain ⟨b, rfl⟩ := Value.eq_int_of_kind (kinds.symm.trans int)
      exact .ordering ordering a b
    · rw [coerce_of_logical logical] at bool kinds
      obtain ⟨a, first⟩ := Value.truth?_of_intToBool bool
      obtain ⟨b, second⟩ := Value.truth?_of_intToBool (kinds.symm.trans bool)
      exact .logic logical first second
  simp only [eval, other, Bool.false_eq_true, if_false]
  rw [← left, ← right]
  split
  · next kinds => rw [missing kinds]
  · rfl

theorem eval_of_numbers (op : BinaryOp) (p : Primitive) (arithmetic : op.isArithmetic = true)
    (entry : standard.lookup op .int = some p) {a b : Int} (left : l.number? = some a)
    (right : r.number? = some b) :
    ∃ m n : Int64, m.toInt = a ∧ n.toInt = b ∧ ∀ out, p.compute? (.int m) (.int n) = some out →
      standard.eval op l r = out := by
  obtain ⟨m, first, rfl⟩ := Value.boolToInt_of_number? left
  obtain ⟨n, second, rfl⟩ := Value.boolToInt_of_number? right
  refine ⟨m, n, rfl, rfl, fun out computed => ?_⟩
  have other : op.isEquality = false := by
    cases op <;> first | rfl | cases arithmetic
  have coerced : op.coerce l r = (.int m, .int n) := by
    rw [coerce_of_arithmetic arithmetic, first, second]
  exact eval_of_entry other coerced rfl entry computed

theorem eval_of_truths (logical : op.isLogical = true) {p : Primitive}
    (entry : standard.lookup op .bool = some p) {a b : Bool} (left : l.truth? = some a)
    (right : r.truth? = some b) {out : Except RuntimeError.Cause Value}
    (computed : p.compute? (.bool a) (.bool b) = some out) : standard.eval op l r = out := by
  have other : op.isEquality = false := by
    cases op <;> first | rfl | cases logical
  have coerced : op.coerce l r = (.bool a, .bool b) := by
    rw [coerce_of_logical logical, Value.intToBool_of_truth? left, Value.intToBool_of_truth? right]
  exact eval_of_entry other coerced rfl entry computed

theorem compute?_divInt {m n : Int64} (nonzero : n.toInt ≠ 0) :
    Primitive.compute? .divInt (.int m) (.int n) = some (.ok (.int (floorDiv m n))) := by
  have other : n ≠ 0 := by
    rintro rfl
    exact nonzero Int64.toInt_zero
  exact congrArg some (if_neg other)

/-- What the rules give is what evaluation gives. -/
theorem eval_of_gives {line : Nat} {out : Except RuntimeError Value}
    (gives : op.Gives line l r out) :
    (standard.eval op l r).mapError (RuntimeError.mk · line) = out := by
  cases gives with
  | equal equals => rw [eval_eq, (same_coerce_iff rfl).mpr equals]; rfl
  | unequal differs =>
    rw [eval_eq, Bool.eq_false_iff.mpr fun same => differs ((same_coerce_iff rfl).mp same)]
    rfl
  | notUnequal equals => rw [eval_ne, (same_coerce_iff rfl).mpr equals]; rfl
  | notEqual differs =>
    rw [eval_ne, Bool.eq_false_iff.mpr fun same => differs ((same_coerce_iff rfl).mp same)]
    rfl
  | @sum l r a b n left right wraps =>
    obtain ⟨x, y, rfl, rfl, eval⟩ := eval_of_numbers .add .addInt rfl rfl left right
    obtain rfl : n = x + y := Int64.toInt_inj.mp (wraps.trans (Int64.toInt_add x y).symm)
    rw [eval _ rfl]
    rfl
  | @difference l r a b n left right wraps =>
    obtain ⟨x, y, rfl, rfl, eval⟩ := eval_of_numbers .sub .subInt rfl rfl left right
    obtain rfl : n = x - y := Int64.toInt_inj.mp (wraps.trans (Int64.toInt_sub x y).symm)
    rw [eval _ rfl]
    rfl
  | @product l r a b n left right wraps =>
    obtain ⟨x, y, rfl, rfl, eval⟩ := eval_of_numbers .mul .mulInt rfl rfl left right
    obtain rfl : n = x * y := Int64.toInt_inj.mp (wraps.trans (Int64.toInt_mul x y).symm)
    rw [eval _ rfl]
    rfl
  | @quotient l r a b n left right nonzero inRange rounds =>
    obtain ⟨x, y, rfl, rfl, eval⟩ := eval_of_numbers .div .divInt rfl rfl left right
    obtain rfl : n = floorDiv x y := by
      obtain ⟨least, most⟩ := fdiv_inRange x.le_toInt x.toInt_lt nonzero inRange
      rw [← Int64.toInt_inj, rounds, toInt_floorDiv x nonzero,
        Int.bmod_eq_of_le (by omega) (by omega)]
    rw [eval _ (compute?_divInt nonzero)]
    rfl
  | @wrapped l r n left right wraps =>
    obtain ⟨x, y, least, minusOne, eval⟩ := eval_of_numbers .div .divInt rfl rfl left right
    have nonzero : y.toInt ≠ 0 := by omega
    obtain rfl : n = floorDiv x y := by
      rw [← Int64.toInt_inj, wraps, toInt_floorDiv x nonzero, least, minusOne]
      decide
    rw [eval _ (compute?_divInt nonzero)]
    rfl
  | @byZero l r a left right =>
    obtain ⟨x, y, -, zero, eval⟩ := eval_of_numbers .div .divInt rfl rfl left right
    obtain rfl : y = 0 := Int64.toInt_inj.mp (zero.trans Int64.toInt_zero.symm)
    rw [eval _ (congrArg some (if_pos rfl))]
    rfl
  | joined s t => rfl
  | less a b =>
    exact congrArg (Except.ok ∘ Value.bool) (decide_eq_decide.mpr Int64.lt_iff_toInt_lt)
  | atMost a b =>
    exact congrArg (Except.ok ∘ Value.bool) (decide_eq_decide.mpr Int64.le_iff_toInt_le)
  | greater a b =>
    exact congrArg (Except.ok ∘ Value.bool) (decide_eq_decide.mpr Int64.lt_iff_toInt_lt)
  | atLeast a b =>
    exact congrArg (Except.ok ∘ Value.bool) (decide_eq_decide.mpr Int64.le_iff_toInt_le)
  | both left right => rw [eval_of_truths rfl rfl left right rfl]; rfl
  | either left right => rw [eval_of_truths rfl rfl left right rfl]; rfl
  | undefined refused => rw [eval_of_not_takes refused]; rfl

/-- Some rule gives a result for any operands. -/
theorem exists_gives (op : BinaryOp) (l r : Value) (line : Nat) : ∃ out, op.Gives line l r out := by
  by_cases takes : op.Takes l r
  · cases takes with
    | equality equality =>
      by_cases equals : l.Equals r
      · cases op with
        | eq => exact ⟨_, .equal equals⟩
        | ne => exact ⟨_, .notUnequal equals⟩
        | _ => cases equality
      · cases op with
        | eq => exact ⟨_, .unequal equals⟩
        | ne => exact ⟨_, .notEqual equals⟩
        | _ => cases equality
    | @arithmetic _ arithmetic l r a b left right =>
      have wraps : ∀ c : Int, (Int64.ofInt c).toInt = c.bmod (2 ^ 64) := fun c => Int64.toInt_ofInt
      cases op with
      | add => exact ⟨_, .sum left right (wraps _)⟩
      | sub => exact ⟨_, .difference left right (wraps _)⟩
      | mul => exact ⟨_, .product left right (wraps _)⟩
      | div =>
        by_cases zero : b = 0
        · subst zero
          exact ⟨_, .byZero left right⟩
        by_cases inRange : a ≠ -2 ^ 63 ∨ b ≠ -1
        · obtain ⟨m, -, rfl⟩ := Value.boolToInt_of_number? left
          obtain ⟨least, most⟩ := fdiv_inRange m.le_toInt m.toInt_lt zero inRange
          have rounds := (wraps (m.toInt.fdiv b)).trans (Int.bmod_eq_of_le (by omega) (by omega))
          exact ⟨_, .quotient left right zero inRange rounds⟩
        · obtain ⟨rfl, rfl⟩ : a = -2 ^ 63 ∧ b = -1 := by omega
          exact ⟨_, .wrapped left right Int64.toInt_minValue⟩
      | _ => cases arithmetic
    | texts s t => exact ⟨_, .joined s t⟩
    | ordering ordering a b =>
      cases op with
      | lt => exact ⟨_, .less a b⟩
      | le => exact ⟨_, .atMost a b⟩
      | gt => exact ⟨_, .greater a b⟩
      | ge => exact ⟨_, .atLeast a b⟩
      | _ => cases ordering
    | logic logical left right =>
      cases op with
      | and => exact ⟨_, .both left right⟩
      | or => exact ⟨_, .either left right⟩
      | _ => cases logical
  · exact ⟨_, .undefined takes⟩

end OperatorTable

/-- The rules give every operation one result, and evaluation has that one: a value, or an error at
the line of the operation.  The error is a fault if the operands are of kinds that the operator is
for, since then it is a division by zero; otherwise it is a type error that names the operator and
the kinds that the operands count as. -/
theorem operators_follow_rules (op : BinaryOp) (l r : Value) (line : Nat) (m : Machine) :
    let out := (Eval.attempt line (OperatorTable.standard.eval op l r)).run m
    (∃! result, op.Gives line l r result) ∧
    (∀ v, op.Gives line l r (.ok v) ↔ out = .ok v m) ∧
    (∀ e, op.Gives line l r (.error e) ↔ out = .error (.error e) m) ∧
    ∀ e, op.Gives line l r (.error e) → e.line = line ∧
      (op.Takes l r → op = .div ∧ e.errorClass = .fault ∧ e.message = "division by zero") ∧
      (¬ op.Takes l r →
        e.errorClass = .type ∧ e.message = op.complaint (op.kindOf l) (op.kindOf r)) := by
  intro out
  have ran : out = match (OperatorTable.standard.eval op l r).mapError (RuntimeError.mk · line) with
      | .ok v => .ok v m
      | .error e => .error (.error e) m := by
    show (Eval.attempt line (OperatorTable.standard.eval op l r)).run m = _
    cases OperatorTable.standard.eval op l r <;> rfl
  obtain ⟨result, gives⟩ := OperatorTable.exists_gives op l r line
  have same := OperatorTable.eval_of_gives gives
  have unique : ∀ other, op.Gives line l r other → other = result :=
    fun other given => (OperatorTable.eval_of_gives given).symm.trans same
  rw [same] at ran
  refine ⟨⟨result, gives, unique⟩, ?_, ?_, ?_⟩
  · intro v
    constructor
    · intro given
      rw [ran, ← unique _ given]
    · intro ended
      rw [ran] at ended
      cases result with
      | ok w =>
        cases ended
        exact gives
      | error e => cases ended
  · intro e
    constructor
    · intro given
      rw [ran, ← unique _ given]
    · intro ended
      rw [ran] at ended
      cases result with
      | ok w => cases ended
      | error e' =>
        cases ended
        exact gives
  · intro e given
    cases given with
    | byZero left right =>
      refine ⟨rfl, fun _ => ⟨rfl, rfl, rfl⟩, fun refused => ?_⟩
      exact absurd (.arithmetic rfl left right) refused
    | undefined refused =>
      exact ⟨rfl, fun takes => absurd takes refused, fun _ => ⟨rfl, rfl⟩⟩

end Protoscript
