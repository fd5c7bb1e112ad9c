import Protoscript.RuntimeError

/-! # Operators

A binary operator first converts its operands: arithmetic takes truth values as 0 and 1, logic
takes integers as truth values, and equality does so when an integer meets a truth value.
Equality is then defined on all values; any other operator on two values of one kind for which
the operator table has an entry. -/

set_option autoImplicit false

namespace Protoscript

namespace Value

def boolToInt : Value → Value
  | bool b => int (if b then 1 else 0)
  | other => other

/-- Zero is false, any other integer is true. -/
def intToBool : Value → Value
  | int n => bool (n != 0)
  | other => other

end Value

namespace BinaryOp

/-- The operands as the operator takes them. -/
def coerce (op : BinaryOp) (left right : Value) : Value × Value :=
  if op.isArithmetic then (left.boolToInt, right.boolToInt)
  else if op.isLogical then (left.intToBool, right.intToBool)
  else if op.isEquality then
    match left, right with
    | .int _, .bool _ => (left.intToBool, right)
    | .bool _, .int _ => (left, right.intToBool)
    | _, _ => (left, right)
  else (left, right)

end BinaryOp

/-- The quotient rounded down.  The remainder tells whether the truncated one lies above it. -/
def floorDiv (a b : Int64) : Int64 :=
  let quotient := a / b
  if a % b ≠ 0 ∧ decide (a < 0) ≠ decide (b < 0) then quotient - 1 else quotient

/-- What an operator does with two operands of one kind. -/
inductive Primitive
  | addInt | subInt | mulInt | divInt
  | ltInt | leInt | gtInt | geInt
  | andBool | orBool
  | concat
deriving DecidableEq, Repr

namespace Primitive

/-- The kind of the operands. -/
def kind : Primitive → Kind
  | addInt | subInt | mulInt | divInt | ltInt | leInt | gtInt | geInt => .int
  | andBool | orBool => .bool
  | concat => .string

/-- The result, or `none` if an operand is of another kind than the primitive takes. -/
def compute? : Primitive → Value → Value → Option (Except RuntimeError.Cause Value)
  | addInt, .int a, .int b => some (.ok (.int (a + b)))
  | subInt, .int a, .int b => some (.ok (.int (a - b)))
  | mulInt, .int a, .int b => some (.ok (.int (a * b)))
  | divInt, .int a, .int b =>
    some (if b = 0 then .error .divisionByZero else .ok (.int (floorDiv a b)))
  | ltInt, .int a, .int b => some (.ok (.bool (a < b)))
  | leInt, .int a, .int b => some (.ok (.bool (a ≤ b)))
  | gtInt, .int a, .int b => some (.ok (.bool (a > b)))
  | geInt, .int a, .int b => some (.ok (.bool (a ≥ b)))
  | andBool, .bool a, .bool b => some (.ok (.bool (a && b)))
  | orBool, .bool a, .bool b => some (.ok (.bool (a || b)))
  | concat, .str a, .str b => some (.ok (.str (a ++ b)))
  | _, _, _ => none

end Primitive

/-- Which primitive an operator stands for, by the kind of its operands. -/
structure OperatorTable where
  lookup : BinaryOp → Kind → Option Primitive

namespace OperatorTable

def empty : OperatorTable := ⟨fun _ _ => none⟩

def register (t : OperatorTable) (op : BinaryOp) (kind : Kind) (p : Primitive) : OperatorTable :=
  ⟨fun op' kind' => if op' = op ∧ kind' = kind then some p else t.lookup op' kind'⟩

/-- The operators of the language. -/
def standard : OperatorTable where
  lookup
    | .add, .int => some .addInt
    | .sub, .int => some .subInt
    | .mul, .int => some .mulInt
    | .div, .int => some .divInt
    | .lt, .int => some .ltInt
    | .le, .int => some .leInt
    | .gt, .int => some .gtInt
    | .ge, .int => some .geInt
    | .and, .bool => some .andBool
    | .or, .bool => some .orBool
    | .add, .string => some .concat
    | _, _ => none

/-- The value of a binary operation. -/
def eval (t : OperatorTable) (op : BinaryOp) (left right : Value) :
    Except RuntimeError.Cause Value :=
  let (l, r) := op.coerce left right
  if op.isEquality then .ok (.bool (if op = .eq then l.same r else !l.same r))
  else
    let undefinedHere := .error (.binaryUndefined op l.kind r.kind)
    if l.kind = r.kind then
      match t.lookup op l.kind with
      | some p => (p.compute? l r).getD undefinedHere
      | none => undefinedHere
    else undefinedHere

end OperatorTable

namespace UnaryOp

/-- The value of a unary operation.  `!` takes an integer as a truth value; `-` takes no truth
value. -/
def eval : UnaryOp → Value → Except RuntimeError.Cause Value
  | neg, .int n => .ok (.int (-n))
  | neg, v => .error (.unaryUndefined .neg v.kind)
  | not, v =>
    match v.intToBool with
    | .bool b => .ok (.bool !b)
    | other => .error (.unaryUndefined .not other.kind)

end UnaryOp

end Protoscript
