import Protoscript.Token

/-! # Syntax trees

Expressions, statements and definitions, each with the place it is reported at.  A lambda holds
its own definition, so the three kinds of tree are defined together. -/

set_option autoImplicit false

namespace Protoscript

inductive BinaryOp
  | add | sub | mul | div
  | eq | ne | lt | le | gt | ge
  | and | or
deriving DecidableEq, Repr

namespace BinaryOp

def all : List BinaryOp := [add, sub, mul, div, eq, ne, lt, le, gt, ge, and, or]

theorem mem_all (op : BinaryOp) : op ∈ all := by cases op <;> decide

/-- The sign that spells the operator. -/
def sign : BinaryOp → Sign
  | add => .plus
  | sub => .minus
  | mul => .star
  | div => .slash
  | eq => .equal
  | ne => .notEqual
  | lt => .less
  | le => .lessEqual
  | gt => .greater
  | ge => .greaterEqual
  | and => .and
  | or => .or

def symbol (op : BinaryOp) : String := String.ofList op.sign.spelling

def ofSign? (s : Sign) : Option BinaryOp := all.find? (·.sign = s)

theorem ofSign?_sign (op : BinaryOp) : ofSign? op.sign = some op := by cases op <;> decide

/-- How loosely the operator binds, from 1 for products to 5 for `||`. -/
def tier : BinaryOp → Nat
  | mul | div => 1
  | add | sub => 2
  | eq | ne | lt | le | gt | ge => 3
  | and => 4
  | or => 5

def isArithmetic : BinaryOp → Bool
  | add | sub | mul | div => true
  | _ => false

def isEquality : BinaryOp → Bool
  | eq | ne => true
  | _ => false

def isLogical : BinaryOp → Bool
  | and | or => true
  | _ => false

end BinaryOp

inductive UnaryOp
  | neg | not
deriving DecidableEq, Repr

namespace UnaryOp

def sign : UnaryOp → Sign
  | neg => .minus
  | not => .bang

def symbol (op : UnaryOp) : String := String.ofList op.sign.spelling

end UnaryOp

/-- A parameter.  The caller's variable receives the final value of one passed by reference. -/
structure Param where
  name : String
  byRef : Bool
  position : Position
deriving DecidableEq

mutual

inductive Expr
  | int (value : Int64) (position : Position)
  | bool (value : Bool) (position : Position)
  | str (text : String) (position : Position)
  | nil (position : Position)
  | var (name : String) (position : Position)
  /-- A fresh object without fields or prototype. -/
  | object (position : Position)
  | member (object : Expr) (field : String) (position : Position)
  | call (callee : String) (args : List Expr) (position : Position)
  | method (object : Expr) (name : String) (args : List Expr) (position : Position)
  | binary (op : BinaryOp) (left right : Expr) (position : Position)
  | unary (op : UnaryOp) (operand : Expr) (position : Position)
  | lambda (definition : Definition)

inductive Stmt
  /-- Stores a value under a dotted path: one name is a variable, more reach into objects. -/
  | assign (target : List String) (value : Expr) (position : Position)
  | call (expr : Expr)
  | branch (condition : Expr) (yes : List Stmt) (no : Option (List Stmt)) (position : Position)
  | loop (condition : Expr) (body : List Stmt) (position : Position)
  | ret (value : Option Expr) (position : Position)

/-- A named function, or a lambda, which is named `lambda`. -/
structure Definition where
  name : String
  params : List Param
  body : List Stmt
  position : Position

end

namespace Definition

def arity (d : Definition) : Nat := d.params.length

/-- What tells the functions of a program apart. -/
def signature (d : Definition) : String × Nat := (d.name, d.arity)

end Definition

namespace Expr

def position : Expr → Position
  | int _ p | bool _ p | str _ p | nil p | var _ p | object p | member _ _ p | call _ _ p
  | method _ _ _ p | binary _ _ _ p | unary _ _ p => p
  | lambda definition => definition.position

/-- Whether the expression may stand alone as a statement. -/
def isCall : Expr → Bool
  | call .. | method .. => true
  | _ => false

end Expr

def Stmt.position : Stmt → Position
  | assign _ _ p | branch _ _ _ p | loop _ _ p | ret _ p => p
  | call expr => expr.position

end Protoscript
