import Rulebook.Literal

/-!
# Binary operators

The thirteen binary operators, their classes, and what they compute. Integer arithmetic wraps
around at 32 bits and division truncates toward zero. `Operator.onInts?` and
`Operator.onBools?` have no value where an operator does not apply: division and remainder by
zero, logic on integers, order and arithmetic on truth values.
-/

namespace Rulebook

/-- A binary operator. -/
inductive Operator where
  | mul
  | div
  | mod
  | add
  | sub
  | lt
  | le
  | gt
  | ge
  | eq
  | ne
  | and
  | or
  deriving DecidableEq

/-- The classes of operators; the class fixes the types of operands and result. -/
inductive OperatorClass where
  | arithmetic
  | comparison
  | equality
  | logical
  deriving DecidableEq

namespace Operator

/-- The operator as it is written. -/
def symbol : Operator → String
  | .mul => "*"
  | .div => "/"
  | .mod => "%"
  | .add => "+"
  | .sub => "-"
  | .lt => "<"
  | .le => "<="
  | .gt => ">"
  | .ge => ">="
  | .eq => "=="
  | .ne => "!="
  | .and => "&&"
  | .or => "||"

/-- All operators. -/
def all : List Operator :=
  [.mul, .div, .mod, .add, .sub, .lt, .le, .gt, .ge, .eq, .ne, .and, .or]

/-- The operator with the given symbol. -/
def ofSymbol? (symbol : String) : Option Operator :=
  all.find? fun op => op.symbol = symbol

/-- The class of an operator. -/
def cls : Operator → OperatorClass
  | .mul | .div | .mod | .add | .sub => .arithmetic
  | .lt | .le | .gt | .ge => .comparison
  | .eq | .ne => .equality
  | .and | .or => .logical

/-- The binding strength: a smaller number binds tighter. -/
def precedence : Operator → Nat
  | .mul | .div | .mod => 1
  | .add | .sub => 2
  | .lt | .le | .gt | .ge => 3
  | .eq | .ne => 4
  | .and => 5
  | .or => 6

/-- The type of the result. -/
def resultTy (op : Operator) : Ty :=
  match op.cls with
  | .arithmetic => .int
  | .comparison | .equality | .logical => .bool

/-- The type both operands must have; equality takes any type, as long as it is the same on both
sides. -/
def operandTy? (op : Operator) : Option Ty :=
  match op.cls with
  | .arithmetic | .comparison => some .int
  | .equality => none
  | .logical => some .bool

/-- The operator on two integers. -/
def onInts? (op : Operator) (a b : Int32) : Option Literal :=
  match op with
  | .mul => some (.int (a * b))
  | .div => if b = 0 then none else some (.int (a / b))
  | .mod => if b = 0 then none else some (.int (a % b))
  | .add => some (.int (a + b))
  | .sub => some (.int (a - b))
  | .lt => some (.bool (a < b))
  | .le => some (.bool (a ≤ b))
  | .gt => some (.bool (b < a))
  | .ge => some (.bool (b ≤ a))
  | .eq => some (.bool (a = b))
  | .ne => some (.bool (a ≠ b))
  | .and | .or => none

/-- The operator on two truth values. -/
def onBools? (op : Operator) (a b : Bool) : Option Literal :=
  match op with
  | .and => some (.bool (a && b))
  | .or => some (.bool (a || b))
  | .eq => some (.bool (a = b))
  | .ne => some (.bool (a ≠ b))
  | _ => none

end Operator

end Rulebook
