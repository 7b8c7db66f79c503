import Rulebook.Ty

/-!
# Literals

A literal is a 32-bit integer or a truth value. `Literal.ofToken?` reads one from a token,
`Literal.text` writes it; the integers are written in decimal, with a `-` when negative.
-/

namespace Rulebook

/-- A constant of the language. -/
inductive Literal where
  | int (value : Int32)
  | bool (value : Bool)
  deriving DecidableEq

namespace Literal

/-- The type of a literal. -/
def ty : Literal → Ty
  | .int _ => .int
  | .bool _ => .bool

/-- The text of a truth value. -/
def boolText : Bool → String
  | true => "true"
  | false => "false"

/-- The decimal text of an integer. -/
def intText (n : Int) : String :=
  if n < 0 then "-" ++ n.natAbs.repr else n.natAbs.repr

/-- The text of a literal. -/
def text : Literal → String
  | .int n => intText n.toInt
  | .bool b => boolText b

/-! ## Reading -/

/-- The literal with the given integer value, if 32 bits hold it. -/
def ofInt? (n : Int) : Option Literal :=
  if -2147483648 ≤ n ∧ n ≤ 2147483647 then some (.int (Int32.ofInt n)) else none

/-- The value of one or more decimal digits, leading zeros allowed. -/
def magnitude? (digits : List Char) : Option Nat :=
  if digits ≠ [] ∧ digits.all Char.isDigit then some (Nat.ofDigitChars 10 digits 0) else none

/-- An optional single sign followed by digits. -/
def integer? : List Char → Option Int
  | '-' :: digits => (magnitude? digits).map fun n => -(n : Int)
  | '+' :: digits => (magnitude? digits).map fun n => (n : Int)
  | digits => (magnitude? digits).map fun n => (n : Int)

/-- The literal a token denotes, if it denotes one. -/
def ofToken? (token : String) : Option Literal :=
  if token = "true" then some (.bool true)
  else if token = "false" then some (.bool false)
  else (integer? token.toList).bind ofInt?

end Literal

end Rulebook
