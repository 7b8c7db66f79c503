import Rulebook.Bindings
import Rulebook.Defect
import Rulebook.Expr.Basic

/-!
# Values, memories and run-time errors

A value is nothing, an integer or a truth value. A memory holds the values of variables by name.
-/

namespace Rulebook

/-- A value of a running program. -/
inductive Value where
  | void
  | int (n : Int32)
  | bool (b : Bool)
  deriving DecidableEq

namespace Value

/-- The value of a literal. -/
def ofLiteral : Literal → Value
  | .int n => .int n
  | .bool b => .bool b

/-- The value of a type that stands for "nothing to report". -/
def ofTy : Ty → Value
  | .int => .int 0
  | .bool => .bool false
  | .void | .fn .. => .void

/-- The text of a value in messages. -/
def text : Value → String
  | .void => "Void"
  | .int n => "Int(" ++ Literal.intText n.toInt ++ ")"
  | .bool b => "Bool(" ++ Literal.boolText b ++ ")"

end Value

/-- The values of variables by name. -/
abbrev Memory := Bindings Value

/-- What can go wrong while a program runs. -/
inductive RunError where
  | unbound (name : String) (line : Line)
  /-- A value of the wrong kind. -/
  | wrongKind (expected : Ty) (found : Value) (line : Line)
  /-- A list of rules none of whose conditions holds. -/
  | noRuleApplies
  deriving DecidableEq

/-- The wording of a run-time error. -/
def RunError.message : RunError → String
  | .unbound name line =>
    atLine line ("variable `" ++ name ++ "` is not in memory")
  | .wrongKind expected found line =>
    atLine line
      ("expected a value of type `" ++ expected.text ++ "`, found " ++ found.text)
  | .noRuleApplies => "no guarded command matched"

end Rulebook
