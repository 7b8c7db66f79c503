import Rulebook.Ty
import Rulebook.Expr.Basic

/-!
# Defects

What can be wrong with a program, with the code, the line and the wording of each defect.
-/

namespace Rulebook

/-- A message about a line. -/
def atLine (line : Line) (what : String) : String := "line " ++ line.toNat.repr ++ ": " ++ what

/-- What the place of an expression asks for. -/
inductive Expected where
  | ty (t : Ty)
  /-- Any function, at the target of a call. -/
  | function
  deriving DecidableEq

/-- The text of an expectation. -/
def Expected.text : Expected → String
  | .ty t => t.text
  | .function => "<function>"

/-- A defect of a program. -/
inductive Defect where
  /-- A second top-level declaration of a name. -/
  | duplicateName (name : String) (line : Line)
  | unknownName (name : String) (line : Line)
  /-- An assignment whose target came to stand for something that is not a variable. -/
  | badTarget (found : String) (line : Line)
  | wrongArity (function : String) (expected actual : Nat) (line : Line)
  | wrongType (expected : Expected) (actual : Ty) (line : Line)
  /-- A library operation that programs cannot call. -/
  | uncallableOperation (library name : String)
  | badLiteral (text : String) (line : Line)
  | noEntry
  /-- An entry function that takes parameters. -/
  | entryTakesParams (name : String) (line : Line)
  deriving DecidableEq

namespace Defect

/-- The code of a defect. -/
def code : Defect → String
  | .duplicateName .. => "E2006"
  | .unknownName .. => "E2003"
  | .badTarget .. => "E2030"
  | .wrongArity .. => "E2004"
  | .wrongType .. => "E2001"
  | .uncallableOperation .. => "E2040"
  | .badLiteral .. => "E0003"
  | .noEntry => "E2050"
  | .entryTakesParams .. => "E2051"

/-- The line of a defect, for those that have one. -/
def line? : Defect → Option Line
  | .duplicateName _ line | .unknownName _ line | .badTarget _ line
  | .wrongArity _ _ _ line | .wrongType _ _ line | .badLiteral _ line
  | .entryTakesParams _ line => some line
  | .uncallableOperation .. | .noEntry => none

/-- The wording of a defect. -/
def message : Defect → String
  | .duplicateName name line => atLine line ("`" ++ name ++ "` is already declared")
  | .unknownName name line => atLine line ("undefined identifier `" ++ name ++ "`")
  | .badTarget found line =>
    atLine line ("cannot assign to `" ++ found ++ "`, expected a variable name")
  | .wrongArity function expected actual line =>
    atLine line ("`" ++ function ++ "` takes " ++ expected.repr ++ " argument(s) but " ++
      actual.repr ++ " were supplied")
  | .wrongType expected actual line =>
    atLine line ("expected `" ++ expected.text ++ "`, found `" ++ actual.text ++ "`")
  | .uncallableOperation library name =>
    "runtime `" ++ library ++ "`: operation `" ++ name ++
      "` has a signature that cannot be exposed"
  | .badLiteral text line => atLine line ("invalid literal `" ++ text ++ "`")
  | .noEntry => "program has no entry function"
  | .entryTakesParams name line =>
    atLine line ("entry function `" ++ name ++ "` must not take parameters")

end Defect

/-- The literal a token denotes; a token that denotes none is a defect. -/
def Literal.ofToken (token : String) (line : Line) : Except Defect Literal :=
  match Literal.ofToken? token with
  | some v => .ok v
  | none => .error (.badLiteral token line)

end Rulebook
