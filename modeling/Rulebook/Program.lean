import Rulebook.Expr.Basic
import Rulebook.Library

/-!
# Programs

A program declares variables and functions. A function without a body is provided by the host; a
function that calls itself bounds its own recursion by a depth and a value for the calls beyond
it. The same declarations hold raw expressions before checking and typed ones after it, and
lowering leaves the variables and a single main expression.
-/

namespace Rulebook

/-- A function parameter. -/
structure Param where
  name : String
  ty : Ty
  deriving DecidableEq

/-- The bound on a function's recursion. -/
structure Recursion (μ : Type) where
  /-- How often calls of the function itself are expanded. -/
  depth : UInt32
  /-- What stands for the calls that are left. -/
  fallback : Expr μ
  deriving DecidableEq

/-- A variable, which holds an integer, and its initial value. -/
structure VarDecl (μ : Type) where
  name : String
  init : Expr μ
  line : Line
  deriving DecidableEq

/-- A function. -/
structure FunDecl (μ : Type) where
  name : String
  params : List Param
  ret : Ty
  recursion : Option (Recursion μ)
  /-- The body; a function without one is provided by the host. -/
  body : Option (Expr μ)
  line : Line
  deriving DecidableEq

namespace FunDecl

variable {μ : Type}

/-- Whether the host provides the function. -/
def isProvided (f : FunDecl μ) : Bool := f.body.isNone

/-- The type of a function. -/
def ty (f : FunDecl μ) : Ty := .fn (f.params.map Param.ty) f.ret

end FunDecl

/-- A program as written. -/
structure RawProgram where
  «variables» : List (VarDecl Line)
  functions : List (FunDecl Line)
  deriving DecidableEq

/-- A checked program; its functions begin with those of the library. -/
structure TypedProgram where
  «variables» : List (VarDecl Mark)
  functions : List (FunDecl Mark)
  library : Option Library
  deriving DecidableEq

/-- A program without functions. -/
structure LoweredProgram where
  «variables» : List (VarDecl Mark)
  main : TypedExpr
  library : Option Library
  deriving DecidableEq

end Rulebook
