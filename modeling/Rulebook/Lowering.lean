import Rulebook.Fresh
import Rulebook.Inlining
import Rulebook.Report
import Rulebook.Typing

/-!
# Lowering

A checked program is lowered to its variables and a single expression that calls nothing but
provided functions: fresh names, bounded recursion expanded, functions inlined. With folding,
constants are folded in every body before it is inlined, and once more in the initial values and
in the result.

* `TypedProgram.lower` lowers a checked program;
* `RawProgram.compile` checks and lowers.
-/

namespace Rulebook

/-- How programs are compiled. -/
structure Options where
  /-- Whether constants are folded. -/
  fold : Bool := true
  deriving DecidableEq

namespace Report

/-- Folds an expression if folding is on. -/
def foldIf (fold : Bool) (e : TypedExpr) : Report TypedExpr :=
  if fold then .ofFolding e else .ofValue e

end Report

/-- Expands the recursion of a function and folds its body. -/
def FunDecl.prepare (fold : Bool) (f : FunDecl Mark) : Report (FunDecl Mark) := do
  let f ← .ofExcept f.expandRecursion
  match f.body with
  | none => return f
  | some body =>
    let body ← .foldIf fold body
    return { f with body := some body }

/-- Folds the initial value of a variable. -/
def VarDecl.prepare (fold : Bool) (v : VarDecl Mark) : Report (VarDecl Mark) := do
  let init ← .foldIf fold v.init
  return { v with init }

/-- Lowers a checked program. -/
def TypedProgram.lower (p : TypedProgram) (fold : Bool) : Report LoweredProgram := do
  let p ← .ofExcept p.freshen
  let functions ← p.functions.mapM (FunDecl.prepare fold)
  let main ← .ofExcept (inlineAll functions)
  let vs ← p.variables.mapM (VarDecl.prepare fold)
  let main ← .foldIf fold main
  return ⟨vs, main, p.library⟩

namespace RawProgram

/-- Checks and lowers a program. -/
def compile (p : RawProgram) (lib : Option Library) (options : Options) :
    Report LoweredProgram := do
  let p ← .ofExcept (p.check lib)
  p.lower options.fold

/-- Compiles independent programs against one library. -/
def compileEach (ps : List RawProgram) (lib : Option Library) (options : Options) :
    List (Report LoweredProgram) :=
  ps.map fun p => p.compile lib options

end RawProgram

end Rulebook
