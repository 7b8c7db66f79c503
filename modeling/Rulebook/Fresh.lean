import Rulebook.Program
import Rulebook.Substitution

/-!
# Fresh names

Every variable and every parameter of a function with a body gets a name of its own, `_var0`,
`_var1`, … in order of declaration, and every use follows its declaration. A variable's initial
value sees the variables before it; a body sees its function's parameters and then all
variables, a later declaration of a name hiding an earlier one; the value beyond a recursion
bound sees the variables only. Functions keep their names, and provided functions are left
alone.
-/

namespace Rulebook

/-- A supply of fresh names. It never runs out: names are numbered without a bound, and programs
with `2 ^ 32` binders or more, whose numbers 32 bits do not hold, are out of scope. -/
structure FreshNames where
  /-- The number of the next name. -/
  next : Nat
  deriving DecidableEq

namespace FreshNames

/-- The supply from which no name has been drawn. -/
def start : FreshNames := ⟨0⟩

/-- The next name, and the supply after it. -/
def fresh (n : FreshNames) : String × FreshNames := ("_var" ++ n.next.repr, ⟨n.next + 1⟩)

/-- The next `count` names, and the supply after them. -/
def draw (n : FreshNames) : Nat → List String × FreshNames
  | 0 => ([], n)
  | count + 1 =>
    let (name, n) := n.fresh
    let (names, n) := n.draw count
    (name :: names, n)

end FreshNames

/-- Renames variables in order. The substitution maps the variables seen so far to their new
names. -/
def freshenVariables (globals : Substitution) (names : FreshNames) :
    List (VarDecl Mark) → Except Defect (List (VarDecl Mark) × Substitution × FreshNames)
  | [] => .ok ([], globals, names)
  | v :: vs => do
    let init ← v.init.substitute globals
    let (name, names) := names.fresh
    let globals := globals.bind v.name (.var ⟨.int, v.line⟩ name)
    let (vs, globals, names) ← freshenVariables globals names vs
    return ({ v with name, init } :: vs, globals, names)

/-- Renames the parameters of a function declared on `line` and extends the substitution by
them. -/
def freshenParams (line : Line) (s : Substitution) (names : FreshNames) :
    List Param → List Param × Substitution × FreshNames
  | [] => ([], s, names)
  | p :: ps =>
    let (name, names) := names.fresh
    let (ps, s, names) := freshenParams line (s.bind p.name (.var ⟨p.ty, line⟩ name)) names ps
    ({ p with name } :: ps, s, names)

/-- Renames the parameters and the names inside a function. -/
def FunDecl.freshen (f : FunDecl Mark) (globals : Substitution) (names : FreshNames) :
    Except Defect (FunDecl Mark × FreshNames) :=
  match f.body with
  | none => .ok (f, names)
  | some body => do
    let (params, scope, names) := freshenParams f.line globals names f.params
    let recursion ← f.recursion.mapM fun rec => do
      let fallback ← rec.fallback.substitute globals
      return { rec with fallback }
    let body ← body.substitute scope
    return ({ f with params, recursion, body := some body }, names)

/-- Renames functions in order. -/
def freshenFunctions (globals : Substitution) (names : FreshNames) :
    List (FunDecl Mark) → Except Defect (List (FunDecl Mark))
  | [] => .ok []
  | f :: fs => do
    let (f, names) ← f.freshen globals names
    return f :: (← freshenFunctions globals names fs)

/-- The program with fresh names for all variables and parameters. -/
def TypedProgram.freshen (p : TypedProgram) : Except Defect TypedProgram := do
  let (vs, globals, names) ← freshenVariables .empty .start p.variables
  let functions ← freshenFunctions globals names p.functions
  return ⟨vs, functions, p.library⟩

end Rulebook
