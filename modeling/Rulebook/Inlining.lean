import Rulebook.Program
import Rulebook.Substitution

/-!
# Inlining

A call is inlined by putting the function's body in its place, with the arguments for the
parameters. Arguments are expressions and go in unevaluated, so this is call by name.

* `Expr.inline` inlines one function, innermost calls first, and does not search the bodies it
  puts in;
* `FunDecl.expandRecursion` repeats that with the function's own body as often as its recursion
  bound says, and then replaces the calls that are left;
* `inlineAll` inlines all functions of a program into the last one, from the back to the front,
  so that every call meets the body it needs.
-/

namespace Rulebook

/-- A function with a body, as inlining sees it. -/
structure Callee where
  name : String
  /-- The names of the parameters. -/
  params : List String
  body : TypedExpr
  /-- The line of the declaration. -/
  line : Line
  deriving DecidableEq

/-- The function as inlining sees it, unless it is provided. -/
def FunDecl.callee? (f : FunDecl Mark) : Option Callee :=
  f.body.map fun body =>
    { name := f.name, params := f.params.map Param.name, body, line := f.line }

namespace Callee

/-- The body with the arguments of a call for the parameters. -/
def apply (f : Callee) (args : List TypedExpr) : Except Defect TypedExpr :=
  f.body.substitute (.ofArgs f.params args)

end Callee

namespace Expr

mutual

/-- Replaces every call of `f` by its body. -/
def inline (f : Callee) : TypedExpr → Except Defect TypedExpr
  | .lit m v => .ok (.lit m v)
  | .var m x => .ok (.var m x)
  | .not m e => do return .not m (← e.inline f)
  | .call m g args => do
    let args ← inlineArgs f args
    if g = f.name then f.apply args else .ok (.call m g args)
  | .binary m op l r => do return .binary m op (← l.inline f) (← r.inline f)
  | .cond m c t e => do
    return .cond m (← c.inline f) (← t.inline f) (← e.inline f)
  | .assign m x e => do return .assign m x (← e.inline f)
  | .seq m a b => do return .seq m (← a.inline f) (← b.inline f)

/-- Replaces the calls of `f` in every argument. -/
def inlineArgs (f : Callee) : List TypedExpr → Except Defect (List TypedExpr)
  | [] => .ok []
  | e :: es => do return (← e.inline f) :: (← inlineArgs f es)

end

theorem inlineArgs_eq_mapM (f : Callee) (es : List TypedExpr) :
    inlineArgs f es = es.mapM (inline f) := by
  induction es with
  | nil => rfl
  | cons e es ih => rw [inlineArgs, ih, List.mapM_cons]

/-- Replaces the calls of `f` a number of times over. -/
def inlineTimes (f : Callee) : Nat → TypedExpr → Except Defect TypedExpr
  | 0, e => .ok e
  | n + 1, e => do inlineTimes f n (← e.inline f)

mutual

/-- Replaces every outermost call of the function named `f` by `d`, arguments and all. -/
def cutCalls (f : String) (d : TypedExpr) : TypedExpr → TypedExpr
  | .lit m v => .lit m v
  | .var m x => .var m x
  | .not m e => .not m (cutCalls f d e)
  | .call m g args => if g = f then d else .call m g (cutCallsArgs f d args)
  | .binary m op l r => .binary m op (cutCalls f d l) (cutCalls f d r)
  | .cond m c t e => .cond m (cutCalls f d c) (cutCalls f d t) (cutCalls f d e)
  | .assign m x e => .assign m x (cutCalls f d e)
  | .seq m a b => .seq m (cutCalls f d a) (cutCalls f d b)

/-- Replaces the outermost calls of `f` in every argument. -/
def cutCallsArgs (f : String) (d : TypedExpr) : List TypedExpr → List TypedExpr
  | [] => []
  | e :: es => cutCalls f d e :: cutCallsArgs f d es

end

@[simp] theorem cutCallsArgs_eq_map (f : String) (d : TypedExpr) (es : List TypedExpr) :
    cutCallsArgs f d es = es.map (cutCalls f d) := by
  induction es with
  | nil => rfl
  | cons e es ih => rw [cutCallsArgs, ih, List.map_cons]

end Expr

/-! ## Bounded recursion -/

/-- The body of `f` with its calls of itself expanded as often as the bound says, and those that
are left replaced by the value beyond the bound. -/
def Callee.expand (f : Callee) (bound : Recursion Mark) : Except Defect TypedExpr := do
  let body ← f.body.inlineTimes f bound.depth.toNat
  return .cutCalls f.name bound.fallback body

/-- The function without its recursion bound. -/
def FunDecl.expandRecursion (f : FunDecl Mark) : Except Defect (FunDecl Mark) :=
  match f.recursion, f.callee? with
  | none, _ => .ok f
  | some _, none => .ok { f with recursion := none }
  | some bound, some callee => do
    let body ← callee.expand bound
    return { f with recursion := none, body := some body }

/-! ## Whole programs -/

/-- Inlines functions one after the other. -/
def inlineEach : List Callee → TypedExpr → Except Defect TypedExpr
  | [], e => .ok e
  | f :: fs, e => do inlineEach fs (← e.inline f)

/-- The body of the last function that has one, with the others inlined. That function is the
entry and takes no parameters. -/
def inlineAll (functions : List (FunDecl Mark)) : Except Defect TypedExpr :=
  match (functions.filterMap FunDecl.callee?).reverse with
  | [] => .error .noEntry
  | entry :: others =>
    if entry.params.isEmpty then inlineEach others entry.body
    else .error (.entryTakesParams entry.name entry.line)

end Rulebook
