import Rulebook.Machine.Eval
import Rulebook.Substitution

/-!
# Call by name

A direct interpretation of checked programs, without renaming, expansion or inlining. An expression
is a reference: it can be read, which evaluates it, and if it names a variable, it can be written
as well. A parameter stands for its argument as a reference in the scope of the caller, so an
argument is evaluated anew at every use of the parameter, and an assignment to the parameter assigns
the variable that the argument names. A call refers to what the function's body refers to.

* `Expr.interpret` gives an expression as a reference;
* `FunDecl.procedure` says what a call of a function does; a function whose recursion is bounded
  has one level for its body and one for each step of the bound, and below the last the value
  beyond the bound stands for its calls;
* `TypedProgram.interpret` initialises the variables and runs the last function with a body.
-/

namespace Rulebook

variable {σ : Type}

/-- What can be read and, maybe, written. -/
structure Reference (σ : Type) where
  /-- Gives the value. -/
  read : EvalM σ Value
  /-- Assigns a value. -/
  write : Value → EvalM σ Unit

/-- An expression with a value that names no variable. -/
def Reference.ofValue (e : TypedExpr) (value : EvalM σ Value) : Reference σ :=
  ⟨value, fun _ => throw (.unbound e.text e.line)⟩

/-- What the names in scope stand for, where they are used on a line. -/
abbrev Env (σ : Type) := String → Line → Reference σ

/-- The scope of the variables. -/
def Env.global : Env σ := fun x line => ⟨EvalM.load x line, EvalM.store x⟩

/-- The scope in which `x` stands for `p`. -/
def Env.bind (env : Env σ) (x : String) (p : Reference σ) : Env σ :=
  fun y line => if y = x then p else env y line

/-- The scope in which parameters stand for arguments, later ones on top. -/
def Env.enter (env : Env σ) : List Param → List (Reference σ) → Env σ
  | q :: params, p :: args => Env.enter (env.bind q.name p) params args
  | _, _ => env

/-- What the functions with a body do, given their arguments as references; the host provides the
others. -/
abbrev Procedures (σ : Type) := String → Option (List (Reference σ) → Reference σ)

/-- The procedures with one more. -/
def Procedures.define (procs : Procedures σ) (f : String)
    (proc : List (Reference σ) → Reference σ) : Procedures σ :=
  fun g => if g = f then some proc else procs g

namespace Expr

mutual

/-- An expression as a reference. -/
def interpret (h : Host σ) (env : Env σ) (procs : Procedures σ) : TypedExpr → Reference σ
  | .lit m v => .ofValue (.lit m v) (return .ofLiteral v)
  | .var m x => env x m.line
  | .not m e => .ofValue (.not m e) do
    let b ← EvalM.truth e (← (e.interpret h env procs).read)
    return .bool !b
  | .call m f args =>
    match procs f with
    | some proc => proc (interpretArgs h env procs args)
    | none => .ofValue (.call m f args) do
      let vs ← (interpretArgs h env procs args).mapM Reference.read
      EvalM.call h f vs m.ty
  | .binary m op l r => .ofValue (.binary m op l r) do
    let a ← (l.interpret h env procs).read
    let b ← (r.interpret h env procs).read
    match op.onValues? a b with
    | some v => return .ofLiteral v
    | none => throw (.wrongKind l.ty b m.line)
  | .cond m c t e => .ofValue (.cond m c t e) do
    let b ← EvalM.truth c (← (c.interpret h env procs).read)
    if b then (t.interpret h env procs).read else (e.interpret h env procs).read
  | .assign m x e => .ofValue (.assign m x e) do
    let v ← (e.interpret h env procs).read
    (env x m.line).write v
    return .void
  | .seq m a b => .ofValue (.seq m a b) do
    let _ ← (a.interpret h env procs).read
    let _ ← (b.interpret h env procs).read
    return .void

/-- Arguments as references. -/
def interpretArgs (h : Host σ) (env : Env σ) (procs : Procedures σ) :
    List TypedExpr → List (Reference σ)
  | [] => []
  | e :: es => e.interpret h env procs :: interpretArgs h env procs es

end

theorem interpretArgs_eq_map (h : Host σ) (env : Env σ) (procs : Procedures σ)
    (es : List TypedExpr) : interpretArgs h env procs es = es.map (interpret h env procs) := by
  induction es with
  | nil => rfl
  | cons e es ih => rw [interpretArgs, ih, List.map_cons]

end Expr

namespace FunDecl

/-- What a call of a function with a bounded recursion does at a level: at level `0` the call has
the value beyond the bound, and its arguments are dropped; above, the body is interpreted, whose
own calls are one level down. -/
def levels (h : Host σ) (procs : Procedures σ) (f : FunDecl Mark) (body fallback : TypedExpr) :
    Nat → List (Reference σ) → Reference σ
  | 0, _ => fallback.interpret h .global procs
  | n + 1, args =>
    body.interpret h (Env.enter .global f.params args)
      (procs.define f.name (f.levels h procs body fallback n))

/-- What a call of a function with the given body does. -/
def procedure (h : Host σ) (procs : Procedures σ) (f : FunDecl Mark) (body : TypedExpr) :
    List (Reference σ) → Reference σ :=
  match f.recursion with
  | none => fun args => body.interpret h (Env.enter .global f.params args) procs
  | some bound => f.levels h procs body bound.fallback (bound.depth.toNat + 1)

end FunDecl

/-- Defines a function, unless it is provided. -/
def Procedures.declare (h : Host σ) (procs : Procedures σ) (f : FunDecl Mark) : Procedures σ :=
  match f.body with
  | none => procs
  | some body => procs.define f.name (f.procedure h procs body)

/-- What functions do, each of which may call those before it. -/
def procedures (h : Host σ) (fs : List (FunDecl Mark)) : Procedures σ :=
  fs.foldl (Procedures.declare h) fun _ => none

namespace TypedProgram

/-- The last function with a body. -/
def main? (p : TypedProgram) : Option (FunDecl Mark) :=
  p.functions.reverse.find? fun f => !f.isProvided

/-- Gives the variables their initial values and calls the entry. The initial values of a checked
program call provided functions only, since they are checked before any function with a body is in
scope; so to evaluate one is to read it by name (`Expr.read_interpret`). -/
def interpret (h : Host σ) (p : TypedProgram) : EvalM σ Unit := do
  initVariables h p.variables
  match p.main?.bind fun f => procedures h p.functions f.name with
  | some proc =>
    let _ ← (proc []).read
    return ()
  | none => return ()

end TypedProgram

end Rulebook
