import Rulebook.Bindings
import Rulebook.Defect
import Rulebook.Program

/-!
# Type checking

Checking a program either finds its first defect or marks every node with its type. Members are
checked in a fixed order, each seeing only what stands before it: the operations of the library,
the variables, the functions. A function's body sees the function itself only if its recursion
is bounded, and its parameters on top; the value for the calls beyond the bound sees neither.

* `Expr.check` checks an expression in a scope;
* `RawProgram.check` checks a program against a library.
-/

namespace Rulebook

open Defect (unknownName wrongType wrongArity duplicateName
  uncallableOperation)

/-! ## Expressions -/

/-- The types of the names in scope. -/
abbrev Scope := Bindings Ty

/-- The type of a name that is used on `line`. -/
def Scope.resolve (s : Scope) (name : String) (line : Line) : Except Defect Ty :=
  match s.find? name with
  | some t => .ok t
  | none => .error (unknownName name line)

namespace Expr

/-- Refuses an expression of any type but `t`. -/
def expect (t : Ty) (e : TypedExpr) : Except Defect Unit :=
  if e.ty = t then .ok () else .error (wrongType (.ty t) e.ty e.line)

/-- Refuses operands that an operator does not take. -/
def expectOperands (op : Operator) (l r : TypedExpr) : Except Defect Unit :=
  match op.operandTy? with
  | some t => do
    expect t l
    expect t r
  | none => expect l.ty r

/-- The parameter types and the return type of a call's target. -/
def signatureOf (line : Line) : Ty → Except Defect (List Ty × Ty)
  | .fn params ret => .ok (params, ret)
  | t => .error (wrongType .function t line)

mutual

/-- Checks an expression and marks its nodes with their types. -/
def check (s : Scope) : RawExpr → Except Defect TypedExpr
  | .lit line v => .ok (literal v line)
  | .var line x => do
    let t ← s.resolve x line
    return .var ⟨t, line⟩ x
  | .not line e => do
    let e ← e.check s
    expect .bool e
    return negation e line
  | .call line f args => do
    let (params, ret) ← signatureOf line (← s.resolve f line)
    if params.length = args.length then
      let args ← checkArgs s params args
      return .call ⟨ret, line⟩ f args
    else
      throw (wrongArity f params.length args.length line)
  | .binary line op l r => do
    let l ← l.check s
    let r ← r.check s
    expectOperands op l r
    return operation op l r line
  | .cond line c t e => do
    let c ← c.check s
    expect .bool c
    let t ← t.check s
    let e ← e.check s
    expect t.ty e
    return conditional c t e line
  | .assign line x e => do
    let t ← s.resolve x line
    let e ← e.check s
    expect t e
    return assignment x e line
  | .seq line a b => do
    let a ← a.check s
    expect .void a
    let b ← b.check s
    expect .void b
    return sequence a b line

/-- Checks each argument against the type of its parameter. -/
def checkArgs (s : Scope) : List Ty → List RawExpr → Except Defect (List TypedExpr)
  | t :: ts, e :: es => do
    let e ← e.check s
    expect t e
    let es ← checkArgs s ts es
    return e :: es
  | _, _ => .ok []

end

end Expr

/-! ## Declarations -/

/-- Parameters named `arg0`, `arg1`, … -/
def Param.numbered (tys : List Ty) : List Param :=
  tys.mapIdx fun i t => ⟨"arg" ++ i.repr, t⟩

/-- The provided function that stands for a host operation. -/
def Operation.declare {μ : Type} (op : Operation) : FunDecl μ :=
  { name := op.name, params := Param.numbered op.params, ret := op.ret, recursion := none,
    body := none, line := 0 }

/-- The provided functions of a library; the first operation that cannot be called is a
defect. -/
def Library.declare {μ : Type} (lib : Library) : Except Defect (List (FunDecl μ)) :=
  lib.operations.mapM fun op =>
    if op.isCallable then .ok op.declare else .error (uncallableOperation lib.name op.name)

namespace Scope

/-- Binds functions to their types, later ones on top. -/
def bindFunctions {μ : Type} (s : Scope) (fs : List (FunDecl μ)) : Scope :=
  fs.foldl (fun s f => s.bind f.name f.ty) s

/-- Binds parameters to their types, later ones on top. -/
def bindParams (s : Scope) (ps : List Param) : Scope :=
  ps.foldl (fun s p => s.bind p.name p.ty) s

/-- The scope of the body of `f`, declared in `s`. -/
def ofBody {μ : Type} (s : Scope) (f : FunDecl μ) : Scope :=
  bindParams (if f.recursion.isSome then s.bind f.name f.ty else s) f.params

end Scope

/-- Checks a variable, whose initial value is an integer. -/
def VarDecl.check (s : Scope) (v : VarDecl Line) : Except Defect (VarDecl Mark) := do
  let init ← v.init.check s
  init.expect .int
  return { v with init }

/-- Checks a function: the value beyond its bound first, then its body. -/
def FunDecl.check (s : Scope) (f : FunDecl Line) : Except Defect (FunDecl Mark) := do
  let recursion ← f.recursion.mapM fun rec => do
    let fallback ← rec.fallback.check s
    fallback.expect f.ret
    return ({ rec with fallback } : Recursion Mark)
  let body ← f.body.mapM fun body => do
    let body ← body.check (s.ofBody f)
    body.expect f.ret
    return body
  return { f with recursion, body }

/-- Checks variables in order, each in the scope of those before it; also gives the scope after
the last. -/
def checkVariables (s : Scope) :
    List (VarDecl Line) → Except Defect (List (VarDecl Mark) × Scope)
  | [] => .ok ([], s)
  | v :: vs => do
    let v ← v.check s
    let (vs, s) ← checkVariables (s.bind v.name .int) vs
    return (v :: vs, s)

/-- Checks functions in order, each in the scope of those before it. -/
def checkFunctions (s : Scope) : List (FunDecl Line) → Except Defect (List (FunDecl Mark))
  | [] => .ok []
  | f :: fs => do
    let f ← f.check s
    let fs ← checkFunctions (s.bind f.name f.ty) fs
    return f :: fs

/-! ## Programs -/

/-- Refuses the first declaration whose name has occurred before. -/
def checkDistinct (seen : List String) : List (String × Line) → Except Defect Unit
  | [] => .ok ()
  | (name, line) :: rest =>
    if name ∈ seen then .error (duplicateName name line) else checkDistinct (name :: seen) rest

namespace RawProgram

/-- The names and lines of all top-level declarations, the library's functions first. -/
def declarations (p : RawProgram) (provided : List (FunDecl Mark)) : List (String × Line) :=
  provided.map (fun f => (f.name, f.line)) ++ p.variables.map (fun v => (v.name, v.line)) ++
    p.functions.map (fun f => (f.name, f.line))

/-- Checks a program against the library it may call. -/
def check (p : RawProgram) (lib : Option Library) : Except Defect TypedProgram := do
  let provided ← match lib with
    | some lib => lib.declare
    | none => .ok []
  checkDistinct [] (p.declarations provided)
  let (vs, s) ← checkVariables (Scope.bindFunctions .empty provided) p.variables
  let functions ← checkFunctions s p.functions
  return ⟨vs, provided ++ functions, lib⟩

end RawProgram

end Rulebook
