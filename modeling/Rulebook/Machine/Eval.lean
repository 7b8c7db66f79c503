import Rulebook.Machine.Host
import Rulebook.Program
import Rulebook.Rule

/-!
# Running programs

Expressions are evaluated on a machine: a memory and the state of a host. Operands and arguments
are evaluated from left to right, all of them. Integer arithmetic wraps around, and a division
or remainder by zero is `0`. An evaluation that fails keeps the changes it made to the machine
before it failed.

* `Expr.eval` evaluates an expression;
* `runRules` runs the first rule whose condition holds;
* `initialMemory` and `LoweredProgram.run` start from an empty memory.
-/

namespace Rulebook

/-- A memory and the state of a host. -/
structure Machine (σ : Type) where
  memory : Memory
  world : σ

/-- Computations on a machine that can fail; a failure keeps the machine. -/
abbrev EvalM (σ : Type) := ExceptT RunError (StateM (Machine σ))

variable {σ : Type}

namespace EvalM

/-- The value of a variable that is used on `line`. -/
def load (x : String) (line : Line) : EvalM σ Value := do
  match (← get).memory.find? x with
  | some v => return v
  | none => throw (.unbound x line)

/-- Gives a variable a value. -/
def store (x : String) (v : Value) : EvalM σ Unit :=
  modify fun m => { m with memory := m.memory.set x v }

/-- Leaves a call to the host. -/
def call (h : Host σ) (f : String) (args : List Value) (ret : Ty) : EvalM σ Value := do
  let m ← get
  let (v, world) := h.call f args ret m.world
  set { m with world }
  return v

/-- The truth value that an expression has given. -/
def truth (e : TypedExpr) : Value → EvalM σ Bool
  | .bool b => return b
  | v => throw (.wrongKind .bool v e.line)

/-! What these computations do to a machine. -/

variable {α β : Type}

theorem run_bind (x : EvalM σ α) (f : α → EvalM σ β) (m : Machine σ) :
    (x >>= f).run m =
      match x.run m with
      | (.ok a, m') => (f a).run m'
      | (.error e, m') => (.error e, m') := by
  change (let (r, m') := x.run m; ExceptT.bindCont f r m') = _
  rcases x.run m with ⟨_ | a, m'⟩ <;> rfl

@[simp] theorem run_pure (a : α) (m : Machine σ) : (pure a : EvalM σ α).run m = (.ok a, m) := rfl

@[simp] theorem run_throw (e : RunError) (m : Machine σ) :
    (throw e : EvalM σ α).run m = (.error e, m) := rfl

theorem run_load (x : String) (line : Line) (m : Machine σ) :
    (load x line).run m =
      match m.memory.find? x with
      | some v => (.ok v, m)
      | none => (.error (.unbound x line), m) := by
  change (match m.memory.find? x with
    | some v => (pure v : EvalM σ Value)
    | none => throw (RunError.unbound x line)).run m = _
  split <;> rfl

@[simp] theorem run_store (x : String) (v : Value) (m : Machine σ) :
    (store x v).run m = (.ok (), { m with memory := m.memory.set x v }) := rfl

@[simp] theorem run_call (h : Host σ) (f : String) (args : List Value) (ret : Ty)
    (m : Machine σ) :
    (call h f args ret).run m =
      (.ok (h.call f args ret m.world).1, { m with world := (h.call f args ret m.world).2 }) :=
  rfl

end EvalM

/-- An operator between two values. Arithmetic on integers always has a value. -/
def Operator.onValues? (op : Operator) : Value → Value → Option Literal
  | .int a, .int b =>
    match op.cls with
    | .arithmetic => some ((op.onInts? a b).getD (.int 0))
    | _ => op.onInts? a b
  | .bool a, .bool b => op.onBools? a b
  | .void, .void =>
    match op.cls with
    | .equality => some (.bool (op = .eq))
    | _ => none
  | _, _ => none

namespace Expr

mutual

/-- Evaluates an expression. -/
def eval (h : Host σ) : TypedExpr → EvalM σ Value
  | .lit _ v => return .ofLiteral v
  | .var m x => EvalM.load x m.line
  | .not _ e => do
    let b ← EvalM.truth e (← e.eval h)
    return .bool !b
  | .call m f args => do
    let args ← evalArgs h args
    EvalM.call h f args m.ty
  | .binary m op l r => do
    let a ← l.eval h
    let b ← r.eval h
    match op.onValues? a b with
    | some v => return .ofLiteral v
    | none => throw (.wrongKind l.ty b m.line)
  | .cond _ c t e => do
    let b ← EvalM.truth c (← c.eval h)
    if b then t.eval h else e.eval h
  | .assign _ x e => do
    let v ← e.eval h
    EvalM.store x v
    return .void
  | .seq _ a b => do
    let _ ← a.eval h
    let _ ← b.eval h
    return .void

/-- Evaluates the arguments of a call. -/
def evalArgs (h : Host σ) : List TypedExpr → EvalM σ (List Value)
  | [] => return []
  | e :: es => do
    let v ← e.eval h
    let vs ← evalArgs h es
    return v :: vs

end

theorem evalArgs_eq_mapM (h : Host σ) (es : List TypedExpr) :
    evalArgs h es = es.mapM (eval h) := by
  induction es with
  | nil => rfl
  | cons e es ih => rw [evalArgs, ih, List.mapM_cons]

/-- Evaluates an expression to a truth value. -/
def evalBool (h : Host σ) (e : TypedExpr) : EvalM σ Bool := do
  EvalM.truth e (← e.eval h)

end Expr

/-- Runs the first rule whose condition holds and gives its index, counted from `i`. -/
def runRulesFrom (h : Host σ) (i : Nat) : List Rule → EvalM σ Nat
  | [] => throw .noRuleApplies
  | r :: rs => do
    if ← r.condition.evalBool h then
      let _ ← r.action.eval h
      return i
    else runRulesFrom h (i + 1) rs

/-- Runs the first rule whose condition holds and gives its index. -/
def runRules (h : Host σ) (rules : List Rule) : EvalM σ Nat := runRulesFrom h 0 rules

/-- Gives variables their initial values, in order. -/
def initVariables (h : Host σ) : List (VarDecl Mark) → EvalM σ Unit
  | [] => return ()
  | v :: vs => do
    let value ← v.init.eval h
    EvalM.store v.name value
    initVariables h vs

namespace EvalM

/-- Runs a computation from an empty memory; gives the memory it ends with. -/
def fromEmpty {α : Type} (x : EvalM σ α) (world : σ) : Except RunError Memory × σ :=
  match x.run ⟨.empty, world⟩ with
  | (.ok _, m) => (.ok m.memory, m.world)
  | (.error e, m) => (.error e, m.world)

end EvalM

/-- The memory in which the variables have their initial values. -/
def initialMemory (h : Host σ) (vs : List (VarDecl Mark)) (world : σ) :
    Except RunError Memory × σ :=
  EvalM.fromEmpty (initVariables h vs) world

/-- The memory after one run of a program. -/
def LoweredProgram.run (h : Host σ) (p : LoweredProgram) (world : σ) :
    Except RunError Memory × σ :=
  EvalM.fromEmpty (do initVariables h p.variables; p.main.eval h) world

end Rulebook
