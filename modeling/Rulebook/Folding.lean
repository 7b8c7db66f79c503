import Rulebook.Defect
import Rulebook.Expr.Basic

/-!
# Constant folding

`Expr.foldConstants` evaluates what is known before the program runs, from the leaves up: the
negation of a truth value, an operator between two literals of one kind, a conditional whose
test is a literal. Nothing else changes. An operation on integers that has no value stays as it is, and
`Expr.unfolded` lists these in the order in which folding meets them, also where the branch that
holds them is dropped.

On expressions that are not well typed folding can meet a literal of the wrong kind. That is a
`KindClash`, and no result.
-/

namespace Rulebook

/-- A literal of the wrong kind, met while folding. -/
inductive KindClash where
  /-- `!` on an integer. -/
  | negatedInt
  /-- An operator on truth values that does not take them. -/
  | onBools (op : Operator)
  /-- An operator between an integer and a truth value. -/
  | mixed (op : Operator)
  /-- An integer as the test of a conditional. -/
  | intTest
  deriving DecidableEq

/-- The wording of a clash. -/
def KindClash.message (c : KindClash) : String :=
  "internal error: entered unreachable code: " ++
    match c with
    | .negatedInt => "`!` applied to an integer after type checking"
    | .onBools op => "`" ++ op.symbol ++ "` applied to booleans"
    | .mixed op =>
      "`" ++ op.symbol ++ "` applied to literals of different kinds after type checking"
    | .intTest => "integer `if` condition after type checking"

/-- The warning about an operation on integer literals that was left in place. -/
structure Warning where
  op : Operator
  /-- The left operand. -/
  left : Int32
  deriving DecidableEq

/-- The wording of the warning. -/
def Warning.message (_ : Warning) : String := "division by literal zero left unfolded"

/-- An operator between literals; without a value where the operation has to stay. -/
def Operator.fold (op : Operator) : Literal → Literal → Except KindClash (Option Literal)
  | .int a, .int b => .ok (op.onInts? a b)
  | .bool a, .bool b =>
    match op.onBools? a b with
    | some v => .ok (some v)
    | none => .error (.onBools op)
  | .int _, .bool _ | .bool _, .int _ => .error (.mixed op)

namespace Expr

/-- The negation of a folded operand. -/
def foldNot (m : Mark) (e : TypedExpr) : Except KindClash TypedExpr :=
  match e.literal? with
  | some (.bool b) => .ok (literal (.bool !b) m.line)
  | some (.int _) => .error .negatedInt
  | none => .ok (.not m e)

/-- An operator between folded operands. -/
def foldBinary (m : Mark) (op : Operator) (l r : TypedExpr) : Except KindClash TypedExpr :=
  match l.literal?, r.literal? with
  | some a, some b => do
    match ← op.fold a b with
    | some v => return literal v m.line
    | none => return .binary m op l r
  | _, _ => .ok (.binary m op l r)

/-- A conditional of folded parts. -/
def foldCond (m : Mark) (c t e : TypedExpr) : Except KindClash TypedExpr :=
  match c.literal? with
  | some (.bool true) => .ok t
  | some (.bool false) => .ok e
  | some (.int _) => .error .intTest
  | none => .ok (.cond m c t e)

mutual

/-- Folds the constants of an expression. -/
def foldConstants : TypedExpr → Except KindClash TypedExpr
  | .lit m v => .ok (.lit m v)
  | .var m x => .ok (.var m x)
  | .not m e => do foldNot m (← e.foldConstants)
  | .call m f args => do return .call m f (← foldConstantsArgs args)
  | .binary m op l r => do foldBinary m op (← l.foldConstants) (← r.foldConstants)
  | .cond m c t e => do foldCond m (← c.foldConstants) (← t.foldConstants) (← e.foldConstants)
  | .assign m x e => do return .assign m x (← e.foldConstants)
  | .seq m a b => do return .seq m (← a.foldConstants) (← b.foldConstants)

/-- Folds the constants of every argument. -/
def foldConstantsArgs : List TypedExpr → Except KindClash (List TypedExpr)
  | [] => .ok []
  | e :: es => do return (← e.foldConstants) :: (← foldConstantsArgs es)

end

theorem foldConstantsArgs_eq_mapM (es : List TypedExpr) :
    foldConstantsArgs es = es.mapM foldConstants := by
  induction es with
  | nil => rfl
  | cons e es ih => rw [foldConstantsArgs, ih, List.mapM_cons]

/-! ## Operations left in place -/

/-- The warning about an operator between two folded operands, if it has to stay. -/
def warning? (op : Operator) :
    Except KindClash TypedExpr → Except KindClash TypedExpr → List Warning
  | .ok (.lit _ (.int a)), .ok (.lit _ (.int b)) =>
    if (op.onInts? a b).isNone then [⟨op, a⟩] else []
  | _, _ => []

mutual

/-- The operations between integer literals that folding leaves in place. -/
def unfolded : TypedExpr → List Warning
  | .lit .. | .var .. => []
  | .not _ e => e.unfolded
  | .call _ _ args => unfoldedArgs args
  | .binary _ op l r => l.unfolded ++ r.unfolded ++ warning? op l.foldConstants r.foldConstants
  | .cond _ c t e => c.unfolded ++ t.unfolded ++ e.unfolded
  | .assign _ _ e => e.unfolded
  | .seq _ a b => a.unfolded ++ b.unfolded

/-- The operations left in place in all arguments. -/
def unfoldedArgs : List TypedExpr → List Warning
  | [] => []
  | e :: es => e.unfolded ++ unfoldedArgs es

end

@[simp] theorem unfoldedArgs_eq_flatMap (es : List TypedExpr) :
    unfoldedArgs es = es.flatMap unfolded := by
  induction es with
  | nil => rfl
  | cons e es ih => rw [unfoldedArgs, ih, List.flatMap_cons]

end Expr

end Rulebook
