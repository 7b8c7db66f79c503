import Rulebook.Bindings
import Rulebook.Defect
import Rulebook.Expr.Text

/-!
# Substitution

A substitution replaces names by expressions, all at once: a replacement is never substituted
into. Expressions bind no names, so nothing can be captured. An assignment's target is a name
and stays one, so a target may only be replaced by a variable; anything else is a defect, found
before the value of the assignment is looked at.
-/

namespace Rulebook

/-- Replacements for names. -/
abbrev Substitution := Bindings TypedExpr

namespace Substitution

/-- The substitution of arguments for parameters. Of parameters with one name the last counts,
and what is left over on either side is dropped. -/
def ofArgs (params : List String) (args : List TypedExpr) : Substitution :=
  ⟨(params.zip args).reverse⟩

/-- The name an assignment on `line` writes to after substitution. -/
def target (s : Substitution) (x : String) (line : Line) : Except Defect String :=
  match s.find? x with
  | none => .ok x
  | some (.var _ y) => .ok y
  | some e => .error (.badTarget e.text line)

end Substitution

namespace Expr

mutual

/-- Replaces the names in an expression. -/
def substitute (s : Substitution) : TypedExpr → Except Defect TypedExpr
  | .lit m v => .ok (.lit m v)
  | .var m x => .ok ((s.find? x).getD (.var m x))
  | .not m e => do return .not m (← e.substitute s)
  | .call m f args => do return .call m f (← substituteArgs s args)
  | .binary m op l r => do return .binary m op (← l.substitute s) (← r.substitute s)
  | .cond m c t e => do
    return .cond m (← c.substitute s) (← t.substitute s) (← e.substitute s)
  | .assign m x e => do return .assign m (← s.target x m.line) (← e.substitute s)
  | .seq m a b => do return .seq m (← a.substitute s) (← b.substitute s)

/-- Replaces the names in every argument. -/
def substituteArgs (s : Substitution) : List TypedExpr → Except Defect (List TypedExpr)
  | [] => .ok []
  | e :: es => do return (← e.substitute s) :: (← substituteArgs s es)

end

theorem substituteArgs_eq_mapM (s : Substitution) (es : List TypedExpr) :
    substituteArgs s es = es.mapM (substitute s) := by
  induction es with
  | nil => rfl
  | cons e es ih => rw [substituteArgs, ih, List.mapM_cons]

end Expr

end Rulebook
