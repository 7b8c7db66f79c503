import Rulebook.Bindings
import Rulebook.Defect
import Rulebook.Program
import Rulebook.Rule

/-!
# Critter rules

A lowered program is written as a list of critter rules, one on a line. Critters have numbered
memory cells and no variables: each variable has a slot, and one further slot is a flag that is
`0` until the first rule has given the variables their initial values.

The language of critters has no truth values, which are written as comparisons of `1`, and it
brackets conditions with braces and numbers with parentheses. It has no conditionals either, so
one that is left inside a rule cannot be written.
-/

namespace Rulebook.Critter

/-- Why a program cannot be written as critter rules. -/
inductive WriteError where
  /-- A variable without a slot. -/
  | noSlot (name : String) (line : Line)
  /-- A conditional inside a rule. -/
  | conditionalInRule (line : Line)
  deriving DecidableEq

namespace WriteError

/-- The line of the error. -/
def line : WriteError → Line
  | .noSlot _ line | .conditionalInRule line => line

/-- The wording of the error. -/
def message : WriteError → String
  | .noSlot name line =>
    atLine line ("variable `" ++ name ++ "` has no storage slot")
  | .conditionalInRule line =>
    atLine line "conditional expression cannot be rendered inside a rule"

end WriteError

/-- The name of the target language. -/
def name : String := "critter"

/-- The slots of variables. -/
abbrev Slots := Bindings Nat

/-- How memory is laid out. -/
structure Layout where
  /-- The slot of the flag. -/
  flag : Nat := 8
  /-- The slot of the first variable; the others follow. -/
  first : Nat := 9
  deriving DecidableEq

/-- The slots of variables in order; of two variables with one name the later one counts. -/
def Layout.slots {μ : Type} (layout : Layout) (vs : List (VarDecl μ)) : Slots :=
  ⟨(vs.mapIdx fun i v => (v.name, layout.first + i)).reverse⟩

/-! ## Words -/

/-- An operator as critters write it. -/
def operator : Operator → String
  | .eq => "="
  | .and => "and"
  | .or => "or"
  | .mod => "mod"
  | op => op.symbol

/-- An operation as critters write it. -/
def operation : String → String
  | "memsize" => "MEMSIZE"
  | "defense" => "DEFENSE"
  | "offense" => "OFFENSE"
  | "size" => "SIZE"
  | "energy" => "ENERGY"
  | "pass" => "PASS"
  | "tag" => "TAG"
  | "posture" => "POSTURE"
  | "waitFor" => "wait"
  | f => f

/-- A literal as critters write it. -/
def literal : Literal → String
  | .int n => Literal.intText n.toInt
  | .bool true => "1 = 1"
  | .bool false => "1 = 0"

/-- A memory cell. -/
def cell (slot : Nat) : String := "mem[" ++ slot.repr ++ "]"

/-- The cell of a variable that is used on `line`. -/
def cellOf (slots : Slots) (x : String) (line : Line) : Except WriteError String :=
  match slots.find? x with
  | some slot => .ok (cell slot)
  | none => .error (.noSlot x line)

/-! ## Brackets -/

/-- How loosely the text of an expression binds; `0` is never bracketed. -/
def strength : TypedExpr → Nat
  | .lit _ (.bool _) => Operator.eq.precedence
  | .binary _ op _ _ => op.precedence
  | _ => 0

/-- Whether an expression is bracketed left of an operator of the given precedence. -/
def bracketedLeft (precedence : Nat) (e : TypedExpr) : Bool :=
  0 < strength e && precedence < strength e

/-- Whether an expression is bracketed right of an operator of the given precedence. -/
def bracketedRight (precedence : Nat) (e : TypedExpr) : Bool :=
  0 < strength e && precedence ≤ strength e

/-- The text of `e`, bracketed if need be: braces around conditions, parentheses around
numbers. -/
def bracket (needed : Bool) (e : TypedExpr) (text : String) : String :=
  if needed then
    if e.ty = .bool then "\x7b" ++ text ++ "\x7d" else "(" ++ text ++ ")"
  else text

/-! ## Expressions and rules -/

/-- A call of an operation with arguments. -/
def callText (f : String) (args : List String) : String :=
  if args.isEmpty then operation f
  else operation f ++ "[" ++ ", ".intercalate args ++ "]"

mutual

/-- An expression in the language of critters. -/
def render (slots : Slots) : TypedExpr → Except WriteError String
  | .lit _ v => .ok (literal v)
  | .var m x => cellOf slots x m.line
  | .not _ e => do
    let text ← render slots e
    return "!" ++ bracket (bracketedRight 0 e) e text
  | .call _ f args => do return callText f (← renderArgs slots args)
  | .binary _ op l r => do
    let left ← render slots l
    let right ← render slots r
    return bracket (bracketedLeft op.precedence l) l left ++ " " ++ operator op ++ " " ++
      bracket (bracketedRight op.precedence r) r right
  | .cond m .. => .error (.conditionalInRule m.line)
  | .assign m x e => do
    let target ← cellOf slots x m.line
    let value ← render slots e
    return target ++ " := " ++ value
  | .seq _ a b => do
    let first ← render slots a
    let second ← render slots b
    return first ++ " " ++ second

/-- The arguments of a call in the language of critters. -/
def renderArgs (slots : Slots) : List TypedExpr → Except WriteError (List String)
  | [] => .ok []
  | e :: es => do
    let text ← render slots e
    let texts ← renderArgs slots es
    return text :: texts

end

theorem renderArgs_eq_mapM (slots : Slots) (es : List TypedExpr) :
    renderArgs slots es = es.mapM (render slots) := by
  induction es with
  | nil => rfl
  | cons e es ih => rw [renderArgs, ih, List.mapM_cons]

/-- The assignment of its initial value to a variable. -/
def initText (slots : Slots) (v : VarDecl Mark) : Except WriteError String := do
  let target ← cellOf slots v.name v.line
  let value ← render slots v.init
  return " " ++ target ++ " := " ++ value

/-- The rule that raises the flag and gives variables their initial values. -/
def initRule (slots : Slots) (flag : Nat) (vs : List (VarDecl Mark)) :
    Except WriteError String := do
  let inits ← vs.mapM (initText slots)
  return cell flag ++ " = 0 --> " ++ cell flag ++ " := 1" ++ String.join inits ++ ";\n"

/-- A rule on a line of its own. -/
def ruleText (slots : Slots) (r : Rule) : Except WriteError String := do
  let condition ← render slots r.condition
  let action ← render slots r.action
  return condition ++ " --> " ++ action ++ ";\n"

/-- A lowered program as critter rules. -/
def renderProgram (layout : Layout) (p : LoweredProgram) : Except WriteError String := do
  let slots := layout.slots p.variables
  let init ← initRule slots layout.flag p.variables
  let rules ← p.main.rules.mapM (ruleText slots)
  return init ++ String.join rules

end Rulebook.Critter
