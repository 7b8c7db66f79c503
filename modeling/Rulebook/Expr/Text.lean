import Rulebook.Expr.Basic

/-!
# Expressions on one line

`Expr.text` writes an expression on one line, with brackets only where the shape of the tree
would otherwise be lost. Whether a child is bracketed depends on the place it stands in
(`Place`) and on its own form: between operators precedence decides, a `!` under a `!` and a
sequence inside a sequence go without, and in any other place a child is bracketed when it binds
no tighter than the place does.
-/

namespace Rulebook

/-- A place in which a child expression is written. -/
inductive Place where
  /-- Under `!`. -/
  | negated
  /-- Left of an operator. -/
  | left (op : Operator)
  /-- Right of an operator. -/
  | right (op : Operator)
  /-- A part of a conditional. -/
  | part
  /-- The value of an assignment. -/
  | value
  /-- A part of a sequence. -/
  | step

/-- How loosely a place binds its contents. -/
def Place.level : Place → Nat
  | .negated => 1
  | .left _ | .right _ => 2
  | .part => 3
  | .value => 4
  | .step => 5

namespace Expr

variable {μ : Type}

/-- How loosely an expression binds; names, literals and calls bind tightest. -/
def level : Expr μ → Nat
  | .lit .. | .var .. | .call .. => 0
  | .not .. => 1
  | .binary .. => 2
  | .cond .. => 3
  | .assign .. => 4
  | .seq .. => 5

/-- Whether an expression is bracketed in a place. -/
def needsBrackets : Place → Expr μ → Bool
  | .left outer, .binary _ inner _ _ => outer.precedence < inner.precedence
  | .right outer, .binary _ inner _ _ => outer.precedence ≤ inner.precedence
  | .negated, .not .. => false
  | .step, .seq .. => false
  | place, e => place.level ≤ e.level

/-- A text, bracketed if need be. -/
def bracket : Bool → String → String
  | true, s => "(" ++ s ++ ")"
  | false, s => s

mutual

/-- The expression on one line. -/
def text : Expr μ → String
  | .lit _ v => v.text
  | .var _ x => x
  | .not _ e => "!" ++ bracket (e.needsBrackets .negated) e.text
  | .call _ f args => f ++ "(" ++ ", ".intercalate (texts args) ++ ")"
  | .binary _ op l r =>
    bracket (l.needsBrackets (.left op)) l.text ++ " " ++ op.symbol ++ " " ++
      bracket (r.needsBrackets (.right op)) r.text
  | .cond _ c t e =>
    "if " ++ bracket (c.needsBrackets .part) c.text ++ " then " ++
      bracket (t.needsBrackets .part) t.text ++ " else " ++
      bracket (e.needsBrackets .part) e.text
  | .assign _ x e => x ++ " = " ++ bracket (e.needsBrackets .value) e.text
  | .seq _ a b =>
    bracket (a.needsBrackets .step) a.text ++ "; " ++ bracket (b.needsBrackets .step) b.text

/-- The texts of all arguments. -/
def texts : List (Expr μ) → List String
  | [] => []
  | e :: es => e.text :: texts es

end

@[simp] theorem texts_eq_map (es : List (Expr μ)) : texts es = es.map text := by
  induction es with
  | nil => rfl
  | cons e es ih => rw [texts, ih, List.map_cons]

end Expr

end Rulebook
