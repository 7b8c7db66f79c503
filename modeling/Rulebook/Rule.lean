import Rulebook.Expr.Text

/-!
# Guarded rules

A rule is a condition and an action. A list of rules runs the action of the first rule whose
condition holds. `Decision` is the step between an expression and its rules: a tree of tests
with conditional-free expressions at its leaves.

* `Expr.decision` pulls all conditionals of an expression to the outside;
* `Decision.rules` lists the leaves, each under the tests that lead to it;
* `Expr.rules` is the two together.

All tests come before the actions, so an expression and its rules mean the same only if no test
has an effect or sees one.
-/

namespace Rulebook

/-- A guarded rule. -/
structure Rule where
  condition : TypedExpr
  action : TypedExpr
  deriving DecidableEq

namespace Rule

/-- The text of a rule. -/
def text (r : Rule) : String := r.condition.text ++ " --> " ++ r.action.text ++ ";"

/-- The rule under one more test. -/
def guard (test : TypedExpr) (r : Rule) : Rule :=
  { r with condition :=
      if r.condition.isTrueLiteral then test
      else .operation .and test r.condition test.line }

end Rule

/-- A tree of tests with values at its leaves. -/
inductive Decision (α : Type) where
  | leaf (value : α)
  /-- A test made on a line. -/
  | branch (line : Line) (test : TypedExpr) (yes no : Decision α)

namespace Decision

variable {α β γ : Type}

/-- Applies a function to every leaf. -/
def map (f : α → β) : Decision α → Decision β
  | .leaf a => .leaf (f a)
  | .branch l c x y => .branch l c (x.map f) (y.map f)

/-- Puts a tree in the place of every leaf. -/
def bind (d : Decision α) (f : α → Decision β) : Decision β :=
  match d with
  | .leaf a => f a
  | .branch l c x y => .branch l c (x.bind f) (y.bind f)

/-- Moves all tests to one line. -/
def atLine (line : Line) : Decision α → Decision α
  | .leaf a => .leaf a
  | .branch _ c x y => .branch line c (x.atLine line) (y.atLine line)

/-- Decides two trees together. Where both test, the outcomes are: both tests hold, only the
first, only the second, neither. -/
def both (f : α → β → γ) : Decision α → Decision β → Decision γ
  | .leaf a, d => d.map (f a)
  | .branch l c x y, .leaf b => .branch l c (both f x (.leaf b)) (both f y (.leaf b))
  | .branch l c x y, .branch _ c' x' y' =>
    .branch l (.operation .and c c' l) (both f x x')
      (.branch l c (both f x y')
        (.branch l c' (both f y x') (both f y y')))

/-- Decides a list of trees, the first one outermost, with all tests on one line. -/
def all (line : Line) : List (Decision α) → Decision (List α)
  | [] => .leaf []
  | d :: ds => (d.atLine line).bind fun a => (all line ds).map (a :: ·)

/-- One rule for each leaf, in order. -/
def rules : Decision TypedExpr → List Rule
  | .leaf a => [⟨.literal (.bool true) a.line, a⟩]
  | .branch _ c x y => x.rules.map (Rule.guard c) ++ y.rules

end Decision

namespace Expr

mutual

/-- Pulls the conditionals of an expression to the outside. -/
def decision : TypedExpr → Decision TypedExpr
  | .lit m v => .leaf (.lit m v)
  | .var m x => .leaf (.var m x)
  | .not m e => e.decision.map fun e => negation e m.line
  | .call m f args => (Decision.all m.line (decisions args)).map fun args => .call m f args
  | .binary m op l r => .both (fun l r => operation op l r m.line) l.decision r.decision
  | .cond m c t e =>
    (c.decision.atLine m.line).bind fun c => .branch m.line c t.decision e.decision
  | .assign m x e => e.decision.map fun e => assignment x e m.line
  | .seq m a b => .both (fun a b => sequence a b m.line) a.decision b.decision

/-- Pulls the conditionals of every argument to the outside. -/
def decisions : List TypedExpr → List (Decision TypedExpr)
  | [] => []
  | e :: es => e.decision :: decisions es

end

@[simp] theorem decisions_eq_map (es : List TypedExpr) : decisions es = es.map decision := by
  induction es with
  | nil => rfl
  | cons e es ih => rw [decisions, ih, List.map_cons]

/-- The guarded rules of an expression. -/
def rules (e : TypedExpr) : List Rule := e.decision.rules

end Expr

end Rulebook
