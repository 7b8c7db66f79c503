import Rulebook.Stored.Basic

/-!
# The stored form of expressions

An expression is stored as a record of its kind and its mark; the kind is a variant with the
parts of the expression as its payload.
-/

namespace Rulebook

/-- Marks that are stored as fields of a record. -/
class StoredMark (μ : Type) where
  /-- The names of the fields. -/
  names : List String
  /-- The trees of the fields, in that order. -/
  write : μ → List Json
  /-- The mark of such fields. -/
  read? : {j : Json} → List (Option j.Part) → Option μ

namespace Stored

instance : StoredMark Line where
  names := ["line"]
  write line := [Stored.write line]
  read?
    | [line] => field? line
    | _ => none

instance : StoredMark Mark where
  names := ["ty", "line"]
  write m := [Stored.write m.ty, Stored.write m.line]
  read?
    | [ty, line] => do return { ty := ← field? ty, line := ← field? line }
    | _ => none

variable {μ : Type} [StoredMark μ]

/-! ## Writing -/

/-- A variant with several parts. -/
def parts (tag : String) (members : List (String × Json)) : Json :=
  .object [(tag, .object members)]

/-- The record of a kind and a mark. -/
def marked (mark : μ) (kind : Json) : Json :=
  .object (("kind", kind) :: (StoredMark.names μ).zip (StoredMark.write mark))

mutual

/-- The tree of an expression. -/
def writeExpr : Expr μ → Json
  | .lit m v => marked m (.object [("Literal", write v)])
  | .var m x => marked m (.object [("Var", .string x)])
  | .not m e => marked m (.object [("Not", writeExpr e)])
  | .call m f args =>
    marked m (parts "Call" [("name", .string f), ("args", .array (writeExprs args))])
  | .binary m op l r =>
    marked m (parts "Binary" [("left", writeExpr l), ("op", write op), ("right", writeExpr r)])
  | .cond m c t e =>
    marked m (parts "IfElse"
      [("cond", writeExpr c), ("then_branch", writeExpr t), ("else_branch", writeExpr e)])
  | .assign m x e => marked m (parts "Assign" [("target", .string x), ("value", writeExpr e)])
  | .seq m a b => marked m (parts "Chain" [("first", writeExpr a), ("second", writeExpr b)])

/-- The trees of several expressions. -/
def writeExprs : List (Expr μ) → List Json
  | [] => []
  | e :: es => writeExpr e :: writeExprs es

end

@[simp] theorem writeExprs_eq_map (es : List (Expr μ)) : writeExprs es = es.map writeExpr := by
  induction es with
  | nil => rfl
  | cons e es ih => rw [writeExprs, ih, List.map_cons]

/-! ## Reading -/

mutual

/-- The expression of a tree. -/
def readExpr? (j : Json) : Option (Expr μ) :=
  match j.record? ("kind" :: StoredMark.names μ) with
  | some (some ⟨kind, _⟩ :: mark) => do readKind? (← StoredMark.read? mark) kind
  | _ => none
termination_by sizeOf j

/-- The expression with the given mark and the kind of a tree. -/
def readKind? (m : μ) (j : Json) : Option (Expr μ) :=
  match j.variant? with
  | some ("Literal", p) => do return .lit m (← payload? p)
  | some ("Var", p) => do return .var m (← payload? p)
  | some ("Not", some ⟨p, _⟩) => do return .not m (← readExpr? p)
  | some ("Call", some ⟨p, _⟩) => do
    let name ← field? (p.member? "name")
    let ⟨args, _⟩ ← p.member? "args"
    let args ← (← args.elements?).mapM fun ⟨e, _⟩ => readExpr? e
    return .call m name args
  | some ("Binary", some ⟨p, _⟩) => do
    let ⟨left, _⟩ ← p.member? "left"
    let op ← field? (p.member? "op")
    let ⟨right, _⟩ ← p.member? "right"
    return .binary m op (← readExpr? left) (← readExpr? right)
  | some ("IfElse", some ⟨p, _⟩) => do
    let ⟨test, _⟩ ← p.member? "cond"
    let ⟨yes, _⟩ ← p.member? "then_branch"
    let ⟨no, _⟩ ← p.member? "else_branch"
    return .cond m (← readExpr? test) (← readExpr? yes) (← readExpr? no)
  | some ("Assign", some ⟨p, _⟩) => do
    let target ← field? (p.member? "target")
    let ⟨value, _⟩ ← p.member? "value"
    return .assign m target (← readExpr? value)
  | some ("Chain", some ⟨p, _⟩) => do
    let ⟨first, _⟩ ← p.member? "first"
    let ⟨second, _⟩ ← p.member? "second"
    return .seq m (← readExpr? first) (← readExpr? second)
  | _ => none
termination_by sizeOf j

end

instance : Stored (Expr μ) := ⟨writeExpr, readExpr?⟩

end Stored

end Rulebook
