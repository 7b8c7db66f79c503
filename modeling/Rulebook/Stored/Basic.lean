import Rulebook.Json
import Rulebook.Expr.Basic

/-!
# The stored form of simple data

`Stored` gives a type its stored form: how a value is written as a JSON tree, and which trees are
read as values. This module stores texts, truth values, lines, lists, optional values, types,
literals and operators.
-/

namespace Rulebook

/-- Types whose values are stored as JSON trees. -/
class Stored (α : Type) where
  /-- The tree of a value. -/
  write : α → Json
  /-- The value of a tree, if it is one. -/
  read? : Json → Option α

namespace Stored

variable {α : Type}

/-- The value of a field that must be there. -/
def field? [Stored α] {j : Json} (part : Option j.Part) : Option α :=
  part.bind fun p => read? p.val

/-- The payload of a variant. -/
def payload? [Stored α] {j : Json} (part : Option j.Part) : Option α := field? part

instance : Stored String where
  write := .string
  read?
    | .string s => some s
    | _ => none

instance : Stored Bool where
  write := .bool
  read?
    | .bool b => some b
    | _ => none

instance : Stored UInt32 where
  write n := .int n.toNat
  read?
    | .int n => if 0 ≤ n ∧ n ≤ 4294967295 then some (UInt32.ofNat n.toNat) else none
    | _ => none

instance [Stored α] : Stored (List α) where
  write xs := .array (xs.map write)
  read? j := do (← j.elements?).mapM fun p => read? p.val

instance [Stored α] : Stored (Option α) where
  write
    | none => .null
    | some a => write a
  read?
    | .null => some none
    | j => (read? j).map some

/-- The value of a field that may be missing. -/
def optional? [Stored α] {j : Json} (part : Option j.Part) : Option (Option α) :=
  match part with
  | none => some none
  | some p => read? p.val

/-! ## Literals and operators -/

/-- The tree of a literal. -/
def writeLiteral : Literal → Json
  | .int n => .object [("Int", .int n.toInt)]
  | .bool b => .object [("Bool", .bool b)]

/-- The literal of a tree. -/
def readLiteral? (j : Json) : Option Literal :=
  match j.variant? with
  | some ("Int", some ⟨.int n, _⟩) => Literal.ofInt? n
  | some ("Bool", some ⟨.bool b, _⟩) => some (.bool b)
  | _ => none

instance : Stored Literal := ⟨writeLiteral, readLiteral?⟩

/-- The stored name of an operator. -/
def operatorTag : Operator → String
  | .mul => "Mul"
  | .div => "Div"
  | .mod => "Mod"
  | .add => "Add"
  | .sub => "Sub"
  | .lt => "Lt"
  | .le => "LtEq"
  | .gt => "Gt"
  | .ge => "GtEq"
  | .eq => "Eq"
  | .ne => "NotEq"
  | .and => "And"
  | .or => "Or"

/-- The operator of a tree. -/
def readOperator? (j : Json) : Option Operator :=
  match j.variant? with
  | some (tag, p) =>
    if Json.isBare p then Operator.all.find? fun op => operatorTag op = tag else none
  | none => none

instance : Stored Operator := ⟨fun op => .string (operatorTag op), readOperator?⟩

/-! ## Types -/

mutual

/-- The tree of a type. -/
def writeTy : Ty → Json
  | .void => .string "Void"
  | .int => .string "Int"
  | .bool => .string "Bool"
  | .fn params ret =>
    .object [("Function", .object [("params", .array (writeTys params)), ("ret", writeTy ret)])]

/-- The trees of several types. -/
def writeTys : List Ty → List Json
  | [] => []
  | t :: ts => writeTy t :: writeTys ts

end

@[simp] theorem writeTys_eq_map (ts : List Ty) : writeTys ts = ts.map writeTy := by
  induction ts with
  | nil => rfl
  | cons t ts ih => rw [writeTys, ih, List.map_cons]

/-- The type of a tree. -/
def readTy? (j : Json) : Option Ty :=
  match j.variant? with
  | some ("Void", p) => if Json.isBare p then some .void else none
  | some ("Int", p) => if Json.isBare p then some .int else none
  | some ("Bool", p) => if Json.isBare p then some .bool else none
  | some ("Function", some ⟨p, _⟩) => do
    let ⟨params, _⟩ ← p.member? "params"
    let ⟨ret, _⟩ ← p.member? "ret"
    let params ← (← params.elements?).mapM fun ⟨t, _⟩ => readTy? t
    let ret ← readTy? ret
    return .fn params ret
  | _ => none
termination_by sizeOf j

instance : Stored Ty := ⟨writeTy, readTy?⟩

end Stored

end Rulebook
