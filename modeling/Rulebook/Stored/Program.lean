import Rulebook.Program
import Rulebook.Rule
import Rulebook.Stored.Expr

/-!
# The stored form of programs

Declarations, libraries, rules and the three kinds of programs, all stored as records. The bound
on a function's recursion and the library of a program may be missing from a record.
-/

namespace Rulebook

namespace Stored

variable {μ : Type} [StoredMark μ]

instance : Stored Param where
  write p := .object [("name", write p.name), ("ty", write p.ty)]
  read? j :=
    match j.record? ["name", "ty"] with
    | some [name, ty] => do return { name := ← field? name, ty := ← field? ty }
    | _ => none

instance : Stored (Recursion μ) where
  write r := .object [("depth", write r.depth), ("default", write r.fallback)]
  read? j :=
    match j.record? ["depth", "default"] with
    | some [depth, fallback] => do
      return { depth := ← field? depth, fallback := ← field? fallback }
    | _ => none

instance : Stored (VarDecl μ) where
  write v := .object [("name", write v.name), ("init", write v.init), ("line", write v.line)]
  read? j :=
    match j.record? ["name", "init", "line"] with
    | some [name, init, line] => do
      return { name := ← field? name, init := ← field? init, line := ← field? line }
    | _ => none

/-- The tree of a function's body. -/
def writeBody : Option (Expr μ) → Json
  | none => .string "Provided"
  | some e => .object [("Defined", write e)]

/-- The body of a tree. -/
def readBody? (j : Json) : Option (Option (Expr μ)) :=
  match j.variant? with
  | some ("Provided", p) => if Json.isBare p then some none else none
  | some ("Defined", p) => (payload? p).map some
  | _ => none

instance : Stored (FunDecl μ) where
  write f :=
    .object [("name", write f.name), ("params", write f.params), ("ret", write f.ret),
      ("recursion", write f.recursion), ("body", writeBody f.body), ("line", write f.line)]
  read? j :=
    match j.record? ["name", "params", "ret", "recursion", "body", "line"] with
    | some [name, params, ret, recursion, body, line] => do
      return {
        name := ← field? name
        params := ← field? params
        ret := ← field? ret
        recursion := ← optional? recursion
        body := ← body.bind fun p => readBody? p.val
        line := ← field? line }
    | _ => none

instance : Stored Operation where
  write op :=
    .object [("name", write op.name), ("type_params", write op.typeParams),
      ("params", write op.params), ("ret", write op.ret)]
  read? j :=
    match j.record? ["name", "type_params", "params", "ret"] with
    | some [name, typeParams, params, ret] => do
      return {
        name := ← field? name
        typeParams := ← field? typeParams
        params := ← field? params
        ret := ← field? ret }
    | _ => none

instance : Stored Library where
  write lib := .object [("name", write lib.name), ("functions", write lib.operations)]
  read? j :=
    match j.record? ["name", "functions"] with
    | some [name, operations] => do
      return { name := ← field? name, operations := ← field? operations }
    | _ => none

instance : Stored RawProgram where
  write p := .object [("variables", write p.variables), ("functions", write p.functions)]
  read? j :=
    match j.record? ["variables", "functions"] with
    | some [vs, functions] => do
      return { «variables» := ← field? vs, functions := ← field? functions }
    | _ => none

instance : Stored TypedProgram where
  write p :=
    .object [("variables", write p.variables), ("functions", write p.functions),
      ("runtime", write p.library)]
  read? j :=
    match j.record? ["variables", "functions", "runtime"] with
    | some [vs, functions, library] => do
      return {
        «variables» := ← field? vs
        functions := ← field? functions
        library := ← optional? library }
    | _ => none

instance : Stored LoweredProgram where
  write p :=
    .object [("variables", write p.variables), ("main", write p.main),
      ("runtime", write p.library)]
  read? j :=
    match j.record? ["variables", "main", "runtime"] with
    | some [vs, main, library] => do
      return {
        «variables» := ← field? vs
        main := ← field? main
        library := ← optional? library }
    | _ => none

instance : Stored Rule where
  write r := .object [("condition", write r.condition), ("action", write r.action)]
  read? j :=
    match j.record? ["condition", "action"] with
    | some [condition, action] => do
      return { condition := ← field? condition, action := ← field? action }
    | _ => none

end Stored

end Rulebook
