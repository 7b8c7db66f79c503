import Mathlib.Data.List.Nodup
import Rulebook.Proofs.Occurrence
import Rulebook.Proofs.Typing.Fresh

/-!
# Binders and what names refer to

A binder is a variable or a parameter of a function with a body. The binders of a program are
numbered: the variables in order, then the parameters, function by function. What a name refers to
depends on the tree it stands in (its `Site`): the binders that are in scope there are listed in
`TypedProgram.scopeAt`, and the name refers to the last of them that has it (`Binder.lookup?`).

`TypedProgram.resolved` is the program in which every name has been replaced, once, by the fresh
name that goes with the number of its binder. It is written down tree by tree, with nothing handed
on from one declaration to the next.
-/

namespace Rulebook

/-- A variable, or a parameter of a function with a body. -/
structure Binder where
  name : String
  ty : Ty
  /-- The line of the variable, or of the parameter's function. -/
  line : Line
  deriving DecidableEq

namespace Binder

/-- The name that goes with the number of a binder. -/
def fresh (b : Binder × ℕ) : String := FreshNames.name b.2

/-- A use of a binder by its fresh name. -/
def use (b : Binder × ℕ) : TypedExpr := .var ⟨b.1.ty, b.1.line⟩ (fresh b)

/-- The binder that a name refers to: the last one in scope that has the name. -/
def lookup? (scope : List (Binder × ℕ)) (x : String) : Option (Binder × ℕ) :=
  scope.reverse.find? fun b => b.1.name = x

/-- What becomes of a name. -/
def rename (scope : List (Binder × ℕ)) (x : String) : String := (lookup? scope x).elim x fresh

/-- The last binder in scope counts. -/
theorem lookup?_concat (scope : List (Binder × ℕ)) (b : Binder × ℕ) (x : String) :
    lookup? (scope ++ [b]) x = if x = b.1.name then some b else lookup? scope x := by
  rw [lookup?, List.reverse_append, List.reverse_singleton, List.singleton_append, List.find?_cons]
  by_cases hx : x = b.1.name
  · simp [hx]
  · simp [hx, Ne.symm hx, lookup?]

theorem mem_of_lookup? {scope : List (Binder × ℕ)} {x : String} {b : Binder × ℕ}
    (h : lookup? scope x = some b) : b ∈ scope :=
  List.mem_reverse.1 (List.mem_of_find?_eq_some h)

theorem rename_of_lookup? {scope : List (Binder × ℕ)} {x : String} {b : Binder × ℕ}
    (h : lookup? scope x = some b) : rename scope x = fresh b := by
  rw [rename, h, Option.elim_some]

end Binder

/-! ## Expressions -/

namespace Expr

mutual

/-- Replaces every name by the fresh name of its binder, if it has one in scope. A variable that is
read also gets its binder's type and line. -/
def resolve (scope : List (Binder × ℕ)) : TypedExpr → TypedExpr
  | .lit m v => .lit m v
  | .var m x => (Binder.lookup? scope x).elim (.var m x) Binder.use
  | .not m e => .not m (e.resolve scope)
  | .call m f args => .call m f (resolveArgs scope args)
  | .binary m op l r => .binary m op (l.resolve scope) (r.resolve scope)
  | .cond m c t e => .cond m (c.resolve scope) (t.resolve scope) (e.resolve scope)
  | .assign m x e => .assign m (Binder.rename scope x) (e.resolve scope)
  | .seq m a b => .seq m (a.resolve scope) (b.resolve scope)

/-- Replaces the names in every argument. -/
def resolveArgs (scope : List (Binder × ℕ)) : List TypedExpr → List TypedExpr
  | [] => []
  | e :: es => e.resolve scope :: resolveArgs scope es

end

@[simp] theorem resolveArgs_eq_map (scope : List (Binder × ℕ)) (es : List TypedExpr) :
    resolveArgs scope es = es.map (resolve scope) := by
  induction es with
  | nil => rfl
  | cons e es ih => rw [resolveArgs, ih, List.map_cons]

theorem mentions_resolve_var (scope : List (Binder × ℕ)) (m : Mark) (x : String) :
    ((Expr.var m x).resolve scope).mentions = [Binder.rename scope x] := by
  rw [resolve, Binder.rename]
  cases Binder.lookup? scope x with
  | none => rfl
  | some b => rfl

/-- The names of an expression are replaced one by one. -/
theorem mentions_resolve (scope : List (Binder × ℕ)) (e : TypedExpr) :
    (e.resolve scope).mentions = e.mentions.map (Binder.rename scope) := by
  induction e using Expr.induct with
  | lit m v => rfl
  | var m x => exact mentions_resolve_var scope m x
  | not m e ih => simpa [resolve] using ih
  | call m f args ih =>
    simp only [resolve, resolveArgs_eq_map, collect_call, mention?, Option.toList_none,
      List.nil_append, List.map_flatMap, List.flatMap_map]
    exact List.flatMap_congr ih
  | binary m op l r ihl ihr => simpa [resolve] using congrArg₂ (· ++ ·) ihl ihr
  | cond m c t e ihc iht ihe =>
    simpa [resolve] using congrArg₂ (· ++ ·) ihc (congrArg₂ (· ++ ·) iht ihe)
  | assign m x e ih => simpa [resolve] using ih
  | seq m a b iha ihb => simpa [resolve] using congrArg₂ (· ++ ·) iha ihb

end Expr

/-! ## Programs -/

/-- The binder that a variable is. -/
def VarDecl.binder (v : VarDecl Mark) : Binder := ⟨v.name, .int, v.line⟩

namespace FunDecl

/-- The binders that a function brings: its parameters, unless the host provides it. -/
def binders (f : FunDecl Mark) : List Binder :=
  if f.isProvided then [] else f.params.map fun p => ⟨p.name, p.ty, f.line⟩

theorem binders_of_none {f : FunDecl Mark} (h : f.body = none) : f.binders = [] := by
  rw [binders, isProvided, h]
  rfl

theorem binders_of_some {f : FunDecl Mark} {body : TypedExpr} (h : f.body = some body) :
    f.binders = f.params.map fun p => ⟨p.name, p.ty, f.line⟩ := by
  rw [binders, isProvided, h]
  rfl

/-- The function with its names resolved, the parameters being numbered from `n` on. A function that
the host provides is left alone. -/
def resolved (globals : List (Binder × ℕ)) (n : ℕ) (f : FunDecl Mark) : FunDecl Mark :=
  match f.body with
  | none => f
  | some body =>
    { f with
      params := (f.binders.zipIdx n).map fun b => ⟨Binder.fresh b, b.1.ty⟩
      recursion := f.recursion.map fun r => { r with fallback := r.fallback.resolve globals }
      body := some (body.resolve (globals ++ f.binders.zipIdx n)) }

end FunDecl

/-- A tree of a program. -/
inductive Site where
  /-- The initial value of a variable. -/
  | initial (i : ℕ)
  /-- The body of a function. -/
  | body (j : ℕ)
  /-- What stands for the calls beyond a function's recursion bound. -/
  | fallback (j : ℕ)
  deriving DecidableEq

namespace TypedProgram

variable (p : TypedProgram)

/-- The binders of a program: the variables, then the parameters of its functions. -/
def binders : List Binder :=
  p.variables.map VarDecl.binder ++ p.functions.flatMap FunDecl.binders

/-- The variables, with their numbers. -/
def globals : List (Binder × ℕ) := (p.variables.map VarDecl.binder).zipIdx

/-- The number of binders before the parameters of the `j`-th function. -/
def firstParam (j : ℕ) : ℕ :=
  p.variables.length + ((p.functions.take j).flatMap FunDecl.binders).length

/-- The parameters of the `j`-th function, with their numbers. -/
def locals (j : ℕ) : List (Binder × ℕ) :=
  (p.functions[j]?.elim [] FunDecl.binders).zipIdx (p.firstParam j)

/-- The binders in scope: for an initial value, the variables before it; for a body, all variables
and then the parameters; beyond a recursion bound, the variables only. -/
def scopeAt : Site → List (Binder × ℕ)
  | .initial i => p.globals.take i
  | .body j => p.globals ++ p.locals j
  | .fallback _ => p.globals

/-- The tree at a site. A function that the host provides has none. -/
def at? : Site → Option TypedExpr
  | .initial i => p.variables[i]?.map VarDecl.init
  | .body j => p.functions[j]?.bind FunDecl.body
  | .fallback j => p.functions[j]?.bind fun f =>
    if f.isProvided then none else f.recursion.map Recursion.fallback

/-- The program with every name replaced by the fresh name of its binder. -/
def resolved : TypedProgram where
  «variables» := p.variables.zipIdx.map fun v =>
    ⟨FreshNames.name v.2, v.1.init.resolve (p.scopeAt (.initial v.2)), v.1.line⟩
  functions := p.functions.zipIdx.map fun f => f.1.resolved p.globals (p.firstParam f.2)
  library := p.library

/-- The name that occurs at a site, as the `i`-th one that the tree there mentions. -/
def mention? (t : Site) (i : ℕ) : Option String := (p.at? t).bind fun e => e.mentions[i]?

/-- The binder that this occurrence refers to. -/
def referent? (t : Site) (i : ℕ) : Option (Binder × ℕ) :=
  (p.mention? t i).bind (Binder.lookup? (p.scopeAt t))

end TypedProgram

end Rulebook
