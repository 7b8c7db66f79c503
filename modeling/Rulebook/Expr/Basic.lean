import Rulebook.Operator

/-!
# Expressions

An expression is a tree whose nodes carry marks. A raw expression is marked by source lines, a
typed one by lines and types (`Mark`); forgetting types is a map of marks. The type at a node is
data: nothing in `TypedExpr` forces it to be the right one, that is the checker's business.

Every expression has its list of `subterms`, in pre-order, from which the queries (`calls`,
`hasCond`, counts) are read off, and an induction principle with a hypothesis for every argument
of a call.
-/

namespace Rulebook

/-- A line of source text. -/
abbrev Line := UInt32

/-- What a typed node carries. -/
structure Mark where
  ty : Ty
  line : Line
  deriving DecidableEq

/-- Expressions whose nodes are marked by `μ`. -/
inductive Expr (μ : Type) where
  | lit (mark : μ) (value : Literal)
  | var (mark : μ) (name : String)
  | not (mark : μ) (operand : Expr μ)
  | call (mark : μ) (name : String) (args : List (Expr μ))
  | binary (mark : μ) (op : Operator) (left right : Expr μ)
  | cond (mark : μ) (test yes no : Expr μ)
  | assign (mark : μ) (target : String) (value : Expr μ)
  /-- Two expressions run in order. -/
  | seq (mark : μ) (first second : Expr μ)

/-- An expression as written: nodes know their lines. -/
abbrev RawExpr := Expr Line

/-- An expression whose nodes also know their types. -/
abbrev TypedExpr := Expr Mark

namespace Expr

variable {μ ν : Type}

instance [Inhabited μ] : Inhabited (Expr μ) := ⟨.lit default (.int 0)⟩

/-! ## Induction -/

/-- Induction on expressions, with a hypothesis for every argument of a call. -/
@[elab_as_elim, induction_eliminator]
theorem induct {motive : Expr μ → Prop}
    (lit : ∀ m v, motive (.lit m v))
    (var : ∀ m x, motive (.var m x))
    (not : ∀ m e, motive e → motive (.not m e))
    (call : ∀ m f args, (∀ a ∈ args, motive a) → motive (.call m f args))
    (binary : ∀ m op l r, motive l → motive r → motive (.binary m op l r))
    (cond : ∀ m c t e, motive c → motive t → motive e → motive (.cond m c t e))
    (assign : ∀ m x e, motive e → motive (.assign m x e))
    (seq : ∀ m a b, motive a → motive b → motive (.seq m a b))
    (e : Expr μ) : motive e :=
  Expr.rec lit var not call binary cond assign seq nofun
    (fun _ _ hd tl a ha => by
      cases ha with
      | head => exact hd
      | tail _ h => exact tl a h) e

/-! ## Equality -/

mutual

/-- Equality of expressions, decided by recursion on the left one. -/
def decEq [DecidableEq μ] : (d e : Expr μ) → Decidable (d = e)
  | .lit m v, .lit n w =>
    decidable_of_iff (m = n ∧ v = w) (by simp)
  | .var m x, .var n y =>
    decidable_of_iff (m = n ∧ x = y) (by simp)
  | .not m d, .not n e =>
    have := decEq d e
    decidable_of_iff (m = n ∧ d = e) (by simp)
  | .call m f ds, .call n g es =>
    have := decEqList ds es
    decidable_of_iff (m = n ∧ f = g ∧ ds = es) (by simp)
  | .binary m o a b, .binary n p c d =>
    have := decEq a c
    have := decEq b d
    decidable_of_iff (m = n ∧ o = p ∧ a = c ∧ b = d) (by simp)
  | .cond m a b c, .cond n d e f =>
    have := decEq a d
    have := decEq b e
    have := decEq c f
    decidable_of_iff (m = n ∧ a = d ∧ b = e ∧ c = f) (by simp)
  | .assign m x d, .assign n y e =>
    have := decEq d e
    decidable_of_iff (m = n ∧ x = y ∧ d = e) (by simp)
  | .seq m a b, .seq n c d =>
    have := decEq a c
    have := decEq b d
    decidable_of_iff (m = n ∧ a = c ∧ b = d) (by simp)
  | .lit .., .var .. | .lit .., .not .. | .lit .., .call .. | .lit .., .binary ..
  | .lit .., .cond .. | .lit .., .assign .. | .lit .., .seq .. => isFalse nofun
  | .var .., .lit .. | .var .., .not .. | .var .., .call .. | .var .., .binary ..
  | .var .., .cond .. | .var .., .assign .. | .var .., .seq .. => isFalse nofun
  | .not .., .lit .. | .not .., .var .. | .not .., .call .. | .not .., .binary ..
  | .not .., .cond .. | .not .., .assign .. | .not .., .seq .. => isFalse nofun
  | .call .., .lit .. | .call .., .var .. | .call .., .not .. | .call .., .binary ..
  | .call .., .cond .. | .call .., .assign .. | .call .., .seq .. => isFalse nofun
  | .binary .., .lit .. | .binary .., .var .. | .binary .., .not .. | .binary .., .call ..
  | .binary .., .cond .. | .binary .., .assign .. | .binary .., .seq .. => isFalse nofun
  | .cond .., .lit .. | .cond .., .var .. | .cond .., .not .. | .cond .., .call ..
  | .cond .., .binary .. | .cond .., .assign .. | .cond .., .seq .. => isFalse nofun
  | .assign .., .lit .. | .assign .., .var .. | .assign .., .not .. | .assign .., .call ..
  | .assign .., .binary .. | .assign .., .cond .. | .assign .., .seq .. => isFalse nofun
  | .seq .., .lit .. | .seq .., .var .. | .seq .., .not .. | .seq .., .call ..
  | .seq .., .binary .. | .seq .., .cond .. | .seq .., .assign .. => isFalse nofun

/-- Equality of argument lists. -/
def decEqList [DecidableEq μ] : (ds es : List (Expr μ)) → Decidable (ds = es)
  | [], [] => isTrue rfl
  | [], _ :: _ | _ :: _, [] => isFalse nofun
  | d :: ds, e :: es =>
    have := decEq d e
    have := decEqList ds es
    decidable_of_iff (d = e ∧ ds = es) (by simp)

end

instance [DecidableEq μ] : DecidableEq (Expr μ) := decEq

/-! ## Marks -/

/-- The mark of the root. -/
def mark : Expr μ → μ
  | .lit m _ | .var m _ | .not m _ | .call m _ _ | .binary m _ _ _ | .cond m _ _ _
  | .assign m _ _ | .seq m _ _ => m

/-- The type at the root of a typed expression. -/
def ty (e : TypedExpr) : Ty := e.mark.ty

/-- The line at the root of a typed expression. -/
def line (e : TypedExpr) : Line := e.mark.line

mutual

/-- The same tree with every mark replaced. -/
def map (f : μ → ν) : Expr μ → Expr ν
  | .lit m v => .lit (f m) v
  | .var m x => .var (f m) x
  | .not m e => .not (f m) (e.map f)
  | .call m g args => .call (f m) g (mapList f args)
  | .binary m op l r => .binary (f m) op (l.map f) (r.map f)
  | .cond m c t e => .cond (f m) (c.map f) (t.map f) (e.map f)
  | .assign m x e => .assign (f m) x (e.map f)
  | .seq m a b => .seq (f m) (a.map f) (b.map f)

/-- Every argument with every mark replaced. -/
def mapList (f : μ → ν) : List (Expr μ) → List (Expr ν)
  | [] => []
  | e :: es => e.map f :: mapList f es

end

@[simp] theorem mapList_eq_map (f : μ → ν) (es : List (Expr μ)) :
    mapList f es = es.map (map f) := by
  induction es with
  | nil => rfl
  | cons e es ih => rw [mapList, ih, List.map_cons]

/-- A typed expression without its types. -/
def untyped (e : TypedExpr) : RawExpr := e.map Mark.line

/-! ## Typed nodes

The type of a node built here is the one its form determines. -/

/-- A literal of its own type. -/
def literal (v : Literal) (line : Line) : TypedExpr := .lit ⟨v.ty, line⟩ v

/-- The negation of an expression. -/
def negation (e : TypedExpr) (line : Line) : TypedExpr := .not ⟨.bool, line⟩ e

/-- An operator between two expressions. -/
def operation (op : Operator) (l r : TypedExpr) (line : Line) : TypedExpr :=
  .binary ⟨op.resultTy, line⟩ op l r

/-- A conditional, of the type of its first branch. -/
def conditional (c t e : TypedExpr) (line : Line) : TypedExpr := .cond ⟨t.ty, line⟩ c t e

/-- An assignment. -/
def assignment (x : String) (e : TypedExpr) (line : Line) : TypedExpr := .assign ⟨.void, line⟩ x e

/-- Two expressions in order. -/
def sequence (a b : TypedExpr) (line : Line) : TypedExpr := .seq ⟨.void, line⟩ a b

/-! ## Queries -/

/-- The literal an expression consists of, if it is one. -/
def literal? : Expr μ → Option Literal
  | .lit _ v => some v
  | _ => none

/-- Whether an expression is the literal `true`. -/
def isTrueLiteral (e : Expr μ) : Bool := e.literal? = some (.bool true)

/-- Whether the root is a conditional. -/
def isCond : Expr μ → Bool
  | .cond .. => true
  | _ => false

/-- Whether the root is a call of `f`. -/
def isCallTo (f : String) : Expr μ → Bool
  | .call _ g _ => g = f
  | _ => false

mutual

/-- All subterms in pre-order, the expression itself first. -/
def subterms : Expr μ → List (Expr μ)
  | .lit m v => [.lit m v]
  | .var m x => [.var m x]
  | .not m e => .not m e :: e.subterms
  | .call m f args => .call m f args :: subtermsList args
  | .binary m op l r => .binary m op l r :: (l.subterms ++ r.subterms)
  | .cond m c t e => .cond m c t e :: (c.subterms ++ t.subterms ++ e.subterms)
  | .assign m x e => .assign m x e :: e.subterms
  | .seq m a b => .seq m a b :: (a.subterms ++ b.subterms)

/-- The subterms of all arguments. -/
def subtermsList : List (Expr μ) → List (Expr μ)
  | [] => []
  | e :: es => e.subterms ++ subtermsList es

end

@[simp] theorem subtermsList_eq_flatMap (es : List (Expr μ)) :
    subtermsList es = es.flatMap subterms := by
  induction es with
  | nil => rfl
  | cons e es ih => rw [subtermsList, ih, List.flatMap_cons]

/-- The number of nodes. -/
def size (e : Expr μ) : Nat := e.subterms.length

/-- The number of subterms with a property. -/
def count (p : Expr μ → Bool) (e : Expr μ) : Nat := e.subterms.countP p

/-- Whether a conditional occurs anywhere. -/
def hasCond (e : Expr μ) : Bool := e.subterms.any isCond

/-- Whether a call of `f` occurs anywhere. -/
def calls (e : Expr μ) (f : String) : Bool := e.subterms.any (isCallTo f)

end Expr

end Rulebook
