/-!
# Types

Three primitive types and function types of any nesting. `Ty.text` is the form in which types
appear in messages; equality of types is decided structurally.
-/

namespace Rulebook

/-- The type of an expression. -/
inductive Ty where
  | void
  | int
  | bool
  /-- A function of the given parameter types. -/
  | fn (params : List Ty) (ret : Ty)
  deriving Inhabited

namespace Ty

/-! ## Equality -/

mutual

/-- Equality of types, decided by recursion on the left one. -/
def decEq : (s t : Ty) → Decidable (s = t)
  | .void, .void => isTrue rfl
  | .int, .int => isTrue rfl
  | .bool, .bool => isTrue rfl
  | .fn ps r, .fn qs s =>
    match decEqList ps qs, decEq r s with
    | isTrue hp, isTrue hr => isTrue (by rw [hp, hr])
    | isFalse hp, _ => isFalse fun h => hp (by injection h)
    | _, isFalse hr => isFalse fun h => hr (by injection h)
  | .void, .int | .void, .bool | .void, .fn .. => isFalse nofun
  | .int, .void | .int, .bool | .int, .fn .. => isFalse nofun
  | .bool, .void | .bool, .int | .bool, .fn .. => isFalse nofun
  | .fn .., .void | .fn .., .int | .fn .., .bool => isFalse nofun

/-- Equality of lists of types. -/
def decEqList : (ss ts : List Ty) → Decidable (ss = ts)
  | [], [] => isTrue rfl
  | [], _ :: _ | _ :: _, [] => isFalse nofun
  | s :: ss, t :: ts =>
    match decEq s t, decEqList ss ts with
    | isTrue h, isTrue hs => isTrue (by rw [h, hs])
    | isFalse h, _ => isFalse fun e => h (by injection e)
    | _, isFalse hs => isFalse fun e => hs (by injection e)

end

instance : DecidableEq Ty := decEq

/-! ## Induction -/

/-- Induction on types, with a hypothesis for every parameter type. -/
@[elab_as_elim, induction_eliminator]
theorem induct {motive : Ty → Prop} (void : motive .void) (int : motive .int)
    (bool : motive .bool)
    (fn : ∀ params ret, (∀ p ∈ params, motive p) → motive ret → motive (.fn params ret))
    (t : Ty) : motive t :=
  Ty.rec void int bool fn nofun
    (fun _ _ hd tl p hp => by
      cases hp with
      | head => exact hd
      | tail _ h => exact tl p h) t

/-! ## Classes and text -/

/-- Everything but a function type: what a variable can hold and a host operation can take. -/
def isPrimitive : Ty → Bool
  | .fn .. => false
  | _ => true

mutual

/-- The text of a type: `void`, `int`, `bool`, or `(p, q) -> r`. -/
def text : Ty → String
  | .void => "void"
  | .int => "int"
  | .bool => "bool"
  | .fn params ret => "(" ++ ", ".intercalate (texts params) ++ ") -> " ++ ret.text

/-- The texts of several types. -/
def texts : List Ty → List String
  | [] => []
  | t :: ts => t.text :: texts ts

end

@[simp] theorem texts_eq_map (ts : List Ty) : texts ts = ts.map text := by
  induction ts with
  | nil => rfl
  | cons t ts ih => rw [texts, ih, List.map_cons]

end Ty

end Rulebook
