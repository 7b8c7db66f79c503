/-!
# JSON trees

The trees in which programs are stored. A part of a tree is handed out together with the fact
that it is smaller, so readers can recurse on it. Two shapes recur: a *record* is an object, or
the array of its fields in order; a *variant* is a tag, with or without a payload.
-/

namespace Rulebook

/-- A JSON tree. -/
inductive Json where
  | null
  | bool (b : Bool)
  /-- A number written as an integer. -/
  | int (n : Int)
  /-- A number written with `scale` digits after the point. -/
  | decimal (digits : Int) (scale : Nat)
  | string (s : String)
  | array (elements : List Json)
  | object (members : List (String × Json))
  deriving Inhabited

namespace Json

/-- A tree smaller than `j`. -/
abbrev Part (j : Json) := { v : Json // sizeOf v < sizeOf j }

/-- The value of the first member of the given name, with the fact that it is smaller. -/
def lookupMember (name : String) :
    (members : List (String × Json)) → Option { v : Json // sizeOf v < sizeOf members }
  | [] => none
  | (key, v) :: rest =>
    if key = name then some ⟨v, by simp; omega⟩
    else (lookupMember name rest).map fun v => ⟨v.val, by have := v.property; simp; omega⟩

/-- The member of an object with the given name. -/
def member? : (j : Json) → String → Option j.Part
  | .object members, name =>
    (lookupMember name members).map fun v => ⟨v.val, by have := v.property; simp; omega⟩
  | _, _ => none

/-- The elements of an array. -/
def elements? : (j : Json) → Option (List j.Part)
  | .array elements =>
    some (elements.attach.map fun v =>
      ⟨v.val, by have := List.sizeOf_lt_of_mem v.property; simp; omega⟩)
  | _ => none

/-- The parts of an array are its elements. -/
theorem exists_elements? (xs : List Json) :
    ∃ ps, (Json.array xs).elements? = some ps ∧ ps.unattach = xs := by
  refine ⟨_, rfl, ?_⟩
  rw [List.unattach, List.map_map]
  exact List.attach_map_subtype_val xs

/-- The fields of a record, in the order of `names`. An object may lack some and have others; an
array has exactly these. -/
def record? (names : List String) (j : Json) : Option (List (Option j.Part)) :=
  match j with
  | .object members => some (names.map (Json.object members).member?)
  | .array elements =>
    if elements.length = names.length then
      (Json.array elements).elements?.map fun parts => parts.map some
    else none
  | _ => none

/-- The tag and the payload of a variant. -/
def variant? : (j : Json) → Option (String × Option j.Part)
  | .string tag => some (tag, none)
  | .object [(tag, v)] => some (tag, some ⟨v, by simp; omega⟩)
  | _ => none

/-- Whether a payload is none at all: missing, or `null`. -/
def isBare {j : Json} : Option j.Part → Bool
  | none => true
  | some ⟨.null, _⟩ => true
  | some _ => false

end Json

end Rulebook
