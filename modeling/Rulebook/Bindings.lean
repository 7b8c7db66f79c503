/-!
# Bindings

Finite maps from names, kept as association lists in which the first entry for a name counts.
There are two ways to give a name a new meaning: `bind` puts an entry on top and hides the old
one, `set` overwrites the old one in place. Either way a binding is a new value, and the old one
does not change.
-/

namespace Rulebook

/-- Names bound to things of type `α`. -/
structure Bindings (α : Type) where
  entries : List (String × α)
  deriving DecidableEq

namespace Bindings

variable {α : Type}

/-- No names. -/
def empty : Bindings α := ⟨[]⟩

/-- The thing bound to a name. -/
def find? (b : Bindings α) (x : String) : Option α := b.entries.lookup x

/-- Whether a name is bound. -/
def contains (b : Bindings α) (x : String) : Bool := (b.find? x).isSome

/-- Binds `x` to `a` on top of what is there. -/
def bind (b : Bindings α) (x : String) (a : α) : Bindings α := ⟨(x, a) :: b.entries⟩

/-- Overwrites the first entry for a name, or adds one at the end. -/
def setEntry (x : String) (a : α) : List (String × α) → List (String × α)
  | [] => [(x, a)]
  | (y, c) :: rest => if y = x then (x, a) :: rest else (y, c) :: setEntry x a rest

/-- Binds `x` to `a` in place of what it was bound to. -/
def set (b : Bindings α) (x : String) (a : α) : Bindings α := ⟨setEntry x a b.entries⟩

/-! ## Look-up -/

theorem lookup_cons_eq_ite (x y : String) (a : α) (rest : List (String × α)) :
    ((x, a) :: rest).lookup y = if y = x then some a else rest.lookup y := by
  by_cases h : y = x
  · simp [h]
  · simp [List.lookup_cons, beq_false_of_ne h, h]

theorem lookup_setEntry (x y : String) (a : α) (entries : List (String × α)) :
    (setEntry x a entries).lookup y = if y = x then some a else entries.lookup y := by
  induction entries with
  | nil => rw [setEntry, lookup_cons_eq_ite]
  | cons c rest ih =>
    obtain ⟨z, c⟩ := c
    rw [setEntry]
    split
    · next h => subst h; simp only [lookup_cons_eq_ite]; split <;> rfl
    · next h =>
      simp only [lookup_cons_eq_ite, ih]
      by_cases hy : y = z
      · subst hy; simp [h]
      · simp [hy]

@[simp] theorem find?_empty (x : String) : (empty : Bindings α).find? x = none := rfl

theorem find?_bind (b : Bindings α) (x y : String) (a : α) :
    (b.bind x a).find? y = if y = x then some a else b.find? y :=
  lookup_cons_eq_ite x y a b.entries

theorem find?_set (b : Bindings α) (x y : String) (a : α) :
    (b.set x a).find? y = if y = x then some a else b.find? y :=
  lookup_setEntry x y a b.entries

@[simp] theorem find?_bind_self (b : Bindings α) (x : String) (a : α) :
    (b.bind x a).find? x = some a := by
  simp [find?_bind]

@[simp] theorem find?_set_self (b : Bindings α) (x : String) (a : α) :
    (b.set x a).find? x = some a := by
  simp [find?_set]

end Bindings

end Rulebook
