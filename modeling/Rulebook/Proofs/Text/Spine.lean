import Rulebook.Proofs.Text.Words

/-!
# Operands and signs

An expression built by operators is written as operands with signs between them, and the brackets
that are left out have to be found from the signs. `Shape.spine` lists operands and signs in the
order in which they are written; what is bracketed is an operand.

The tree can be rebuilt from that list: its root is the last of the loosest signs, since everything
to its left binds at least as tightly and everything to its right more tightly (`eq_of_loosest`).
So no two expressions have the same operands and signs (`Shape.spine_injective`).
-/

namespace Rulebook

/-- Operands with signs between them. -/
@[ext]
structure Spine where
  first : Shape
  rest : List (Operator × Shape)

/-- Operands and signs on both sides of a sign. -/
def Spine.join (s : Spine) (op : Operator) (t : Spine) : Spine :=
  ⟨s.first, s.rest ++ (op, t.first) :: t.rest⟩

/-- The words of operands and signs. -/
def Spine.words (style : Style) (s : Spine) : List Word :=
  Shape.wordsUpTo style 1 s.first ++
    s.rest.flatMap fun o => .sign o.1 :: Shape.wordsUpTo style 1 o.2

theorem Spine.words_join (style : Style) (s : Spine) (op : Operator) (t : Spine) :
    (s.join op t).words style = s.words style ++ .sign op :: t.words style := by
  simp [join, words]

namespace Shape

/-- A side of an operator: an operand if it is bracketed, operands and signs if it is not. -/
def side (bracketed : Bool) (e : Shape) (s : Spine) : Spine := if bracketed then ⟨e, []⟩ else s

/-- The operands and signs of an expression, as they are written. -/
def spine : Shape → Spine
  | .binary _ op l r =>
    (side (l.needsBrackets (.left op)) l (spine l)).join op
      (side (r.needsBrackets (.right op)) r (spine r))
  | e => ⟨e, []⟩

theorem spine_of_level {e : Shape} (h : e.level ≠ 2) : spine e = ⟨e, []⟩ := by
  cases e with
  | binary => exact absurd rfl h
  | _ => rfl

theorem exists_binary {e : Shape} (h : e.level = 2) : ∃ m op l r, e = .binary m op l r := by
  cases e with
  | binary m op l r => exact ⟨m, op, l, r, rfl⟩
  | _ => cases h

/-! ## Words -/

/-- Beside an operator everything loose is bracketed, and nothing tight. -/
theorem level_of_side {place : Place} (hplace : place.level = 2) (e : Shape) :
    (e.needsBrackets place = true → 1 < e.level) ∧
      (e.needsBrackets place = false → e.level ≤ 2) := by
  cases place with
  | left op | right op => cases e <;> simp [Expr.needsBrackets, Expr.level, Place.level]
  | negated | part | value | step => cases hplace

/-- The words of an expression are those of its operands and signs. -/
theorem words_spine (style : Style) (e : Shape) : (spine e).words style = wordsUpTo style 2 e := by
  by_cases hlevel : e.level = 2
  · induction e using Expr.induct with
    | binary m op l r ihl ihr =>
      have hside : ∀ {place : Place} (e : Shape), place.level = 2 →
          (e.level = 2 → (spine e).words style = wordsUpTo style 2 e) →
          (side (e.needsBrackets place) e (spine e)).words style =
            style.enclose (e.needsBrackets place) e (words style e) := by
        intro place e hplace ih
        obtain ⟨hloose, htight⟩ := level_of_side hplace e
        cases hneeds : e.needsBrackets place with
        | true =>
          rw [side, if_pos rfl, Spine.words, List.flatMap_nil, List.append_nil,
            wordsUpTo_of_lt (hloose hneeds), Style.enclose, if_pos rfl]
        | false =>
          rw [side, if_neg (by simp), Style.enclose, if_neg (by simp)]
          by_cases he : e.level = 2
          · rw [ih he, wordsUpTo_of_le (htight hneeds)]
          · have hle : e.level ≤ 1 := by
              have := htight hneeds
              omega
            rw [spine_of_level he, Spine.words, List.flatMap_nil, List.append_nil]
            exact wordsUpTo_of_le hle
      rw [spine, Spine.words_join, hside l rfl ihl, hside r rfl ihr, ← words,
        wordsUpTo_of_le (by simp [Expr.level])]
    | _ => cases hlevel
  · rw [spine_of_level hlevel, Spine.words, List.flatMap_nil, List.append_nil]
    change wordsUpTo style 1 e = wordsUpTo style 2 e
    by_cases hle : e.level ≤ 1
    · rw [wordsUpTo_of_le hle, wordsUpTo_of_le (by omega)]
    · rw [wordsUpTo_of_lt (by omega), wordsUpTo_of_lt (by omega)]

/-! ## The root -/

/-- **The root of a tree is the last of the loosest signs.** -/
theorem eq_of_loosest {α : Type} {xs ys xs' ys' : List (Operator × α)} {o o' : Operator × α}
    (h : xs ++ o :: ys = xs' ++ o' :: ys')
    (hleft : ∀ x ∈ xs, x.1.precedence ≤ o.1.precedence)
    (hright : ∀ y ∈ ys, y.1.precedence < o.1.precedence)
    (hleft' : ∀ x ∈ xs', x.1.precedence ≤ o'.1.precedence)
    (hright' : ∀ y ∈ ys', y.1.precedence < o'.1.precedence) :
    xs = xs' ∧ o = o' ∧ ys = ys' := by
  rcases List.append_eq_append_iff.1 h with ⟨zs, rfl, hzs⟩ | ⟨zs, rfl, hzs⟩
  · cases zs with
    | nil =>
      obtain ⟨rfl, rfl⟩ := List.cons.inj hzs
      exact ⟨(List.append_nil xs).symm, rfl, rfl⟩
    | cons z zs =>
      -- each root would stand to the side of the other on which it is too loose
      obtain ⟨rfl, rfl⟩ := List.cons.inj hzs
      have hle := hleft' o (by simp)
      have hlt := hright o' (by simp)
      omega
  · cases zs with
    | nil =>
      obtain ⟨rfl, rfl⟩ := List.cons.inj hzs
      exact ⟨List.append_nil xs', rfl, rfl⟩
    | cons z zs =>
      obtain ⟨rfl, rfl⟩ := List.cons.inj hzs
      have hle := hleft o' (by simp)
      have hlt := hright' o (by simp)
      omega

/-- A side of an operator has only signs below a bound if its root is below the bound, or it is
bracketed. -/
theorem precedence_side {place : Place} {bound : ℕ} {e : Shape}
    (hspine : ∀ m op l r, e = .binary m op l r →
      ∀ o ∈ (spine e).rest, o.1.precedence ≤ op.precedence)
    (hplace : ∀ m op l r, e = .binary m op l r → e.needsBrackets place = false →
      op.precedence < bound) :
    ∀ o ∈ (side (e.needsBrackets place) e (spine e)).rest, o.1.precedence < bound := by
  intro o ho
  cases hneeds : e.needsBrackets place with
  | true =>
    rw [hneeds, side, if_pos rfl] at ho
    cases ho
  | false =>
    rw [hneeds, side, if_neg (by simp)] at ho
    by_cases hlevel : e.level = 2
    · obtain ⟨m, op, l, r, rfl⟩ := exists_binary hlevel
      exact Nat.lt_of_le_of_lt (hspine m op l r rfl o ho) (hplace m op l r rfl hneeds)
    · rw [spine_of_level hlevel] at ho
      cases ho

/-- What stands unbracketed left of an operator binds at least as tightly. -/
theorem precedence_of_left {op : Operator} {e : Shape} : ∀ m inner l r,
    e = .binary m inner l r → e.needsBrackets (.left op) = false →
      inner.precedence < op.precedence + 1 := by
  rintro _ inner _ _ rfl hneeds
  simpa [Expr.needsBrackets, Nat.lt_succ_iff] using hneeds

/-- What stands unbracketed right of an operator binds more tightly. -/
theorem precedence_of_right {op : Operator} {e : Shape} : ∀ m inner l r,
    e = .binary m inner l r → e.needsBrackets (.right op) = false →
      inner.precedence < op.precedence := by
  rintro _ inner _ _ rfl hneeds
  simpa [Expr.needsBrackets] using hneeds

/-- The signs of an expression bind at least as tightly as its root. -/
theorem precedence_spine (e : Shape) : ∀ m op l r, e = .binary m op l r →
    ∀ o ∈ (spine e).rest, o.1.precedence ≤ op.precedence := by
  induction e using Expr.induct with
  | binary m op l r ihl ihr =>
    rintro _ _ _ _ ⟨⟩ o ho
    rw [spine, Spine.join, List.mem_append, List.mem_cons] at ho
    rcases ho with ho | rfl | ho
    · exact Nat.le_of_lt_succ (precedence_side ihl precedence_of_left o ho)
    · exact Nat.le_refl _
    · exact Nat.le_of_lt (precedence_side ihr precedence_of_right o ho)
  | _ => exact nofun

theorem precedence_left (op : Operator) (l : Shape) :
    ∀ o ∈ (side (l.needsBrackets (.left op)) l (spine l)).rest,
      o.1.precedence ≤ op.precedence := fun o ho =>
  Nat.le_of_lt_succ (precedence_side (precedence_spine l) precedence_of_left o ho)

theorem precedence_right (op : Operator) (r : Shape) :
    ∀ o ∈ (side (r.needsBrackets (.right op)) r (spine r)).rest,
      o.1.precedence < op.precedence :=
  precedence_side (precedence_spine r) precedence_of_right

/-! ## The tree -/

/-- A side of an operator is found from its operands and signs: it is bracketed if it is the one
operand there is, and that operand does not bind tighter than every operator. -/
theorem side_injective {place : Place} {d e : Shape}
    (ih : spine d = spine e → d = e)
    (h : side (d.needsBrackets place) d (spine d) = side (e.needsBrackets place) e (spine e)) :
    d = e := by
  -- a bracketed expression is an operand, so an unbracketed one with the same spine is that operand
  have hmixed : ∀ {d e : Shape}, d.needsBrackets place = true → e.needsBrackets place = false →
      ⟨d, []⟩ = spine e → d = e := by
    intro d e hd he h
    by_cases hlevel : e.level = 2
    · obtain ⟨m, op, l, r, rfl⟩ := exists_binary hlevel
      have hrest := congrArg Spine.rest h
      simp [spine, Spine.join] at hrest
    · rw [spine_of_level hlevel] at h
      exact congrArg Spine.first h
  cases hd : d.needsBrackets place <;> cases he : e.needsBrackets place <;>
    simp only [hd, he, side, if_true, Bool.false_eq_true, if_false] at h
  · exact ih h
  · exact (hmixed he hd h.symm).symm
  · exact hmixed hd he h
  · exact congrArg Spine.first h

/-- **No two expressions have the same operands and signs.** -/
theorem spine_injective {d e : Shape} (h : spine d = spine e) : d = e := by
  induction d using Expr.induct generalizing e with
  | binary m op l r ihl ihr =>
    by_cases hlevel : e.level = 2
    · obtain ⟨m', op', l', r', rfl⟩ := exists_binary hlevel
      have hfirst := congrArg Spine.first h
      obtain ⟨hxs, ho, hys⟩ := eq_of_loosest (congrArg Spine.rest h) (precedence_left op l)
        (precedence_right op r) (precedence_left op' l') (precedence_right op' r')
      obtain ⟨rfl, hr⟩ := Prod.mk.inj ho
      have hl : l = l' := side_injective ihl (Spine.ext hfirst hxs)
      have hr : r = r' := side_injective ihr (Spine.ext hr hys)
      rw [hl, hr]
    · rw [spine_of_level hlevel] at h
      have hrest := congrArg Spine.rest h
      simp [spine, Spine.join] at hrest
  | _ =>
    by_cases hlevel : e.level = 2
    · obtain ⟨m', op', l', r', rfl⟩ := exists_binary hlevel
      have hrest := congrArg Spine.rest h
      simp [spine, Spine.join] at hrest
    · rw [spine_of_level hlevel] at h
      exact congrArg Spine.first h

end Shape

end Rulebook
