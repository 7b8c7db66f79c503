import Rulebook.Proofs.Typing.Rules

/-!
# The leaf that a decision chooses

Once every test has a truth value, a decision chooses one of its leaves (`Decision.choose`), and
choosing goes with the operations on decisions. A list of rules chooses the first rule whose
condition is true; the rules of a decision choose the same leaf (`Decision.find?_rules`). The
truth values need only go with the connective that the conditions of rules are made with, which is
what a `Valuation` is.
-/

namespace Rulebook

/-- Truth values of expressions. The tests of `P` are closed under conjunction, and the truth value
of a conjunction is that of its parts. -/
structure Valuation (P : TypedExpr → Prop) where
  holds : TypedExpr → Bool
  true_mem : ∀ line, P (.literal (.bool true) line)
  and_mem : ∀ a b line, P a → P b → P (.operation .and a b line)
  holds_true : ∀ c, P c → c.isTrueLiteral → holds c
  holds_and : ∀ a b line, P a → P b → holds (.operation .and a b line) = (holds a && holds b)

namespace Decision

variable {α β γ : Type}

/-- The leaf that a decision comes to, by the truth values of its tests. -/
def choose (holds : TypedExpr → Bool) : Decision α → α
  | .leaf a => a
  | .branch _ c x y => if holds c then x.choose holds else y.choose holds

section

variable (holds : TypedExpr → Bool)

@[simp] theorem choose_map (f : α → β) (d : Decision α) :
    (d.map f).choose holds = f (d.choose holds) := by
  induction d with
  | leaf a => rfl
  | branch line c x y ihx ihy => rw [map, choose, choose, ihx, ihy, apply_ite f]

@[simp] theorem choose_bind (f : α → Decision β) (d : Decision α) :
    (d.bind f).choose holds = (f (d.choose holds)).choose holds := by
  induction d with
  | leaf a => rfl
  | branch line c x y ihx ihy =>
    rw [bind, choose, choose, ihx, ihy, apply_ite fun a => (f a).choose holds]

@[simp] theorem choose_atLine (line : Line) (d : Decision α) :
    (d.atLine line).choose holds = d.choose holds := by
  induction d with
  | leaf a => rfl
  | branch _ c x y ihx ihy => rw [atLine, choose, choose, ihx, ihy]

@[simp] theorem choose_all (line : Line) (ds : List (Decision α)) :
    (all line ds).choose holds = ds.map (choose holds) := by
  induction ds with
  | nil => rfl
  | cons d ds ih => rw [all, choose_bind, choose_atLine, choose_map, ih, List.map_cons]

end

variable {P : TypedExpr → Prop} (V : Valuation P)

/-- Of two trees decided together, each comes to its own leaf. -/
theorem choose_both {Q : α → Prop} {R : β → Prop} (f : α → β → γ) {d : Decision α}
    {e : Decision β} (hd : d.Holds P Q) (he : e.Holds P R) :
    (both f d e).choose V.holds = f (d.choose V.holds) (e.choose V.holds) := by
  induction d generalizing e with
  | leaf a => rw [both, choose_map, choose]
  | branch line c x y ihx ihy =>
    cases e with
    | leaf b =>
      simp only [both, choose, ihx hd.2.1 he, ihy hd.2.2 he]
      cases V.holds c <;> rfl
    | branch _ c' x' y' =>
      simp only [both, choose, V.holds_and _ _ _ hd.1 he.1, ihx hd.2.1 he.2.1, ihx hd.2.1 he.2.2,
        ihy hd.2.2 he.2.1, ihy hd.2.2 he.2.2]
      cases V.holds c <;> cases V.holds c' <;> rfl

/-- A rule under one more test. -/
theorem holds_guard {c : TypedExpr} {r : Rule} (hc : P c) (hr : P r.condition) :
    V.holds (r.guard c).condition = (V.holds c && V.holds r.condition) := by
  rw [Rule.guard]
  split
  · next htrue => rw [V.holds_true _ hr htrue, Bool.and_true]
  · exact V.holds_and c r.condition c.line hc hr

/-- **The first rule that applies is the one of the chosen leaf.** -/
theorem find?_rules {Q : TypedExpr → Prop} {d : Decision TypedExpr} (hd : d.Holds P Q) :
    (d.rules.find? fun r => V.holds r.condition).map Rule.action = some (d.choose V.holds) := by
  induction d with
  | leaf a =>
    have htrue := V.holds_true _ (V.true_mem a.line) rfl
    rw [rules, List.find?_cons, htrue]
    rfl
  | branch line c x y ihx ihy =>
    have hguard : ∀ r ∈ x.rules,
        V.holds (r.guard c).condition = (V.holds c && V.holds r.condition) := fun r hr =>
      holds_guard V hd.1 (hd.2.1.rules V.true_mem V.and_mem r hr).1
    rw [rules, List.find?_append, choose]
    cases hc : V.holds c with
    | true =>
      have hx : (x.rules.map (Rule.guard c)).find? (fun r => V.holds r.condition) =
          (x.rules.find? fun r => V.holds r.condition).map (Rule.guard c) := by
        rw [List.find?_map, ← List.head?_filter, ← List.head?_filter]
        congr 2
        refine List.filter_congr fun r hr => ?_
        rw [Function.comp_apply, hguard r hr, hc, Bool.true_and]
      obtain ⟨r, hr, haction⟩ := Option.map_eq_some_iff.1 (ihx hd.2.1)
      rw [hx, hr, if_pos rfl, ← haction]
      rfl
    | false =>
      have hx : (x.rules.map (Rule.guard c)).find? (fun r => V.holds r.condition) = none := by
        rw [List.find?_map, Option.map_eq_none_iff, List.find?_eq_none]
        intro r hr
        rw [Function.comp_apply, hguard r hr, hc, Bool.false_and]
        exact Bool.false_ne_true
      rw [hx, Option.none_or, ihy hd.2.2]
      rfl

end Decision

end Rulebook
