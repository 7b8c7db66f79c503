import Mathlib.Algebra.Order.BigOperators.Group.List
import Mathlib.Algebra.Order.BigOperators.GroupWithZero.List
import Mathlib.Algebra.Order.Ring.Nat
import Mathlib.Tactic.Ring
import Rulebook.Proofs.Folding.Partial
import Rulebook.Rule

/-!
# The number of rules

Pulling the conditionals out of an expression multiplies it: two parts that stand side by side are
decided together, so their outcomes multiply, and only the branches of a conditional add up
(`Expr.outcomes`). Every outcome becomes one rule (`length_rules`): `Decision.both` drops none of
the combinations it splits into and makes none twice, and neither does `Decision.all`.

Folding constants drops branches and adds none, so it never makes more rules (`Folds.outcomes_le`).
-/

namespace Rulebook

/-! ## Leaves -/

namespace Decision

variable {α β γ : Type}

/-- The number of leaves of a decision. -/
def leaves : Decision α → ℕ
  | .leaf _ => 1
  | .branch _ _ x y => x.leaves + y.leaves

@[simp] theorem leaves_map (f : α → β) (d : Decision α) : (d.map f).leaves = d.leaves := by
  induction d with
  | leaf a => rfl
  | branch line c x y ihx ihy => simp only [map, leaves, ihx, ihy]

@[simp] theorem leaves_atLine (line : Line) (d : Decision α) :
    (d.atLine line).leaves = d.leaves := by
  induction d with
  | leaf a => rfl
  | branch _ c x y ihx ihy => simp only [atLine, leaves, ihx, ihy]

/-- Trees of one size in the place of the leaves. -/
theorem leaves_bind {f : α → Decision β} {n : ℕ} (hf : ∀ a, (f a).leaves = n) (d : Decision α) :
    (d.bind f).leaves = d.leaves * n := by
  induction d with
  | leaf a => simp only [bind, leaves, hf, Nat.one_mul]
  | branch line c x y ihx ihy => simp only [bind, leaves, ihx, ihy, Nat.add_mul]

theorem leaves_both (f : α → β → γ) (d : Decision α) (e : Decision β) :
    (both f d e).leaves = d.leaves * e.leaves := by
  induction d generalizing e with
  | leaf a => simp only [both, leaves_map, leaves, Nat.one_mul]
  | branch line c x y ihx ihy =>
    cases e with
    | leaf b => simp only [both, leaves, ihx, ihy, Nat.mul_one]
    | branch _ c' x' y' =>
      -- the four combinations of a branch on the left with a branch on the right
      simp only [both, leaves, ihx, ihy]
      ring

theorem leaves_all (line : Line) (ds : List (Decision α)) :
    (all line ds).leaves = (ds.map leaves).prod := by
  induction ds with
  | nil => rfl
  | cons d ds ih =>
    have hrest : ∀ a, ((all line ds).map (a :: ·)).leaves = (ds.map leaves).prod := by
      intro a
      rw [leaves_map, ih]
    rw [all, leaves_bind hrest, leaves_atLine, List.map_cons, List.prod_cons]

theorem length_rules (d : Decision TypedExpr) : d.rules.length = d.leaves := by
  induction d with
  | leaf a => rfl
  | branch line c x y ihx ihy =>
    rw [rules, List.length_append, List.length_map, ihx, ihy, leaves]

end Decision

/-! ## Outcomes -/

namespace Expr

mutual

/-- The number of ways in which the conditionals of an expression can come out, each taken with
every way of those beside it. -/
def outcomes : TypedExpr → ℕ
  | .lit .. | .var .. => 1
  | .not _ e => e.outcomes
  | .call _ _ args => outcomesArgs args
  | .binary _ _ l r => l.outcomes * r.outcomes
  | .cond _ c t e => c.outcomes * (t.outcomes + e.outcomes)
  | .assign _ _ e => e.outcomes
  | .seq _ a b => a.outcomes * b.outcomes

/-- The product of the outcomes of all arguments. -/
def outcomesArgs : List TypedExpr → ℕ
  | [] => 1
  | e :: es => e.outcomes * outcomesArgs es

end

@[simp] theorem outcomesArgs_eq_prod (es : List TypedExpr) :
    outcomesArgs es = (es.map outcomes).prod := by
  induction es with
  | nil => rfl
  | cons e es ih => rw [outcomesArgs, ih, List.map_cons, List.prod_cons]

theorem leaves_decision (e : TypedExpr) : e.decision.leaves = e.outcomes := by
  induction e using Expr.induct with
  | lit m v => rfl
  | var m x => rfl
  | not m e ih => rw [decision, Decision.leaves_map, ih, outcomes]
  | call m f args ih =>
    have hargs : (args.map decision).map Decision.leaves = args.map outcomes := by
      rw [List.map_map]
      exact List.map_congr_left ih
    rw [decision, decisions_eq_map, Decision.leaves_map, Decision.leaves_all, hargs, outcomes,
      outcomesArgs_eq_prod]
  | binary m op l r ihl ihr => rw [decision, Decision.leaves_both, ihl, ihr, outcomes]
  | cond m c t e ihc iht ihe =>
    have hbranch : ∀ c, (Decision.branch m.line c t.decision e.decision).leaves =
        t.outcomes + e.outcomes := by
      intro c
      rw [Decision.leaves, iht, ihe]
    rw [decision, Decision.leaves_bind hbranch, Decision.leaves_atLine, ihc, outcomes]
  | assign m x e ih => rw [decision, Decision.leaves_map, ih, outcomes]
  | seq m a b iha ihb => rw [decision, Decision.leaves_both, iha, ihb, outcomes]

/-- **An expression has a rule for every outcome of its conditionals.** -/
theorem length_rules (e : TypedExpr) : e.rules.length = e.outcomes := by
  rw [rules, Decision.length_rules, leaves_decision]

/-! ## Folding -/

theorem outcomes_pos (e : TypedExpr) : 0 < e.outcomes := by
  induction e using Expr.induct with
  | lit | var => exact Nat.one_pos
  | not m e ih | assign m x e ih => exact ih
  | call m f args ih =>
    rw [outcomes, outcomesArgs_eq_prod]
    refine List.prod_pos fun n hn => ?_
    obtain ⟨a, ha, rfl⟩ := List.mem_map.1 hn
    exact ih a ha
  | binary m op l r ihl ihr | seq m l r ihl ihr => exact Nat.mul_pos ihl ihr
  | cond m c t e ihc iht ihe => exact Nat.mul_pos ihc (Nat.add_pos_left iht _)

/-- **Folding some of the constants of an expression does not add outcomes.** -/
theorem Folds.outcomes_le {e e' : TypedExpr} (h : e.Folds e') : e'.outcomes ≤ e.outcomes := by
  induction h with
  | lit | var => exact Nat.le_refl _
  | not _ ih | assign _ ih => exact ih
  | @call m f args args' hlen _ ih =>
    rw [outcomes, outcomes, outcomesArgs_eq_prod, outcomesArgs_eq_prod]
    have hargs : List.Forall₂ (· ≤ ·) (args'.map outcomes) (args.map outcomes) := by
      rw [List.forall₂_map_left_iff, List.forall₂_map_right_iff]
      exact (List.forall₂_iff_zip.2 ⟨hlen, fun hp => ih _ hp⟩).flip
    exact hargs.prod_le_prod'
  | binary _ _ ihl ihr | seq _ _ ihl ihr => exact Nat.mul_le_mul ihl ihr
  | cond _ _ _ ihc iht ihe => exact Nat.mul_le_mul ihc (Nat.add_le_add iht ihe)
  | @notLit m n e b _ _ => exact outcomes_pos e
  | @binaryLit m n n' op l r a b v _ _ _ _ _ => exact outcomes_pos (.binary m op l r)
  | @condTrue m n c t t' e _ _ _ iht =>
    calc t'.outcomes ≤ t.outcomes + e.outcomes := by omega
      _ ≤ c.outcomes * (t.outcomes + e.outcomes) := Nat.le_mul_of_pos_left _ (outcomes_pos c)
  | @condFalse m n c t e e' _ _ _ ihe =>
    calc e'.outcomes ≤ t.outcomes + e.outcomes := by omega
      _ ≤ c.outcomes * (t.outcomes + e.outcomes) := Nat.le_mul_of_pos_left _ (outcomes_pos c)

/-- **The number of rules.** An expression has as many rules as its conditionals have outcomes, and
if it has a folding, that has no more. -/
theorem rules_counted (e : TypedExpr) :
    e.rules.length = e.outcomes ∧
      ∀ r, e.foldConstants = .ok r → r.rules.length ≤ e.rules.length := by
  refine ⟨length_rules e, fun r hr => ?_⟩
  rw [length_rules, length_rules]
  exact (folds_of_foldConstants hr).outcomes_le

/-- A sample action on two conditionals, one of which has another in an argument of a call. Its test
is known. -/
def dimming : TypedExpr :=
  .seq ⟨.void, 1⟩
    (.cond ⟨.void, 1⟩ (.var ⟨.bool, 1⟩ "night")
      (.call ⟨.void, 2⟩ "dim"
        [.cond ⟨.int, 2⟩
          (.binary ⟨.bool, 2⟩ .lt (.lit ⟨.int, 2⟩ (.int 1)) (.lit ⟨.int, 2⟩ (.int 2)))
          (.lit ⟨.int, 2⟩ (.int 10)) (.lit ⟨.int, 2⟩ (.int 20))])
      (.call ⟨.void, 3⟩ "light" []))
    (.assign ⟨.void, 4⟩ "level"
      (.cond ⟨.int, 4⟩ (.call ⟨.bool, 4⟩ "manual" []) (.lit ⟨.int, 4⟩ (.int 3))
        (.var ⟨.int, 4⟩ "level")))

theorem dimming_counted :
    dimming.rules.length = 6 ∧
      ∃ r, dimming.foldConstants = .ok r ∧ r.rules.length ≤ 6 ∧ r.rules.length = 4 := by
  obtain ⟨hcount, hfold⟩ := rules_counted dimming
  have hsix : dimming.rules.length = 6 := hcount
  obtain ⟨r, hr, hfour⟩ : ∃ r, dimming.foldConstants = .ok r ∧ r.rules.length = 4 := ⟨_, rfl, rfl⟩
  exact ⟨hsix, r, hr, hsix ▸ hfold r hr, hfour⟩

end Expr

end Rulebook
