import Rulebook.Machine.Eval
import Rulebook.Proofs.Typing.Rules

/-!
# The shape of rules

The rules of an expression have the shape that rules are expected to have, whether the expression is
well typed or not. No conditional is left inside a rule (`rules_condFree`), and the last rule always
applies (`rules_eq_append`), so running the rules can fail only inside a condition or an action,
never for want of a rule (`runRules_avoids`). An action needs no further rules: its only rule is
itself, to be run always (`rules_action`).
-/

namespace Rulebook

variable {σ α β : Type}

/-! ## Errors that do not occur -/

namespace EvalM

/-- On no machine does the computation fail with the error. -/
def Avoids (err : RunError) (x : EvalM σ α) : Prop := ∀ m, (x.run m).1 ≠ .error err

namespace Avoids

variable {err : RunError}

theorem pure (a : α) : Avoids err (Pure.pure a : EvalM σ α) := nofun

theorem throw {err' : RunError} (h : err' ≠ err) : Avoids err (throw err' : EvalM σ α) := by
  intro m hm
  rw [run_throw] at hm
  exact h (Except.error.inj hm)

theorem bind {x : EvalM σ α} {f : α → EvalM σ β} (hx : x.Avoids err)
    (hf : ∀ a, (f a).Avoids err) : (x >>= f).Avoids err := by
  intro m
  rw [run_bind]
  rcases hrun : x.run m with ⟨err' | a, m'⟩
  · intro herr
    exact hx m (by rw [hrun]; exact congrArg Except.error (Except.error.inj herr))
  · exact hf a m'

theorem mapM {f : α → EvalM σ β} {as : List α} (h : ∀ a ∈ as, (f a).Avoids err) :
    (as.mapM f).Avoids err := by
  induction as with
  | nil => exact .pure []
  | cons a as ih =>
    rw [List.mapM_cons]
    refine (h a List.mem_cons_self).bind fun b => ?_
    exact (ih fun a ha => h a (List.mem_cons_of_mem _ ha)).bind fun bs => .pure (b :: bs)

end Avoids

theorem load_avoids (x : String) (line : Line) :
    (load x line : EvalM σ Value).Avoids .noRuleApplies := by
  intro m
  rw [run_load]
  split <;> nofun

theorem truth_avoids (e : TypedExpr) (v : Value) :
    (truth e v : EvalM σ Bool).Avoids .noRuleApplies := by
  cases v with
  | bool b => exact .pure b
  | void | int => exact .throw nofun

end EvalM

open EvalM (Avoids)

variable (h : Host σ)

/-- Evaluating an expression does not fail for want of a rule. -/
theorem Expr.eval_avoids (e : TypedExpr) : (e.eval h).Avoids .noRuleApplies := by
  induction e using Expr.induct with
  | lit m v => exact .pure _
  | var m x => exact EvalM.load_avoids x m.line
  | not m e ih => exact ih.bind fun v => (EvalM.truth_avoids e v).bind fun b => .pure _
  | call m f args ih =>
    rw [eval, evalArgs_eq_mapM]
    exact (Avoids.mapM ih).bind fun vs => nofun
  | binary m op l r ihl ihr =>
    refine ihl.bind fun a => ihr.bind fun b => ?_
    cases op.onValues? a b with
    | some v => exact .pure _
    | none => exact .throw nofun
  | cond m c t e ihc iht ihe =>
    refine ihc.bind fun v => (EvalM.truth_avoids c v).bind fun b => ?_
    cases b with
    | true => exact iht
    | false => exact ihe
  | assign m x e ih => exact ih.bind fun v => nofun
  | seq m a b iha ihb => exact iha.bind fun _ => ihb.bind fun _ => .pure _

/-- Rules of which the last always applies. -/
theorem runRulesFrom_avoids (i : ℕ) (rs : List Rule) (line : Line) (action : TypedExpr) :
    (runRulesFrom h i (rs ++ [⟨.literal (.bool true) line, action⟩])).Avoids .noRuleApplies := by
  induction rs generalizing i with
  | nil => exact (action.eval_avoids h).bind fun _ => .pure i
  | cons r rs ih =>
    have hcond : (r.condition.evalBool h).Avoids .noRuleApplies :=
      (r.condition.eval_avoids h).bind (EvalM.truth_avoids r.condition)
    refine hcond.bind fun b => ?_
    cases b with
    | true => exact (r.action.eval_avoids h).bind fun _ => .pure i
    | false => exact ih (i + 1)

/-- **Some rule of an expression always applies.** -/
theorem Expr.runRules_avoids (e : TypedExpr) : (runRules h e.rules).Avoids .noRuleApplies := by
  obtain ⟨rs, line, action, hrs⟩ := e.decision.rules_eq_append
  rw [runRules, rules, hrs]
  exact runRulesFrom_avoids h 0 rs line action

/-! ## Actions -/

theorem Decision.all_leaf (line : Line) (as : List α) : all line (as.map leaf) = leaf as := by
  induction as with
  | nil => rfl
  | cons a as ih =>
    rw [List.map_cons, all, ih]
    rfl

namespace Expr

/-- What is left of an expression without its conditionals is rebuilt as it is when conditionals are
pulled out of it. -/
theorem decision_leaf (e : TypedExpr) :
    e.decision.Holds (fun _ => True) fun a => a.decision = .leaf a := by
  induction e using Expr.induct with
  | lit m v => rfl
  | var m x => rfl
  | not m e ih =>
    refine ih.map fun a ha => ?_
    rw [negation, decision, ha]
    rfl
  | call m f args ih =>
    rw [decision, decisions_eq_map]
    refine (Decision.Holds.all m.line ih).map fun args' hargs => ?_
    have hleaves : args'.map decision = args'.map .leaf := by
      refine List.map_congr_left fun a' ha' => ?_
      obtain ⟨a, -, ha⟩ := exists_mem_left hargs ha'
      exact ha
    rw [decision, decisions_eq_map, hleaves, Decision.all_leaf]
    rfl
  | binary m op l r ihl ihr =>
    refine ihl.both (fun _ _ _ _ _ => trivial) ihr fun a b ha hb => ?_
    rw [operation, decision, ha, hb]
    rfl
  | cond m c t e ihc iht ihe => exact (ihc.atLine m.line).bind fun c _ => ⟨trivial, iht, ihe⟩
  | assign m x e ih =>
    refine ih.map fun a ha => ?_
    rw [assignment, decision, ha]
    rfl
  | seq m a b iha ihb =>
    refine iha.both (fun _ _ _ _ _ => trivial) ihb fun a b ha hb => ?_
    rw [sequence, decision, ha, hb]
    rfl

/-- **An action is its own and only rule.** -/
theorem rules_action {e : TypedExpr} {r : Rule} (hr : r ∈ e.rules) :
    r.action.rules = [⟨.literal (.bool true) r.action.line, r.action⟩] := by
  have hleaf : r.action.decision = .leaf r.action :=
    (e.decision_leaf.rules (fun _ => trivial) (fun _ _ _ _ _ => trivial) r hr).2
  rw [rules, hleaf]
  rfl

/-- **The shape of rules.** The rules of an expression end in one whose condition is the literal
`true`; no condition and no action has a conditional inside; the rules of an action are the action
itself, under the literal `true`; and running the rules never fails for want of one that applies. -/
theorem rules_shape (e : TypedExpr) :
    (∃ rs line action, e.rules = rs ++ [⟨.literal (.bool true) line, action⟩]) ∧
      (∀ r ∈ e.rules, r.condition.hasCond = false ∧ r.action.hasCond = false ∧
        r.action.rules = [⟨.literal (.bool true) r.action.line, r.action⟩]) ∧
      ∀ {σ : Type} (h : Host σ) (m : Machine σ),
        ((runRules h e.rules).run m).1 ≠ .error .noRuleApplies := by
  refine ⟨e.decision.rules_eq_append, fun r hr => ?_, fun h => e.runRules_avoids h⟩
  obtain ⟨hcondition, haction⟩ := rules_condFree hr
  exact ⟨hcondition, haction, rules_action hr⟩

/-- A sample call, with conditionals in a test, in two arguments and below an operator. Its types
are not the right ones. -/
def steering : TypedExpr :=
  .call ⟨.void, 1⟩ "steer"
    [.cond ⟨.int, 2⟩
      (.cond ⟨.bool, 2⟩ (.var ⟨.bool, 2⟩ "manual") (.not ⟨.int, 2⟩ (.var ⟨.int, 2⟩ "left"))
        (.call ⟨.bool, 3⟩ "blocked" []))
      (.lit ⟨.int, 4⟩ (.int 1)) (.lit ⟨.int, 5⟩ (.int 2)),
    .binary ⟨.void, 6⟩ .mul (.lit ⟨.int, 6⟩ (.int 3))
      (.cond ⟨.int, 6⟩ (.var ⟨.bool, 6⟩ "fast") (.lit ⟨.int, 6⟩ (.int 4))
        (.lit ⟨.bool, 6⟩ (.bool true)))]

theorem steering_shape :
    steering.rules.length = 8 ∧
      ∃ r, steering.rules.head? = some r ∧
        r.action = .call ⟨.void, 1⟩ "steer" [.lit ⟨.int, 4⟩ (.int 1),
          .binary ⟨.int, 6⟩ .mul (.lit ⟨.int, 6⟩ (.int 3)) (.lit ⟨.int, 6⟩ (.int 4))] ∧
        r.condition.hasCond = false ∧ r.action.hasCond = false ∧
        r.action.rules = [⟨.literal (.bool true) 1, r.action⟩] ∧
        ((runRules Recorder.host steering.rules).run ⟨.empty, .start .empty⟩).1 ≠
          .error .noRuleApplies := by
  obtain ⟨-, hrules, hruns⟩ := rules_shape steering
  obtain ⟨r, hhead, haction⟩ : ∃ r, steering.rules.head? = some r ∧
      r.action = .call ⟨.void, 1⟩ "steer" [.lit ⟨.int, 4⟩ (.int 1),
        .binary ⟨.int, 6⟩ .mul (.lit ⟨.int, 6⟩ (.int 3)) (.lit ⟨.int, 6⟩ (.int 4))] := ⟨_, rfl, rfl⟩
  obtain ⟨hcondition, hfree, hself⟩ := hrules r (List.mem_of_mem_head? hhead)
  have hline : r.action.line = 1 := by rw [haction]; rfl
  rw [hline] at hself
  exact ⟨rfl, r, hhead, haction, hcondition, hfree, hself, hruns _ _⟩

end Expr

end Rulebook
