import Rulebook.Proofs.Outcome
import Rulebook.Proofs.Typing.Basic
import Rulebook.Rule

/-!
# Rules of well-typed expressions

`Decision.Holds P Q` says that every test of a decision satisfies `P` and every leaf `Q`; the
operations on decisions keep such properties. With it:

* `WellTyped.decision`, `WellTyped.rules`: the rules of a well-typed expression have well-typed
  truth values as conditions, and well-typed actions of the expression's type;
* `rules_condFree`: no rule has a conditional inside;
* `rules_eq_append`: the condition of the last rule is the literal `true`.
-/

namespace Rulebook

namespace Decision

variable {α β γ : Type} {P : TypedExpr → Prop}

/-- Every test of a decision satisfies `P` and every leaf `Q`. -/
def Holds (P : TypedExpr → Prop) (Q : α → Prop) : Decision α → Prop
  | .leaf a => Q a
  | .branch _ c x y => P c ∧ x.Holds P Q ∧ y.Holds P Q

namespace Holds

variable {Q : α → Prop} {R : β → Prop} {S : γ → Prop}

theorem map {f : α → β} {d : Decision α} (h : d.Holds P Q) (hf : ∀ a, Q a → R (f a)) :
    (d.map f).Holds P R := by
  induction d with
  | leaf a => exact hf a h
  | branch line c x y ihx ihy => exact ⟨h.1, ihx h.2.1, ihy h.2.2⟩

theorem bind {f : α → Decision β} {d : Decision α} (h : d.Holds P Q)
    (hf : ∀ a, Q a → (f a).Holds P R) : (d.bind f).Holds P R := by
  induction d with
  | leaf a => exact hf a h
  | branch line c x y ihx ihy => exact ⟨h.1, ihx h.2.1, ihy h.2.2⟩

theorem atLine {d : Decision α} (h : d.Holds P Q) (line : Line) :
    (d.atLine line).Holds P Q := by
  induction d with
  | leaf a => exact h
  | branch _ c x y ihx ihy => exact ⟨h.1, ihx h.2.1, ihy h.2.2⟩

theorem both {f : α → β → γ} (hand : ∀ a b line, P a → P b → P (.operation .and a b line))
    {d : Decision α} {e : Decision β} (hd : d.Holds P Q) (he : e.Holds P R)
    (hf : ∀ a b, Q a → R b → S (f a b)) : (both f d e).Holds P S := by
  induction d generalizing e with
  | leaf a =>
    rw [Decision.both]
    exact he.map fun b => hf a b hd
  | branch line c x y ihx ihy =>
    cases e with
    | leaf b =>
      rw [Decision.both]
      exact ⟨hd.1, ihx hd.2.1 he, ihy hd.2.2 he⟩
    | branch _ c' x' y' =>
      rw [Decision.both]
      exact ⟨hand c c' line hd.1 he.1, ihx hd.2.1 he.2.1, hd.1, ihx hd.2.1 he.2.2, he.1,
        ihy hd.2.2 he.2.1, ihy hd.2.2 he.2.2⟩

/-- The leaves of decisions that are made together stand in the relation that each stands in. -/
theorem all {T : γ → α → Prop} {d : γ → Decision α} (line : Line) {cs : List γ}
    (h : ∀ c ∈ cs, (d c).Holds P (T c)) :
    (all line (cs.map d)).Holds P fun as => List.Forall₂ T cs as := by
  induction cs with
  | nil => exact .nil
  | cons c cs ih =>
    have ih := ih fun c' hc' => h c' (List.mem_cons_of_mem _ hc')
    exact ((h c List.mem_cons_self).atLine line).bind fun a ha => ih.map fun as has => .cons ha has

/-- The rules of a decision. -/
theorem rules {d : Decision TypedExpr} {Q : TypedExpr → Prop} (h : d.Holds P Q)
    (htrue : ∀ line, P (.literal (.bool true) line))
    (hand : ∀ a b line, P a → P b → P (.operation .and a b line)) :
    ∀ r ∈ d.rules, P r.condition ∧ Q r.action := by
  induction d with
  | leaf a =>
    intro r hr
    obtain rfl := List.mem_singleton.1 hr
    exact ⟨htrue _, h⟩
  | branch line c x y ihx ihy =>
    intro r hr
    rcases List.mem_append.1 hr with hr | hr
    · obtain ⟨r', hr', rfl⟩ := List.mem_map.1 hr
      obtain ⟨hcond, haction⟩ := ihx h.2.1 r' hr'
      refine ⟨?_, haction⟩
      rw [Rule.guard]
      split
      · exact h.1
      · exact hand c r'.condition c.line h.1 hcond
    · exact ihy h.2.2 r hr

end Holds

/-- The last rule of a decision always applies. -/
theorem rules_eq_append (d : Decision TypedExpr) :
    ∃ rs line action, d.rules = rs ++ [⟨.literal (.bool true) line, action⟩] := by
  induction d with
  | leaf a => exact ⟨[], a.line, a, rfl⟩
  | branch line c x y _ ihy =>
    obtain ⟨rs, line, action, hrs⟩ := ihy
    exact ⟨x.rules.map (Rule.guard c) ++ rs, line, action, by rw [rules, hrs, List.append_assoc]⟩

end Decision

namespace Expr

/-- A well-typed truth value. -/
def WellTypedTest (Γ : Context) (c : TypedExpr) : Prop := c.WellTyped Γ ∧ c.ty = .bool

theorem WellTypedTest.and {Γ : Context} {a b : TypedExpr} {line : Line} (ha : a.WellTypedTest Γ)
    (hb : b.WellTypedTest Γ) : (operation .and a b line).WellTypedTest Γ :=
  ⟨.binary rfl ⟨ha.2, hb.2⟩ ha.1 hb.1, rfl⟩

/-- **Pulling out conditionals keeps types.** -/
theorem WellTyped.decision {Γ : Context} {e : TypedExpr} (h : e.WellTyped Γ) :
    e.decision.Holds (WellTypedTest Γ) fun a => a.WellTyped Γ ∧ a.ty = e.ty := by
  induction h with
  | lit h => exact ⟨.lit h, rfl⟩
  | var h => exact ⟨.var h, rfl⟩
  | not h₁ h₂ _ ih =>
    exact ih.map fun a ha => ⟨.not rfl (ha.2.trans h₂) ha.1, h₁.symm⟩
  | call hf _ ih =>
    rw [Expr.decision, decisions_eq_map]
    refine (Decision.Holds.all _ ih).map fun args' hargs => ?_
    obtain ⟨hw, ht⟩ := args hargs fun _ _ _ ha => ha
    exact ⟨.call (ht ▸ hf) hw, rfl⟩
  | binary h₁ h₂ _ _ ihl ihr =>
    refine ihl.both (fun _ _ _ => WellTypedTest.and) ihr fun a b ha hb => ?_
    exact ⟨.binary rfl (ha.2 ▸ hb.2 ▸ h₂) ha.1 hb.1, h₁.symm⟩
  | cond h₁ h₂ h₃ _ _ _ ihc iht ihe =>
    refine (ihc.atLine _).bind fun c hc => ⟨⟨hc.1, hc.2.trans h₁⟩, ?_, ?_⟩
    · simpa only [ty_cond, h₂] using iht
    · simpa only [ty_cond, h₃] using ihe
  | assign h₁ h₂ _ ih =>
    exact ih.map fun a ha => ⟨.assign rfl (ha.2 ▸ h₂) ha.1, h₁.symm⟩
  | seq h₁ h₂ h₃ _ _ iha ihb =>
    refine iha.both (fun _ _ _ => WellTypedTest.and) ihb fun a b ha hb => ?_
    exact ⟨.seq rfl (ha.2.trans h₂) (hb.2.trans h₃) ha.1 hb.1, h₁.symm⟩

/-- **The rules of a well-typed expression are well typed.** -/
theorem WellTyped.rules {Γ : Context} {e : TypedExpr} (h : e.WellTyped Γ) {r : Rule}
    (hr : r ∈ e.rules) :
    r.condition.WellTypedTest Γ ∧ r.action.WellTyped Γ ∧ r.action.ty = e.ty :=
  h.decision.rules (fun _ => ⟨.lit rfl, rfl⟩) (fun _ _ _ => WellTypedTest.and) r hr

/-! ## Conditionals -/

section

variable {μ : Type} (m : μ)

@[simp] theorem hasCond_lit (v : Literal) : (lit m v).hasCond = false := rfl

@[simp] theorem hasCond_var (x : String) : (var m x).hasCond = false := rfl

@[simp] theorem hasCond_not (e : Expr μ) : (Expr.not m e).hasCond = e.hasCond := rfl

@[simp] theorem hasCond_call (f : String) (args : List (Expr μ)) :
    (call m f args).hasCond = args.any hasCond := by
  rw [hasCond, subterms, subtermsList_eq_flatMap, List.any_cons, List.any_flatMap]
  rfl

@[simp] theorem hasCond_binary (op : Operator) (l r : Expr μ) :
    (binary m op l r).hasCond = (l.hasCond || r.hasCond) := by
  rw [hasCond, subterms, List.any_cons, List.any_append]
  rfl

@[simp] theorem hasCond_cond (c t e : Expr μ) : (Expr.cond m c t e).hasCond = true := rfl

@[simp] theorem hasCond_assign (x : String) (e : Expr μ) :
    (assign m x e).hasCond = e.hasCond := rfl

@[simp] theorem hasCond_seq (a b : Expr μ) :
    (seq m a b).hasCond = (a.hasCond || b.hasCond) := by
  rw [hasCond, subterms, List.any_cons, List.any_append]
  rfl

end

theorem hasCond_operation (op : Operator) (a b : TypedExpr) (line : Line)
    (ha : a.hasCond = false) (hb : b.hasCond = false) :
    (operation op a b line).hasCond = false := by
  rw [operation, hasCond_binary, ha, hb]
  rfl

/-- Pulling out conditionals leaves none inside. -/
theorem decision_condFree (e : TypedExpr) :
    e.decision.Holds (fun c => c.hasCond = false) fun a => a.hasCond = false := by
  have hand := hasCond_operation .and
  induction e using Expr.induct with
  | lit m v => exact hasCond_lit m v
  | var m x => exact hasCond_var m x
  | not m e ih => exact ih.map fun a ha => ha
  | call m f args ih =>
    rw [decision, decisions_eq_map]
    refine (Decision.Holds.all m.line ih).map fun args' hargs => ?_
    rw [hasCond_call, List.any_eq_false]
    intro a ha
    obtain ⟨_, -, ha⟩ := exists_mem_left hargs ha
    simpa using ha
  | binary m op l r ihl ihr =>
    exact ihl.both hand ihr fun a b => hasCond_operation op a b m.line
  | cond m c t e ihc iht ihe => exact (ihc.atLine m.line).bind fun c hc => ⟨hc, iht, ihe⟩
  | assign m x e ih => exact ih.map fun a ha => ha
  | seq m a b iha ihb =>
    refine iha.both hand ihb fun a b ha hb => ?_
    rw [sequence, hasCond_seq, ha, hb]
    rfl

/-- **No rule has a conditional inside.** -/
theorem rules_condFree {e : TypedExpr} {r : Rule} (hr : r ∈ e.rules) :
    r.condition.hasCond = false ∧ r.action.hasCond = false :=
  e.decision_condFree.rules (fun _ => rfl) (hasCond_operation .and) r hr

end Expr

end Rulebook
