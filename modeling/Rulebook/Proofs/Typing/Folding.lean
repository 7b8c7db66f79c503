import Rulebook.Folding
import Rulebook.Proofs.Outcome
import Rulebook.Proofs.Typing.Basic

/-!
# Folding keeps types

On a well-typed expression folding meets no literal of the wrong kind: it has a result, which is
well typed in the same context and has the same type (`WellTyped.foldConstants`). The argument is
node by node, from the typing rule of each form.
-/

namespace Rulebook

/-- An operator that takes two literals folds them, to a literal of its result type if at all. -/
theorem Operator.fold_of_takes {op : Operator} {a b : Literal} (h : op.Takes a.ty b.ty) :
    ∃ v?, op.fold a b = .ok v? ∧ ∀ v ∈ v?, v.ty = op.resultTy := by
  have hab := h.eq
  cases a with
  | int a =>
    cases b with
    | int b => exact ⟨op.onInts? a b, rfl, fun v hv => ty_of_onInts? hv⟩
    | bool b => cases hab
  | bool a =>
    cases b with
    | int b => cases hab
    | bool b =>
      cases op <;> simp only [Takes, operandTy?, cls, Literal.ty, reduceCtorEq, and_self] at h
      all_goals exact ⟨_, rfl, fun v hv => ty_of_onBools? hv⟩

namespace Expr

variable {Γ : Context} {m : Mark}

/-- An expression that is a literal is one of its own type. -/
theorem WellTyped.ty_of_literal? {e : TypedExpr} {v : Literal} (h : e.WellTyped Γ)
    (hv : e.literal? = some v) : e.ty = v.ty := by
  cases h with
  | lit h =>
    cases hv
    exact h
  | _ => cases hv

theorem wellTyped_literal (v : Literal) (line : Line) : (literal v line).WellTyped Γ := .lit rfl

theorem foldNot_wellTyped {e : TypedExpr} (hm : m.ty = .bool) (ht : e.ty = .bool)
    (h : e.WellTyped Γ) : ∃ r, foldNot m e = .ok r ∧ r.WellTyped Γ ∧ r.ty = m.ty := by
  unfold foldNot
  split
  · exact ⟨_, rfl, wellTyped_literal _ _, hm.symm⟩
  · next hv =>
    have := (h.ty_of_literal? hv).symm.trans ht
    cases this
  · exact ⟨_, rfl, .not hm ht h, rfl⟩

theorem foldBinary_wellTyped {op : Operator} {l r : TypedExpr} (hm : m.ty = op.resultTy)
    (ht : op.Takes l.ty r.ty) (hl : l.WellTyped Γ) (hr : r.WellTyped Γ) :
    ∃ e, foldBinary m op l r = .ok e ∧ e.WellTyped Γ ∧ e.ty = m.ty := by
  unfold foldBinary
  split
  · next a b ha hb =>
    obtain ⟨v?, hfold, hty⟩ : ∃ v?, op.fold a b = .ok v? ∧ ∀ v ∈ v?, v.ty = op.resultTy := by
      apply Operator.fold_of_takes
      rwa [← hl.ty_of_literal? ha, ← hr.ty_of_literal? hb]
    rw [hfold]
    cases v? with
    | some v => exact ⟨_, rfl, wellTyped_literal v _, (hty v rfl).trans hm.symm⟩
    | none => exact ⟨_, rfl, .binary hm ht hl hr, rfl⟩
  · exact ⟨_, rfl, .binary hm ht hl hr, rfl⟩

theorem foldCond_wellTyped {c t e : TypedExpr} (hct : c.ty = .bool) (htt : t.ty = m.ty)
    (het : e.ty = m.ty) (hc : c.WellTyped Γ) (ht : t.WellTyped Γ) (he : e.WellTyped Γ) :
    ∃ r, foldCond m c t e = .ok r ∧ r.WellTyped Γ ∧ r.ty = m.ty := by
  unfold foldCond
  split
  · exact ⟨t, rfl, ht, htt⟩
  · exact ⟨e, rfl, he, het⟩
  · next hv =>
    have := (hc.ty_of_literal? hv).symm.trans hct
    cases this
  · exact ⟨_, rfl, .cond hct htt het hc ht he, rfl⟩

/-- **Folding a well-typed expression has a well-typed result of the same type.** -/
theorem WellTyped.foldConstants {e : TypedExpr} (h : e.WellTyped Γ) :
    ∃ r, e.foldConstants = .ok r ∧ r.WellTyped Γ ∧ r.ty = e.ty := by
  induction h with
  | lit h => exact ⟨_, rfl, .lit h, rfl⟩
  | var h => exact ⟨_, rfl, .var h, rfl⟩
  | not h₁ h₂ _ ih =>
    obtain ⟨e', he, hw, ht⟩ := ih
    rw [Expr.foldConstants, he]
    exact foldNot_wellTyped h₁ (ht.trans h₂) hw
  | @call m f as hf _ ih =>
    obtain ⟨args', hargs⟩ := exists_forall₂ fun a ha => (ih a ha).imp fun _ h => h.1
    obtain ⟨hw, ht⟩ : (∀ a' ∈ args', a'.WellTyped Γ) ∧ args'.map ty = as.map ty := by
      refine WellTyped.args hargs fun a ha a' ha' => ?_
      obtain ⟨b, hb, hbw, hbt⟩ := ih a ha
      cases ha'.symm.trans hb
      exact ⟨hbw, hbt⟩
    rw [Expr.foldConstants, foldConstantsArgs_eq_mapM, mapM_eq_ok.2 hargs]
    exact ⟨_, rfl, .call (ht ▸ hf) hw, rfl⟩
  | binary h₁ h₂ _ _ ihl ihr =>
    obtain ⟨l', hl, hlw, hlt⟩ := ihl
    obtain ⟨r', hr, hrw, hrt⟩ := ihr
    rw [Expr.foldConstants, hl, hr]
    exact foldBinary_wellTyped h₁ (by rw [hlt, hrt]; exact h₂) hlw hrw
  | cond h₁ h₂ h₃ _ _ _ ihc iht ihe =>
    obtain ⟨c', hc, hcw, hct⟩ := ihc
    obtain ⟨t', ht, htw, htt⟩ := iht
    obtain ⟨e', he, hew, het⟩ := ihe
    rw [Expr.foldConstants, hc, ht, he]
    exact foldCond_wellTyped (hct.trans h₁) (htt.trans h₂) (het.trans h₃) hcw htw hew
  | assign h₁ h₂ _ ih =>
    obtain ⟨e', he, hw, ht⟩ := ih
    rw [Expr.foldConstants, he]
    exact ⟨_, rfl, .assign h₁ (ht ▸ h₂) hw, rfl⟩
  | seq h₁ h₂ h₃ _ _ iha ihb =>
    obtain ⟨a', ha, haw, hat⟩ := iha
    obtain ⟨b', hb, hbw, hbt⟩ := ihb
    rw [Expr.foldConstants, ha, hb]
    exact ⟨_, rfl, .seq h₁ (hat.trans h₂) (hbt.trans h₃) haw hbw, rfl⟩

end Expr

end Rulebook
