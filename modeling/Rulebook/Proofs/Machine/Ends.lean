import Rulebook.Machine.Eval
import Rulebook.Proofs.Typing.Basic

/-!
# Computations that succeed

`EvalM.Ends x m Q` says that the computation `x` succeeds on the machine `m` and that `Q` holds of
what it leaves. The lemmas here take it through the constructs of `EvalM`, from the operands to the
whole, as an evaluation goes. What an operand evaluates to is described by its type (`Value.ty`);
an operator succeeds on operands of the types it takes (`Operator.onValues?_of_takes`).
-/

namespace Rulebook

variable {σ α β : Type}

namespace EvalM

/-- A computation succeeds on a machine, and `Q` holds of its result and of the machine after
it. -/
def Ends (x : EvalM σ α) (m : Machine σ) (Q : α → Machine σ → Prop) : Prop :=
  ∃ a m', x.run m = (.ok a, m') ∧ Q a m'

namespace Ends

variable {P : α → Machine σ → Prop} {Q : β → Machine σ → Prop} {m : Machine σ}

theorem imp {P' : α → Machine σ → Prop} {x : EvalM σ α} (h : x.Ends m P)
    (hP : ∀ a m', P a m' → P' a m') : x.Ends m P' := by
  obtain ⟨a, m', hx, ha⟩ := h
  exact ⟨a, m', hx, hP a m' ha⟩

theorem pure {a : α} (h : P a m) : Ends (pure a : EvalM σ α) m P := ⟨a, m, rfl, h⟩

theorem bind {x : EvalM σ α} {f : α → EvalM σ β} (h : x.Ends m P)
    (hf : ∀ a m', P a m' → (f a).Ends m' Q) : (x >>= f).Ends m Q := by
  obtain ⟨a, m', hx, ha⟩ := h
  obtain ⟨b, m'', hb, hQ⟩ := hf a m' ha
  exact ⟨b, m'', by rw [run_bind, hx]; exact hb, hQ⟩

theorem load {Q : Value → Machine σ → Prop} {x : String} {v : Value} (line : Line)
    (hx : m.memory.find? x = some v) (h : Q v m) : (load x line).Ends m Q :=
  ⟨v, m, by rw [run_load, hx], h⟩

theorem store {Q : Unit → Machine σ → Prop} {x : String} {v : Value}
    (h : Q () { m with memory := m.memory.set x v }) : (store x v).Ends m Q :=
  ⟨(), _, run_store x v m, h⟩

/-- A traversal that keeps an invariant. -/
theorem mapM {R : α → β → Prop} {I : Machine σ → Prop} {f : α → EvalM σ β} {as : List α}
    (h : ∀ a ∈ as, ∀ m, I m → (f a).Ends m fun b m' => R a b ∧ I m') (hm : I m) :
    (as.mapM f).Ends m fun bs m' => List.Forall₂ R as bs ∧ I m' := by
  induction as generalizing m with
  | nil => exact ⟨[], m, rfl, .nil, hm⟩
  | cons a as ih =>
    rw [List.mapM_cons]
    refine (h a List.mem_cons_self m hm).bind fun b m₁ hb => ?_
    refine (ih (fun a ha => h a (List.mem_cons_of_mem _ ha)) hb.2).bind fun bs m₂ hbs => ?_
    exact .pure ⟨.cons hb.1 hbs.1, hbs.2⟩

end Ends

end EvalM

/-! ## Types of values -/

/-- The type of a value. -/
def Value.ty : Value → Ty
  | .void => .void
  | .int _ => .int
  | .bool _ => .bool

theorem Value.ty_ofLiteral (v : Literal) : (ofLiteral v).ty = v.ty := by
  cases v <;> rfl

theorem Value.ty_ofTy {t : Ty} (h : t.isPrimitive) : (ofTy t).ty = t := by
  cases t with
  | fn ts t => cases h
  | void | int | bool => rfl

theorem Value.ty_eq_bool {v : Value} : v.ty = .bool ↔ ∃ b, v = .bool b := by
  cases v <;> simp [ty]

theorem Value.ty_eq_int {v : Value} : v.ty = .int ↔ ∃ n, v = .int n := by
  cases v <;> simp [ty]

/-- An operator has a value on operands that it takes. -/
theorem Operator.onValues?_of_takes {op : Operator} {a b : Value} (h : op.Takes a.ty b.ty) :
    ∃ v, op.onValues? a b = some v ∧ v.ty = op.resultTy := by
  have hab := h.eq
  cases a with
  | void =>
    cases b with
    | void =>
      cases op <;> simp only [Takes, operandTy?, cls, Value.ty, reduceCtorEq, and_self] at h
      all_goals exact ⟨_, rfl, rfl⟩
    | int | bool => cases hab
  | int a =>
    cases b with
    | int b =>
      -- division by zero has the value `0`
      cases op with
      | div | mod =>
        refine ⟨_, rfl, ?_⟩
        cases hv : onInts? _ a b with
        | some v => exact ty_of_onInts? hv
        | none => rfl
      | and | or => simp [Takes, operandTy?, cls, Value.ty] at h
      | _ => exact ⟨_, rfl, rfl⟩
    | void | bool => cases hab
  | bool a =>
    cases b with
    | bool b =>
      cases op <;> simp only [Takes, operandTy?, cls, Value.ty, reduceCtorEq, and_self] at h
      all_goals exact ⟨_, rfl, rfl⟩
    | void | int => cases hab

/-- The truth value of an expression that evaluates to one. -/
theorem EvalM.Ends.truth {Q : Bool → Machine σ → Prop} {e : TypedExpr} {v : Value} {m : Machine σ}
    (hv : v.ty = .bool) (h : ∀ b, v = .bool b → Q b m) : (EvalM.truth e v).Ends m Q := by
  obtain ⟨b, rfl⟩ := Value.ty_eq_bool.1 hv
  exact .pure (h b rfl)

end Rulebook
