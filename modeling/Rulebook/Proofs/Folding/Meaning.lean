import Rulebook.Proofs.Folding.Partial
import Rulebook.Proofs.Machine.Alike

/-!
# Folding keeps meaning

Folding and evaluation compute with operators each in its own way. They agree where folding has a
value (`Operator.onValues?_of_fold`); where it has none, the operation stays and is evaluated as
before. So an expression and the same expression partly folded do the same on every machine
(`Folds.eval_alike`), and in particular an expression and its folding (`foldConstants_eval`). No
types are needed: where one of the two fails, so does the other.
-/

namespace Rulebook

variable {σ : Type}

/-- An operator that folds two literals has the same value on them when it is evaluated. -/
theorem Operator.onValues?_of_fold {op : Operator} {a b v : Literal}
    (h : op.fold a b = .ok (some v)) :
    op.onValues? (.ofLiteral a) (.ofLiteral b) = some v := by
  cases a with
  | int a =>
    cases b with
    | int b =>
      have hv : op.onInts? a b = some v := Except.ok.inj h
      cases op with
      -- arithmetic has a default, which is not used where there is a value
      | mul | div | mod | add | sub =>
        exact congrArg (fun v? : Option Literal => some (v?.getD (.int 0))) hv
      | _ => exact hv
    | bool b => cases h
  | bool a =>
    cases b with
    | int b => cases h
    | bool b =>
      simp only [fold] at h
      split at h
      · next hv =>
        cases h
        exact hv
      · cases h

namespace EvalM.Alike

variable {α β γ : Type} {W : β → γ → Prop}

/-- A computation that is like a value leaves the machine as it is. -/
theorem run_of_pure {x : EvalM σ α} {a : α} (h : Alike Eq Eq x (Pure.pure a)) (m : Machine σ) :
    x.run m = (.ok a, m) := by
  obtain ⟨b, m', hx, rfl, rfl⟩ := h.of_ok rfl (run_pure a m)
  exact hx

/-- A first step that is like a value. -/
theorem bind_of_pure {x : EvalM σ α} {a : α} {f : α → EvalM σ β} {y : EvalM σ γ}
    (hx : Alike Eq Eq x (Pure.pure a)) (h : Alike Eq W (f a) y) : Alike Eq W (x >>= f) y :=
  fun m n hmn => .bind_left (hx.run_of_pure m) (h m n hmn)

end EvalM.Alike

namespace Expr

open EvalM (Alike)

variable (h : Host σ)

/-- **An expression does what it does with some of its constants folded.** -/
theorem Folds.eval_alike {e e' : TypedExpr} (he : e.Folds e') :
    Alike Eq Eq (e.eval h) (e'.eval h) := by
  induction he with
  | lit m v => exact .pure rfl
  | var m x => exact .refl _
  | not _ ih => exact alike_not ih
  | call hlen _ ih => exact alike_call rfl (List.forall₂_iff_zip.2 ⟨hlen, ih _⟩)
  | binary _ _ ihl ihr => exact alike_binary ihl ihr
  | cond _ _ _ ihc iht ihe => exact alike_cond ihc iht ihe
  | assign _ ih => exact alike_assign ih
  | seq _ _ iha ihb => exact alike_seq iha ihb
  -- the operands below are known: they are evaluated without a trace
  | notLit _ ih => exact ih.bind_of_pure (.pure rfl)
  | binaryLit _ _ hvalue ihl ihr =>
    refine ihl.bind_of_pure (ihr.bind_of_pure ?_)
    rw [Operator.onValues?_of_fold hvalue]
    exact .pure rfl
  | condTrue _ _ ihc iht => exact ihc.bind_of_pure iht
  | condFalse _ _ ihc ihe => exact ihc.bind_of_pure ihe

/-- **Folding keeps meaning.** An expression and its folding, evaluated on the same machine, both
succeed with the same value or both fail, and leave the same memory and the same state of the host.
The host is any host, so it may be one that writes down all it is asked: the calls are the same too,
with their arguments and the types they ask for. -/
theorem foldConstants_eval {e r : TypedExpr} (hr : e.foldConstants = .ok r) (m : Machine σ) :
    (∃ v m', (e.eval h).run m = (.ok v, m') ∧ (r.eval h).run m = (.ok v, m')) ∨
      ∃ err err' m',
        (e.eval h).run m = (.error err, m') ∧ (r.eval h).run m = (.error err', m') := by
  rcases (folds_of_foldConstants hr).eval_alike h m m rfl with
    ⟨v, _, m', _, hx, hy, rfl, rfl⟩ | ⟨err, err', m', _, hx, hy, rfl⟩
  · exact .inl ⟨v, m', hx, hy⟩
  · exact .inr ⟨err, err', m', hx, hy⟩

end Expr

/-- A host that writes down every call, with the type it asks for. -/
def Host.tracing : Host (List (String × List Value × Ty)) where
  call f args t log := (.ofTy t, log ++ [(f, args, t)])

/-- A sample expression whose test is known. The division by zero stays. -/
def Expr.sampling : TypedExpr :=
  .cond ⟨.void, 1⟩
    (.not ⟨.bool, 1⟩ (.binary ⟨.bool, 1⟩ .lt (.lit ⟨.int, 1⟩ (.int 1)) (.lit ⟨.int, 1⟩ (.int 2))))
    (.call ⟨.void, 2⟩ "beep" [])
    (.assign ⟨.void, 3⟩ "level" (.binary ⟨.int, 3⟩ .sub
      (.call ⟨.int, 3⟩ "sense"
        [.binary ⟨.int, 3⟩ .add (.lit ⟨.int, 3⟩ (.int 3)) (.lit ⟨.int, 3⟩ (.int 4))])
      (.binary ⟨.int, 3⟩ .div (.lit ⟨.int, 3⟩ (.int 1)) (.lit ⟨.int, 3⟩ (.int 0)))))

theorem Expr.sampling_eval :
    ∃ r, sampling.foldConstants = .ok r ∧ r.size < sampling.size ∧
      (sampling.eval Host.tracing).run ⟨.empty, []⟩ =
        (.ok .void, ⟨⟨[("level", .int 0)]⟩, [("sense", [.int 7], .int)]⟩) ∧
      (r.eval Host.tracing).run ⟨.empty, []⟩ =
        (.ok .void, ⟨⟨[("level", .int 0)]⟩, [("sense", [.int 7], .int)]⟩) := by
  obtain ⟨r, hr, hsize⟩ : ∃ r, sampling.foldConstants = .ok r ∧ r.size < sampling.size :=
    ⟨_, rfl, by decide⟩
  have hrun : (sampling.eval Host.tracing).run ⟨.empty, []⟩ =
      (.ok .void, ⟨⟨[("level", .int 0)]⟩, [("sense", [.int 7], .int)]⟩) := rfl
  refine ⟨r, hr, hsize, hrun, ?_⟩
  rcases foldConstants_eval Host.tracing hr ⟨.empty, []⟩ with
    ⟨v, m', hx, hy⟩ | ⟨err, err', m', hx, -⟩
  · rw [hrun] at hx
    rw [hy, ← hx]
  · rw [hrun] at hx
    cases hx

end Rulebook
