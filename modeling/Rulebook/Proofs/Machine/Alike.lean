import Mathlib.Data.List.Forall2
import Rulebook.Machine.Eval

/-!
# Computations that do the same

Two computations end alike on two machines if both succeed or both fail there (`EvalM.Both`). What
they fail with is not compared.

They are alike with respect to a relation `R` between machines and a relation `V` between results
if, from all related machines, both succeed with related results or both fail, and leave related
machines (`EvalM.Alike`). Being alike passes through every construct of `EvalM` (`Alike.pure`,
`Alike.bind`, `Alike.mapM`), so two evaluations that go through the same steps are alike if their
steps are. For expressions: one form with parts that evaluate alike evaluates alike (`alike_not`
and its companions), whatever the marks are, as long as calls ask for one type.
-/

namespace Rulebook.EvalM

variable {σ α β γ δ : Type} {R : Machine σ → Machine σ → Prop}

/-- On the machines `m` and `n` both computations succeed, and leave results and machines of `Q`,
or both fail, and leave machines of `E`. -/
def Both (x : EvalM σ α) (y : EvalM σ β) (m n : Machine σ)
    (Q : α → β → Machine σ → Machine σ → Prop) (E : Machine σ → Machine σ → Prop) : Prop :=
  (∃ a b m' n', x.run m = (.ok a, m') ∧ y.run n = (.ok b, n') ∧ Q a b m' n') ∨
    ∃ e e' m' n', x.run m = (.error e, m') ∧ y.run n = (.error e', n') ∧ E m' n'

namespace Both

variable {m n : Machine σ} {E : Machine σ → Machine σ → Prop}
  {P : α → β → Machine σ → Machine σ → Prop} {Q : γ → δ → Machine σ → Machine σ → Prop}

theorem pure {a : α} {b : β} (h : P a b m n) : Both (pure a) (pure b) m n P E :=
  .inl ⟨a, b, m, n, rfl, rfl, h⟩

theorem throw (e e' : RunError) (h : E m n) : Both (throw e) (throw e') m n P E :=
  .inr ⟨e, e', m, n, rfl, rfl, h⟩

theorem imp {P' : α → β → Machine σ → Machine σ → Prop} {x : EvalM σ α} {y : EvalM σ β}
    (h : Both x y m n P E) (hP : ∀ a b m' n', P a b m' n' → P' a b m' n') : Both x y m n P' E := by
  rcases h with ⟨a, b, m', n', hx, hy, h⟩ | h
  · exact .inl ⟨a, b, m', n', hx, hy, hP a b m' n' h⟩
  · exact .inr h

theorem bind {x : EvalM σ α} {y : EvalM σ β} {f : α → EvalM σ γ} {g : β → EvalM σ δ}
    (h : Both x y m n P E) (hfg : ∀ a b m' n', P a b m' n' → Both (f a) (g b) m' n' Q E) :
    Both (x >>= f) (y >>= g) m n Q E := by
  rw [Both, run_bind, run_bind]
  rcases h with ⟨a, b, m', n', hx, hy, hP⟩ | ⟨e, e', m', n', hx, hy, hE⟩
  · rw [hx, hy]
    exact hfg a b m' n' hP
  · rw [hx, hy]
    exact .inr ⟨e, e', m', n', rfl, rfl, hE⟩

/-- A first step that only the left computation makes. -/
theorem bind_left {x : EvalM σ α} {f : α → EvalM σ γ} {y : EvalM σ δ} {a : α} {m' : Machine σ}
    (hx : x.run m = (.ok a, m')) (h : Both (f a) y m' n Q E) : Both (x >>= f) y m n Q E := by
  rw [Both, run_bind, hx]
  exact h

/-- A truth value, taken from one value by way of two expressions. -/
theorem truth {Q : Bool → Bool → Machine σ → Machine σ → Prop} (e e' : TypedExpr) (v : Value)
    (hQ : ∀ b, Q b b m n) (hE : E m n) : Both (truth e v) (truth e' v) m n Q E := by
  cases v with
  | bool b => exact .pure (hQ b)
  | void | int => exact .throw _ _ hE

end Both

/-- From machines in the relation `R`, both computations succeed, with results in the relation
`V`, or both fail; and the machines they leave are again in the relation `R`. -/
def Alike (R : Machine σ → Machine σ → Prop) (V : α → β → Prop) (x : EvalM σ α)
    (y : EvalM σ β) : Prop :=
  ∀ m n, R m n → Both x y m n (fun a b m' n' => V a b ∧ R m' n') R

namespace Alike

variable {V : α → β → Prop} {W : γ → δ → Prop}

theorem pure {a : α} {b : β} (h : V a b) : Alike R V (pure a) (pure b) :=
  fun _ _ hmn => .pure ⟨h, hmn⟩

theorem throw (e e' : RunError) : Alike R V (throw e) (throw e') :=
  fun _ _ hmn => .throw e e' hmn

theorem bind {x : EvalM σ α} {y : EvalM σ β} {f : α → EvalM σ γ} {g : β → EvalM σ δ}
    (h : Alike R V x y) (hfg : ∀ a b, V a b → Alike R W (f a) (g b)) :
    Alike R W (x >>= f) (y >>= g) :=
  fun m n hmn => (h m n hmn).bind fun a b m' n' hab => hfg a b hab.1 m' n' hab.2

theorem mapM {f : α → EvalM σ γ} {g : β → EvalM σ δ} {as : List α} {bs : List β}
    (h : List.Forall₂ (fun a b => Alike R W (f a) (g b)) as bs) :
    Alike R (List.Forall₂ W) (as.mapM f) (bs.mapM g) := by
  induction h with
  | nil => exact .pure .nil
  | cons hab _ ih =>
    rw [List.mapM_cons, List.mapM_cons]
    exact hab.bind fun c d hcd => ih.bind fun cs ds hcds => .pure (.cons hcd hcds)

/-- A computation is like itself on one machine. -/
theorem refl (x : EvalM σ α) : Alike Eq Eq x x := by
  rintro m _ rfl
  rcases hx : x.run m with ⟨e | a, m'⟩
  · exact .inr ⟨e, e, m', m', hx, hx, rfl⟩
  · exact .inl ⟨a, a, m', m', hx, hx, rfl, rfl⟩

theorem trans {x : EvalM σ α} {y z : EvalM σ β} (h : Alike R V x y) (h' : Alike Eq Eq y z) :
    Alike R V x z := by
  intro m n hmn
  rcases h m n hmn with ⟨a, b, m', n', hx, hy, hV, hR⟩ | ⟨e, e', m', n', hx, hy, hR⟩
  · rcases h' n n rfl with ⟨b', c, k, k', hy', hz, hbc, hkk⟩ | ⟨_, _, _, _, hy', -⟩
    · rw [hy] at hy'
      cases hy'
      exact .inl ⟨a, c, m', k', hx, hz, hbc ▸ hV, hkk ▸ hR⟩
    · rw [hy] at hy'
      cases hy'
  · rcases h' n n rfl with ⟨_, _, _, _, hy', -⟩ | ⟨e₁, e₂, k, k', hy', hz, hkk⟩
    · rw [hy] at hy'
      cases hy'
    · rw [hy] at hy'
      cases hy'
      exact .inr ⟨e, e₂, m', k', hx, hz, hkk ▸ hR⟩

theorem symm {x y : EvalM σ α} (h : Alike Eq Eq x y) : Alike Eq Eq y x := by
  rintro m _ rfl
  rcases h m m rfl with ⟨a, _, m', _, hx, hy, rfl, rfl⟩ | ⟨e, e', m', _, hx, hy, rfl⟩
  · exact .inl ⟨a, a, m', m', hy, hx, rfl, rfl⟩
  · exact .inr ⟨e', e, m', m', hy, hx, rfl⟩

/-- On one machine, computations that are alike succeed with one result or both fail, and leave one
machine. -/
theorem run_eq {x y : EvalM σ α} (h : Alike Eq Eq x y) (m : Machine σ) :
    (∃ a m', x.run m = (.ok a, m') ∧ y.run m = (.ok a, m')) ∨
      ∃ e e' m', x.run m = (.error e, m') ∧ y.run m = (.error e', m') := by
  rcases h m m rfl with ⟨a, _, m', _, hx, hy, rfl, rfl⟩ | ⟨e, e', m', _, hx, hy, rfl⟩
  · exact .inl ⟨a, m', hx, hy⟩
  · exact .inr ⟨e, e', m', hx, hy⟩

/-- A truth value, taken from one value by way of two expressions. -/
theorem truth (e e' : TypedExpr) (v : Value) : Alike R Eq (truth e v) (truth e' v) :=
  fun _ _ hmn => .truth e e' v (fun _ => ⟨rfl, hmn⟩) hmn

/-- The success of a computation passes to one that is alike. -/
theorem of_ok {x : EvalM σ α} {y : EvalM σ β}
    (hxy : Alike R V x y) {m n n' : Machine σ} (hmn : R m n) {b : β} (hy : y.run n = (.ok b, n')) :
    ∃ a m', x.run m = (.ok a, m') ∧ V a b ∧ R m' n' := by
  rcases hxy m n hmn with ⟨a, b', m', n₁, hx, hy', hV, hR⟩ | ⟨e, e', m', n₁, -, hy', -⟩
  · rw [hy] at hy'
    cases hy'
    exact ⟨a, m', hx, hV, hR⟩
  · rw [hy] at hy'
    cases hy'

end Alike

theorem run_bind_eq_ok {x : EvalM σ α} {f : α → EvalM σ β} {m n : Machine σ}
    {b : β} :
    (x >>= f).run m = (.ok b, n) ↔ ∃ a m', x.run m = (.ok a, m') ∧ (f a).run m' = (.ok b, n) := by
  rw [run_bind]
  rcases x.run m with ⟨e | a, m'⟩
  · constructor
    · intro hb
      cases hb
    · rintro ⟨a, m₁, ha, -⟩
      cases ha
  · constructor
    · intro hb
      exact ⟨a, m', rfl, hb⟩
    · rintro ⟨a', m₁, ha, hb⟩
      cases ha
      exact hb

end Rulebook.EvalM

namespace Rulebook.Expr

open EvalM (Alike)

variable {σ : Type} {h : Host σ} {m m' : Mark} {d d' e e' : TypedExpr}

theorem alike_var (x : String) : Alike Eq Eq ((var m x).eval h) ((var m' x).eval h) := by
  rintro n _ rfl
  cases hx : n.memory.find? x with
  | some v =>
    have hload : ∀ m : Mark, ((var m x).eval h).run n = (.ok v, n) := fun m => by
      rw [eval, EvalM.run_load, hx]
    exact .inl ⟨v, v, n, n, hload m, hload m', rfl, rfl⟩
  | none =>
    have hload : ∀ m : Mark, ((var m x).eval h).run n = (.error (.unbound x m.line), n) :=
      fun m => by rw [eval, EvalM.run_load, hx]
    exact .inr ⟨_, _, n, n, hload m, hload m', rfl⟩

theorem alike_not (he : Alike Eq Eq (e.eval h) (e'.eval h)) :
    Alike Eq Eq ((Expr.not m e).eval h) ((Expr.not m' e').eval h) := by
  refine he.bind ?_
  rintro v _ rfl
  refine (Alike.truth e e' v).bind ?_
  rintro b _ rfl
  exact .pure rfl

theorem alike_call {f : String} {args args' : List TypedExpr} (hty : m.ty = m'.ty)
    (hargs : List.Forall₂ (fun a a' => Alike Eq Eq (a.eval h) (a'.eval h)) args args') :
    Alike Eq Eq ((call m f args).eval h) ((call m' f args').eval h) := by
  rw [eval, eval, evalArgs_eq_mapM, evalArgs_eq_mapM, hty]
  refine (Alike.mapM hargs).bind fun vs vs' hvs => ?_
  rw [List.forall₂_eq_eq_eq] at hvs
  subst hvs
  exact .refl _

theorem alike_binary {op : Operator} (hd : Alike Eq Eq (d.eval h) (d'.eval h))
    (he : Alike Eq Eq (e.eval h) (e'.eval h)) :
    Alike Eq Eq ((binary m op d e).eval h) ((binary m' op d' e').eval h) := by
  refine hd.bind ?_
  rintro a _ rfl
  refine he.bind ?_
  rintro b _ rfl
  cases op.onValues? a b with
  | some v => exact .pure rfl
  | none => exact .throw _ _

theorem alike_cond {c c' : TypedExpr} (hc : Alike Eq Eq (c.eval h) (c'.eval h))
    (hd : Alike Eq Eq (d.eval h) (d'.eval h)) (he : Alike Eq Eq (e.eval h) (e'.eval h)) :
    Alike Eq Eq ((Expr.cond m c d e).eval h) ((Expr.cond m' c' d' e').eval h) := by
  refine hc.bind ?_
  rintro v _ rfl
  refine (Alike.truth c c' v).bind ?_
  rintro b _ rfl
  cases b with
  | true => exact hd
  | false => exact he

theorem alike_assign {x : String} (he : Alike Eq Eq (e.eval h) (e'.eval h)) :
    Alike Eq Eq ((assign m x e).eval h) ((assign m' x e').eval h) := by
  refine he.bind ?_
  rintro v _ rfl
  exact .refl _

theorem alike_seq (hd : Alike Eq Eq (d.eval h) (d'.eval h))
    (he : Alike Eq Eq (e.eval h) (e'.eval h)) :
    Alike Eq Eq ((seq m d e).eval h) ((seq m' d' e').eval h) :=
  hd.bind fun _ _ _ => he.bind fun _ _ _ => .pure rfl

end Rulebook.Expr
