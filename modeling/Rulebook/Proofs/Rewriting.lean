import Rulebook.Inlining
import Rulebook.Proofs.Outcome

/-!
# Rewriting

Substitution and inlining both rebuild an expression from the leaves up, and differ only in what
they put for a name that is read, for the target of an assignment and for a call. `Expr.rewrite` is
that traversal with the three as parameters (`Rewriting`), so what is proved of it holds of both.
-/

namespace Rulebook

/-- What to put for the names of an expression. -/
structure Rewriting where
  /-- For a name that is read. -/
  read : Mark → String → TypedExpr
  /-- For a name that is assigned on a line. -/
  target : String → Line → Except Defect String
  /-- For a call, whose arguments have been rewritten. -/
  call : Mark → String → List TypedExpr → Except Defect TypedExpr

namespace Rewriting

/-- Replaces names. -/
def ofSubstitution (s : Substitution) : Rewriting where
  read m x := (s.find? x).getD (.var m x)
  target := s.target
  call m f args := .ok (.call m f args)

/-- Replaces the calls of a function. -/
def ofCallee (f : Callee) : Rewriting where
  read := .var
  target x _ := .ok x
  call m g args := if g = f.name then f.apply args else .ok (.call m g args)

end Rewriting

namespace Expr

mutual

/-- Rebuilds an expression from the leaves up. -/
def rewrite (ρ : Rewriting) : TypedExpr → Except Defect TypedExpr
  | .lit m v => .ok (.lit m v)
  | .var m x => .ok (ρ.read m x)
  | .not m e => do return .not m (← e.rewrite ρ)
  | .call m f args => do ρ.call m f (← rewriteArgs ρ args)
  | .binary m op l r => do return .binary m op (← l.rewrite ρ) (← r.rewrite ρ)
  | .cond m c t e => do return .cond m (← c.rewrite ρ) (← t.rewrite ρ) (← e.rewrite ρ)
  | .assign m x e => do return .assign m (← ρ.target x m.line) (← e.rewrite ρ)
  | .seq m a b => do return .seq m (← a.rewrite ρ) (← b.rewrite ρ)

/-- Rebuilds every argument. -/
def rewriteArgs (ρ : Rewriting) : List TypedExpr → Except Defect (List TypedExpr)
  | [] => .ok []
  | e :: es => do return (← e.rewrite ρ) :: (← rewriteArgs ρ es)

end

theorem rewriteArgs_eq_mapM (ρ : Rewriting) (es : List TypedExpr) :
    rewriteArgs ρ es = es.mapM (rewrite ρ) := by
  induction es with
  | nil => rfl
  | cons e es ih => rw [rewriteArgs, ih, List.mapM_cons]

theorem substitute_eq_rewrite (s : Substitution) (e : TypedExpr) :
    e.substitute s = e.rewrite (.ofSubstitution s) := by
  induction e using Expr.induct with
  | lit m v => rfl
  | var m x => rfl
  | not m e ih => rw [substitute, rewrite, ih]
  | call m f args ih =>
    rw [substitute, rewrite, substituteArgs_eq_mapM, rewriteArgs_eq_mapM, mapM_congr ih]
    rfl
  | binary m op l r ihl ihr => rw [substitute, rewrite, ihl, ihr]
  | cond m c t e ihc iht ihe => rw [substitute, rewrite, ihc, iht, ihe]
  | assign m x e ih => rw [substitute, rewrite, ih]; rfl
  | seq m a b iha ihb => rw [substitute, rewrite, iha, ihb]

theorem inline_eq_rewrite (f : Callee) (e : TypedExpr) :
    e.inline f = e.rewrite (.ofCallee f) := by
  induction e using Expr.induct with
  | lit m v => rfl
  | var m x => rfl
  | not m e ih => rw [inline, rewrite, ih]
  | call m g args ih =>
    rw [inline, rewrite, inlineArgs_eq_mapM, rewriteArgs_eq_mapM, mapM_congr ih]
    rfl
  | binary m op l r ihl ihr => rw [inline, rewrite, ihl, ihr]
  | cond m c t e ihc iht ihe => rw [inline, rewrite, ihc, iht, ihe]
  | assign m x e ih => rw [inline, rewrite, ih]; rfl
  | seq m a b iha ihb => rw [inline, rewrite, iha, ihb]

end Expr

/-! ## Arguments for parameters -/

theorem lookup_rel {α β : Type} {R : α → β → Prop} {entries : List (String × α)}
    {entries' : List (String × β)}
    (h : List.Forall₂ (fun a b => a.1 = b.1 ∧ R a.2 b.2) entries entries') (x : String) :
    Option.Rel R (entries.lookup x) (entries'.lookup x) := by
  induction h with
  | nil => exact .none
  | @cons a b _ _ hab _ ih =>
    obtain ⟨y, a⟩ := a
    obtain ⟨z, b⟩ := b
    obtain ⟨rfl, hab⟩ : y = z ∧ R a b := hab
    rw [Bindings.lookup_cons_eq_ite, Bindings.lookup_cons_eq_ite]
    split
    · exact .some hab
    · exact ih

/-- Related arguments are put for the same parameters. -/
theorem Substitution.find?_ofArgs_rel {R : TypedExpr → TypedExpr → Prop} (params : List String)
    {args args' : List TypedExpr} (h : List.Forall₂ R args args') (x : String) :
    Option.Rel R ((ofArgs params args).find? x) ((ofArgs params args').find? x) := by
  refine lookup_rel (List.forall₂_reverse_iff.2 ?_) x
  induction h generalizing params with
  | nil =>
    rw [List.zip_nil_right]
    exact .nil
  | cons hab _ ih =>
    cases params with
    | nil => exact .nil
    | cons p params => exact .cons ⟨rfl, hab⟩ (ih params)

/-- Inlining lists of functions that are related one by one. What is to be shown of the outcomes, `T`,
holds if both fail, and if the bodies of related entries come out so. -/
theorem inlineAll_rel {R : Callee → Callee → Prop}
    {T : Except Defect TypedExpr → Except Defect TypedExpr → Prop} {fs fs' : List (FunDecl Mark)}
    (h : List.Forall₂ (fun f f' => Option.Rel R f.callee? f'.callee?) fs fs')
    (herror : ∀ e e', T (.error e) (.error e'))
    (hentry : ∀ f f' gs gs', R f f' → List.Forall₂ R gs gs' →
      f'.params = f.params ∧ T (inlineEach gs f.body) (inlineEach gs' f'.body)) :
    T (inlineAll fs) (inlineAll fs') := by
  have hcallees : List.Forall₂ R (fs.filterMap FunDecl.callee?).reverse
      (fs'.filterMap FunDecl.callee?).reverse :=
    List.forall₂_reverse_iff.2 (List.rel_filterMap (fun _ _ hf => hf) h)
  unfold inlineAll
  generalize (fs.filterMap FunDecl.callee?).reverse = callees,
    (fs'.filterMap FunDecl.callee?).reverse = callees' at hcallees ⊢
  cases hcallees with
  | nil => exact herror _ _
  | cons hf hgs =>
    obtain ⟨hparams, hbody⟩ := hentry _ _ _ _ hf hgs
    dsimp only
    rw [hparams]
    split
    · exact hbody
    · exact herror _ _

end Rulebook
