import Rulebook.Proofs.Rewriting
import Rulebook.Proofs.Typing.Folding
import Rulebook.Proofs.Typing.Substitution

/-!
# Folding some of the constants

Between an expression and its folding lie the expressions in which some constants are folded and
others are not (`Expr.Folds`). Three facts make the order of folding and inlining irrelevant:

* folding leads to such an expression (`folds_of_foldConstants`);
* rewriting both sides keeps them so (`Folds.rewrite`), in particular inlining functions whose
  bodies are partly folded (`Folds.inlineEach`);
* folding the rest gives the same as folding all at once (`Folds.foldConstants_eq`).

A folded expression has lost dead branches, and with them assignments that cannot be carried out,
so rewriting it may succeed where rewriting the whole does not; the other way round it cannot.
-/

namespace Rulebook

namespace Expr

/-- The second expression is the first with some of its constants folded. -/
inductive Folds : TypedExpr → TypedExpr → Prop
  | lit (m : Mark) (v : Literal) : Folds (.lit m v) (.lit m v)
  | var (m : Mark) (x : String) : Folds (.var m x) (.var m x)
  | not {m : Mark} {e e' : TypedExpr} : Folds e e' → Folds (.not m e) (.not m e')
  | call {m : Mark} {f : String} {args args' : List TypedExpr} :
    args.length = args'.length → (∀ p ∈ args.zip args', Folds p.1 p.2) →
    Folds (.call m f args) (.call m f args')
  | binary {m : Mark} {op : Operator} {l l' r r' : TypedExpr} :
    Folds l l' → Folds r r' → Folds (.binary m op l r) (.binary m op l' r')
  | cond {m : Mark} {c c' t t' e e' : TypedExpr} :
    Folds c c' → Folds t t' → Folds e e' → Folds (.cond m c t e) (.cond m c' t' e')
  | assign {m : Mark} {x : String} {e e' : TypedExpr} :
    Folds e e' → Folds (.assign m x e) (.assign m x e')
  | seq {m : Mark} {a a' b b' : TypedExpr} :
    Folds a a' → Folds b b' → Folds (.seq m a b) (.seq m a' b')
  /-- The negation of a truth value. -/
  | notLit {m n : Mark} {e : TypedExpr} {b : Bool} :
    Folds e (.lit n (.bool b)) → Folds (.not m e) (literal (.bool !b) m.line)
  /-- An operation on literals that has a value. -/
  | binaryLit {m n n' : Mark} {op : Operator} {l r : TypedExpr} {a b v : Literal} :
    Folds l (.lit n a) → Folds r (.lit n' b) → op.fold a b = .ok (some v) →
    Folds (.binary m op l r) (literal v m.line)
  /-- A conditional whose test holds; the other branch is dropped. -/
  | condTrue {m n : Mark} {c t t' e : TypedExpr} :
    Folds c (.lit n (.bool true)) → Folds t t' → Folds (.cond m c t e) t'
  /-- A conditional whose test does not hold. -/
  | condFalse {m n : Mark} {c t e e' : TypedExpr} :
    Folds c (.lit n (.bool false)) → Folds e e' → Folds (.cond m c t e) e'

namespace Folds

theorem call_of_forall₂ {m : Mark} {f : String} {args args' : List TypedExpr}
    (h : List.Forall₂ Folds args args') : Folds (.call m f args) (.call m f args') :=
  .call h.length_eq fun _ hp => (List.forall₂_iff_zip.1 h).2 hp

protected theorem refl (e : TypedExpr) : Folds e e := by
  induction e using Expr.induct with
  | lit m v => exact .lit m v
  | var m x => exact .var m x
  | not m e ih => exact .not ih
  | call m f args ih => exact .call_of_forall₂ (List.forall₂_same.2 ih)
  | binary m op l r ihl ihr => exact .binary ihl ihr
  | cond m c t e ihc iht ihe => exact .cond ihc iht ihe
  | assign m x e ih => exact .assign ih
  | seq m a b iha ihb => exact .seq iha ihb

end Folds

/-! ## Folding all constants -/

variable {m : Mark} {e r : TypedExpr}

theorem literal?_eq_some {v : Literal} : e.literal? = some v ↔ ∃ n, e = .lit n v := by
  cases e <;> simp [literal?]

/-- What the negation of a folded operand becomes. -/
theorem foldNot_folds {e' : TypedExpr} (he : e.Folds e') (h : foldNot m e' = .ok r) :
    (Expr.not m e).Folds r := by
  unfold foldNot at h
  split at h
  · next b hb =>
    obtain ⟨n, rfl⟩ := literal?_eq_some.1 hb
    cases h
    exact .notLit he
  · cases h
  · cases h
    exact .not he

/-- What an operator between folded operands becomes. -/
theorem foldBinary_folds {op : Operator} {a a' b b' : TypedExpr} (ha : a.Folds a')
    (hb : b.Folds b') (h : foldBinary m op a' b' = .ok r) : (binary m op a b).Folds r := by
  unfold foldBinary at h
  split at h
  · next v w hv hw =>
    obtain ⟨n, rfl⟩ := literal?_eq_some.1 hv
    obtain ⟨n', rfl⟩ := literal?_eq_some.1 hw
    obtain ⟨value?, hvalue, h⟩ := bind_eq_ok.1 h
    cases value? with
    | some value =>
      cases h
      exact .binaryLit ha hb hvalue
    | none =>
      cases h
      exact .binary ha hb
  · cases h
    exact .binary ha hb

/-- What a conditional of folded parts becomes. -/
theorem foldCond_folds {c c' t t' e' : TypedExpr} (hc : c.Folds c') (ht : t.Folds t')
    (he : e.Folds e') (h : foldCond m c' t' e' = .ok r) : (Expr.cond m c t e).Folds r := by
  unfold foldCond at h
  split at h
  · next hb =>
    obtain ⟨n, rfl⟩ := literal?_eq_some.1 hb
    cases h
    exact .condTrue hc ht
  · next hb =>
    obtain ⟨n, rfl⟩ := literal?_eq_some.1 hb
    cases h
    exact .condFalse hc he
  · cases h
  · cases h
    exact .cond hc ht he

/-- Folding all constants folds some. -/
theorem folds_of_foldConstants (h : e.foldConstants = .ok r) : e.Folds r := by
  induction e using Expr.induct generalizing r with
  | lit m v =>
    cases h
    exact .lit m v
  | var m x =>
    cases h
    exact .var m x
  | not m e ih =>
    obtain ⟨e', he, h⟩ := bind_eq_ok.1 h
    exact foldNot_folds (ih he) h
  | call m f args ih =>
    rw [foldConstants, foldConstantsArgs_eq_mapM] at h
    simp only [bind_eq_ok, pure_eq_ok, mapM_eq_ok] at h
    obtain ⟨args', hargs, rfl⟩ := h
    exact .call_of_forall₂ (forall₂_of_mem hargs ih)
  | binary m op a b iha ihb =>
    rw [foldConstants] at h
    simp only [bind_eq_ok] at h
    obtain ⟨a', ha, b', hb, h⟩ := h
    exact foldBinary_folds (iha ha) (ihb hb) h
  | cond m c t e ihc iht ihe =>
    rw [foldConstants] at h
    simp only [bind_eq_ok] at h
    obtain ⟨c', hc, t', ht, e', he, h⟩ := h
    exact foldCond_folds (ihc hc) (iht ht) (ihe he) h
  | assign m x e ih =>
    rw [foldConstants] at h
    simp only [bind_eq_ok, pure_eq_ok] at h
    obtain ⟨e', he, rfl⟩ := h
    exact .assign (ih he)
  | seq m a b iha ihb =>
    rw [foldConstants] at h
    simp only [bind_eq_ok, pure_eq_ok] at h
    obtain ⟨a', ha, b', hb, rfl⟩ := h
    exact .seq (iha ha) (ihb hb)

namespace Folds

/-- **Folding the rest gives the same as folding all at once.** -/
theorem foldConstants_eq {e' : TypedExpr} (h : e.Folds e') :
    Leads Eq e.foldConstants e'.foldConstants := by
  induction h with
  | lit m v => exact .refl _
  | var m x => exact .refl _
  | not _ ih => exact ih.bind_of_eq fun e => .refl _
  | call hlen _ ih =>
    rw [foldConstants, foldConstants, foldConstantsArgs_eq_mapM, foldConstantsArgs_eq_mapM]
    refine (Leads.mapM (List.forall₂_iff_zip.2 ⟨hlen, ih _⟩)).bind fun as bs hab => ?_
    rw [List.forall₂_eq_eq_eq] at hab
    exact .pure (congrArg _ hab)
  | binary _ _ ihl ihr => exact ihl.bind_of_eq fun l => ihr.bind_of_eq fun r => .refl _
  | cond _ _ _ ihc iht ihe =>
    exact ihc.bind_of_eq fun c => iht.bind_of_eq fun t => ihe.bind_of_eq fun e => .refl _
  | assign _ ih => exact ih.bind_of_eq fun e => .refl _
  | seq _ _ iha ihb => exact iha.bind_of_eq fun a => ihb.bind_of_eq fun b => .refl _
  | notLit _ ih =>
    intro v hv
    obtain ⟨e', he, hv⟩ := bind_eq_ok.1 hv
    obtain ⟨_, ⟨⟩, rfl⟩ := ih e' he
    cases hv
    exact ⟨_, rfl, rfl⟩
  | binaryLit _ _ hvalue ihl ihr =>
    intro v hv
    rw [foldConstants] at hv
    simp only [bind_eq_ok] at hv
    obtain ⟨l', hl, r', hr, hv⟩ := hv
    obtain ⟨_, ⟨⟩, rfl⟩ := ihl l' hl
    obtain ⟨_, ⟨⟩, rfl⟩ := ihr r' hr
    simp only [foldBinary, literal?, hvalue] at hv
    cases hv
    exact ⟨_, rfl, rfl⟩
  | condTrue _ _ ihc iht =>
    intro v hv
    rw [foldConstants] at hv
    simp only [bind_eq_ok] at hv
    obtain ⟨c', hc, t', ht, e', -, hv⟩ := hv
    obtain ⟨_, ⟨⟩, rfl⟩ := ihc c' hc
    cases hv
    exact iht _ ht
  | condFalse _ _ ihc ihe =>
    intro v hv
    rw [foldConstants] at hv
    simp only [bind_eq_ok] at hv
    obtain ⟨c', hc, t', -, e', he, hv⟩ := hv
    obtain ⟨_, ⟨⟩, rfl⟩ := ihc c' hc
    cases hv
    exact ihe _ he

/-- A variable has no constants to fold. -/
theorem eq_of_var {n : Mark} {x : String} {e' : TypedExpr} (h : (Expr.var n x).Folds e') :
    e' = .var n x := by
  cases h
  rfl

end Folds

end Expr

/-! ## Rewriting -/

/-- What the second rewriting puts for a name is what the first puts for it, partly folded. -/
structure Rewriting.Folds (ρ ρ' : Rewriting) : Prop where
  read : ∀ m x, (ρ.read m x).Folds (ρ'.read m x)
  target : ∀ x line, Leads Eq (ρ.target x line) (ρ'.target x line)
  call : ∀ m f args args', List.Forall₂ Expr.Folds args args' →
    Leads Expr.Folds (ρ.call m f args) (ρ'.call m f args')

/-- **Rewriting a partly folded expression.** -/
theorem Expr.Folds.rewrite {ρ ρ' : Rewriting} (hρ : ρ.Folds ρ') {e e' : TypedExpr}
    (h : e.Folds e') : Leads Expr.Folds (e.rewrite ρ) (e'.rewrite ρ') := by
  induction h with
  | lit m v => exact .pure (.lit m v)
  | var m x => exact .pure (hρ.read m x)
  | not _ ih => exact ih.bind fun e e' he => .pure (.not he)
  | call hlen _ ih =>
    rw [Expr.rewrite, Expr.rewrite, rewriteArgs_eq_mapM, rewriteArgs_eq_mapM]
    exact (Leads.mapM (List.forall₂_iff_zip.2 ⟨hlen, ih _⟩)).bind (hρ.call _ _)
  | binary _ _ ihl ihr =>
    exact ihl.bind fun l l' hl => ihr.bind fun r r' hr => .pure (.binary hl hr)
  | cond _ _ _ ihc iht ihe =>
    exact ihc.bind fun c c' hc => iht.bind fun t t' ht => ihe.bind fun e e' he =>
      .pure (.cond hc ht he)
  | assign _ ih =>
    exact (hρ.target _ _).bind_of_eq fun y => ih.bind fun e e' he => .pure (.assign he)
  | seq _ _ iha ihb =>
    exact iha.bind fun a a' ha => ihb.bind fun b b' hb => .pure (.seq ha hb)
  | notLit _ ih =>
    intro r hr
    simp only [Expr.rewrite, bind_eq_ok, pure_eq_ok] at hr
    obtain ⟨e, he, rfl⟩ := hr
    obtain ⟨_, ⟨⟩, hlit⟩ := ih e he
    exact ⟨_, rfl, .notLit hlit⟩
  | binaryLit _ _ hvalue ihl ihr =>
    intro e he
    simp only [Expr.rewrite, bind_eq_ok, pure_eq_ok] at he
    obtain ⟨l, hl, r, hr, rfl⟩ := he
    obtain ⟨_, ⟨⟩, hleft⟩ := ihl l hl
    obtain ⟨_, ⟨⟩, hright⟩ := ihr r hr
    exact ⟨_, rfl, .binaryLit hleft hright hvalue⟩
  | condTrue _ _ ihc iht =>
    intro r hr
    simp only [Expr.rewrite, bind_eq_ok, pure_eq_ok] at hr
    obtain ⟨c, hc, t, ht, e, -, rfl⟩ := hr
    obtain ⟨_, ⟨⟩, htest⟩ := ihc c hc
    obtain ⟨t', ht', hbranch⟩ := iht t ht
    exact ⟨t', ht', .condTrue htest hbranch⟩
  | condFalse _ _ ihc ihe =>
    intro r hr
    simp only [Expr.rewrite, bind_eq_ok, pure_eq_ok] at hr
    obtain ⟨c, hc, t, -, e, he, rfl⟩ := hr
    obtain ⟨_, ⟨⟩, htest⟩ := ihc c hc
    obtain ⟨e', he', hbranch⟩ := ihe e he
    exact ⟨e', he', .condFalse htest hbranch⟩

theorem Rewriting.Folds.ofSubstitution {s s' : Substitution}
    (h : ∀ x, Option.Rel Expr.Folds (s.find? x) (s'.find? x)) :
    Rewriting.Folds (.ofSubstitution s) (.ofSubstitution s') where
  read m x := rel_getD (h x) (.refl (.var m x))
  target x line := by
    intro y hy
    have hx := h x
    rcases Substitution.target_eq_ok.1 hy with ⟨hnone, rfl⟩ | ⟨n, hvar⟩
    · rw [hnone] at hx
      exact ⟨x, Substitution.target_of_none (eq_none_of_rel hx) line, rfl⟩
    · rw [hvar] at hx
      obtain ⟨e', he', hfolds⟩ := eq_some_of_rel hx
      rw [hfolds.eq_of_var] at he'
      exact ⟨y, Substitution.target_of_var he' line, rfl⟩
  call m f args args' hargs := .pure (.call_of_forall₂ hargs)

/-! ## Inlining -/

/-- The second function is the first with its body partly folded. -/
structure Callee.Folds (f f' : Callee) : Prop where
  name_eq : f'.name = f.name
  params_eq : f'.params = f.params
  body : f.body.Folds f'.body

/-- Arguments put for parameters, partly folded. -/
theorem Callee.Folds.apply {f f' : Callee} (hf : f.Folds f') {args args' : List TypedExpr}
    (hargs : List.Forall₂ Expr.Folds args args') :
    Leads Expr.Folds (f.apply args) (f'.apply args') := by
  rw [Callee.apply, Callee.apply, Expr.substitute_eq_rewrite, Expr.substitute_eq_rewrite,
    hf.params_eq]
  exact hf.body.rewrite (.ofSubstitution (Substitution.find?_ofArgs_rel f.params hargs))

theorem Rewriting.Folds.ofCallee {f f' : Callee} (hf : f.Folds f') :
    Rewriting.Folds (.ofCallee f) (.ofCallee f') where
  read m x := .refl (.var m x)
  target x _ := .refl (.ok x)
  call m g args args' hargs := by
    unfold Rewriting.ofCallee
    dsimp only
    rw [hf.name_eq]
    split
    · exact hf.apply hargs
    · exact .pure (.call_of_forall₂ hargs)

/-- **Inlining partly folded functions into a partly folded expression.** -/
theorem Expr.Folds.inlineEach {fs fs' : List Callee} (hfs : List.Forall₂ Callee.Folds fs fs')
    {e e' : TypedExpr} (he : e.Folds e') :
    Leads Expr.Folds (Rulebook.inlineEach fs e) (Rulebook.inlineEach fs' e') := by
  induction hfs generalizing e e' with
  | nil => exact .pure he
  | @cons f f' fs fs' hf _ ih =>
    rw [Rulebook.inlineEach, Rulebook.inlineEach, Expr.inline_eq_rewrite, Expr.inline_eq_rewrite]
    exact (he.rewrite (.ofCallee hf)).bind fun _ _ => ih

end Rulebook
