import Rulebook.Proofs.Expansion.Term
import Rulebook.Proofs.Occurrence
import Rulebook.Proofs.Rewriting
import Rulebook.Proofs.Typing.Substitution

/-!
# Expanding calls

`Expr.expand` replaces the calls of several functions at once, from the inside out. It is the
measure for inlining, which replaces the calls of one function after the other.

Expressions are compared by their terms (`Expr.toTerm`), which lose nothing (`toTerm_injective`). A
pass over expressions that succeeds does to the expression what the pass of the same name does to
its term (`toTerm_rewrite`); so the laws of terms hold of expressions wherever the passes succeed.
-/

namespace Rulebook

/-! ## Terms of expressions -/

namespace Expr

mutual

/-- The term of an expression. -/
def toTerm : TypedExpr → Term
  | .lit m v => .node (.lit m v) []
  | .var m x => .name m x
  | .not m e => .node (.not m) [e.toTerm]
  | .call m f args => .node (.call m f) (toTerms args)
  | .binary m op l r => .node (.binary m op) [l.toTerm, r.toTerm]
  | .cond m c t e => .node (.cond m) [c.toTerm, t.toTerm, e.toTerm]
  | .assign m x e => .assign m (.name none x) e.toTerm
  | .seq m a b => .node (.seq m) [a.toTerm, b.toTerm]

/-- The terms of all arguments. -/
def toTerms : List TypedExpr → List Term
  | [] => []
  | e :: es => e.toTerm :: toTerms es

end

@[simp] theorem toTerms_eq_map (es : List TypedExpr) : toTerms es = es.map toTerm := by
  induction es with
  | nil => rfl
  | cons e es ih => rw [toTerms, ih, List.map_cons]

theorem toTerm_injective : Function.Injective toTerm := by
  intro e e' h
  induction e using Expr.induct generalizing e' with
  | lit m v => cases e' <;> simp_all [toTerm]
  | var m x => cases e' <;> simp_all [toTerm]
  | not m e ih =>
    cases e' with
    | not m' e' =>
      simp only [toTerm, Term.node.injEq, Head.not.injEq, List.cons.injEq, and_true] at h
      rw [h.1, ih h.2]
    | _ => simp [toTerm] at h
  | call m f args ih =>
    cases e' with
    | call m' g args' =>
      simp only [toTerm, toTerms_eq_map, Term.node.injEq, Head.call.injEq] at h
      obtain ⟨⟨rfl, rfl⟩, hargs⟩ := h
      rw [← List.forall₂_eq_eq_eq, List.forall₂_map_left_iff, List.forall₂_map_right_iff] at hargs
      have heq : List.Forall₂ Eq args args' := forall₂_of_mem hargs fun a ha _ hab => ih a ha hab
      rw [List.forall₂_eq_eq_eq] at heq
      rw [heq]
    | _ => simp [toTerm] at h
  | binary m op l r ihl ihr =>
    cases e' with
    | binary m' op' l' r' =>
      simp only [toTerm, Term.node.injEq, Head.binary.injEq, List.cons.injEq, and_true] at h
      obtain ⟨⟨rfl, rfl⟩, hl, hr⟩ := h
      rw [ihl hl, ihr hr]
    | _ => simp [toTerm] at h
  | cond m c t e ihc iht ihe =>
    cases e' with
    | cond m' c' t' e' =>
      simp only [toTerm, Term.node.injEq, Head.cond.injEq, List.cons.injEq, and_true] at h
      obtain ⟨rfl, hc, ht, he⟩ := h
      rw [ihc hc, iht ht, ihe he]
    | _ => simp [toTerm] at h
  | assign m x e ih =>
    cases e' with
    | assign m' y e' =>
      simp only [toTerm, Term.assign.injEq, Term.name.injEq, true_and] at h
      obtain ⟨rfl, rfl, he⟩ := h
      rw [ih he]
    | _ => simp [toTerm] at h
  | seq m a b iha ihb =>
    cases e' with
    | seq m' a' b' =>
      simp only [toTerm, Term.node.injEq, Head.seq.injEq, List.cons.injEq, and_true] at h
      obtain ⟨rfl, ha, hb⟩ := h
      rw [iha ha, ihb hb]
    | _ => simp [toTerm] at h

/-- The term of an expression has the names that the expression mentions. -/
theorem names_toTerm (e : TypedExpr) : e.toTerm.names = e.mentions := by
  induction e using Expr.induct with
  | lit m v => rfl
  | var m x => rfl
  | not m e ih => simp [toTerm, Term.names, ih]
  | call m f args ih =>
    simp only [toTerm, toTerms_eq_map, Term.names, Term.namesAll_eq_flatMap, List.flatMap_map,
      collect_call, mention?, Option.toList_none, List.nil_append]
    exact List.flatMap_congr ih
  | binary m op l r ihl ihr => simp [toTerm, Term.names, ihl, ihr]
  | cond m c t e ihc iht ihe => simp [toTerm, Term.names, ihc, iht, ihe]
  | assign m x e ih => simp [toTerm, Term.names, ih]
  | seq m a b iha ihb => simp [toTerm, Term.names, iha, ihb]

/-- Calls of functions of `Γ` in the term of an expression have as many parts as there are
parameters if the calls in the expression have as many arguments. -/
theorem saturated_toTerm {Γ : Definitions} {e : TypedExpr}
    (harity : ∀ g d, Γ g = some d → ∀ args ∈ e.argsOf g, args.length = d.params.length) :
    e.toTerm.Shaped Γ.Saturates := by
  have hother {h : Head} (hh : h.callee? = none) (n : ℕ) : Γ.Saturates h n :=
    Definitions.saturates_of_none hh Γ n
  induction e using Expr.induct with
  | lit m v => exact .node (hother rfl _) nofun
  | var m x => exact .name m x
  | not m e ih =>
    have he := ih (by simpa using harity)
    exact .node (hother rfl _) (by simpa using he)
  | call m f args ih =>
    rw [toTerm, toTerms_eq_map]
    refine .node (fun d hd => ?_) fun t ht => ?_
    · rw [List.length_map]
      exact harity f d hd args (mem_argsOf.2 ⟨m, self_mem_subterms _⟩)
    · obtain ⟨a, ha, rfl⟩ := List.mem_map.1 ht
      exact ih a ha fun g d hd args' h =>
        harity g d hd args' (collect_subset (mem_subterms_call ha m f) h)
  | binary m op l r ihl ihr =>
    simp only [collect_binary, argsOf?, Option.toList_none, List.nil_append, List.mem_append,
      or_imp, forall_and] at harity
    have hl := ihl harity.1
    have hr := ihr harity.2
    exact .node (hother rfl _) (by simpa using ⟨hl, hr⟩)
  | cond m c t e ihc iht ihe =>
    simp only [collect_cond, argsOf?, Option.toList_none, List.nil_append, List.mem_append,
      or_imp, forall_and] at harity
    have hc := ihc harity.1.1
    have ht := iht harity.1.2
    have he := ihe harity.2
    exact .node (hother rfl _) (by simpa using ⟨hc, ht, he⟩)
  | assign m x e ih => exact .assign (.name none x) (ih (by simpa using harity))
  | seq m a b iha ihb =>
    simp only [collect_seq, argsOf?, Option.toList_none, List.nil_append, List.mem_append,
      or_imp, forall_and] at harity
    have ha := iha harity.1
    have hb := ihb harity.2
    exact .node (hother rfl _) (by simpa using ⟨ha, hb⟩)

/-- Where nothing is put for names and nodes stay, the term of an expression stays. -/
theorem rebuild_toTerm (e : TypedExpr) : e.toTerm.rebuild (fun _ => none) .node = e.toTerm := by
  induction e using Expr.induct with
  | lit m v => rfl
  | var m x => rfl
  | not m e ih => simp [toTerm, ih]
  | call m f args ih =>
    simp only [toTerm, toTerms_eq_map, Term.rebuild_node, List.map_map]
    exact congrArg (Term.node (.call m f)) (List.map_congr_left ih)
  | binary m op l r ihl ihr => simp [toTerm, ihl, ihr]
  | cond m c t e ihc iht ihe => simp [toTerm, ihc, iht, ihe]
  | assign m x e ih =>
    rw [toTerm, Term.rebuild, ih]
    rfl
  | seq m a b iha ihb => simp [toTerm, iha, ihb]

theorem expand_empty (e : TypedExpr) : e.toTerm.expand .empty = e.toTerm := by
  rw [Term.expand, Definitions.node_empty, rebuild_toTerm]

/-- A substitution that has nothing for the names of an expression. -/
theorem subst_toTerm_of_none {e : TypedExpr} {s : Replacement}
    (h : ∀ x ∈ e.mentions, s x = none) : e.toTerm.subst s = e.toTerm := by
  have hnone : e.toTerm.subst s = e.toTerm.rebuild (fun _ => none) .node :=
    Term.rebuild_congr fun x hx => h x (names_toTerm e ▸ hx)
  rw [hnone, rebuild_toTerm]

end Expr

/-! ## Passes -/

/-- Rewriting an expression does to its term what rebuilding with `s` and `κ` does. -/
structure Rewriting.Mirrors (ρ : Rewriting) (s : Replacement) (κ : Head → List Term → Term) :
    Prop where
  read : ∀ m x, (ρ.read m x).toTerm = (Term.name (some m) x).rebuild s κ
  target : ∀ x line y, ρ.target x line = .ok y →
    ((Term.name none x).rebuild s κ).asTarget = .name none y
  node : ∀ h ts, h.callee? = none → κ h ts = .node h ts
  call : ∀ m f args r, ρ.call m f args = .ok r → r.toTerm = κ (.call m f) (args.map Expr.toTerm)

/-- **A pass that succeeds does the same to an expression and to its term.** -/
theorem Expr.toTerm_rewrite {ρ : Rewriting} {s : Replacement} {κ : Head → List Term → Term}
    (hρ : ρ.Mirrors s κ) {e r : TypedExpr} (h : e.rewrite ρ = .ok r) :
    r.toTerm = e.toTerm.rebuild s κ := by
  induction e using Expr.induct generalizing r with
  | lit m v =>
    cases h
    exact (hρ.node _ _ rfl).symm
  | var m x =>
    cases h
    exact hρ.read m x
  | not m e ih =>
    simp only [rewrite, bind_eq_ok, pure_eq_ok] at h
    obtain ⟨e', he, rfl⟩ := h
    rw [toTerm, toTerm, ih he, Term.rebuild_node, hρ.node _ _ rfl]
    rfl
  | call m f args ih =>
    simp only [rewrite, rewriteArgs_eq_mapM, bind_eq_ok, mapM_eq_ok] at h
    obtain ⟨args', hargs, hr⟩ := h
    have hterms : args'.map toTerm = (args.map toTerm).map (Term.rebuild s κ) := by
      rw [← List.forall₂_eq_eq_eq, List.map_map, List.forall₂_map_left_iff,
        List.forall₂_map_right_iff]
      exact (forall₂_of_mem hargs fun a ha _ hab => ih a ha hab).flip
    rw [hρ.call m f args' r hr, hterms, toTerm, toTerms_eq_map, Term.rebuild_node]
  | binary m op l r ihl ihr =>
    simp only [rewrite, bind_eq_ok, pure_eq_ok] at h
    obtain ⟨l', hl, r', hr, rfl⟩ := h
    rw [toTerm, toTerm, ihl hl, ihr hr, Term.rebuild_node, hρ.node _ _ rfl]
    rfl
  | cond m c t e ihc iht ihe =>
    simp only [rewrite, bind_eq_ok, pure_eq_ok] at h
    obtain ⟨c', hc, t', ht, e', he, rfl⟩ := h
    rw [toTerm, toTerm, ihc hc, iht ht, ihe he, Term.rebuild_node, hρ.node _ _ rfl]
    rfl
  | assign m x e ih =>
    simp only [rewrite, bind_eq_ok, pure_eq_ok] at h
    obtain ⟨y, hy, e', he, rfl⟩ := h
    rw [toTerm, toTerm, Term.rebuild, ih he, hρ.target x _ y hy]
  | seq m a b iha ihb =>
    simp only [rewrite, bind_eq_ok, pure_eq_ok] at h
    obtain ⟨a', ha, b', hb, rfl⟩ := h
    rw [toTerm, toTerm, iha ha, ihb hb, Term.rebuild_node, hρ.node _ _ rfl]
    rfl

/-- The terms that a substitution puts for names. -/
def Substitution.terms (s : Substitution) : Replacement := fun x => (s.find? x).map Expr.toTerm

theorem Rewriting.mirrors_ofSubstitution (s : Substitution) :
    (ofSubstitution s).Mirrors s.terms .node where
  read m x := by
    rw [Term.rebuild, Substitution.terms, ofSubstitution]
    dsimp only
    cases s.find? x <;> rfl
  target x line y hy := by
    rw [Term.rebuild, Substitution.terms]
    rcases Substitution.target_eq_ok.1 hy with ⟨hnone, rfl⟩ | ⟨m, hvar⟩
    · rw [hnone]
      rfl
    · rw [hvar]
      rfl
  node h ts _ := rfl
  call m f args r hr := by
    cases hr
    rw [Expr.toTerm, Expr.toTerms_eq_map]

theorem Expr.toTerm_substitute {s : Substitution} {e r : TypedExpr} (h : e.substitute s = .ok r) :
    r.toTerm = e.toTerm.subst s.terms := by
  rw [substitute_eq_rewrite] at h
  exact toTerm_rewrite (Rewriting.mirrors_ofSubstitution s) h

namespace Callee

/-- A function as a definition of terms. -/
def definition (f : Callee) : Definition := ⟨f.params, f.body.toTerm⟩

theorem toTerm_apply {f : Callee} {args : List TypedExpr} {r : TypedExpr}
    (h : f.apply args = .ok r) : r.toTerm = f.definition.apply (args.map Expr.toTerm) := by
  rw [apply] at h
  rw [Expr.toTerm_substitute h]
  refine congrArg (Term.subst · f.body.toTerm) ?_
  funext x
  exact (lookup_zip_map f.params args Expr.toTerm x).symm

end Callee

/-- Functions as definitions of terms; of functions with one name the first counts. -/
def definitions : List Callee → Definitions
  | [] => .empty
  | f :: fs => (definitions fs).define f.name f.definition

theorem definitions_eq (fs : List Callee) (g : String) :
    definitions fs g = (fs.find? (·.name = g)).map Callee.definition := by
  induction fs with
  | nil => rfl
  | cons f fs ih =>
    rw [definitions, Definitions.define, List.find?_cons, ih]
    by_cases hg : g = f.name
    · simp [hg]
    · simp [hg, Ne.symm hg]

/-! ## Several functions at once -/

/-- Replaces the calls of functions; of functions with one name the first counts. -/
def Rewriting.ofCallees (fs : List Callee) : Rewriting where
  read := .var
  target x _ := .ok x
  call m g args :=
    match fs.find? (·.name = g) with
    | some f => f.apply args
    | none => .ok (.call m g args)

/-- Replaces every call of one of the functions, from the inside out, by the body of the function
with the arguments for the parameters. Calls in the arguments have been replaced by then; those in
the body stay. -/
def Expr.expand (fs : List Callee) (e : TypedExpr) : Except Defect TypedExpr :=
  e.rewrite (.ofCallees fs)

theorem Rewriting.mirrors_ofCallees (fs : List Callee) :
    (ofCallees fs).Mirrors (fun _ => none) (definitions fs).node where
  read m x := rfl
  target x line y hy := by
    cases hy
    rfl
  node h ts hh := by
    refine Definitions.node_of_none ?_ ts
    rw [hh]
    rfl
  call m g args r hr := by
    have hdef : (Head.call m g).callee?.bind (definitions fs) =
        (fs.find? (·.name = g)).map Callee.definition := definitions_eq fs g
    rw [ofCallees] at hr
    dsimp only at hr
    split at hr
    · next f hf =>
      rw [hf] at hdef
      rw [Definitions.node_of_some hdef, Callee.toTerm_apply hr]
    · next hf =>
      rw [hf] at hdef
      cases hr
      rw [Definitions.node_of_none hdef, Expr.toTerm, Expr.toTerms_eq_map]

namespace Expr

theorem toTerm_expand {fs : List Callee} {e r : TypedExpr} (h : e.expand fs = .ok r) :
    r.toTerm = e.toTerm.expand (definitions fs) :=
  toTerm_rewrite (Rewriting.mirrors_ofCallees fs) h

/-- Inlining is expanding the calls of one function. -/
theorem inline_eq_expand (f : Callee) (e : TypedExpr) : e.inline f = e.expand [f] := by
  have hcall : (Rewriting.ofCallee f).call = (Rewriting.ofCallees [f]).call := by
    funext m g args
    rw [Rewriting.ofCallee, Rewriting.ofCallees]
    dsimp only
    by_cases hg : g = f.name
    · simp [hg]
    · simp [hg, Ne.symm hg]
  rw [inline_eq_rewrite, expand]
  exact congrArg (fun call => e.rewrite ⟨.var, fun x _ => .ok x, call⟩) hcall

theorem toTerm_inline {f : Callee} {e r : TypedExpr} (h : e.inline f = .ok r) :
    r.toTerm = e.toTerm.expand (Definitions.empty.define f.name f.definition) := by
  rw [inline_eq_expand] at h
  exact toTerm_expand h

/-- Replacing the calls of a function by one expression is expanding them, if the expression does
not mention the parameters. -/
theorem toTerm_cutCalls (f : String) {params : List String} {d : TypedExpr}
    (hd : ∀ p ∈ params, p ∉ d.mentions) (e : TypedExpr) :
    (cutCalls f d e).toTerm = e.toTerm.expand (Definitions.empty.define f ⟨params, d.toTerm⟩) := by
  induction e using Expr.induct with
  | lit m v => rfl
  | var m x => rfl
  | not m e ih => rw [cutCalls, toTerm, ih]; rfl
  | call m g args ih =>
    rw [cutCalls, cutCallsArgs_eq_map, toTerm, toTerms_eq_map, Term.expand_node]
    by_cases hg : g = f
    · have hdef : (Head.call m g).callee?.bind
          (Definitions.empty.define f ⟨params, d.toTerm⟩) = some ⟨params, d.toTerm⟩ := if_pos hg
      rw [if_pos hg, Definitions.node_of_some hdef, Definition.apply, subst_toTerm_of_none]
      intro x hx
      exact Replacement.ofArgs_of_not_mem _ fun hp => hd x hp hx
    · have hdef : (Head.call m g).callee?.bind
          (Definitions.empty.define f ⟨params, d.toTerm⟩) = none := if_neg hg
      rw [if_neg hg, Definitions.node_of_none hdef, toTerm, toTerms_eq_map, List.map_map,
        List.map_map]
      exact congrArg (Term.node (.call m g)) (List.map_congr_left ih)
  | binary m op l r ihl ihr => rw [cutCalls, toTerm, ihl, ihr]; rfl
  | cond m c t e ihc iht ihe => rw [cutCalls, toTerm, ihc, iht, ihe]; rfl
  | assign m x e ih => rw [cutCalls, toTerm, ih]; rfl
  | seq m a b iha ihb => rw [cutCalls, toTerm, iha, ihb]; rfl

end Expr

end Rulebook
