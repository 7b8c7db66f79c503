import Rulebook.Folding
import Rulebook.Proofs.Rewriting
import Rulebook.Proofs.Typing.Inlining

/-!
# Renamed expressions

Two expressions that differ only in names: `e.Renamed vars calls e'` says that `e'` is `e` with the
variables replaced along `vars` and the functions that are called along `calls`. Every pass does the
same to both (`Renamed.rewrite`, `Renamed.cutCalls`, `Renamed.foldConstants`): either both succeed,
and the results again differ only in names, or both fail.
-/

namespace Rulebook

namespace Expr

/-- The second expression is the first with other names for variables and for functions. -/
inductive Renamed {μ : Type} (vars calls : String → String → Prop) : Expr μ → Expr μ → Prop
  | lit (m : μ) (v : Literal) : Renamed vars calls (.lit m v) (.lit m v)
  | var {m : μ} {x x' : String} : vars x x' → Renamed vars calls (.var m x) (.var m x')
  | not {m : μ} {e e' : Expr μ} : Renamed vars calls e e' →
    Renamed vars calls (.not m e) (.not m e')
  | call {m : μ} {f f' : String} {args args' : List (Expr μ)} : calls f f' →
    args.length = args'.length → (∀ a ∈ args.zip args', Renamed vars calls a.1 a.2) →
    Renamed vars calls (.call m f args) (.call m f' args')
  | binary {m : μ} {op : Operator} {l r l' r' : Expr μ} : Renamed vars calls l l' →
    Renamed vars calls r r' → Renamed vars calls (.binary m op l r) (.binary m op l' r')
  | cond {m : μ} {c t e c' t' e' : Expr μ} : Renamed vars calls c c' → Renamed vars calls t t' →
    Renamed vars calls e e' → Renamed vars calls (.cond m c t e) (.cond m c' t' e')
  | assign {m : μ} {x x' : String} {e e' : Expr μ} : vars x x' → Renamed vars calls e e' →
    Renamed vars calls (.assign m x e) (.assign m x' e')
  | seq {m : μ} {a b a' b' : Expr μ} : Renamed vars calls a a' → Renamed vars calls b b' →
    Renamed vars calls (.seq m a b) (.seq m a' b')

namespace Renamed

variable {μ : Type} {vars calls vars' calls' : String → String → Prop}

theorem call_of_forall₂ {m : μ} {f f' : String} {args args' : List (Expr μ)} (hf : calls f f')
    (h : List.Forall₂ (Renamed vars calls) args args') :
    Renamed vars calls (.call m f args) (.call m f' args') :=
  .call hf h.length_eq fun _ ha => (List.forall₂_iff_zip.1 h).2 ha

theorem mark_eq {e e' : Expr μ} (h : e.Renamed vars calls e') : e'.mark = e.mark := by
  cases h <;> rfl

theorem ty_eq {e e' : TypedExpr} (h : e.Renamed vars calls e') : e'.ty = e.ty :=
  congrArg Mark.ty h.mark_eq

theorem literal?_eq {e e' : Expr μ} (h : e.Renamed vars calls e') :
    e'.literal? = e.literal? := by
  cases h <;> rfl

theorem mono {e e' : Expr μ} (h : e.Renamed vars calls e') (hvars : ∀ x x', vars x x' → vars' x x')
    (hcalls : ∀ f f', calls f f' → calls' f f') : e.Renamed vars' calls' e' := by
  induction h with
  | lit m v => exact .lit m v
  | var hx => exact .var (hvars _ _ hx)
  | not _ ih => exact .not ih
  | call hf hlen _ ih => exact .call (hcalls _ _ hf) hlen ih
  | binary _ _ ihl ihr => exact .binary ihl ihr
  | cond _ _ _ ihc iht ihe => exact .cond ihc iht ihe
  | assign hx _ ih => exact .assign (hvars _ _ hx) ih
  | seq _ _ iha ihb => exact .seq iha ihb

/-- The names of a well-typed expression are names of its context. -/
theorem of_wellTyped {names : String → Ty → Prop} {funs : String → List Ty → Ty → Prop}
    {e e' : TypedExpr} (h : e.Renamed vars calls e') (hw : e.WellTyped (.of names funs)) :
    e.Renamed (fun x x' => vars x x' ∧ ∃ t, names x t)
      (fun f f' => calls f f' ∧ ∃ ts t, funs f ts t) e' := by
  induction h with
  | lit m v => exact .lit m v
  | var hx =>
    cases hw with
    | var hm => exact .var ⟨hx, _, hm⟩
  | not _ ih =>
    cases hw with
    | not _ _ he => exact .not (ih he)
  | call hf hlen _ ih =>
    cases hw with
    | call hm hargs =>
      exact .call ⟨hf, _, _, hm⟩ hlen fun a ha => ih a ha (hargs _ (List.of_mem_zip ha).1)
  | binary _ _ ihl ihr =>
    cases hw with
    | binary _ _ hl hr => exact .binary (ihl hl) (ihr hr)
  | cond _ _ _ ihc iht ihe =>
    cases hw with
    | cond _ _ _ hc ht he => exact .cond (ihc hc) (iht ht) (ihe he)
  | assign hx _ ih =>
    cases hw with
    | assign _ hm he => exact .assign ⟨hx, _, hm⟩ (ih he)
  | seq _ _ iha ihb =>
    cases hw with
    | seq _ _ _ ha hb => exact .seq (iha ha) (ihb hb)

/-- Expressions that differ in no name are equal. -/
theorem eq {e e' : Expr μ} (h : e.Renamed Eq Eq e') : e' = e := by
  induction h with
  | lit m v => rfl
  | var hx => rw [hx]
  | not _ ih => rw [ih]
  | @call m f f' args args' hf hlen _ ih =>
    have hargs : List.Forall₂ (fun a a' => a' = a) args args' :=
      List.forall₂_iff_zip.2 ⟨hlen, fun ha => ih _ ha⟩
    have heq : args' = args := by
      rw [← List.forall₂_eq_eq_eq]
      exact hargs.flip
    rw [hf, heq]
  | binary _ _ ihl ihr => rw [ihl, ihr]
  | cond _ _ _ ihc iht ihe => rw [ihc, iht, ihe]
  | assign hx _ ih => rw [hx, ih]
  | seq _ _ iha ihb => rw [iha, ihb]

end Renamed

end Expr

/-! ## Rewriting -/

/-- Two rewritings put expressions that differ only in names for names that stand for each other. -/
structure Rewriting.Renamed (vars calls vars' calls' : String → String → Prop)
    (ρ ρ' : Rewriting) : Prop where
  read : ∀ m x x', vars x x' → (ρ.read m x).Renamed vars' calls' (ρ'.read m x')
  target : ∀ x x' line, vars x x' → Together vars' (ρ.target x line) (ρ'.target x' line)
  call : ∀ m f f' args args', calls f f' → List.Forall₂ (Expr.Renamed vars' calls') args args' →
    Together (Expr.Renamed vars' calls') (ρ.call m f args) (ρ'.call m f' args')

section

variable {vars calls vars' calls' : String → String → Prop}

/-- **Rewriting expressions that differ only in names.** -/
theorem Expr.Renamed.rewrite {ρ ρ' : Rewriting}
    (hρ : Rewriting.Renamed vars calls vars' calls' ρ ρ') {e e' : TypedExpr}
    (h : e.Renamed vars calls e') :
    Together (Expr.Renamed vars' calls') (e.rewrite ρ) (e'.rewrite ρ') := by
  induction h with
  | lit m v => exact .pure (.lit m v)
  | var hx => exact .pure (hρ.read _ _ _ hx)
  | not _ ih => exact ih.bind fun e e' he => .pure (.not he)
  | call hf hlen _ ih =>
    rw [Expr.rewrite, Expr.rewrite, rewriteArgs_eq_mapM, rewriteArgs_eq_mapM]
    exact (Together.mapM (List.forall₂_iff_zip.2 ⟨hlen, ih _⟩)).bind fun _ _ => hρ.call _ _ _ _ _ hf
  | binary _ _ ihl ihr =>
    exact ihl.bind fun l l' hl => ihr.bind fun r r' hr => .pure (.binary hl hr)
  | cond _ _ _ ihc iht ihe =>
    exact ihc.bind fun c c' hc => iht.bind fun t t' ht => ihe.bind fun e e' he =>
      .pure (.cond hc ht he)
  | assign hx _ ih =>
    exact (hρ.target _ _ _ hx).bind fun y y' hy => ih.bind fun e e' he => .pure (.assign hy he)
  | seq _ _ iha ihb =>
    exact iha.bind fun a a' ha => ihb.bind fun b b' hb => .pure (.seq ha hb)

/-- Substitutions that put for names that stand for each other what differs only in the names of
functions. -/
theorem Rewriting.Renamed.ofSubstitution {s s' : Substitution}
    (h : ∀ x x', vars x x' → Option.Rel (Expr.Renamed Eq calls) (s.find? x) (s'.find? x') ∧
      (s.find? x = none → x = x')) :
    Rewriting.Renamed vars calls Eq calls (.ofSubstitution s) (.ofSubstitution s') where
  read m x x' hx := by
    obtain ⟨hrel, hnone⟩ := h x x' hx
    unfold Rewriting.ofSubstitution
    dsimp only
    cases hfind : s.find? x with
    | none =>
      rw [hfind] at hrel
      rw [eq_none_of_rel hrel]
      exact .var (hnone hfind)
    | some e =>
      rw [hfind] at hrel
      obtain ⟨e', he', hrenamed⟩ := eq_some_of_rel hrel
      rw [he']
      exact hrenamed
  target x x' line hx := by
    obtain ⟨hrel, hnone⟩ := h x x' hx
    unfold Rewriting.ofSubstitution Substitution.target
    dsimp only
    cases hfind : s.find? x with
    | none =>
      rw [hfind] at hrel
      rw [eq_none_of_rel hrel]
      exact .pure (hnone hfind)
    | some e =>
      rw [hfind] at hrel
      obtain ⟨e', he', hrenamed⟩ := eq_some_of_rel hrel
      rw [he']
      -- a target stays one only if a variable is put for it
      cases hrenamed with
      | var hy => exact .pure hy
      | _ => exact .error _ _
  call m f f' args args' hf hargs := .pure (.call_of_forall₂ hf hargs)

end

/-! ## Functions -/

section

variable {calls : String → String → Prop}

/-- No two names stand for one, on either side. -/
def OneToOne (calls : String → String → Prop) : Prop :=
  ∀ f f' g g', calls f f' → calls g g' → (f = g ↔ f' = g')

/-- Two functions that differ only in the names of functions. -/
structure Callee.Renamed (calls : String → String → Prop) (f f' : Callee) : Prop where
  name : calls f.name f'.name
  params_eq : f'.params = f.params
  body : f.body.Renamed Eq calls f'.body

theorem Callee.Renamed.apply {f f' : Callee} (hf : f.Renamed calls f') {args args' : List TypedExpr}
    (hargs : List.Forall₂ (Expr.Renamed Eq calls) args args') :
    Together (Expr.Renamed Eq calls) (f.apply args) (f'.apply args') := by
  rw [Callee.apply, Callee.apply, Expr.substitute_eq_rewrite, Expr.substitute_eq_rewrite,
    hf.params_eq]
  refine hf.body.rewrite (.ofSubstitution ?_)
  rintro x _ rfl
  exact ⟨Substitution.find?_ofArgs_rel f.params hargs x, fun _ => rfl⟩

theorem Rewriting.Renamed.ofCallee (hcalls : OneToOne calls) {f f' : Callee}
    (hf : f.Renamed calls f') :
    Rewriting.Renamed Eq calls Eq calls (.ofCallee f) (.ofCallee f') where
  read m x x' hx := .var hx
  target x x' _ hx := .pure hx
  call m g g' args args' hg hargs := by
    have hiff := hcalls g g' f.name f'.name hg hf.name
    unfold Rewriting.ofCallee
    dsimp only
    split
    · next heq =>
      rw [if_pos (hiff.1 heq)]
      exact hf.apply hargs
    · next hne =>
      rw [if_neg fun heq => hne (hiff.2 heq)]
      exact .pure (.call_of_forall₂ hg hargs)

namespace Expr.Renamed

variable {e e' : TypedExpr}

theorem inline (hcalls : OneToOne calls) {f f' : Callee} (hf : f.Renamed calls f')
    (h : e.Renamed Eq calls e') : Together (Renamed Eq calls) (e.inline f) (e'.inline f') := by
  rw [inline_eq_rewrite, inline_eq_rewrite]
  exact h.rewrite (.ofCallee hcalls hf)

theorem inlineTimes (hcalls : OneToOne calls) {f f' : Callee} (hf : f.Renamed calls f') (n : ℕ)
    (h : e.Renamed Eq calls e') :
    Together (Renamed Eq calls) (e.inlineTimes f n) (e'.inlineTimes f' n) := by
  induction n generalizing e e' with
  | zero => exact .pure h
  | succ n ih => exact (h.inline hcalls hf).bind fun _ _ => ih

theorem inlineEach (hcalls : OneToOne calls) {fs fs' : List Callee}
    (hfs : List.Forall₂ (Callee.Renamed calls) fs fs') (h : e.Renamed Eq calls e') :
    Together (Renamed Eq calls) (Rulebook.inlineEach fs e) (Rulebook.inlineEach fs' e') := by
  induction hfs generalizing e e' with
  | nil => exact .pure h
  | cons hf _ ih => exact (h.inline hcalls hf).bind fun _ _ => ih

/-- Replacing the calls of functions that stand for each other. -/
theorem cutCalls (hcalls : OneToOne calls) {f f' : String} (hf : calls f f') {d d' : TypedExpr}
    (hd : d.Renamed Eq calls d') (h : e.Renamed Eq calls e') :
    (Expr.cutCalls f d e).Renamed Eq calls (Expr.cutCalls f' d' e') := by
  induction h with
  | lit m v => exact .lit m v
  | var hx => exact .var hx
  | not _ ih => exact .not ih
  | @call m g g' args args' hg hlen _ ih =>
    have hiff := hcalls g g' f f' hg hf
    rw [Expr.cutCalls, Expr.cutCalls, cutCallsArgs_eq_map, cutCallsArgs_eq_map]
    split
    · next heq =>
      rw [if_pos (hiff.1 heq)]
      exact hd
    · next hne =>
      rw [if_neg fun heq => hne (hiff.2 heq)]
      refine .call_of_forall₂ hg (List.forall₂_map_left_iff.2 (List.forall₂_map_right_iff.2 ?_))
      exact List.forall₂_iff_zip.2 ⟨hlen, ih _⟩
  | binary _ _ ihl ihr => exact .binary ihl ihr
  | cond _ _ _ ihc iht ihe => exact .cond ihc iht ihe
  | assign hx _ ih => exact .assign hx ih
  | seq _ _ iha ihb => exact .seq iha ihb

end Expr.Renamed

end

/-! ## Folding -/

namespace Expr.Renamed

variable {vars calls : String → String → Prop} {m : Mark}

theorem foldNot {e e' : TypedExpr} (h : e.Renamed vars calls e') :
    Together (Renamed vars calls) (Expr.foldNot m e) (Expr.foldNot m e') := by
  unfold Expr.foldNot
  rw [h.literal?_eq]
  split
  · exact .pure (.lit _ _)
  · exact .error _ _
  · exact .pure (.not h)

theorem foldBinary {op : Operator} {l l' r r' : TypedExpr} (hl : l.Renamed vars calls l')
    (hr : r.Renamed vars calls r') :
    Together (Renamed vars calls) (Expr.foldBinary m op l r) (Expr.foldBinary m op l' r') := by
  unfold Expr.foldBinary
  rw [hl.literal?_eq, hr.literal?_eq]
  split
  · next a b _ _ =>
    refine (Together.refl (op.fold a b)).bind ?_
    rintro v? _ rfl
    cases v? with
    | some v => exact .pure (.lit _ _)
    | none => exact .pure (.binary hl hr)
  · exact .pure (.binary hl hr)

theorem foldCond {c c' t t' e e' : TypedExpr} (hc : c.Renamed vars calls c')
    (ht : t.Renamed vars calls t') (he : e.Renamed vars calls e') :
    Together (Renamed vars calls) (Expr.foldCond m c t e) (Expr.foldCond m c' t' e') := by
  unfold Expr.foldCond
  rw [hc.literal?_eq]
  split
  · exact .pure ht
  · exact .pure he
  · exact .error _ _
  · exact .pure (.cond hc ht he)

/-- **Folding expressions that differ only in names.** -/
theorem foldConstants {e e' : TypedExpr} (h : e.Renamed vars calls e') :
    Together (Renamed vars calls) e.foldConstants e'.foldConstants := by
  induction h with
  | lit m v => exact .pure (.lit m v)
  | var hx => exact .pure (.var hx)
  | not _ ih => exact ih.bind fun _ _ => foldNot
  | call hf hlen _ ih =>
    rw [Expr.foldConstants, Expr.foldConstants, foldConstantsArgs_eq_mapM,
      foldConstantsArgs_eq_mapM]
    exact (Together.mapM (List.forall₂_iff_zip.2 ⟨hlen, ih _⟩)).bind fun _ _ hargs =>
      .pure (.call_of_forall₂ hf hargs)
  | binary _ _ ihl ihr =>
    exact ihl.bind fun _ _ hl => ihr.bind fun _ _ hr => foldBinary hl hr
  | cond _ _ _ ihc iht ihe =>
    exact ihc.bind fun _ _ hc => iht.bind fun _ _ ht => ihe.bind fun _ _ he => foldCond hc ht he
  | assign hx _ ih => exact ih.bind fun _ _ he => .pure (.assign hx he)
  | seq _ _ iha ihb => exact iha.bind fun _ _ ha => ihb.bind fun _ _ hb => .pure (.seq ha hb)

end Expr.Renamed

end Rulebook
