import Rulebook.Proofs.Interpretation.Basic
import Rulebook.Proofs.Machine.Alike
import Rulebook.Proofs.Typing.Substitution

/-!
# Interpretations that do the same

Two references are alike if reading them is and writing them is; two lists of procedures are alike
if they take arguments that are alike to results that are. The main lemma, `interpret_substitute`,
covers renaming and the substitution of arguments at once: an expression and the expression after a
substitution are alike if every name is like what the substitution puts for it.
-/

namespace Rulebook

variable {σ : Type} {R : Machine σ → Machine σ → Prop}

/-! ## References and procedures -/

/-- Reading and writing the two references is alike. -/
structure Reference.Alike (R : Machine σ → Machine σ → Prop) (p q : Reference σ) : Prop where
  read : EvalM.Alike R Eq p.read q.read
  write : ∀ v, EvalM.Alike R Eq (p.write v) (q.write v)

namespace Reference.Alike

theorem refl (p : Reference σ) : Alike Eq p p := ⟨.refl _, fun _ => .refl _⟩

theorem trans {p q r : Reference σ} (h : Alike R p q) (h' : Alike Eq q r) : Alike R p r :=
  ⟨h.read.trans h'.read, fun v => (h.write v).trans (h'.write v)⟩

theorem ofValue {e e' : TypedExpr} {x y : EvalM σ Value} (h : EvalM.Alike R Eq x y) :
    Alike R (ofValue e x) (ofValue e' y) :=
  ⟨h, fun _ => .throw _ _⟩

/-- References that are alike, read in order. -/
theorem mapM_read {ps qs : List (Reference σ)} (h : List.Forall₂ (Alike R) ps qs) :
    EvalM.Alike R Eq (ps.mapM Reference.read) (qs.mapM Reference.read) := by
  rw [← List.forall₂_eq_eq_eq]
  exact EvalM.Alike.mapM (h.imp fun _ _ h => h.read)

end Reference.Alike

/-- The procedures take references that are alike, `n` of them, to references that are. -/
def ProcedureAlike (R : Machine σ → Machine σ → Prop) (n : ℕ)
    (proc proc' : List (Reference σ) → Reference σ) : Prop :=
  ∀ ps qs, ps.length = n → List.Forall₂ (Reference.Alike R) ps qs →
    Reference.Alike R (proc ps) (proc' qs)

/-- The functions of `calls` are provided in both, or have procedures that are alike. -/
def Procedures.Alike (R : Machine σ → Machine σ → Prop) (calls : String → List Ty → Ty → Prop)
    (procs procs' : Procedures σ) : Prop :=
  ∀ f ts t, calls f ts t → Option.Rel (ProcedureAlike R ts.length) (procs f) (procs' f)

namespace Procedures.Alike

variable {calls calls' : String → List Ty → Ty → Prop} {procs procs' : Procedures σ}

theorem mono (h : Alike R calls procs procs') (hcalls : ∀ f ts t, calls' f ts t → calls f ts t) :
    Alike R calls' procs procs' :=
  fun f ts t hf => h f ts t (hcalls f ts t hf)

/-- One more function in both. -/
theorem define (h : Alike R calls procs procs') {f : String}
    {proc proc' : List (Reference σ) → Reference σ}
    (hcalls : ∀ g ts t, calls' g ts t → (g ≠ f ∧ calls g ts t) ∨
      (g = f ∧ ProcedureAlike R ts.length proc proc')) :
    Alike R calls' (procs.define f proc) (procs'.define f proc') := by
  intro g ts t hg
  unfold Procedures.define
  rcases hcalls g ts t hg with ⟨hne, hg⟩ | ⟨rfl, hproc⟩
  · rw [if_neg hne, if_neg hne]
    exact h g ts t hg
  · rw [if_pos rfl, if_pos rfl]
    exact .some hproc

end Procedures.Alike

/-! ## Expressions of one form -/

/-- Calls of the host do the same on machines in the relation `R`. -/
def Host.Respects (h : Host σ) (R : Machine σ → Machine σ → Prop) : Prop :=
  ∀ f vs t, EvalM.Alike R Eq (EvalM.call h f vs t) (EvalM.call h f vs t)

theorem Host.respects_eq (h : Host σ) : h.Respects Eq := fun _ _ _ => .refl _

namespace Expr

variable {h : Host σ} {env env' : Env σ} {procs procs' : Procedures σ}

theorem interpret_not {m m' : Mark} {e e' : TypedExpr}
    (he : Reference.Alike R (e.interpret h env procs) (e'.interpret h env' procs')) :
    Reference.Alike R ((Expr.not m e).interpret h env procs)
      ((Expr.not m' e').interpret h env' procs') := by
  refine .ofValue (he.read.bind fun v _ hv => ?_)
  subst hv
  exact (EvalM.Alike.truth e e' v).bind fun b _ hb => hb ▸ .pure rfl

theorem interpret_binary {m m' : Mark} {op : Operator} {l l' r r' : TypedExpr}
    (hl : Reference.Alike R (l.interpret h env procs) (l'.interpret h env' procs'))
    (hr : Reference.Alike R (r.interpret h env procs) (r'.interpret h env' procs')) :
    Reference.Alike R ((binary m op l r).interpret h env procs)
      ((binary m' op l' r').interpret h env' procs') := by
  refine .ofValue (hl.read.bind fun a _ ha => hr.read.bind fun b _ hb => ?_)
  subst ha hb
  cases op.onValues? a b with
  | some v => exact .pure rfl
  | none => exact .throw _ _

theorem interpret_cond {m m' : Mark} {c c' t t' e e' : TypedExpr}
    (hc : Reference.Alike R (c.interpret h env procs) (c'.interpret h env' procs'))
    (ht : Reference.Alike R (t.interpret h env procs) (t'.interpret h env' procs'))
    (he : Reference.Alike R (e.interpret h env procs) (e'.interpret h env' procs')) :
    Reference.Alike R ((Expr.cond m c t e).interpret h env procs)
      ((Expr.cond m' c' t' e').interpret h env' procs') := by
  refine .ofValue (hc.read.bind fun v _ hv => ?_)
  subst hv
  refine (EvalM.Alike.truth c c' v).bind fun b _ hb => ?_
  subst hb
  cases b with
  | true => exact ht.read
  | false => exact he.read

theorem interpret_assign {m m' : Mark} {x y : String} {e e' : TypedExpr}
    (he : Reference.Alike R (e.interpret h env procs) (e'.interpret h env' procs'))
    (hx : ∀ v, EvalM.Alike R Eq ((env x m.line).write v) ((env' y m'.line).write v)) :
    Reference.Alike R ((assign m x e).interpret h env procs)
      ((assign m' y e').interpret h env' procs') := by
  refine .ofValue (he.read.bind fun v _ hv => ?_)
  subst hv
  exact (hx v).bind fun _ _ _ => .pure rfl

theorem interpret_seq {m m' : Mark} {a a' b b' : TypedExpr}
    (ha : Reference.Alike R (a.interpret h env procs) (a'.interpret h env' procs'))
    (hb : Reference.Alike R (b.interpret h env procs) (b'.interpret h env' procs')) :
    Reference.Alike R ((seq m a b).interpret h env procs)
      ((seq m' a' b').interpret h env' procs') :=
  .ofValue (ha.read.bind fun _ _ _ => hb.read.bind fun _ _ _ => .pure rfl)

theorem interpret_call (hh : h.Respects R) {m : Mark} {f : String} {args args' : List TypedExpr}
    (hf : Option.Rel (ProcedureAlike R (args.map ty).length) (procs f) (procs' f))
    (hargs : List.Forall₂
      (fun a a' => Reference.Alike R (a.interpret h env procs) (a'.interpret h env' procs'))
      args args') :
    Reference.Alike R ((call m f args).interpret h env procs)
      ((call m f args').interpret h env' procs') := by
  have hrefs : List.Forall₂ (Reference.Alike R) (args.map (interpret h env procs))
      (args'.map (interpret h env' procs')) :=
    List.forall₂_map_left_iff.2 (List.forall₂_map_right_iff.2 hargs)
  rw [interpret, interpret, interpretArgs_eq_map, interpretArgs_eq_map]
  revert hf
  generalize procs f = proc, procs' f = proc'
  intro hf
  cases hf with
  | some hproc => exact hproc _ _ (by simp) hrefs
  | none =>
    refine .ofValue ((Reference.Alike.mapM_read hrefs).bind fun vs _ hvs => ?_)
    subst hvs
    exact hh f vs m.ty

/-! ## Substitution -/

/-- **Substitution keeps meaning**: an expression and the expression after a substitution are alike
if every name is like what the substitution puts for it. -/
theorem WellTyped.interpret_substitute {Γ : Context} {s : Substitution} (hh : h.Respects R)
    (hreads : ∀ x m, Γ.reads x m.ty → Reference.Alike R (env x m.line)
      (((s.find? x).getD (.var m x)).interpret h env' procs'))
    (hwrites : ∀ x t line y, Γ.writes x t → s.target x line = .ok y →
      ∀ v, EvalM.Alike R Eq ((env x line).write v) ((env' y line).write v))
    (hprocs : procs.Alike R Γ.calls procs') {e r : TypedExpr} (he : e.WellTyped Γ)
    (hr : e.substitute s = .ok r) :
    Reference.Alike R (e.interpret h env procs) (r.interpret h env' procs') := by
  induction he generalizing r with
  | lit _ =>
    obtain rfl : _ = r := by simpa only [Expr.substitute, Except.ok.injEq] using hr
    exact .ofValue (.pure rfl)
  | var hx =>
    obtain rfl : _ = r := by simpa only [Expr.substitute, Except.ok.injEq] using hr
    exact hreads _ _ hx
  | not _ _ _ ih =>
    simp only [Expr.substitute, bind_eq_ok, pure_eq_ok] at hr
    obtain ⟨e', he, rfl⟩ := hr
    exact interpret_not (ih he)
  | call hf _ ih =>
    simp only [Expr.substitute, Expr.substituteArgs_eq_mapM, bind_eq_ok, pure_eq_ok,
      mapM_eq_ok] at hr
    obtain ⟨args', hargs, rfl⟩ := hr
    exact interpret_call hh (hprocs _ _ _ hf) (forall₂_of_mem hargs ih)
  | binary _ _ _ _ ihl ihr =>
    simp only [Expr.substitute, bind_eq_ok, pure_eq_ok] at hr
    obtain ⟨l', hl, r', hr, rfl⟩ := hr
    exact interpret_binary (ihl hl) (ihr hr)
  | cond _ _ _ _ _ _ ihc iht ihe =>
    simp only [Expr.substitute, bind_eq_ok, pure_eq_ok] at hr
    obtain ⟨c', hc, t', ht, e', he, rfl⟩ := hr
    exact interpret_cond (ihc hc) (iht ht) (ihe he)
  | assign _ hx _ ih =>
    simp only [Expr.substitute, bind_eq_ok, pure_eq_ok] at hr
    obtain ⟨y, hy, e', he, rfl⟩ := hr
    exact interpret_assign (ih he) (hwrites _ _ _ _ hx hy)
  | seq _ _ _ _ _ iha ihb =>
    simp only [Expr.substitute, bind_eq_ok, pure_eq_ok] at hr
    obtain ⟨a', ha, b', hb, rfl⟩ := hr
    exact interpret_seq (iha ha) (ihb hb)

/-- An expression does the same in scopes, and with procedures, that are alike. -/
theorem WellTyped.interpret_congr {Γ : Context} (hh : h.Respects R)
    (hreads : ∀ x t line, Γ.reads x t → Reference.Alike R (env x line) (env' x line))
    (hwrites : ∀ x t line, Γ.writes x t → Reference.Alike R (env x line) (env' x line))
    (hprocs : procs.Alike R Γ.calls procs') {e : TypedExpr} (he : e.WellTyped Γ) :
    Reference.Alike R (e.interpret h env procs) (e.interpret h env' procs') := by
  induction he with
  | lit _ => exact .ofValue (.pure rfl)
  | var hx => exact hreads _ _ _ hx
  | not _ _ _ ih => exact interpret_not ih
  | call hf _ ih =>
    exact interpret_call hh (hprocs _ _ _ hf) (List.forall₂_same.2 ih)
  | binary _ _ _ _ ihl ihr => exact interpret_binary ihl ihr
  | cond _ _ _ _ _ _ ihc iht ihe => exact interpret_cond ihc iht ihe
  | assign _ hx _ ih => exact interpret_assign ih (hwrites _ _ _ hx).write
  | seq _ _ _ _ _ iha ihb => exact interpret_seq iha ihb

/-! ## Evaluation -/

/-- Without functions and in the scope of the variables, to interpret is to evaluate. -/
theorem read_interpret (h : Host σ) (e : TypedExpr) :
    (e.interpret h .global fun _ => none).read = e.eval h := by
  induction e using Expr.induct with
  | lit m v => rfl
  | var m x => rfl
  | not m e ih => rw [interpret, eval, ← ih]; rfl
  | call m f args ih =>
    rw [interpret, eval, evalArgs_eq_mapM, interpretArgs_eq_map]
    have hargs : (args.map (interpret h .global fun _ => none)).mapM Reference.read =
        args.mapM (eval h) := by
      induction args with
      | nil => rfl
      | cons a args ihargs =>
        rw [List.map_cons, List.mapM_cons, List.mapM_cons, ih a List.mem_cons_self,
          ihargs fun b hb => ih b (List.mem_cons_of_mem _ hb)]
    rw [← hargs]
    rfl
  | binary m op l r ihl ihr => rw [interpret, eval, ← ihl, ← ihr]; rfl
  | cond m c t e ihc iht ihe => rw [interpret, eval, ← ihc, ← iht, ← ihe]; rfl
  | assign m x e ih => rw [interpret, eval, ← ih]; rfl
  | seq m a b iha ihb => rw [interpret, eval, ← iha, ← ihb]; rfl

end Expr

end Rulebook
