import Rulebook.Proofs.Interpretation.Relation
import Rulebook.Proofs.Typing.Inlining

/-!
# Inlining keeps meaning

A body with arguments put for the parameters does what the procedure of the function does with
those arguments as references (`Inlinable.interpret_apply`). So an expression in which calls of a
function are inlined does what the expression does with the function's procedure
(`WellTyped.interpret_inline`), and likewise for calls that are cut off
(`WellTyped.interpret_cutCalls`). From these, expanding the recursion of a function keeps its
procedure (`Expandable.procedure_expand`).
-/

namespace Rulebook

variable {σ : Type} {R : Machine σ → Machine σ → Prop} {h : Host σ}

/-! ## Scopes -/

namespace Env

/-- Writing to a name does not depend on the line. -/
def Steady (env : Env σ) : Prop := ∀ x l l', (env x l).write = (env x l').write

theorem steady_global : (global : Env σ).Steady := fun _ _ _ => rfl

theorem Steady.enter {env : Env σ} (henv : env.Steady) (params : List Param)
    (args : List (Reference σ)) : (env.enter params args).Steady := by
  induction params generalizing env args with
  | nil => exact henv
  | cons q params ih =>
    cases args with
    | nil => exact henv
    | cons p args =>
      refine ih (fun x l l' => ?_) args
      unfold Env.bind
      split
      · rfl
      · exact henv x l l'

theorem enter_of_not_mem {params : List Param} {x : String} (hx : x ∉ params.map Param.name)
    (env : Env σ) (args : List (Reference σ)) (line : Line) :
    env.enter params args x line = env x line := by
  induction params generalizing env args with
  | nil => rfl
  | cons q params ih =>
    rw [List.map_cons, List.mem_cons, not_or] at hx
    cases args with
    | nil => rfl
    | cons p args =>
      rw [Env.enter, ih hx.2]
      exact if_neg hx.1

theorem enter_of_mem {params : List Param} (hnd : (params.map Param.name).Nodup)
    {args : List (Reference σ)} {x : String} {p : Reference σ}
    (h : (x, p) ∈ (params.map Param.name).zip args) (env : Env σ) (line : Line) :
    env.enter params args x line = p := by
  induction params generalizing env args with
  | nil => cases h
  | cons q params ih =>
    obtain _ | ⟨p', args⟩ := args
    · cases h
    obtain ⟨hq, hnd⟩ := List.nodup_cons.1 hnd
    rw [Env.enter]
    rcases List.mem_cons.1 h with h | h
    · cases h
      rw [enter_of_not_mem hq]
      exact if_pos rfl
    · exact ih hnd h _

/-- Scopes that are alike stay so when arguments that are alike are put for parameters. -/
theorem enter_alike {env env' : Env σ}
    (henv : ∀ x line, Reference.Alike R (env x line) (env' x line)) (params : List Param)
    {ps qs : List (Reference σ)}
    (hpq : List.Forall₂ (Reference.Alike R) ps qs) (x : String) (line : Line) :
    Reference.Alike R (env.enter params ps x line) (env'.enter params qs x line) := by
  induction params generalizing env env' ps qs with
  | nil => exact henv x line
  | cons q params ih =>
    cases hpq with
    | nil => exact henv x line
    | cons hp hpq =>
      refine ih (fun y line => ?_) hpq
      unfold Env.bind
      split
      · exact hp
      · exact henv y line

end Env

/-! ## Calls -/

section

variable {names : String → Ty → Prop} {calls : String → List Ty → Ty → Prop}
  {procs : Procedures σ} {env : Env σ}

/-- **The body with arguments for the parameters does what the procedure does.** -/
theorem FunDecl.Inlinable.interpret_apply {f : FunDecl Mark} {body : TypedExpr}
    (hf : f.Inlinable names calls body) (hprocs : procs.Alike Eq calls procs)
    (henv : ∀ x t line, names x t → env x line = Env.global x line) (hsteady : env.Steady)
    {args : List TypedExpr} (hlen : args.length = f.params.length) {r : TypedExpr}
    (hr : body.substitute (.ofArgs (f.params.map Param.name) args) = .ok r) :
    Reference.Alike Eq
      (body.interpret h (Env.enter .global f.params (args.map (Expr.interpret h env procs))) procs)
      (r.interpret h env procs) := by
  -- a parameter stands for the argument at its position
  have arg {x : String} {t : Ty} (hx : ⟨x, t⟩ ∈ f.params) : ∃ a,
      (Substitution.ofArgs (f.params.map Param.name) args).find? x = some a ∧
      ∀ line, Env.enter .global f.params (args.map (Expr.interpret h env procs)) x line =
        a.interpret h env procs := by
    obtain ⟨i, hi, hp⟩ := List.getElem_of_mem hx
    have hi' : i < args.length := by omega
    refine ⟨args[i], Substitution.find?_ofArgs_of_mem hf.nodup ?_, fun line =>
      Env.enter_of_mem hf.nodup ?_ _ _⟩
    all_goals
      rw [List.mem_iff_getElem]
      exact ⟨i, by simp; omega, by simp [hp]⟩
  refine hf.typed.interpret_substitute h.respects_eq ?_ ?_ hprocs hr
  · rintro x m (hx | hx)
    · have hx' := hf.fresh x _ hx
      rw [Env.enter_of_not_mem hx', Substitution.find?_ofArgs_of_not_mem args hx', ← henv x _ _ hx]
      exact .refl _
    · obtain ⟨a, hfind, henter⟩ := arg hx
      rw [hfind, henter]
      exact .refl _
  · rintro x t line y (hx | hx) hy v
    · have hx' := hf.fresh x _ hx
      rw [Substitution.target_of_none (Substitution.find?_ofArgs_of_not_mem args hx'),
        Except.ok.injEq] at hy
      subst hy
      rw [Env.enter_of_not_mem hx', ← henv x _ _ hx]
      exact .refl _
    · obtain ⟨a, hfind, henter⟩ := arg hx
      rcases Substitution.target_eq_ok.1 hy with ⟨hnone, -⟩ | ⟨m, hvar⟩
      · rw [hnone] at hfind
        cases hfind
      · obtain rfl : .var m y = a := by simpa [hvar] using hfind
        rw [henter, Expr.interpret, hsteady y m.line line]
        exact .refl _

/-- **Inlining keeps meaning.** -/
theorem Expr.WellTyped.interpret_inline {Γ : Context} {f : Callee}
    {proc : List (Reference σ) → Reference σ}
    (hprocs : ∀ g ts t, g ≠ f.name → Γ.calls g ts t →
      Option.Rel (ProcedureAlike Eq ts.length) (procs g) (procs g))
    (hproc : ∀ ts t, Γ.calls f.name ts t → ProcedureAlike Eq ts.length proc proc ∧
      ∀ args r, args.length = ts.length → f.apply args = .ok r →
        Reference.Alike Eq (proc (args.map (interpret h env procs))) (r.interpret h env procs))
    {e r : TypedExpr} (he : e.WellTyped Γ) (hr : e.inline f = .ok r) :
    Reference.Alike Eq (e.interpret h env (procs.define f.name proc))
      (r.interpret h env procs) := by
  induction he generalizing r with
  | lit _ =>
    obtain rfl : _ = r := by simpa only [Expr.inline, Except.ok.injEq] using hr
    exact .refl _
  | var _ =>
    obtain rfl : _ = r := by simpa only [Expr.inline, Except.ok.injEq] using hr
    exact .refl _
  | not _ _ _ ih =>
    simp only [Expr.inline, bind_eq_ok, pure_eq_ok] at hr
    obtain ⟨e', he, rfl⟩ := hr
    exact interpret_not (ih he)
  | @call m g args hg _ ih =>
    simp only [Expr.inline, Expr.inlineArgs_eq_mapM, bind_eq_ok, mapM_eq_ok] at hr
    obtain ⟨args', hargs, hr⟩ := hr
    have hrefs := forall₂_of_mem hargs ih
    split at hr
    · next hgf =>
      subst hgf
      obtain ⟨hself, happly⟩ := hproc _ _ hg
      have hcall : (Expr.call m f.name args).interpret h env (procs.define f.name proc) =
          proc (args.map (interpret h env (procs.define f.name proc))) := by
        rw [interpret, Procedures.define, if_pos rfl, interpretArgs_eq_map]
      rw [hcall]
      refine (hself _ _ (by simp) ?_).trans (happly args' r ?_ hr)
      · exact List.forall₂_map_left_iff.2 (List.forall₂_map_right_iff.2 hrefs)
      · rw [List.length_map, hargs.length_eq]
    · next hgf =>
      cases hr
      refine interpret_call h.respects_eq ?_ hrefs
      rw [Procedures.define, if_neg hgf]
      exact hprocs g _ _ hgf hg
  | binary _ _ _ _ ihl ihr =>
    simp only [Expr.inline, bind_eq_ok, pure_eq_ok] at hr
    obtain ⟨l', hl, r', hr, rfl⟩ := hr
    exact interpret_binary (ihl hl) (ihr hr)
  | cond _ _ _ _ _ _ ihc iht ihe =>
    simp only [Expr.inline, bind_eq_ok, pure_eq_ok] at hr
    obtain ⟨c', hc, t', ht, e', he, rfl⟩ := hr
    exact interpret_cond (ihc hc) (iht ht) (ihe he)
  | assign _ _ _ ih =>
    simp only [Expr.inline, bind_eq_ok, pure_eq_ok] at hr
    obtain ⟨e', he, rfl⟩ := hr
    exact interpret_assign (ih he) fun _ => .refl _
  | seq _ _ _ _ _ iha ihb =>
    simp only [Expr.inline, bind_eq_ok, pure_eq_ok] at hr
    obtain ⟨a', ha, b', hb, rfl⟩ := hr
    exact interpret_seq (iha ha) (ihb hb)

/-- Cutting off the calls of a function keeps meaning if its procedure does what is put for the
calls. -/
theorem Expr.WellTyped.interpret_cutCalls {Γ : Context} {f : String} {d : TypedExpr}
    {proc : List (Reference σ) → Reference σ}
    (hprocs : ∀ g ts t, g ≠ f → Γ.calls g ts t →
      Option.Rel (ProcedureAlike Eq ts.length) (procs g) (procs g))
    (hproc : ∀ ps, Reference.Alike Eq (proc ps) (d.interpret h env procs)) {e : TypedExpr}
    (he : e.WellTyped Γ) :
    Reference.Alike Eq (e.interpret h env (procs.define f proc))
      ((Expr.cutCalls f d e).interpret h env procs) := by
  induction he with
  | lit _ => exact .refl _
  | var _ => exact .refl _
  | not _ _ _ ih => exact interpret_not ih
  | @call m g args hg _ ih =>
    rw [Expr.cutCalls, cutCallsArgs_eq_map]
    split
    · next hgf =>
      rw [interpret, Procedures.define, if_pos hgf]
      exact hproc _
    · next hgf =>
      refine interpret_call h.respects_eq ?_
        (List.forall₂_map_right_iff.2 (List.forall₂_same.2 ih))
      rw [Procedures.define, if_neg hgf]
      exact hprocs g _ _ hgf hg
  | binary _ _ _ _ ihl ihr => exact interpret_binary ihl ihr
  | cond _ _ _ _ _ _ ihc iht ihe => exact interpret_cond ihc iht ihe
  | assign _ _ _ ih => exact interpret_assign ih fun _ => .refl _
  | seq _ _ _ _ _ iha ihb => exact interpret_seq iha ihb

/-- The procedure of a function without recursion. -/
theorem FunDecl.procedure_of_none {f : FunDecl Mark} (hrec : f.recursion = none)
    (procs : Procedures σ) (body : TypedExpr) (args : List (Reference σ)) :
    f.procedure h procs body args = body.interpret h (Env.enter .global f.params args) procs := by
  rw [procedure, hrec]

/-- A function without recursion does the same with arguments and procedures that are alike. -/
theorem FunDecl.Inlinable.procedure_alike {f : FunDecl Mark} {body : TypedExpr}
    {procs' : Procedures σ} (hf : f.Inlinable names calls body) (hrec : f.recursion = none)
    (hprocs : procs.Alike Eq calls procs') (n : ℕ) :
    ProcedureAlike Eq n (f.procedure h procs body) (f.procedure h procs' body) := by
  intro ps qs _ hpq
  have henter := Env.enter_alike (fun x line => .refl (Env.global x line)) f.params hpq
  rw [procedure_of_none hrec, procedure_of_none hrec]
  exact hf.typed.interpret_congr h.respects_eq (fun x _ line _ => henter x line)
    (fun x _ line _ => henter x line) hprocs

/-! ## Bounded recursion -/

theorem Procedures.define_define (procs : Procedures σ) (f : String)
    (proc proc' : List (Reference σ) → Reference σ) :
    (procs.define f proc).define f proc' = procs.define f proc' := by
  funext g
  unfold define
  split <;> rfl

/-- The scope in which parameters stand for arguments is that of the variables elsewhere. -/
theorem FunDecl.OwnParams.enter_eq {f : FunDecl Mark} (hf : f.OwnParams names)
    (args : List (Reference σ)) (x : String) (t : Ty) (line : Line) (hx : names x t) :
    Env.enter .global f.params args x line = Env.global x line :=
  Env.enter_of_not_mem (hf.fresh x t hx) _ _ _

namespace FunDecl.Expandable

variable {f : FunDecl Mark} {body : TypedExpr}

/-- The function at a level, among the functions that it may call. -/
theorem levels_alike (hf : f.Expandable names calls body) (hprocs : procs.Alike Eq calls procs)
    (fallback : TypedExpr) (n : ℕ) :
    (procs.define f.name (f.levels h procs body fallback n)).Alike Eq (f.withSelf calls)
      (procs.define f.name (f.levels h procs body fallback n)) := by
  -- the level itself does the same with arguments that are alike
  suffices key : ∀ k, ProcedureAlike Eq k (f.levels h procs body fallback n)
      (f.levels h procs body fallback n) by
    refine hprocs.define ?_
    rintro g ts t (hg | ⟨-, rfl, -⟩)
    · exact .inl ⟨fun hgf => hf.distinct ts t (hgf ▸ hg), hg⟩
    · exact .inr ⟨rfl, key _⟩
  induction n with
  | zero => exact fun _ _ _ _ _ => .refl _
  | succ n ih =>
    intro k ps qs _ hpq
    have henter := Env.enter_alike (fun x line => .refl (Env.global x line)) f.params hpq
    refine hf.typed.interpret_congr h.respects_eq (fun x _ line _ => henter x line)
      (fun x _ line _ => henter x line) (hprocs.define ?_)
    rintro g ts t (hg | ⟨-, rfl, -⟩)
    · exact .inl ⟨fun hgf => hf.distinct ts t (hgf ▸ hg), hg⟩
    · exact .inr ⟨rfl, ih _⟩

/-- Expanding calls once takes one level off. -/
theorem interpret_inlineTimes (hf : f.Expandable names calls body)
    (hprocs : procs.Alike Eq calls procs) (fallback : TypedExpr) (line : Line)
    (args : List (Reference σ)) (n k : ℕ) {e r : TypedExpr}
    (he : e.WellTyped (.of (withParams names f.params) (f.withSelf calls)))
    (hr : e.inlineTimes ⟨f.name, f.params.map Param.name, body, line⟩ n = .ok r) :
    Reference.Alike Eq
      (e.interpret h (Env.enter .global f.params args)
        (procs.define f.name (f.levels h procs body fallback (k + n))))
      (r.interpret h (Env.enter .global f.params args)
        (procs.define f.name (f.levels h procs body fallback k))) := by
  induction n generalizing e with
  | zero =>
    cases hr
    exact .refl _
  | succ n ih =>
    rw [Expr.inlineTimes] at hr
    obtain ⟨e', he', hr⟩ := bind_eq_ok.1 hr
    refine .trans ?_ (ih (hf.inline line he he').1 hr)
    have hself := hf.levels_alike (h := h) hprocs fallback (k + n)
    have hself' := hf.levels_alike (h := h) hprocs fallback (k + n + 1)
    rw [← Procedures.define_define procs f.name (f.levels h procs body fallback (k + n))]
    refine he.interpret_inline (fun g ts t _ hg => hself g ts t hg) (fun ts t hcall => ⟨?_, ?_⟩) he'
    · have := hself' f.name ts t hcall
      rw [Procedures.define, if_pos rfl] at this
      cases this with
      | some h => exact h
    · intro args' r' hlen hr'
      refine hf.toInlinable.interpret_apply hself (hf.enter_eq args)
        (Env.steady_global.enter _ _) ?_ hr'
      rw [hlen, (hf.signature hcall).1, List.length_map]

/-- **Expanding the recursion of a function keeps its procedure.** -/
theorem procedure_expand (hf : f.Expandable names calls body)
    (hprocs : procs.Alike Eq calls procs) (hbody : f.body = some body) {g : FunDecl Mark}
    (hg : f.expandRecursion = .ok g) :
    g.recursion = none ∧ ∃ body', g.body = some body' ∧ ∀ args,
      Reference.Alike Eq (f.procedure h procs body args) (g.procedure h procs body' args) := by
  unfold expandRecursion at hg
  rw [callee?_eq hbody] at hg
  split at hg
  · next hrec =>
    cases hg
    exact ⟨hrec, body, hbody, fun _ => .refl _⟩
  · next hnone => cases hnone
  · next bound callee hbound hcallee =>
    cases hcallee
    simp only [Callee.expand, bind_eq_ok, pure_eq_ok] at hg
    obtain ⟨_, ⟨e, he, rfl⟩, rfl⟩ := hg
    refine ⟨rfl, _, rfl, fun args => ?_⟩
    have htimes := hf.interpret_inlineTimes (h := h) hprocs bound.fallback f.line args
      bound.depth.toNat 0 hf.typed he
    rw [Nat.zero_add] at htimes
    have hproc : f.procedure h procs body args =
        body.interpret h (Env.enter .global f.params args)
          (procs.define f.name (f.levels h procs body bound.fallback bound.depth.toNat)) := by
      rw [procedure, hbound]
      rfl
    rw [hproc]
    refine htimes.trans ?_
    refine (hf.inlineTimes f.line _ hf.typed he).1.interpret_cutCalls ?_ fun _ => ?_
    · rintro g ts t hne (hg | ⟨-, hg, -⟩)
      · exact hprocs g ts t hg
      · exact absurd hg hne
    · -- the value beyond the bound has no parameters in it
      refine (hf.fallback bound hbound).1.interpret_congr h.respects_eq ?_ ?_ hprocs
      all_goals
        intro x t line hx
        rw [hf.enter_eq args x t line hx]
        exact .refl _

end FunDecl.Expandable

end

end Rulebook
