import Rulebook.Proofs.Typing.Lowering

/-!
# Calls that fit

In a program that passes functions on, a body may call its parameters. Such a call keeps the name of
the parameter and stays in the program, so of the calls in an expression no more can be asked than
that they fit (`Fits`): where a function with a body is called, it is called at its type. This is
enough for inlining to keep types:

* `FunDecl.Spliceable.expand`: it lets the recursion of a function be expanded;
* `Fitting.inlineAll`: it lets all functions be inlined, from the back to the front.
-/

namespace Rulebook

/-- A call fits the functions of `fs`: one that has a body is called at its type. -/
def Fits (fs : List (FunDecl Mark)) (f : String) (ts : List Ty) (t : Ty) : Prop :=
  ∀ g ∈ fs, g.body ≠ none → g.name = f → g.ty = .fn ts t

/-- The functions that the body of `f` may call if `fs` stand before it: itself too, if its
recursion is bounded. -/
def FunDecl.inSight {μ : Type} (f : FunDecl μ) (fs : List (FunDecl μ)) : List (FunDecl μ) :=
  if f.recursion.isSome then fs ++ [f] else fs

namespace Fits

variable {fs gs : List (FunDecl Mark)} {f : String} {ts : List Ty} {t : Ty}

theorem concat {g : FunDecl Mark} : Fits (fs ++ [g]) f ts t ↔
    Fits fs f ts t ∧ (g.body ≠ none → g.name = f → g.ty = .fn ts t) := by
  simp [Fits, or_imp, forall_and]

/-- A function is called at its type if its name is declared once. -/
theorem of_declares (hnd : (fs.map FunDecl.name).Nodup) (h : Declares fs f ts t) :
    Fits fs f ts t := by
  obtain ⟨k, hk, hname, hty⟩ := h
  intro g hg _ hg'
  rwa [List.inj_on_of_nodup_map hnd hg hk (hg'.trans hname.symm)]

/-- Lowering a function changes nothing for its calls. -/
theorem of_keeps (h : Fits fs f ts t) (hkeeps : List.Forall₂ FunDecl.Keeps fs gs) :
    Fits gs f ts t := by
  intro g hg hbody hname
  obtain ⟨k, hk, hkg⟩ := exists_mem_left hkeeps hg
  rw [hkg.ty_eq]
  exact h k hk (hkg.body_ne_none hbody) (hkg.name_eq.symm.trans hname)

theorem of_keeps_inSight {k g : FunDecl Mark} (h : Fits (k.inSight fs) f ts t)
    (hkeeps : List.Forall₂ FunDecl.Keeps fs gs) (hkg : k.Keeps g)
    (hrec : g.recursion.isSome = k.recursion.isSome) : Fits (g.inSight gs) f ts t := by
  unfold FunDecl.inSight at h ⊢
  rw [hrec]
  split at h
  · next hsome =>
    rw [if_pos hsome]
    exact h.of_keeps (List.rel_append hkeeps (.cons hkg .nil))
  · next hsome =>
    rw [if_neg hsome]
    exact h.of_keeps hkeeps

/-- The calls of a function with a body have its signature. -/
theorem signature {g : FunDecl Mark} (h : Fits fs g.name ts t) (hg : g ∈ fs)
    (hbody : g.body ≠ none) : ts = g.params.map Param.ty ∧ t = g.ret := by
  have := h g hg hbody rfl
  rw [FunDecl.ty, Ty.fn.injEq] at this
  exact ⟨this.1.symm, this.2.symm⟩

end Fits

/-! ## Functions -/

/-- The context in which the names of `names` may be read and the functions of `calls` called. Any
name may be assigned: what an assignment writes to makes no difference to the kinds of values. -/
def Context.reading (names : String → Ty → Prop) (calls : String → List Ty → Ty → Prop) : Context :=
  ⟨names, fun _ _ => True, calls⟩

variable {names names' : String → Ty → Prop} {calls calls' : String → List Ty → Ty → Prop}
  {fs gs : List (FunDecl Mark)}

theorem Expr.WellTyped.mono_calls {e : TypedExpr} (h : e.WellTyped (.reading names calls))
    (hcalls : ∀ f ts t, calls f ts t → calls' f ts t) : e.WellTyped (.reading names calls') :=
  h.mono (fun _ _ h => h) (fun _ _ h => h) hcalls

/-- The body of the function can be put for its calls: it reads the names of `names` and the
parameters, and calls the functions of `calls`. -/
structure FunDecl.Spliceable (f : FunDecl Mark) (names : String → Ty → Prop)
    (calls : String → List Ty → Ty → Prop) (body : TypedExpr) : Prop extends f.OwnParams names where
  typed : body.WellTyped (.reading (withParams names f.params) calls)
  ty_eq : body.ty = f.ret

namespace FunDecl.Spliceable

variable {f g : FunDecl Mark} {body : TypedExpr}

theorem mono (hf : f.Spliceable names calls body)
    (hcalls : ∀ f ts t, calls f ts t → calls' f ts t) : f.Spliceable names calls' body :=
  ⟨hf.toOwnParams, hf.typed.mono_calls hcalls, hf.ty_eq⟩

/-- The body, with well-typed arguments for the parameters, is well typed. -/
theorem apply (hf : f.Spliceable names calls body) (hnames : ∀ x t, names x t → names' x t)
    {args : List TypedExpr} {r : TypedExpr}
    (hargs : ∀ a ∈ args, a.WellTyped (.reading names' calls))
    (htys : args.map Expr.ty = f.params.map Param.ty)
    (hr : body.substitute (.ofArgs (f.params.map Param.name) args) = .ok r) :
    r.WellTyped (.reading names' calls) ∧ r.ty = f.ret := by
  have hmaps : (Substitution.ofArgs (f.params.map Param.name) args).Maps
      (.reading (withParams names f.params) calls) (.reading names' calls) := by
    refine ⟨?_, fun _ _ _ _ _ _ => trivial, fun _ _ _ h => h⟩
    rintro x m (hx | hx)
    · rw [Substitution.find?_ofArgs_of_not_mem args (hf.fresh x _ hx)]
      exact ⟨.var (hnames x _ hx), rfl⟩
    · obtain ⟨a, ha, hat, hfind⟩ := Substitution.exists_find?_ofArgs hf.nodup htys hx
      rw [hfind]
      exact ⟨hargs a ha, hat⟩
  obtain ⟨hw, ht⟩ := hf.typed.substitute hmaps hr
  exact ⟨hw, ht.trans hf.ty_eq⟩

/-- Putting the body of a function for its own calls keeps types. -/
theorem inlineTimes (hf : f.Spliceable names (Fits (fs ++ [f])) body) (hbody : f.body = some body)
    (n : ℕ) {e r : TypedExpr}
    (h : e.WellTyped (.reading (withParams names f.params) (Fits (fs ++ [f]))))
    (hr : e.inlineTimes ⟨f.name, f.params.map Param.name, body, f.line⟩ n = .ok r) :
    r.WellTyped (.reading (withParams names f.params) (Fits (fs ++ [f]))) ∧ r.ty = e.ty := by
  induction n generalizing e with
  | zero =>
    cases hr
    exact ⟨h, rfl⟩
  | succ n ih =>
    obtain ⟨e', he, hr⟩ := bind_eq_ok.1 hr
    have hround : e'.WellTyped (.reading (withParams names f.params) (Fits (fs ++ [f]))) ∧
        e'.ty = e.ty := by
      refine h.inline (fun _ _ h => h) (fun _ _ h => h) (fun _ _ _ _ h => h) ?_ he
      intro t args r' hcall hargs hr'
      obtain ⟨hts, rfl⟩ := hcall.signature (by simp) (by simp [hbody])
      exact hf.apply (fun _ _ => .inl) hargs hts hr'
    obtain ⟨hw, ht⟩ := ih hround.1 hr
    exact ⟨hw, ht.trans hround.2⟩

/-- **Expanding the recursion of a function leaves calls that fit the functions before it.** -/
theorem expand (hf : f.Spliceable names (Fits (f.inSight fs)) body) (hbody : f.body = some body)
    (hfallback : ∀ bound, f.recursion = some bound →
      bound.fallback.WellTyped (.reading names (Fits fs)) ∧ bound.fallback.ty = f.ret)
    (hg : f.expandRecursion = .ok g) :
    ∃ body', g.body = some body' ∧ g.Spliceable names (Fits fs) body' := by
  unfold FunDecl.expandRecursion at hg
  rw [Expandable.callee?_eq hbody] at hg
  cases hrec : f.recursion with
  | none =>
    rw [hrec] at hg
    cases hg
    rw [FunDecl.inSight, hrec] at hf
    exact ⟨body, hbody, hf⟩
  | some bound =>
    rw [FunDecl.inSight, hrec] at hf
    simp only [hrec, Callee.expand, bind_eq_ok, pure_eq_ok] at hg
    obtain ⟨_, ⟨e, he, rfl⟩, rfl⟩ := hg
    obtain ⟨hw, ht⟩ := hf.inlineTimes hbody _ hf.typed he
    obtain ⟨hfb, hft⟩ := hfallback bound hrec
    have hcut : (Expr.cutCalls f.name bound.fallback e).WellTyped
          (.reading (withParams names f.params) (Fits fs)) ∧
        (Expr.cutCalls f.name bound.fallback e).ty = e.ty := by
      refine hw.cutCalls (fun _ _ h => h) (fun _ _ h => h) ?_ ?_ ?_
      · exact fun _ _ _ _ h => (Fits.concat.1 h).1
      · exact hfb.mono (fun _ _ => .inl) (fun _ _ h => h) (fun _ _ _ h => h)
      · intro ts t h
        rw [hft, (h.signature (by simp) (by simp [hbody])).2]
    exact ⟨_, rfl, ⟨hf.nodup, hf.fresh⟩, hcut.1, hcut.2.trans (ht.trans hf.ty_eq)⟩

end FunDecl.Spliceable

/-! ## Whole programs -/

/-- Functions that can be inlined from the back to the front: the calls in each fit the functions
before it. -/
def Fitting (fs : List (FunDecl Mark)) (names : String → Ty → Prop) : Prop :=
  ∀ (i : ℕ) (f : FunDecl Mark) (body : TypedExpr), fs[i]? = some f → f.body = some body →
    f.Spliceable names (Fits (fs.take i)) body

namespace Fitting

theorem left (h : Fitting (fs ++ gs) names) : Fitting fs names := by
  intro i f body hf hbody
  have hi : i < fs.length := (List.getElem?_eq_some_iff.1 hf).1
  have := h i f body (by rw [List.getElem?_append_left hi, hf]) hbody
  rwa [List.take_append_of_le_length (Nat.le_of_lt hi)] at this

theorem last {f : FunDecl Mark} {body : TypedExpr} (h : Fitting (fs ++ f :: gs) names)
    (hbody : f.body = some body) : f.Spliceable names (Fits fs) body := by
  have := h fs.length f body (by simp) hbody
  rwa [List.take_left] at this

/-- Inlining the last function leaves calls that fit the others. -/
theorem inline_last {f : FunDecl Mark} {body e r : TypedExpr} (h : Fitting (fs ++ [f]) names)
    (hbody : f.body = some body) (he : e.WellTyped (.reading names (Fits (fs ++ [f]))))
    (hr : e.inline ⟨f.name, f.params.map Param.name, body, f.line⟩ = .ok r) :
    r.WellTyped (.reading names (Fits fs)) ∧ r.ty = e.ty := by
  refine he.inline (fun _ _ h => h) (fun _ _ h => h) (fun _ _ _ _ hg => (Fits.concat.1 hg).1) ?_ hr
  intro t args r' hf hargs hr'
  obtain ⟨hts, rfl⟩ := hf.signature (by simp) (by simp [hbody])
  exact (h.last hbody).apply (fun _ _ h => h) hargs hts hr'

/-- **Inlining all functions keeps types.** -/
theorem inlineEach (h : Fitting fs names) {e r : TypedExpr}
    (he : e.WellTyped (.reading names (Fits fs)))
    (hr : Rulebook.inlineEach (fs.filterMap FunDecl.callee?).reverse e = .ok r) :
    r.WellTyped (.reading names (Fits [])) := by
  induction fs using List.reverseRecOn generalizing e with
  | nil =>
    cases hr
    exact he
  | append_singleton fs f ih =>
    cases hbody : f.body with
    | none =>
      rw [Telescope.inlineEach_concat_of_none hbody] at hr
      exact ih h.left (he.mono_calls fun _ _ _ hg => (Fits.concat.1 hg).1) hr
    | some body =>
      rw [Telescope.inlineEach_concat_of_some hbody, bind_eq_ok] at hr
      obtain ⟨e', he', hr⟩ := hr
      exact ih h.left (h.inline_last hbody he he').1 hr

theorem inlineAll (h : Fitting fs names) {r : TypedExpr} (hr : Rulebook.inlineAll fs = .ok r) :
    r.WellTyped (.reading names (Fits [])) := by
  obtain ⟨before, f, after, body, rfl, hbody, hparams, -, hr⟩ := inlineAll_eq_ok hr
  refine h.left.inlineEach ((h.last hbody).typed.mono ?_ (fun _ _ h => h) fun _ _ _ h => h) hr
  rintro x t (hx | hx)
  · exact hx
  · rw [hparams] at hx
    cases hx

end Fitting

end Rulebook
