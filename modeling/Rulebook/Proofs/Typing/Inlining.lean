import Mathlib.Data.List.Induction
import Rulebook.Inlining
import Rulebook.Proofs.Typing.Substitution

/-!
# Inlining keeps types

Inlining a function takes a well-typed expression to one that is well typed without that function
(`WellTyped.inline`), provided its body, with well-typed arguments for the parameters, is well
typed where it is put. The same holds of replacing the calls beyond a recursion bound
(`WellTyped.cutCalls`). From these:

* `Expandable.expand`: a function whose recursion is expanded calls only the functions before it;
* `Telescope.inlineEach`: after all functions are inlined, from the back to the front, only
  provided functions are called.
-/

namespace Rulebook

/-- One of the functions has the given name, parameter types and return type. -/
def Declares {μ : Type} (fs : List (FunDecl μ)) (f : String) (ts : List Ty) (t : Ty) : Prop :=
  ∃ g ∈ fs, g.name = f ∧ g.ty = .fn ts t

theorem declares_concat {μ : Type} {fs : List (FunDecl μ)} {f : FunDecl μ} {x : String}
    {ts : List Ty} {t : Ty} :
    Declares (fs ++ [f]) x ts t ↔ Declares fs x ts t ∨ (f.name = x ∧ f.ty = .fn ts t) := by
  constructor
  · rintro ⟨g, hg, hname, hty⟩
    rcases List.mem_append.1 hg with hg | hg
    · exact .inl ⟨g, hg, hname, hty⟩
    · obtain rfl := List.mem_singleton.1 hg
      exact .inr ⟨hname, hty⟩
  · rintro (⟨g, hg, hname, hty⟩ | ⟨hname, hty⟩)
    · exact ⟨g, List.mem_append_left _ hg, hname, hty⟩
    · exact ⟨f, List.mem_append_right _ (List.mem_singleton.2 rfl), hname, hty⟩

/-- No function before `f` has its name. -/
theorem not_declares {fs gs : List (FunDecl Mark)} {f : FunDecl Mark}
    (hnd : ((fs ++ f :: gs).map FunDecl.name).Nodup) (ts : List Ty) (t : Ty) :
    ¬ Declares fs f.name ts t := by
  rintro ⟨g, hg, hname, -⟩
  rw [List.map_append, List.map_cons] at hnd
  exact (List.nodup_append.1 hnd).2.2 g.name (List.mem_map_of_mem hg) f.name
    List.mem_cons_self hname

/-- No function before the `i`-th has its name. -/
theorem not_declares_take {fs : List (FunDecl Mark)} {f : FunDecl Mark} {i : ℕ}
    (hnd : (fs.map FunDecl.name).Nodup) (hf : fs[i]? = some f) (ts : List Ty) (t : Ty) :
    ¬ Declares (fs.take i) f.name ts t := by
  obtain ⟨hi, rfl⟩ := List.getElem?_eq_some_iff.1 hf
  rw [← List.take_append_drop i fs, List.drop_eq_getElem_cons hi] at hnd
  exact not_declares hnd ts t

namespace Expr.WellTyped

variable {Γ Δ : Context} {e r : TypedExpr}

/-- **Inlining keeps types**: calls of `f` go, all else stays. -/
theorem inline {f : Callee} (h : e.WellTyped Γ) (hreads : ∀ x t, Γ.reads x t → Δ.reads x t)
    (hwrites : ∀ x t, Γ.writes x t → Δ.writes x t)
    (hcalls : ∀ g ts t, g ≠ f.name → Γ.calls g ts t → Δ.calls g ts t)
    (happly : ∀ t args r, Γ.calls f.name (args.map ty) t → (∀ a ∈ args, a.WellTyped Δ) →
      f.apply args = .ok r → r.WellTyped Δ ∧ r.ty = t)
    (hr : e.inline f = .ok r) : r.WellTyped Δ ∧ r.ty = e.ty := by
  induction h generalizing r with
  | lit h =>
    obtain rfl : _ = r := by simpa only [Expr.inline, Except.ok.injEq] using hr
    exact ⟨.lit h, rfl⟩
  | var h =>
    obtain rfl : _ = r := by simpa only [Expr.inline, Except.ok.injEq] using hr
    exact ⟨.var (hreads _ _ h), rfl⟩
  | not h₁ h₂ _ ih =>
    simp only [Expr.inline, bind_eq_ok, pure_eq_ok] at hr
    obtain ⟨e', he, rfl⟩ := hr
    obtain ⟨hw, ht⟩ := ih he
    exact ⟨.not h₁ (ht.trans h₂) hw, rfl⟩
  | call hf _ ih =>
    simp only [Expr.inline, Expr.inlineArgs_eq_mapM, bind_eq_ok, mapM_eq_ok] at hr
    obtain ⟨args', hargs, hr⟩ := hr
    obtain ⟨hw, ht⟩ := args hargs fun a ha a' ha' => ih a ha ha'
    rw [← ht] at hf
    split at hr
    · next hg => exact happly _ args' r (hg ▸ hf) hw hr
    · next hg =>
      cases hr
      exact ⟨.call (hcalls _ _ _ hg hf) hw, rfl⟩
  | binary h₁ h₂ _ _ ihl ihr =>
    simp only [Expr.inline, bind_eq_ok, pure_eq_ok] at hr
    obtain ⟨l', hl, r', hr, rfl⟩ := hr
    obtain ⟨hlw, hlt⟩ := ihl hl
    obtain ⟨hrw, hrt⟩ := ihr hr
    exact ⟨.binary h₁ (hlt ▸ hrt ▸ h₂) hlw hrw, rfl⟩
  | cond h₁ h₂ h₃ _ _ _ ihc iht ihe =>
    simp only [Expr.inline, bind_eq_ok, pure_eq_ok] at hr
    obtain ⟨c', hc, t', ht, e', he, rfl⟩ := hr
    obtain ⟨hcw, hct⟩ := ihc hc
    obtain ⟨htw, htt⟩ := iht ht
    obtain ⟨hew, het⟩ := ihe he
    exact ⟨.cond (hct.trans h₁) (htt.trans h₂) (het.trans h₃) hcw htw hew, rfl⟩
  | assign h₁ h₂ _ ih =>
    simp only [Expr.inline, bind_eq_ok, pure_eq_ok] at hr
    obtain ⟨e', he, rfl⟩ := hr
    obtain ⟨hw, ht⟩ := ih he
    exact ⟨.assign h₁ (ht ▸ hwrites _ _ h₂) hw, rfl⟩
  | seq h₁ h₂ h₃ _ _ iha ihb =>
    simp only [Expr.inline, bind_eq_ok, pure_eq_ok] at hr
    obtain ⟨a', ha, b', hb, rfl⟩ := hr
    obtain ⟨haw, hat⟩ := iha ha
    obtain ⟨hbw, hbt⟩ := ihb hb
    exact ⟨.seq h₁ (hat.trans h₂) (hbt.trans h₃) haw hbw, rfl⟩

/-- Replacing the calls of `f` by an expression of its return type keeps types. -/
theorem cutCalls {f : String} {d : TypedExpr} (h : e.WellTyped Γ)
    (hreads : ∀ x t, Γ.reads x t → Δ.reads x t) (hwrites : ∀ x t, Γ.writes x t → Δ.writes x t)
    (hcalls : ∀ g ts t, g ≠ f → Γ.calls g ts t → Δ.calls g ts t)
    (hd : d.WellTyped Δ) (hty : ∀ ts t, Γ.calls f ts t → d.ty = t) :
    (Expr.cutCalls f d e).WellTyped Δ ∧ (Expr.cutCalls f d e).ty = e.ty := by
  induction h with
  | lit h => exact ⟨.lit h, rfl⟩
  | var h => exact ⟨.var (hreads _ _ h), rfl⟩
  | not h₁ h₂ _ ih => exact ⟨.not h₁ (ih.2.trans h₂) ih.1, rfl⟩
  | @call m g args hf _ ih =>
    rw [Expr.cutCalls, cutCallsArgs_eq_map]
    split
    · next hg => exact ⟨hd, hty _ _ (hg ▸ hf)⟩
    · next hg =>
      have hargs : List.Forall₂ (fun a a' => Expr.cutCalls f d a = a') args
          (args.map (Expr.cutCalls f d)) :=
        List.forall₂_map_right_iff.2 (List.forall₂_same.2 fun _ _ => rfl)
      obtain ⟨hw, ht⟩ := WellTyped.args hargs fun a ha a' ha' => ha' ▸ ih a ha
      exact ⟨.call (ht ▸ hcalls _ _ _ hg hf) hw, rfl⟩
  | binary h₁ h₂ _ _ ihl ihr =>
    exact ⟨.binary h₁ (by rw [ihl.2, ihr.2]; exact h₂) ihl.1 ihr.1, rfl⟩
  | cond h₁ h₂ h₃ _ _ _ ihc iht ihe =>
    exact ⟨.cond (ihc.2.trans h₁) (iht.2.trans h₂) (ihe.2.trans h₃) ihc.1 iht.1 ihe.1, rfl⟩
  | assign h₁ h₂ _ ih => exact ⟨.assign h₁ (by rw [ih.2]; exact hwrites _ _ h₂) ih.1, rfl⟩
  | seq h₁ h₂ h₃ _ _ iha ihb =>
    exact ⟨.seq h₁ (iha.2.trans h₂) (ihb.2.trans h₃) iha.1 ihb.1, rfl⟩

end Expr.WellTyped

/-! ## Functions -/

section

variable {names names' : String → Ty → Prop} {calls calls' : String → List Ty → Ty → Prop}

/-- The parameters of a function are its own: no two share a name, and none is a name that is
used outside. -/
structure FunDecl.OwnParams (f : FunDecl Mark) (names : String → Ty → Prop) : Prop where
  nodup : (f.params.map Param.name).Nodup
  fresh : ∀ x t, names x t → x ∉ f.params.map Param.name

/-- The function can be inlined: it has the body `body`, which uses the names of `names`, the
parameters, and the functions of `calls`. -/
structure FunDecl.Inlinable (f : FunDecl Mark) (names : String → Ty → Prop)
    (calls : String → List Ty → Ty → Prop) (body : TypedExpr) : Prop extends f.OwnParams names where
  typed : body.WellTyped (.of (withParams names f.params) calls)
  ty_eq : body.ty = f.ret

/-- The functions of `calls`, and the function itself if its recursion is bounded. -/
def FunDecl.withSelf (f : FunDecl Mark) (calls : String → List Ty → Ty → Prop) :
    String → List Ty → Ty → Prop :=
  fun g ts t => calls g ts t ∨ (f.recursion.isSome ∧ g = f.name ∧ f.ty = .fn ts t)

/-- The recursion of the function can be expanded: its body calls itself and the functions of
`calls`, the value beyond the bound only the latter. -/
structure FunDecl.Expandable (f : FunDecl Mark) (names : String → Ty → Prop)
    (calls : String → List Ty → Ty → Prop) (body : TypedExpr) : Prop
    extends f.Inlinable names (f.withSelf calls) body where
  fallback : ∀ bound, f.recursion = some bound →
    bound.fallback.WellTyped (.of names calls) ∧ bound.fallback.ty = f.ret
  distinct : ∀ ts t, ¬ calls f.name ts t

/-- The body of a function, with well-typed arguments for the parameters, is well typed. -/
theorem FunDecl.Inlinable.apply {f : FunDecl Mark} {body : TypedExpr}
    (hf : f.Inlinable names calls body) (hnames : ∀ x t, names x t → names' x t)
    (hcalls : ∀ f ts t, calls f ts t → calls' f ts t) {args : List TypedExpr} {r : TypedExpr}
    (hargs : ∀ a ∈ args, a.WellTyped (.of names' calls'))
    (htys : args.map Expr.ty = f.params.map Param.ty)
    (hr : body.substitute (.ofArgs (f.params.map Param.name) args) = .ok r) :
    r.WellTyped (.of names' calls') ∧ r.ty = f.ret := by
  have hmaps := Substitution.maps_ofArgs hf.nodup hf.fresh hargs htys hnames hcalls
  obtain ⟨hw, ht⟩ := hf.typed.substitute hmaps hr
  exact ⟨hw, ht.trans hf.ty_eq⟩

theorem FunDecl.Inlinable.mono {f : FunDecl Mark} {body : TypedExpr}
    (hf : f.Inlinable names calls body) (hcalls : ∀ f ts t, calls f ts t → calls' f ts t) :
    f.Inlinable names calls' body :=
  ⟨hf.toOwnParams, hf.typed.mono (fun _ _ h => h) (fun _ _ h => h) hcalls, hf.ty_eq⟩

theorem FunDecl.callee?_of_none {f : FunDecl Mark} (h : f.body = none) : f.callee? = none := by
  rw [callee?, h]
  rfl

namespace FunDecl.Expandable

variable {f : FunDecl Mark} {body : TypedExpr}

/-- The function as inlining sees it. -/
theorem callee?_eq {f : FunDecl Mark} {body : TypedExpr} (h : f.body = some body) :
    f.callee? = some ⟨f.name, f.params.map Param.name, body, f.line⟩ := by
  rw [callee?, h]
  rfl

/-- Inside the function, its own calls have its signature. -/
theorem signature (hf : f.Expandable names calls body) {ts : List Ty} {t : Ty}
    (h : f.withSelf calls f.name ts t) : ts = f.params.map Param.ty ∧ t = f.ret := by
  rcases h with h | ⟨-, -, h⟩
  · exact absurd h (hf.distinct ts t)
  · rw [FunDecl.ty, Ty.fn.injEq] at h
    exact ⟨h.1.symm, h.2.symm⟩

/-- One round of expansion keeps an expression in the body's context. -/
theorem inline (hf : f.Expandable names calls body) (line : Line) {e r : TypedExpr}
    (h : e.WellTyped (.of (withParams names f.params) (f.withSelf calls)))
    (hr : e.inline ⟨f.name, f.params.map Param.name, body, line⟩ = .ok r) :
    r.WellTyped (.of (withParams names f.params) (f.withSelf calls)) ∧ r.ty = e.ty := by
  refine h.inline (fun _ _ h => h) (fun _ _ h => h) (fun _ _ _ _ h => h) ?_ hr
  intro t args r' hcall hargs hr'
  obtain ⟨hts, rfl⟩ := hf.signature hcall
  exact hf.toInlinable.apply (fun _ _ => .inl) (fun _ _ _ h => h) hargs hts hr'

theorem inlineTimes (hf : f.Expandable names calls body) (line : Line) (n : ℕ) {e r : TypedExpr}
    (h : e.WellTyped (.of (withParams names f.params) (f.withSelf calls)))
    (hr : e.inlineTimes ⟨f.name, f.params.map Param.name, body, line⟩ n = .ok r) :
    r.WellTyped (.of (withParams names f.params) (f.withSelf calls)) ∧ r.ty = e.ty := by
  induction n generalizing e with
  | zero =>
    cases hr
    exact ⟨h, rfl⟩
  | succ n ih =>
    rw [Expr.inlineTimes] at hr
    obtain ⟨e', he, hr⟩ := bind_eq_ok.1 hr
    obtain ⟨hw, ht⟩ := hf.inline line h he
    obtain ⟨hw', ht'⟩ := ih hw hr
    exact ⟨hw', ht'.trans ht⟩

/-- **Expanding the recursion of a function leaves calls of the functions before it.** -/
theorem expand (hf : f.Expandable names calls body) (hbody : f.body = some body)
    {g : FunDecl Mark} (hg : f.expandRecursion = .ok g) :
    g.name = f.name ∧ g.params = f.params ∧ g.ret = f.ret ∧ g.line = f.line ∧
      ∃ body', g.body = some body' ∧ g.Inlinable names calls body' := by
  unfold expandRecursion at hg
  rw [callee?_eq hbody] at hg
  split at hg
  · next hrec =>
    cases hg
    have hself : ∀ g ts t, f.withSelf calls g ts t → calls g ts t := by
      rintro g ts t (h | ⟨h, -⟩)
      · exact h
      · simp [hrec] at h
    exact ⟨rfl, rfl, rfl, rfl, body, hbody, hf.toOwnParams,
      hf.typed.mono (fun _ _ h => h) (fun _ _ h => h) hself, hf.ty_eq⟩
  · next h => cases h
  · next bound callee hbound hcallee =>
    cases hcallee
    simp only [Callee.expand, bind_eq_ok, pure_eq_ok] at hg
    obtain ⟨_, ⟨e, he, rfl⟩, rfl⟩ := hg
    obtain ⟨hw, ht⟩ := hf.inlineTimes f.line _ hf.typed he
    obtain ⟨hfb, hft⟩ := hf.fallback bound hbound
    -- beyond the bound no call of the function is left
    have hcut : (Expr.cutCalls f.name bound.fallback e).WellTyped
          (.of (withParams names f.params) calls) ∧
        (Expr.cutCalls f.name bound.fallback e).ty = e.ty := by
      refine hw.cutCalls (fun _ _ h => h) (fun _ _ h => h) ?_ ?_ ?_
      · rintro g ts t hne (h | ⟨-, h, -⟩)
        · exact h
        · exact absurd h hne
      · exact hfb.mono (fun _ _ h => .inl h) (fun _ _ h => .inl h) (fun _ _ _ h => h)
      · exact fun ts t h => hft.trans (hf.signature h).2.symm
    exact ⟨rfl, rfl, rfl, rfl, _, rfl, ⟨hf.nodup, hf.fresh⟩, hcut.1,
      hcut.2.trans (ht.trans hf.ty_eq)⟩

end FunDecl.Expandable

/-! ## Whole programs -/

/-- Functions that can be inlined from the back to the front: each calls only functions before
it. `provided` tells the functions that are provided by the host. -/
structure Telescope (fs : List (FunDecl Mark)) (names : String → Ty → Prop)
    (provided : String → List Ty → Ty → Prop) : Prop where
  nodup : (fs.map FunDecl.name).Nodup
  provided_of_none : ∀ f ∈ fs, f.body = none → provided f.name (f.params.map Param.ty) f.ret
  not_provided : ∀ f ∈ fs, f.body ≠ none → ∀ ts t, ¬ provided f.name ts t
  inlinable : ∀ (i : ℕ) (f : FunDecl Mark) (body : TypedExpr),
    fs[i]? = some f → f.body = some body → f.Inlinable names (Declares (fs.take i)) body

/-- What inlining a whole program does: the entry is the last function with a body, and it takes no
parameters. -/
theorem inlineAll_eq_ok {fs : List (FunDecl Mark)} {r : TypedExpr} (h : inlineAll fs = .ok r) :
    ∃ before f after body, fs = before ++ f :: after ∧ f.body = some body ∧ f.params = [] ∧
      (∀ g ∈ after, g.body = none) ∧
      inlineEach (before.filterMap FunDecl.callee?).reverse body = .ok r := by
  unfold inlineAll at h
  split at h
  · cases h
  · next entry others hsplit =>
    split at h
    · next hparams =>
      rw [← List.filterMap_reverse, List.filterMap_eq_cons_iff] at hsplit
      obtain ⟨after, f, before, hfs, hafter, hf, rfl⟩ := hsplit
      obtain ⟨body, hbody, rfl⟩ := Option.map_eq_some_iff.1 hf
      refine ⟨before.reverse, f, after.reverse, body, ?_, hbody, by simpa using hparams, ?_, ?_⟩
      · rw [← List.reverse_reverse fs, hfs]
        simp
      · intro g hg
        simpa [FunDecl.callee?] using hafter g (List.mem_reverse.1 hg)
      · rwa [← List.filterMap_reverse, List.reverse_reverse]
    · cases h

/-- The functions of `fs`, and the provided ones. -/
def Callable (fs : List (FunDecl Mark)) (provided : String → List Ty → Ty → Prop) :
    String → List Ty → Ty → Prop :=
  fun f ts t => Declares fs f ts t ∨ provided f ts t

namespace Telescope

variable {fs gs : List (FunDecl Mark)} {provided : String → List Ty → Ty → Prop}

theorem left (h : Telescope (fs ++ gs) names provided) : Telescope fs names provided where
  nodup := by
    have := h.nodup
    rw [List.map_append] at this
    exact (List.nodup_append.1 this).1
  provided_of_none f hf := h.provided_of_none f (List.mem_append_left _ hf)
  not_provided f hf := h.not_provided f (List.mem_append_left _ hf)
  inlinable i f body hf hbody := by
    have hi : i < fs.length := (List.getElem?_eq_some_iff.1 hf).1
    have := h.inlinable i f body (by rw [List.getElem?_append_left hi, hf]) hbody
    rwa [List.take_append_of_le_length (Nat.le_of_lt hi)] at this

/-- The last function can be inlined where the others may be called. -/
theorem last {f : FunDecl Mark} {body : TypedExpr} (h : Telescope (fs ++ f :: gs) names provided)
    (hbody : f.body = some body) : f.Inlinable names (Declares fs) body := by
  have := h.inlinable fs.length f body (by simp) hbody
  rwa [List.take_left] at this

/-- The calls of a provided function are calls of provided functions. -/
theorem callable_of_none {f : FunDecl Mark} (h : Telescope (fs ++ [f]) names provided)
    (hbody : f.body = none) (g : String) (ts : List Ty) (t : Ty)
    (hg : Callable (fs ++ [f]) provided g ts t) : Callable fs provided g ts t := by
  rcases hg with hg | hg
  · rcases declares_concat.1 hg with hg | ⟨rfl, hty⟩
    · exact .inl hg
    · have := h.provided_of_none f (by simp) hbody
      rw [FunDecl.ty, Ty.fn.injEq] at hty
      exact .inr (hty.1 ▸ hty.2 ▸ this)
  · exact .inr hg

theorem callable_of_ne {f : FunDecl Mark} {g : String} (hne : g ≠ f.name) {ts : List Ty} {t : Ty}
    (hg : Callable (fs ++ [f]) provided g ts t) : Callable fs provided g ts t := by
  rcases hg with hg | hg
  · rcases declares_concat.1 hg with hg | ⟨rfl, -⟩
    · exact .inl hg
    · exact absurd rfl hne
  · exact .inr hg

/-- The calls of the last function have its signature. -/
theorem signature_last {f : FunDecl Mark} (h : Telescope (fs ++ [f]) names provided)
    (hbody : f.body ≠ none) {ts : List Ty} {t : Ty}
    (hf : Callable (fs ++ [f]) provided f.name ts t) :
    ts = f.params.map Param.ty ∧ t = f.ret := by
  rcases hf with hf | hf
  · rcases declares_concat.1 hf with hf | ⟨-, hty⟩
    · exact absurd hf (not_declares h.nodup _ _)
    · rw [FunDecl.ty, Ty.fn.injEq] at hty
      exact ⟨hty.1.symm, hty.2.symm⟩
  · exact absurd hf (h.not_provided f (by simp) hbody _ _)

/-- Inlining the last function leaves calls of the others. -/
theorem inline_last {f : FunDecl Mark} {body : TypedExpr}
    (h : Telescope (fs ++ [f]) names provided) (hbody : f.body = some body) {e r : TypedExpr}
    (he : e.WellTyped (.of names (Callable (fs ++ [f]) provided)))
    (hr : e.inline ⟨f.name, f.params.map Param.name, body, f.line⟩ = .ok r) :
    r.WellTyped (.of names (Callable fs provided)) ∧ r.ty = e.ty := by
  refine he.inline (fun _ _ h => h) (fun _ _ h => h) (fun _ _ _ hne hg => callable_of_ne hne hg)
    ?_ hr
  intro t args r' hf hargs hr'
  obtain ⟨hts, rfl⟩ := h.signature_last (by simp [hbody]) hf
  exact (h.last hbody).apply (fun _ _ h => h) (fun _ _ _ h => .inl h) hargs hts hr'

/-- Inlining functions one after the other begins with the last. -/
theorem inlineEach_concat_of_none {f : FunDecl Mark} (hbody : f.body = none) (e : TypedExpr) :
    Rulebook.inlineEach ((fs ++ [f]).filterMap FunDecl.callee?).reverse e =
      Rulebook.inlineEach (fs.filterMap FunDecl.callee?).reverse e := by
  rw [List.filterMap_append, List.filterMap_cons_none (FunDecl.callee?_of_none hbody),
    List.filterMap_nil, List.append_nil]

theorem inlineEach_concat_of_some {f : FunDecl Mark} {body : TypedExpr}
    (hbody : f.body = some body) (e : TypedExpr) :
    Rulebook.inlineEach ((fs ++ [f]).filterMap FunDecl.callee?).reverse e = (do
      let e ← e.inline ⟨f.name, f.params.map Param.name, body, f.line⟩
      Rulebook.inlineEach (fs.filterMap FunDecl.callee?).reverse e) := by
  rw [List.filterMap_append, List.reverse_append,
    List.filterMap_cons_some (FunDecl.Expandable.callee?_eq hbody), List.filterMap_nil,
    List.reverse_singleton, List.singleton_append, Rulebook.inlineEach]

/-- The body of a function without parameters calls the functions before it. -/
theorem entry_typed {f : FunDecl Mark} {body : TypedExpr}
    (h : Telescope (fs ++ f :: gs) names provided) (hbody : f.body = some body)
    (hparams : f.params = []) : body.WellTyped (.of names (Callable fs provided)) := by
  have hnames : ∀ x t, withParams names f.params x t → names x t := by
    rintro x t (hx | hx)
    · exact hx
    · rw [hparams] at hx
      cases hx
  exact (h.last hbody).typed.mono hnames hnames fun _ _ _ h => .inl h

/-- **After inlining all functions, only provided functions are called.** -/
theorem inlineEach (h : Telescope fs names provided) {e r : TypedExpr}
    (he : e.WellTyped (.of names (Callable fs provided)))
    (hr : inlineEach (fs.filterMap FunDecl.callee?).reverse e = .ok r) :
    r.WellTyped (.of names provided) ∧ r.ty = e.ty := by
  induction fs using List.reverseRecOn generalizing e with
  | nil =>
    cases hr
    refine ⟨he.mono (fun _ _ h => h) (fun _ _ h => h) ?_, rfl⟩
    rintro f ts t (⟨g, hg, -⟩ | hf)
    · cases hg
    · exact hf
  | append_singleton fs f ih =>
    cases hbody : f.body with
    | none =>
      rw [inlineEach_concat_of_none hbody] at hr
      exact ih h.left (he.mono (fun _ _ h => h) (fun _ _ h => h) (h.callable_of_none hbody)) hr
    | some body =>
      rw [inlineEach_concat_of_some hbody, bind_eq_ok] at hr
      obtain ⟨e', he', hr⟩ := hr
      obtain ⟨hw, ht⟩ := h.inline_last hbody he he'
      obtain ⟨hw', ht'⟩ := ih h.left hw hr
      exact ⟨hw', ht'.trans ht⟩

/-- **Inlining a whole program leaves an expression that calls only provided functions.** -/
theorem inlineAll (h : Telescope fs names provided) {r : TypedExpr} (hr : inlineAll fs = .ok r) :
    r.WellTyped (.of names provided) := by
  obtain ⟨before, f, after, body, rfl, hbody, hparams, -, hr⟩ := inlineAll_eq_ok hr
  exact (h.left.inlineEach (h.entry_typed hbody hparams) hr).1

end Telescope

end

end Rulebook
