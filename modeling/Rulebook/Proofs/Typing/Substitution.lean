import Rulebook.Proofs.Outcome
import Rulebook.Proofs.Typing.Check
import Rulebook.Substitution

/-!
# Substitution keeps types

A substitution leads from one context to another (`Substitution.Maps`) if what it puts for a name
is well typed there, at the type at which the name was used. Then it takes well-typed expressions
to well-typed ones of the same type (`WellTyped.substitute`). Two kinds of substitution occur:

* one that renames: it puts a variable for every name of a scope (`Substitution.Renames`);
* one that puts the arguments of a call for the parameters (`maps_ofArgs`).
-/

namespace Rulebook

/-- The names of `names` and the parameters. -/
def withParams (names : String → Ty → Prop) (params : List Param) : String → Ty → Prop :=
  fun x t => names x t ∨ ⟨x, t⟩ ∈ params

namespace Substitution

/-- The substitution leads from the context `Γ` to the context `Δ`. -/
structure Maps (s : Substitution) (Γ Δ : Context) : Prop where
  reads : ∀ x m, Γ.reads x m.ty →
    ((s.find? x).getD (.var m x)).WellTyped Δ ∧ ((s.find? x).getD (.var m x)).ty = m.ty
  writes : ∀ x t line y, Γ.writes x t → s.target x line = .ok y → Δ.writes y t
  calls : ∀ f ts t, Γ.calls f ts t → Δ.calls f ts t

theorem target_of_none {s : Substitution} {x : String} (h : s.find? x = none) (line : Line) :
    s.target x line = .ok x := by
  rw [target, h]

theorem target_of_var {s : Substitution} {x y : String} {m : Mark}
    (h : s.find? x = some (.var m y)) (line : Line) : s.target x line = .ok y := by
  rw [target, h]

/-- The target of an assignment becomes what the substitution puts for it. -/
theorem target_eq_ok {s : Substitution} {x y : String} {line : Line} :
    s.target x line = .ok y ↔
      (s.find? x = none ∧ x = y) ∨ ∃ m, s.find? x = some (.var m y) := by
  unfold target
  split
  · next h => simp [h]
  · next h => simp [h]
  · next e hv h =>
    simp only [h, reduceCtorEq, false_and, Option.some.injEq, false_or, false_iff, not_exists]
    intro m he
    exact hv m y he

end Substitution

/-- **Substitution keeps types.** -/
theorem Expr.WellTyped.substitute {Γ Δ : Context} {s : Substitution} (hs : s.Maps Γ Δ)
    {e r : TypedExpr} (h : e.WellTyped Γ) (hr : e.substitute s = .ok r) :
    r.WellTyped Δ ∧ r.ty = e.ty := by
  induction h generalizing r with
  | lit h =>
    obtain rfl : _ = r := by simpa only [Expr.substitute, Except.ok.injEq] using hr
    exact ⟨.lit h, rfl⟩
  | var h =>
    obtain rfl : _ = r := by simpa only [Expr.substitute, Except.ok.injEq] using hr
    exact hs.reads _ _ h
  | not h₁ h₂ _ ih =>
    simp only [Expr.substitute, bind_eq_ok, pure_eq_ok] at hr
    obtain ⟨e', he, rfl⟩ := hr
    obtain ⟨hw, ht⟩ := ih he
    exact ⟨.not h₁ (ht.trans h₂) hw, rfl⟩
  | call hf _ ih =>
    simp only [Expr.substitute, Expr.substituteArgs_eq_mapM, bind_eq_ok, pure_eq_ok,
      mapM_eq_ok] at hr
    obtain ⟨args', hargs, rfl⟩ := hr
    obtain ⟨hw, ht⟩ := args hargs fun a ha a' ha' => ih a ha ha'
    exact ⟨.call (ht ▸ hs.calls _ _ _ hf) hw, rfl⟩
  | binary h₁ h₂ _ _ ihl ihr =>
    simp only [Expr.substitute, bind_eq_ok, pure_eq_ok] at hr
    obtain ⟨l', hl, r', hr, rfl⟩ := hr
    obtain ⟨hlw, hlt⟩ := ihl hl
    obtain ⟨hrw, hrt⟩ := ihr hr
    exact ⟨.binary h₁ (hlt ▸ hrt ▸ h₂) hlw hrw, rfl⟩
  | cond h₁ h₂ h₃ _ _ _ ihc iht ihe =>
    simp only [Expr.substitute, bind_eq_ok, pure_eq_ok] at hr
    obtain ⟨c', hc, t', ht, e', he, rfl⟩ := hr
    obtain ⟨hcw, hct⟩ := ihc hc
    obtain ⟨htw, htt⟩ := iht ht
    obtain ⟨hew, het⟩ := ihe he
    exact ⟨.cond (hct.trans h₁) (htt.trans h₂) (het.trans h₃) hcw htw hew, rfl⟩
  | assign h₁ h₂ _ ih =>
    simp only [Expr.substitute, bind_eq_ok, pure_eq_ok] at hr
    obtain ⟨y, hy, e', he, rfl⟩ := hr
    obtain ⟨hw, ht⟩ := ih he
    exact ⟨.assign h₁ (ht ▸ hs.writes _ _ _ _ h₂ hy) hw, rfl⟩
  | seq h₁ h₂ h₃ _ _ iha ihb =>
    simp only [Expr.substitute, bind_eq_ok, pure_eq_ok] at hr
    obtain ⟨a', ha, b', hb, rfl⟩ := hr
    obtain ⟨haw, hat⟩ := iha ha
    obtain ⟨hbw, hbt⟩ := ihb hb
    exact ⟨.seq h₁ (hat.trans h₂) (hbt.trans h₃) haw hbw, rfl⟩

namespace Substitution

/-! ## Renaming -/

/-- The substitution puts a variable for every value in scope; the new names are those of
`names`. -/
def Renames (s : Substitution) (scope : Scope) (names : String → Ty → Prop) : Prop :=
  ∀ x t, scope.find? x = some t → t.isPrimitive →
    ∃ line y, s.find? x = some (.var ⟨t, line⟩ y) ∧ names y t

namespace Renames

variable {s : Substitution} {scope : Scope} {names names' : String → Ty → Prop}

theorem mono (h : s.Renames scope names) (hn : ∀ y t, names y t → names' y t) :
    s.Renames scope names' := by
  intro x t hx ht
  obtain ⟨line, y, hy, hyt⟩ := h x t hx ht
  exact ⟨line, y, hy, hn y t hyt⟩

/-- A value that comes into scope, with the variable that stands for it. -/
theorem bind (h : s.Renames scope names) (x : String) {t : Ty} {y : String} (line : Line)
    (hy : names y t) : Renames (s.bind x (.var ⟨t, line⟩ y)) (scope.bind x t) names := by
  intro z u hz hu
  rw [Bindings.find?_bind] at hz ⊢
  split at hz
  · next hzx =>
    cases hz
    exact ⟨line, y, by rw [if_pos hzx], hy⟩
  · next hzx =>
    rw [if_neg hzx]
    exact h z u hz hu

/-- A function that comes into scope needs no variable. -/
theorem bind_fn (h : s.Renames scope names) (f : String) (ts : List Ty) (t : Ty) :
    s.Renames (scope.bind f (.fn ts t)) names := by
  intro z u hz hu
  rw [Bindings.find?_bind] at hz
  split at hz
  · cases hz
    cases hu
  · exact h z u hz hu

theorem maps (h : s.Renames scope names) :
    s.Maps (.ofValues scope) (.of names fun f ts t => scope.find? f = some (.fn ts t)) where
  reads x m hx := by
    obtain ⟨line, y, hy, hyt⟩ := h x m.ty hx.1 hx.2
    rw [hy]
    exact ⟨.var hyt, rfl⟩
  writes x t line z hx hz := by
    obtain ⟨line', y, hy, hyt⟩ := h x t hx.1 hx.2
    rw [target_of_var hy, Except.ok.injEq] at hz
    exact hz ▸ hyt
  calls _ _ _ hf := hf

end Renames

/-! ## Arguments for parameters -/

theorem find?_ofArgs_of_not_mem {params : List String} (args : List TypedExpr) {x : String}
    (h : x ∉ params) : (ofArgs params args).find? x = none := by
  rw [ofArgs, Bindings.find?, List.lookup_eq_none_iff]
  rintro ⟨y, a⟩ hy
  rw [bne_iff_ne]
  rintro rfl
  exact h (List.of_mem_zip (List.mem_reverse.1 hy)).1

theorem find?_ofArgs_of_mem {params : List String} {args : List TypedExpr}
    (hnd : params.Nodup) {x : String} {a : TypedExpr} (h : (x, a) ∈ params.zip args) :
    (ofArgs params args).find? x = some a := by
  induction params generalizing args with
  | nil => cases h
  | cons p params ih =>
    obtain _ | ⟨b, args⟩ := args
    · cases h
    rw [ofArgs, Bindings.find?, List.zip_cons_cons, List.reverse_cons, List.lookup_append]
    rcases List.mem_cons.1 h with h | h
    · cases h
      have := find?_ofArgs_of_not_mem args (List.nodup_cons.1 hnd).1
      rw [ofArgs, Bindings.find?] at this
      simp [this]
    · have := ih (List.nodup_cons.1 hnd).2 h
      rw [ofArgs, Bindings.find?] at this
      simp [this]

/-- A parameter stands for the argument at its position, which has its type. -/
theorem exists_find?_ofArgs {params : List Param} {args : List TypedExpr}
    (hnd : (params.map Param.name).Nodup) (htys : args.map Expr.ty = params.map Param.ty)
    {x : String} {t : Ty} (hx : ⟨x, t⟩ ∈ params) :
    ∃ a ∈ args, a.ty = t ∧ (ofArgs (params.map Param.name) args).find? x = some a := by
  obtain ⟨i, hi, hp⟩ := List.getElem_of_mem hx
  have hlen : args.length = params.length := by simpa using congrArg List.length htys
  have hi' : i < args.length := by omega
  refine ⟨args[i], List.getElem_mem hi', ?_, find?_ofArgs_of_mem hnd ?_⟩
  · have := List.getElem_of_eq htys (by simpa using hi')
    simpa [hp] using this
  · rw [List.mem_iff_getElem]
    exact ⟨i, by simp; omega, by simp [hp]⟩

/-- Putting well-typed arguments for parameters leads out of the body of a function. -/
theorem maps_ofArgs {names names' : String → Ty → Prop}
    {calls calls' : String → List Ty → Ty → Prop} {params : List Param} {args : List TypedExpr}
    (hnd : (params.map Param.name).Nodup)
    (hfresh : ∀ x t, names x t → x ∉ params.map Param.name)
    (hargs : ∀ a ∈ args, a.WellTyped (.of names' calls'))
    (htys : args.map Expr.ty = params.map Param.ty)
    (hnames : ∀ x t, names x t → names' x t) (hcalls : ∀ f ts t, calls f ts t → calls' f ts t) :
    (ofArgs (params.map Param.name) args).Maps (.of (withParams names params) calls)
      (.of names' calls') := by
  constructor
  · rintro x m (hx | hx)
    · rw [find?_ofArgs_of_not_mem args (hfresh x _ hx)]
      exact ⟨.var (hnames x _ hx), rfl⟩
    · obtain ⟨a, ha, hat, hfind⟩ := exists_find?_ofArgs hnd htys hx
      rw [hfind]
      exact ⟨hargs a ha, hat⟩
  · rintro x t line y (hx | hx) hy
    · rw [target_of_none (find?_ofArgs_of_not_mem args (hfresh x _ hx)), Except.ok.injEq] at hy
      exact hy ▸ hnames x t hx
    · obtain ⟨a, ha, rfl, hfind⟩ := exists_find?_ofArgs hnd htys hx
      rcases target_eq_ok.1 hy with ⟨hnone, -⟩ | ⟨m, hvar⟩
      · rw [hnone] at hfind
        cases hfind
      · obtain rfl : .var m y = a := by simpa [hvar] using hfind
        cases hargs _ ha with
        | var h => exact h
  · exact hcalls

end Substitution

end Rulebook
