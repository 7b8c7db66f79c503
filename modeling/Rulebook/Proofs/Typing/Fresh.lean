import Mathlib.Data.List.Nodup
import Rulebook.Fresh
import Rulebook.Proofs.Typing.Inlining

/-!
# Fresh names keep types

The names drawn from the supply are `FreshNames.name 0`, `FreshNames.name 1`, … and no two of them
are the same. Renaming the variables of a checked program gives the `i`-th variable the `i`-th name
and leaves an initial value that uses only the names before it (`freshenVariables_wellTyped`);
renaming a function leaves one whose recursion can be expanded (`FunDecl.Checked.expandable`).
-/

namespace Rulebook

/-! ## Names -/

/-- The name with the given number, `_var0`, `_var1`, … -/
def FreshNames.name (i : ℕ) : String := "_var" ++ i.repr

theorem FreshNames.fresh_eq (n : FreshNames) : n.fresh = (name n.next, ⟨n.next + 1⟩) := rfl

theorem FreshNames.name_injective : Function.Injective name := by
  intro i j h
  have hrepr : i.repr = j.repr := by
    simpa [name] using h
  have hdigits : Nat.toDigits 10 i = Nat.toDigits 10 j := by
    rw [← Nat.toList_repr, ← Nat.toList_repr, hrepr]
  rw [← Nat.ofDigitChars_ten_toDigits (n := i), hdigits, Nat.ofDigitChars_ten_toDigits]

/-- The variables numbered below `n`, which hold integers. -/
def numbered (n : ℕ) : String → Ty → Prop := fun x t => t = .int ∧ ∃ i < n, x = FreshNames.name i

theorem lt_of_numbered {n i : ℕ} {t : Ty} (h : numbered n (FreshNames.name i) t) : i < n := by
  obtain ⟨-, j, hj, hij⟩ := h
  rwa [FreshNames.name_injective hij]

theorem numbered_mono {m n : ℕ} (h : m ≤ n) {x : String} {t : Ty} (hx : numbered m x t) :
    numbered n x t := by
  obtain ⟨rfl, i, hi, rfl⟩ := hx
  exact ⟨rfl, i, by omega, rfl⟩

/-! ## Scopes -/

namespace Scope

variable {μ : Type} {s : Scope} {calls : String → List Ty → Ty → Prop}

/-- The functions in scope are functions of `calls`. -/
def FunctionsIn (s : Scope) (calls : String → List Ty → Ty → Prop) : Prop :=
  ∀ f ts t, s.find? f = some (.fn ts t) → calls f ts t

theorem FunctionsIn.bind (h : s.FunctionsIn calls) (x : String) {t : Ty} (ht : t.isPrimitive) :
    FunctionsIn (s.bind x t) calls := by
  intro f ts u hf
  rw [Bindings.find?_bind] at hf
  split at hf
  · cases hf
    cases ht
  · exact h f ts u hf

theorem FunctionsIn.bind_fn (h : s.FunctionsIn calls) {f : String} {ts : List Ty} {t : Ty}
    (hf : calls f ts t) : FunctionsIn (s.bind f (.fn ts t)) calls := by
  intro g us u hg
  rw [Bindings.find?_bind] at hg
  split at hg
  · next hgf =>
    cases hg
    exact hgf ▸ hf
  · exact h g us u hg

theorem FunctionsIn.bindParams (h : s.FunctionsIn calls) {ps : List Param}
    (hps : ∀ p ∈ ps, p.ty.isPrimitive) : FunctionsIn (s.bindParams ps) calls := by
  induction ps generalizing s with
  | nil => exact h
  | cons p ps ih =>
    exact ih (h.bind p.name (hps p List.mem_cons_self))
      fun q hq => hps q (List.mem_cons_of_mem _ hq)

/-- The functions in the scope of a body: those before, and the function itself. -/
theorem FunctionsIn.ofBody (h : s.FunctionsIn calls) {f : FunDecl μ} {g : FunDecl Mark}
    (hname : g.name = f.name) (hty : g.ty = f.ty)
    (hrec : g.recursion.isSome = f.recursion.isSome) (hps : ∀ p ∈ f.params, p.ty.isPrimitive) :
    FunctionsIn (s.ofBody f) (g.withSelf calls) := by
  have h' : s.FunctionsIn (g.withSelf calls) := fun f ts t hf => .inl (h f ts t hf)
  unfold Scope.ofBody
  split
  · next hsome =>
    exact (h'.bind_fn (.inr ⟨hrec ▸ hsome, hname.symm, hty⟩)).bindParams hps
  · exact h'.bindParams hps

theorem bindParams_cons (s : Scope) (p : Param) (ps : List Param) :
    s.bindParams (p :: ps) = Scope.bindParams (s.bind p.name p.ty) ps := rfl

/-- A name in the scope of parameters is one of them or was in scope before. -/
theorem find?_bindParams {ps : List Param} {x : String} {t : Ty}
    (h : (s.bindParams ps).find? x = some t) :
    (∃ p ∈ ps, p.name = x ∧ p.ty = t) ∨ (x ∉ ps.map Param.name ∧ s.find? x = some t) := by
  induction ps generalizing s with
  | nil => exact .inr ⟨List.not_mem_nil, h⟩
  | cons p ps ih =>
    rw [bindParams_cons] at h
    rcases ih h with ⟨q, hq, rfl, rfl⟩ | ⟨hx, h⟩
    · exact .inl ⟨q, List.mem_cons_of_mem _ hq, rfl, rfl⟩
    · rw [Bindings.find?_bind] at h
      split at h
      · next hxp =>
        cases h
        exact .inl ⟨p, List.mem_cons_self, hxp.symm, rfl⟩
      · next hxp => exact .inr ⟨by simp [hxp]; simpa using hx, h⟩

end Scope

/-! ## Variables -/

/-- Variables numbered from `k` on, each with an initial value that uses only those before it. -/
def Numbered (calls : String → List Ty → Ty → Prop) : ℕ → List (VarDecl Mark) → Prop
  | _, [] => True
  | k, v :: vs =>
    (v.name = FreshNames.name k ∧ v.init.WellTyped (.of (numbered k) calls) ∧ v.init.ty = .int) ∧
      Numbered calls (k + 1) vs

theorem Numbered.of_getElem? {calls : String → List Ty → Ty → Prop} {k : ℕ}
    {vs : List (VarDecl Mark)} (h : Numbered calls k vs) {i : ℕ} {v : VarDecl Mark}
    (hv : vs[i]? = some v) :
    v.name = FreshNames.name (k + i) ∧ v.init.WellTyped (.of (numbered (k + i)) calls) ∧
      v.init.ty = .int := by
  induction vs generalizing k i with
  | nil => simp at hv
  | cons w vs ih =>
    cases i with
    | zero =>
      cases hv
      exact h.1
    | succ i =>
      have := ih h.2 hv
      rwa [show k + 1 + i = k + (i + 1) by omega] at this

theorem Numbered.map_name {calls : String → List Ty → Ty → Prop} {k : ℕ}
    {vs : List (VarDecl Mark)} (h : Numbered calls k vs) :
    vs.map VarDecl.name = (List.range' k vs.length).map FreshNames.name := by
  induction vs generalizing k with
  | nil => rfl
  | cons v vs ih =>
    rw [List.map_cons, h.1.1, ih h.2, List.length_cons, List.range'_succ, List.map_cons]

theorem VarDecl.check_eq_ok {s : Scope} {v : VarDecl Line} {w : VarDecl Mark} :
    v.check s = .ok w ↔
      ∃ init, v.init.check s = .ok init ∧ init.ty = .int ∧ w = ⟨v.name, init, v.line⟩ := by
  simp only [check, bind_eq_ok, pure_eq_ok, Expr.expect_eq_ok, exists_and_left, exists_const,
    eq_comm (a := w)]

theorem checkVariables_cons {s s' : Scope} {v : VarDecl Line} {vs : List (VarDecl Line)}
    {ws : List (VarDecl Mark)} :
    checkVariables s (v :: vs) = .ok (ws, s') ↔
      ∃ init ws', v.init.check s = .ok init ∧ init.ty = .int ∧
        checkVariables (s.bind v.name .int) vs = .ok (ws', s') ∧
        ws = ⟨v.name, init, v.line⟩ :: ws' := by
  simp only [checkVariables, bind_eq_ok, pure_eq_ok, VarDecl.check_eq_ok]
  constructor
  · rintro ⟨_, ⟨init, hinit, hty, rfl⟩, ⟨ws', s''⟩, hws, h⟩
    cases h
    exact ⟨init, ws', hinit, hty, hws, rfl⟩
  · rintro ⟨init, ws', hinit, hty, hws, rfl⟩
    exact ⟨_, ⟨init, hinit, hty, rfl⟩, (ws', s'), hws, rfl⟩

theorem freshenVariables_cons {globals globals' : Substitution} {n n' : FreshNames}
    {v : VarDecl Mark} {vs ws : List (VarDecl Mark)} :
    freshenVariables globals n (v :: vs) = .ok (ws, globals', n') ↔
      ∃ init ws', v.init.substitute globals = .ok init ∧
        freshenVariables (globals.bind v.name (.var ⟨.int, v.line⟩ (FreshNames.name n.next)))
          ⟨n.next + 1⟩ vs = .ok (ws', globals', n') ∧
        ws = ⟨FreshNames.name n.next, init, v.line⟩ :: ws' := by
  simp only [freshenVariables, FreshNames.fresh_eq, bind_eq_ok, pure_eq_ok]
  constructor
  · rintro ⟨init, hinit, ⟨ws', g, m⟩, hws, h⟩
    cases h
    exact ⟨init, ws', hinit, hws, rfl⟩
  · rintro ⟨init, ws', hinit, hws, rfl⟩
    exact ⟨init, hinit, (ws', globals', n'), hws, rfl⟩

/-- The typing of an expression that was checked in `s` and reads values only. -/
theorem Expr.check_ofValues {s : Scope} {calls : String → List Ty → Ty → Prop}
    (hs : s.FunctionsIn calls) (hprim : ∀ f ts t, calls f ts t → t.isPrimitive) {e : RawExpr}
    {r : TypedExpr} (hreads : ∀ x ∈ e.reads, ∀ t, s.find? x = some t → t.isPrimitive)
    (h : e.check s = .ok r) : r.WellTyped (.ofValues s) :=
  ((Expr.check_wellTyped h).firstOrder (fun f ts t hf => hprim f ts t (hs f ts t hf))
    (by rwa [Expr.reads_of_check h])).1

/-- The typing of an expression that was checked in `s` and reads no function. -/
theorem Expr.check_ofValues_of_reads {s : Scope} {calls : String → List Ty → Ty → Prop}
    (hs : s.FunctionsIn calls) (hprim : ∀ f ts t, calls f ts t → t.isPrimitive) {e : RawExpr}
    {r : TypedExpr} (hreads : ∀ x ∈ e.reads, ∀ ts t, ¬ calls x ts t) (h : e.check s = .ok r) :
    r.WellTyped (.ofValues s) := by
  refine check_ofValues hs hprim (fun x hx t ht => ?_) h
  cases t with
  | fn ts t => exact absurd (hs x ts t ht) (hreads x hx ts t)
  | void | int | bool => rfl

/-- A variable that comes into scope, with the next name. -/
theorem Substitution.Renames.bind_next {globals : Substitution} {s : Scope} {n : ℕ}
    (hg : globals.Renames s (numbered n)) (x : String) (line : Line) :
    Renames (globals.bind x (.var ⟨.int, line⟩ (FreshNames.name n))) (s.bind x .int)
      (numbered (n + 1)) :=
  (hg.mono fun _ _ hy => numbered_mono (Nat.le_succ n) hy).bind x line
    ⟨rfl, n, Nat.lt_succ_self n, rfl⟩

/-- **Renaming the variables of a checked program.** -/
theorem freshenVariables_wellTyped {calls : String → List Ty → Ty → Prop} {s s' : Scope}
    {globals globals' : Substitution} {n n' : FreshNames} {us : List (VarDecl Line)}
    {vs ws : List (VarDecl Mark)} (hs : s.FunctionsIn calls)
    (hprim : ∀ f ts t, calls f ts t → t.isPrimitive)
    (hreads : ∀ v ∈ us, ∀ x ∈ v.init.reads, ∀ ts t, ¬ calls x ts t)
    (hg : globals.Renames s (numbered n.next)) (hvs : checkVariables s us = .ok (vs, s'))
    (hws : freshenVariables globals n vs = .ok (ws, globals', n')) :
    s'.FunctionsIn calls ∧ globals'.Renames s' (numbered n'.next) ∧
      n'.next = n.next + us.length ∧ Numbered calls n.next ws ∧
      ws.map VarDecl.line = us.map VarDecl.line := by
  induction us generalizing s globals n vs ws with
  | nil =>
    cases hvs
    cases hws
    exact ⟨hs, hg, rfl, trivial, rfl⟩
  | cons u us ih =>
    obtain ⟨init, vs', hinit, hty, hvs', rfl⟩ := checkVariables_cons.1 hvs
    obtain ⟨init', ws', hinit', hws', rfl⟩ := freshenVariables_cons.1 hws
    have hu := Expr.check_ofValues_of_reads hs hprim (hreads u List.mem_cons_self) hinit
    obtain ⟨hw, ht⟩ := hu.substitute hg.maps hinit'
    obtain ⟨hs', hg'', hn, hnum, hlines⟩ := ih (hs.bind u.name rfl)
      (fun v hv => hreads v (List.mem_cons_of_mem _ hv)) (hg.bind_next u.name u.line) hvs' hws'
    refine ⟨hs', hg'', ?_, ⟨⟨rfl, ?_, ht.trans hty⟩, hnum⟩, ?_⟩
    · rw [hn, List.length_cons]
      exact Nat.succ_add_eq_add_succ n.next us.length
    · exact hw.mono (fun _ _ h => h) (fun _ _ h => h) hs
    · rw [List.map_cons, List.map_cons, hlines]

/-! ## Functions -/

theorem freshenParams_cons {line : Line} {s s' : Substitution} {n n' : FreshNames} {p : Param}
    {ps ps' : List Param} :
    freshenParams line s n (p :: ps) = (ps', s', n') ↔
      ∃ qs, freshenParams line (s.bind p.name (.var ⟨p.ty, line⟩ (FreshNames.name n.next)))
          ⟨n.next + 1⟩ ps = (qs, s', n') ∧ ps' = ⟨FreshNames.name n.next, p.ty⟩ :: qs := by
  rw [freshenParams, FreshNames.fresh_eq]
  constructor
  · intro h
    cases h
    exact ⟨_, rfl, rfl⟩
  · rintro ⟨qs, hqs, rfl⟩
    dsimp only
    rw [hqs]

/-- The parameters that `freshenParams` gives, and the substitution that leads to them. -/
theorem freshenParams_renames {line : Line} {s s' : Substitution} {n n' : FreshNames}
    {ps ps' : List Param} (h : freshenParams line s n ps = (ps', s', n')) :
    ps'.map Param.name = (List.range' n.next ps.length).map FreshNames.name ∧
      ps'.map Param.ty = ps.map Param.ty ∧ n'.next = n.next + ps.length ∧
      ∀ (scope : Scope) names, s.Renames scope names →
        s'.Renames (scope.bindParams ps) (withParams names ps') := by
  induction ps generalizing s n ps' with
  | nil =>
    cases h
    exact ⟨rfl, rfl, rfl, fun scope names hs => hs.mono fun _ _ => .inl⟩
  | cons p ps ih =>
    obtain ⟨qs, hqs, rfl⟩ := freshenParams_cons.1 h
    obtain ⟨hnames, htys, hn, hren⟩ := ih hqs
    refine ⟨?_, ?_, ?_, fun scope names hs => ?_⟩
    · rw [List.map_cons, hnames, List.length_cons, List.range'_succ, List.map_cons]
    · rw [List.map_cons, htys, List.map_cons]
    · rw [hn, List.length_cons]
      exact Nat.succ_add_eq_add_succ n.next ps.length
    · have hs' : s.Renames scope (withParams names [⟨FreshNames.name n.next, p.ty⟩]) :=
        hs.mono fun _ _ => .inl
      have := hren _ _ (hs'.bind p.name line (.inr (List.mem_singleton.2 rfl)))
      refine this.mono ?_
      rintro y t ((hy | hy) | hy)
      · exact .inl hy
      · exact .inr (List.mem_cons.2 (.inl (List.mem_singleton.1 hy)))
      · exact .inr (List.mem_cons_of_mem _ hy)

/-- Parameters with fresh names are the function's own, if the fresh names that are used outside
were drawn before. -/
theorem FunDecl.ownParams_of_fresh {f : FunDecl Mark} {names : String → Ty → Prop} {k m len : ℕ}
    (hparams : f.params.map Param.name = (List.range' m len).map FreshNames.name) (hk : k ≤ m)
    (hnames : ∀ i t, names (FreshNames.name i) t → i < k) : f.OwnParams names where
  nodup := by
    rw [hparams]
    exact List.Nodup.map FreshNames.name_injective List.nodup_range'
  fresh x t hx hmem := by
    rw [hparams, List.mem_map] at hmem
    obtain ⟨i, hi, rfl⟩ := hmem
    have := hnames i t hx
    rw [List.mem_range'_1] at hi
    omega

theorem FunDecl.freshen_of_none {f f' : FunDecl Mark} {globals : Substitution}
    {n n' : FreshNames} (hbody : f.body = none) (h : f.freshen globals n = .ok (f', n')) :
    f' = f ∧ n' = n := by
  unfold freshen at h
  rw [hbody] at h
  cases h
  exact ⟨rfl, rfl⟩

/-- What renaming does to a function with a body. -/
theorem FunDecl.freshen_of_some {f f' : FunDecl Mark} {globals : Substitution}
    {n n' : FreshNames} {body : TypedExpr} (hbody : f.body = some body)
    (h : f.freshen globals n = .ok (f', n')) :
    ∃ params scope recursion body', freshenParams f.line globals n f.params = (params, scope, n') ∧
      Option.Rel (fun r r' : Recursion Mark => r'.depth = r.depth ∧
        r.fallback.substitute globals = .ok r'.fallback) f.recursion recursion ∧
      body.substitute scope = .ok body' ∧
      f' = ⟨f.name, params, f.ret, recursion, some body', f.line⟩ := by
  unfold freshen at h
  rw [hbody] at h
  rcases hp : freshenParams f.line globals n f.params with ⟨params, scope, m⟩
  simp only [hp, bind_eq_ok, pure_eq_ok, optionMapM_eq_ok] at h
  obtain ⟨recursion, hrec, body', hbody', h⟩ := h
  cases h
  refine ⟨params, scope, recursion, body', rfl, rel_imp ?_ hrec, hbody', rfl⟩
  rintro r _ ⟨fallback, hfallback, rfl⟩
  exact ⟨rfl, hfallback⟩

/-- A function keeps its name, its type and its line. -/
theorem FunDecl.freshen_signature {f f' : FunDecl Mark} {globals : Substitution}
    {n n' : FreshNames} (h : f.freshen globals n = .ok (f', n')) :
    f'.name = f.name ∧ f'.ty = f.ty ∧ f'.line = f.line ∧ f'.body.isSome = f.body.isSome ∧
      n.next ≤ n'.next := by
  cases hbody : f.body with
  | none =>
    obtain ⟨rfl, rfl⟩ := freshen_of_none hbody h
    exact ⟨rfl, rfl, rfl, by rw [hbody], Nat.le_refl _⟩
  | some body =>
    obtain ⟨params, scope, recursion, body', hp, -, -, rfl⟩ := freshen_of_some hbody h
    obtain ⟨-, htys, hn, -⟩ := freshenParams_renames hp
    exact ⟨rfl, by rw [FunDecl.ty, FunDecl.ty, htys], rfl, rfl, by omega⟩

/-- A function as checking leaves it: its body is well typed in the scope of the body, the value
beyond its bound in the scope of the declaration, and both have the return type. -/
structure FunDecl.Checked (f : FunDecl Mark) (s : Scope) (body : TypedExpr) : Prop where
  typed : body.WellTyped (.ofValues (s.ofBody f))
  ty_eq : body.ty = f.ret
  fallback : ∀ bound, f.recursion = some bound →
    bound.fallback.WellTyped (.ofValues s) ∧ bound.fallback.ty = f.ret

/-- **Renaming a checked function leaves one whose recursion can be expanded.** -/
theorem FunDecl.Checked.expandable {calls : String → List Ty → Ty → Prop} {s : Scope}
    {globals : Substitution} {n n' : FreshNames} {k : ℕ} {f f' : FunDecl Mark}
    {body : TypedExpr} (hf : f.Checked s body) (hs : s.FunctionsIn calls)
    (hg : globals.Renames s (numbered k)) (hk : k ≤ n.next)
    (hps : ∀ p ∈ f.params, p.ty.isPrimitive) (hdistinct : ∀ ts t, ¬ calls f.name ts t)
    (hbody : f.body = some body) (h : f.freshen globals n = .ok (f', n')) :
    ∃ body', f'.body = some body' ∧ f'.Expandable (numbered k) calls body' := by
  obtain ⟨params, scope, recursion, body', hp, hrec, hbody', rfl⟩ := freshen_of_some hbody h
  obtain ⟨hnames, htys, -, hren⟩ := freshenParams_renames hp
  have hty : (⟨f.name, params, f.ret, recursion, some body', f.line⟩ : FunDecl Mark).ty = f.ty := by
    rw [FunDecl.ty, FunDecl.ty, htys]
  -- the function itself needs no new name, so the variables are renamed in its body too
  have hgb : scope.Renames (s.ofBody f) (withParams (numbered k) params) := by
    unfold Scope.ofBody
    split
    · exact hren _ _ (hg.bind_fn _ _ _)
    · exact hren _ _ hg
  obtain ⟨hw, ht⟩ := hf.typed.substitute hgb.maps hbody'
  have hown := ownParams_of_fresh (f := ⟨f.name, params, f.ret, recursion, some body', f.line⟩)
    hnames hk fun _ _ => lt_of_numbered
  refine ⟨body', rfl, ⟨⟨hown, ?_, ht.trans hf.ty_eq⟩, ?_, hdistinct⟩⟩
  · exact hw.mono (fun _ _ h => h) (fun _ _ h => h) (hs.ofBody rfl hty (isSome_of_rel hrec) hps)
  · rintro bound hbound
    subst hbound
    obtain ⟨bound', hbound', -, hfallback⟩ := exists_of_rel_some hrec
    obtain ⟨hw, ht⟩ := hf.fallback bound' hbound'
    obtain ⟨hw', ht'⟩ := hw.substitute hg.maps hfallback
    exact ⟨hw'.mono (fun _ _ h => h) (fun _ _ h => h) hs, ht'.trans ht⟩

end Rulebook
