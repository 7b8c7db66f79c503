import Rulebook.Proofs.Interpretation.Program

/-!
# Renaming keeps meaning

After renaming, a program runs on a memory with other names. Two machines agree
(`Substitution.Agrees`) if a variable has on the one the value that its new name has on the other.
Scopes are linked (`Linked`) if every name stands for something like what its new name stands for;
parameters keep scopes linked, and so an expression and its renaming are alike.

* `Checked.procedure_freshen`: renaming a function keeps its procedure;
* `initVariables_freshen`: renaming the variables keeps their initial values.
-/

namespace Rulebook

variable {σ : Type} {R : Machine σ → Machine σ → Prop} {h : Host σ}

/-! ## Machines that agree -/

namespace Substitution

/-- The machines have the same world, and a name has on the one the value that the variable put
for it has on the other. -/
structure Agrees (s : Substitution) (m n : Machine σ) : Prop where
  world_eq : m.world = n.world
  find?_eq : ∀ x mark y, s.find? x = some (.var mark y) → m.memory.find? x = n.memory.find? y

/-- The substitution puts for names variables that are numbered below `n`, for no two the same. -/
structure Numbers (s : Substitution) (n : ℕ) : Prop where
  bounded : ∀ x mark y, s.find? x = some (.var mark y) → ∃ i < n, y = FreshNames.name i
  injective : ∀ x x' mark mark' y, s.find? x = some (.var mark y) →
    s.find? x' = some (.var mark' y) → x = x'

theorem Numbers.bind {s : Substitution} {n : ℕ} (hs : s.Numbers n) (x : String) (mark : Mark) :
    Numbers (s.bind x (.var mark (FreshNames.name n))) (n + 1) := by
  have old : ∀ {z : String} {mark' : Mark}, s.find? z ≠ some (.var mark' (FreshNames.name n)) := by
    intro z mark' hz
    obtain ⟨i, hi, hin⟩ := hs.bounded z mark' _ hz
    have := FreshNames.name_injective hin
    omega
  constructor
  · intro z mark' y hz
    rw [Bindings.find?_bind] at hz
    split at hz
    · cases hz
      exact ⟨n, Nat.lt_succ_self n, rfl⟩
    · obtain ⟨i, hi, rfl⟩ := hs.bounded z mark' y hz
      exact ⟨i, by omega, rfl⟩
  · intro z z' mark₁ mark₂ y hz hz'
    rw [Bindings.find?_bind] at hz hz'
    split at hz <;> split at hz'
    · next h₁ h₂ => exact h₁.trans h₂.symm
    · cases hz
      exact absurd hz' old
    · cases hz'
      exact absurd hz old
    · exact hs.injective z z' mark₁ mark₂ y hz hz'

end Substitution

theorem Host.respects_agrees (h : Host σ) (s : Substitution) :
    h.Respects s.Agrees := by
  intro f vs t m n hmn
  refine .inl ⟨_, _, _, _, EvalM.run_call h f vs t m, EvalM.run_call h f vs t n, ?_, ?_⟩
  · rw [hmn.world_eq]
  · exact ⟨by rw [hmn.world_eq], hmn.find?_eq⟩

/-- A variable is like its new name, on machines that agree. -/
theorem Substitution.Numbers.global_alike {s : Substitution} {n : ℕ} (hs : s.Numbers n)
    {x y : String} {mark : Mark} (hx : s.find? x = some (.var mark y)) (l l' : Line) :
    Reference.Alike s.Agrees (Env.global x l : Reference σ) (Env.global y l') := by
  constructor
  · intro m n hmn
    change (∃ a b m' n', (EvalM.load x l).run m = _ ∧ (EvalM.load y l').run n = _ ∧ _) ∨
      ∃ e e' m' n', (EvalM.load x l).run m = _ ∧ (EvalM.load y l').run n = _ ∧ _
    rw [EvalM.run_load, EvalM.run_load, hmn.find?_eq x mark y hx]
    cases n.memory.find? y with
    | some v => exact .inl ⟨v, v, m, n, rfl, rfl, rfl, hmn⟩
    | none => exact .inr ⟨_, _, m, n, rfl, rfl, hmn⟩
  · intro v m n hmn
    refine .inl ⟨(), (), _, _, EvalM.run_store x v m, EvalM.run_store y v n, rfl, hmn.world_eq, ?_⟩
    intro z mark' w hz
    rw [Bindings.find?_set, Bindings.find?_set]
    by_cases hzx : z = x
    · subst hzx
      obtain rfl : w = y := by
        rw [hx] at hz
        cases hz
        rfl
      rw [if_pos rfl, if_pos rfl]
    · have hwy : w ≠ y := by
        rintro rfl
        exact hzx (hs.injective z x mark' mark w hz hx)
      rw [if_neg hzx, if_neg hwy]
      exact hmn.find?_eq z mark' w hz

/-! ## Scopes -/

/-- The scopes of an expression and of its renaming: a name stands in `env` for something like what
its new name, which is numbered below `n`, stands for in `env'`. -/
def Linked (R : Machine σ → Machine σ → Prop) (s : Substitution) (scope : Scope)
    (env env' : Env σ) (n : ℕ) : Prop :=
  ∀ x t, scope.find? x = some t → t.isPrimitive → ∃ line, ∃ i < n,
    s.find? x = some (.var ⟨t, line⟩ (FreshNames.name i)) ∧
      ∀ l l', Reference.Alike R (env x l) (env' (FreshNames.name i) l')

namespace Linked

variable {s s' : Substitution} {scope scope' : Scope} {env env' : Env σ} {n k : ℕ}

theorem mono (hl : Linked R s scope env env' n)
    (hscope : ∀ x t, scope'.find? x = some t → t.isPrimitive → scope.find? x = some t)
    (hk : n ≤ k) : Linked R s scope' env env' k := by
  intro x t hx ht
  obtain ⟨line, i, hi, hfind, halike⟩ := hl x t (hscope x t hx ht) ht
  exact ⟨line, i, by omega, hfind, halike⟩

/-- A function that comes into scope needs no new name. -/
theorem bind_fn (hl : Linked R s scope env env' n) (f : String) (ts : List Ty) (t : Ty) :
    Linked R s (scope.bind f (.fn ts t)) env env' n := by
  intro x u hx hu
  rw [Bindings.find?_bind] at hx
  split at hx
  · cases hx
    cases hu
  · exact hl x u hx hu

/-- A parameter that comes into scope, with arguments that are alike. -/
theorem bind (hl : Linked R s scope env env' n) (x : String) (t : Ty) (line : Line)
    {p q : Reference σ} (hpq : Reference.Alike R p q) :
    Linked R (s.bind x (.var ⟨t, line⟩ (FreshNames.name n))) (scope.bind x t) (env.bind x p)
      (env'.bind (FreshNames.name n) q) (n + 1) := by
  intro z u hz hu
  rw [Bindings.find?_bind] at hz ⊢
  unfold Env.bind
  split at hz
  · next hzx =>
    cases hz
    refine ⟨line, n, Nat.lt_succ_self n, by rw [if_pos hzx], fun l l' => ?_⟩
    rw [if_pos hzx, if_pos rfl]
    exact hpq
  · next hzx =>
    obtain ⟨line', i, hi, hfind, halike⟩ := hl z u hz hu
    refine ⟨line', i, by omega, by rw [if_neg hzx, hfind], fun l l' => ?_⟩
    have hin : FreshNames.name i ≠ FreshNames.name n := by
      intro hin
      have := FreshNames.name_injective hin
      omega
    rw [if_neg hzx, if_neg hin]
    exact halike l l'

theorem enter {m m' : FreshNames} {line : Line} {ps ps' : List Param}
    (hl : Linked R s scope env env' m.next)
    (hps : freshenParams line s m ps = (ps', s', m')) {args args' : List (Reference σ)}
    (hlen : args.length = ps.length) (hargs : List.Forall₂ (Reference.Alike R) args args') :
    Linked R s' (scope.bindParams ps) (env.enter ps args) (env'.enter ps' args') m'.next := by
  induction ps generalizing s scope env env' m ps' args args' with
  | nil =>
    cases hps
    exact hl
  | cons p ps ih =>
    cases hargs with
    | nil => cases hlen
    | cons hp hargs =>
      rw [freshenParams, FreshNames.fresh_eq] at hps
      cases hps
      exact ih (m := ⟨m.next + 1⟩) (hl.bind p.name p.ty line hp) rfl (by simpa using hlen) hargs

/-- **An expression and its renaming are alike in scopes that are linked.** -/
theorem interpret {calls : String → List Ty → Ty → Prop} (hl : Linked R s scope env env' n)
    (hh : h.Respects R) (hscope : scope.FunctionsIn calls) {procs procs' : Procedures σ}
    (hprocs : procs.Alike R calls procs') {e r : TypedExpr} (he : e.WellTyped (.ofValues scope))
    (hr : e.substitute s = .ok r) :
    Reference.Alike R (e.interpret h env procs) (r.interpret h env' procs') := by
  refine he.interpret_substitute hh ?_ ?_ ?_ hr
  · intro x m hx
    obtain ⟨line, i, -, hfind, halike⟩ := hl x m.ty hx.1 hx.2
    rw [hfind]
    exact halike m.line line
  · intro x t line y hx hy v
    obtain ⟨line', i, -, hfind, halike⟩ := hl x t hx.1 hx.2
    rw [Substitution.target_of_var hfind, Except.ok.injEq] at hy
    subst hy
    exact (halike line line).write v
  · exact hprocs.mono hscope

end Linked

/-! ## Functions -/

/-- **Renaming a checked function keeps its procedure.** -/
theorem FunDecl.Checked.procedure_freshen {calls : String → List Ty → Ty → Prop} {scope : Scope}
    {globals : Substitution} {n n' : FreshNames} {k : ℕ} {f f' : FunDecl Mark}
    {body body' : TypedExpr} (hh : h.Respects R) (hf : f.Checked scope body)
    (hscope : scope.FunctionsIn calls) (hl : Linked R globals scope .global .global k)
    (hk : k ≤ n.next) (hps : ∀ p ∈ f.params, p.ty.isPrimitive)
    (hdistinct : ∀ ts t, ¬ calls f.name ts t) (hbody : f.body = some body)
    (hbody' : f'.body = some body') (hf' : f.freshen globals n = .ok (f', n'))
    {procs procs' : Procedures σ} (hprocs : procs.Alike R calls procs') :
    ProcedureAlike R f.params.length (f.procedure h procs body) (f'.procedure h procs' body') := by
  obtain ⟨params, s, recursion, b, hp, hrec, hb, rfl⟩ := freshen_of_some hbody hf'
  obtain rfl : b = body' := by simpa using hbody'
  have hself := hscope.ofBody (f := f) rfl rfl rfl hps
  -- the body, with procedures that are alike for the function itself too
  have step : ∀ procs₁ procs₂ : Procedures σ, procs₁.Alike R (f.withSelf calls) procs₂ →
      ProcedureAlike R f.params.length
        (fun args => body.interpret h (Env.enter .global f.params args) procs₁)
        (fun args => b.interpret h (Env.enter .global params args) procs₂) := by
    intro procs₁ procs₂ hprocs₁ ps qs hlen hpq
    have hl' : Linked R globals (if f.recursion.isSome then scope.bind f.name f.ty else scope)
        .global .global n.next := by
      split
      · exact (hl.mono (fun _ _ hx _ => hx) hk).bind_fn _ _ _
      · exact hl.mono (fun _ _ hx _ => hx) hk
    exact (hl'.enter hp hlen hpq).interpret hh hself hprocs₁ hf.typed hb
  unfold procedure
  cases hfr : f.recursion with
  | none =>
    rw [hfr] at hrec
    cases hrec
    refine step procs procs' (hprocs.mono ?_)
    rintro g ts t (hg | ⟨hsome, -⟩)
    · exact hg
    · simp [hfr] at hsome
  | some bound =>
    rw [hfr] at hrec
    cases hrec with
    | @some _ bound' hbound =>
      obtain ⟨hdepth, hfallback⟩ := hbound
      dsimp only
      rw [hdepth]
      generalize bound.depth.toNat + 1 = level
      induction level with
      | zero =>
        exact fun _ _ _ _ => hl.interpret hh hscope hprocs (hf.fallback bound hfr).1 hfallback
      | succ level ih =>
        refine step _ _ (hprocs.define ?_)
        rintro g ts t (hg | ⟨-, rfl, hty⟩)
        · exact .inl ⟨fun hgf => hdistinct ts t (hgf ▸ hg), hg⟩
        · rw [FunDecl.ty, Ty.fn.injEq] at hty
          exact .inr ⟨rfl, by rw [← hty.1, List.length_map]; exact ih⟩

/-! ## Variables -/

/-- The scopes of the variables, before and after renaming. -/
theorem Substitution.Numbers.linked {globals : Substitution} {scope : Scope} {n : ℕ}
    (hnum : globals.Numbers n) (hg : globals.Renames scope (numbered n)) :
    Linked globals.Agrees globals scope (Env.global : Env σ) .global n := by
  intro x t hx ht
  obtain ⟨line, y, hfind, -, i, hi, rfl⟩ := hg x t hx ht
  exact ⟨line, i, hi, hfind, hnum.global_alike hfind⟩

/-- A variable and its new name get the same value. -/
theorem Substitution.Agrees.store {globals : Substitution} {n : ℕ} (hnum : globals.Numbers n)
    {m k : Machine σ} (hmk : globals.Agrees m k) (x : String) (mark : Mark) (v : Value) :
    Agrees (globals.bind x (.var mark (FreshNames.name n))) { m with memory := m.memory.set x v }
      { k with memory := k.memory.set (FreshNames.name n) v } := by
  refine ⟨hmk.world_eq, fun z mark' w hz => ?_⟩
  rw [Bindings.find?_bind] at hz
  rw [Bindings.find?_set, Bindings.find?_set]
  split at hz
  · next hzx =>
    cases hz
    rw [if_pos hzx, if_pos rfl]
  · next hzx =>
    have hw : w ≠ FreshNames.name n := by
      rintro rfl
      obtain ⟨i, hi, hin⟩ := hnum.bounded z mark' _ hz
      have := FreshNames.name_injective hin
      omega
    rw [if_neg hzx, if_neg hw]
    exact hmk.find?_eq z mark' w hz

/-- **Renaming the variables keeps their initial values.** -/
theorem initVariables_freshen {calls : String → List Ty → Ty → Prop} {s s' : Scope}
    {globals globals' : Substitution} {n n' : FreshNames} {us : List (VarDecl Line)}
    {vs ws : List (VarDecl Mark)} (hs : s.FunctionsIn calls)
    (hprim : ∀ f ts t, calls f ts t → t.isPrimitive)
    (hreads : ∀ v ∈ us, ∀ x ∈ v.init.reads, ∀ ts t, ¬ calls x ts t)
    (hg : globals.Renames s (numbered n.next)) (hnum : globals.Numbers n.next)
    (hvs : checkVariables s us = .ok (vs, s'))
    (hws : freshenVariables globals n vs = .ok (ws, globals', n')) :
    globals'.Numbers n'.next ∧ ∀ m k k' : Machine σ, globals.Agrees m k →
      (initVariables h ws).run k = (.ok (), k') →
        ∃ m', (initVariables h vs).run m = (.ok (), m') ∧ globals'.Agrees m' k' := by
  induction us generalizing s globals n vs ws with
  | nil =>
    cases hvs
    cases hws
    refine ⟨hnum, fun m k k' hmk hk => ?_⟩
    cases hk
    exact ⟨m, rfl, hmk⟩
  | cons u us ih =>
    obtain ⟨init, vs', hinit, hty, hvs', rfl⟩ := checkVariables_cons.1 hvs
    obtain ⟨init', ws', hinit', hws', rfl⟩ := freshenVariables_cons.1 hws
    have hu := Expr.check_ofValues_of_reads hs hprim (hreads u List.mem_cons_self) hinit
    have hnone : Procedures.Alike globals.Agrees calls (fun _ => none : Procedures σ)
        fun _ => none := fun _ _ _ _ => .none
    have heval := ((hnum.linked hg).interpret (h.respects_agrees globals) hs hnone hu hinit').read
    rw [Expr.read_interpret, Expr.read_interpret] at heval
    obtain ⟨hnum', ih⟩ := ih (hs.bind u.name rfl)
      (fun v hv => hreads v (List.mem_cons_of_mem _ hv)) (hg.bind_next u.name u.line)
      (hnum.bind u.name _) hvs' hws'
    refine ⟨hnum', fun m k k' hmk hk => ?_⟩
    rw [initVariables, EvalM.run_bind_eq_ok] at hk
    obtain ⟨v, k₁, hv, hk⟩ := hk
    rw [EvalM.run_bind, EvalM.run_store] at hk
    obtain ⟨v', m₁, hv', rfl, hmk₁⟩ := heval.of_ok hmk hv
    obtain ⟨m', hm', hagree⟩ := ih _ _ k' (hmk₁.store hnum u.name ⟨.int, u.line⟩ v') hk
    refine ⟨m', ?_, hagree⟩
    rw [initVariables, EvalM.run_bind_eq_ok]
    refine ⟨v', m₁, hv', ?_⟩
    rw [EvalM.run_bind, EvalM.run_store]
    exact hm'

end Rulebook
