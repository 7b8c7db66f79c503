import Rulebook.Proofs.Names.Binders

/-!
# Hygiene

Renaming hands a supply of names and a substitution on from one declaration to the next. What comes
out is the program with its names resolved (`TypedProgram.resolved`), for every program, checked or
not: at each step the substitution follows the binders in scope (`Substitution.Follows`), and as it
puts nothing but variables for names, no assignment can fail. In the result no two binders have the
same name, and two occurrences have the same name just if they refer to the same binder
(`TypedProgram.freshen_hygienic`).
-/

namespace Rulebook

/-! ## Substitutions and scopes -/

namespace Substitution

/-- The substitution puts for a name a use of the binder that the name refers to. -/
def Follows (s : Substitution) (scope : List (Binder × ℕ)) : Prop :=
  ∀ x, s.find? x = (Binder.lookup? scope x).map Binder.use

theorem Follows.empty : Follows .empty [] := fun _ => rfl

/-- A binder that comes into scope. -/
theorem Follows.bind {s : Substitution} {scope : List (Binder × ℕ)} (hs : s.Follows scope)
    (b : Binder × ℕ) : Follows (s.bind b.1.name (Binder.use b)) (scope ++ [b]) := by
  intro x
  rw [Bindings.find?_bind, Binder.lookup?_concat]
  split
  · rfl
  · exact hs x

/-- An assignment follows its binder; it never fails. -/
theorem Follows.target {s : Substitution} {scope : List (Binder × ℕ)} (hs : s.Follows scope)
    (x : String) (line : Line) : s.target x line = .ok (Binder.rename scope x) := by
  rw [Substitution.target, hs x, Binder.rename]
  cases Binder.lookup? scope x with
  | none => rfl
  | some b => rfl

end Substitution

/-- **Substituting along the binders in scope resolves every name.** -/
theorem Expr.substitute_resolve {s : Substitution} {scope : List (Binder × ℕ)}
    (hs : s.Follows scope) (e : TypedExpr) : e.substitute s = .ok (e.resolve scope) := by
  induction e using Expr.induct with
  | lit m v => rfl
  | var m x =>
    rw [substitute, resolve, hs x]
    cases Binder.lookup? scope x with
    | none => rfl
    | some b => rfl
  | not m e ih =>
    rw [substitute, ih]
    rfl
  | call m f args ih =>
    have hargs : args.mapM (substitute s) = .ok (args.map (resolve scope)) :=
      mapM_eq_ok.2 (List.forall₂_map_right_iff.2 (List.forall₂_same.2 ih))
    rw [substitute, substituteArgs_eq_mapM, hargs, resolve, resolveArgs_eq_map]
    rfl
  | binary m op l r ihl ihr =>
    rw [substitute, ihl, ihr]
    rfl
  | cond m c t e ihc iht ihe =>
    rw [substitute, ihc, iht, ihe]
    rfl
  | assign m x e ih =>
    rw [substitute, hs.target, ih]
    rfl
  | seq m a b iha ihb =>
    rw [substitute, iha, ihb]
    rfl

/-! ## Declarations -/

/-- Renaming variables. The scope of each is what precedes it in `all`, of which `seen` is the part
that has been renamed. -/
theorem freshenVariables_resolve {all seen : List (Binder × ℕ)} {s : Substitution}
    {vs : List (VarDecl Mark)} (hs : s.Follows seen)
    (hall : all = seen ++ (vs.map VarDecl.binder).zipIdx seen.length) :
    ∃ s', s'.Follows all ∧ freshenVariables s ⟨seen.length⟩ vs =
      .ok ((vs.zipIdx seen.length).map fun v =>
        ⟨FreshNames.name v.2, v.1.init.resolve (all.take v.2), v.1.line⟩,
        s', ⟨seen.length + vs.length⟩) := by
  induction vs generalizing seen s with
  | nil =>
    refine ⟨s, ?_, rfl⟩
    rw [hall, List.map_nil, List.zipIdx_nil, List.append_nil]
    exact hs
  | cons v vs ih =>
    have hlen : (seen ++ [(v.binder, seen.length)]).length = seen.length + 1 := by simp
    have htake : all.take seen.length = seen := by rw [hall, List.take_left]
    have hinit : v.init.substitute s = .ok (v.init.resolve (all.take seen.length)) := by
      rw [htake]
      exact v.init.substitute_resolve hs
    have hall' : all = seen ++ [(v.binder, seen.length)] ++
        (vs.map VarDecl.binder).zipIdx (seen ++ [(v.binder, seen.length)]).length := by
      rw [hall, hlen, List.append_assoc, List.map_cons, List.zipIdx_cons, List.singleton_append]
    obtain ⟨s', hs', hvs⟩ := ih (hs.bind (v.binder, seen.length)) hall'
    rw [hlen, Nat.succ_add_eq_add_succ] at hvs
    exact ⟨s', hs', freshenVariables_cons.2 ⟨_, _, hinit, hvs, rfl⟩⟩

/-- Renaming the parameters of a function, which are numbered from `n` on. -/
theorem freshenParams_resolve {seen : List (Binder × ℕ)} {s : Substitution} (hs : s.Follows seen)
    (line : Line) (n : ℕ) (ps : List Param) :
    let bs := (ps.map fun p => (⟨p.name, p.ty, line⟩ : Binder)).zipIdx n
    ∃ s', s'.Follows (seen ++ bs) ∧ freshenParams line s ⟨n⟩ ps =
      (bs.map fun b => ⟨Binder.fresh b, b.1.ty⟩, s', ⟨n + ps.length⟩) := by
  induction ps generalizing seen s n with
  | nil => exact ⟨s, by simpa using hs, rfl⟩
  | cons p ps ih =>
    obtain ⟨s', hs', hps⟩ := ih (hs.bind (⟨p.name, p.ty, line⟩, n)) (n + 1)
    rw [Nat.succ_add_eq_add_succ] at hps
    refine ⟨s', ?_, freshenParams_cons.2 ⟨_, hps, rfl⟩⟩
    rwa [List.append_assoc] at hs'

/-- **Renaming a function resolves its names.** -/
theorem FunDecl.freshen_resolve {globals : List (Binder × ℕ)} {s : Substitution}
    (hs : s.Follows globals) (n : ℕ) (f : FunDecl Mark) :
    f.freshen s ⟨n⟩ = .ok (f.resolved globals n, ⟨n + f.binders.length⟩) := by
  cases hbody : f.body with
  | none =>
    simp only [freshen, resolved, hbody, binders_of_none hbody, List.length_nil, Nat.add_zero]
  | some body =>
    obtain ⟨scope, hscope, hparams⟩ := freshenParams_resolve hs f.line n f.params
    rw [← binders_of_some hbody] at hscope hparams
    have hfallback : ∀ r : Recursion Mark,
        r.fallback.substitute s = .ok (r.fallback.resolve globals) :=
      fun r => r.fallback.substitute_resolve hs
    have hlen : f.binders.length = f.params.length := by
      rw [binders_of_some hbody, List.length_map]
    simp only [freshen, resolved, hbody, hparams, hfallback, body.substitute_resolve hscope, hlen]
    cases f.recursion with
    | none => rfl
    | some r => rfl

/-- The parameters of a function get the names from number `n` on. -/
theorem FunDecl.map_name_resolved (globals : List (Binder × ℕ)) (n : ℕ) (f : FunDecl Mark) :
    (f.resolved globals n).binders.map Binder.name =
      (List.range' n f.binders.length).map FreshNames.name := by
  cases hbody : f.body with
  | none =>
    simp only [resolved, hbody, binders_of_none hbody, List.length_nil, List.range'_zero,
      List.map_nil]
  | some body =>
    have hbinders : (f.resolved globals n).binders.map Binder.name =
        (f.binders.zipIdx n).map Binder.fresh := by
      simp [resolved, hbody, binders, isProvided, Function.comp_def]
    rw [hbinders, ← List.zipIdx_map_snd, List.map_map]
    rfl

/-- What stays as it is in a function whose names are replaced: its name, its type, its line and
the depth of its recursion, and a function that the host provides altogether. -/
structure FunDecl.KeepsAllButNames (f f' : FunDecl Mark) : Prop where
  name_eq : f'.name = f.name
  ty_eq : f'.ty = f.ty
  line_eq : f'.line = f.line
  depth_eq : f'.recursion.map Recursion.depth = f.recursion.map Recursion.depth
  provided_eq : f.isProvided → f' = f

theorem FunDecl.keepsAllButNames_resolved (globals : List (Binder × ℕ)) (n : ℕ)
    (f : FunDecl Mark) : f.KeepsAllButNames (f.resolved globals n) := by
  cases hbody : f.body with
  | none =>
    have hself : f.resolved globals n = f := by simp only [resolved, hbody]
    rw [hself]
    exact ⟨rfl, rfl, rfl, rfl, fun _ => rfl⟩
  | some body =>
    have hparams : (f.resolved globals n).params.map Param.ty = f.params.map Param.ty := by
      have htys : ((f.binders.zipIdx n).map Prod.fst).map Binder.ty = f.params.map Param.ty := by
        rw [List.zipIdx_map_fst, binders_of_some hbody, List.map_map]
        rfl
      rw [← htys]
      simp only [resolved, hbody, List.map_map]
      rfl
    have hrest : (f.resolved globals n).name = f.name ∧ (f.resolved globals n).ret = f.ret ∧
        (f.resolved globals n).line = f.line := by simp only [resolved, hbody, and_self]
    obtain ⟨hname, hret, hline⟩ := hrest
    refine ⟨hname, by rw [ty, ty, hparams, hret], hline, ?_, ?_⟩
    · simp only [resolved, hbody, Option.map_map]
      rfl
    · intro hprovided
      rw [isProvided, hbody] at hprovided
      cases hprovided

/-! ## Programs -/

namespace TypedProgram

variable {p : TypedProgram}

theorem firstParam_succ {before after : List (FunDecl Mark)} {f : FunDecl Mark}
    (h : p.functions = before ++ f :: after) :
    p.firstParam (before.length + 1) = p.firstParam before.length + f.binders.length := by
  have htake : p.functions.take (before.length + 1) = before ++ [f] := by
    rw [h, List.take_length_add_append, List.take_succ_cons, List.take_zero]
  have htake' : p.functions.take before.length = before := by rw [h, List.take_left]
  rw [firstParam, firstParam, htake, htake', List.flatMap_append, List.length_append,
    List.flatMap_singleton, Nat.add_assoc]

/-- Renaming the functions that come after those of `before`. -/
theorem freshenFunctions_resolve {s : Substitution} (hs : s.Follows p.globals)
    (before : List (FunDecl Mark)) {fs : List (FunDecl Mark)} (h : p.functions = before ++ fs) :
    freshenFunctions s ⟨p.firstParam before.length⟩ fs =
      .ok ((fs.zipIdx before.length).map fun f => f.1.resolved p.globals (p.firstParam f.2)) := by
  induction fs generalizing before with
  | nil => rfl
  | cons f fs ih =>
    have hfs := ih (before ++ [f]) (by rw [h, List.append_assoc, List.singleton_append])
    rw [List.length_append, List.length_singleton, firstParam_succ h] at hfs
    rw [freshenFunctions, FunDecl.freshen_resolve hs, List.zipIdx_cons, List.map_cons]
    simp only [bind, Except.bind, hfs]
    rfl

/-- **Renaming a program resolves its names.** -/
theorem freshen_eq_resolved (p : TypedProgram) : p.freshen = .ok p.resolved := by
  have hglobals : p.globals = [] ++ (p.variables.map VarDecl.binder).zipIdx := rfl
  obtain ⟨s, hs, hvs⟩ := freshenVariables_resolve .empty hglobals
  have hfs := freshenFunctions_resolve hs [] rfl
  have hfirst : p.firstParam 0 = p.variables.length := rfl
  rw [List.length_nil, hfirst] at hfs
  rw [List.length_nil, Nat.zero_add] at hvs
  rw [freshen, FreshNames.start, hvs]
  simp only [bind, Except.bind, hfs]
  rfl

/-- What renaming keeps of the declarations. -/
theorem keepsAllButNames_resolved (p : TypedProgram) :
    p.resolved.variables.map VarDecl.line = p.variables.map VarDecl.line ∧
      List.Forall₂ FunDecl.KeepsAllButNames p.functions p.resolved.functions := by
  constructor
  · have hlines : p.resolved.variables.map VarDecl.line =
        (p.variables.zipIdx.map Prod.fst).map VarDecl.line := by
      rw [resolved, List.map_map, List.map_map]
      rfl
    rw [hlines, List.zipIdx_map_fst]
  · refine List.forall₂_map_right_iff.2 (List.forall₂_iff_get.2 ⟨by simp, fun j hj hj' => ?_⟩)
    rw [List.get_eq_getElem, List.get_eq_getElem, List.getElem_zipIdx]
    exact FunDecl.keepsAllButNames_resolved _ _ _

/-! ### Binders -/

theorem map_name_functions_resolved (before : List (FunDecl Mark)) {fs : List (FunDecl Mark)}
    (h : p.functions = before ++ fs) :
    (((fs.zipIdx before.length).map fun f =>
        f.1.resolved p.globals (p.firstParam f.2)).flatMap FunDecl.binders).map Binder.name =
      (List.range' (p.firstParam before.length) (fs.flatMap FunDecl.binders).length).map
        FreshNames.name := by
  induction fs generalizing before with
  | nil => rfl
  | cons f fs ih =>
    have hfs := ih (before ++ [f]) (by rw [h, List.append_assoc, List.singleton_append])
    rw [List.length_append, List.length_singleton, firstParam_succ h] at hfs
    rw [List.zipIdx_cons, List.map_cons, List.flatMap_cons, List.map_append,
      FunDecl.map_name_resolved, hfs, List.flatMap_cons, List.length_append, ← List.map_append,
      List.range'_append_1]

/-- **The binders get the fresh names in order.** -/
theorem map_name_binders_resolved (p : TypedProgram) :
    p.resolved.binders.map Binder.name =
      (List.range p.binders.length).map FreshNames.name := by
  have hvs : (p.resolved.variables.map VarDecl.binder).map Binder.name =
      (List.range' 0 p.variables.length).map FreshNames.name := by
    rw [← List.zipIdx_map_snd 0 p.variables, resolved, List.map_map, List.map_map, List.map_map]
    rfl
  have hfs := map_name_functions_resolved (p := p) [] rfl
  have hfirst : p.firstParam 0 = 0 + p.variables.length := (Nat.zero_add _).symm
  rw [List.length_nil, hfirst] at hfs
  rw [binders, List.map_append, hvs]
  change _ ++ List.map _ (List.flatMap _ (List.map _ _)) = _
  rw [hfs, ← List.map_append, List.range'_append_1, binders, List.length_append, List.length_map,
    List.range_eq_range']

/-! ### Occurrences -/

/-- The tree at a site, with the names resolved that are in scope there. -/
theorem at?_resolved (p : TypedProgram) (t : Site) :
    p.resolved.at? t = (p.at? t).map (Expr.resolve (p.scopeAt t)) := by
  cases t with
  | initial i => simp [at?, resolved, Function.comp_def]
  | body j =>
    cases hf : p.functions[j]? with
    | none => simp [at?, resolved, hf]
    | some f =>
      simp only [at?, resolved, List.getElem?_map, List.getElem?_zipIdx, hf, Option.map_some,
        Option.bind_some, scopeAt, locals, Option.elim_some, Nat.zero_add, FunDecl.resolved]
      cases hbody : f.body with
      | none => simp [hbody]
      | some body => rfl
  | fallback j =>
    cases hf : p.functions[j]? with
    | none => simp [at?, resolved, hf]
    | some f =>
      simp only [at?, resolved, List.getElem?_map, List.getElem?_zipIdx, hf, Option.map_some,
        Option.bind_some, scopeAt, Nat.zero_add, FunDecl.resolved]
      cases hbody : f.body with
      | none => simp [FunDecl.isProvided, hbody]
      | some body => simp [FunDecl.isProvided, hbody, Function.comp_def]

/-- Every occurrence of a name is renamed by itself. -/
theorem mention?_resolved (p : TypedProgram) (t : Site) (i : ℕ) :
    p.resolved.mention? t i = (p.mention? t i).map (Binder.rename (p.scopeAt t)) := by
  rw [mention?, mention?, at?_resolved]
  cases p.at? t with
  | none => rfl
  | some e =>
    rw [Option.map_some, Option.bind_some, Option.bind_some, Expr.mentions_resolve,
      List.getElem?_map]

/-- An occurrence that refers to a binder gets the binder's fresh name. -/
theorem mention?_resolved_of_referent? {t : Site} {i : ℕ} {b : Binder × ℕ}
    (h : p.referent? t i = some b) : p.resolved.mention? t i = some (Binder.fresh b) := by
  obtain ⟨x, hx, hb⟩ := Option.bind_eq_some_iff.1 h
  rw [mention?_resolved, hx, Option.map_some, Binder.rename_of_lookup? hb]

/-- The binders in scope are binders of the program, with their numbers. -/
theorem scopeAt_subset (p : TypedProgram) (t : Site) : p.scopeAt t ⊆ p.binders.zipIdx := by
  have hglobals : p.globals ⊆ p.binders.zipIdx := by
    rw [binders, List.zipIdx_append]
    exact List.subset_append_left _ _
  have hlocals : ∀ j, p.locals j ⊆ p.binders.zipIdx := by
    intro j
    rw [locals]
    cases hf : p.functions[j]? with
    | none => exact List.nil_subset _
    | some f =>
      obtain ⟨hj, rfl⟩ := List.getElem?_eq_some_iff.1 hf
      have hsplit : p.functions.flatMap FunDecl.binders =
          (p.functions.take j).flatMap FunDecl.binders ++
            (p.functions[j].binders ++ (p.functions.drop (j + 1)).flatMap FunDecl.binders) := by
        rw [← List.flatMap_cons, ← List.drop_eq_getElem_cons hj, ← List.flatMap_append,
          List.take_append_drop]
      intro b hb
      rw [binders, hsplit]
      simp only [List.zipIdx_append, List.mem_append]
      refine .inr (.inr (.inl ?_))
      simpa [firstParam] using hb
  cases t with
  | initial i => exact fun b hb => hglobals (List.mem_of_mem_take hb)
  | body j => exact List.append_subset.2 ⟨hglobals, hlocals j⟩
  | fallback j => exact hglobals

theorem mem_of_referent? {t : Site} {i : ℕ} {b : Binder × ℕ} (h : p.referent? t i = some b) :
    b ∈ p.binders.zipIdx := by
  obtain ⟨x, -, hb⟩ := Option.bind_eq_some_iff.1 h
  exact p.scopeAt_subset t (Binder.mem_of_lookup? hb)

/-- Two binders of a program with the same fresh name are the same. -/
theorem eq_of_fresh_eq {b b' : Binder × ℕ} (hb : b ∈ p.binders.zipIdx)
    (hb' : b' ∈ p.binders.zipIdx) (h : Binder.fresh b = Binder.fresh b') : b = b' := by
  obtain ⟨d, n⟩ := b
  obtain ⟨d', n'⟩ := b'
  obtain rfl : n = n' := FreshNames.name_injective h
  have hd := List.mem_zipIdx_iff_getElem?.1 hb
  have hd' := List.mem_zipIdx_iff_getElem?.1 hb'
  obtain rfl : d = d' := Option.some.inj (hd.symm.trans hd')
  rfl

/-- **Hygiene.** Renaming succeeds on every program and resolves its names. The binders, the
variables first and then the parameters of the functions with a body, get the names `_var0`,
`_var1`, … in that order, so no two of them have the same. In every tree the names that are in
scope there are resolved, and of the declarations nothing but names is changed. Of two occurrences
of names that refer to binders, each gets the name of its binder, so they get the same name exactly
if they refer to the same one. -/
theorem freshen_hygienic (p : TypedProgram) :
    p.freshen = .ok p.resolved ∧
      p.resolved.binders.map Binder.name = (List.range p.binders.length).map FreshNames.name ∧
      (p.resolved.binders.map Binder.name).Nodup ∧
      (∀ t, p.resolved.at? t = (p.at? t).map (Expr.resolve (p.scopeAt t))) ∧
      p.resolved.library = p.library ∧
      p.resolved.variables.map VarDecl.line = p.variables.map VarDecl.line ∧
      List.Forall₂ FunDecl.KeepsAllButNames p.functions p.resolved.functions ∧
      ∀ t i b t' i' b', p.referent? t i = some b → p.referent? t' i' = some b' →
        p.resolved.mention? t i = some (Binder.fresh b) ∧
          (p.resolved.mention? t i = p.resolved.mention? t' i' ↔ b = b') := by
  have hnames := p.map_name_binders_resolved
  obtain ⟨hlines, hkeeps⟩ := p.keepsAllButNames_resolved
  refine ⟨p.freshen_eq_resolved, hnames, ?_, p.at?_resolved, rfl, hlines, hkeeps, ?_⟩
  · rw [hnames]
    exact List.Nodup.map FreshNames.name_injective List.nodup_range
  · intro t i b t' i' b' hb hb'
    have hmention := mention?_resolved_of_referent? hb
    refine ⟨hmention, ?_⟩
    rw [hmention, mention?_resolved_of_referent? hb', Option.some.injEq]
    constructor
    · exact eq_of_fresh_eq (mem_of_referent? hb) (mem_of_referent? hb')
    · rintro rfl
      rfl

/-- A sample program with little regard for names: two variables and two parameters are called `x`,
a variable is called as if it had been renamed, `z` is not declared, and types are wrong. -/
def shadowing : TypedProgram where
  «variables» :=
    [⟨"x", .lit ⟨.int, 1⟩ (.int 1), 1⟩,
      ⟨"_var0", .var ⟨.bool, 2⟩ "x", 2⟩,
      ⟨"x", .binary ⟨.int, 3⟩ .add (.var ⟨.int, 3⟩ "x") (.var ⟨.int, 3⟩ "z"), 3⟩]
  functions :=
    [⟨"sense", [⟨"x", .int⟩], .int, none, none, 4⟩,
      ⟨"f", [⟨"x", .int⟩, ⟨"x", .bool⟩, ⟨"y", .int⟩], .void,
        some ⟨2, .assign ⟨.void, 5⟩ "x" (.var ⟨.int, 5⟩ "y")⟩,
        some (.seq ⟨.void, 6⟩ (.assign ⟨.void, 6⟩ "x" (.var ⟨.int, 6⟩ "_var0"))
          (.call ⟨.void, 7⟩ "f" [.var ⟨.int, 7⟩ "x", .var ⟨.int, 7⟩ "y"])), 5⟩]
  library := none

theorem shadowing_hygienic :
    ∃ q, shadowing.freshen = .ok q ∧
      q.binders.map Binder.name = ["_var0", "_var1", "_var2", "_var3", "_var4", "_var5"] ∧
      q.at? (.body 1) = some (.seq ⟨.void, 6⟩
        (.assign ⟨.void, 6⟩ "_var4" (.var ⟨.int, 2⟩ "_var1"))
        (.call ⟨.void, 7⟩ "f" [.var ⟨.bool, 5⟩ "_var4", .var ⟨.int, 5⟩ "_var5"])) ∧
      q.at? (.fallback 1) = some (.assign ⟨.void, 5⟩ "_var2" (.var ⟨.int, 5⟩ "y")) ∧
      q.mention? (.body 1) 0 = q.mention? (.body 1) 2 ∧
      q.mention? (.body 1) 0 ≠ q.mention? (.fallback 1) 0 := by
  obtain ⟨hok, hnames, -, htrees, -, -, -, hoccurrences⟩ := freshen_hygienic shadowing
  have hassign : shadowing.referent? (.body 1) 0 = some (⟨"x", .bool, 5⟩, 4) := rfl
  have hread : shadowing.referent? (.body 1) 2 = some (⟨"x", .bool, 5⟩, 4) := rfl
  have hbeyond : shadowing.referent? (.fallback 1) 0 = some (⟨"x", .int, 3⟩, 2) := rfl
  refine ⟨shadowing.resolved, hok, hnames, htrees (.body 1), htrees (.fallback 1), ?_, ?_⟩
  · exact (hoccurrences _ _ _ _ _ _ hassign hread).2.2 rfl
  · intro hsame
    have := (hoccurrences _ _ _ _ _ _ hassign hbeyond).2.1 hsame
    cases this

end TypedProgram

end Rulebook
