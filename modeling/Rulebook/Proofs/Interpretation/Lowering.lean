import Rulebook.Proofs.Interpretation.Renaming
import Rulebook.Proofs.Machine.Safety

/-!
# Lowering preserves meaning

A first-order program that compiles without folding does, when it is run, what the call-by-name
interpretation of the checked program does: the host ends in the same state, and every variable has
the value that its new name has (`RawProgram.compile_interpret`).
-/

namespace Rulebook

variable {σ : Type} {h : Host σ}

/-! ## Without folding -/

theorem FunDecl.prepare_false {f g : FunDecl Mark} (h : (f.prepare false).result = .ok g) :
    f.expandRecursion = .ok g := by
  obtain ⟨f', hf', ⟨-, rfl⟩ | ⟨body, body', hbody, hfold, rfl⟩⟩ := prepare_eq_ok h
  · exact hf'
  · cases hfold
    rw [hf', ← hbody]

theorem VarDecl.prepare_false {vs ws : List (VarDecl Mark)}
    (h : List.Forall₂ (fun v w => (VarDecl.prepare false v).result = .ok w) vs ws) : ws = vs := by
  induction h with
  | nil => rfl
  | cons h _ ih =>
    cases h
    rw [ih]

/-! ## New names -/

/-- A name that none of the variables has keeps what is put for it. -/
theorem find?_freshenVariables_of_not_mem {globals globals' : Substitution} {n n' : FreshNames}
    {vs ws : List (VarDecl Mark)} (h : freshenVariables globals n vs = .ok (ws, globals', n'))
    {x : String} (hx : x ∉ vs.map VarDecl.name) : globals'.find? x = globals.find? x := by
  induction vs generalizing globals n ws with
  | nil =>
    cases h
    rfl
  | cons v vs ih =>
    obtain ⟨init, ws', -, hws, rfl⟩ := freshenVariables_cons.1 h
    rw [List.map_cons, List.mem_cons, not_or] at hx
    rw [ih hws hx.2, Bindings.find?_bind, if_neg hx.1]

/-- The new name of the `i`-th variable. -/
theorem find?_freshenVariables {globals globals' : Substitution} {n n' : FreshNames}
    {vs ws : List (VarDecl Mark)} (h : freshenVariables globals n vs = .ok (ws, globals', n'))
    (hnd : (vs.map VarDecl.name).Nodup) {i : ℕ} {v : VarDecl Mark} (hv : vs[i]? = some v) :
    ∃ mark, globals'.find? v.name = some (.var mark (FreshNames.name (n.next + i))) := by
  induction vs generalizing globals n ws i with
  | nil => simp at hv
  | cons u vs ih =>
    obtain ⟨init, ws', -, hws, rfl⟩ := freshenVariables_cons.1 h
    obtain ⟨hu, hnd⟩ := List.nodup_cons.1 hnd
    cases i with
    | zero =>
      cases hv
      rw [find?_freshenVariables_of_not_mem hws hu, Bindings.find?_bind, if_pos rfl]
      exact ⟨_, rfl⟩
    | succ i =>
      have := ih hws hnd hv
      rwa [Nat.add_right_comm n.next 1 i] at this

/-! ## The entry -/

theorem TypedProgram.main?_eq {d : TypedProgram} {before after : List (FunDecl Mark)}
    {f : FunDecl Mark} (hd : d.functions = before ++ f :: after) (hf : f.body ≠ none)
    (hafter : ∀ g ∈ after, g.body = none) : d.main? = some f := by
  have hnone : after.reverse.find? (fun g => !g.isProvided) = none := by
    rw [List.find?_eq_none]
    intro g hg
    simp [FunDecl.isProvided, hafter g (List.mem_reverse.1 hg)]
  rw [main?, hd, List.reverse_append, List.reverse_cons, List.append_assoc, List.find?_append,
    hnone, Option.none_or, List.singleton_append]
  refine List.find?_cons_of_pos ?_
  rwa [FunDecl.isProvided, Bool.not_eq_true', Option.isNone_eq_false_iff,
    Option.isSome_iff_ne_none]

/-! ## Programs -/

namespace RawProgram.Accepted

variable {p : RawProgram} {lib : Option Library} {d : TypedProgram} {base s : Scope}
  {globals : Substitution} {n : FreshNames} {k : ℕ} {fs gs : List (FunDecl Mark)}

/-- The variables of an accepted program get the initial values that their new names get. -/
theorem init_lowered (hacc : p.Accepted lib d base s) {ws : List (VarDecl Mark)}
    (hws : Rulebook.freshenVariables .empty .start d.variables = .ok (ws, globals, n)) :
    globals.Numbers n.next ∧ ∀ (world : σ) (m' : Machine σ),
      (initVariables h ws).run ⟨.empty, world⟩ = (.ok (), m') →
        ∃ m, (initVariables h d.variables).run ⟨.empty, world⟩ = (.ok (), m) ∧
          globals.Agrees m m' := by
  have hempty : Substitution.Renames .empty base (numbered FreshNames.start.next) :=
    fun x t hx ht => absurd ht (hacc.base_values x t hx)
  have hnum : Substitution.Numbers .empty FreshNames.start.next := ⟨by simp, by simp⟩
  obtain ⟨hnum', hinit⟩ := initVariables_freshen (h := h) hacc.base_functions
    hacc.primitive_of_offers hacc.inits hempty hnum hacc.checkVariables_eq hws
  exact ⟨hnum', fun world m' hm' => hinit _ _ m' ⟨rfl, by simp⟩ hm'⟩

/-- The new name of the `i`-th variable of an accepted program. -/
theorem find?_globals (hacc : p.Accepted lib d base s) {ws : List (VarDecl Mark)}
    (hws : Rulebook.freshenVariables .empty .start d.variables = .ok (ws, globals, n)) {i : ℕ}
    {v : VarDecl Line} (hv : p.variables[i]? = some v) :
    ∃ mark, globals.find? v.name = some (.var mark (FreshNames.name i)) := by
  have hnames := checkVariables_names hacc.checkVariables_eq
  obtain ⟨w, hw, hname⟩ : ∃ w, d.variables[i]? = some w ∧ w.name = v.name := by
    have := congrArg (fun names => names[i]?) hnames
    simpa [hv] using this
  obtain ⟨mark, hmark⟩ := find?_freshenVariables hws (hnames ▸ hacc.variables_nodup) hw
  rw [hname, show FreshNames.start.next + i = i from Nat.zero_add i] at hmark
  exact ⟨mark, hmark⟩

/-- The functions of an accepted program do what they do after renaming and expansion. -/
theorem procedures_lowered (hacc : p.Accepted lib d base s)
    (hg : globals.Renames s (numbered k)) (hnum : globals.Numbers k) (hk : k ≤ n.next)
    (hfs : freshenFunctions globals n d.functions = .ok fs)
    (hgs : List.Forall₂ (fun f g => (f.prepare false).result = .ok g) fs gs) :
    (procedures h d.functions).Alike globals.Agrees (Declares d.functions) (procedures h gs) := by
  have hall : List.Forall₂ (FunDecl.Lowers globals n false) d.functions gs :=
    forall₂_comp (freshenFunctions_eq_ok hfs) hgs
  have hkeeps : List.Forall₂ FunDecl.Keeps d.functions gs := hall.imp fun _ _ h => h.keeps
  have htel := hacc.telescope hg hk hfs hgs
  refine procedures_alike hkeeps hacc.functions_nodup ?_
  intro i f g body body' hf hgi hbody hbody' hprocs
  obtain ⟨hps, scope, hscope, hvalues, hchecked⟩ := hacc.checked i f body hf hbody
  obtain ⟨f', ⟨m, m', hm, hfresh⟩, hprep⟩ : f.Lowers globals n false g := by
    obtain ⟨hi, rfl⟩ := List.getElem?_eq_some_iff.1 hf
    obtain ⟨hi', rfl⟩ := List.getElem?_eq_some_iff.1 hgi
    exact hall.get hi hi'
  obtain ⟨b, hb, hexp⟩ := hacc.expandable hg (Nat.le_trans hk hm) hf hbody hfresh
  -- renaming first, then expansion
  have hrenamed := hchecked.procedure_freshen (h.respects_agrees globals) hscope
    ((hnum.linked hg).mono hvalues (Nat.le_refl k)) (Nat.le_trans hk hm) hps
    (not_declares_take hacc.functions_nodup hf) hbody hb hfresh hprocs
  have hself : (procedures h (gs.take i)).Alike Eq (Declares (d.functions.take i))
      (procedures h (gs.take i)) := by
    have htel' : Telescope (gs.take i) (numbered k) (p.Provides lib) := by
      rw [← List.take_append_drop i gs] at htel
      exact htel.left
    refine (htel'.procedures_self fun g hg => ?_).mono fun x ts t hx =>
      .inl (FunDecl.Keeps.declares (List.forall₂_take i hkeeps) hx)
    obtain ⟨f, -, hf⟩ := exists_mem_left hgs (List.mem_of_mem_take hg)
    exact FunDecl.prepare_recursion hf
  obtain ⟨-, b', hb', hexpanded⟩ := hexp.procedure_expand (h := h) hself hb
    (FunDecl.prepare_false hprep)
  obtain rfl : b' = body' := by simpa [hb'] using hbody'
  exact fun ps qs hlen hpq => (hrenamed ps qs hlen hpq).trans (hexpanded qs)

/-- The entry of an accepted program does what the main expression does. -/
theorem entry_lowered (hacc : p.Accepted lib d base s) (hg : globals.Renames s (numbered k))
    (hnum : globals.Numbers k) (hk : k ≤ n.next)
    (hfs : freshenFunctions globals n d.functions = .ok fs)
    (hgs : List.Forall₂ (fun f g => (f.prepare false).result = .ok g) fs gs) {main : TypedExpr}
    (hmain : inlineAll gs = .ok main) :
    ∃ f proc, d.main? = some f ∧ procedures h d.functions f.name = some proc ∧
      EvalM.Alike globals.Agrees Eq (proc []).read (main.eval h) := by
  have hprocs := hacc.procedures_lowered (h := h) hg hnum hk hfs hgs
  have hkeeps : List.Forall₂ FunDecl.Keeps d.functions gs :=
    (forall₂_comp (freshenFunctions_eq_ok hfs) hgs).imp
      fun _ _ (hfg : FunDecl.Lowers globals n false _ _) => hfg.keeps
  obtain ⟨before, g, after, hsplit, hbody, hafter, hparams, proc', hproc', hinlined⟩ :=
    (hacc.telescope hg hk hfs hgs).interpret_inlineAll (h := h)
      (fun g hg => by
        obtain ⟨f, -, hf⟩ := exists_mem_left hgs hg
        exact FunDecl.prepare_recursion hf) hmain
  -- the same position in the checked program
  rw [hsplit] at hkeeps
  obtain ⟨before₀, f, after₀, hd, hfg, hafter₀⟩ := exists_split hkeeps
  have hf : f.body ≠ none := fun hnone => hbody (by simpa [hnone] using hfg.isSome_eq)
  have hentry : d.main? = some f := by
    refine TypedProgram.main?_eq hd hf fun f' hf' => ?_
    obtain ⟨g', hg', hkeep⟩ := exists_mem_right hafter₀ hf'
    exact hkeep.body_eq_none (hafter g' hg')
  have hrel := hprocs f.name _ _ ⟨f, by simp [hd], rfl, rfl⟩
  have hlen : (f.params.map Param.ty).length = 0 := by rw [← hfg.signature.1, hparams]; rfl
  rw [← hfg.name_eq, hproc', hfg.name_eq, hlen] at hrel
  obtain ⟨proc, hproc, halike⟩ := exists_of_rel_some hrel
  refine ⟨f, proc, hentry, hproc, ?_⟩
  have := ((halike [] [] rfl .nil).trans hinlined).read
  rwa [Expr.read_interpret] at this

end RawProgram.Accepted

/-- **Lowering preserves meaning.** A first-order program that compiles without folding, with a host
that answers by values of the types asked for, does what the call-by-name interpretation of the
checked program does: both succeed, the host ends in the same state, and the `i`-th variable has
the value of the `i`-th new name. -/
theorem RawProgram.compile_interpret {p : RawProgram} {lib : Option Library} {q : LoweredProgram}
    (hfo : p.FirstOrder lib) (hq : (p.compile lib { fold := false }).result = .ok q) {world : σ}
    (hh : h.AnswersFrom (p.Provides lib) world) :
    ∃ d, p.check lib = .ok d ∧ ∃ m m' w, EvalM.fromEmpty (d.interpret h) world = (.ok m, w) ∧
      q.run h world = (.ok m', w) ∧
      ∀ (i : ℕ) (v : VarDecl Line), p.variables[i]? = some v →
        ∃ k, m.find? v.name = some (.int k) ∧ m'.find? (FreshNames.name i) = some (.int k) := by
  obtain ⟨good, hworld, hh⟩ := hh
  obtain ⟨hwf, -, hlines⟩ := compile_wellFormed hfo hq
  obtain ⟨d, d', functions, main, hd, hd', hfuns, hmain, hvars, hmain', -⟩ := compile_eq_ok hq
  obtain ⟨base, s, hacc⟩ := check_accepted hfo hd
  obtain ⟨globals, n, hws, hfs, -⟩ := TypedProgram.freshen_eq_ok hd'
  obtain ⟨hg, -, -, -⟩ := hacc.freshenVariables hws
  obtain ⟨hnum, hinit⟩ := hacc.init_lowered (h := h) hws
  obtain ⟨f, proc, hentry, hproc, halike⟩ := hacc.entry_lowered (h := h) hg hnum (Nat.le_refl _)
    hfs hfuns hmain
  -- the run of the compiled program, which succeeds, in its two parts
  obtain ⟨v, m', hrun, hready⟩ := hwf.run_ends (hh.mono fun _ _ _ => .inl) hh hworld
  obtain ⟨_, m₁', hrun₁, hrun₂⟩ := EvalM.run_bind_eq_ok.1 hrun
  rw [VarDecl.prepare_false hvars] at hrun₁
  cases hmain'
  obtain ⟨m₁, hm₁, hagree₁⟩ := hinit world m₁' hrun₁
  obtain ⟨_, m, hm, rfl, hagree⟩ := halike.of_ok hagree₁ hrun₂
  have hinterpret : (d.interpret h).run ⟨.empty, world⟩ = (.ok (), m) := by
    rw [TypedProgram.interpret, EvalM.run_bind_eq_ok]
    refine ⟨(), m₁, hm₁, ?_⟩
    rw [hentry, Option.bind_some, hproc, EvalM.run_bind_eq_ok]
    exact ⟨_, m, hm, rfl⟩
  refine ⟨d, hd, m.memory, m'.memory, m.world, ?_, ?_, fun i u hu => ?_⟩
  · rw [EvalM.fromEmpty, hinterpret]
  · rw [LoweredProgram.run, EvalM.fromEmpty, hrun, hagree.world_eq]
  · obtain ⟨mark, hmark⟩ := hacc.find?_globals hws hu
    have hi : i < q.variables.length := by
      have := congrArg List.length hlines
      rw [List.length_map, List.length_map] at this
      rw [this]
      exact (List.getElem?_eq_some_iff.1 hu).1
    obtain ⟨value, hvalue, hty⟩ := (hready.memory (FreshNames.name i) .int).1 ⟨rfl, i, hi, rfl⟩
    obtain ⟨k, rfl⟩ := Value.ty_eq_int.1 hty
    exact ⟨k, (hagree.find?_eq _ mark _ hmark).trans hvalue, hvalue⟩

theorem RawProgram.counter_interpret :
    ∃ q d, (counter.compile (some counterLibrary) { fold := false }).result = .ok q ∧
      counter.check (some counterLibrary) = .ok d ∧
      ∃ m m' w, EvalM.fromEmpty (d.interpret Recorder.host) (.start ⟨[("sense", .int 5)]⟩) =
          (.ok m, w) ∧
        q.run Recorder.host (.start ⟨[("sense", .int 5)]⟩) = (.ok m', w) ∧
        (∃ k, m.find? "count" = some (.int k) ∧ m'.find? "_var0" = some (.int k)) ∧
        ∃ k, m.find? "limit" = some (.int k) ∧ m'.find? "_var1" = some (.int k) := by
  obtain ⟨q, hq⟩ : ∃ q, (counter.compile (some counterLibrary) { fold := false }).result = .ok q :=
    ⟨_, by rfl⟩
  obtain ⟨d, hd, m, m', w, hm, hm', hvalues⟩ := compile_interpret (by decide) hq counter_answers
  exact ⟨q, d, hq, hd, m, m', w, hm, hm', hvalues 0 _ rfl, hvalues 1 _ rfl⟩

end Rulebook
