import Rulebook.Proofs.Kinds.Values

/-!
# Kinds and captured names

Folding fails if it meets a literal of the wrong kind. That a program was checked does not keep it
from that: there are two ways in which a name is captured after checking, and then anything can come
to stand where a truth value is due (`RawProgram.compile_clashes`).

* A body calls a parameter that hides a function with a body. The call keeps its name, and the
  function is inlined.
* A body reads a function that has the name of a fresh variable. It is taken for a parameter.

A program in which neither happens (`RawProgram.CaptureFree`), such as every first-order one, is
either compiled or rejected (`RawProgram.CaptureFree.compile_or_reject`).
-/

namespace Rulebook

/-! ## Captured names -/

/-- The names of the functions that have a body. -/
def definedNames {μ : Type} (fs : List (FunDecl μ)) : List String :=
  (fs.filter fun f => f.body.isSome).map FunDecl.name

/-- No name is captured when the program is lowered: no parameter that is called hides a function
with a body, and no function that is read inside a function has a fresh name. -/
structure RawProgram.CaptureFree (p : RawProgram) (lib : Option Library) : Prop where
  calls : ∀ (i : ℕ) (f : FunDecl Line), p.functions[i]? = some f → ∀ body ∈ f.body,
    ∀ q ∈ f.params, ¬ q.ty.isPrimitive → q.name ∈ body.callees →
      q.name ∉ definedNames (f.inSight (p.functions.take i))
  bodies : ∀ f ∈ p.functions, ∀ body ∈ f.body, ∀ x ∈ body.reads, x ∈ p.functionNames lib →
    x ∉ f.params.map Param.name → ∀ n, x ≠ FreshNames.name n
  fallbacks : ∀ f ∈ p.functions, ∀ bound ∈ f.recursion, ∀ x ∈ bound.fallback.reads,
    x ∈ p.functionNames lib → ∀ n, x ≠ FreshNames.name n

/-- In a first-order program there is nothing to capture. -/
theorem RawProgram.FirstOrder.captureFree {p : RawProgram} {lib : Option Library}
    (h : p.FirstOrder lib) : p.CaptureFree lib where
  calls _ f hf _ _ q hq hty := absurd ((h.types f (List.mem_of_getElem? hf)).2 q hq) hty
  bodies f hf body hbody x hx hname hparam :=
    absurd hname ((h.bodies f hf body hbody x hx).resolve_left hparam)
  fallbacks f hf bound hbound x hx hname := absurd hname (h.fallbacks f hf bound hbound x hx)

theorem definedNames_append {μ : Type} (fs gs : List (FunDecl μ)) :
    definedNames (fs ++ gs) = definedNames fs ++ definedNames gs := by
  simp [definedNames]

theorem definedNames_singleton {μ ν : Type} {f : FunDecl μ} {g : FunDecl ν}
    (hname : g.name = f.name) (hbody : g.body.isSome = f.body.isSome) :
    definedNames [g] = definedNames [f] := by
  simp only [definedNames, List.filter_cons, List.filter_nil, hbody]
  split <;> simp [hname]

/-- Checking leaves a function its name, and its body if it has one. -/
theorem checkFunctions_definedNames {s : Scope} {fs : List (FunDecl Line)}
    {gs : List (FunDecl Mark)} (h : checkFunctions s fs = .ok gs) (i : ℕ) :
    definedNames (gs.take i) = definedNames (fs.take i) := by
  induction fs generalizing s gs i with
  | nil =>
    cases h
    simp [definedNames]
  | cons f fs ih =>
    simp only [checkFunctions, bind_eq_ok, pure_eq_ok] at h
    obtain ⟨g, hg, gs, hgs, rfl⟩ := h
    cases i with
    | zero => rfl
    | succ i =>
      obtain ⟨hname, -, -, -, hbody⟩ := FunDecl.check_eq_ok hg
      rw [List.take_succ_cons, List.take_succ_cons, ← List.singleton_append,
        ← List.singleton_append (x := f), definedNames_append, definedNames_append,
        definedNames_singleton hname (isSome_of_rel hbody), ih hgs]

theorem Fits.of_not_mem {fs : List (FunDecl Mark)} {f : String} {ts : List Ty} {t : Ty}
    (h : f ∉ definedNames fs) : Fits fs f ts t := by
  intro g hg hbody hname
  refine absurd (List.mem_map.2 ⟨g, List.mem_filter.2 ⟨hg, ?_⟩, hname⟩) h
  exact Option.isSome_iff_ne_none.2 hbody

/-! ## Checked programs -/

namespace RawProgram.Checks

variable {p : RawProgram} {lib : Option Library} {d : TypedProgram}
  {provided functions : List (FunDecl Mark)} {s : Scope}

/-- A function has the name of no variable. -/
theorem name_not_mem (h : p.Checks lib d provided functions s) {f : FunDecl Mark}
    (hf : f ∈ d.functions) :
    f.name ∉ p.variables.map VarDecl.name ∧ f.name ∈ p.functionNames lib := by
  have hnodup := h.declarations_nodup
  simp only [declarations, List.map_append, List.map_map, Function.comp_def] at hnodup
  obtain ⟨hleft, -, hright⟩ := List.nodup_append.1 hnodup
  obtain ⟨-, -, hprovided⟩ := List.nodup_append.1 hleft
  rw [h.functions_eq] at hf
  rcases List.mem_append.1 hf with hf | hf
  · refine ⟨fun hmem => hprovided f.name (List.mem_map_of_mem hf) f.name hmem rfl, ?_⟩
    exact mem_functionNames_of_offers (h.stubs.declares_iff.1 ⟨f, hf, rfl, rfl⟩)
  · have hname : f.name ∈ p.functions.map FunDecl.name := by
      rw [← checkFunctions_names h.checkFunctions_eq]
      exact List.mem_map_of_mem hf
    refine ⟨fun hmem => ?_, List.mem_append_right _ hname⟩
    exact hright f.name (List.mem_append_right _ hmem) f.name hname rfl

/-- The variables after renaming: their names are covered, those of functions are kept. -/
theorem freshenVariables (h : p.Checks lib d provided functions s) {ws : List (VarDecl Mark)}
    {globals : Substitution} {n : FreshNames}
    (hws : freshenVariables .empty .start d.variables = .ok (ws, globals, n)) :
    globals.Covers s (numbered n.next) (· ∈ p.functionNames lib) ∧
      (∀ w ∈ ws, ∃ Γ : Context, w.init.WellTyped Γ) ∧
      ∀ f ∈ d.functions, globals.find? f.name = none := by
  have hempty : Substitution.Covers .empty .empty (numbered FreshNames.start.next)
      (· ∈ p.functionNames lib) := fun x t hx => by simp at hx
  have hbase : Substitution.Covers .empty (.bindFunctions .empty provided)
      (numbered FreshNames.start.next) (· ∈ p.functionNames lib) := by
    refine hempty.bindFunctions fun f hf => ⟨by simp, (h.name_not_mem ?_).2⟩
    rw [h.functions_eq]
    exact List.mem_append_left _ hf
  obtain ⟨hcovers, hinits, hfind⟩ := freshenVariables_covers hbase h.checkVariables_eq hws
  refine ⟨hcovers, hinits, fun f hf => ?_⟩
  rw [hfind _ (h.name_not_mem hf).1]
  simp

/-- What the body of a function calls fits the functions in sight, unless a parameter that it calls
hides one of them. -/
theorem fits_of_find? (h : p.Checks lib d provided functions s) {i : ℕ} {g : FunDecl Mark}
    (hg : d.functions[i]? = some g) {scope : Scope}
    (hscope : scope.FunctionsIn (Declares (d.functions.take i))) {f : String} {ts : List Ty} {t : Ty}
    (hparam : ∀ q ∈ g.params, ¬ q.ty.isPrimitive → q.name = f →
      f ∉ definedNames (g.inSight (d.functions.take i)))
    (hf : (scope.ofBody g).find? f = some (.fn ts t)) :
    Fits (g.inSight (d.functions.take i)) f ts t := by
  obtain ⟨hi, hgi⟩ := List.getElem?_eq_some_iff.1 hg
  have hnd : ((g.inSight (d.functions.take i)).map FunDecl.name).Nodup := by
    refine h.functions_nodup.sublist (List.Sublist.map _ ?_)
    unfold FunDecl.inSight
    split
    · rw [← hgi, ← List.take_succ_eq_append_getElem hi]
      exact List.take_sublist _ _
    · exact List.take_sublist _ _
  rcases Scope.find?_bindParams hf with ⟨q, hq, hname, hty⟩ | ⟨-, hf⟩
  · exact .of_not_mem (hparam q hq (by rw [hty]; nofun) hname)
  · refine .of_declares hnd ?_
    unfold FunDecl.inSight
    split at hf
    · next hrec =>
      rw [if_pos hrec, declares_concat]
      rw [Bindings.find?_bind] at hf
      split at hf
      · next hname =>
        cases hf
        exact .inr ⟨hname.symm, rfl⟩
      · exact .inl (hscope f ts t hf)
    · next hrec =>
      rw [if_neg hrec]
      exact hscope f ts t hf

/-- Checking changes nothing about which functions in sight have a body. -/
theorem definedNames_inSight (h : p.Checks lib d provided functions s) {j : ℕ} {f : FunDecl Line}
    {g : FunDecl Mark} {scope : Scope} (hcheck : f.check scope = .ok g) :
    definedNames (g.inSight (provided ++ functions.take j)) =
      definedNames (f.inSight (p.functions.take j)) := by
  obtain ⟨hname, -, -, hrec, hbody⟩ := FunDecl.check_eq_ok hcheck
  have hprovided : definedNames provided = [] := by
    simp only [definedNames, List.map_eq_nil_iff, List.filter_eq_nil_iff]
    intro k hk
    simp [h.stubs.body_eq_none hk]
  have hbefore := checkFunctions_definedNames h.checkFunctions_eq j
  unfold FunDecl.inSight
  rw [isSome_of_rel hrec]
  split
  · simp only [definedNames_append, hprovided, hbefore, List.nil_append,
      definedNames_singleton hname (isSome_of_rel hbody)]
  · simp only [definedNames_append, hprovided, hbefore, List.nil_append]

/-- A function with a body, as checked in the scope of functions before it. -/
theorem uncaptured (h : p.Checks lib d provided functions s) (hfree : p.CaptureFree lib) {i : ℕ}
    {g : FunDecl Mark} {body : TypedExpr} (hg : d.functions[i]? = some g)
    (hbody : g.body = some body) :
    ∃ before, (∀ f ∈ before, f ∈ d.functions) ∧
      (s.bindFunctions before).FunctionsIn (Fits (d.functions.take i)) ∧
      g.Uncaptured (s.bindFunctions before) (· ∈ p.functionNames lib)
        (Fits (g.inSight (d.functions.take i))) body := by
  obtain ⟨j, f, hf, htake, hcheck⟩ := h.check_of_body hg (by simp [hbody])
  obtain ⟨-, hparams, hret, hrec, hb⟩ := FunDecl.check_eq_ok hcheck
  obtain ⟨b, hfb, hcheckb, hbt⟩ := exists_of_rel_some (hbody ▸ hb)
  have hfp := List.mem_of_getElem? hf
  have hscope : (s.bindFunctions (functions.take j)).FunctionsIn (Declares (d.functions.take i)) := by
    rw [htake]
    exact h.functionsIn.bindFunctions
  refine ⟨functions.take j, ?_, ?_, ?_, hbt.trans hret.symm, ?_, ?_, ?_⟩
  · intro k hk
    rw [h.functions_eq]
    exact List.mem_append_right _ (List.mem_of_mem_take hk)
  · intro k ts t hk
    exact .of_declares (h.functions_nodup.sublist ((List.take_sublist i _).map _))
      (hscope k ts t hk)
  · rw [Scope.ofBody_of_check hcheck]
    exact Expr.check_wellTyped hcheckb
  · intro x hx hfun hmem
    rw [Expr.reads_of_check hcheckb] at hx
    rw [hparams] at hmem
    exact hfree.bodies f hfp b hfb x hx hfun hmem
  · intro k hk ts t hkt
    refine h.fits_of_find? hg hscope (fun q hq hty hqk => ?_) hkt
    rw [Expr.callees_of_check hcheckb, ← hqk] at hk
    rw [← hqk, htake, h.definedNames_inSight hcheck]
    exact hfree.calls j f hf b hfb q (hparams ▸ hq) hty hk
  · intro bound hbound
    obtain ⟨r, hr, hcheckr, hrt⟩ := exists_of_rel_some (hbound ▸ hrec)
    refine ⟨Expr.check_wellTyped hcheckr, hrt.trans hret.symm, fun x hx hfun => ?_⟩
    rw [Expr.reads_of_check hcheckr] at hx
    exact hfree.fallbacks f hfp r hr x hx hfun

end RawProgram.Checks

/-! ## Outcomes without a clash -/

/-- The computation does not fail for a literal of the wrong kind. -/
def NoClash {α : Type} (x : Except Failure α) : Prop := ∀ c, x ≠ .error (.clash c)

namespace NoClash

variable {α β : Type}

theorem ok (a : α) : NoClash (.ok a) := nofun

theorem bind {x : Except Failure α} {f : α → Except Failure β} (hx : NoClash x)
    (hf : ∀ a, x = .ok a → NoClash (f a)) : NoClash (x >>= f) := by
  cases x with
  | ok a => exact hf a rfl
  | error e =>
    intro c hc
    cases hc
    exact hx c rfl

theorem mapM {f : α → Except Failure β} {as : List α} (h : ∀ a ∈ as, NoClash (f a)) :
    NoClash (as.mapM f) := by
  induction as with
  | nil => exact ok []
  | cons a as ih =>
    rw [List.mapM_cons]
    exact (h a List.mem_cons_self).bind fun b _ =>
      (ih fun c hc => h c (List.mem_cons_of_mem _ hc)).bind fun bs _ => ok (b :: bs)

theorem ofExcept (x : Except Defect α) : NoClash (Report.ofExcept x).result := by
  cases x <;> exact nofun

/-- Folding a well-typed expression does not clash. -/
theorem foldIf {Γ : Context} {e : TypedExpr} (h : e.WellTyped Γ) (fold : Bool) :
    NoClash (Report.foldIf fold e).result := by
  cases fold with
  | false => exact ok e
  | true =>
    obtain ⟨r, hr, -⟩ := h.foldConstants
    rw [Report.foldIf_true_eq_ok.2 hr]
    exact ok r

/-- Without a clash there is a result or a defect. -/
theorem ok_or_rejected {x : Except Failure α} (h : NoClash x) :
    (∃ a, x = .ok a) ∨ ∃ e, x = .error (.rejected e) := by
  cases x with
  | ok a => exact .inl ⟨a, rfl⟩
  | error e =>
    cases e with
    | rejected e => exact .inr ⟨e, rfl⟩
    | clash c => exact absurd rfl (h c)

end NoClash

/-! ## Lowering -/

/-- A function is prepared without a clash if its expanded body is well typed. -/
theorem FunDecl.prepare_noClash {f : FunDecl Mark} (fold : Bool)
    (h : ∀ g body, f.expandRecursion = .ok g → g.body = some body →
      ∃ Γ : Context, body.WellTyped Γ) : NoClash (f.prepare fold).result := by
  rw [FunDecl.prepare, Report.result_bind]
  refine (NoClash.ofExcept _).bind fun g hg => ?_
  cases hbody : g.body with
  | none => exact .ok g
  | some body =>
    obtain ⟨Γ, hw⟩ := h g body (Report.ofExcept_eq_ok.1 hg) hbody
    rw [Report.result_bind]
    exact (NoClash.foldIf hw fold).bind fun b _ => .ok _

/-- Preparing a function whose calls fit leaves a function whose calls fit. -/
theorem FunDecl.Spliceable.prepare {names : String → Ty → Prop} {fs : List (FunDecl Mark)}
    {f g : FunDecl Mark} {fold : Bool} {body : TypedExpr}
    (hexpand : ∀ k, f.expandRecursion = .ok k →
      ∃ body', k.body = some body' ∧ k.Spliceable names (Fits fs) body')
    (hg : (f.prepare fold).result = .ok g) (hbody : g.body = some body) :
    g.Spliceable names (Fits fs) body := by
  obtain ⟨k, hk, hg⟩ := prepare_eq_ok hg
  obtain ⟨b, hb, hspl⟩ := hexpand k hk
  obtain ⟨hnone, -⟩ | ⟨b', r, hb', hr, rfl⟩ := hg
  · rw [hb] at hnone
    cases hnone
  · obtain rfl : b = b' := by simpa [hb] using hb'
    obtain rfl : r = body := by simpa using hbody
    obtain ⟨hw, ht⟩ := Report.foldIf_wellTyped hspl.typed hr
    exact ⟨⟨hspl.nodup, hspl.fresh⟩, hw, ht.trans hspl.ty_eq⟩

namespace RawProgram.Checks

variable {p : RawProgram} {lib : Option Library} {d : TypedProgram}
  {provided functions : List (FunDecl Mark)} {s : Scope}

/-- The recursion of a renamed function can be expanded, and leaves calls that fit the functions
before it. -/
theorem expand (h : p.Checks lib d provided functions s) (hfree : p.CaptureFree lib)
    {globals : Substitution} {n : FreshNames} {fs : List (FunDecl Mark)} {k : ℕ}
    (hcovers : globals.Covers s (numbered k) (· ∈ p.functionNames lib))
    (hnone : ∀ f ∈ d.functions, globals.find? f.name = none) (hk : k ≤ n.next)
    (hfs : freshenFunctions globals n d.functions = .ok fs) {i : ℕ} {f g : FunDecl Mark}
    (hf : fs[i]? = some f) (hbody : f.body ≠ none) (hg : f.expandRecursion = .ok g) :
    ∃ body, g.body = some body ∧ g.Spliceable (outside k) (Fits (fs.take i)) body := by
  have hfresh := freshenFunctions_eq_ok hfs
  have hkeeps : List.Forall₂ FunDecl.Keeps d.functions fs := by
    refine hfresh.imp ?_
    rintro f f' ⟨m, m', -, hf⟩
    obtain ⟨hname, hty, -, hsome, -⟩ := FunDecl.freshen_signature hf
    exact ⟨hname, hty, hsome⟩
  have hbefore := List.forall₂_take i hkeeps
  obtain ⟨hi, rfl⟩ := List.getElem?_eq_some_iff.1 hf
  have hi' : i < d.functions.length := by rwa [hfresh.length_eq]
  obtain ⟨m, m', hm, hfm⟩ := hfresh.get hi' hi
  have hkeep := hkeeps.get hi' hi
  obtain ⟨b, hb⟩ := Option.ne_none_iff_exists'.1 (hkeep.body_ne_none hbody)
  have hmem := List.getElem_mem hi'
  obtain ⟨before, hsub, hscope, hunc⟩ :=
    h.uncaptured hfree (List.getElem?_eq_getElem hi') hb
  have hcov := hcovers.bindFunctions fun f hf =>
    ⟨hnone f (hsub f hf), (h.name_not_mem (hsub f hf)).2⟩
  obtain ⟨hrec, b', hb', hspl, hfallback⟩ := hunc.freshen hcov (Nat.le_trans hk hm)
    (hnone _ hmem) (h.name_not_mem hmem).2 hscope hb hfm
  refine (hspl.mono fun _ _ _ hx => hx.of_keeps_inSight hbefore hkeep hrec).expand hb' ?_ hg
  intro bound hbound
  obtain ⟨hw, ht⟩ := hfallback bound hbound
  exact ⟨hw.mono_calls fun _ _ _ hx => hx.of_keeps hbefore, ht⟩

/-- **Lowering a checked program in which no name is captured does not clash.** -/
theorem lower_noClash (h : p.Checks lib d provided functions s) (hfree : p.CaptureFree lib)
    (fold : Bool) : NoClash (d.lower fold).result := by
  simp only [TypedProgram.lower, Report.result_bind, Report.result_mapM, Report.result_pure]
  refine (NoClash.ofExcept _).bind fun d' hd' => ?_
  obtain ⟨globals, n, hws, hfs, -⟩ := TypedProgram.freshen_eq_ok (Report.ofExcept_eq_ok.1 hd')
  obtain ⟨hcovers, hinits, hnone⟩ := h.freshenVariables hws
  have hexpand : ∀ {i : ℕ} {f g : FunDecl Mark}, d'.functions[i]? = some f → f.body ≠ none →
      f.expandRecursion = .ok g → ∃ body, g.body = some body ∧
        g.Spliceable (outside n.next) (Fits (d'.functions.take i)) body := fun hf hbody hg =>
    h.expand hfree hcovers hnone (Nat.le_refl _) hfs hf hbody hg
  have hprepare : ∀ f ∈ d'.functions, NoClash (f.prepare fold).result := by
    intro f hf
    obtain ⟨i, hi⟩ := List.mem_iff_getElem?.1 hf
    refine FunDecl.prepare_noClash fold fun g body hg hbody => ?_
    have hfb := (FunDecl.expandRecursion_keeps hg).body_ne_none (by simp [hbody])
    obtain ⟨b, hb, hspl⟩ := hexpand hi hfb hg
    obtain rfl : b = body := by simpa [hb] using hbody
    exact ⟨_, hspl.typed⟩
  refine (NoClash.mapM hprepare).bind fun gs hgs => ?_
  have hgs := mapM_eq_ok.1 hgs
  have hfitting : Fitting gs (outside n.next) := by
    intro i g body hg hbody
    obtain ⟨hi, rfl⟩ := List.getElem?_eq_some_iff.1 hg
    have hi' : i < d'.functions.length := by rwa [hgs.length_eq]
    have hprep := hgs.get hi' hi
    have hfb := (FunDecl.prepare_keeps hprep).body_ne_none (by simp [hbody])
    have hspl := FunDecl.Spliceable.prepare
      (fun k hk => hexpand (List.getElem?_eq_getElem hi') hfb hk) hprep hbody
    have hkeeps := List.forall₂_take i (hgs.imp fun _ _ hf => FunDecl.prepare_keeps hf)
    exact hspl.mono fun _ _ _ hx => hx.of_keeps hkeeps
  refine (NoClash.ofExcept _).bind fun main hmain => ?_
  have hmain := hfitting.inlineAll (Report.ofExcept_eq_ok.1 hmain)
  refine (NoClash.mapM fun w hw => ?_).bind fun vs _ => ?_
  · obtain ⟨Γ, hΓ⟩ := hinits w hw
    rw [VarDecl.prepare, Report.result_bind]
    exact (NoClash.foldIf hΓ fold).bind fun e _ => .ok _
  · exact (NoClash.foldIf hmain fold).bind fun e _ => .ok _

end RawProgram.Checks

namespace RawProgram

/-- **A program in which no name is captured is compiled or rejected.** -/
theorem CaptureFree.compile_or_reject {p : RawProgram} {lib : Option Library}
    (h : p.CaptureFree lib) (options : Options) :
    (∃ q, (p.compile lib options).result = .ok q) ∨
      ∃ e, (p.compile lib options).result = .error (.rejected e) := by
  refine NoClash.ok_or_rejected ?_
  rw [compile, Report.result_bind]
  refine (NoClash.ofExcept _).bind fun d hd => ?_
  obtain ⟨provided, functions, s, hchecks⟩ := check_eq_ok (Report.ofExcept_eq_ok.1 hd)
  exact hchecks.lower_noClash h options.fold

/-- A sample program, in which a function is passed to `apply` and called there by the name of a
parameter. There is another function, called `name`. -/
def applying (name : String) : RawProgram where
  «variables» := []
  functions :=
    [⟨"h", [], .bool, none, none, 1⟩, ⟨name, [], .int, none, some (.lit 2 (.int 5)), 2⟩,
      ⟨"apply", [⟨"g", .fn [] .bool⟩, ⟨"b", .bool⟩], .int, none,
        some (.cond 3 (.var 3 "b") (.lit 3 (.int 2))
          (.cond 3 (.call 3 "g" []) (.lit 3 (.int 1)) (.lit 3 (.int 0)))), 3⟩,
      ⟨"main", [], .int, none,
        some (.call 4 "apply" [.var 4 "h", .lit 4 (.bool true)]), 4⟩]

/-- A sample program, in which two functions are compared inside a function with two parameters. -/
def comparing (f g : String) : RawProgram where
  «variables» := []
  functions :=
    [⟨f, [], .int, none, none, 1⟩, ⟨g, [], .int, none, none, 2⟩,
      ⟨"same", [⟨"b", .bool⟩, ⟨"n", .int⟩], .bool, none,
        some (.binary 3 .eq (.var 3 f) (.var 3 g)), 3⟩,
      ⟨"main", [], .bool, none,
        some (.call 4 "same" [.lit 4 (.bool true), .lit 4 (.int 5)]), 4⟩]

theorem applying_captureFree : (applying "k").CaptureFree none := by
  have hnames : ∀ x ∈ (applying "k").functionNames none, ∀ n, x ≠ FreshNames.name n := by
    have hfirst : ∀ x ∈ (applying "k").functionNames none, x.toList.head? ≠ some '_' := by decide
    rintro x hx n rfl
    exact hfirst _ hx (by simp [FreshNames.name])
  refine ⟨?_, fun _ _ _ _ x _ hx _ => hnames x hx, fun _ _ _ _ x _ hx => hnames x hx⟩
  intro i f hf body hbody q hq hty _
  rcases i with _ | _ | _ | _ | i <;> cases hf <;> cases hbody
  · cases hq
  · simp only [List.mem_cons, List.not_mem_nil, or_false] at hq
    rcases hq with rfl | rfl
    · decide
    · exact absurd rfl hty
  · cases hq

theorem applying_compile :
    ∃ q, ((applying "k").compile none {}).result = .ok q ∧ q.main = .lit ⟨.int, 3⟩ (.int 2) := by
  rcases applying_captureFree.compile_or_reject {} with ⟨q, hq⟩ | ⟨e, he⟩
  · refine ⟨q, hq, ?_⟩
    cases hq
    rfl
  · cases he

/-- **Checked programs in which a name is captured clash**: if the other function has the name of
the parameter that is called, and if the functions that are read have the fresh names of parameters. -/
theorem compile_clashes :
    ((∃ d, (applying "g").check none = .ok d) ∧
        ((applying "g").compile none {}).result = .error (.clash .intTest)) ∧
      (∃ d, (comparing "_var0" "_var1").check none = .ok d) ∧
        ((comparing "_var0" "_var1").compile none {}).result = .error (.clash (.mixed .eq)) :=
  ⟨⟨⟨_, rfl⟩, rfl⟩, ⟨_, rfl⟩, rfl⟩

end RawProgram

end Rulebook
