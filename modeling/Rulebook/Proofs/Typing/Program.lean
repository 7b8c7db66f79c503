import Rulebook.Proofs.Typing.Fresh

/-!
# Checked programs

A program is first-order (`RawProgram.FirstOrder`) if functions are only ever called: none is
passed, returned or read. `RawProgram.Checks` lists the checks that an accepted program has passed,
and `RawProgram.Accepted` what follows from them for a first-order program
(`RawProgram.check_accepted`).
-/

namespace Rulebook

/-! ## First-order programs -/

/-- An operation of the library has the given name, parameter types and return type. -/
def Offers (lib : Option Library) (f : String) (ts : List Ty) (t : Ty) : Prop :=
  ∃ l ∈ lib, ∃ op ∈ l.operations, op.name = f ∧ op.params = ts ∧ op.ret = t

namespace RawProgram

/-- The names of the functions that a program declares or finds in its library. -/
def functionNames (p : RawProgram) (lib : Option Library) : List String :=
  lib.elim [] (fun l => l.operations.map Operation.name) ++ p.functions.map FunDecl.name

/-- A first-order program: no parameter or return type is a function type, and no name that is
read is that of a function. In a body, a parameter hides a function of its name. -/
structure FirstOrder (p : RawProgram) (lib : Option Library) : Prop where
  types : ∀ f ∈ p.functions, f.ret.isPrimitive ∧ ∀ q ∈ f.params, q.ty.isPrimitive
  inits : ∀ v ∈ p.variables, ∀ x ∈ v.init.reads, x ∉ p.functionNames lib
  fallbacks : ∀ f ∈ p.functions, ∀ bound ∈ f.recursion, ∀ x ∈ bound.fallback.reads,
    x ∉ p.functionNames lib
  bodies : ∀ f ∈ p.functions, ∀ body ∈ f.body, ∀ x ∈ body.reads,
    x ∈ f.params.map Param.name ∨ x ∉ p.functionNames lib

instance (p : RawProgram) (lib : Option Library) : Decidable (p.FirstOrder lib) :=
  decidable_of_iff
    ((∀ f ∈ p.functions, f.ret.isPrimitive ∧ ∀ q ∈ f.params, q.ty.isPrimitive) ∧
      (∀ v ∈ p.variables, ∀ x ∈ v.init.reads, x ∉ p.functionNames lib) ∧
      (∀ f ∈ p.functions, ∀ bound ∈ f.recursion, ∀ x ∈ bound.fallback.reads,
        x ∉ p.functionNames lib) ∧
      ∀ f ∈ p.functions, ∀ body ∈ f.body, ∀ x ∈ body.reads,
        x ∈ f.params.map Param.name ∨ x ∉ p.functionNames lib)
    ⟨fun h => ⟨h.1, h.2.1, h.2.2.1, h.2.2.2⟩, fun h => ⟨h.1, h.2, h.3, h.4⟩⟩

/-- The host provides a function: an operation of the library, or a function without a body. -/
def Provides (p : RawProgram) (lib : Option Library) (f : String) (ts : List Ty) (t : Ty) : Prop :=
  Offers lib f ts t ∨ ∃ g ∈ p.functions, g.body = none ∧ g.name = f ∧ g.ty = .fn ts t

/-- A sample program: a critter counts up from what it senses and beeps. The function that counts
assigns its parameter and calls itself. -/
def counter : RawProgram where
  «variables» :=
    [⟨"count", .call 1 "sense" [], 1⟩,
      ⟨"limit", .binary 2 .add (.var 2 "count") (.lit 2 (.int 3)), 2⟩]
  functions :=
    [⟨"bump", [⟨"x", .int⟩], .void, some ⟨2, .call 3 "beep" [.lit 3 (.int 0)]⟩,
        some (.seq 4 (.assign 4 "x" (.binary 4 .add (.var 4 "x") (.lit 4 (.int 1))))
          (.cond 5 (.binary 5 .lt (.var 5 "x") (.var 5 "limit")) (.call 5 "bump" [.var 5 "x"])
            (.call 6 "beep" [.var 6 "x"]))), 3⟩,
      ⟨"main", [], .void, none, some (.call 8 "bump" [.var 8 "count"]), 7⟩]

/-- The library of the sample program. -/
def counterLibrary : Library :=
  ⟨"critter", [⟨"sense", [], [], .int⟩, ⟨"beep", [], [.int], .void⟩]⟩

end RawProgram

/-! ## Library functions -/

theorem Param.map_ty_numbered (ts : List Ty) : (Param.numbered ts).map Param.ty = ts := by
  refine List.ext_getElem (by simp [numbered]) fun i _ _ => ?_
  simp [numbered]

theorem Operation.ty_declare {μ : Type} (op : Operation) :
    (op.declare : FunDecl μ).ty = .fn op.params op.ret := by
  rw [FunDecl.ty, declare, Param.map_ty_numbered]

/-- The functions that stand for the operations of the library, which are all callable. -/
structure Stubs (lib : Option Library) (provided : List (FunDecl Mark)) : Prop where
  mem_iff : ∀ g, g ∈ provided ↔ ∃ l ∈ lib, ∃ op ∈ l.operations, op.declare = g
  callable : ∀ l ∈ lib, ∀ op ∈ l.operations, op.isCallable

/-- A library whose operations can all be called declares them in order. -/
theorem Library.declare_eq_ok {l : Library} {provided : List (FunDecl Mark)} :
    l.declare = .ok provided ↔ (∀ op ∈ l.operations, op.isCallable) ∧
      provided = l.operations.map Operation.declare := by
  have hstep : ∀ (op : Operation) (g : FunDecl Mark), (if op.isCallable then .ok op.declare
      else .error (Defect.uncallableOperation l.name op.name)) = Except.ok g ↔
        op.isCallable ∧ op.declare = g := by
    intro op g
    split <;> simp [*]
  have hmap : List.Forall₂ (fun op g => op.declare = g) l.operations provided ↔
      provided = l.operations.map Operation.declare := by
    rw [← List.forall₂_map_left_iff (R := Eq), List.forall₂_eq_eq_eq, eq_comm]
  rw [declare, mapM_eq_ok]
  simp only [hstep, List.forall₂_and_left, hmap]

theorem Library.declare_stubs {l : Library} {provided : List (FunDecl Mark)}
    (h : l.declare = .ok provided) : Stubs (some l) provided := by
  obtain ⟨hcallable, rfl⟩ := declare_eq_ok.1 h
  refine ⟨fun g => by simp, ?_⟩
  rintro _ ⟨⟩ op hop
  exact hcallable op hop

namespace Stubs

variable {lib : Option Library} {provided : List (FunDecl Mark)}

theorem body_eq_none (h : Stubs lib provided) {g : FunDecl Mark} (hg : g ∈ provided) :
    g.body = none := by
  obtain ⟨l, hl, op, hop, rfl⟩ := (h.mem_iff g).1 hg
  rfl

theorem declares_iff (h : Stubs lib provided) {f : String} {ts : List Ty} {t : Ty} :
    Declares provided f ts t ↔ Offers lib f ts t := by
  constructor
  · rintro ⟨g, hg, rfl, hty⟩
    obtain ⟨l, hl, op, hop, rfl⟩ := (h.mem_iff g).1 hg
    rw [Operation.ty_declare, Ty.fn.injEq] at hty
    exact ⟨l, hl, op, hop, rfl, hty⟩
  · rintro ⟨l, hl, op, hop, rfl, rfl, rfl⟩
    exact ⟨op.declare, (h.mem_iff _).2 ⟨l, hl, op, hop, rfl⟩, rfl, op.ty_declare⟩

theorem primitive (h : Stubs lib provided) {f : String} {ts : List Ty} {t : Ty}
    (hf : Offers lib f ts t) : t.isPrimitive := by
  obtain ⟨l, hl, op, hop, rfl, rfl, rfl⟩ := hf
  have := h.callable l hl op hop
  simp only [Operation.isCallable, Bool.and_eq_true] at this
  exact this.1.2

end Stubs

/-! ## Declarations -/

theorem checkDistinct_eq_ok {seen : List String} {decls : List (String × Line)} {u : Unit} :
    checkDistinct seen decls = .ok u ↔
      (decls.map Prod.fst).Nodup ∧ ∀ x ∈ decls.map Prod.fst, x ∉ seen := by
  induction decls generalizing seen with
  | nil => simp [checkDistinct]
  | cons d decls ih =>
    obtain ⟨x, line⟩ := d
    rw [checkDistinct, List.map_cons, List.nodup_cons, List.forall_mem_cons]
    split
    · next hx => simp [hx]
    · next hx =>
      rw [ih]
      simp only [List.mem_cons, not_or]
      constructor
      · rintro ⟨hnd, h⟩
        exact ⟨⟨fun hmem => (h x hmem).1 rfl, hnd⟩, hx, fun y hy => (h y hy).2⟩
      · rintro ⟨⟨hmem, hnd⟩, -, h⟩
        exact ⟨hnd, fun y hy => ⟨fun hyx => hmem (hyx ▸ hy), h y hy⟩⟩

/-- What checking a function establishes. -/
theorem FunDecl.check_eq_ok {s : Scope} {f : FunDecl Line} {g : FunDecl Mark}
    (h : f.check s = .ok g) :
    g.name = f.name ∧ g.params = f.params ∧ g.ret = f.ret ∧
      Option.Rel (fun r r' => r.fallback.check s = .ok r'.fallback ∧ r'.fallback.ty = f.ret)
        f.recursion g.recursion ∧
      Option.Rel (fun b b' => b.check (s.ofBody f) = .ok b' ∧ b'.ty = f.ret) f.body g.body := by
  simp only [check, bind_eq_ok, pure_eq_ok, optionMapM_eq_ok, Expr.expect_eq_ok] at h
  obtain ⟨recursion, hrec, body, hbody, rfl⟩ := h
  refine ⟨rfl, rfl, rfl, ?_, ?_⟩
  · refine rel_imp ?_ hrec
    rintro r _ ⟨fallback, hfallback, _, hty, rfl⟩
    exact ⟨hfallback, hty⟩
  · refine rel_imp ?_ hbody
    rintro b b' ⟨b'', hb, _, hty, rfl⟩
    exact ⟨hb, hty⟩

/-- A function is checked with the parameters and the type it has afterwards. -/
theorem Scope.ofBody_of_check {s : Scope} {f : FunDecl Line} {g : FunDecl Mark}
    (h : f.check s = .ok g) (scope : Scope) : scope.ofBody g = scope.ofBody f := by
  obtain ⟨hname, hparams, hret, hrec, -⟩ := FunDecl.check_eq_ok h
  rw [ofBody, ofBody, hname, hparams, FunDecl.ty, FunDecl.ty, hparams, hret, isSome_of_rel hrec]

/-- Each function is checked in the scope of those before it. -/
theorem checkFunctions_eq_ok {s : Scope} {fs : List (FunDecl Line)} {gs : List (FunDecl Mark)}
    (h : checkFunctions s fs = .ok gs) {i : ℕ} {g : FunDecl Mark} (hg : gs[i]? = some g) :
    ∃ f, fs[i]? = some f ∧ f.check (s.bindFunctions (gs.take i)) = .ok g := by
  induction fs generalizing s gs i with
  | nil =>
    cases h
    simp at hg
  | cons f fs ih =>
    simp only [checkFunctions, bind_eq_ok, pure_eq_ok] at h
    obtain ⟨g', hg', gs', hgs', rfl⟩ := h
    cases i with
    | zero =>
      cases hg
      exact ⟨f, rfl, hg'⟩
    | succ i => exact ih hgs' hg

/-- Checking leaves a function its name. -/
theorem checkFunctions_names {s : Scope} {fs : List (FunDecl Line)} {gs : List (FunDecl Mark)}
    (h : checkFunctions s fs = .ok gs) : gs.map FunDecl.name = fs.map FunDecl.name := by
  induction fs generalizing s gs with
  | nil =>
    cases h
    rfl
  | cons f fs ih =>
    simp only [checkFunctions, bind_eq_ok, pure_eq_ok] at h
    obtain ⟨g, hg, gs', hgs', rfl⟩ := h
    rw [List.map_cons, List.map_cons, ih hgs', (FunDecl.check_eq_ok hg).1]

namespace Scope

theorem find?_bindFunctions {s : Scope} {fs : List (FunDecl Mark)} {x : String} {t : Ty}
    (h : (s.bindFunctions fs).find? x = some t) :
    (∃ f ∈ fs, f.name = x ∧ f.ty = t) ∨ s.find? x = some t := by
  induction fs generalizing s with
  | nil => exact .inr h
  | cons f fs ih =>
    rcases ih (s := s.bind f.name f.ty) h with ⟨g, hg, hname, hty⟩ | h
    · exact .inl ⟨g, List.mem_cons_of_mem _ hg, hname, hty⟩
    · rw [Bindings.find?_bind] at h
      split at h
      · next hx =>
        cases h
        exact .inl ⟨f, List.mem_cons_self, hx.symm, rfl⟩
      · exact .inr h

/-- The values in the scope of functions were in scope before. -/
theorem find?_of_bindFunctions {s : Scope} {fs : List (FunDecl Mark)} {x : String} {t : Ty}
    (h : (s.bindFunctions fs).find? x = some t) (ht : t.isPrimitive) : s.find? x = some t := by
  rcases find?_bindFunctions h with ⟨f, -, -, rfl⟩ | h
  · cases ht
  · exact h

theorem FunctionsIn.bindFunctions {s : Scope} {fs gs : List (FunDecl Mark)}
    (h : s.FunctionsIn (Declares fs)) : (s.bindFunctions gs).FunctionsIn (Declares (fs ++ gs)) := by
  intro f ts t hf
  rcases find?_bindFunctions hf with ⟨g, hg, hname, hty⟩ | hf
  · exact ⟨g, List.mem_append_right _ hg, hname, hty⟩
  · obtain ⟨g, hg, hname, hty⟩ := h f ts t hf
    exact ⟨g, List.mem_append_left _ hg, hname, hty⟩

end Scope

/-- Checking leaves a variable its name. -/
theorem checkVariables_names {s s' : Scope} {vs : List (VarDecl Line)} {ws : List (VarDecl Mark)}
    (h : checkVariables s vs = .ok (ws, s')) : ws.map VarDecl.name = vs.map VarDecl.name := by
  induction vs generalizing s ws with
  | nil =>
    cases h
    rfl
  | cons v vs ih =>
    obtain ⟨init, ws', -, -, hws', rfl⟩ := checkVariables_cons.1 h
    rw [List.map_cons, List.map_cons, ih hws']

/-- Variables bring no functions into scope. -/
theorem checkVariables_functionsIn {calls : String → List Ty → Ty → Prop} {s s' : Scope}
    {vs : List (VarDecl Line)} {ws : List (VarDecl Mark)}
    (h : checkVariables s vs = .ok (ws, s')) (hs : s.FunctionsIn calls) : s'.FunctionsIn calls := by
  induction vs generalizing s ws with
  | nil =>
    cases h
    exact hs
  | cons v vs ih =>
    obtain ⟨init, ws', -, -, hws', rfl⟩ := checkVariables_cons.1 h
    exact ih hws' (hs.bind v.name rfl)

/-- A function that was checked, and reads values only. -/
theorem FunDecl.Checked.of_check {calls : String → List Ty → Ty → Prop} {s : Scope}
    {f : FunDecl Line} {g : FunDecl Mark} {body : TypedExpr} (h : f.check s = .ok g)
    (hs : s.FunctionsIn calls) (hprim : ∀ f ts t, calls f ts t → t.isPrimitive)
    (htypes : f.ret.isPrimitive ∧ ∀ q ∈ f.params, q.ty.isPrimitive)
    (hfallback : ∀ bound ∈ f.recursion, ∀ x ∈ bound.fallback.reads, ∀ ts t, ¬ calls x ts t)
    (hreads : ∀ b ∈ f.body, ∀ x ∈ b.reads,
      x ∈ f.params.map Param.name ∨ (x ≠ f.name ∧ ∀ ts t, ¬ calls x ts t))
    (hbody : g.body = some body) : g.Checked s body := by
  obtain ⟨hname, hparams, hret, hrec, hb⟩ := check_eq_ok h
  have hty : g.ty = f.ty := by rw [FunDecl.ty, FunDecl.ty, hparams, hret]
  rw [hbody] at hb
  obtain ⟨b, hfb, hcheck, hbt⟩ := exists_of_rel_some hb
  constructor
  · rw [Scope.ofBody_of_check h]
    have hself := hs.ofBody hname hty (isSome_of_rel hrec) htypes.2
    refine Expr.check_ofValues hself ?_ (fun x hx t ht => ?_) hcheck
    · rintro k ts t (hk | ⟨-, -, hk⟩)
      · exact hprim k ts t hk
      · rw [FunDecl.ty, Ty.fn.injEq] at hk
        rw [← hk.2, hret]
        exact htypes.1
    · -- a parameter hides a function of its name; any other name is not that of a function
      rcases hreads b hfb x hx with hmem | ⟨hne, hnot⟩
      · rcases Scope.find?_bindParams ht with ⟨q, hq, -, rfl⟩ | ⟨hmem', -⟩
        · exact htypes.2 q hq
        · exact absurd hmem hmem'
      · cases t with
        | fn ts t =>
          rcases hself x ts t ht with hk | ⟨-, hk, -⟩
          · exact absurd hk (hnot ts t)
          · exact absurd (hk.trans hname) hne
        | void | int | bool => rfl
  · rw [hbt, hret]
  · intro bound hbound
    rw [hbound] at hrec
    obtain ⟨r, hr, hcheck, hrt⟩ := exists_of_rel_some hrec
    exact ⟨Expr.check_ofValues_of_reads hs hprim (hfallback r hr) hcheck, by rw [hrt, hret]⟩

/-! ## Programs -/

/-- What checking establishes of a first-order program: `d` is the checked program, `base` the
scope of its first variable, `s` the scope of its first function. -/
structure RawProgram.Accepted (p : RawProgram) (lib : Option Library) (d : TypedProgram)
    (base s : Scope) : Prop where
  library_eq : d.library = lib
  primitive_of_offers : ∀ f ts t, Offers lib f ts t → t.isPrimitive
  base_functions : base.FunctionsIn (Offers lib)
  base_values : ∀ x t, base.find? x = some t → ¬ t.isPrimitive
  inits : ∀ v ∈ p.variables, ∀ x ∈ v.init.reads, ∀ ts t, ¬ Offers lib x ts t
  checkVariables_eq : checkVariables base p.variables = .ok (d.variables, s)
  variables_nodup : (p.variables.map VarDecl.name).Nodup
  functions_nodup : (d.functions.map FunDecl.name).Nodup
  provided : ∀ f ∈ d.functions, f.body = none →
    p.Provides lib f.name (f.params.map Param.ty) f.ret
  not_provided : ∀ f ∈ d.functions, f.body ≠ none → ∀ ts t, ¬ p.Provides lib f.name ts t
  checked : ∀ (i : ℕ) (f : FunDecl Mark) (body : TypedExpr), d.functions[i]? = some f →
    f.body = some body → (∀ q ∈ f.params, q.ty.isPrimitive) ∧
      ∃ scope : Scope, scope.FunctionsIn (Declares (d.functions.take i)) ∧
        (∀ x t, scope.find? x = some t → t.isPrimitive → s.find? x = some t) ∧
        f.Checked scope body

/-- The checks that a program passed: `provided` are the functions of its library, `functions` its
own, and `s` is the scope of the first of these. -/
structure RawProgram.Checks (p : RawProgram) (lib : Option Library) (d : TypedProgram)
    (provided functions : List (FunDecl Mark)) (s : Scope) : Prop where
  stubs : Stubs lib provided
  declarations_nodup : ((p.declarations provided).map Prod.fst).Nodup
  checkVariables_eq :
    checkVariables (Scope.bindFunctions .empty provided) p.variables = .ok (d.variables, s)
  checkFunctions_eq : checkFunctions s p.functions = .ok functions
  functions_eq : d.functions = provided ++ functions
  library_eq : d.library = lib

namespace RawProgram

theorem check_eq_ok {p : RawProgram} {lib : Option Library} {d : TypedProgram}
    (h : p.check lib = .ok d) : ∃ provided functions s, p.Checks lib d provided functions s := by
  obtain ⟨provided, hstubs, h⟩ : ∃ provided, Stubs lib provided ∧ (do
      checkDistinct [] (p.declarations provided)
      let r ← checkVariables (Scope.bindFunctions .empty provided) p.variables
      let functions ← checkFunctions r.2 p.functions
      return ⟨r.1, provided ++ functions, lib⟩ : Except Defect TypedProgram) = .ok d := by
    cases lib with
    | none => exact ⟨[], ⟨by simp, nofun⟩, h⟩
    | some l =>
      obtain ⟨provided, hprovided, h⟩ := bind_eq_ok.1 h
      exact ⟨provided, Library.declare_stubs hprovided, h⟩
  simp only [bind_eq_ok, pure_eq_ok, checkDistinct_eq_ok] at h
  obtain ⟨_, ⟨hnodup, -⟩, ⟨vs, s⟩, hvars, functions, hfuns, rfl⟩ := h
  exact ⟨provided, functions, s, hstubs, hnodup, hvars, hfuns, rfl, rfl⟩

theorem mem_functionNames_of_offers {p : RawProgram} {lib : Option Library} {f : String}
    {ts : List Ty} {t : Ty} (h : Offers lib f ts t) : f ∈ p.functionNames lib := by
  obtain ⟨l, rfl, op, hop, rfl, -⟩ := h
  exact List.mem_append_left _ (List.mem_map_of_mem hop)

namespace Checks

variable {p : RawProgram} {lib : Option Library} {d : TypedProgram}
  {provided functions : List (FunDecl Mark)} {s : Scope}

/-- No name is declared twice. -/
theorem nodup (h : p.Checks lib d provided functions s) :
    (provided.map FunDecl.name).Nodup ∧ (p.variables.map VarDecl.name).Nodup ∧
      (p.functions.map FunDecl.name).Nodup ∧
      ∀ f ∈ provided, ∀ g ∈ p.functions, f.name ≠ g.name := by
  have hnodup := h.declarations_nodup
  simp only [declarations, List.map_append, List.map_map, Function.comp_def] at hnodup
  obtain ⟨hnodup, hfunctions, hdisjoint⟩ := List.nodup_append.1 hnodup
  obtain ⟨hprovided, hvariables, -⟩ := List.nodup_append.1 hnodup
  refine ⟨hprovided, hvariables, hfunctions, fun f hf g hg => ?_⟩
  exact hdisjoint f.name (List.mem_append_left _ (List.mem_map_of_mem hf)) g.name
    (List.mem_map_of_mem hg)

theorem functions_nodup (h : p.Checks lib d provided functions s) :
    (d.functions.map FunDecl.name).Nodup := by
  obtain ⟨hprovided, -, hfunctions, hdisjoint⟩ := h.nodup
  rw [h.functions_eq, List.map_append, checkFunctions_names h.checkFunctions_eq]
  refine List.nodup_append.2 ⟨hprovided, hfunctions, fun x hx y hy => ?_⟩
  obtain ⟨f, hf, rfl⟩ := List.mem_map.1 hx
  obtain ⟨g, hg, rfl⟩ := List.mem_map.1 hy
  exact hdisjoint f hf g hg

theorem check_mem (h : p.Checks lib d provided functions s) {g : FunDecl Mark}
    (hg : g ∈ functions) : ∃ f ∈ p.functions, ∃ s', f.check s' = .ok g := by
  obtain ⟨i, hi⟩ := List.mem_iff_getElem?.1 hg
  obtain ⟨f, hf, hcheck⟩ := checkFunctions_eq_ok h.checkFunctions_eq hi
  exact ⟨f, List.mem_of_getElem? hf, _, hcheck⟩

/-- A function with a body comes from a function of the program, and was checked in the scope of
those before it. -/
theorem check_of_body (h : p.Checks lib d provided functions s) {i : ℕ} {g : FunDecl Mark}
    (hg : d.functions[i]? = some g) (hbody : g.body ≠ none) :
    ∃ j f, p.functions[j]? = some f ∧ d.functions.take i = provided ++ functions.take j ∧
      f.check (s.bindFunctions (functions.take j)) = .ok g := by
  rw [h.functions_eq] at hg ⊢
  by_cases hi : i < provided.length
  · rw [List.getElem?_append_left hi] at hg
    exact absurd (h.stubs.body_eq_none (List.mem_of_getElem? hg)) hbody
  rw [List.getElem?_append_right (by omega)] at hg
  obtain ⟨f, hf, hcheck⟩ := checkFunctions_eq_ok h.checkFunctions_eq hg
  refine ⟨_, f, hf, ?_, hcheck⟩
  rw [List.take_append, List.take_of_length_le (by omega)]

theorem base_functionsIn (provided : List (FunDecl Mark)) :
    (Scope.bindFunctions .empty provided).FunctionsIn (Declares provided) := by
  have hempty : Scope.FunctionsIn .empty (Declares ([] : List (FunDecl Mark))) :=
    fun f ts t hf => by simp at hf
  exact hempty.bindFunctions

theorem functionsIn (h : p.Checks lib d provided functions s) : s.FunctionsIn (Declares provided) :=
  checkVariables_functionsIn h.checkVariables_eq (base_functionsIn provided)

/-- What may be called from a function returns a value. -/
theorem primitive_of_declares (h : p.Checks lib d provided functions s) (hfo : p.FirstOrder lib)
    {i : ℕ} {f : String} {ts : List Ty} {t : Ty}
    (hf : Declares (provided ++ functions.take i) f ts t) : t.isPrimitive := by
  obtain ⟨g, hg, hname, hty⟩ := hf
  rcases List.mem_append.1 hg with hg | hg
  · exact h.stubs.primitive (h.stubs.declares_iff.1 ⟨g, hg, hname, hty⟩)
  · obtain ⟨f, hf, _, hcheck⟩ := h.check_mem (List.mem_of_mem_take hg)
    rw [FunDecl.ty, Ty.fn.injEq] at hty
    rw [← hty.2, (FunDecl.check_eq_ok hcheck).2.2.1]
    exact (hfo.types f hf).1

/-- What may be called from a function is the name of a function. -/
theorem mem_functionNames (h : p.Checks lib d provided functions s) {i : ℕ} {x : String}
    {ts : List Ty} {t : Ty} (hx : Declares (provided ++ functions.take i) x ts t) :
    x ∈ p.functionNames lib := by
  obtain ⟨g, hg, rfl, hty⟩ := hx
  rcases List.mem_append.1 hg with hg | hg
  · exact mem_functionNames_of_offers (h.stubs.declares_iff.1 ⟨g, hg, rfl, hty⟩)
  · rw [functionNames, ← checkFunctions_names h.checkFunctions_eq]
    exact List.mem_append_right _ (List.mem_map_of_mem (List.mem_of_mem_take hg))

/-- A function without a body is provided. -/
theorem provides (h : p.Checks lib d provided functions s) {g : FunDecl Mark}
    (hg : g ∈ d.functions) (hbody : g.body = none) :
    p.Provides lib g.name (g.params.map Param.ty) g.ret := by
  rw [h.functions_eq] at hg
  rcases List.mem_append.1 hg with hg | hg
  · exact .inl (h.stubs.declares_iff.1 ⟨g, hg, rfl, rfl⟩)
  · obtain ⟨f, hf, _, hcheck⟩ := h.check_mem hg
    obtain ⟨hname, hparams, hret, -, hb⟩ := FunDecl.check_eq_ok hcheck
    refine .inr ⟨f, hf, ?_, hname.symm, by rw [FunDecl.ty, hparams, hret]⟩
    simpa [hbody] using (isSome_of_rel hb).symm

/-- A function with a body is not provided. -/
theorem not_provides (h : p.Checks lib d provided functions s) {g : FunDecl Mark}
    (hg : g ∈ d.functions) (hbody : g.body ≠ none) (ts : List Ty) (t : Ty) :
    ¬ p.Provides lib g.name ts t := by
  rw [h.functions_eq] at hg
  rcases List.mem_append.1 hg with hg | hg
  · exact absurd (h.stubs.body_eq_none hg) hbody
  obtain ⟨-, -, hnodup, hdisjoint⟩ := h.nodup
  obtain ⟨f, hf, _, hcheck⟩ := h.check_mem hg
  obtain ⟨hname, -, -, -, hb⟩ := FunDecl.check_eq_ok hcheck
  rintro (hoff | ⟨f', hf', hbody', hname', -⟩)
  · -- the name of an operation is not declared again
    obtain ⟨k, hk, hkname, -⟩ := h.stubs.declares_iff.2 hoff
    exact hdisjoint k hk f hf (hkname.trans hname)
  · obtain rfl := List.inj_on_of_nodup_map hnodup hf' hf (hname'.trans hname)
    exact hbody (by simpa [hbody'] using isSome_of_rel hb)

/-- A function with a body was checked in the scope of the functions before it. -/
theorem checked (h : p.Checks lib d provided functions s) (hfo : p.FirstOrder lib) {i : ℕ}
    {g : FunDecl Mark} {body : TypedExpr} (hg : d.functions[i]? = some g)
    (hbody : g.body = some body) :
    (∀ q ∈ g.params, q.ty.isPrimitive) ∧
      ∃ scope : Scope, scope.FunctionsIn (Declares (d.functions.take i)) ∧
        (∀ x t, scope.find? x = some t → t.isPrimitive → s.find? x = some t) ∧
        g.Checked scope body := by
  obtain ⟨j, f, hf, htake, hcheck⟩ := h.check_of_body hg (by simp [hbody])
  have hf := List.mem_of_getElem? hf
  have hscope : (s.bindFunctions (functions.take j)).FunctionsIn _ := h.functionsIn.bindFunctions
  rw [htake]
  refine ⟨?_, _, hscope, fun x t => Scope.find?_of_bindFunctions, ?_⟩
  · rw [(FunDecl.check_eq_ok hcheck).2.1]
    exact (hfo.types f hf).2
  refine .of_check hcheck hscope (fun _ _ _ => h.primitive_of_declares hfo) (hfo.types f hf)
    (fun bound hb x hx ts t hx' => ?_) (fun b hb x hx => ?_) hbody
  · exact hfo.fallbacks f hf bound hb x hx (h.mem_functionNames hx')
  · refine (hfo.bodies f hf b hb x hx).imp_right fun hx => ⟨?_, fun ts t hx' => ?_⟩
    · rintro rfl
      exact hx (List.mem_append_right _ (List.mem_map_of_mem hf))
    · exact hx (h.mem_functionNames hx')

end Checks

/-- **What checking establishes of a first-order program.** -/
theorem check_accepted {p : RawProgram} {lib : Option Library} {d : TypedProgram}
    (hfo : p.FirstOrder lib) (h : p.check lib = .ok d) : ∃ base s, p.Accepted lib d base s := by
  obtain ⟨provided, functions, s, h⟩ := check_eq_ok h
  obtain ⟨-, hvariables, -, -⟩ := h.nodup
  refine ⟨Scope.bindFunctions .empty provided, s, h.library_eq, fun _ _ _ => h.stubs.primitive,
    fun f ts t hf => h.stubs.declares_iff.1 (Checks.base_functionsIn provided f ts t hf), ?_,
    fun v hv x hx ts t hoff => hfo.inits v hv x hx (mem_functionNames_of_offers hoff),
    h.checkVariables_eq, hvariables, h.functions_nodup, fun f => h.provides,
    fun f => h.not_provides, fun i f body => h.checked hfo⟩
  intro x t hx
  rcases Scope.find?_bindFunctions hx with ⟨f, -, -, rfl⟩ | hx
  · nofun
  · simp at hx

end RawProgram

end Rulebook
