import Rulebook.Proofs.Typing.Derivation
import Rulebook.Proofs.Typing.Program

/-!
# Accepted programs

Which programs the checker accepts, and what it makes of them, in terms of the typing rules. A
program is well typed (`RawProgram.WellTyped`) if every operation of its library can be called, no
name is declared twice, and every initial value, every value beyond a recursion bound and every body
has the right type where it stands. The checker accepts exactly these programs, and its result is
the program with the operations in front and every expression decorated
(`RawProgram.check_iff_wellTyped`).
-/

namespace Rulebook

/-! ## Declarations in order -/

/-- The operations of a library. -/
def operationsOf (lib : Option Library) : List Operation := lib.elim [] Library.operations

/-- What operations declare. -/
def declaredOperations (ops : List Operation) : List (String × Ty) :=
  ops.map fun op => (op.name, .fn op.params op.ret)

/-- What variables declare. -/
def declaredVariables (vs : List (VarDecl Line)) : List (String × Ty) :=
  vs.map fun v => (v.name, .int)

/-- What functions declare. -/
def declaredFunctions (fs : List (FunDecl Line)) : List (String × Ty) :=
  fs.map fun f => (f.name, f.ty)

/-- What a function declares for its body: itself, if its recursion is bounded, and its parameters
on top. -/
def FunDecl.declaredInside (f : FunDecl Line) : List (String × Ty) :=
  (if f.recursion.isSome then [(f.name, f.ty)] else []) ++ f.params.map fun q => (q.name, q.ty)

namespace RawProgram

/-- The names of all top-level declarations, the library's operations first. -/
def declaredNames (p : RawProgram) (lib : Option Library) : List String :=
  (operationsOf lib).map Operation.name ++ p.variables.map VarDecl.name ++
    p.functions.map FunDecl.name

/-- What is declared before the `i`-th variable. -/
def beforeVariable (p : RawProgram) (lib : Option Library) (i : ℕ) : List (String × Ty) :=
  declaredOperations (operationsOf lib) ++ declaredVariables (p.variables.take i)

/-- What is declared before the `i`-th function. -/
def beforeFunction (p : RawProgram) (lib : Option Library) (i : ℕ) : List (String × Ty) :=
  declaredOperations (operationsOf lib) ++ declaredVariables p.variables ++
    declaredFunctions (p.functions.take i)

/-- The typing rules for programs. -/
structure WellTyped (p : RawProgram) (lib : Option Library) : Prop where
  operations : ∀ op ∈ operationsOf lib,
    op.typeParams = [] ∧ op.ret.isPrimitive ∧ ∀ t ∈ op.params, t.isPrimitive
  distinct : (p.declaredNames lib).Nodup
  inits : ∀ (i : ℕ) (v : VarDecl Line), p.variables[i]? = some v →
    v.init.HasType (p.beforeVariable lib i) .int
  fallbacks : ∀ (i : ℕ) (f : FunDecl Line), p.functions[i]? = some f → ∀ bound ∈ f.recursion,
    bound.fallback.HasType (p.beforeFunction lib i) f.ret
  bodies : ∀ (i : ℕ) (f : FunDecl Line), p.functions[i]? = some f → ∀ body ∈ f.body,
    body.HasType (p.beforeFunction lib i ++ f.declaredInside) f.ret

end RawProgram

/-! ## Decorated programs -/

/-- The variable `w` is the variable `v` with its initial value decorated. -/
structure VarDecl.Decorates (Γ : List (String × Ty)) (v : VarDecl Line) (w : VarDecl Mark) :
    Prop where
  name_eq : w.name = v.name
  line_eq : w.line = v.line
  init : v.init.Decorates Γ w.init

/-- The bound `b` is the bound `a` with the value beyond it decorated. -/
structure Recursion.Decorates (Γ : List (String × Ty)) (a : Recursion Line) (b : Recursion Mark) :
    Prop where
  depth_eq : b.depth = a.depth
  fallback : a.fallback.Decorates Γ b.fallback

/-- The function `g` is the function `f` with its expressions decorated. -/
structure FunDecl.Decorates (Γ : List (String × Ty)) (f : FunDecl Line) (g : FunDecl Mark) :
    Prop where
  name_eq : g.name = f.name
  params_eq : g.params = f.params
  ret_eq : g.ret = f.ret
  line_eq : g.line = f.line
  recursion : Option.Rel (Recursion.Decorates Γ) f.recursion g.recursion
  body : Option.Rel (Expr.Decorates (Γ ++ f.declaredInside)) f.body g.body

/-- Two lists of one length whose elements are related position by position. -/
structure Indexed {α β : Type} (R : ℕ → α → β → Prop) (as : List α) (bs : List β) : Prop where
  length_eq : bs.length = as.length
  rel : ∀ i a b, as[i]? = some a → bs[i]? = some b → R i a b

/-- The checked program `d` is the program `p`, its library's operations in front, with its
expressions decorated. -/
structure RawProgram.Decorates (p : RawProgram) (lib : Option Library) (d : TypedProgram) :
    Prop where
  library_eq : d.library = lib
  «variables» :
    Indexed (fun i v w => v.Decorates (p.beforeVariable lib i) w) p.variables d.variables
  functions : ∃ gs, d.functions = (operationsOf lib).map Operation.declare ++ gs ∧
    Indexed (fun i f g => f.Decorates (p.beforeFunction lib i) g) p.functions gs

/-! ## Position by position -/

namespace Indexed

variable {α β : Type} {R S : ℕ → α → β → Prop} {as : List α} {bs : List β}

theorem nil_left : Indexed R [] bs ↔ bs = [] := by
  constructor
  · intro h
    exact List.length_eq_zero_iff.1 h.length_eq
  · rintro rfl
    exact ⟨rfl, by simp⟩

theorem cons {a : α} {b : β} :
    Indexed R (a :: as) (b :: bs) ↔ R 0 a b ∧ Indexed (fun i => R (i + 1)) as bs := by
  constructor
  · intro h
    exact ⟨h.rel 0 a b rfl rfl, by simpa using h.length_eq, fun i => h.rel (i + 1)⟩
  · rintro ⟨h₀, h⟩
    refine ⟨by simp [h.length_eq], fun i c d hc hd => ?_⟩
    cases i with
    | zero =>
      cases hc
      cases hd
      exact h₀
    | succ i => exact h.rel i c d hc hd

theorem cons_left {a : α} : Indexed R (a :: as) bs ↔
    ∃ b bs', bs = b :: bs' ∧ R 0 a b ∧ Indexed (fun i => R (i + 1)) as bs' := by
  cases bs with
  | nil =>
    constructor
    · intro h
      simpa using h.length_eq
    · rintro ⟨_, _, ⟨⟩, -⟩
  | cons b bs => simp [cons]

theorem exists_right (h : ∀ i a, as[i]? = some a → ∃ b, R i a b) : ∃ bs, Indexed R as bs := by
  induction as generalizing R with
  | nil => exact ⟨[], nil_left.2 rfl⟩
  | cons a as ih =>
    obtain ⟨b, hb⟩ := h 0 a rfl
    obtain ⟨bs, hbs⟩ := ih fun i c hc => h (i + 1) c hc
    exact ⟨b :: bs, cons.2 ⟨hb, hbs⟩⟩

theorem imp (h : Indexed R as bs) (hRS : ∀ i a b, as[i]? = some a → R i a b → S i a b) :
    Indexed S as bs :=
  ⟨h.length_eq, fun i a b ha hb => hRS i a b ha (h.rel i a b ha hb)⟩

/-- The element that is related to one on the left. -/
theorem exists_rel (h : Indexed R as bs) {i : ℕ} {a : α} (ha : as[i]? = some a) :
    ∃ b, bs[i]? = some b ∧ R i a b := by
  obtain ⟨hi, -⟩ := List.getElem?_eq_some_iff.1 ha
  have hb := List.getElem?_eq_getElem (h.length_eq.symm ▸ hi)
  exact ⟨_, hb, h.rel i a _ ha hb⟩

end Indexed

/-! ## Checking declarations -/

variable {Γ : List (String × Ty)}

theorem Scope.ofBody_ofList (f : FunDecl Line) :
    (Scope.ofList Γ).ofBody f = .ofList (Γ ++ f.declaredInside) := by
  rw [Scope.ofBody, FunDecl.declaredInside, ← List.append_assoc]
  split
  · rw [bind_ofList, bindParams_ofList]
  · rw [List.append_nil, bindParams_ofList]

theorem VarDecl.check_ofList {v : VarDecl Line} {w : VarDecl Mark} :
    v.check (.ofList Γ) = .ok w ↔ v.Decorates Γ w ∧ w.init.ty = .int := by
  simp only [VarDecl.check_eq_ok, Expr.check_ofList]
  constructor
  · rintro ⟨init, hinit, hty, rfl⟩
    exact ⟨⟨rfl, rfl, hinit⟩, hty⟩
  · rintro ⟨⟨hname, hline, hinit⟩, hty⟩
    obtain ⟨name, init, line⟩ := w
    cases hname
    cases hline
    exact ⟨init, hinit, hty, rfl⟩

/-- A function is checked to its decoration, if this has the right types. -/
theorem FunDecl.check_ofList {f : FunDecl Line} {g : FunDecl Mark} :
    f.check (.ofList Γ) = .ok g ↔ f.Decorates Γ g ∧
      (∀ bound ∈ g.recursion, bound.fallback.ty = f.ret) ∧ ∀ body ∈ g.body, body.ty = f.ret := by
  simp only [check, bind_eq_ok, pure_eq_ok, optionMapM_eq_ok, Expr.expect_eq_ok,
    Scope.ofBody_ofList, Expr.check_ofList]
  constructor
  · rintro ⟨recursion, hrec, body, hbody, rfl⟩
    refine ⟨⟨rfl, rfl, rfl, rfl, ?_, ?_⟩, ?_, ?_⟩
    · refine rel_imp ?_ hrec
      rintro bound _ ⟨fallback, hfallback, -, -, rfl⟩
      exact ⟨rfl, hfallback⟩
    · refine rel_imp ?_ hbody
      rintro b _ ⟨b', hb, -, -, rfl⟩
      exact hb
    · rintro bound ⟨⟩
      obtain ⟨_, -, _, -, -, hty, rfl⟩ := exists_of_rel_some hrec
      exact hty
    · rintro b ⟨⟩
      obtain ⟨_, -, _, -, -, hty, rfl⟩ := exists_of_rel_some hbody
      exact hty
  · rintro ⟨⟨hname, hparams, hret, hline, hrec, hbody⟩, hfallback, hty⟩
    obtain ⟨name, params, ret, recursion, body, line⟩ := g
    cases hname
    cases hparams
    cases hret
    cases hline
    refine ⟨recursion, rel_of_mem hrec ?_, body, rel_of_mem hbody ?_, rfl⟩
    · rintro bound - bound' hbound ⟨hdepth, h⟩
      exact ⟨_, h, (), hfallback bound' hbound, by rw [← hdepth]⟩
    · rintro b - b' hb h
      exact ⟨b', h, (), hty b' hb, rfl⟩

theorem append_declaredVariables (v : VarDecl Line) (vs : List (VarDecl Line)) :
    Γ ++ declaredVariables (v :: vs) = Γ ++ [(v.name, .int)] ++ declaredVariables vs := by
  rw [List.append_assoc, List.singleton_append]
  rfl

theorem append_declaredFunctions (f : FunDecl Line) (fs : List (FunDecl Line)) :
    Γ ++ declaredFunctions (f :: fs) = Γ ++ [(f.name, f.ty)] ++ declaredFunctions fs := by
  rw [List.append_assoc, List.singleton_append]
  rfl

/-- Variables are checked position by position. -/
theorem checkVariables_ofList {vs : List (VarDecl Line)} {ws : List (VarDecl Mark)} {s : Scope} :
    checkVariables (.ofList Γ) vs = .ok (ws, s) ↔ s = .ofList (Γ ++ declaredVariables vs) ∧
      Indexed (fun i v w => v.check (.ofList (Γ ++ declaredVariables (vs.take i))) = .ok w)
        vs ws := by
  induction vs generalizing Γ ws with
  | nil => simp [checkVariables, Indexed.nil_left, declaredVariables, eq_comm, and_comm]
  | cons v vs ih =>
    have hnil : Γ ++ declaredVariables [] = Γ := List.append_nil Γ
    have hname : ∀ w, v.check (.ofList Γ) = .ok w → w.name = v.name := fun w hw =>
      (VarDecl.check_ofList.1 hw).1.name_eq
    simp only [checkVariables, bind_eq_ok, pure_eq_ok, Scope.bind_ofList, Indexed.cons_left,
      List.take_zero, List.take_succ_cons, append_declaredVariables, hnil]
    constructor
    · rintro ⟨w, hw, ⟨ws', s'⟩, hws, ⟨⟩⟩
      rw [hname w hw] at hws
      obtain ⟨rfl, hws'⟩ := ih.1 hws
      exact ⟨rfl, w, ws', rfl, hw, hws'⟩
    · rintro ⟨rfl, w, ws', rfl, hw, hws⟩
      refine ⟨w, hw, (ws', _), ?_, rfl⟩
      rw [hname w hw]
      exact ih.2 ⟨rfl, hws⟩

/-- Functions are checked position by position. -/
theorem checkFunctions_ofList {fs : List (FunDecl Line)} {gs : List (FunDecl Mark)} :
    checkFunctions (.ofList Γ) fs = .ok gs ↔
      Indexed (fun i f g => f.check (.ofList (Γ ++ declaredFunctions (fs.take i))) = .ok g)
        fs gs := by
  induction fs generalizing Γ gs with
  | nil => simp [checkFunctions, Indexed.nil_left, eq_comm]
  | cons f fs ih =>
    have hnil : Γ ++ declaredFunctions [] = Γ := List.append_nil Γ
    have hsig : ∀ g, f.check (.ofList Γ) = .ok g → g.name = f.name ∧ g.ty = f.ty := by
      intro g hg
      have h := (FunDecl.check_ofList.1 hg).1
      exact ⟨h.name_eq, by rw [FunDecl.ty, FunDecl.ty, h.params_eq, h.ret_eq]⟩
    simp only [checkFunctions, bind_eq_ok, pure_eq_ok, Scope.bind_ofList, Indexed.cons_left,
      List.take_zero, List.take_succ_cons, append_declaredFunctions, hnil]
    constructor
    · rintro ⟨g, hg, gs', hgs, rfl⟩
      rw [(hsig g hg).1, (hsig g hg).2] at hgs
      exact ⟨g, gs', rfl, hg, ih.1 hgs⟩
    · rintro ⟨g, gs', rfl, hg, hgs⟩
      refine ⟨g, hg, gs', ?_, rfl⟩
      rw [(hsig g hg).1, (hsig g hg).2]
      exact ih.2 hgs

/-! ## Checking programs -/

theorem Operation.isCallable_iff {op : Operation} : op.isCallable ↔
    op.typeParams = [] ∧ op.ret.isPrimitive ∧ ∀ t ∈ op.params, t.isPrimitive := by
  simp [isCallable, and_assoc]

namespace RawProgram

variable {p : RawProgram} {lib : Option Library} {d : TypedProgram}

theorem map_fst_declarations (p : RawProgram) (lib : Option Library) :
    (p.declarations ((operationsOf lib).map Operation.declare)).map Prod.fst =
      p.declaredNames lib := by
  simp [declarations, declaredNames, Function.comp_def, Operation.declare]

theorem bindFunctions_declare (ops : List Operation) :
    Scope.bindFunctions .empty (ops.map (Operation.declare (μ := Mark))) =
      .ofList (declaredOperations ops) := by
  have hops : (ops.map (Operation.declare (μ := Mark))).map (fun f => (f.name, f.ty)) =
      declaredOperations ops := by
    rw [List.map_map, declaredOperations]
    exact List.map_congr_left fun op _ => by rw [Function.comp_apply, Operation.ty_declare]; rfl
  rw [← hops]
  exact Scope.bindFunctions_ofList [] _

/-- The operations of the library are declared first. -/
theorem check_eq_ok_and : p.check lib = .ok d ↔ (∀ op ∈ operationsOf lib, op.isCallable) ∧ (do
    checkDistinct [] (p.declarations ((operationsOf lib).map Operation.declare))
    let r ← checkVariables
      (Scope.bindFunctions .empty ((operationsOf lib).map (Operation.declare (μ := Mark))))
      p.variables
    let functions ← checkFunctions r.2 p.functions
    return ⟨r.1, (operationsOf lib).map Operation.declare ++ functions, lib⟩ :
      Except Defect TypedProgram) = .ok d := by
  cases lib with
  | none =>
    constructor
    · intro h
      exact ⟨nofun, h⟩
    · rintro ⟨-, h⟩
      exact h
  | some l =>
    constructor
    · intro h
      obtain ⟨_, hprovided, h⟩ := bind_eq_ok.1 h
      obtain ⟨hops, rfl⟩ := Library.declare_eq_ok.1 hprovided
      exact ⟨hops, h⟩
    · rintro ⟨hops, h⟩
      exact bind_eq_ok.2 ⟨_, Library.declare_eq_ok.2 ⟨hops, rfl⟩, h⟩

/-- The checks that a program has to pass. -/
theorem check_eq_ok_iff : p.check lib = .ok d ↔
    (∀ op ∈ operationsOf lib, op.isCallable) ∧
      (p.declaredNames lib).Nodup ∧
      Indexed (fun i v w => v.check (.ofList (p.beforeVariable lib i)) = .ok w)
        p.variables d.variables ∧
      (∃ gs, d.functions = (operationsOf lib).map Operation.declare ++ gs ∧
        Indexed (fun i f g => f.check (.ofList (p.beforeFunction lib i)) = .ok g)
          p.functions gs) ∧
      d.library = lib := by
  rw [check_eq_ok_and]
  simp only [bind_eq_ok, pure_eq_ok, checkDistinct_eq_ok, map_fst_declarations,
    bindFunctions_declare, Prod.exists, checkVariables_ofList]
  constructor
  · rintro ⟨hops, _, ⟨hnd, -⟩, vs, s, ⟨rfl, hvars⟩, gs, hfuns, rfl⟩
    exact ⟨hops, hnd, hvars, ⟨gs, rfl, checkFunctions_ofList.1 hfuns⟩, rfl⟩
  · rintro ⟨hops, hnd, hvars, ⟨gs, hgs, hfuns⟩, hlib⟩
    refine ⟨hops, (), ⟨hnd, by simp⟩, d.variables, _, ⟨rfl, hvars⟩, gs,
      checkFunctions_ofList.2 hfuns, ?_⟩
    rw [← hgs, ← hlib]

/-- The checker accepts well-typed programs only. -/
theorem wellTyped_of_check (h : p.check lib = .ok d) : p.WellTyped lib := by
  obtain ⟨hops, hnd, hvars, ⟨gs, -, hfuns⟩, -⟩ := check_eq_ok_iff.1 h
  refine ⟨fun op hop => Operation.isCallable_iff.1 (hops op hop), hnd, ?_, ?_, ?_⟩
  · intro i v hv
    obtain ⟨w, -, hw⟩ := hvars.exists_rel hv
    obtain ⟨hdec, hty⟩ := VarDecl.check_ofList.1 hw
    rw [← hty]
    exact hdec.init.hasType_root
  · intro i f hf bound hbound
    obtain ⟨g, -, hg⟩ := hfuns.exists_rel hf
    obtain ⟨hdec, hty, -⟩ := FunDecl.check_ofList.1 hg
    obtain ⟨bound', hbound', -, hfallback⟩ := eq_some_of_rel (hbound ▸ hdec.recursion)
    rw [← hty bound' hbound']
    exact hfallback.hasType_root
  · intro i f hf body hbody
    obtain ⟨g, -, hg⟩ := hfuns.exists_rel hf
    obtain ⟨hdec, -, hty⟩ := FunDecl.check_ofList.1 hg
    obtain ⟨body', hbody', hb⟩ := eq_some_of_rel (hbody ▸ hdec.body)
    rw [← hty body' hbody']
    exact hb.hasType_root

theorem decorates_of_check (h : p.check lib = .ok d) : p.Decorates lib d := by
  obtain ⟨-, -, hvars, ⟨gs, hgs, hfuns⟩, hlib⟩ := check_eq_ok_iff.1 h
  refine ⟨hlib, hvars.imp fun _ _ _ _ hw => (VarDecl.check_ofList.1 hw).1, gs, hgs, ?_⟩
  exact hfuns.imp fun _ _ _ _ hg => (FunDecl.check_ofList.1 hg).1

/-- The decoration of a well-typed program is what checking gives. -/
theorem WellTyped.check_eq (h : p.WellTyped lib) (hd : p.Decorates lib d) : p.check lib = .ok d := by
  obtain ⟨gs, hgs, hfuns⟩ := hd.functions
  refine check_eq_ok_iff.2 ⟨fun op hop => Operation.isCallable_iff.2 (h.operations op hop),
    h.distinct, hd.variables.imp ?_, ⟨gs, hgs, hfuns.imp ?_⟩, hd.library_eq⟩
  · intro i v w hv hw
    exact VarDecl.check_ofList.2 ⟨hw, hw.init.hasType_root.unique (h.inits i v hv)⟩
  · intro i f g hf hg
    refine FunDecl.check_ofList.2 ⟨hg, fun bound' hbound' => ?_, fun body' hbody' => ?_⟩
    · obtain ⟨bound, hbound, -, hfallback⟩ := exists_of_rel_some (hbound' ▸ hg.recursion)
      exact hfallback.hasType_root.unique (h.fallbacks i f hf bound hbound)
    · obtain ⟨body, hbody, hb⟩ := exists_of_rel_some (hbody' ▸ hg.body)
      exact hb.hasType_root.unique (h.bodies i f hf body hbody)

/-- A well-typed program has a decoration. -/
theorem WellTyped.exists_decorates (h : p.WellTyped lib) : ∃ d, p.Decorates lib d := by
  obtain ⟨ws, hws⟩ : ∃ ws, Indexed (fun i v w => v.Decorates (p.beforeVariable lib i) w)
      p.variables ws := by
    refine Indexed.exists_right fun i v hv => ?_
    obtain ⟨init, hinit⟩ := (h.inits i v hv).exists_decorates
    exact ⟨⟨v.name, init, v.line⟩, rfl, rfl, hinit⟩
  obtain ⟨gs, hgs⟩ : ∃ gs, Indexed (fun i f g => f.Decorates (p.beforeFunction lib i) g)
      p.functions gs := by
    refine Indexed.exists_right fun i f hf => ?_
    obtain ⟨recursion, hrec⟩ : ∃ recursion,
        Option.Rel (Recursion.Decorates (p.beforeFunction lib i)) f.recursion recursion := by
      refine exists_rel fun bound hbound => ?_
      obtain ⟨fallback, hfallback⟩ := (h.fallbacks i f hf bound hbound).exists_decorates
      exact ⟨⟨bound.depth, fallback⟩, rfl, hfallback⟩
    obtain ⟨body, hbody⟩ := exists_rel fun b hb => (h.bodies i f hf b hb).exists_decorates
    exact ⟨⟨f.name, f.params, f.ret, recursion, body, f.line⟩, rfl, rfl, rfl, rfl, hrec, hbody⟩
  exact ⟨⟨ws, _, lib⟩, rfl, hws, gs, rfl, hgs⟩

/-- **The checker accepts exactly the well-typed programs and decorates them.** -/
theorem check_iff_wellTyped (p : RawProgram) (lib : Option Library) :
    ((∃ d, p.check lib = .ok d) ↔ p.WellTyped lib) ∧
      ∀ d, p.check lib = .ok d ↔ p.WellTyped lib ∧ p.Decorates lib d := by
  refine ⟨⟨fun ⟨d, hd⟩ => wellTyped_of_check hd, fun h => ?_⟩, fun d => ⟨fun hd => ?_, ?_⟩⟩
  · obtain ⟨d, hd⟩ := h.exists_decorates
    exact ⟨d, h.check_eq hd⟩
  · exact ⟨wellTyped_of_check hd, decorates_of_check hd⟩
  · rintro ⟨h, hd⟩
    exact h.check_eq hd

end RawProgram

end Rulebook
