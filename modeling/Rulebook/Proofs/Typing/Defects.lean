import Rulebook.Proofs.Typing.Acceptance

/-!
# Genuine defects

What the checker reports is really there. Where the typing rules say what an accepted program is,
the definitions here say what each defect is, again without saying how it is found:

* `Expr.Asks` lists the places of a construct that ask for a type, and the type they ask for;
* `Expr.Exhibits` says of an expression, where certain names are declared, that some node of it has
  the defect;
* `RawProgram.Holds` lists the expressions of a program with the declarations before them and the
  type that is asked of each;
* `RawProgram.Exhibits` says of a program that it has the defect.

A program that is refused exhibits the defect for which it is refused
(`RawProgram.exhibits_of_check_eq_error`).
-/

namespace Rulebook

/-! ## Defects of expressions -/

namespace Expr

/-- Where the names of `Γ` are declared, the construct `d` asks for the type `t` in the place of its
part `e`. -/
inductive Asks (Γ : List (String × Ty)) : (d e : RawExpr) → (t : Ty) → Prop
  | operand {line : Line} {e : RawExpr} : Asks Γ (.not line e) e .bool
  | argument {line : Line} {f : String} {args : List RawExpr} {ts : List Ty} {t : Ty} {e : RawExpr}
    {u : Ty} : Resolves Γ f (.fn ts t) → args.length = ts.length → (e, u) ∈ args.zip ts →
    Asks Γ (.call line f args) e u
  | left {line : Line} {op : Operator} {l r : RawExpr} {t : Ty} : op.operandTy? = some t →
    Asks Γ (.binary line op l r) l t
  | right {line : Line} {op : Operator} {l r : RawExpr} {t : Ty} : op.operandTy? = some t →
    Asks Γ (.binary line op l r) r t
  /-- Equality takes any type on the left, and then the same on the right. -/
  | same {line : Line} {op : Operator} {l r : RawExpr} {t : Ty} : op.operandTy? = none →
    l.HasType Γ t → Asks Γ (.binary line op l r) r t
  | test {line : Line} {c a b : RawExpr} : Asks Γ (.cond line c a b) c .bool
  | branch {line : Line} {c a b : RawExpr} {t : Ty} : a.HasType Γ t → Asks Γ (.cond line c a b) b t
  | value {line : Line} {x : String} {e : RawExpr} {t : Ty} : Resolves Γ x t →
    Asks Γ (.assign line x e) e t
  | first {line : Line} {a b : RawExpr} : Asks Γ (.seq line a b) a .void
  | second {line : Line} {a b : RawExpr} : Asks Γ (.seq line a b) b .void

/-- The node reads, calls or assigns the name `x`. -/
def Uses (x : String) : RawExpr → Prop
  | .var _ y | .call _ y _ | .assign _ y _ => y = x
  | _ => False

/-- A node of the expression, which stands where the names of `Γ` are declared, has the defect. -/
def Exhibits (Γ : List (String × Ty)) (e : RawExpr) : Defect → Prop
  | .unknownName x line =>
    ∃ d ∈ e.subterms, d.Uses x ∧ d.mark = line ∧ x ∉ Γ.map Prod.fst
  | .wrongArity f expected actual line =>
    ∃ args ts t, .call line f args ∈ e.subterms ∧ Resolves Γ f (.fn ts t) ∧
      ts.length = expected ∧ args.length = actual ∧ expected ≠ actual
  | .wrongType (.ty t) actual line =>
    ∃ d ∈ e.subterms, ∃ part, d.Asks Γ part t ∧ part.HasType Γ actual ∧ part.mark = line ∧
      actual ≠ t
  | .wrongType .function actual line =>
    ∃ f args, .call line f args ∈ e.subterms ∧ Resolves Γ f actual ∧ ∀ ts t, actual ≠ .fn ts t
  | _ => False

end Expr

/-! ## Defects of programs -/

/-- The operation is generic or uses a function type. -/
def Operation.Uncallable (op : Operation) : Prop :=
  op.typeParams ≠ [] ∨ ∃ ts t, .fn ts t ∈ op.ret :: op.params

namespace RawProgram

/-- The names and lines of all top-level declarations, the library's operations first. -/
def declaredLines (p : RawProgram) (lib : Option Library) : List (String × Line) :=
  (operationsOf lib).map (fun op => (op.name, 0)) ++ p.variables.map (fun v => (v.name, v.line)) ++
    p.functions.map fun f => (f.name, f.line)

/-- The expression `e` stands in the program, where the names of `Γ` are declared and the type `t`
is asked for. -/
inductive Holds (p : RawProgram) (lib : Option Library) :
    (Γ : List (String × Ty)) → (e : RawExpr) → (t : Ty) → Prop
  | init {i : ℕ} {v : VarDecl Line} : p.variables[i]? = some v →
    Holds p lib (p.beforeVariable lib i) v.init .int
  | fallback {i : ℕ} {f : FunDecl Line} {bound : Recursion Line} : p.functions[i]? = some f →
    bound ∈ f.recursion → Holds p lib (p.beforeFunction lib i) bound.fallback f.ret
  | body {i : ℕ} {f : FunDecl Line} {body : RawExpr} : p.functions[i]? = some f →
    body ∈ f.body → Holds p lib (p.beforeFunction lib i ++ f.declaredInside) body f.ret

/-- The program has the defect. An operation or a declaration is to blame only if none before it is;
all other defects are those of an expression, or of the type of a whole expression. -/
def Exhibits (p : RawProgram) (lib : Option Library) : Defect → Prop
  | .uncallableOperation library name =>
    ∃ l before op after, lib = some l ∧ l.name = library ∧
      l.operations = before ++ op :: after ∧ (∀ op' ∈ before, ¬ op'.Uncallable) ∧
      op.name = name ∧ op.Uncallable
  | .duplicateName name line =>
    ∃ before after, p.declaredLines lib = before ++ (name, line) :: after ∧
      (before.map Prod.fst).Nodup ∧ name ∈ before.map Prod.fst
  | .wrongType (.ty t) actual line =>
    ∃ Γ e u, p.Holds lib Γ e u ∧ (e.Exhibits Γ (.wrongType (.ty t) actual line) ∨
      u = t ∧ e.HasType Γ actual ∧ e.mark = line ∧ actual ≠ t)
  | defect => ∃ Γ e u, p.Holds lib Γ e u ∧ e.Exhibits Γ defect

end RawProgram

/-! ## Single checks -/

variable {Γ : List (String × Ty)} {defect : Defect}

theorem Scope.find?_ofList_eq_none {x : String} :
    (Scope.ofList Γ).find? x = none ↔ x ∉ Γ.map Prod.fst := by
  rw [ofList, Bindings.find?, List.lookup_eq_none_iff]
  simp only [List.mem_reverse, bne_iff_ne, List.mem_map, not_exists, not_and]
  exact forall₂_congr fun d _ => ne_comm

theorem Scope.resolve_eq_error {x : String} {line : Line} :
    (Scope.ofList Γ).resolve x line = .error defect ↔
      x ∉ Γ.map Prod.fst ∧ defect = .unknownName x line := by
  rw [resolve, ← find?_ofList_eq_none]
  split <;> simp [*, eq_comm]

namespace Expr

variable {e : RawExpr} {r : TypedExpr} {t : Ty} {line : Line}

theorem expect_eq_error :
    r.expect t = .error defect ↔ r.ty ≠ t ∧ defect = .wrongType (.ty t) r.ty r.line := by
  unfold expect
  split
  · simp [*]
  · simp [*, eq_comm (a := defect)]

theorem signatureOf_eq_error :
    signatureOf line t = .error defect ↔
      (∀ ts u, t ≠ .fn ts u) ∧ defect = .wrongType .function t line := by
  cases t with
  | fn params ret => simp [signatureOf]
  | void | int | bool => simp [signatureOf, eq_comm]

/-- Checking leaves the line of the root. -/
theorem line_of_check {s : Scope} (h : e.check s = .ok r) : r.line = e.mark := by
  rw [← check_untyped h]
  cases r <;> rfl

/-- Arguments are refused for the defects of one of them, or for its type. -/
theorem checkArgs_failsWith {s : Scope} {P : Defect → Prop} {ts : List Ty} {args : List RawExpr}
    (h : ∀ a ∈ args.zip ts, FailsWith P (a.1.check s) ∧
      ∀ r, a.1.check s = .ok r → FailsWith P (r.expect a.2)) :
    FailsWith P (checkArgs s ts args) := by
  induction args generalizing ts with
  | nil => cases ts <;> exact .pure
  | cons a args ih =>
    cases ts with
    | nil => exact .pure
    | cons t ts =>
      rw [List.zip_cons_cons, List.forall_mem_cons] at h
      rw [checkArgs]
      exact h.1.1.bind fun r hr => (h.1.2 r hr).bind fun _ _ => (ih h.2).bind fun _ _ => .pure

/-! ## Expressions -/

/-- A defect of a subterm is a defect of the whole. -/
theorem Exhibits.of_mem {d : RawExpr} (h : d.Exhibits Γ defect) (hd : d ∈ e.subterms) :
    e.Exhibits Γ defect := by
  cases defect with
  | unknownName x line =>
    obtain ⟨c, hc, h⟩ := h
    exact ⟨c, mem_subterms_trans hc hd, h⟩
  | wrongArity f expected actual line =>
    obtain ⟨args, ts, t, hc, h⟩ := h
    exact ⟨args, ts, t, mem_subterms_trans hc hd, h⟩
  | wrongType expected actual line =>
    cases expected with
    | ty t =>
      obtain ⟨c, hc, h⟩ := h
      exact ⟨c, mem_subterms_trans hc hd, h⟩
    | function =>
      obtain ⟨f, args, hc, h⟩ := h
      exact ⟨f, args, mem_subterms_trans hc hd, h⟩
  | duplicateName | badTarget | uncallableOperation | badLiteral | noEntry | entryTakesParams =>
    exact h.elim

/-- A name that is used and not declared. -/
theorem resolve_exhibits (e : RawExpr) {x : String} (hx : e.Uses x) :
    FailsWith (e.Exhibits Γ) ((Scope.ofList Γ).resolve x e.mark) := by
  intro defect h
  obtain ⟨hnew, rfl⟩ := Scope.resolve_eq_error.1 h
  exact ⟨e, e.self_mem_subterms, hx, rfl, hnew⟩

/-- A part that has not the type its place asks for. -/
theorem Asks.expect_exhibits {part : RawExpr} (hpart : e.Asks Γ part t)
    (hr : part.check (.ofList Γ) = .ok r) : FailsWith (e.Exhibits Γ) (r.expect t) := by
  intro defect h
  obtain ⟨hne, rfl⟩ := expect_eq_error.1 h
  exact ⟨e, e.self_mem_subterms, part, hpart, hasType_of_check hr, (line_of_check hr).symm, hne⟩

/-- Operands that an operator does not take. -/
theorem expectOperands_exhibits {op : Operator} {a b : RawExpr} {a' b' : TypedExpr}
    (ha : a.check (.ofList Γ) = .ok a') (hb : b.check (.ofList Γ) = .ok b') :
    FailsWith ((binary line op a b).Exhibits Γ) (expectOperands op a' b') := by
  unfold expectOperands
  split
  · next hop =>
    exact (Asks.left hop).expect_exhibits ha |>.bind fun _ _ => (Asks.right hop).expect_exhibits hb
  · next hop => exact (Asks.same hop (hasType_of_check ha)).expect_exhibits hb

/-- A call whose target is no function, or takes another number of arguments, or is refused for one
of its arguments. -/
theorem call_exhibits {f : String} {args : List RawExpr}
    (hargs : ∀ a ∈ args, FailsWith ((call line f args).Exhibits Γ) (a.check (.ofList Γ))) :
    FailsWith ((call line f args).Exhibits Γ) ((call line f args).check (.ofList Γ)) := by
  rw [check]
  refine (resolve_exhibits (call line f args) rfl).bind fun t ht => ?_
  have hf := Scope.find?_ofList.1 (Scope.resolve_eq_ok.1 ht)
  refine FailsWith.bind ?_ fun sig hsig => ?_
  · intro defect h
    obtain ⟨hne, rfl⟩ := signatureOf_eq_error.1 h
    exact ⟨f, args, self_mem_subterms _, hf, hne⟩
  rw [signatureOf_eq_ok.1 hsig] at hf
  dsimp only
  split
  · next hlen =>
    refine (checkArgs_failsWith fun a ha => ⟨hargs a.1 (List.of_mem_zip ha).1, ?_⟩).bind
      fun _ _ => .pure
    exact fun r hr => (Asks.argument hf hlen.symm ha).expect_exhibits hr
  · next hlen =>
    rintro defect ⟨⟩
    exact ⟨args, sig.1, sig.2, self_mem_subterms _, hf, rfl, rfl, hlen⟩

/-- **What the checker reports about an expression is there.** -/
theorem check_exhibits (e : RawExpr) : FailsWith (e.Exhibits Γ) (e.check (.ofList Γ)) := by
  -- a part's defects are those of the whole; what else can fail is the demand of a place
  have part : ∀ {d e : RawExpr}, FailsWith (d.Exhibits Γ) (d.check (.ofList Γ)) →
      d ∈ e.subterms → FailsWith (e.Exhibits Γ) (d.check (.ofList Γ)) :=
    fun h hd => h.imp fun _ hbad => hbad.of_mem hd
  induction e using Expr.induct with
  | lit line v => exact .pure
  | var line x => exact (resolve_exhibits (var line x) rfl).bind fun _ _ => .pure
  | not line e ih =>
    exact (part ih (by simp [subterms, self_mem_subterms])).bind fun e' he =>
      (Asks.operand.expect_exhibits he).bind fun _ _ => .pure
  | call line f args ih =>
    exact call_exhibits fun a ha => part (ih a ha) (mem_subterms_call ha line f)
  | binary line op a b iha ihb =>
    exact (part iha (by simp [subterms, self_mem_subterms])).bind fun a' ha =>
      (part ihb (by simp [subterms, self_mem_subterms])).bind fun b' hb =>
      (expectOperands_exhibits ha hb).bind fun _ _ => .pure
  | cond line c a b ihc iha ihb =>
    exact (part ihc (by simp [subterms, self_mem_subterms])).bind fun c' hc =>
      (Asks.test.expect_exhibits hc).bind fun _ _ =>
      (part iha (by simp [subterms, self_mem_subterms])).bind fun a' ha =>
      (part ihb (by simp [subterms, self_mem_subterms])).bind fun b' hb =>
      ((Asks.branch (hasType_of_check ha)).expect_exhibits hb).bind fun _ _ => .pure
  | assign line x e ih =>
    exact (resolve_exhibits (assign line x e) rfl).bind fun t ht =>
      (part ih (by simp [subterms, self_mem_subterms])).bind fun e' he =>
      ((Asks.value (Scope.find?_ofList.1 (Scope.resolve_eq_ok.1 ht))).expect_exhibits he).bind
        fun _ _ => .pure
  | seq line a b iha ihb =>
    exact (part iha (by simp [subterms, self_mem_subterms])).bind fun a' ha =>
      (Asks.first.expect_exhibits ha).bind fun _ _ =>
      (part ihb (by simp [subterms, self_mem_subterms])).bind fun b' hb =>
      (Asks.second.expect_exhibits hb).bind fun _ _ => .pure

end Expr

/-! ## Declarations -/

/-- Variables are refused for the defects of one of them. -/
theorem checkVariables_failsWith {P : Defect → Prop} {vs : List (VarDecl Line)}
    (h : ∀ (i : ℕ) (v : VarDecl Line), vs[i]? = some v →
      FailsWith P (v.check (.ofList (Γ ++ declaredVariables (vs.take i))))) :
    FailsWith P (checkVariables (.ofList Γ) vs) := by
  induction vs generalizing Γ with
  | nil => exact .pure
  | cons v vs ih =>
    have hv := h 0 v rfl
    rw [List.take_zero, declaredVariables, List.map_nil, List.append_nil] at hv
    refine hv.bind fun w hw => ?_
    rw [Scope.bind_ofList, (VarDecl.check_ofList.1 hw).1.name_eq]
    refine (ih fun i u hu => ?_).bind fun _ _ => .pure
    rw [← append_declaredVariables]
    exact h (i + 1) u hu

/-- Functions are refused for the defects of one of them. -/
theorem checkFunctions_failsWith {P : Defect → Prop} {fs : List (FunDecl Line)}
    (h : ∀ (i : ℕ) (f : FunDecl Line), fs[i]? = some f →
      FailsWith P (f.check (.ofList (Γ ++ declaredFunctions (fs.take i))))) :
    FailsWith P (checkFunctions (.ofList Γ) fs) := by
  induction fs generalizing Γ with
  | nil => exact .pure
  | cons f fs ih =>
    have hf := h 0 f rfl
    rw [List.take_zero, declaredFunctions, List.map_nil, List.append_nil] at hf
    refine hf.bind fun g hg => ?_
    have hdec := (FunDecl.check_ofList.1 hg).1
    have hty : g.ty = f.ty := by rw [FunDecl.ty, FunDecl.ty, hdec.params_eq, hdec.ret_eq]
    rw [Scope.bind_ofList, hdec.name_eq, hty]
    refine (ih fun i u hu => ?_).bind fun _ _ => .pure
    rw [← append_declaredFunctions]
    exact h (i + 1) u hu

/-- The first declaration whose name has occurred before. -/
theorem checkDistinct_failsWith (seen : List String) (decls : List (String × Line)) :
    FailsWith (fun defect => ∃ before name line after, defect = .duplicateName name line ∧
      decls = before ++ (name, line) :: after ∧ (before.map Prod.fst).Nodup ∧
      (∀ x ∈ before.map Prod.fst, x ∉ seen) ∧ (name ∈ seen ∨ name ∈ before.map Prod.fst))
      (checkDistinct seen decls) := by
  intro defect h
  induction decls generalizing seen with
  | nil => cases h
  | cons d decls ih =>
    obtain ⟨x, line⟩ := d
    rw [checkDistinct] at h
    split at h
    · next hx =>
      cases h
      exact ⟨[], x, line, decls, rfl, rfl, List.nodup_nil, by simp, .inl hx⟩
    · next hx =>
      obtain ⟨before, name, line', after, rfl, rfl, hnd, hnew, hold⟩ := ih (x :: seen) h
      refine ⟨(x, line) :: before, name, line', after, rfl, rfl, ?_, ?_, ?_⟩
      · rw [List.map_cons, List.nodup_cons]
        exact ⟨fun hmem => hnew x hmem List.mem_cons_self, hnd⟩
      · rw [List.map_cons, List.forall_mem_cons]
        exact ⟨hx, fun y hy hmem => hnew y hy (List.mem_cons_of_mem _ hmem)⟩
      · simp only [List.mem_cons, List.map_cons] at hold ⊢
        tauto

theorem Operation.uncallable_iff {op : Operation} : op.Uncallable ↔ ¬ op.isCallable := by
  have hfn : ∀ t : Ty, (∃ ts u, t = .fn ts u) ↔ ¬ t.isPrimitive := by
    intro t
    cases t <;> simp [Ty.isPrimitive]
  have hsig : (∃ ts t, .fn ts t ∈ op.ret :: op.params) ↔
      ∃ t ∈ op.ret :: op.params, ¬ t.isPrimitive := by
    simp only [← hfn]
    constructor
    · rintro ⟨ts, t, h⟩
      exact ⟨_, h, ts, t, rfl⟩
    · rintro ⟨_, h, ts, t, rfl⟩
      exact ⟨ts, t, h⟩
  rw [Uncallable, hsig, isCallable_iff, List.exists_mem_cons_iff, not_and_or, not_and_or]
  simp only [not_forall, exists_prop]

/-- The first operation that cannot be called. -/
theorem Library.declare_exhibits (p : RawProgram) (l : Library) :
    FailsWith (p.Exhibits (some l)) (l.declare : Except Defect (List (FunDecl Mark))) := by
  intro defect h
  obtain ⟨before, op, after, hops, hbefore, hop⟩ := mapM_eq_error.1 h
  split at hop
  · cases hop
  · next hbad =>
    cases hop
    refine ⟨l, before, op, after, rfl, rfl, hops, fun op' hop' => ?_, rfl,
      Operation.uncallable_iff.2 hbad⟩
    obtain ⟨g, hg⟩ := hbefore op' hop'
    rw [Operation.uncallable_iff, not_not]
    split at hg
    · assumption
    · cases hg

/-! ## Programs -/

namespace RawProgram

variable {p : RawProgram} {lib : Option Library}

/-- A defect of an expression is one of the program that it stands in. -/
theorem Holds.exhibits {e : RawExpr} {t : Ty} (he : p.Holds lib Γ e t)
    (h : e.Exhibits Γ defect) : p.Exhibits lib defect := by
  cases defect with
  | unknownName | wrongArity => exact ⟨Γ, e, t, he, h⟩
  | wrongType expected actual line =>
    cases expected with
    | ty u => exact ⟨Γ, e, t, he, .inl h⟩
    | function => exact ⟨Γ, e, t, he, h⟩
  | duplicateName | badTarget | uncallableOperation | badLiteral | noEntry | entryTakesParams =>
    exact h.elim

/-- An expression of the program is refused for its defects, or for its type. -/
theorem Holds.check_exhibits {α : Type} {e : RawExpr} {t : Ty} (he : p.Holds lib Γ e t)
    (k : TypedExpr → α) :
    FailsWith (p.Exhibits lib) (do
      let r ← e.check (.ofList Γ)
      r.expect t
      return k r) := by
  refine (e.check_exhibits.imp fun _ => he.exhibits).bind fun r hr => ?_
  refine FailsWith.bind ?_ fun _ _ => .pure
  intro defect h
  obtain ⟨hne, rfl⟩ := Expr.expect_eq_error.1 h
  exact ⟨Γ, e, t, he, .inr ⟨rfl, Expr.hasType_of_check hr, (Expr.line_of_check hr).symm, hne⟩⟩

theorem check_variable_exhibits {i : ℕ} {v : VarDecl Line} (hv : p.variables[i]? = some v) :
    FailsWith (p.Exhibits lib) (v.check (.ofList (p.beforeVariable lib i))) :=
  (Holds.init hv).check_exhibits _

theorem check_function_exhibits {i : ℕ} {f : FunDecl Line} (hf : p.functions[i]? = some f) :
    FailsWith (p.Exhibits lib) (f.check (.ofList (p.beforeFunction lib i))) := by
  rw [FunDecl.check, Scope.ofBody_ofList]
  refine (FailsWith.optionMapM fun bound hbound => ?_).bind fun _ _ =>
    (FailsWith.optionMapM fun body hbody => ?_).bind fun _ _ => .pure
  · exact (Holds.fallback hf hbound).check_exhibits _
  · exact (Holds.body hf hbody).check_exhibits _

theorem declarations_declare (p : RawProgram) (lib : Option Library) :
    p.declarations ((operationsOf lib).map Operation.declare) = p.declaredLines lib := by
  rw [declarations, declaredLines, List.map_map]
  rfl

/-- What is reported once the operations of the library are declared. -/
theorem check_declared_exhibits (p : RawProgram) (lib : Option Library) :
    FailsWith (p.Exhibits lib) (do
      checkDistinct [] (p.declarations ((operationsOf lib).map Operation.declare))
      let r ← checkVariables
        (Scope.bindFunctions .empty ((operationsOf lib).map (Operation.declare (μ := Mark))))
        p.variables
      let functions ← checkFunctions r.2 p.functions
      return (⟨r.1, (operationsOf lib).map Operation.declare ++ functions, lib⟩ : TypedProgram)) := by
  rw [bindFunctions_declare, declarations_declare]
  refine ((checkDistinct_failsWith [] _).imp ?_).bind fun _ _ => ?_
  · rintro _ ⟨before, name, line, after, rfl, hdecls, hnd, -, hold⟩
    exact ⟨before, after, hdecls, hnd, hold.resolve_left List.not_mem_nil⟩
  refine (checkVariables_failsWith fun i v hv => ?_).bind fun r hr => ?_
  · exact check_variable_exhibits hv
  rw [(checkVariables_ofList.1 hr).1]
  refine (checkFunctions_failsWith fun i f hf => ?_).bind fun _ _ => .pure
  exact check_function_exhibits hf

/-- **What the checker reports is there.** A program that is refused has the defect for which it is
refused, in the place that is reported. -/
theorem exhibits_of_check_eq_error {defect : Defect} (h : p.check lib = .error defect) :
    p.Exhibits lib defect := by
  suffices hcheck : FailsWith (p.Exhibits lib) (p.check lib) from hcheck defect h
  cases lib with
  | none => exact p.check_declared_exhibits none
  | some l =>
    refine (l.declare_exhibits p).bind fun provided hprovided => ?_
    obtain ⟨-, rfl⟩ := Library.declare_eq_ok.1 hprovided
    exact p.check_declared_exhibits (some l)

/-- A sample program that is refused: the parameter of `dim` hides the variable of its name, so that
the branches of the conditional have different types. -/
def fading : RawProgram where
  «variables» := [⟨"level", .call 1 "sense" [], 1⟩]
  functions :=
    [⟨"dim", [⟨"level", .bool⟩], .int, some ⟨2, .var 2 "level"⟩,
        some (.cond 3 (.var 3 "level") (.call 3 "dim" [.not 3 (.var 3 "level")])
          (.var 4 "level")), 2⟩,
      ⟨"main", [], .void, none, some (.call 6 "beep" [.call 6 "dim" [.lit 6 (.bool true)]]), 5⟩]

theorem fading_exhibits :
    fading.check (some counterLibrary) = .error (.wrongType (.ty .int) .bool 4) ∧
      fading.Exhibits (some counterLibrary) (.wrongType (.ty .int) .bool 4) :=
  ⟨rfl, exhibits_of_check_eq_error rfl⟩

end RawProgram

end Rulebook
