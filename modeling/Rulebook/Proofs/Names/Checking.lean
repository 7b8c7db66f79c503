import Rulebook.Proofs.Names.Renamed
import Rulebook.Proofs.Typing.Acceptance

/-!
# Programs that differ only in names

Two programs differ only in names (`RawProgram.Renamed`) if their declarations stand at the same
places, and every name that occurs in the one and the name at the same place in the other stand for
the same declaration (`Corresponds`). Names of the host's functions stay.

The checker treats both alike, and fresh names leave no difference but in the names of functions.
What is known at each place, the types and the new names of what has been declared, is `Aligned`.
-/

namespace Rulebook

/-! ## Correspondence -/

/-- Where the pairs of names of `env` have been declared in order, in one program the first and in
another the second of each pair, `x` in the one and `x'` in the other stand for the same
declaration: the last one of either name. -/
def Corresponds (env : List (String × String)) (x x' : String) : Prop :=
  ∃ before after, env = before ++ (x, x') :: after ∧
    x ∉ after.map Prod.fst ∧ x' ∉ after.map Prod.snd

variable {μ : Type}

/-- The second expression is the first with other names for the same declarations. -/
abbrev Expr.RenamedIn (env : List (String × String)) (e e' : Expr μ) : Prop :=
  e.Renamed (Corresponds env) (Corresponds env) e'

/-- The second variable is the first, up to its name and the names in its initial value. -/
structure VarDecl.Renamed (env : List (String × String)) (v v' : VarDecl μ) : Prop where
  line_eq : v'.line = v.line
  init : v.init.RenamedIn env v'.init

/-- The second bound is the first, up to the names in the value beyond it. -/
structure Recursion.Renamed (env : List (String × String)) (r r' : Recursion μ) : Prop where
  depth_eq : r'.depth = r.depth
  fallback : r.fallback.RenamedIn env r'.fallback

/-- What two functions declare for their bodies: themselves, if their recursion is bounded, and
their parameters on top. -/
def FunDecl.pairsInside (f f' : FunDecl μ) : List (String × String) :=
  (if f.recursion.isSome then [(f.name, f'.name)] else []) ++
    (f.params.map Param.name).zip (f'.params.map Param.name)

/-- The second function is the first, up to its name and the names in it. -/
structure FunDecl.Renamed (env : List (String × String)) (f f' : FunDecl μ) : Prop where
  types_eq : f'.params.map Param.ty = f.params.map Param.ty
  ret_eq : f'.ret = f.ret
  line_eq : f'.line = f.line
  recursion : Option.Rel (Recursion.Renamed env) f.recursion f'.recursion
  body : Option.Rel (Expr.RenamedIn (env ++ f.pairsInside f')) f.body f'.body

/-- The names of the operations of a library, which stand for themselves. -/
def operationPairs (lib : Option Library) : List (String × String) :=
  (operationsOf lib).map fun op => (op.name, op.name)

/-- The names of variables at the same places. -/
def variablePairs (vs vs' : List (VarDecl Line)) : List (String × String) :=
  (vs.map VarDecl.name).zip (vs'.map VarDecl.name)

/-- The names of functions at the same places. -/
def functionPairs (fs fs' : List (FunDecl Line)) : List (String × String) :=
  (fs.map FunDecl.name).zip (fs'.map FunDecl.name)

/-- The second program is the first with other names for variables, for parameters and for functions
that are not provided. -/
structure RawProgram.Renamed (lib : Option Library) (p p' : RawProgram) : Prop where
  «variables» : Indexed (fun i v v' => v.Renamed (operationPairs lib ++
      variablePairs (p.variables.take i) (p'.variables.take i)) v') p.variables p'.variables
  functions : Indexed (fun i f f' => f.Renamed (operationPairs lib ++
      variablePairs p.variables p'.variables ++
        functionPairs (p.functions.take i) (p'.functions.take i)) f') p.functions p'.functions
  provided : Indexed (fun _ f f' => f.body = none → f'.name = f.name) p.functions p'.functions

theorem corresponds_concat {env : List (String × String)} {x x' y y' : String} :
    Corresponds (env ++ [(y, y')]) x x' ↔
      (x = y ∧ x' = y') ∨ (x ≠ y ∧ x' ≠ y' ∧ Corresponds env x x') := by
  constructor
  · rintro ⟨before, after, henv, hx, hx'⟩
    rcases List.eq_nil_or_concat after with rfl | ⟨after, z, rfl⟩
    · obtain ⟨-, h⟩ := List.append_inj' henv rfl
      simp only [List.cons.injEq, Prod.mk.injEq, and_true] at h
      exact .inl ⟨h.1.symm, h.2.symm⟩
    · rw [List.concat_eq_append] at henv hx hx'
      rw [← List.cons_append, ← List.append_assoc] at henv
      obtain ⟨rfl, h⟩ := List.append_inj' henv rfl
      obtain rfl : (y, y') = z := by simpa using h
      simp only [List.map_append, List.map_cons, List.map_nil, List.mem_append, List.mem_singleton,
        not_or] at hx hx'
      exact .inr ⟨hx.2, hx'.2, before, after, rfl, hx.1, hx'.1⟩
  · rintro (⟨rfl, rfl⟩ | ⟨hne, hne', before, after, rfl, hx, hx'⟩)
    · exact ⟨env, [], rfl, by simp, by simp⟩
    · refine ⟨before, after ++ [(y, y')], by simp, ?_, ?_⟩
      · simpa using ⟨by simpa using hx, hne⟩
      · simpa using ⟨by simpa using hx', hne'⟩

/-- The last declaration of either name is one of both. -/
theorem corresponds_iff_find? {env : List (String × String)} {x x' : String} :
    Corresponds env x x' ↔
      env.reverse.find? (fun q => q.1 = x ∨ q.2 = x') = some (x, x') := by
  induction env using List.reverseRecOn with
  | nil => simp [Corresponds]
  | append_singleton env q ih =>
    obtain ⟨y, y'⟩ := q
    rw [corresponds_concat, List.reverse_append, List.reverse_singleton, List.singleton_append,
      List.find?_cons, ih, ne_comm, @ne_comm _ x', @eq_comm _ x y, @eq_comm _ x' y']
    by_cases hy : y = x <;> by_cases hy' : y' = x' <;> simp [hy, hy']

instance (env : List (String × String)) (x x' : String) : Decidable (Corresponds env x x') :=
  decidable_of_iff _ corresponds_iff_find?.symm

theorem Corresponds.mem {env : List (String × String)} {x x' : String}
    (h : Corresponds env x x') : (x, x') ∈ env := by
  obtain ⟨before, after, rfl, -⟩ := h
  simp

/-! ## What is known at a place -/

/-- Names that stand for the same declaration have the same type. -/
def SameTypes (env : List (String × String)) (s s' : Scope) : Prop :=
  ∀ x x', Corresponds env x x' → s'.find? x' = s.find? x

namespace SameTypes

variable {env : List (String × String)} {s s' : Scope}

theorem bind (h : SameTypes env s s') (x x' : String) (t : Ty) :
    SameTypes (env ++ [(x, x')]) (s.bind x t) (s'.bind x' t) := by
  intro z z' hz
  rw [Bindings.find?_bind, Bindings.find?_bind]
  rcases corresponds_concat.1 hz with ⟨rfl, rfl⟩ | ⟨hne, hne', hz⟩
  · rw [if_pos rfl, if_pos rfl]
  · rw [if_neg hne, if_neg hne', h z z' hz]

theorem bindParams (h : SameTypes env s s') {ps ps' : List Param}
    (htypes : ps'.map Param.ty = ps.map Param.ty) :
    SameTypes (env ++ (ps.map Param.name).zip (ps'.map Param.name)) (s.bindParams ps)
      (s'.bindParams ps') := by
  induction ps generalizing env s s' ps' with
  | nil =>
    obtain rfl : ps' = [] := by simpa using htypes
    rwa [List.map_nil, List.zip_nil_left, List.append_nil]
  | cons q ps ih =>
    obtain _ | ⟨q', ps'⟩ := ps'
    · simp at htypes
    obtain ⟨hty, htypes⟩ := List.cons.inj htypes
    rw [Scope.bindParams_cons, Scope.bindParams_cons, hty]
    simpa using ih (h.bind q.name q'.name q.ty) htypes

theorem ofBody (h : SameTypes env s s') {f f' : FunDecl μ} (hf : f.Renamed env f') :
    SameTypes (env ++ f.pairsInside f') (s.ofBody f) (s'.ofBody f') := by
  have hty : f'.ty = f.ty := by rw [FunDecl.ty, FunDecl.ty, hf.types_eq, hf.ret_eq]
  rw [FunDecl.pairsInside, Scope.ofBody, Scope.ofBody, isSome_of_rel hf.recursion, hty,
    ← List.append_assoc]
  split
  · exact (h.bind f.name f'.name f.ty).bindParams hf.types_eq
  · rw [List.append_nil]
    exact h.bindParams hf.types_eq

end SameTypes

/-- What is known where the pairs of `env` have been declared, in two programs that differ only in
names. Names that stand for the same declaration have the same type in the scopes `s` and `s'`; a
value is renamed to the same variable by `g` and by `g'`; and functions stand for each other by
`calls`. -/
structure Aligned (env : List (String × String)) (calls : String → String → Prop) (s s' : Scope)
    (g g' : Substitution) : Prop where
  types : SameTypes env s s'
  values : ∀ x x' t, Corresponds env x x' → s.find? x = some t → t.isPrimitive →
    ∃ m y, g.find? x = some (.var m y) ∧ g'.find? x' = some (.var m y)
  functions : ∀ x x' ts t, Corresponds env x x' → s.find? x = some (.fn ts t) → calls x x'

namespace Aligned

variable {env : List (String × String)} {calls : String → String → Prop} {s s' : Scope}
  {g g' : Substitution}

/-- A value that is declared, with the variable that stands for it. -/
theorem bind_value (h : Aligned env calls s s' g g') (x x' : String) {t : Ty} (ht : t.isPrimitive)
    (m : Mark) (y : String) :
    Aligned (env ++ [(x, x')]) calls (s.bind x t) (s'.bind x' t) (g.bind x (.var m y))
      (g'.bind x' (.var m y)) := by
  refine ⟨h.types.bind x x' t, ?_, ?_⟩
  · intro z z' u hz hu hprim
    rw [Bindings.find?_bind] at hu ⊢
    rw [Bindings.find?_bind]
    rcases corresponds_concat.1 hz with ⟨rfl, rfl⟩ | ⟨hne, hne', hz⟩
    · rw [if_pos rfl, if_pos rfl]
      exact ⟨m, y, rfl, rfl⟩
    · rw [if_neg hne] at hu ⊢
      rw [if_neg hne']
      exact h.values z z' u hz hu hprim
  · intro z z' ts u hz hu
    rw [Bindings.find?_bind] at hu
    rcases corresponds_concat.1 hz with ⟨rfl, rfl⟩ | ⟨hne, -, hz⟩
    · rw [if_pos rfl, Option.some.injEq] at hu
      rw [hu] at ht
      cases ht
    · rw [if_neg hne] at hu
      exact h.functions z z' ts u hz hu

/-- A function that is declared needs no variable. -/
theorem bind_function (h : Aligned env calls s s' g g') {f f' : String} (hf : calls f f')
    (ts : List Ty) (t : Ty) :
    Aligned (env ++ [(f, f')]) calls (s.bind f (.fn ts t)) (s'.bind f' (.fn ts t)) g g' := by
  refine ⟨h.types.bind f f' _, ?_, ?_⟩
  · intro z z' u hz hu hprim
    rw [Bindings.find?_bind] at hu
    rcases corresponds_concat.1 hz with ⟨rfl, rfl⟩ | ⟨hne, -, hz⟩
    · rw [if_pos rfl, Option.some.injEq] at hu
      rw [← hu] at hprim
      cases hprim
    · rw [if_neg hne] at hu
      exact h.values z z' u hz hu hprim
  · intro z z' us u hz hu
    rw [Bindings.find?_bind] at hu
    rcases corresponds_concat.1 hz with ⟨rfl, rfl⟩ | ⟨hne, -, hz⟩
    · exact hf
    · rw [if_neg hne] at hu
      exact h.functions z z' us u hz hu

theorem mono {calls' : String → String → Prop} (h : Aligned env calls s s' g g')
    (hcalls : ∀ f f', calls f f' → calls' f f') : Aligned env calls' s s' g g' :=
  ⟨h.types, h.values, fun x x' ts t hx ht => hcalls x x' (h.functions x x' ts t hx ht)⟩

end Aligned

/-! ## Expressions -/

section

variable {env : List (String × String)} {calls : String → String → Prop} {s s' : Scope}
  {g g' : Substitution}

theorem Scope.resolve_together {x x' : String} (h : s'.find? x' = s.find? x) (line : Line) :
    Together Eq (s.resolve x line) (s'.resolve x' line) := by
  unfold Scope.resolve
  rw [h]
  cases s.find? x with
  | none => exact .error _ _
  | some t => exact .pure rfl

theorem Expr.expect_together {e e' : TypedExpr} (h : e'.ty = e.ty) (t : Ty) :
    Together Eq (e.expect t) (e'.expect t) := by
  unfold Expr.expect
  rw [h]
  split
  · exact .pure rfl
  · exact .error _ _

theorem Expr.expectOperands_together {op : Operator} {l l' r r' : TypedExpr} (hl : l'.ty = l.ty)
    (hr : r'.ty = r.ty) : Together Eq (expectOperands op l r) (expectOperands op l' r') := by
  unfold Expr.expectOperands
  cases op.operandTy? with
  | some t => exact (expect_together hl t).bind fun _ _ _ => expect_together hr t
  | none =>
    dsimp only
    rw [hl]
    exact expect_together hr l.ty

theorem Expr.checkArgs_together {args args' : List RawExpr} (ts : List Ty)
    (h : List.Forall₂ (fun a a' => Together (RenamedIn env) (a.check s) (a'.check s')) args args') :
    Together (List.Forall₂ (RenamedIn env)) (checkArgs s ts args) (checkArgs s' ts args') := by
  induction h generalizing ts with
  | nil => cases ts <;> exact .pure .nil
  | cons ha _ ih =>
    cases ts with
    | nil => exact .pure .nil
    | cons t ts =>
      rw [checkArgs, checkArgs]
      exact ha.bind fun a a' haa => (expect_together haa.ty_eq t).bind fun _ _ _ =>
        (ih ts).bind fun as as' has => .pure (.cons haa has)

/-- **Checking expressions that differ only in names.** -/
theorem Expr.RenamedIn.check {e e' : RawExpr} (h : e.RenamedIn env e')
    (hs : SameTypes env s s') :
    Together (Expr.RenamedIn env) (e.check s) (e'.check s') := by
  induction h with
  | lit line v => exact .pure (.lit _ v)
  | var hx =>
    rw [Expr.check, Expr.check]
    refine (Scope.resolve_together (hs _ _ hx) _).bind ?_
    rintro t _ rfl
    exact .pure (.var hx)
  | not _ ih =>
    rw [Expr.check, Expr.check]
    exact ih.bind fun e e' he => (expect_together he.ty_eq .bool).bind fun _ _ _ => .pure (.not he)
  | @call line f f' args args' hf hlen _ ih =>
    rw [Expr.check, Expr.check]
    refine (Scope.resolve_together (hs _ _ hf) _).bind ?_
    rintro t _ rfl
    refine (Together.refl (signatureOf line t)).bind ?_
    rintro ⟨ts, u⟩ _ rfl
    dsimp only
    rw [← hlen]
    split
    · refine (checkArgs_together ts (List.forall₂_iff_zip.2 ⟨hlen, ih _⟩)).bind ?_
      exact fun as as' has => .pure (.call_of_forall₂ hf has)
    · exact .error _ _
  | binary _ _ ihl ihr =>
    rw [Expr.check, Expr.check]
    exact ihl.bind fun l l' hl => ihr.bind fun r r' hr =>
      (expectOperands_together hl.ty_eq hr.ty_eq).bind fun _ _ _ => .pure (.binary hl hr)
  | cond _ _ _ ihc iht ihe =>
    rw [Expr.check, Expr.check]
    refine ihc.bind fun c c' hc => (expect_together hc.ty_eq .bool).bind fun _ _ _ =>
      iht.bind fun t t' ht => ihe.bind fun e e' he => ?_
    rw [ht.ty_eq]
    refine (expect_together he.ty_eq t.ty).bind fun _ _ _ => .pure ?_
    unfold conditional
    rw [ht.ty_eq]
    exact .cond hc ht he
  | assign hx _ ih =>
    rw [Expr.check, Expr.check]
    refine (Scope.resolve_together (hs _ _ hx) _).bind ?_
    rintro t _ rfl
    exact ih.bind fun e e' he => (expect_together he.ty_eq t).bind fun _ _ _ =>
      .pure (.assign hx he)
  | seq _ _ iha ihb =>
    rw [Expr.check, Expr.check]
    exact iha.bind fun a a' ha => (expect_together ha.ty_eq .void).bind fun _ _ _ =>
      ihb.bind fun b b' hb => (expect_together hb.ty_eq .void).bind fun _ _ _ => .pure (.seq ha hb)

/-- **Fresh names leave no difference but in the names of functions.** -/
theorem Expr.RenamedIn.substitute {e e' : TypedExpr} (h : e.RenamedIn env e')
    (hw : e.WellTyped (.ofValues s)) (ha : Aligned env calls s s' g g') :
    Together (Expr.Renamed Eq calls) (e.substitute g) (e'.substitute g') := by
  rw [substitute_eq_rewrite, substitute_eq_rewrite]
  have hrenamed : e.Renamed
      (fun x x' => ∃ m y, g.find? x = some (.var m y) ∧ g'.find? x' = some (.var m y)) calls e' := by
    refine (h.of_wellTyped hw).mono ?_ ?_
    · rintro x x' ⟨hx, t, ht, hprim⟩
      exact ha.values x x' t hx ht hprim
    · rintro f f' ⟨hf, ts, t, ht⟩
      exact ha.functions f f' ts t hf ht
  refine hrenamed.rewrite (.ofSubstitution ?_)
  rintro x x' ⟨m, y, hx, hx'⟩
  rw [hx, hx']
  exact ⟨.some (.var rfl), nofun⟩

/-! ## Functions -/

/-- The parameters get the same new names, and the bodies are at a place of their own. -/
theorem Aligned.bindParams (ha : Aligned env calls s s' g g') {ps ps' : List Param}
    (htypes : ps'.map Param.ty = ps.map Param.ty) (hprim : ∀ q ∈ ps, q.ty.isPrimitive)
    (line : Line) (n : FreshNames) :
    ∃ qs scope scope' n', freshenParams line g n ps = (qs, scope, n') ∧
      freshenParams line g' n ps' = (qs, scope', n') ∧
      Aligned (env ++ (ps.map Param.name).zip (ps'.map Param.name)) calls (s.bindParams ps)
        (s'.bindParams ps') scope scope' := by
  induction ps generalizing env s s' g g' n ps' with
  | nil =>
    obtain rfl : ps' = [] := by simpa using htypes
    refine ⟨[], g, g', n, rfl, rfl, ?_⟩
    rwa [List.map_nil, List.zip_nil_left, List.append_nil]
  | cons q ps ih =>
    obtain _ | ⟨q', ps'⟩ := ps'
    · simp at htypes
    obtain ⟨hty, htypes⟩ := List.cons.inj htypes
    have hq := ha.bind_value q.name q'.name (hprim q List.mem_cons_self) ⟨q.ty, line⟩
      (FreshNames.name n.next)
    obtain ⟨qs, scope, scope', n', hps, hps', hal⟩ := ih hq htypes
      (fun r hr => hprim r (List.mem_cons_of_mem _ hr)) ⟨n.next + 1⟩
    refine ⟨⟨FreshNames.name n.next, q.ty⟩ :: qs, scope, scope', n', ?_, ?_, ?_⟩
    · exact freshenParams_cons.2 ⟨qs, hps, rfl⟩
    · exact freshenParams_cons.2 ⟨qs, by rw [hty, hps'], by rw [hty]⟩
    · rw [Scope.bindParams_cons, Scope.bindParams_cons, hty]
      simpa using hal

/-- The place of the bodies of two functions. -/
theorem Aligned.ofBody (ha : Aligned env calls s s' g g') {f f' : FunDecl μ}
    (hf : f.Renamed env f') (hcalls : calls f.name f'.name)
    (hprim : ∀ q ∈ f.params, q.ty.isPrimitive) (line : Line) (n : FreshNames) :
    ∃ qs scope scope' n', freshenParams line g n f.params = (qs, scope, n') ∧
      freshenParams line g' n f'.params = (qs, scope', n') ∧
      Aligned (env ++ f.pairsInside f') calls (s.ofBody f) (s'.ofBody f') scope scope' := by
  have hty : f'.ty = f.ty := by rw [FunDecl.ty, FunDecl.ty, hf.types_eq, hf.ret_eq]
  rw [FunDecl.pairsInside, Scope.ofBody, Scope.ofBody, isSome_of_rel hf.recursion, hty,
    ← List.append_assoc]
  split
  · exact (ha.bind_function hcalls _ _).bindParams hf.types_eq hprim line n
  · rw [List.append_nil]
    exact ha.bindParams hf.types_eq hprim line n

/-- **Checking functions that differ only in names.** -/
theorem FunDecl.Renamed.check {f f' : FunDecl Line} (hf : f.Renamed env f')
    (hs : SameTypes env s s') : Together (FunDecl.Renamed env) (f.check s) (f'.check s') := by
  have hrecs : Option.Rel (fun r r' : Recursion Line => Together (Recursion.Renamed env)
      (do let fallback ← r.fallback.check s
          fallback.expect f.ret
          return ({ r with fallback } : Recursion Mark))
      (do let fallback ← r'.fallback.check s'
          fallback.expect f'.ret
          return { r' with fallback })) f.recursion f'.recursion := by
    refine rel_imp (fun r r' hr => ?_) hf.recursion
    rw [hf.ret_eq]
    exact (hr.fallback.check hs).bind fun e e' he =>
      (Expr.expect_together he.ty_eq f.ret).bind fun _ _ _ => .pure ⟨hr.depth_eq, he⟩
  have hbodies : Option.Rel (fun b b' : RawExpr =>
      Together (Expr.RenamedIn (env ++ f.pairsInside f'))
        (do let b ← b.check (s.ofBody f)
            b.expect f.ret
            return b)
        (do let b' ← b'.check (s'.ofBody f')
            b'.expect f'.ret
            return b')) f.body f'.body := by
    refine rel_imp (fun b b' hb => ?_) hf.body
    rw [hf.ret_eq]
    exact (Expr.RenamedIn.check hb (hs.ofBody hf)).bind fun e e' he =>
      (Expr.expect_together he.ty_eq f.ret).bind fun _ _ _ => .pure he
  rw [FunDecl.check, FunDecl.check]
  -- the bound stays, so the bodies are at the same place as before
  have hsome := (Together.optionMapM hrecs).imp fun r r' hr _ hrr =>
    (⟨hrr, isSome_of_rel (optionMapM_eq_ok.1 hr)⟩ : _ ∧ r.isSome = f.recursion.isSome)
  refine hsome.bind fun r r' hr => (Together.optionMapM hbodies).bind fun b b' hb => .pure ?_
  refine ⟨hf.types_eq, hf.ret_eq, hf.line_eq, hr.1, ?_⟩
  unfold FunDecl.pairsInside at hb ⊢
  dsimp only
  rwa [hr.2]

/-- Two functions that differ only in the names of functions. Of provided functions nothing is
asked. -/
inductive FunDecl.Recalled (calls : String → String → Prop) (f f' : FunDecl Mark) : Prop
  | provided : f.body = none → f'.body = none → Recalled calls f f'
  | defined {b b' : TypedExpr} : f.body = some b → f'.body = some b' → calls f.name f'.name →
    f'.params = f.params →
    Option.Rel (fun r r' : Recursion Mark => r'.depth = r.depth ∧
      r.fallback.Renamed Eq calls r'.fallback) f.recursion f'.recursion →
    b.Renamed Eq calls b' → Recalled calls f f'

/-- **Fresh names in functions that differ only in names.** -/
theorem FunDecl.Renamed.freshen {f f' : FunDecl Mark} (hf : f.Renamed env f')
    (ha : Aligned env calls s s' g g') (hcalls : calls f.name f'.name)
    (hprim : ∀ q ∈ f.params, q.ty.isPrimitive)
    (hchecked : ∀ body, f.body = some body → f.Checked s body) (n : FreshNames) :
    Together (fun a a' => a.1.Recalled calls a'.1 ∧ a'.2 = a.2) (f.freshen g n)
      (f'.freshen g' n) := by
  have hrel := hf.body
  unfold FunDecl.freshen
  cases hbody : f.body with
  | none =>
    rw [hbody] at hrel
    rw [eq_none_of_rel hrel]
    exact .pure ⟨.provided hbody (eq_none_of_rel hrel), rfl⟩
  | some body =>
    rw [hbody] at hrel
    obtain ⟨body', hbody', hb⟩ := eq_some_of_rel hrel
    obtain ⟨typed, -, hfallback⟩ := hchecked body hbody
    obtain ⟨qs, scope, scope', n', hps, hps', hal⟩ := ha.ofBody hf hcalls hprim f.line n
    rw [hbody', hf.line_eq]
    dsimp only
    rw [hps, hps']
    dsimp only
    have hrecs : Option.Rel (fun r r' : Recursion Mark =>
        Together (fun r r' : Recursion Mark => r'.depth = r.depth ∧
            r.fallback.Renamed Eq calls r'.fallback)
          (do let fallback ← r.fallback.substitute g
              return { r with fallback })
          (do let fallback ← r'.fallback.substitute g'
              return { r' with fallback })) f.recursion f'.recursion := by
      refine rel_of_mem hf.recursion fun r hr r' _ hrr => ?_
      exact (Expr.RenamedIn.substitute hrr.fallback (hfallback r hr).1 ha).bind fun e e' he =>
        .pure ⟨hrr.depth_eq, he⟩
    refine (Together.optionMapM hrecs).bind fun r r' hr => ?_
    refine (Expr.RenamedIn.substitute hb typed hal).bind fun b b' hb => .pure ⟨?_, rfl⟩
    exact .defined rfl rfl hcalls rfl hr hb

end

/-! ## Lists of declarations -/

section

variable {env : List (String × String)} {calls : String → String → Prop} {s s' : Scope}
  {g g' : Substitution}

theorem append_variablePairs (v v' : VarDecl Line) (vs vs' : List (VarDecl Line)) :
    env ++ variablePairs (v :: vs) (v' :: vs') =
      env ++ [(v.name, v'.name)] ++ variablePairs vs vs' := by
  rw [List.append_assoc, List.singleton_append]
  rfl

theorem append_functionPairs (f f' : FunDecl Line) (fs fs' : List (FunDecl Line)) :
    env ++ functionPairs (f :: fs) (f' :: fs') =
      env ++ [(f.name, f'.name)] ++ functionPairs fs fs' := by
  rw [List.append_assoc, List.singleton_append]
  rfl

/-- **Variables that differ only in names**: checked and renamed they are the same. -/
theorem checkVariables_together {vs vs' : List (VarDecl Line)}
    (hvs : Indexed (fun i v v' =>
      v.Renamed (env ++ variablePairs (vs.take i) (vs'.take i)) v') vs vs')
    (ha : Aligned env calls s s' g g') (hcalls : ∀ f f', calls f f' → f = f')
    {funs : String → List Ty → Ty → Prop} (hs : s.FunctionsIn funs)
    (hprim : ∀ f ts t, funs f ts t → t.isPrimitive)
    (hreads : ∀ v ∈ vs, ∀ x ∈ v.init.reads, ∀ ts t, ¬ funs x ts t) (n : FreshNames) :
    Together (fun r r' => SameTypes (env ++ variablePairs vs vs') r.2 r'.2 ∧ Together
        (fun a a' => a'.1 = a.1 ∧ a'.2.2 = a.2.2 ∧
          Aligned (env ++ variablePairs vs vs') calls r.2 r'.2 a.2.1 a'.2.1)
        (freshenVariables g n r.1) (freshenVariables g' n r'.1))
      (checkVariables s vs) (checkVariables s' vs') := by
  induction vs generalizing env s s' g g' n vs' with
  | nil =>
    obtain rfl := Indexed.nil_left.1 hvs
    rw [variablePairs, List.map_nil, List.zip_nil_left, List.append_nil]
    exact .pure ⟨ha.types, .pure ⟨rfl, rfl, ha⟩⟩
  | cons v vs ih =>
    obtain ⟨v', vs', rfl, hv, hvs⟩ := Indexed.cons_left.1 hvs
    simp only [List.take_zero, List.take_succ_cons, append_variablePairs] at hv hvs ⊢
    rw [variablePairs, List.map_nil, List.zip_nil_left, List.append_nil] at hv
    have hcheck : Together (fun w w' => ∃ e e', w = ⟨v.name, e, v.line⟩ ∧
        w' = ⟨v'.name, e', v.line⟩ ∧ e.RenamedIn env e' ∧ e.WellTyped (.ofValues s))
        (v.check s) (v'.check s') := by
      have hinit : Together (fun e e' => e.RenamedIn env e' ∧ e.WellTyped (.ofValues s))
          (v.init.check s) (v'.init.check s') :=
        (hv.init.check ha.types).imp fun e e' he _ hee =>
          ⟨hee, Expr.check_ofValues_of_reads hs hprim (hreads v List.mem_cons_self) he⟩
      rw [VarDecl.check, VarDecl.check]
      refine hinit.bind fun e e' he => ?_
      refine (Expr.expect_together he.1.ty_eq .int).bind fun _ _ _ => .pure ?_
      exact ⟨e, e', rfl, by rw [hv.line_eq], he⟩
    rw [checkVariables, checkVariables]
    refine hcheck.bind ?_
    rintro _ _ ⟨e, e', rfl, rfl, he, hw⟩
    have ha' := ha.bind_value v.name v'.name (t := .int) rfl ⟨.int, v.line⟩ (FreshNames.name n.next)
    refine (ih hvs ha' (hs.bind v.name rfl) (fun u hu => hreads u (List.mem_cons_of_mem _ hu))
      ⟨n.next + 1⟩).bind fun r r' hr => .pure ⟨hr.1, ?_⟩
    rw [freshenVariables, freshenVariables]
    refine (he.substitute hw ha).bind fun i i' hi => ?_
    obtain rfl := (hi.mono (fun _ _ h => h) hcalls).eq
    refine hr.2.bind ?_
    rintro ⟨ws, globals, m⟩ ⟨ws', globals', m'⟩ ⟨hws, hm, hal⟩
    exact .pure ⟨congrArg (List.cons _) hws, hm, hal⟩

/-- **Functions that differ only in names**: checked and renamed they differ only in the names of
functions. -/
theorem checkFunctions_together {p : RawProgram} {lib : Option Library} (hfo : p.FirstOrder lib)
    {fs fs' : List (FunDecl Line)} (hmem : ∀ f ∈ fs, f ∈ p.functions)
    (hfs : Indexed (fun i f f' =>
      f.Renamed (env ++ functionPairs (fs.take i) (fs'.take i)) f') fs fs')
    (hcalls : ∀ q ∈ functionPairs fs fs', calls q.1 q.2) (ht : SameTypes env s s')
    (hs : s.FunctionsIn fun f _ t => f ∈ p.functionNames lib ∧ t.isPrimitive) :
    Together (fun ks ks' => ∀ g g' n, Aligned env calls s s' g g' →
        Together (List.Forall₂ (FunDecl.Recalled calls)) (freshenFunctions g n ks)
          (freshenFunctions g' n ks'))
      (checkFunctions s fs) (checkFunctions s' fs') := by
  induction fs generalizing env s s' fs' with
  | nil =>
    obtain rfl := Indexed.nil_left.1 hfs
    exact .pure fun g g' n _ => .pure .nil
  | cons f fs ih =>
    obtain ⟨f', fs', rfl, hf, hfs⟩ := Indexed.cons_left.1 hfs
    simp only [List.take_zero, List.take_succ_cons, append_functionPairs] at hf hfs
    rw [functionPairs, List.map_nil, List.zip_nil_left, List.append_nil] at hf
    have hfp := hmem f List.mem_cons_self
    obtain ⟨hret, hprim⟩ := hfo.types f hfp
    have hname : calls f.name f'.name := hcalls (f.name, f'.name) List.mem_cons_self
    have hfn : f.name ∈ p.functionNames lib :=
      List.mem_append_right _ (List.mem_map_of_mem hfp)
    have hcheck : Together (fun k k' => k.Renamed env k' ∧ (k.name = f.name ∧ k.ty = f.ty ∧
        k.params = f.params) ∧ (k'.name = f'.name ∧ k'.ty = f.ty) ∧
        ∀ body, k.body = some body → k.Checked s body) (f.check s) (f'.check s') := by
      refine (hf.check ht).imp fun k k' hk hk' hkk => ?_
      obtain ⟨hkname, hkparams, hkret, -⟩ := FunDecl.check_eq_ok hk
      obtain ⟨hkname', hkparams', hkret', -⟩ := FunDecl.check_eq_ok hk'
      refine ⟨hkk, ⟨hkname, ?_, hkparams⟩, ⟨hkname', ?_⟩, fun body hbody => ?_⟩
      · rw [FunDecl.ty, FunDecl.ty, hkparams, hkret]
      · rw [FunDecl.ty, FunDecl.ty, hkparams', hkret', hf.types_eq, hf.ret_eq]
      · refine .of_check hk hs (fun _ _ _ h => h.2) ⟨hret, hprim⟩ ?_ ?_ hbody
        · exact fun bound hb x hx _ _ hx' => hfo.fallbacks f hfp bound hb x hx hx'.1
        · intro b hb x hx
          refine (hfo.bodies f hfp b hb x hx).imp_right fun hx => ⟨?_, fun _ _ hx' => hx hx'.1⟩
          rintro rfl
          exact hx hfn
    rw [checkFunctions, checkFunctions]
    refine hcheck.bind ?_
    rintro k k' ⟨hkk, ⟨hkname, hkty, hkparams⟩, ⟨hkname', hkty'⟩, hchecked⟩
    rw [hkname, hkty, hkname', hkty']
    refine (ih (fun f hf => hmem f (List.mem_cons_of_mem _ hf)) hfs
      (fun q hq => hcalls q (List.mem_cons_of_mem _ hq)) (ht.bind f.name f'.name f.ty)
      (hs.bind_fn ⟨hfn, hret⟩)).bind ?_
    intro ks ks' hks
    refine .pure fun g g' n ha => ?_
    rw [freshenFunctions, freshenFunctions]
    refine (hkk.freshen ha (by rwa [hkname, hkname']) (by rwa [hkparams]) hchecked n).bind ?_
    rintro ⟨l, m⟩ ⟨l', m'⟩ ⟨hl, rfl⟩
    refine (hks g g' m' (ha.bind_function hname _ _)).bind fun ls ls' hls => ?_
    exact .pure (.cons hl hls)

end

end Rulebook
