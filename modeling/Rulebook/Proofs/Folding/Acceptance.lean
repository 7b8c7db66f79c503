import Rulebook.Proofs.Folding.Lowering

/-!
# Acceptance with and without folding

Folding drops the branch that a conditional does not take, and with it the assignments in that
branch. A program can therefore be accepted with folding and refused without: inlining may have to
carry out an assignment to a parameter whose argument is not a variable, and folding may have
dropped that assignment, or made the argument a variable (`RawProgram.resetting_refused`).

There is no other way. If no test in a function body folds to a truth value, folding the body only
evaluates operations on literals (`Expr.Tidies`). What is evaluated is no variable, neither before
nor after, so inlining succeeds with the one if and only if it does with the other
(`inlineAll_tidies`). And what inlining refuses is an assignment to a parameter of an inlined
function (`inlineEach_failsWith`). `RawProgram.compile_without_folding` puts the two together.
-/

namespace Rulebook

/-! ## What inlining refuses -/

/-- The body assigns to a parameter. -/
def Callee.AssignsParam (f : Callee) : Prop := ∃ x ∈ f.params, x ∈ f.body.targets

/-- An assignment to something that is not a variable, in one of the functions. -/
def Defect.TargetsArgument (fs : List Callee) (defect : Defect) : Prop :=
  (∃ found line, defect = .badTarget found line) ∧ ∃ f ∈ fs, f.AssignsParam

theorem Expr.rewrite_failsWith {ρ : Rewriting} {P : Defect → Prop} {e : TypedExpr}
    (htarget : ∀ x ∈ e.targets, ∀ line, FailsWith P (ρ.target x line))
    (hcall : ∀ m f args, FailsWith P (ρ.call m f args)) : FailsWith P (e.rewrite ρ) := by
  induction e using Expr.induct with
  | lit m v => exact .pure
  | var m x => exact .pure
  | not m e ih =>
    simp only [targets, collect_not, target?, Option.toList_none, List.nil_append] at htarget
    exact (ih htarget).bind fun _ _ => .pure
  | call m f args ih =>
    rw [rewrite, rewriteArgs_eq_mapM]
    refine (FailsWith.mapM fun a ha => ih a ha fun x hx => ?_).bind fun args _ => hcall m f args
    exact htarget x (collect_subset (mem_subterms_call ha m f) hx)
  | binary m op l r ihl ihr =>
    simp only [targets, collect_binary, target?, Option.toList_none, List.nil_append,
      List.forall_mem_append] at htarget
    exact (ihl htarget.1).bind fun _ _ => (ihr htarget.2).bind fun _ _ => .pure
  | cond m c t e ihc iht ihe =>
    simp only [targets, collect_cond, target?, Option.toList_none, List.nil_append,
      List.forall_mem_append] at htarget
    obtain ⟨⟨hc, ht⟩, he⟩ := htarget
    exact (ihc hc).bind fun _ _ => (iht ht).bind fun _ _ => (ihe he).bind fun _ _ => .pure
  | assign m x e ih =>
    simp only [targets, collect_assign, target?, Option.toList_some, List.singleton_append,
      List.forall_mem_cons] at htarget
    exact (htarget.1 m.line).bind fun _ _ => (ih htarget.2).bind fun _ _ => .pure
  | seq m a b iha ihb =>
    simp only [targets, collect_seq, target?, Option.toList_none, List.nil_append,
      List.forall_mem_append] at htarget
    exact (iha htarget.1).bind fun _ _ => (ihb htarget.2).bind fun _ _ => .pure

theorem Substitution.target_failsWith (s : Substitution) (x : String) (line : Line) :
    FailsWith (fun defect => (∃ found line, defect = .badTarget found line) ∧ s.find? x ≠ none)
      (s.target x line) := by
  intro defect h
  unfold target at h
  split at h
  · cases h
  · cases h
  · next hx =>
    cases h
    exact ⟨⟨_, _, rfl⟩, by simp [hx]⟩

/-- Putting arguments for parameters fails only at an assignment to a parameter. -/
theorem Callee.apply_failsWith {fs : List Callee} {f : Callee} (hf : f ∈ fs)
    (args : List TypedExpr) : FailsWith (Defect.TargetsArgument fs) (f.apply args) := by
  rw [apply, Expr.substitute_eq_rewrite]
  refine Expr.rewrite_failsWith (fun x hx line => ?_) (fun _ _ _ => .pure)
  refine (Substitution.target_failsWith _ x line).imp fun defect h => ⟨h.1, f, hf, x, ?_, hx⟩
  by_contra hparam
  exact h.2 (Substitution.find?_ofArgs_of_not_mem args hparam)

/-- **What inlining refuses** is an assignment to a parameter of an inlined function. -/
theorem inlineEach_failsWith {fs gs : List Callee} (hgs : gs ⊆ fs) (e : TypedExpr) :
    FailsWith (Defect.TargetsArgument fs) (inlineEach gs e) := by
  induction gs generalizing e with
  | nil => exact .pure
  | cons g gs ih =>
    obtain ⟨hg, hgs⟩ := List.cons_subset.1 hgs
    rw [inlineEach, Expr.inline_eq_rewrite]
    refine (Expr.rewrite_failsWith (fun _ _ _ => .pure) fun m f args => ?_).bind fun e _ => ih hgs e
    unfold Rewriting.ofCallee
    dsimp only
    split
    · exact Callee.apply_failsWith hg args
    · exact .pure

/-! ## Folding that drops nothing -/

namespace Expr

/-- The second expression is the first with some operations on literals evaluated. -/
inductive Tidies : TypedExpr → TypedExpr → Prop
  | lit (m : Mark) (v : Literal) : Tidies (.lit m v) (.lit m v)
  | var (m : Mark) (x : String) : Tidies (.var m x) (.var m x)
  | not {m : Mark} {e e' : TypedExpr} : Tidies e e' → Tidies (.not m e) (.not m e')
  | call {m : Mark} {f : String} {args args' : List TypedExpr} :
    args.length = args'.length → (∀ p ∈ args.zip args', Tidies p.1 p.2) →
    Tidies (.call m f args) (.call m f args')
  | binary {m : Mark} {op : Operator} {l l' r r' : TypedExpr} :
    Tidies l l' → Tidies r r' → Tidies (.binary m op l r) (.binary m op l' r')
  | cond {m : Mark} {c c' t t' e e' : TypedExpr} :
    Tidies c c' → Tidies t t' → Tidies e e' → Tidies (.cond m c t e) (.cond m c' t' e')
  | assign {m : Mark} {x : String} {e e' : TypedExpr} :
    Tidies e e' → Tidies (.assign m x e) (.assign m x e')
  | seq {m : Mark} {a a' b b' : TypedExpr} :
    Tidies a a' → Tidies b b' → Tidies (.seq m a b) (.seq m a' b')
  /-- The negation of a literal. -/
  | notLit {m n k : Mark} {e : TypedExpr} {a v : Literal} :
    Tidies e (.lit n a) → Tidies (.not m e) (.lit k v)
  /-- An operation on literals. -/
  | binaryLit {m n n' k : Mark} {op : Operator} {l r : TypedExpr} {a b v : Literal} :
    Tidies l (.lit n a) → Tidies r (.lit n' b) → Tidies (.binary m op l r) (.lit k v)

namespace Tidies

theorem call_of_forall₂ {m : Mark} {f : String} {args args' : List TypedExpr}
    (h : List.Forall₂ Tidies args args') : Tidies (.call m f args) (.call m f args') :=
  .call h.length_eq fun _ hp => (List.forall₂_iff_zip.1 h).2 hp

/-- What is evaluated is no variable, before or after. -/
theorem eq_var_iff {e e' : TypedExpr} (h : Tidies e e') {n : Mark} {x : String} :
    e = .var n x ↔ e' = .var n x := by
  cases h <;> simp

end Tidies

/-- If no test folds to a truth value, folding evaluates operations on literals. -/
theorem Folds.tidies {e e' : TypedExpr} (h : e.Folds e')
    (htests : ∀ c ∈ e.tests, ∀ n b, ¬c.Folds (.lit n (.bool b))) : e.Tidies e' := by
  induction h with
  | lit m v => exact .lit m v
  | var m x => exact .var m x
  | not _ ih =>
    simp only [tests, collect_not, test?, Option.toList_none, List.nil_append] at htests
    exact .not (ih htests)
  | @call m f args args' hlen _ ih =>
    refine .call hlen fun p hp => ih p hp fun c hc => htests c ?_
    exact collect_subset (mem_subterms_call (List.of_mem_zip hp).1 m f) hc
  | binary _ _ ihl ihr =>
    simp only [tests, collect_binary, test?, Option.toList_none, List.nil_append,
      List.forall_mem_append] at htests
    exact .binary (ihl htests.1) (ihr htests.2)
  | cond _ _ _ ihc iht ihe =>
    simp only [tests, collect_cond, test?, Option.toList_some, List.singleton_append,
      List.forall_mem_cons, List.forall_mem_append] at htests
    obtain ⟨-, ⟨hc, ht⟩, he⟩ := htests
    exact .cond (ihc hc) (iht ht) (ihe he)
  | assign _ ih =>
    simp only [tests, collect_assign, test?, Option.toList_none, List.nil_append] at htests
    exact .assign (ih htests)
  | seq _ _ iha ihb =>
    simp only [tests, collect_seq, test?, Option.toList_none, List.nil_append,
      List.forall_mem_append] at htests
    exact .seq (iha htests.1) (ihb htests.2)
  | notLit _ ih =>
    simp only [tests, collect_not, test?, Option.toList_none, List.nil_append] at htests
    exact .notLit (ih htests)
  | binaryLit _ _ _ ihl ihr =>
    simp only [tests, collect_binary, test?, Option.toList_none, List.nil_append,
      List.forall_mem_append] at htests
    exact .binaryLit (ihl htests.1) (ihr htests.2)
  | condTrue hc => exact absurd hc (htests _ (by simp [tests]) _ _)
  | condFalse hc => exact absurd hc (htests _ (by simp [tests]) _ _)

/-- Where an expression is folded, so are its tests. -/
theorem foldConstants_of_mem_tests {e r c : TypedExpr} (h : e.foldConstants = .ok r)
    (hc : c ∈ e.tests) : ∃ c', c.foldConstants = .ok c' := by
  induction e using Expr.induct generalizing r with
  | lit m v => simp [tests] at hc
  | var m x => simp [tests] at hc
  | not m e ih =>
    obtain ⟨e', he, -⟩ := bind_eq_ok.1 h
    simp only [tests, collect_not, test?, Option.toList_none, List.nil_append] at hc
    exact ih he hc
  | call m f args ih =>
    rw [foldConstants, foldConstantsArgs_eq_mapM] at h
    simp only [bind_eq_ok, mapM_eq_ok] at h
    obtain ⟨args', hargs, -⟩ := h
    simp only [tests, collect_call, test?, Option.toList_none, List.nil_append,
      List.mem_flatMap] at hc
    obtain ⟨a, ha, hc⟩ := hc
    obtain ⟨a', -, ha'⟩ := exists_mem_right hargs ha
    exact ih a ha ha' hc
  | binary m op l r ihl ihr =>
    rw [foldConstants] at h
    simp only [bind_eq_ok] at h
    obtain ⟨l', hl, r', hr, -⟩ := h
    simp only [tests, collect_binary, test?, Option.toList_none, List.nil_append,
      List.mem_append] at hc
    rcases hc with hc | hc
    · exact ihl hl hc
    · exact ihr hr hc
  | cond m c t e ihc iht ihe =>
    rw [foldConstants] at h
    simp only [bind_eq_ok] at h
    obtain ⟨c', htest, t', ht, e', he, -⟩ := h
    simp only [tests, collect_cond, test?, Option.toList_some, List.singleton_append,
      List.mem_cons, List.mem_append] at hc
    rcases hc with rfl | (hc | hc) | hc
    · exact ⟨c', htest⟩
    · exact ihc htest hc
    · exact iht ht hc
    · exact ihe he hc
  | assign m x e ih =>
    obtain ⟨e', he, -⟩ := bind_eq_ok.1 h
    simp only [tests, collect_assign, test?, Option.toList_none, List.nil_append] at hc
    exact ih he hc
  | seq m a b iha ihb =>
    rw [foldConstants] at h
    simp only [bind_eq_ok] at h
    obtain ⟨a', ha, b', hb, -⟩ := h
    simp only [tests, collect_seq, test?, Option.toList_none, List.nil_append,
      List.mem_append] at hc
    rcases hc with hc | hc
    · exact iha ha hc
    · exact ihb hb hc

end Expr

/-- What the second rewriting puts for a name is what the first puts for it, evaluated. -/
structure Rewriting.Tidies (ρ ρ' : Rewriting) : Prop where
  read : ∀ m x, (ρ.read m x).Tidies (ρ'.read m x)
  target : ∀ x line, Together Eq (ρ.target x line) (ρ'.target x line)
  call : ∀ m f args args', List.Forall₂ Expr.Tidies args args' →
    Together Expr.Tidies (ρ.call m f args) (ρ'.call m f args')

/-- **Rewriting before and after evaluation** succeeds together. -/
theorem Expr.Tidies.rewrite {ρ ρ' : Rewriting} (hρ : ρ.Tidies ρ') {e e' : TypedExpr}
    (h : e.Tidies e') : Together Expr.Tidies (e.rewrite ρ) (e'.rewrite ρ') := by
  induction h with
  | lit m v => exact .pure (.lit m v)
  | var m x => exact .pure (hρ.read m x)
  | not _ ih => exact ih.bind fun e e' he => .pure (.not he)
  | call hlen _ ih =>
    rw [Expr.rewrite, Expr.rewrite, rewriteArgs_eq_mapM, rewriteArgs_eq_mapM]
    exact (Together.mapM (List.forall₂_iff_zip.2 ⟨hlen, ih _⟩)).bind (hρ.call _ _)
  | binary _ _ ihl ihr =>
    exact ihl.bind fun l l' hl => ihr.bind fun r r' hr => .pure (.binary hl hr)
  | cond _ _ _ ihc iht ihe =>
    exact ihc.bind fun c c' hc => iht.bind fun t t' ht => ihe.bind fun e e' he =>
      .pure (.cond hc ht he)
  | assign _ ih =>
    refine (hρ.target _ _).bind fun y y' hy => ih.bind fun e e' he => .pure ?_
    rw [hy]
    exact .assign he
  | seq _ _ iha ihb =>
    exact iha.bind fun a a' ha => ihb.bind fun b b' hb => .pure (.seq ha hb)
  -- rewriting leaves a literal alone, so it succeeds on the operands as well
  | notLit _ ih =>
    obtain ⟨e, he, hlit⟩ := ih.leads_back _ rfl
    rw [Expr.rewrite, Expr.rewrite, he]
    exact .pure (.notLit hlit)
  | binaryLit _ _ ihl ihr =>
    obtain ⟨l, hl, hleft⟩ := ihl.leads_back _ rfl
    obtain ⟨r, hr, hright⟩ := ihr.leads_back _ rfl
    rw [Expr.rewrite, Expr.rewrite, hl, hr]
    exact .pure (.binaryLit hleft hright)

theorem Rewriting.Tidies.ofSubstitution {s s' : Substitution}
    (h : ∀ x, Option.Rel Expr.Tidies (s.find? x) (s'.find? x)) :
    Rewriting.Tidies (.ofSubstitution s) (.ofSubstitution s') where
  read m x := rel_getD (h x) (.var m x)
  target x line := by
    have htarget : ∀ y, s.target x line = .ok y ↔ s'.target x line = .ok y := by
      intro y
      have hx := h x
      rw [Substitution.target_eq_ok, Substitution.target_eq_ok]
      generalize s.find? x = a, s'.find? x = a' at hx
      cases hx with
      | none => rfl
      | some hx => simp only [reduceCtorEq, Option.some.injEq, hx.eq_var_iff]
    exact ⟨fun y hy => ⟨y, (htarget y).1 hy, rfl⟩, fun y hy => ⟨y, (htarget y).2 hy, rfl⟩⟩
  call m f args args' hargs := .pure (.call_of_forall₂ hargs)

/-! ## Inlining -/

/-- The functions differ in the body only, and `R` relates the bodies. -/
structure Callee.Differ (R : TypedExpr → TypedExpr → Prop) (f f' : Callee) : Prop where
  name_eq : f'.name = f.name
  params_eq : f'.params = f.params
  body : R f.body f'.body

/-- The second function is the first with operations on literals in its body evaluated. -/
abbrev Callee.Tidies : Callee → Callee → Prop := Differ Expr.Tidies

/-- The second function is the first with its body folded. -/
abbrev Callee.FoldsTo : Callee → Callee → Prop := Differ fun e e' => e.foldConstants = .ok e'

theorem Callee.Tidies.apply {f f' : Callee} (hf : f.Tidies f') {args args' : List TypedExpr}
    (hargs : List.Forall₂ Expr.Tidies args args') :
    Together Expr.Tidies (f.apply args) (f'.apply args') := by
  rw [Callee.apply, Callee.apply, Expr.substitute_eq_rewrite, Expr.substitute_eq_rewrite,
    hf.params_eq]
  exact hf.body.rewrite (.ofSubstitution (Substitution.find?_ofArgs_rel f.params hargs))

theorem Rewriting.Tidies.ofCallee {f f' : Callee} (hf : f.Tidies f') :
    Rewriting.Tidies (.ofCallee f) (.ofCallee f') where
  read m x := .var m x
  target x _ := .refl (.ok x)
  call m g args args' hargs := by
    unfold Rewriting.ofCallee
    dsimp only
    rw [hf.name_eq]
    split
    · exact hf.apply hargs
    · exact .pure (.call_of_forall₂ hargs)

theorem Expr.Tidies.inlineEach {fs fs' : List Callee} (hfs : List.Forall₂ Callee.Tidies fs fs')
    {e e' : TypedExpr} (he : e.Tidies e') :
    Together Expr.Tidies (Rulebook.inlineEach fs e) (Rulebook.inlineEach fs' e') := by
  induction hfs generalizing e e' with
  | nil => exact .pure he
  | @cons f f' fs fs' hf _ ih =>
    rw [Rulebook.inlineEach, Rulebook.inlineEach, Expr.inline_eq_rewrite, Expr.inline_eq_rewrite]
    exact (he.rewrite (.ofCallee hf)).bind fun _ _ => ih

/-- **Inlining before and after evaluation** succeeds together. -/
theorem inlineAll_tidies {fs fs' : List (FunDecl Mark)}
    (h : List.Forall₂ (fun f f' => Option.Rel Callee.Tidies f.callee? f'.callee?) fs fs') :
    Together Expr.Tidies (inlineAll fs) (inlineAll fs') :=
  inlineAll_rel h .error fun _ _ _ _ hf hgs => ⟨hf.params_eq, hf.body.inlineEach hgs⟩

/-! ## Programs -/

/-- A test in the body folds to a truth value. -/
def Callee.DecidesTest (f : Callee) : Prop :=
  ∃ c ∈ f.body.tests, ∃ n b, c.foldConstants = .ok (.lit n (.bool b))

theorem Callee.FoldsTo.tidies {f f' : Callee} (h : f.FoldsTo f') (hf : ¬f.DecidesTest) :
    f.Tidies f' := by
  refine ⟨h.name_eq, h.params_eq, (Expr.folds_of_foldConstants h.body).tidies ?_⟩
  intro c hc n b hfolds
  obtain ⟨r, hr⟩ := Expr.foldConstants_of_mem_tests h.body hc
  obtain ⟨_, ⟨⟩, rfl⟩ := hfolds.foldConstants_eq r hr
  exact hf ⟨c, hc, n, b, hr⟩

/-- A function that is prepared with folding is prepared without. -/
theorem FunDecl.expandRecursion_of_prepare {f g' : FunDecl Mark}
    (h : (f.prepare true).result = .ok g') :
    ∃ g, f.expandRecursion = .ok g ∧ Option.Rel Callee.FoldsTo g.callee? g'.callee? := by
  obtain ⟨g, hg, ⟨hbody, rfl⟩ | ⟨body, body', hbody, hfold, rfl⟩⟩ := prepare_eq_ok h
  · refine ⟨g', hg, ?_⟩
    rw [callee?_of_none hbody]
    exact .none
  · refine ⟨g, hg, ?_⟩
    rw [Expandable.callee?_eq hbody, Expandable.callee?_eq rfl]
    exact .some ⟨rfl, rfl, Report.foldIf_true_eq_ok.1 hfold⟩

theorem FunDecl.prepare_of_expandRecursion {f g : FunDecl Mark} (h : f.expandRecursion = .ok g) :
    (f.prepare false).result = .ok g := by
  rw [prepare, h]
  obtain ⟨name, params, ret, recursion, _ | body, line⟩ := g <;> rfl

/-- Where inlining succeeds with folding, it is refused without only for an assignment to a
parameter. -/
theorem inlineAll_failsWith {fs fs' : List (FunDecl Mark)} {main' : TypedExpr}
    (h : List.Forall₂ (fun f f' => Option.Rel Callee.FoldsTo f.callee? f'.callee?) fs fs')
    (hmain' : inlineAll fs' = .ok main') :
    FailsWith (Defect.TargetsArgument (fs.filterMap FunDecl.callee?)) (inlineAll fs) := by
  -- the entry and its parameters are the same, so one is not refused for them
  have hrel : List.Forall₂ (fun f f' => Option.Rel (fun c c' => c'.params = c.params ∧
      c ∈ fs.filterMap FunDecl.callee?) f.callee? f'.callee?) fs fs' := by
    refine forall₂_of_mem h fun f hf _ hff' => rel_of_mem hff' fun c hc c' _ hcc' => ?_
    exact ⟨hcc'.params_eq, List.mem_filterMap.2 ⟨f, hf, hc⟩⟩
  refine inlineAll_rel
    (T := fun x y => y = .ok main' → FailsWith (Defect.TargetsArgument _) x) hrel
    (fun _ _ => nofun) (fun f f' gs gs' hf hgs => ⟨hf.1, fun _ => ?_⟩) hmain'
  refine inlineEach_failsWith (fun g hg => ?_) f.body
  obtain ⟨_, _, -, hmem⟩ := exists_mem_right hgs hg
  exact hmem

namespace RawProgram

/-- The functions that are inlined when nothing is folded: those with a body, their recursion
expanded. -/
def callees (p : RawProgram) (lib : Option Library) : Except Defect (List Callee) := do
  let d ← p.check lib
  let d ← d.freshen
  let fs ← d.functions.mapM FunDecl.expandRecursion
  return fs.filterMap FunDecl.callee?

/-- Without folding, inlining is the last stage that can fail. -/
theorem compile_false {p : RawProgram} {lib : Option Library} {d d' : TypedProgram}
    {gs : List (FunDecl Mark)} (hd : p.check lib = .ok d) (hd' : d.freshen = .ok d')
    (hgs : List.Forall₂ (fun f g => f.expandRecursion = .ok g) d'.functions gs) :
    (p.compile lib { fold := false }).result =
      match inlineAll gs with
      | .ok main => .ok ⟨d'.variables, main, d'.library⟩
      | .error defect => .error (.rejected defect) := by
  have hfuns : (d'.functions.mapM (FunDecl.prepare false)).result = .ok gs := by
    rw [Report.result_mapM, mapM_eq_ok]
    exact hgs.imp fun f g => FunDecl.prepare_of_expandRecursion
  have hvars : (d'.variables.mapM (VarDecl.prepare false)).result = .ok d'.variables := by
    rw [Report.result_mapM, mapM_eq_ok]
    exact List.forall₂_same.2 fun v _ => rfl
  simp only [compile, TypedProgram.lower, Report.result_bind, Report.ofExcept, hd]
  simp only [bind, Except.bind, hd', hfuns]
  cases inlineAll gs with
  | error defect => rfl
  | ok main =>
    simp only [hvars]
    rfl

/-- **Acceptance without folding.** A program that is accepted with folding is accepted without,
or else an assignment is refused for its target. The latter happens only if one of the functions
assigns to a parameter and one, maybe another, has a test that folds to a truth value. -/
theorem compile_without_folding {p : RawProgram} {lib : Option Library} {q : LoweredProgram}
    (hq : (p.compile lib { fold := true }).result = .ok q) :
    (∃ q', (p.compile lib { fold := false }).result = .ok q') ∨
      ∃ fs found line, p.callees lib = .ok fs ∧
        (p.compile lib { fold := false }).result = .error (.rejected (.badTarget found line)) ∧
        (∃ f ∈ fs, f.AssignsParam) ∧ ∃ f ∈ fs, f.DecidesTest := by
  obtain ⟨d, d', gs', main', hd, hd', hgs', hmain', -⟩ := compile_eq_ok hq
  obtain ⟨gs, hgs, hrel⟩ := exists_forall₂_both hgs' fun _ _ _ =>
    FunDecl.expandRecursion_of_prepare
  rw [compile_false hd hd' hgs]
  cases hmain : inlineAll gs with
  | ok main => exact .inl ⟨_, rfl⟩
  | error defect =>
    have hcallees : p.callees lib = .ok (gs.filterMap FunDecl.callee?) := by
      simp only [callees, bind_eq_ok, pure_eq_ok, mapM_eq_ok]
      exact ⟨d, hd, d', hd', gs, hgs, rfl⟩
    obtain ⟨⟨found, line, rfl⟩, hassigns⟩ := inlineAll_failsWith hrel.flip hmain' defect hmain
    refine .inr ⟨_, found, line, hcallees, rfl, hassigns, ?_⟩
    -- if no test were decided, folding would only evaluate, and inlining would succeed
    by_contra hdecides
    have htidies : List.Forall₂ (fun g g' => Option.Rel Callee.Tidies g.callee? g'.callee?)
        gs gs' := by
      refine forall₂_of_mem hrel.flip fun g hg _ hgg' => rel_of_mem hgg' fun f hf f' _ hff' => ?_
      exact hff'.tidies fun hf' => hdecides ⟨f, List.mem_filterMap.2 ⟨g, hg, hf⟩, hf'⟩
    obtain ⟨_, hok, -⟩ := (inlineAll_tidies htidies).leads_back _ hmain'
    cases hmain.symm.trans hok

/-- A sample program. Folding `reset` drops the assignment to its parameter. -/
def resetting : RawProgram where
  «variables» := [⟨"level", .lit 1 (.int 0), 1⟩]
  functions :=
    [⟨"reset", [⟨"slot", .int⟩], .void, none,
        some (.cond 2 (.lit 2 (.bool false)) (.assign 2 "slot" (.lit 2 (.int 1)))
          (.assign 2 "level" (.lit 2 (.int 2)))), 2⟩,
      ⟨"main", [], .void, none, some (.call 3 "reset" [.lit 3 (.int 5)]), 3⟩]

theorem resetting_without_folding :
    ∃ q, (resetting.compile none { fold := true }).result = .ok q ∧
      ∃ fs found line, resetting.callees none = .ok fs ∧
        (resetting.compile none { fold := false }).result =
          .error (.rejected (.badTarget found line)) ∧
        (∃ f ∈ fs, f.AssignsParam) ∧ ∃ f ∈ fs, f.DecidesTest := by
  refine ⟨_, rfl, (compile_without_folding rfl).resolve_left ?_⟩
  rintro ⟨q', hq'⟩
  cases hq'

/-- Accepted with folding, refused without: inlining meets `5 = 1`. -/
theorem resetting_refused :
    resetting.FirstOrder none ∧
      (resetting.compile none { fold := true }).result =
        .ok ⟨[⟨"_var0", .lit ⟨.int, 1⟩ (.int 0), 1⟩],
          .assign ⟨.void, 2⟩ "_var0" (.lit ⟨.int, 2⟩ (.int 2)), none⟩ ∧
      (resetting.compile none { fold := false }).result =
        .error (.rejected (.badTarget "5" 2)) :=
  ⟨by decide, rfl, rfl⟩

end RawProgram

end Rulebook
