import Rulebook.Proofs.Names.Checking
import Rulebook.Proofs.Typing.Lowering

/-!
# Names do not matter

Two first-order programs that differ only in the names of variables, of parameters and of functions
that are not provided are compiled to the same program (`RawProgram.compile_renamed`). After checking
and renaming only the names of functions differ, by a one-to-one correspondence; the later stages
keep it so, and in the end only provided functions are called, whose names are the same.
-/

namespace Rulebook

/-! ## Stages -/

section

variable {calls : String → String → Prop}

theorem Report.ofExcept_together {α β : Type} {R : α → β → Prop} {x : Except Defect α}
    {y : Except Defect β} (h : Together R x y) :
    Together R (ofExcept x).result (ofExcept y).result :=
  h.congr (fun _ => ofExcept_eq_ok) fun _ => ofExcept_eq_ok

theorem Report.foldIf_together (fold : Bool) {e e' : TypedExpr} (h : e.Renamed Eq calls e') :
    Together (Expr.Renamed Eq calls) (foldIf fold e).result (foldIf fold e').result := by
  cases fold with
  | false => exact .pure h
  | true => exact h.foldConstants.congr (fun _ => foldIf_true_eq_ok) fun _ => foldIf_true_eq_ok

namespace FunDecl

namespace Recalled

variable {f f' : FunDecl Mark}

/-- As inlining sees them, the functions differ only in the names of functions. -/
theorem callee? (h : f.Recalled calls f') :
    Option.Rel (Callee.Renamed calls) f.callee? f'.callee? := by
  cases h with
  | provided hbody hbody' =>
    rw [callee?_of_none hbody, callee?_of_none hbody']
    exact .none
  | defined hbody hbody' hname hparams _ hb =>
    rw [Expandable.callee?_eq hbody, Expandable.callee?_eq hbody']
    exact .some ⟨hname, by rw [hparams], hb⟩

/-- Expanding the recursion of functions that differ only in the names of functions. -/
theorem expandRecursion (hcalls : OneToOne calls) (h : f.Recalled calls f') :
    Together (Recalled calls) f.expandRecursion f'.expandRecursion := by
  have hcallee := h.callee?
  cases h with
  | provided hbody hbody' =>
    -- whatever the bound, there is nothing to expand
    have hexpand : ∀ k : FunDecl Mark, k.body = none →
        ∃ l, k.expandRecursion = .ok l ∧ l.body = none := by
      intro k hk
      unfold FunDecl.expandRecursion
      rw [callee?_of_none hk]
      cases k.recursion with
      | none => exact ⟨k, rfl, hk⟩
      | some bound => exact ⟨_, rfl, hk⟩
    obtain ⟨g, hg, hnone⟩ := hexpand f hbody
    obtain ⟨g', hg', hnone'⟩ := hexpand f' hbody'
    rw [hg, hg']
    exact .pure (.provided hnone hnone')
  | @defined b b' hbody hbody' hname hparams hrec hb =>
    rw [Expandable.callee?_eq hbody, Expandable.callee?_eq hbody'] at hcallee
    obtain ⟨_, ⟨⟩, hcallee⟩ := eq_some_of_rel hcallee
    unfold FunDecl.expandRecursion
    rw [Expandable.callee?_eq hbody, Expandable.callee?_eq hbody']
    generalize hr : f.recursion = r, hr' : f'.recursion = r' at hrec
    cases hrec with
    | none =>
      refine .pure (.defined hbody hbody' hname hparams ?_ hb)
      rw [hr, hr']
      exact .none
    | @some bound bound' hbound =>
      obtain ⟨hdepth, hfallback⟩ := hbound
      dsimp only
      rw [Callee.expand, Callee.expand, hdepth]
      refine ((hb.inlineTimes hcalls hcallee bound.depth.toNat).bind fun c c' hc =>
        .pure (hfallback.cutCalls hcalls hname hc)).bind fun c c' hc => .pure ?_
      exact .defined rfl rfl hname hparams .none hc

/-- Preparing functions that differ only in the names of functions. -/
theorem prepare (hcalls : OneToOne calls) (fold : Bool) (h : f.Recalled calls f') :
    Together (Recalled calls) (f.prepare fold).result (f'.prepare fold).result := by
  rw [FunDecl.prepare, FunDecl.prepare, Report.result_bind, Report.result_bind]
  refine (Report.ofExcept_together (h.expandRecursion hcalls)).bind fun g g' hg => ?_
  cases hg with
  | provided hbody hbody' =>
    rw [hbody, hbody']
    exact .pure (.provided hbody hbody')
  | defined hbody hbody' hname hparams hrec hb =>
    rw [hbody, hbody']
    dsimp only
    rw [Report.result_bind, Report.result_bind]
    exact (Report.foldIf_together fold hb).bind fun c c' hc =>
      .pure (.defined rfl rfl hname hparams hrec hc)

end Recalled

end FunDecl

/-- Inlining functions that differ only in the names of functions. -/
theorem inlineAll_together (hcalls : OneToOne calls) {fs fs' : List (FunDecl Mark)}
    (h : List.Forall₂ (FunDecl.Recalled calls) fs fs') :
    Together (Expr.Renamed Eq calls) (inlineAll fs) (inlineAll fs') :=
  inlineAll_rel (h.imp fun _ _ hf => hf.callee?) Together.error fun _ _ _ _ hf hgs =>
    ⟨hf.params_eq, hf.body.inlineEach hcalls hgs⟩

/-- Programs after renaming that differ only in the names of functions. -/
structure TypedProgram.Recalled (calls : String → String → Prop) (d d' : TypedProgram) : Prop where
  variables_eq : d'.variables = d.variables
  functions : List.Forall₂ (FunDecl.Recalled calls) d.functions d'.functions
  library_eq : d'.library = d.library

/-- **Lowering programs that, once renamed, differ only in the names of functions.** -/
theorem TypedProgram.lower_together (hcalls : OneToOne calls) (fold : Bool) {d d' : TypedProgram}
    (h : Together (TypedProgram.Recalled calls) d.freshen d'.freshen) :
    Together (fun q q' : LoweredProgram => q'.variables = q.variables ∧ q'.library = q.library ∧
      q.main.Renamed Eq calls q'.main) (d.lower fold).result (d'.lower fold).result := by
  simp only [TypedProgram.lower, Report.result_bind, Report.result_mapM, Report.result_pure]
  refine (Report.ofExcept_together h).bind fun e e' he => ?_
  refine (Together.mapM (he.functions.imp fun _ _ hf => hf.prepare hcalls fold)).bind
    fun fs fs' hfs => ?_
  refine (Report.ofExcept_together (inlineAll_together hcalls hfs)).bind fun m m' hm => ?_
  rw [he.variables_eq, he.library_eq]
  refine (Together.refl _).bind ?_
  rintro vs _ rfl
  exact (Report.foldIf_together fold hm).bind fun m m' hm => .pure ⟨rfl, rfl, hm⟩

end

/-! ## Programs -/

/-- Provided functions are not renamed. -/
theorem freshenFunctions_append {calls : String → String → Prop} {g g' : Substitution}
    {n : FreshNames} {fs ks ks' : List (FunDecl Mark)} (hfs : ∀ f ∈ fs, f.body = none)
    (h : Together (List.Forall₂ (FunDecl.Recalled calls)) (freshenFunctions g n ks)
      (freshenFunctions g' n ks')) :
    Together (List.Forall₂ (FunDecl.Recalled calls)) (freshenFunctions g n (fs ++ ks))
      (freshenFunctions g' n (fs ++ ks')) := by
  induction fs with
  | nil => exact h
  | cons f fs ih =>
    have hf := hfs f List.mem_cons_self
    rw [List.cons_append, List.cons_append, freshenFunctions, freshenFunctions, FunDecl.freshen,
      FunDecl.freshen, hf]
    exact (ih fun k hk => hfs k (List.mem_cons_of_mem _ hk)).bind fun ls ls' hls =>
      .pure (.cons (.provided hf hf) hls)

/-- Pairing two lists without repetitions. -/
theorem oneToOne_zip {xs ys : List String} (hxs : xs.Nodup) (hys : ys.Nodup) :
    OneToOne fun x y => (x, y) ∈ xs.zip ys := by
  intro x y x' y' h h'
  obtain ⟨i, hi⟩ := List.mem_iff_getElem?.1 h
  obtain ⟨j, hj⟩ := List.mem_iff_getElem?.1 h'
  obtain ⟨hx, hy⟩ := List.getElem?_zip_eq_some.1 hi
  obtain ⟨hx', hy'⟩ := List.getElem?_zip_eq_some.1 hj
  obtain ⟨hi, rfl⟩ := List.getElem?_eq_some_iff.1 hx
  obtain ⟨hi', rfl⟩ := List.getElem?_eq_some_iff.1 hy
  obtain ⟨hj, rfl⟩ := List.getElem?_eq_some_iff.1 hx'
  obtain ⟨hj', rfl⟩ := List.getElem?_eq_some_iff.1 hy'
  rw [hxs.getElem_inj_iff, hys.getElem_inj_iff]

/-- The scope of the operations of a library. -/
def Scope.ofLibrary (lib : Option Library) : Scope :=
  bindFunctions .empty ((operationsOf lib).map (Operation.declare (μ := Mark)))

/-- The operations of a library are at the same place in every program. -/
theorem aligned_operations {lib : Option Library} :
    Aligned (operationPairs lib) (fun f f' => (f, f') ∈ operationPairs lib) (.ofLibrary lib)
      (.ofLibrary lib) .empty .empty := by
  refine ⟨?_, ?_, fun x x' _ _ hx _ => hx.mem⟩
  · intro x x' hx
    obtain ⟨op, -, hop⟩ := List.mem_map.1 hx.mem
    cases hop
    rfl
  · intro x x' t _ hx ht
    have := Scope.find?_of_bindFunctions hx ht
    simp at this

namespace RawProgram

variable {p p' : RawProgram} {lib : Option Library}

/-- The names are those of one operation, or of functions at the same place in two programs. -/
def SameFunction (p p' : RawProgram) (lib : Option Library) (f f' : String) : Prop :=
  (f, f') ∈ operationPairs lib ++ functionPairs p.functions p'.functions

/-- The operations of a library return values. -/
theorem functionsIn_operations (hops : ∀ op ∈ operationsOf lib, op.isCallable) :
    (Scope.ofLibrary lib).FunctionsIn fun f _ t => f ∈ p.functionNames lib ∧ t.isPrimitive := by
  intro f ts t hf
  rcases Scope.find?_bindFunctions hf with ⟨g, hg, rfl, hty⟩ | hf
  · obtain ⟨op, hop, rfl⟩ := List.mem_map.1 hg
    rw [Operation.ty_declare, Ty.fn.injEq] at hty
    refine ⟨List.mem_append_left _ ?_, hty.2 ▸ (Operation.isCallable_iff.1 (hops op hop)).2.1⟩
    cases lib with
    | none => cases hop
    | some l => exact List.mem_map_of_mem hop
  · simp at hf

theorem checkDistinct_declarations (hnd : (p.declaredNames lib).Nodup) :
    checkDistinct [] (p.declarations ((operationsOf lib).map Operation.declare)) = .ok () :=
  checkDistinct_eq_ok.2 ⟨by rwa [map_fst_declarations], by simp⟩

namespace Renamed

theorem oneToOne (hnd : (p.declaredNames lib).Nodup) (hnd' : (p'.declaredNames lib).Nodup) :
    OneToOne (p.SameFunction p' lib) := by
  have hops : operationPairs lib = ((operationsOf lib).map Operation.name).zip
      ((operationsOf lib).map Operation.name) := by
    rw [operationPairs, List.zip_map']
  have hzip : operationPairs lib ++ functionPairs p.functions p'.functions =
      ((operationsOf lib).map Operation.name ++ p.functions.map FunDecl.name).zip
        ((operationsOf lib).map Operation.name ++ p'.functions.map FunDecl.name) := by
    rw [hops, List.zip_append rfl]
    rfl
  unfold SameFunction
  rw [hzip]
  refine oneToOne_zip (hnd.sublist ?_) (hnd'.sublist ?_) <;>
    exact (List.sublist_append_left _ _).append (.refl _)

/-- A provided function has one name in both programs. -/
theorem mem_of_provides (h : p.Renamed lib p') {f : String} {ts : List Ty} {t : Ty}
    (hf : p.Provides lib f ts t) : p.SameFunction p' lib f f := by
  rcases hf with ⟨l, rfl, op, hop, rfl, -⟩ | ⟨g, hg, hbody, rfl, -⟩
  · exact List.mem_append_left _ (List.mem_map.2 ⟨op, hop, rfl⟩)
  · obtain ⟨i, hi⟩ := List.mem_iff_getElem?.1 hg
    obtain ⟨g', hi', hname⟩ := h.provided.exists_rel hi
    refine List.mem_append_right _ (List.mem_iff_getElem?.2 ⟨i, ?_⟩)
    rw [functionPairs, List.getElem?_zip_eq_some, List.getElem?_map, List.getElem?_map, hi, hi']
    exact ⟨rfl, congrArg some (hname hbody)⟩

/-- **Checking and renaming programs that differ only in names** leaves no difference but in the
names of functions. -/
theorem check_together (h : p.Renamed lib p') (hfo : p.FirstOrder lib)
    (hnd : (p.declaredNames lib).Nodup) (hnd' : (p'.declaredNames lib).Nodup) :
    Together (fun d d' => Together (TypedProgram.Recalled (p.SameFunction p' lib)) d.freshen
        d'.freshen)
      (p.check lib) (p'.check lib) := by
  by_cases hops : ∀ op ∈ operationsOf lib, op.isCallable
  swap
  · exact ⟨fun d hd => absurd (check_eq_ok_and.1 hd).1 hops,
      fun d hd => absurd (check_eq_ok_and.1 hd).1 hops⟩
  refine Together.congr ?_ (fun _ => check_eq_ok_and.trans (and_iff_right hops))
    fun _ => check_eq_ok_and.trans (and_iff_right hops)
  rw [checkDistinct_declarations hnd, checkDistinct_declarations hnd']
  have hs := functionsIn_operations (p := p) hops
  have hvars := checkVariables_together h.variables aligned_operations ?_ hs
    (fun _ _ _ hf => hf.2) (fun v hv x hx _ _ hf => hfo.inits v hv x hx hf.1) .start
  swap
  · rintro f f' hf
    obtain ⟨op, -, hop⟩ := List.mem_map.1 hf
    cases hop
    rfl
  refine (hvars.imp fun r r' hr _ hrr => And.intro hrr (checkVariables_functionsIn hr hs)).bind ?_
  rintro r r' ⟨⟨htypes, hfresh⟩, hs⟩
  have hcalls : ∀ q ∈ functionPairs p.functions p'.functions, p.SameFunction p' lib q.1 q.2 :=
    fun q hq => List.mem_append_right _ hq
  refine (checkFunctions_together hfo (fun _ hf => hf) h.functions hcalls htypes hs).bind ?_
  intro ks ks' hks
  refine .pure ?_
  rw [TypedProgram.freshen, TypedProgram.freshen]
  refine hfresh.bind ?_
  rintro ⟨vs, g, n⟩ ⟨_, g', _⟩ ⟨⟨⟩, ⟨⟩, ha⟩
  have ha' := ha.mono fun f f' hf => (List.mem_append_left _ hf : p.SameFunction p' lib f f')
  have hstubs : ∀ f ∈ (operationsOf lib).map (Operation.declare (μ := Mark)), f.body = none := by
    simp [Operation.declare]
  refine (freshenFunctions_append hstubs (hks g g' n ha')).bind ?_
  exact fun fs fs' hfs => .pure ⟨rfl, hfs, rfl⟩

/-- An expression that calls provided functions only has the same names in both programs. -/
theorem main_eq (h : p.Renamed lib p') (hnd : (p.declaredNames lib).Nodup)
    (hnd' : (p'.declaredNames lib).Nodup) {names : String → Ty → Prop} {e e' : TypedExpr}
    (htyped : e.WellTyped (.of names (p.Provides lib)))
    (he : e.Renamed Eq (p.SameFunction p' lib) e') : e' = e := by
  refine ((he.of_wellTyped htyped).mono (fun _ _ hx => hx.1) ?_).eq
  rintro f f' ⟨hf, ts, t, hprovides⟩
  exact (oneToOne hnd hnd' f f f f' (h.mem_of_provides hprovides) hf).1 rfl

end Renamed

/-- **Names do not matter.** Two first-order programs that differ only in the names of variables, of
parameters and of functions that are not provided are compiled to the same program, or neither is
compiled. -/
theorem compile_renamed {p p' : RawProgram} {lib : Option Library} (hfo : p.FirstOrder lib)
    (hnd : (p.declaredNames lib).Nodup) (hnd' : (p'.declaredNames lib).Nodup)
    (h : p.Renamed lib p') (options : Options) (q : LoweredProgram) :
    (p.compile lib options).result = .ok q ↔ (p'.compile lib options).result = .ok q := by
  have hlower : Together Eq (p.compile lib options).result (p'.compile lib options).result := by
    have hcompile := (Report.ofExcept_together (h.check_together hfo hnd hnd')).bind
      fun d d' hd => TypedProgram.lower_together (Renamed.oneToOne hnd hnd') options.fold hd
    rw [← Report.result_bind, ← Report.result_bind] at hcompile
    refine hcompile.imp ?_
    rintro ⟨vs, main, l⟩ ⟨vs', main', l'⟩ hq - ⟨hvs, hl, hmain⟩
    obtain rfl : main' = main :=
      h.main_eq hnd hnd' (compile_wellFormed hfo hq).1.main_typed hmain
    cases hvs
    cases hl
    rfl
  exact hlower.eq_ok_iff

/-- The program `counter` with other names: those of its variables are fresh names in another order,
and a parameter hides an operation. -/
def tally : RawProgram where
  «variables» :=
    [⟨"_var1", .call 1 "sense" [], 1⟩,
      ⟨"_var0", .binary 2 .add (.var 2 "_var1") (.lit 2 (.int 3)), 2⟩]
  functions :=
    [⟨"main", [⟨"sense", .int⟩], .void, some ⟨2, .call 3 "beep" [.lit 3 (.int 0)]⟩,
        some (.seq 4 (.assign 4 "sense" (.binary 4 .add (.var 4 "sense") (.lit 4 (.int 1))))
          (.cond 5 (.binary 5 .lt (.var 5 "sense") (.var 5 "_var0"))
            (.call 5 "main" [.var 5 "sense"]) (.call 6 "beep" [.var 6 "sense"]))), 3⟩,
      ⟨"_var2", [], .void, none, some (.call 8 "main" [.var 8 "_var1"]), 7⟩]

theorem counter_renamed : counter.Renamed (some counterLibrary) tally := by
  refine ⟨?_, ?_, ?_⟩
  · refine Indexed.cons.2 ⟨⟨rfl, ?_⟩, Indexed.cons.2 ⟨⟨rfl, ?_⟩, Indexed.nil_left.2 rfl⟩⟩
    · exact .call_of_forall₂ (by decide) .nil
    · exact .binary (.var (by decide)) (.lit _ _)
  · refine Indexed.cons.2 ⟨⟨rfl, rfl, rfl, .some ⟨rfl, ?_⟩, .some ?_⟩,
      Indexed.cons.2 ⟨⟨rfl, rfl, rfl, .none, .some ?_⟩, Indexed.nil_left.2 rfl⟩⟩
    · exact .call_of_forall₂ (by decide) (.cons (.lit _ _) .nil)
    · refine .seq (.assign (by decide) (.binary (.var (by decide)) (.lit _ _))) (.cond ?_ ?_ ?_)
      · exact .binary (.var (by decide)) (.var (by decide))
      · exact .call_of_forall₂ (by decide) (.cons (.var (by decide)) .nil)
      · exact .call_of_forall₂ (by decide) (.cons (.var (by decide)) .nil)
    · exact .call_of_forall₂ (by decide) (.cons (.var (by decide)) .nil)
  · exact Indexed.cons.2 ⟨nofun, Indexed.cons.2 ⟨nofun, Indexed.nil_left.2 rfl⟩⟩

theorem counter_compile_renamed :
    ∃ q, (counter.compile (some counterLibrary) {}).result = .ok q ∧
      (tally.compile (some counterLibrary) {}).result = .ok q :=
  ⟨_, rfl, (compile_renamed (by decide) (by decide) (by decide) counter_renamed {} _).1 rfl⟩

end RawProgram

end Rulebook
