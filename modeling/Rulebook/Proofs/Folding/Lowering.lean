import Mathlib.Data.List.Forall2
import Rulebook.Proofs.Folding.Partial
import Rulebook.Proofs.Interpretation.Lowering

/-!
# Folding early and folding late

Lowering with folding folds every body before it is inlined, and the result once more. A first-order
program that is lowered without folding is lowered with it, to the same program folded at the end
(`TypedProgram.lower_fold`): the function bodies of the one are those of the other, partly folded,
and stay so under inlining, and folding what is partly folded gives what folding the whole gives.
-/

namespace Rulebook

/-! ## Declarations -/

/-- A function that is prepared without folding, with a well-typed body, is prepared with folding to
the function with its body folded. -/
theorem FunDecl.prepare_true {f g : FunDecl Mark} (hg : (f.prepare false).result = .ok g)
    (htyped : ∀ body, g.body = some body → ∃ Γ, body.WellTyped Γ) :
    ∃ g', (f.prepare true).result = .ok g' ∧ Option.Rel Callee.Folds g.callee? g'.callee? := by
  have hexpand := prepare_false hg
  simp only [prepare, Report.result_bind, bind_eq_ok, Report.ofExcept_eq_ok]
  cases hbody : g.body with
  | none =>
    refine ⟨g, ⟨g, hexpand, by rw [hbody]; rfl⟩, ?_⟩
    rw [callee?_of_none hbody]
    exact .none
  | some body =>
    obtain ⟨Γ, hΓ⟩ := htyped body hbody
    obtain ⟨body', hfold, -⟩ := hΓ.foldConstants
    refine ⟨{ g with body := some body' }, ⟨g, hexpand, ?_⟩, ?_⟩
    · rw [hbody, Report.result_bind, bind_eq_ok]
      exact ⟨body', Report.foldIf_true_eq_ok.2 hfold, rfl⟩
    · rw [Expandable.callee?_eq hbody, Expandable.callee?_eq rfl]
      exact .some ⟨rfl, rfl, Expr.folds_of_foldConstants hfold⟩

/-- A variable whose initial value is well typed. -/
theorem VarDecl.prepare_true {v : VarDecl Mark} {Γ : Context} (hv : v.init.WellTyped Γ) :
    ∃ w, (v.prepare true).result = .ok w ∧ w.name = v.name ∧ w.line = v.line ∧
      v.init.foldConstants = .ok w.init := by
  obtain ⟨init, hfold, -⟩ := hv.foldConstants
  refine ⟨{ v with init }, ?_, rfl, rfl, hfold⟩
  rw [prepare, Report.result_bind, bind_eq_ok]
  exact ⟨init, Report.foldIf_true_eq_ok.2 hfold, rfl⟩

/-- **Inlining functions whose bodies are partly folded.** -/
theorem inlineAll_folds {fs fs' : List (FunDecl Mark)}
    (h : List.Forall₂ (fun f f' => Option.Rel Callee.Folds f.callee? f'.callee?) fs fs') :
    Leads Expr.Folds (inlineAll fs) (inlineAll fs') :=
  inlineAll_rel h (fun _ _ => nofun) fun _ _ _ _ hf hgs =>
    ⟨hf.params_eq, hf.body.inlineEach hgs⟩

/-! ## Programs -/

/-- **Folding early and folding late agree.** A first-order program that is lowered without folding
is lowered with folding, and what comes out is the unfolded program with its initial values and its
main expression folded. -/
theorem TypedProgram.lower_fold {p : RawProgram} {lib : Option Library} {d : TypedProgram}
    {q : LoweredProgram} (hfo : p.FirstOrder lib) (hd : p.check lib = .ok d)
    (hq : (d.lower false).result = .ok q) :
    ∃ q', (d.lower true).result = .ok q' ∧ q'.library = q.library ∧
      List.Forall₂ (fun v v' => v'.name = v.name ∧ v'.line = v.line ∧
        v.init.foldConstants = .ok v'.init) q.variables q'.variables ∧
      q.main.foldConstants = .ok q'.main := by
  obtain ⟨d', gs, main, hd', hgs, hmain, hvars, hmain', hlib⟩ := lower_eq_ok.1 hq
  obtain ⟨base, s, hacc⟩ := RawProgram.check_accepted hfo hd
  obtain ⟨globals, n, hws, hfs, -⟩ := freshen_eq_ok hd'
  obtain ⟨hg, -, hnum, -⟩ := hacc.freshenVariables hws
  have htel := hacc.telescope hg (Nat.le_refl _) hfs hgs
  rw [VarDecl.prepare_false hvars]
  cases hmain'
  -- every function body is typed, so it can be folded
  obtain ⟨gs', hgs', hrel⟩ : ∃ gs',
      List.Forall₂ (fun f g => (f.prepare true).result = .ok g) d'.functions gs' ∧
      List.Forall₂ (fun g g' => Option.Rel Callee.Folds g.callee? g'.callee?) gs gs' := by
    refine exists_forall₂_both hgs fun f g hg hfg => FunDecl.prepare_true hfg fun body hbody => ?_
    obtain ⟨i, hi⟩ := List.mem_iff_getElem?.1 hg
    exact ⟨_, (htel.inlinable i g body hi hbody).typed⟩
  obtain ⟨vs, hvs⟩ : ∃ vs, List.Forall₂ (fun v w => (v.prepare true).result = .ok w ∧
      w.name = v.name ∧ w.line = v.line ∧ v.init.foldConstants = .ok w.init) d'.variables vs := by
    refine exists_forall₂ fun v hv => ?_
    obtain ⟨i, hi⟩ := List.mem_iff_getElem?.1 hv
    exact VarDecl.prepare_true (hnum.of_getElem? hi).2.1
  obtain ⟨main', hmain', hfolds⟩ := inlineAll_folds hrel _ hmain
  obtain ⟨r, hr, -⟩ := (htel.inlineAll hmain).foldConstants
  obtain ⟨_, hr', rfl⟩ := hfolds.foldConstants_eq r hr
  refine ⟨⟨vs, r, d'.library⟩, lower_eq_ok.2 ⟨d', gs', main', hd', hgs', hmain', ?_, ?_, rfl⟩,
    hlib.symm, ?_, hr⟩
  · exact hvs.imp fun _ _ h => h.1
  · exact Report.foldIf_true_eq_ok.2 hr'
  · exact hvs.imp fun _ _ h => h.2

/-- A sample program whose test is known only where `scale` is called: folding the body of `scale`
leaves both branches, folding the result drops the one that calls `sense`. The division by zero
stays. -/
def RawProgram.scaling : RawProgram where
  «variables» := [⟨"level", .binary 1 .add (.lit 1 (.int 2)) (.lit 1 (.int 3)), 1⟩]
  functions :=
    [⟨"scale", [⟨"on", .bool⟩, ⟨"x", .int⟩], .int, none,
        some (.cond 3 (.var 3 "on")
          (.binary 3 .mul (.var 3 "x") (.binary 3 .add (.lit 3 (.int 1)) (.lit 3 (.int 1))))
          (.call 4 "sense" [])), 2⟩,
      ⟨"main", [], .int, none,
        some (.binary 6 .div
          (.call 6 "scale" [.not 6 (.lit 6 (.bool false)), .binary 6 .sub (.lit 6 (.int 9))
            (.lit 6 (.int 5))])
          (.lit 6 (.int 0))), 5⟩]

theorem TypedProgram.scaling_lower_fold :
    ∃ d q q', RawProgram.scaling.check (some RawProgram.counterLibrary) = .ok d ∧
      (d.lower false).result = .ok q ∧ (d.lower true).result = .ok q' ∧
      q.main.foldConstants = .ok q'.main ∧
      q'.main = .binary ⟨.int, 6⟩ .div (.lit ⟨.int, 3⟩ (.int 8)) (.lit ⟨.int, 6⟩ (.int 0)) := by
  have hfo : RawProgram.scaling.FirstOrder (some RawProgram.counterLibrary) := by decide
  obtain ⟨q', hq', -, -, hmain⟩ := lower_fold hfo rfl rfl
  exact ⟨_, _, q', rfl, rfl, hq', hmain, (Except.ok.inj hmain).symm⟩

end Rulebook
