import Rulebook.Lowering
import Rulebook.Proofs.Typing.Folding
import Rulebook.Proofs.Typing.Program

/-!
# Lowered programs are well formed

Every stage of lowering keeps its program well typed, so a compiled first-order program is well
formed (`RawProgram.compile_wellFormed`): its `i`-th variable is called `FreshNames.name i`, its
initial values use the variables before them and operations of the library, and its main
expression uses the variables and calls provided functions.
-/

namespace Rulebook

/-- A program whose variables are numbered in order, and which is well typed: its initial values
may call the functions of `offered`, its main expression those of `provided`. -/
structure LoweredProgram.WellFormed (q : LoweredProgram)
    (offered provided : String → List Ty → Ty → Prop) : Prop where
  variables_numbered : Numbered offered 0 q.variables
  main_typed : q.main.WellTyped (.of (numbered q.variables.length) provided)

/-! ## Reports -/

namespace Report

theorem ofExcept_eq_ok {α : Type} {x : Except Defect α} {a : α} :
    (ofExcept x).result = .ok a ↔ x = .ok a := by
  cases x <;> simp [ofExcept]

theorem foldIf_true_eq_ok {e r : TypedExpr} :
    (foldIf true e).result = .ok r ↔ e.foldConstants = .ok r := by
  rw [foldIf, if_pos rfl, ofFolding]
  cases e.foldConstants <;> simp

theorem foldIf_wellTyped {Γ : Context} {fold : Bool} {e r : TypedExpr} (h : e.WellTyped Γ)
    (hr : (foldIf fold e).result = .ok r) : r.WellTyped Γ ∧ r.ty = e.ty := by
  cases fold with
  | false =>
    cases hr
    exact ⟨h, rfl⟩
  | true =>
    obtain ⟨r', hr', hw, ht⟩ := h.foldConstants
    cases hr'.symm.trans (foldIf_true_eq_ok.1 hr)
    exact ⟨hw, ht⟩

end Report

/-! ## Functions -/

/-- A stage keeps the name and the type of a function, and whether it is provided. -/
structure FunDecl.Keeps (f g : FunDecl Mark) : Prop where
  name_eq : g.name = f.name
  ty_eq : g.ty = f.ty
  isSome_eq : g.body.isSome = f.body.isSome

namespace FunDecl.Keeps

theorem trans {f g k : FunDecl Mark} (h : f.Keeps g) (h' : g.Keeps k) : f.Keeps k :=
  ⟨h'.1.trans h.1, h'.2.trans h.2, h'.3.trans h.3⟩

theorem signature {f g : FunDecl Mark} (h : f.Keeps g) :
    g.params.map Param.ty = f.params.map Param.ty ∧ g.ret = f.ret := by
  have := h.ty_eq
  rwa [FunDecl.ty, FunDecl.ty, Ty.fn.injEq] at this

theorem body_eq_none {f g : FunDecl Mark} (h : f.Keeps g) (hg : g.body = none) : f.body = none := by
  have := h.isSome_eq
  rw [hg] at this
  simpa using this.symm

theorem body_ne_none {f g : FunDecl Mark} (h : f.Keeps g) (hg : g.body ≠ none) : f.body ≠ none := by
  intro hf
  refine hg ?_
  simpa [hf] using h.isSome_eq

theorem declares {fs gs : List (FunDecl Mark)} (h : List.Forall₂ Keeps fs gs) {f : String}
    {ts : List Ty} {t : Ty} (hf : Declares fs f ts t) : Declares gs f ts t := by
  obtain ⟨k, hk, hname, hty⟩ := hf
  obtain ⟨g, hg, hkeeps⟩ := exists_mem_right h hk
  exact ⟨g, hg, hkeeps.name_eq.trans hname, hkeeps.ty_eq.trans hty⟩

theorem map_name {fs gs : List (FunDecl Mark)} (h : List.Forall₂ Keeps fs gs) :
    gs.map FunDecl.name = fs.map FunDecl.name := by
  induction h with
  | nil => rfl
  | cons h _ ih => rw [List.map_cons, List.map_cons, h.name_eq, ih]

end FunDecl.Keeps

/-- Each function is renamed with names that were not drawn for the variables. -/
theorem freshenFunctions_eq_ok {globals : Substitution} {n : FreshNames}
    {fs fs' : List (FunDecl Mark)} (h : freshenFunctions globals n fs = .ok fs') :
    List.Forall₂ (fun f f' => ∃ m m' : FreshNames, n.next ≤ m.next ∧
      f.freshen globals m = .ok (f', m')) fs fs' := by
  induction fs generalizing n fs' with
  | nil =>
    cases h
    exact .nil
  | cons f fs ih =>
    simp only [freshenFunctions, bind_eq_ok, pure_eq_ok] at h
    obtain ⟨⟨f', m⟩, hf, gs, hgs, rfl⟩ := h
    have hle : n.next ≤ m.next := (FunDecl.freshen_signature hf).2.2.2.2
    refine .cons ⟨n, m, Nat.le_refl _, hf⟩ ((ih hgs).imp ?_)
    rintro g g' ⟨k, k', hk, hg⟩
    exact ⟨k, k', Nat.le_trans hle hk, hg⟩

namespace FunDecl

theorem prepare_eq_ok {fold : Bool} {f g : FunDecl Mark} (h : (f.prepare fold).result = .ok g) :
    ∃ f', f.expandRecursion = .ok f' ∧
      ((f'.body = none ∧ g = f') ∨ ∃ body body', f'.body = some body ∧
        (Report.foldIf fold body).result = .ok body' ∧ g = { f' with body := some body' }) := by
  simp only [prepare, Report.result_bind, bind_eq_ok, Report.ofExcept_eq_ok] at h
  obtain ⟨f', hf', h⟩ := h
  refine ⟨f', hf', ?_⟩
  cases hbody : f'.body with
  | none =>
    rw [hbody] at h
    cases h
    exact .inl ⟨rfl, rfl⟩
  | some body =>
    simp only [hbody, Report.result_bind, bind_eq_ok] at h
    obtain ⟨body', hbody', h⟩ := h
    cases h
    exact .inr ⟨body, body', rfl, hbody', rfl⟩

theorem expandRecursion_keeps {f g : FunDecl Mark} (h : f.expandRecursion = .ok g) :
    f.Keeps g := by
  unfold expandRecursion at h
  split at h
  · cases h
    exact ⟨rfl, rfl, rfl⟩
  · cases h
    exact ⟨rfl, rfl, rfl⟩
  · next hcallee =>
    obtain ⟨body, hbody, -⟩ := Option.map_eq_some_iff.1 hcallee
    obtain ⟨body', -, h⟩ := bind_eq_ok.1 h
    cases h
    exact ⟨rfl, rfl, by rw [hbody]; rfl⟩

theorem prepare_keeps {fold : Bool} {f g : FunDecl Mark} (h : (f.prepare fold).result = .ok g) :
    f.Keeps g := by
  obtain ⟨f', hf', ⟨-, rfl⟩ | ⟨body, body', hbody, -, rfl⟩⟩ := prepare_eq_ok h
  · exact expandRecursion_keeps hf'
  · exact (expandRecursion_keeps hf').trans ⟨rfl, rfl, by rw [hbody]; rfl⟩

/-- A function that was prepared has no recursion left. -/
theorem prepare_recursion {fold : Bool} {f g : FunDecl Mark}
    (h : (f.prepare fold).result = .ok g) : g.recursion = none := by
  obtain ⟨f', hf', hg⟩ := prepare_eq_ok h
  have hrec : f'.recursion = none := by
    unfold expandRecursion at hf'
    split at hf'
    · next hnone =>
      cases hf'
      exact hnone
    · cases hf'
      rfl
    · obtain ⟨body, -, hf'⟩ := bind_eq_ok.1 hf'
      cases hf'
      rfl
  obtain ⟨-, rfl⟩ | ⟨body, body', -, -, rfl⟩ := hg <;> exact hrec

/-- A function that was prepared can be inlined. -/
theorem Expandable.prepare {names : String → Ty → Prop} {calls : String → List Ty → Ty → Prop}
    {fold : Bool} {f g : FunDecl Mark} {body : TypedExpr} (hf : f.Expandable names calls body)
    (hbody : f.body = some body) (h : (f.prepare fold).result = .ok g) :
    ∃ body', g.body = some body' ∧ g.Inlinable names calls body' := by
  obtain ⟨f', hf', hg⟩ := prepare_eq_ok h
  obtain ⟨-, -, -, -, b, hb, hinl⟩ := hf.expand hbody hf'
  obtain ⟨hnone, -⟩ | ⟨b', r, hb', hr, rfl⟩ := hg
  · rw [hb] at hnone
    cases hnone
  · obtain rfl : b = b' := by simpa [hb] using hb'
    obtain ⟨hw, ht⟩ := Report.foldIf_wellTyped hinl.typed hr
    exact ⟨r, rfl, ⟨⟨hinl.nodup, hinl.fresh⟩, hw, ht.trans hinl.ty_eq⟩⟩

/-- `g` is the function `f` after renaming and preparation. -/
def Lowers (globals : Substitution) (n : FreshNames) (fold : Bool) (f g : FunDecl Mark) : Prop :=
  ∃ f', (∃ m m' : FreshNames, n.next ≤ m.next ∧ f.freshen globals m = .ok (f', m')) ∧
    (f'.prepare fold).result = .ok g

theorem Lowers.keeps {globals : Substitution} {n : FreshNames} {fold : Bool} {f g : FunDecl Mark}
    (h : f.Lowers globals n fold g) : f.Keeps g := by
  obtain ⟨f', ⟨m, m', -, hf⟩, hg⟩ := h
  obtain ⟨hname, hty, -, hsome, -⟩ := freshen_signature hf
  exact Keeps.trans ⟨hname, hty, hsome⟩ (prepare_keeps hg)

end FunDecl

/-! ## Programs -/

theorem TypedProgram.freshen_eq_ok {d d' : TypedProgram} (h : d.freshen = .ok d') :
    ∃ globals n, freshenVariables .empty .start d.variables = .ok (d'.variables, globals, n) ∧
      freshenFunctions globals n d.functions = .ok d'.functions ∧ d'.library = d.library := by
  simp only [freshen, bind_eq_ok, pure_eq_ok] at h
  obtain ⟨⟨ws, globals, n⟩, hvars, functions, hfuns, rfl⟩ := h
  exact ⟨globals, n, hvars, hfuns, rfl⟩

/-- The stages of lowering, one after the other. -/
theorem TypedProgram.lower_eq_ok {d : TypedProgram} {fold : Bool} {q : LoweredProgram} :
    (d.lower fold).result = .ok q ↔ ∃ d' functions main, d.freshen = .ok d' ∧
      List.Forall₂ (fun f g => (f.prepare fold).result = .ok g) d'.functions functions ∧
      inlineAll functions = .ok main ∧
      List.Forall₂ (fun v w => (v.prepare fold).result = .ok w) d'.variables q.variables ∧
      (Report.foldIf fold main).result = .ok q.main ∧ q.library = d'.library := by
  simp only [lower, Report.result_bind, Report.result_pure, bind_eq_ok, Report.ofExcept_eq_ok,
    Report.result_mapM, mapM_eq_ok, Except.ok.injEq]
  constructor
  · rintro ⟨d', hd', functions, hfuns, main, hmain, vs, hvars, main', hmain', rfl⟩
    exact ⟨d', functions, main, hd', hfuns, hmain, hvars, hmain', rfl⟩
  · rintro ⟨d', functions, main, hd', hfuns, hmain, hvars, hmain', hlib⟩
    exact ⟨d', hd', functions, hfuns, main, hmain, _, hvars, _, hmain', hlib ▸ rfl⟩

/-- The stages of compilation, one after the other. -/
theorem RawProgram.compile_eq_ok {p : RawProgram} {lib : Option Library} {options : Options}
    {q : LoweredProgram} (h : (p.compile lib options).result = .ok q) :
    ∃ d d' functions main, p.check lib = .ok d ∧ d.freshen = .ok d' ∧
      List.Forall₂ (fun f g => (f.prepare options.fold).result = .ok g) d'.functions functions ∧
      inlineAll functions = .ok main ∧
      List.Forall₂ (fun v w => (v.prepare options.fold).result = .ok w) d'.variables q.variables ∧
      (Report.foldIf options.fold main).result = .ok q.main ∧ q.library = d'.library := by
  simp only [compile, Report.result_bind, bind_eq_ok, Report.ofExcept_eq_ok,
    TypedProgram.lower_eq_ok] at h
  obtain ⟨d, hd, d', functions, main, h⟩ := h
  exact ⟨d, d', functions, main, hd, h⟩

theorem Numbered.prepare {calls : String → List Ty → Ty → Prop} {fold : Bool} {k : ℕ}
    {vs ws : List (VarDecl Mark)} (h : Numbered calls k vs)
    (hws : List.Forall₂ (fun v w => (VarDecl.prepare fold v).result = .ok w) vs ws) :
    Numbered calls k ws ∧ ws.map VarDecl.line = vs.map VarDecl.line := by
  induction hws generalizing k with
  | nil => exact ⟨trivial, rfl⟩
  | cons hw _ ih =>
    obtain ⟨⟨hname, htyped, hty⟩, h⟩ := h
    obtain ⟨hnum, hlines⟩ := ih h
    simp only [VarDecl.prepare, Report.result_bind, Report.result_pure, bind_eq_ok,
      Except.ok.injEq] at hw
    obtain ⟨init, hinit, rfl⟩ := hw
    obtain ⟨hw, ht⟩ := Report.foldIf_wellTyped htyped hinit
    exact ⟨⟨⟨hname, hw, ht.trans hty⟩, hnum⟩, by rw [List.map_cons, List.map_cons, hlines]⟩

namespace RawProgram.Accepted

variable {p : RawProgram} {lib : Option Library} {d d' : TypedProgram} {base s : Scope}

/-- The variables of an accepted program after renaming. -/
theorem freshenVariables (h : p.Accepted lib d base s) {ws : List (VarDecl Mark)}
    {globals : Substitution} {n : FreshNames}
    (hws : freshenVariables .empty .start d.variables = .ok (ws, globals, n)) :
    globals.Renames s (numbered n.next) ∧ n.next = p.variables.length ∧
      Numbered (Offers lib) 0 ws ∧ ws.map VarDecl.line = p.variables.map VarDecl.line := by
  have hempty : Substitution.Renames .empty base (numbered FreshNames.start.next) :=
    fun x t hx ht => absurd ht (h.base_values x t hx)
  obtain ⟨-, hg, hn, hnum, hlines⟩ := freshenVariables_wellTyped h.base_functions
    h.primitive_of_offers h.inits hempty h.checkVariables_eq hws
  exact ⟨hg, hn.trans (Nat.zero_add _), hnum, hlines⟩

/-- A function of an accepted program, renamed, can be expanded. -/
theorem expandable (h : p.Accepted lib d base s) {globals : Substitution} {m m' : FreshNames}
    {k i : ℕ} (hg : globals.Renames s (numbered k)) (hk : k ≤ m.next) {f f' : FunDecl Mark}
    {body : TypedExpr} (hf : d.functions[i]? = some f) (hbody : f.body = some body)
    (hf' : f.freshen globals m = .ok (f', m')) :
    ∃ body', f'.body = some body' ∧
      f'.Expandable (numbered k) (Declares (d.functions.take i)) body' := by
  obtain ⟨hps, scope, hscope, hvalues, hchecked⟩ := h.checked i f body hf hbody
  exact hchecked.expandable hscope (fun x t hx ht => hg x t (hvalues x t hx ht) ht) hk hps
    (not_declares_take h.functions_nodup hf) hbody hf'

/-- The functions of an accepted program, renamed and prepared, can be inlined. -/
theorem telescope (h : p.Accepted lib d base s) {globals : Substitution} {n : FreshNames}
    {fold : Bool} {fs gs : List (FunDecl Mark)} {k : ℕ} (hg : globals.Renames s (numbered k))
    (hk : k ≤ n.next) (hfs : freshenFunctions globals n d.functions = .ok fs)
    (hgs : List.Forall₂ (fun f g => (f.prepare fold).result = .ok g) fs gs) :
    Telescope gs (numbered k) (p.Provides lib) := by
  have hall : List.Forall₂ (FunDecl.Lowers globals n fold) d.functions gs :=
    forall₂_comp (freshenFunctions_eq_ok hfs) hgs
  have hkeeps : List.Forall₂ FunDecl.Keeps d.functions gs := hall.imp fun _ _ h => h.keeps
  -- the function at a position, before and after
  have source : ∀ (i : ℕ) (g : FunDecl Mark), gs[i]? = some g →
      ∃ f, d.functions[i]? = some f ∧ f.Lowers globals n fold g := by
    intro i g hg
    obtain ⟨hi, rfl⟩ := List.getElem?_eq_some_iff.1 hg
    have hi' : i < d.functions.length := by rwa [hall.length_eq]
    exact ⟨d.functions[i], List.getElem?_eq_getElem hi', hall.get hi' hi⟩
  constructor
  · rw [FunDecl.Keeps.map_name hkeeps]
    exact h.functions_nodup
  · intro g hg hbody
    obtain ⟨i, hi⟩ := List.mem_iff_getElem?.1 hg
    obtain ⟨f, hf, hlow⟩ := source i g hi
    have hfg := hlow.keeps
    rw [hfg.name_eq, hfg.signature.1, hfg.signature.2]
    exact h.provided f (List.mem_of_getElem? hf) (hfg.body_eq_none hbody)
  · intro g hg hbody
    obtain ⟨i, hi⟩ := List.mem_iff_getElem?.1 hg
    obtain ⟨f, hf, hlow⟩ := source i g hi
    have hfg := hlow.keeps
    rw [hfg.name_eq]
    exact h.not_provided f (List.mem_of_getElem? hf) (hfg.body_ne_none hbody)
  · intro i g body hgi hbody
    obtain ⟨f, hfi, hlow⟩ := source i g hgi
    obtain ⟨b, hb⟩ : ∃ b, f.body = some b := by
      rw [← Option.isSome_iff_exists, ← hlow.keeps.isSome_eq, hbody]
      rfl
    obtain ⟨f', ⟨m, m', hm, hfresh⟩, hprep⟩ := hlow
    obtain ⟨b', hb', hexp⟩ := h.expandable hg (Nat.le_trans hk hm) hfi hb hfresh
    obtain ⟨b'', hb'', hinl⟩ := hexp.prepare hb' hprep
    obtain rfl : b'' = body := by simpa [hb''] using hbody
    exact hinl.mono fun _ _ _ => FunDecl.Keeps.declares (List.forall₂_take i hkeeps)

end RawProgram.Accepted

/-- What a first-order program is provided with returns values. -/
theorem RawProgram.primitive_of_provides {p : RawProgram} {lib : Option Library}
    {d : TypedProgram} (hfo : p.FirstOrder lib) (h : p.check lib = .ok d) {f : String}
    {ts : List Ty} {t : Ty} (hf : p.Provides lib f ts t) : t.isPrimitive := by
  obtain ⟨base, s, hacc⟩ := check_accepted hfo h
  rcases hf with hf | ⟨g, hg, -, rfl, hty⟩
  · exact hacc.primitive_of_offers f ts t hf
  · rw [FunDecl.ty, Ty.fn.injEq] at hty
    rw [← hty.2]
    exact (hfo.types g hg).1

/-- **A compiled first-order program is well formed.** -/
theorem RawProgram.compile_wellFormed {p : RawProgram} {lib : Option Library} {options : Options}
    {q : LoweredProgram} (hfo : p.FirstOrder lib) (h : (p.compile lib options).result = .ok q) :
    q.WellFormed (Offers lib) (p.Provides lib) ∧ q.library = lib ∧
      q.variables.map VarDecl.line = p.variables.map VarDecl.line := by
  obtain ⟨d, d', functions, main, hd, hd', hfuns, hmain, hvars, hmain', hlib⟩ := compile_eq_ok h
  obtain ⟨base, s, hacc⟩ := check_accepted hfo hd
  obtain ⟨globals, n, hws, hfs, hlib'⟩ := TypedProgram.freshen_eq_ok hd'
  obtain ⟨hg, hn, hnum, hlines⟩ := hacc.freshenVariables hws
  obtain ⟨hnum', hlines'⟩ := hnum.prepare hvars
  have hlen : n.next = q.variables.length := by
    rw [hn]
    simpa using (congrArg List.length (hlines'.trans hlines)).symm
  have htyped := (hacc.telescope hg (Nat.le_refl _) hfs hfuns).inlineAll hmain
  refine ⟨⟨hnum', ?_⟩, hlib.trans (hlib'.trans hacc.library_eq), hlines'.trans hlines⟩
  rw [← hlen]
  exact (Report.foldIf_wellTyped htyped hmain').1

end Rulebook
