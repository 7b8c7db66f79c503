import Rulebook.Proofs.Interpretation.Inlining
import Rulebook.Proofs.Typing.Lowering

/-!
# The procedures of a program

Two lists of functions have procedures that are alike if, position by position, a function of the
one does what the function of the other does, given procedures for the functions before them that
are alike (`procedures_alike`). Inlining all functions into an expression keeps its meaning
(`Telescope.interpret_inlineEach`), so inlining a whole program keeps the meaning of its entry
(`Telescope.interpret_inlineAll`).
-/

namespace Rulebook

variable {σ : Type} {R : Machine σ → Machine σ → Prop} {h : Host σ}

/-! ## Procedures by name -/

theorem procedures_concat (h : Host σ) (fs : List (FunDecl Mark)) (f : FunDecl Mark) :
    procedures h (fs ++ [f]) = (procedures h fs).declare h f := by
  rw [procedures, List.foldl_append]
  rfl

theorem Procedures.declare_of_none {f : FunDecl Mark} (hbody : f.body = none)
    (procs : Procedures σ) : procs.declare h f = procs := by
  rw [declare, hbody]

theorem Procedures.declare_of_some {f : FunDecl Mark} {body : TypedExpr}
    (hbody : f.body = some body) (procs : Procedures σ) :
    procs.declare h f = procs.define f.name (f.procedure h procs body) := by
  rw [declare, hbody]

/-- A name that is not that of a function with a body has no procedure. -/
theorem procedures_eq_none {fs : List (FunDecl Mark)} {x : String}
    (hx : ∀ f ∈ fs, f.body ≠ none → f.name ≠ x) : procedures h fs x = none := by
  induction fs using List.reverseRecOn with
  | nil => rfl
  | append_singleton fs f ih =>
    have ih := ih fun g hg => hx g (List.mem_append_left _ hg)
    rw [procedures_concat]
    cases hbody : f.body with
    | none => rwa [Procedures.declare_of_none hbody]
    | some body =>
      have hne : x ≠ f.name := Ne.symm (hx f (by simp) (by simp [hbody]))
      rw [Procedures.declare_of_some hbody, Procedures.define, if_neg hne, ih]

/-- The procedure of a function. -/
theorem procedures_eq_some {before after : List (FunDecl Mark)} {f : FunDecl Mark}
    {body : TypedExpr} (hnd : ((before ++ f :: after).map FunDecl.name).Nodup)
    (hbody : f.body = some body) :
    procedures h (before ++ f :: after) f.name =
      some (f.procedure h (procedures h before) body) := by
  induction after using List.reverseRecOn with
  | nil =>
    rw [procedures_concat, Procedures.declare_of_some hbody, Procedures.define, if_pos rfl]
  | append_singleton after g ih =>
    rw [← List.cons_append, ← List.append_assoc] at hnd ⊢
    rw [List.map_append] at hnd
    obtain ⟨hnd, -, hdisj⟩ := List.nodup_append.1 hnd
    have hne : f.name ≠ g.name := hdisj f.name (by simp) g.name (by simp)
    rw [procedures_concat, ← ih hnd]
    cases hg : g.body with
    | none => rw [Procedures.declare_of_none hg]
    | some b => rw [Procedures.declare_of_some hg, Procedures.define, if_neg hne]

/-! ## Alike function by function -/

/-- One more function, whose name is new. -/
theorem procedures_alike_concat {fs gs : List (FunDecl Mark)} {f g : FunDecl Mark}
    (hkeeps : List.Forall₂ FunDecl.Keeps fs gs) (hfg : f.Keeps g)
    (hnew : ∀ ts t, ¬ Declares fs f.name ts t)
    (hprocs : (procedures h fs).Alike R (Declares fs) (procedures h gs))
    (hstep : ∀ body body', f.body = some body → g.body = some body' →
      ProcedureAlike R f.params.length (f.procedure h (procedures h fs) body)
        (g.procedure h (procedures h gs) body')) :
    (procedures h (fs ++ [f])).Alike R (Declares (fs ++ [f])) (procedures h (gs ++ [g])) := by
  rw [procedures_concat, procedures_concat]
  cases hbody : f.body with
  | none =>
    have hbody' : g.body = none := by simpa [hbody] using hfg.isSome_eq
    rw [Procedures.declare_of_none hbody, Procedures.declare_of_none hbody']
    intro x ts t hx
    rcases declares_concat.1 hx with hx | ⟨rfl, -⟩
    · exact hprocs x ts t hx
    · -- a provided function has no procedure on either side
      have hnone : procedures h fs f.name = none :=
        procedures_eq_none fun f' hf' _ hname => hnew _ _ ⟨f', hf', hname, rfl⟩
      have hnone' : procedures h gs f.name = none := by
        refine procedures_eq_none fun g' hg' _ hname => ?_
        obtain ⟨f', hf', hkeep⟩ := exists_mem_left hkeeps hg'
        exact hnew _ _ ⟨f', hf', hkeep.name_eq.symm.trans hname, rfl⟩
      rw [hnone, hnone']
      exact .none
  | some body =>
    obtain ⟨body', hbody'⟩ : ∃ b, g.body = some b := by
      rw [← Option.isSome_iff_exists, hfg.isSome_eq, hbody]
      rfl
    rw [Procedures.declare_of_some hbody, Procedures.declare_of_some hbody', hfg.name_eq]
    refine hprocs.define fun x ts t hx => ?_
    rcases declares_concat.1 hx with hx | ⟨rfl, hty⟩
    · exact .inl ⟨fun hxf => hnew ts t (hxf ▸ hx), hx⟩
    · rw [FunDecl.ty, Ty.fn.injEq] at hty
      refine .inr ⟨rfl, ?_⟩
      rw [← hty.1, List.length_map]
      exact hstep body body' hbody hbody'

/-- Functions that are alike one by one have procedures that are alike. -/
theorem procedures_alike {fs gs : List (FunDecl Mark)} (hkeeps : List.Forall₂ FunDecl.Keeps fs gs)
    (hnd : (fs.map FunDecl.name).Nodup)
    (hstep : ∀ (i : ℕ) (f g : FunDecl Mark) (body body' : TypedExpr), fs[i]? = some f →
      gs[i]? = some g → f.body = some body → g.body = some body' →
      (procedures h (fs.take i)).Alike R (Declares (fs.take i)) (procedures h (gs.take i)) →
        ProcedureAlike R f.params.length (f.procedure h (procedures h (fs.take i)) body)
          (g.procedure h (procedures h (gs.take i)) body')) :
    (procedures h fs).Alike R (Declares fs) (procedures h gs) := by
  -- by induction on the number of functions declared so far
  suffices key : ∀ n ≤ fs.length, (procedures h (fs.take n)).Alike R (Declares (fs.take n))
      (procedures h (gs.take n)) by
    have := key fs.length (Nat.le_refl _)
    rwa [List.take_length, hkeeps.length_eq, List.take_length] at this
  intro n
  induction n with
  | zero =>
    rintro - f ts t ⟨g, hg, -⟩
    cases hg
  | succ n ih =>
    intro hn
    have ih := ih (by omega)
    have hn' : n < gs.length := by rw [← hkeeps.length_eq]; omega
    have hf := List.getElem?_eq_getElem hn
    have hg := List.getElem?_eq_getElem hn'
    rw [List.take_succ_eq_append_getElem hn, List.take_succ_eq_append_getElem hn']
    refine procedures_alike_concat (List.forall₂_take n hkeeps) (hkeeps.get hn hn')
      (not_declares_take hnd hf) ih ?_
    exact fun body body' hbody hbody' => hstep n _ _ body body' hf hg hbody hbody' ih

/-! ## Inlining everything -/

namespace Telescope

variable {names : String → Ty → Prop} {provided : String → List Ty → Ty → Prop}
  {fs : List (FunDecl Mark)}

/-- The procedures do the same with arguments that are alike. -/
theorem procedures_self (ht : Telescope fs names provided) (hrec : ∀ f ∈ fs, f.recursion = none) :
    (procedures h fs).Alike Eq (Callable fs provided) (procedures h fs) := by
  have hself : (procedures h fs).Alike Eq (Declares fs) (procedures h fs) := by
    refine procedures_alike (List.forall₂_same.2 fun _ _ => ⟨rfl, rfl, rfl⟩) ht.nodup ?_
    intro i f g body body' hf hg hbody hbody' hprocs
    obtain rfl : f = g := by simpa [hf] using hg
    obtain rfl : body = body' := by simpa [hbody] using hbody'
    have hfrec := hrec f (List.mem_of_getElem? hf)
    exact (ht.inlinable i f body hf hbody).procedure_alike hfrec hprocs _
  rintro f ts t (hf | hf)
  · exact hself f ts t hf
  · have hnone : procedures h fs f = none := by
      refine procedures_eq_none fun g hg hbody hname => ?_
      exact ht.not_provided g hg hbody ts t (hname ▸ hf)
    rw [hnone]
    exact .none

/-- **Inlining functions from the back to the front keeps the meaning of an expression.** -/
theorem interpret_inlineEach (ht : Telescope fs names provided)
    (hrec : ∀ f ∈ fs, f.recursion = none) {e r : TypedExpr}
    (he : e.WellTyped (.of names (Callable fs provided)))
    (hr : Rulebook.inlineEach (fs.filterMap FunDecl.callee?).reverse e = .ok r) :
    Reference.Alike Eq (e.interpret h .global (procedures h fs))
      (r.interpret h .global fun _ => none) := by
  induction fs using List.reverseRecOn generalizing e with
  | nil =>
    cases hr
    exact .refl _
  | append_singleton fs f ih =>
    have hrec' : ∀ g ∈ fs, g.recursion = none := fun g hg => hrec g (List.mem_append_left _ hg)
    rw [procedures_concat]
    cases hbody : f.body with
    | none =>
      rw [inlineEach_concat_of_none hbody] at hr
      rw [Procedures.declare_of_none hbody]
      exact ih ht.left hrec'
        (he.mono (fun _ _ h => h) (fun _ _ h => h) (ht.callable_of_none hbody)) hr
    | some body =>
      rw [inlineEach_concat_of_some hbody, bind_eq_ok] at hr
      obtain ⟨e', he', hr⟩ := hr
      rw [Procedures.declare_of_some hbody]
      refine .trans ?_ (ih ht.left hrec' (ht.inline_last hbody he he').1 hr)
      have hf := ht.last hbody
      have hfrec := hrec f (by simp)
      have hself := ht.left.procedures_self (h := h) hrec'
      have hself' := hself.mono fun g ts t hg => .inl hg
      refine he.interpret_inline (f := ⟨f.name, f.params.map Param.name, body, f.line⟩)
        (fun g ts t hne hg => hself g ts t (callable_of_ne hne hg))
        (fun ts t hcall => ⟨hf.procedure_alike hfrec hself' _, fun args r' hlen hr' => ?_⟩) he'
      obtain ⟨rfl, -⟩ := ht.signature_last (by simp [hbody]) hcall
      rw [FunDecl.procedure_of_none hfrec]
      refine hf.interpret_apply hself' (fun _ _ _ _ => rfl) Env.steady_global ?_ hr'
      simpa using hlen

/-- **Inlining all functions keeps the meaning of the entry**, which takes no parameters. -/
theorem interpret_inlineAll (ht : Telescope fs names provided)
    (hrec : ∀ f ∈ fs, f.recursion = none) {r : TypedExpr} (hr : Rulebook.inlineAll fs = .ok r) :
    ∃ before f after, fs = before ++ f :: after ∧ f.body ≠ none ∧ (∀ g ∈ after, g.body = none) ∧
      f.params = [] ∧ ∃ proc, procedures h fs f.name = some proc ∧
        Reference.Alike Eq (proc []) (r.interpret h .global fun _ => none) := by
  obtain ⟨before, f, after, body, rfl, hbody, hparams, hafter, hr⟩ := inlineAll_eq_ok hr
  refine ⟨before, f, after, rfl, by simp [hbody], hafter, hparams, _,
    procedures_eq_some ht.nodup hbody, ?_⟩
  rw [FunDecl.procedure_of_none (hrec f (by simp)), hparams]
  exact ht.left.interpret_inlineEach (fun g hg => hrec g (by simp [hg]))
    (ht.entry_typed hbody hparams) hr

end Telescope

end Rulebook
