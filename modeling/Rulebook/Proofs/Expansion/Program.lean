import Rulebook.Proofs.Expansion.Calls

/-!
# Inlining is full expansion

Inlining goes from the last function back to the first and puts bodies in as they were declared; the
calls they bring with them are met later. The other way is to close the functions from the front,
each by those before it, and to expand the calls of the entry once (`expandAll`). Where both
succeed, both give the same expression (`inlineAll_eq_expandAll`).

On terms the two are equal without conditions on success (`Definitions.closing`), and this cannot be
proved on expressions step by step: an assignment that cannot be carried out may be dropped together
with the argument it stands in, at different times in the two ways, and what is in between them may
then have no value at all.
-/

namespace Rulebook

/-! ## Closing functions -/

/-- Closes functions in the order of their declaration. The calls in each body are expanded by the
functions that are closed by then, of which the last one stands first. -/
def closeEach (closed : List Callee) : List Callee → Except Defect (List Callee)
  | [] => .ok closed
  | f :: fs => do
    let body ← f.body.expand closed
    closeEach ({ f with body } :: closed) fs

/-- The body of the last function that has one, with its calls expanded by the others, closed. -/
def expandAll (functions : List (FunDecl Mark)) : Except Defect TypedExpr :=
  let callees := functions.filterMap FunDecl.callee?
  match callees.getLast? with
  | none => .error .noEntry
  | some entry => do entry.body.expand (← closeEach [] callees.dropLast)

/-- Functions, in the order of their declaration, that can be inlined into each other: calls of them
have as many arguments as they have parameters, and the parameters of a function do not occur in the
bodies before it. -/
structure Separable (fs : List Callee) : Prop where
  arity : ∀ f ∈ fs, ∀ g ∈ fs, ∀ args ∈ f.body.argsOf g.name, args.length = g.params.length
  apart : fs.Pairwise fun g f => ∀ p ∈ f.params, p ∉ g.body.mentions

namespace Definitions

/-- The definitions of functions, of which the last one stands first, each with its body expanded by
those after it in the list. -/
def closing : List Callee → Definitions
  | [] => .empty
  | f :: fs => (closing fs).define f.name (f.definition.expand (closing fs))

theorem closing_eq_some {fs : List Callee} {g : String} {d : Definition}
    (h : closing fs g = some d) : ∃ f ∈ fs, f.name = g ∧ d.params = f.params := by
  induction fs with
  | nil => cases h
  | cons f fs ih =>
    rw [closing, define] at h
    split at h
    · next hg =>
      cases h
      exact ⟨f, List.mem_cons_self, hg.symm, rfl⟩
    · obtain ⟨f', hf', hname, hparams⟩ := ih h
      exact ⟨f', List.mem_cons_of_mem _ hf', hname, hparams⟩

/-- The names in closed bodies come from the bodies as they were. -/
theorem names_closing {fs : List Callee} {g : String} {d : Definition} (h : closing fs g = some d) :
    ∀ x ∈ d.body.names, ∃ f ∈ fs, x ∈ f.body.mentions := by
  induction fs generalizing g d with
  | nil => cases h
  | cons f fs ih =>
    rw [closing, define] at h
    split at h
    · cases h
      refine Term.names_expand (fun x hx => ?_) fun g d hd x hx => ?_
      · rw [Callee.definition, Expr.names_toTerm] at hx
        exact ⟨f, List.mem_cons_self, hx⟩
      · obtain ⟨f', hf', hx⟩ := ih hd x hx
        exact ⟨f', List.mem_cons_of_mem _ hf', hx⟩
    · intro x hx
      obtain ⟨f', hf', hx⟩ := ih h x hx
      exact ⟨f', List.mem_cons_of_mem _ hf', hx⟩

end Definitions

open Definitions (closing)

/-- Closing functions gives their closed definitions. -/
theorem definitions_closeEach {closed fs closed' before : List Callee}
    (hclosed : definitions closed = closing before) (h : closeEach closed fs = .ok closed') :
    definitions closed' = closing (fs.reverse ++ before) := by
  induction fs generalizing closed before with
  | nil =>
    cases h
    exact hclosed
  | cons f fs ih =>
    obtain ⟨body, hbody, h⟩ := bind_eq_ok.1 h
    have hterm : body.toTerm = f.body.toTerm.expand (closing before) := by
      rw [← hclosed]
      exact Expr.toTerm_expand hbody
    have hnext : definitions ({ f with body } :: closed) = closing (f :: before) := by
      rw [definitions, closing, hclosed]
      exact congrArg (fun t => (closing before).define f.name ⟨f.params, t⟩) hterm
    rw [ih hnext h, List.reverse_cons, List.append_assoc]
    rfl

/-! ## Inlining -/

/-- A function fits the closed functions before it. -/
theorem Callee.fits_closing {f : Callee} {fs : List Callee}
    (harity : ∀ g ∈ fs, ∀ args ∈ f.body.argsOf g.name, args.length = g.params.length)
    (hapart : ∀ g ∈ fs, ∀ p ∈ f.params, p ∉ g.body.mentions) :
    f.definition.Fits (closing fs) := by
  constructor
  · refine Expr.saturated_toTerm fun g d hd => ?_
    obtain ⟨g', hg', rfl, hparams⟩ := Definitions.closing_eq_some hd
    rw [hparams]
    exact harity g' hg'
  · intro g d hd x hx hparam
    obtain ⟨g', hg', hmention⟩ := Definitions.names_closing hd x hx.1
    exact hapart g' hg' x hparam hmention

/-- **Inlining functions one after the other** is expanding by all of them, closed. The last
function stands first. -/
theorem toTerm_inlineEach {fs : List Callee} {e r : TypedExpr}
    (harity : ∀ f ∈ fs, ∀ g ∈ fs, ∀ args ∈ f.body.argsOf g.name, args.length = g.params.length)
    (hapart : fs.Pairwise fun f g => ∀ p ∈ f.params, p ∉ g.body.mentions)
    (h : inlineEach fs e = .ok r) : r.toTerm = e.toTerm.expand (closing fs) := by
  induction fs generalizing e with
  | nil =>
    cases h
    exact (Expr.expand_empty _).symm
  | cons f fs ih =>
    obtain ⟨e', he', h⟩ := bind_eq_ok.1 h
    obtain ⟨hfirst, hrest⟩ := List.pairwise_cons.1 hapart
    have hfits : f.definition.Fits (closing fs) :=
      Callee.fits_closing
        (fun g hg => harity f List.mem_cons_self g (List.mem_cons_of_mem _ hg)) hfirst
    have hterm : r.toTerm = e'.toTerm.expand (closing fs) :=
      ih (fun f' hf' g hg =>
        harity f' (List.mem_cons_of_mem _ hf') g (List.mem_cons_of_mem _ hg)) hrest h
    rw [hterm, Expr.toTerm_inline he', hfits.expand_expand]
    rfl

/-- **Inlining is full expansion.** Inlining from the last function back to the first, and expanding
the entry by functions that were closed from the first on, give the same expression if both
succeed. -/
theorem inlineAll_eq_expandAll {functions : List (FunDecl Mark)}
    (hfs : Separable (functions.filterMap FunDecl.callee?)) {main r : TypedExpr}
    (hmain : inlineAll functions = .ok main) (hr : expandAll functions = .ok r) : main = r := by
  unfold inlineAll at hmain
  unfold expandAll at hr
  generalize functions.filterMap FunDecl.callee? = callees at hfs hmain hr
  obtain rfl | ⟨others, entry, rfl⟩ := List.eq_nil_or_concat callees
  · cases hmain
  rw [List.concat_eq_append] at hfs hmain hr
  rw [List.reverse_concat] at hmain
  dsimp only at hr
  rw [List.getLast?_concat, List.dropLast_concat] at hr
  obtain ⟨closed, hclosed, hr⟩ := bind_eq_ok.1 hr
  have hmain : inlineEach others.reverse entry.body = .ok main := by
    dsimp only at hmain
    split at hmain
    · exact hmain
    · cases hmain
  have hterm : main.toTerm = entry.body.toTerm.expand (closing others.reverse) := by
    refine toTerm_inlineEach (fun f hf g hg => ?_) ?_ hmain
    · exact hfs.arity f (List.mem_append_left _ (List.mem_reverse.1 hf)) g
        (List.mem_append_left _ (List.mem_reverse.1 hg))
    · exact List.pairwise_reverse.2 (List.pairwise_append.1 hfs.apart).1
  have hdefs : definitions closed = closing others.reverse := by
    have hall : definitions closed = closing (others.reverse ++ []) :=
      definitions_closeEach rfl hclosed
    rwa [List.append_nil] at hall
  refine Expr.toTerm_injective ?_
  rw [hterm, Expr.toTerm_expand hr, hdefs]

/-- Sample functions: the first uses its first parameter twice and drops the second; the next calls
it, also in an argument; so does the entry. -/
def doubling : List (FunDecl Mark) :=
  [{ name := "sense", params := [⟨"arg0", .int⟩], ret := .int, recursion := none, body := none,
     line := 0 },
   { name := "twice", params := [⟨"a", .int⟩, ⟨"b", .int⟩], ret := .int, recursion := none,
     body := some (.binary ⟨.int, 1⟩ .add (.var ⟨.int, 1⟩ "a") (.var ⟨.int, 1⟩ "a")), line := 1 },
   { name := "probe", params := [⟨"c", .int⟩], ret := .int, recursion := none,
     body := some (.call ⟨.int, 2⟩ "twice" [.call ⟨.int, 2⟩ "sense" [.var ⟨.int, 2⟩ "c"],
       .call ⟨.int, 3⟩ "twice" [.var ⟨.int, 3⟩ "c", .var ⟨.int, 3⟩ "c"]]), line := 2 },
   { name := "main", params := [], ret := .int, recursion := none,
     body := some (.call ⟨.int, 4⟩ "probe" [.call ⟨.int, 4⟩ "twice" [.lit ⟨.int, 4⟩ (.int 1),
       .lit ⟨.int, 4⟩ (.int 2)]]), line := 4 }]

theorem doubling_inlineAll :
    Separable (doubling.filterMap FunDecl.callee?) ∧
      ∃ main sensed, inlineAll doubling = .ok main ∧ expandAll doubling = .ok main ∧
        main = .binary ⟨.int, 1⟩ .add sensed sensed ∧
        sensed = .call ⟨.int, 2⟩ "sense" [.binary ⟨.int, 1⟩ .add (.lit ⟨.int, 4⟩ (.int 1))
          (.lit ⟨.int, 4⟩ (.int 1))] := by
  have hfs : Separable (doubling.filterMap FunDecl.callee?) := ⟨by decide, by decide⟩
  obtain ⟨main, hmain⟩ : ∃ main, inlineAll doubling = .ok main := ⟨_, rfl⟩
  obtain ⟨r, hr⟩ : ∃ r, expandAll doubling = .ok r := ⟨_, rfl⟩
  obtain rfl := inlineAll_eq_expandAll hfs hmain hr
  refine ⟨hfs, main, _, hmain, hr, ?_, rfl⟩
  exact (Except.ok.inj hr).symm

end Rulebook
