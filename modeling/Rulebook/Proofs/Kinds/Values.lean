import Rulebook.Proofs.Kinds.Calls

/-!
# Fresh names and functions as values

Fresh names are drawn for variables and parameters only. A function that is read as a value keeps
its name, and a parameter may later be called just that. `Substitution.Covers` keeps apart the
names in scope that get a fresh name and those that are kept. Renaming takes an expression that was
checked in a scope to a well-typed one (`WellTyped.freshen`) if the names that it keeps are not
fresh names.
-/

namespace Rulebook

/-- The variables numbered below `k`, and at any type every name that is not a fresh name. -/
def outside (k : ℕ) : String → Ty → Prop := fun x t => numbered k x t ∨ ∀ n, x ≠ FreshNames.name n

namespace Substitution

/-- A variable of its type is put for every name in scope, with a name of `names`; or the name is
kept, as are those of `kept`. -/
def Covers (g : Substitution) (s : Scope) (names : String → Ty → Prop) (kept : String → Prop) :
    Prop :=
  ∀ x t, s.find? x = some t →
    (∃ line y, g.find? x = some (.var ⟨t, line⟩ y) ∧ names y t) ∨ (g.find? x = none ∧ kept x)

namespace Covers

variable {g : Substitution} {s : Scope} {names names' : String → Ty → Prop}
  {kept kept' : String → Prop}

theorem mono (h : g.Covers s names kept) (hnames : ∀ x t, names x t → names' x t)
    (hkept : ∀ x, kept x → kept' x) : g.Covers s names' kept' := by
  intro x t hx
  rcases h x t hx with ⟨line, y, hy, hyt⟩ | ⟨hnone, hk⟩
  · exact .inl ⟨line, y, hy, hnames y t hyt⟩
  · exact .inr ⟨hnone, hkept x hk⟩

/-- A value that comes into scope, with the variable that stands for it. -/
theorem bind (h : g.Covers s names kept) (x : String) {t : Ty} {y : String} (line : Line)
    (hy : names y t) :
    Covers (g.bind x (.var ⟨t, line⟩ y)) (s.bind x t) names fun z => kept z ∧ z ≠ x := by
  intro z u hz
  rw [Bindings.find?_bind] at hz ⊢
  by_cases hzx : z = x
  · rw [if_pos hzx] at hz ⊢
    cases hz
    exact .inl ⟨line, y, rfl, hy⟩
  · rw [if_neg hzx] at hz ⊢
    exact (h z u hz).imp_right fun ⟨hnone, hk⟩ => ⟨hnone, hk, hzx⟩

/-- A function that comes into scope keeps its name. -/
theorem bind_function (h : g.Covers s names kept) {f : String} (hnone : g.find? f = none)
    (hk : kept f) (t : Ty) : g.Covers (s.bind f t) names kept := by
  intro z u hz
  rw [Bindings.find?_bind] at hz
  by_cases hzf : z = f
  · exact .inr (hzf ▸ ⟨hnone, hk⟩)
  · rw [if_neg hzf] at hz
    exact h z u hz

theorem bindFunctions (h : g.Covers s names kept) {fs : List (FunDecl Mark)}
    (hfs : ∀ f ∈ fs, g.find? f.name = none ∧ kept f.name) :
    g.Covers (s.bindFunctions fs) names kept := by
  induction fs generalizing s with
  | nil => exact h
  | cons f fs ih =>
    obtain ⟨hnone, hk⟩ := hfs f List.mem_cons_self
    exact ih (h.bind_function hnone hk f.ty) fun k hk => hfs k (List.mem_cons_of_mem _ hk)

/-- Parameters get fresh names, whatever their types. -/
theorem freshenParams {line : Line} {g' : Substitution} {n n' : FreshNames} {ps ps' : List Param}
    (hp : freshenParams line g n ps = (ps', g', n')) (h : g.Covers s names kept) :
    g'.Covers (s.bindParams ps) (withParams names ps')
      fun x => kept x ∧ x ∉ ps.map Param.name := by
  induction ps generalizing g s n ps' names kept with
  | nil =>
    cases hp
    exact h.mono (fun _ _ => .inl) fun x hx => ⟨hx, List.not_mem_nil⟩
  | cons p ps ih =>
    obtain ⟨qs, hqs, rfl⟩ := freshenParams_cons.1 hp
    have hfirst : g.Covers s (withParams names [⟨FreshNames.name n.next, p.ty⟩]) kept :=
      h.mono (fun _ _ => .inl) fun _ hx => hx
    refine (ih hqs (hfirst.bind p.name line (.inr (List.mem_singleton.2 rfl)))).mono ?_ ?_
    · rintro y t ((hy | hy) | hy)
      · exact .inl hy
      · exact .inr (List.mem_cons.2 (.inl (List.mem_singleton.1 hy)))
      · exact .inr (List.mem_cons_of_mem _ hy)
    · rintro x ⟨⟨hx, hne⟩, hmem⟩
      exact ⟨hx, by simpa [hne] using hmem⟩

end Covers

end Substitution

/-! ## Expressions and variables -/

section

variable {g : Substitution} {s : Scope} {names : String → Ty → Prop} {kept : String → Prop}

/-- **Renaming a checked expression keeps types**, at the names that it keeps as well. -/
theorem Expr.WellTyped.freshen {calls : String → List Ty → Ty → Prop} {e r : TypedExpr}
    (h : e.WellTyped (.ofScope s)) (hg : g.Covers s names kept)
    (hkept : ∀ x ∈ e.reads, kept x → ∀ t, names x t)
    (hcalls : ∀ f ∈ e.callees, ∀ ts t, s.find? f = some (.fn ts t) → calls f ts t)
    (hr : e.substitute g = .ok r) : r.WellTyped (.reading names calls) ∧ r.ty = e.ty := by
  have hown : e.WellTyped (.reading (fun x t => s.find? x = some t ∧ x ∈ e.reads) calls) := by
    refine h.change ?_ (fun _ _ _ _ _ => trivial) ?_
    · exact fun m x hmem hx => ⟨hx, mem_reads.2 ⟨m, hmem⟩⟩
    · exact fun m f args hmem hf => hcalls f (mem_callees.2 ⟨m, args, hmem⟩) _ _ hf
  refine hown.substitute ⟨?_, fun _ _ _ _ _ _ => trivial, ?_⟩ hr
  · rintro x m ⟨hx, hmem⟩
    rcases hg x m.ty hx with ⟨line, y, hy, hyt⟩ | ⟨hnone, hk⟩
    · rw [hy]
      exact ⟨.var hyt, rfl⟩
    · rw [hnone]
      exact ⟨.var (hkept x hmem hk m.ty), rfl⟩
  · exact fun _ _ _ hf => hf

/-- **Renaming variables**: their initial values are well typed, and what is in scope after them is
covered. -/
theorem freshenVariables_covers {s' : Scope} {g' : Substitution} {n n' : FreshNames}
    {us : List (VarDecl Line)} {vs ws : List (VarDecl Mark)}
    (hg : g.Covers s (numbered n.next) kept) (hvs : checkVariables s us = .ok (vs, s'))
    (hws : freshenVariables g n vs = .ok (ws, g', n')) :
    g'.Covers s' (numbered n'.next) kept ∧
      (∀ w ∈ ws, ∃ Γ : Context, w.init.WellTyped Γ) ∧
      ∀ x ∉ us.map VarDecl.name, g'.find? x = g.find? x := by
  induction us generalizing s g n vs ws with
  | nil =>
    cases hvs
    cases hws
    exact ⟨hg, nofun, fun _ _ => rfl⟩
  | cons u us ih =>
    obtain ⟨init, vs', hinit, -, hvs', rfl⟩ := checkVariables_cons.1 hvs
    obtain ⟨init', ws', hinit', hws', rfl⟩ := freshenVariables_cons.1 hws
    -- nothing is put into an initial value later, so it may keep any name
    have hw : init'.WellTyped (.reading (fun _ _ => True) fun _ _ _ => True) :=
      ((Expr.check_wellTyped hinit).freshen (hg.mono (fun _ _ _ => trivial) fun _ hx => hx)
        (fun _ _ _ _ => trivial) (fun _ _ _ _ _ => trivial) hinit').1
    have hnext : g.Covers s (numbered (n.next + 1)) kept :=
      hg.mono (fun _ _ hy => numbered_mono (Nat.le_succ _) hy) fun _ hx => hx
    have hbind := hnext.bind u.name u.line ⟨rfl, n.next, Nat.lt_succ_self _, rfl⟩
    obtain ⟨hg', hws, hfind⟩ := ih (hbind.mono (fun _ _ hy => hy) fun _ hx => hx.1) hvs' hws'
    refine ⟨hg', List.forall_mem_cons.2 ⟨⟨_, hw⟩, hws⟩, fun x hx => ?_⟩
    rw [List.map_cons, List.mem_cons, not_or] at hx
    rw [hfind x hx.2, Bindings.find?_bind, if_neg hx.1]

end

/-! ## Functions -/

/-- A function as checking leaves it in the scope `s`: its body and the value beyond its bound have
the return type. Names of `kept` that they read, other than parameters, are not fresh names, and
the calls in the body are those of `calls`. -/
structure FunDecl.Uncaptured (f : FunDecl Mark) (s : Scope) (kept : String → Prop)
    (calls : String → List Ty → Ty → Prop) (body : TypedExpr) : Prop where
  typed : body.WellTyped (.ofScope (s.ofBody f))
  ty_eq : body.ty = f.ret
  reads : ∀ x ∈ body.reads, kept x → x ∉ f.params.map Param.name → ∀ n, x ≠ FreshNames.name n
  callees : ∀ h ∈ body.callees, ∀ ts t, (s.ofBody f).find? h = some (.fn ts t) → calls h ts t
  fallback : ∀ bound, f.recursion = some bound →
    bound.fallback.WellTyped (.ofScope s) ∧ bound.fallback.ty = f.ret ∧
      ∀ x ∈ bound.fallback.reads, kept x → ∀ n, x ≠ FreshNames.name n

/-- **Renaming a checked function** leaves one whose body can be put for its calls. -/
theorem FunDecl.Uncaptured.freshen {g : Substitution} {s : Scope} {kept : String → Prop} {k : ℕ}
    {calls calls' : String → List Ty → Ty → Prop} {n n' : FreshNames} {f f' : FunDecl Mark}
    {body : TypedExpr} (hf : f.Uncaptured s kept calls body)
    (hg : g.Covers s (numbered k) kept) (hk : k ≤ n.next) (hname : g.find? f.name = none)
    (hkept : kept f.name) (hs : s.FunctionsIn calls') (hbody : f.body = some body)
    (h : f.freshen g n = .ok (f', n')) :
    f'.recursion.isSome = f.recursion.isSome ∧
      ∃ body', f'.body = some body' ∧ f'.Spliceable (outside k) calls body' ∧
        ∀ bound, f'.recursion = some bound →
          bound.fallback.WellTyped (.reading (outside k) calls') ∧ bound.fallback.ty = f'.ret := by
  obtain ⟨params, scope, recursion, body', hp, hrec, hbody', rfl⟩ := freshen_of_some hbody h
  obtain ⟨hnames, -, -, -⟩ := freshenParams_renames hp
  have hout : g.Covers s (outside k) kept := hg.mono (fun _ _ => .inl) fun _ hx => hx
  have hself : g.Covers (if f.recursion.isSome then s.bind f.name f.ty else s) (outside k) kept := by
    split
    · exact hout.bind_function hname hkept f.ty
    · exact hout
  obtain ⟨hw, ht⟩ := hf.typed.freshen (hself.freshenParams hp)
    (fun x hx hkx t => .inl (.inr (hf.reads x hx hkx.1 hkx.2))) hf.callees hbody'
  have hbelow : ∀ i t, outside k (FreshNames.name i) t → i < k := by
    rintro i t (hi | hi)
    · exact lt_of_numbered hi
    · exact absurd rfl (hi i)
  refine ⟨isSome_of_rel hrec, body', rfl,
    ⟨ownParams_of_fresh hnames hk hbelow, hw, ht.trans hf.ty_eq⟩, ?_⟩
  rintro bound rfl
  obtain ⟨bound', hbound', -, hsub⟩ := exists_of_rel_some hrec
  obtain ⟨hw, ht, hreads⟩ := hf.fallback bound' hbound'
  obtain ⟨hw', ht'⟩ := hw.freshen hout (fun x hx hkx t => .inr (hreads x hx hkx))
    (fun h _ ts t hh => hs h ts t hh) hsub
  exact ⟨hw', ht'.trans ht⟩

end Rulebook
