import Mathlib.Data.List.Basic
import Rulebook.Bindings
import Rulebook.Expr.Basic

/-!
# Terms

On expressions, substitution and inlining can fail: the target of an assignment is a name and has to
stay one. In a term the target is a part like any other, so both are total there, and what holds of
them holds as an equation, with nothing to say about success.

Both rebuild a term from its names up (`Term.rebuild`), and differ in what they put for a name and
in how they put a node together from its parts. Two rebuildings in a row are one (`rebuild_rebuild`)
as soon as they are at names and at nodes. The laws of this module are cases of that:

* `subst_subst`: substitutions compose;
* `apply_subst`, `apply_expand`: substituting in, or expanding, an applied definition;
* `expand_expand`: expanding by one definition and then by others is expanding by all at once, the
  first with its body expanded.
-/

namespace Rulebook

/-- What stands at a node of a term. -/
inductive Head where
  | lit (mark : Mark) (value : Literal)
  | not (mark : Mark)
  | call (mark : Mark) (name : String)
  | binary (mark : Mark) (op : Operator)
  | cond (mark : Mark)
  | seq (mark : Mark)

/-- The function that is called at a node. -/
def Head.callee? : Head → Option String
  | .call _ f => some f
  | _ => none

/-- Terms. A name has a mark where it is read, and none where it is assigned. -/
inductive Term where
  | name (mark : Option Mark) (x : String)
  | assign (mark : Mark) (target value : Term)
  | node (head : Head) (parts : List Term)

/-- Looking up an argument, or looking up what became of it. -/
theorem lookup_zip_map {α β : Type} (params : List String) (args : List α) (f : α → β)
    (x : String) :
    (params.zip (args.map f)).reverse.lookup x = ((params.zip args).reverse.lookup x).map f := by
  rw [List.zip_map_right, ← List.map_reverse]
  induction (params.zip args).reverse with
  | nil => rfl
  | cons p ps ih =>
    obtain ⟨y, a⟩ := p
    rw [List.map_cons, Prod.map_apply, id, Bindings.lookup_cons_eq_ite,
      Bindings.lookup_cons_eq_ite, ih]
    split <;> rfl

/-- Terms to put for names. -/
abbrev Replacement := String → Option Term

namespace Term

/-- Induction on terms, with a hypothesis for every part of a node. -/
@[elab_as_elim, induction_eliminator]
theorem induct {motive : Term → Prop}
    (name : ∀ m x, motive (.name m x))
    (assign : ∀ m t v, motive t → motive v → motive (.assign m t v))
    (node : ∀ h ts, (∀ t ∈ ts, motive t) → motive (.node h ts))
    (t : Term) : motive t :=
  Term.rec name assign node nofun
    (fun _ _ hd tl a ha => by
      cases ha with
      | head => exact hd
      | tail _ h => exact tl a h) t

/-! ## Rebuilding -/

/-- A term as the target of an assignment; a name loses its mark. -/
def asTarget : Term → Term
  | .name _ x => .name none x
  | t => t

mutual

/-- Rebuilds a term, with `s` for its names and `κ` at its nodes. -/
def rebuild (s : Replacement) (κ : Head → List Term → Term) : Term → Term
  | .name m x => (s x).getD (.name m x)
  | .assign m t v => .assign m (t.rebuild s κ).asTarget (v.rebuild s κ)
  | .node h ts => κ h (rebuildAll s κ ts)

/-- Rebuilds every part of a node. -/
def rebuildAll (s : Replacement) (κ : Head → List Term → Term) : List Term → List Term
  | [] => []
  | t :: ts => t.rebuild s κ :: rebuildAll s κ ts

end

variable {s s' s'' : Replacement} {κ κ' κ'' : Head → List Term → Term}

@[simp] theorem rebuildAll_eq_map (ts : List Term) :
    rebuildAll s κ ts = ts.map (rebuild s κ) := by
  induction ts with
  | nil => rfl
  | cons t ts ih => rw [rebuildAll, ih, List.map_cons]

@[simp] theorem rebuild_node (h : Head) (ts : List Term) :
    (node h ts).rebuild s κ = κ h (ts.map (rebuild s κ)) := by
  rw [rebuild, rebuildAll_eq_map]

/-- The mark of a target does not matter. -/
theorem asTarget_rebuild (t : Term) :
    (t.asTarget.rebuild s κ).asTarget = (t.rebuild s κ).asTarget := by
  cases t with
  | name m x =>
    rw [asTarget, rebuild, rebuild]
    cases s x <;> rfl
  | assign | node => rfl

/-- Every node of a term, with the number of its parts, satisfies `P`. -/
inductive Shaped (P : Head → ℕ → Prop) : Term → Prop
  | name (m : Option Mark) (x : String) : Shaped P (.name m x)
  | assign {m : Mark} {t v : Term} : Shaped P t → Shaped P v → Shaped P (.assign m t v)
  | node {h : Head} {ts : List Term} :
    P h ts.length → (∀ t ∈ ts, Shaped P t) → Shaped P (.node h ts)

theorem shaped_true (t : Term) : t.Shaped fun _ _ => True := by
  induction t with
  | name m x => exact .name m x
  | assign m t v iht ihv => exact .assign iht ihv
  | node h ts ih => exact .node trivial ih

/-- **Two rebuildings in a row are one** if they are at every name, and at the nodes that the term
has. -/
theorem Shaped.rebuild_rebuild {P : Head → ℕ → Prop} {t : Term} (ht : t.Shaped P)
    (hname : ∀ m x, ((Term.name m x).rebuild s κ).rebuild s' κ' = (Term.name m x).rebuild s'' κ'')
    (hnode : ∀ h ts, P h ts.length →
      (κ h ts).rebuild s' κ' = κ'' h (ts.map (rebuild s' κ'))) :
    (t.rebuild s κ).rebuild s' κ' = t.rebuild s'' κ'' := by
  induction ht with
  | name m x => exact hname m x
  | assign _ _ iht ihv => rw [rebuild, rebuild, rebuild, asTarget_rebuild, iht, ihv]
  | @node h ts hP _ ih =>
    rw [rebuild_node, hnode h _ (by rwa [List.length_map]), List.map_map, rebuild_node]
    exact congrArg (κ'' h) (List.map_congr_left ih)

theorem rebuild_rebuild (t : Term)
    (hname : ∀ m x, ((name m x).rebuild s κ).rebuild s' κ' = (name m x).rebuild s'' κ'')
    (hnode : ∀ h ts, (κ h ts).rebuild s' κ' = κ'' h (ts.map (rebuild s' κ'))) :
    (t.rebuild s κ).rebuild s' κ' = t.rebuild s'' κ'' :=
  t.shaped_true.rebuild_rebuild hname fun h ts _ => hnode h ts

/-! ## Names -/

mutual

/-- The names in a term. -/
def names : Term → List String
  | .name _ x => [x]
  | .assign _ t v => t.names ++ v.names
  | .node _ ts => namesAll ts

/-- The names in all parts of a node. -/
def namesAll : List Term → List String
  | [] => []
  | t :: ts => t.names ++ namesAll ts

end

@[simp] theorem namesAll_eq_flatMap (ts : List Term) : namesAll ts = ts.flatMap names := by
  induction ts with
  | nil => rfl
  | cons t ts ih => rw [namesAll, ih, List.flatMap_cons]

@[simp] theorem names_asTarget (t : Term) : t.asTarget.names = t.names := by
  cases t <;> rfl

theorem mem_names_node {h : Head} {ts : List Term} {x : String} :
    x ∈ (node h ts).names ↔ ∃ t ∈ ts, x ∈ t.names := by
  rw [names, namesAll_eq_flatMap, List.mem_flatMap]

/-- Only what is put for the names of a term matters. -/
theorem rebuild_congr {t : Term} (h : ∀ x ∈ t.names, s x = s' x) :
    t.rebuild s κ = t.rebuild s' κ := by
  induction t with
  | name m x => rw [rebuild, rebuild, h x (List.mem_singleton.2 rfl)]
  | assign m t v iht ihv =>
    rw [rebuild, rebuild, iht fun x hx => h x (List.mem_append_left _ hx),
      ihv fun x hx => h x (List.mem_append_right _ hx)]
  | node head ts ih =>
    rw [rebuild_node, rebuild_node]
    refine congrArg (κ head) (List.map_congr_left fun t ht => ?_)
    exact ih t ht fun x hx => h x (mem_names_node.2 ⟨t, ht, hx⟩)

/-- The names of a rebuilt term have a property that what is put for a name has, and that nodes
take over from their parts. -/
theorem names_rebuild {S : String → Prop} {t : Term}
    (hname : ∀ x ∈ t.names, ∀ y ∈ ((name none x).rebuild s κ).names, S y)
    (hnode : ∀ h ts, (∀ t ∈ ts, ∀ y ∈ t.names, S y) → ∀ y ∈ (κ h ts).names, S y) :
    ∀ y ∈ (t.rebuild s κ).names, S y := by
  induction t with
  | name m x =>
    intro y hy
    refine hname x (List.mem_singleton.2 rfl) y ?_
    rw [rebuild] at hy ⊢
    cases hx : s x <;> rw [hx] at hy <;> exact hy
  | assign m t v iht ihv =>
    intro y hy
    rw [rebuild, names, names_asTarget] at hy
    rcases List.mem_append.1 hy with hy | hy
    · exact iht (fun x hx => hname x (List.mem_append_left _ hx)) y hy
    · exact ihv (fun x hx => hname x (List.mem_append_right _ hx)) y hy
  | node h ts ih =>
    rw [rebuild_node]
    refine hnode h _ fun t' ht' => ?_
    obtain ⟨t, ht, rfl⟩ := List.mem_map.1 ht'
    exact ih t ht fun x hx => hname x (mem_names_node.2 ⟨t, ht, hx⟩)

/-! ## Substitution -/

/-- Puts terms for names. -/
def subst (s : Replacement) (t : Term) : Term := t.rebuild s .node

end Term

namespace Replacement

open Term

/-- The first replacement, with the second carried out in what it puts. -/
def andThen (s r : Replacement) : Replacement := fun x =>
  match s x with
  | some t => some (t.subst r)
  | none => r x

/-- Arguments for parameters; of parameters with one name the last counts. -/
def ofArgs (params : List String) (args : List Term) : Replacement := fun x =>
  (params.zip args).reverse.lookup x

theorem ofArgs_of_not_mem {params : List String} {x : String} (args : List Term)
    (h : x ∉ params) : ofArgs params args x = none := by
  rw [ofArgs, List.lookup_eq_none_iff]
  rintro ⟨y, a⟩ hy
  rw [bne_iff_ne]
  rintro rfl
  exact h (List.of_mem_zip (List.mem_reverse.1 hy)).1

/-- Where there are as many arguments as parameters, every parameter has one. -/
theorem exists_ofArgs {params : List String} {args : List Term} {x : String}
    (hlen : args.length = params.length) (h : x ∈ params) : ∃ a, ofArgs params args x = some a := by
  rw [← List.map_fst_zip (Nat.le_of_eq hlen.symm)] at h
  obtain ⟨p, hp, rfl⟩ := List.mem_map.1 h
  rw [← Option.ne_none_iff_exists', ofArgs, Ne, List.lookup_eq_none_iff]
  intro hnone
  exact bne_iff_ne.1 (hnone p (List.mem_reverse.2 hp)) rfl

theorem mem_of_ofArgs {params : List String} {args : List Term} {x : String} {a : Term}
    (h : ofArgs params args x = some a) : a ∈ args := by
  rw [ofArgs, List.lookup_eq_some_iff] at h
  obtain ⟨before, after, hzip, -⟩ := h
  have hmem : (x, a) ∈ params.zip args := by
    rw [← List.mem_reverse, hzip]
    exact List.mem_append_right _ List.mem_cons_self
  exact (List.of_mem_zip hmem).2

theorem ofArgs_map (params : List String) (args : List Term) (f : Term → Term) (x : String) :
    ofArgs params (args.map f) x = (ofArgs params args x).map f :=
  lookup_zip_map params args f x

end Replacement

namespace Term

/-- **Substitutions compose.** -/
theorem subst_subst (t : Term) (s r : Replacement) :
    (t.subst s).subst r = t.subst (s.andThen r) := by
  refine t.rebuild_rebuild (fun m x => ?_) fun h ts => rebuild_node h ts
  rw [rebuild, rebuild, Replacement.andThen]
  cases s x <;> rfl

end Term

/-! ## Definitions -/

/-- A function, by its parameters and its body. -/
structure Definition where
  params : List String
  body : Term

/-- Functions by name. -/
abbrev Definitions := String → Option Definition

namespace Definition

/-- The body with arguments for the parameters. -/
def apply (d : Definition) (args : List Term) : Term := d.body.subst (.ofArgs d.params args)

/-- The names of the body other than parameters. -/
def free (d : Definition) : String → Prop := fun x => x ∈ d.body.names ∧ x ∉ d.params

/-- Substituting in an applied definition is substituting in its arguments, if there is one for
every parameter and nothing is put for the other names of the body. -/
theorem apply_subst {d : Definition} {args : List Term} {r : Replacement}
    (hlen : args.length = d.params.length) (hfree : ∀ x, d.free x → r x = none) :
    (d.apply args).subst r = d.apply (args.map (Term.subst r)) := by
  rw [apply, apply, Term.subst_subst]
  refine Term.rebuild_congr fun x hx => ?_
  rw [Replacement.andThen, Replacement.ofArgs_map]
  by_cases hp : x ∈ d.params
  · obtain ⟨a, ha⟩ := Replacement.exists_ofArgs hlen hp
    rw [ha]
    rfl
  · rw [Replacement.ofArgs_of_not_mem args hp]
    exact hfree x ⟨hx, hp⟩

/-- The names of an applied definition come from the body and the arguments. -/
theorem names_apply {S : String → Prop} {d : Definition} {args : List Term}
    (hbody : ∀ x ∈ d.body.names, S x) (hargs : ∀ a ∈ args, ∀ x ∈ a.names, S x) :
    ∀ x ∈ (d.apply args).names, S x := by
  refine Term.names_rebuild (fun x hx y hy => ?_) fun h ts hts y hy => ?_
  · rw [Term.rebuild] at hy
    cases ha : Replacement.ofArgs d.params args x with
    | none =>
      rw [ha] at hy
      exact List.mem_singleton.1 hy ▸ hbody x hx
    | some a =>
      rw [ha] at hy
      exact hargs a (Replacement.mem_of_ofArgs ha) y hy
  · obtain ⟨t, ht, hy⟩ := Term.mem_names_node.1 hy
    exact hts t ht y hy

end Definition

namespace Definitions

/-- No functions. -/
def empty : Definitions := fun _ => none

/-- One more function, in the place of one with its name. -/
def define (Γ : Definitions) (f : String) (d : Definition) : Definitions := fun g =>
  if g = f then some d else Γ g

/-- A node, or the applied definition of the function that is called there. -/
def node (Γ : Definitions) (h : Head) (ts : List Term) : Term :=
  match h.callee?.bind Γ with
  | some d => d.apply ts
  | none => .node h ts

/-- A node that calls a function of `Γ` has as many parts as the function has parameters. -/
def Saturates (Γ : Definitions) (h : Head) (n : ℕ) : Prop :=
  ∀ d, h.callee?.bind Γ = some d → n = d.params.length

theorem saturates_of_none {h : Head} (hh : h.callee? = none) (Γ : Definitions) (n : ℕ) :
    Γ.Saturates h n := by
  intro d hd
  rw [hh] at hd
  cases hd

theorem define_empty_eq_some {f g : String} {d d' : Definition} :
    empty.define f d g = some d' ↔ g = f ∧ d' = d := by
  rw [define]
  split
  · next hg => simp [hg, eq_comm]
  · next hg => simp [hg, empty]

theorem node_of_some {Γ : Definitions} {h : Head} {d : Definition} (hd : h.callee?.bind Γ = some d)
    (ts : List Term) : Γ.node h ts = d.apply ts := by
  rw [node, hd]

theorem node_of_none {Γ : Definitions} {h : Head} (hd : h.callee?.bind Γ = none)
    (ts : List Term) : Γ.node h ts = .node h ts := by
  rw [node, hd]

theorem node_empty : empty.node = .node := by
  funext h ts
  exact node_of_none (by cases h <;> rfl) ts

end Definitions

namespace Term

/-- Replaces every call of a function of `Γ` by its applied definition, from the inside out. -/
def expand (Γ : Definitions) (t : Term) : Term := t.rebuild (fun _ => none) Γ.node

theorem expand_node (Γ : Definitions) (h : Head) (ts : List Term) :
    (node h ts).expand Γ = Γ.node h (ts.map (expand Γ)) := rebuild_node h ts

/-- **Expansion commutes with substitution**, if calls have as many arguments as parameters and
nothing is put for names that come with the definitions. -/
theorem Shaped.expand_subst {Γ : Definitions} {t : Term} (ht : t.Shaped Γ.Saturates)
    {s : Replacement} (hs : ∀ g d, Γ g = some d → ∀ x, d.free x → s x = none) :
    (t.subst s).expand Γ = (t.expand Γ).subst fun x => (s x).map (expand Γ) := by
  -- both sides are one rebuilding: names are replaced by expanded terms, and calls expanded
  have hleft : (t.subst s).expand Γ = t.rebuild (fun x => (s x).map (expand Γ)) Γ.node := by
    refine t.rebuild_rebuild (fun m x => ?_) fun h ts => rebuild_node h ts
    rw [rebuild, rebuild]
    cases s x <;> rfl
  rw [hleft]
  refine (ht.rebuild_rebuild (fun m x => rfl) fun h ts hlen => ?_).symm
  cases hd : h.callee?.bind Γ with
  | none => rw [Γ.node_of_none hd, Γ.node_of_none hd, rebuild_node]
  | some d =>
    obtain ⟨g, -, hg⟩ := Option.bind_eq_some_iff.1 hd
    rw [Γ.node_of_some hd, Γ.node_of_some hd]
    refine Definition.apply_subst (hlen d hd) fun x hx => ?_
    rw [hs g d hg x hx]
    rfl

/-- The names of an expanded term come from the term and the definitions. -/
theorem names_expand {S : String → Prop} {Γ : Definitions} {t : Term} (ht : ∀ x ∈ t.names, S x)
    (hΓ : ∀ g d, Γ g = some d → ∀ x ∈ d.body.names, S x) : ∀ x ∈ (t.expand Γ).names, S x := by
  refine names_rebuild (fun x hx y hy => List.mem_singleton.1 hy ▸ ht x hx) fun h ts hts => ?_
  cases hd : h.callee?.bind Γ with
  | none =>
    intro y hy
    rw [Γ.node_of_none hd] at hy
    obtain ⟨t, ht, hy⟩ := mem_names_node.1 hy
    exact hts t ht y hy
  | some d =>
    obtain ⟨g, -, hg⟩ := Option.bind_eq_some_iff.1 hd
    rw [Γ.node_of_some hd]
    exact Definition.names_apply (hΓ g d hg) hts

end Term

namespace Definition

/-- The definition with its body expanded. -/
def expand (Γ : Definitions) (d : Definition) : Definition := { d with body := d.body.expand Γ }

/-- Calls in the body have as many arguments as parameters, and no parameter is a name that comes
with the definitions. -/
structure Fits (d : Definition) (Γ : Definitions) : Prop where
  saturated : d.body.Shaped Γ.Saturates
  apart : ∀ g d', Γ g = some d' → ∀ x, d'.free x → x ∉ d.params

theorem Fits.apply_expand {d : Definition} {Γ : Definitions} (hd : d.Fits Γ) (args : List Term) :
    (d.apply args).expand Γ = (d.expand Γ).apply (args.map (Term.expand Γ)) := by
  have hargs : (fun x => (Replacement.ofArgs d.params args x).map (Term.expand Γ)) =
      Replacement.ofArgs d.params (args.map (Term.expand Γ)) := by
    funext x
    rw [Replacement.ofArgs_map]
  rw [apply, apply, hd.saturated.expand_subst fun g d' hg x hx =>
    Replacement.ofArgs_of_not_mem args (hd.apart g d' hg x hx), hargs]
  rfl

end Definition

/-- **One definition after the other.** Expanding by one definition, and then by others, is
expanding by all of them at once, the first with its body expanded. -/
theorem Definition.Fits.expand_expand {d : Definition} {Γ : Definitions} (hd : d.Fits Γ)
    (f : String) (t : Term) :
    (t.expand (Definitions.empty.define f d)).expand Γ = t.expand (Γ.define f (d.expand Γ)) := by
  refine t.rebuild_rebuild (fun m x => rfl) fun h ts => ?_
  by_cases hf : h.callee? = some f
  · have hfirst : h.callee?.bind (Definitions.empty.define f d) = some d := by
      rw [hf]
      exact if_pos rfl
    have hboth : h.callee?.bind (Γ.define f (d.expand Γ)) = some (d.expand Γ) := by
      rw [hf]
      exact if_pos rfl
    rw [Definitions.node_of_some hfirst, Definitions.node_of_some hboth]
    exact hd.apply_expand ts
  · have hother : ∀ (Δ : Definitions) (d' : Definition),
        h.callee?.bind (Δ.define f d') = h.callee?.bind Δ := by
      intro Δ d'
      cases hg : h.callee? with
      | none => rfl
      | some g => exact if_neg fun hgf => hf (hg.trans (congrArg some hgf))
    have hnone : h.callee?.bind Definitions.empty = none := by
      cases h.callee? <;> rfl
    rw [Definitions.node_of_none ((hother _ _).trans hnone), Term.rebuild_node, Definitions.node,
      Definitions.node, hother]

end Rulebook
