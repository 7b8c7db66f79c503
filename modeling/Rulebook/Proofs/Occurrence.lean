import Mathlib.Data.List.Basic
import Rulebook.Expr.Basic

/-!
# Occurrences

What occurs in an expression, read off its subterms: the names it reads (`reads`), the names it
assigns (`targets`), both of them (`mentions`), the functions it calls (`callees`), with which
arguments (`argsOf`), and the tests of its conditionals (`tests`). Each is one case of
`Expr.collect`, which picks something at every node; the lemmas `collect_…` follow an expression's
form.
-/

namespace Rulebook.Expr

variable {μ ν α : Type}

/-! ## Subterms -/

theorem self_mem_subterms (e : Expr μ) : e ∈ e.subterms := by
  cases e <;> simp [subterms]

theorem mem_subterms_call {a : Expr μ} {args : List (Expr μ)} (h : a ∈ args) (m : μ) (f : String) :
    a ∈ (call m f args).subterms := by
  rw [subterms, subtermsList_eq_flatMap]
  exact List.mem_cons_of_mem _ (List.mem_flatMap.2 ⟨a, h, self_mem_subterms a⟩)

/-- A subterm of a subterm is a subterm. -/
theorem mem_subterms_trans {d c e : Expr μ} (hd : d ∈ c.subterms) (hc : c ∈ e.subterms) :
    d ∈ e.subterms := by
  induction e with
  | lit | var =>
    simp only [subterms, List.mem_singleton] at hc
    exact hc ▸ hd
  | not m e ih | assign m x e ih =>
    simp only [subterms, List.mem_cons] at hc
    rcases hc with rfl | hc
    · exact hd
    · exact List.mem_cons_of_mem _ (ih hc)
  | call m f args ih =>
    simp only [subterms, subtermsList_eq_flatMap, List.mem_cons, List.mem_flatMap] at hc ⊢
    rcases hc with rfl | ⟨a, ha, hc⟩
    · simpa only [subterms, subtermsList_eq_flatMap, List.mem_cons, List.mem_flatMap] using hd
    · exact .inr ⟨a, ha, ih a ha hc⟩
  | binary m op l r ihl ihr | seq m l r ihl ihr =>
    simp only [subterms, List.mem_cons, List.mem_append] at hc
    rcases hc with rfl | hc | hc
    · exact hd
    · exact List.mem_cons_of_mem _ (List.mem_append_left _ (ihl hc))
    · exact List.mem_cons_of_mem _ (List.mem_append_right _ (ihr hc))
  | cond m c' t e ihc iht ihe =>
    simp only [subterms, List.mem_cons, List.mem_append] at hc
    rcases hc with rfl | (hc | hc) | hc
    · exact hd
    · simp only [subterms, List.mem_cons, List.mem_append]
      exact .inr (.inl (.inl (ihc hc)))
    · simp only [subterms, List.mem_cons, List.mem_append]
      exact .inr (.inl (.inr (iht hc)))
    · simp only [subterms, List.mem_cons, List.mem_append]
      exact .inr (.inr (ihe hc))

/-- The subterms of a tree with other marks. -/
theorem subterms_map (f : μ → ν) (e : Expr μ) : (e.map f).subterms = e.subterms.map (map f) := by
  induction e with
  | lit | var => rfl
  | not m e ih | assign m x e ih => simp only [map, subterms, List.map_cons, ih]
  | call m g args ih =>
    simp only [map, subterms, mapList_eq_map, subtermsList_eq_flatMap, List.map_cons,
      List.map_flatMap, List.flatMap_map]
    rw [List.flatMap_congr ih]
  | binary m op l r ihl ihr | seq m l r ihl ihr =>
    simp only [map, subterms, List.map_cons, List.map_append, ihl, ihr]
  | cond m c t e ihc iht ihe =>
    simp only [map, subterms, List.map_cons, List.map_append, ihc, iht, ihe]

/-! ## Collecting -/

/-- What `p` picks at the nodes of an expression, in pre-order. -/
def collect (p : Expr μ → Option α) (e : Expr μ) : List α := e.subterms.filterMap p

theorem mem_collect {p : Expr μ → Option α} {e : Expr μ} {a : α} :
    a ∈ e.collect p ↔ ∃ d ∈ e.subterms, p d = some a := List.mem_filterMap

section

variable (p : Expr μ → Option α)

theorem filterMap_cons_eq_append (e : Expr μ) (es : List (Expr μ)) :
    (e :: es).filterMap p = (p e).toList ++ es.filterMap p := by
  cases h : p e <;> simp [h]

@[simp] theorem collect_lit (m : μ) (v : Literal) :
    (lit m v).collect p = (p (.lit m v)).toList :=
  (filterMap_cons_eq_append p _ []).trans (List.append_nil _)

@[simp] theorem collect_var (m : μ) (x : String) :
    (var m x).collect p = (p (.var m x)).toList :=
  (filterMap_cons_eq_append p _ []).trans (List.append_nil _)

@[simp] theorem collect_not (m : μ) (e : Expr μ) :
    (not m e).collect p = (p (.not m e)).toList ++ e.collect p :=
  filterMap_cons_eq_append p _ e.subterms

@[simp] theorem collect_call (m : μ) (f : String) (args : List (Expr μ)) :
    (call m f args).collect p = (p (.call m f args)).toList ++ args.flatMap (collect p) := by
  have hargs : (subtermsList args).filterMap p = args.flatMap (collect p) := by
    rw [subtermsList_eq_flatMap, List.filterMap_flatMap]
    rfl
  rw [← hargs]
  exact filterMap_cons_eq_append p _ (subtermsList args)

@[simp] theorem collect_binary (m : μ) (op : Operator) (l r : Expr μ) :
    (binary m op l r).collect p =
      (p (.binary m op l r)).toList ++ (l.collect p ++ r.collect p) := by
  simp only [collect, ← List.filterMap_append]
  exact filterMap_cons_eq_append p _ (l.subterms ++ r.subterms)

@[simp] theorem collect_cond (m : μ) (c t e : Expr μ) :
    (cond m c t e).collect p =
      (p (.cond m c t e)).toList ++ (c.collect p ++ t.collect p ++ e.collect p) := by
  simp only [collect, ← List.filterMap_append]
  exact filterMap_cons_eq_append p _ (c.subterms ++ t.subterms ++ e.subterms)

@[simp] theorem collect_assign (m : μ) (x : String) (e : Expr μ) :
    (assign m x e).collect p = (p (.assign m x e)).toList ++ e.collect p :=
  filterMap_cons_eq_append p _ e.subterms

@[simp] theorem collect_seq (m : μ) (a b : Expr μ) :
    (seq m a b).collect p = (p (.seq m a b)).toList ++ (a.collect p ++ b.collect p) := by
  simp only [collect, ← List.filterMap_append]
  exact filterMap_cons_eq_append p _ (a.subterms ++ b.subterms)

end

/-! ## Names, functions and tests -/

/-- The name a node reads. -/
@[simp] def read? : Expr μ → Option String
  | .var _ x => some x
  | _ => none

/-- The name a node assigns. -/
@[simp] def target? : Expr μ → Option String
  | .assign _ x _ => some x
  | _ => none

/-- The name a node reads or assigns. -/
@[simp] def mention? : TypedExpr → Option String
  | .var _ x => some x
  | .assign _ x _ => some x
  | _ => none

/-- The function a node calls. -/
@[simp] def callee? : Expr μ → Option String
  | .call _ f _ => some f
  | _ => none

/-- The arguments with which a node calls `f`. -/
@[simp] def argsOf? (f : String) : Expr μ → Option (List (Expr μ))
  | .call _ g args => if g = f then some args else none
  | _ => none

/-- The test a node makes. -/
@[simp] def test? : Expr μ → Option (Expr μ)
  | .cond _ c _ _ => some c
  | _ => none

/-- The names an expression reads. -/
abbrev reads (e : Expr μ) : List String := e.collect read?

/-- The names an expression assigns. -/
abbrev targets (e : Expr μ) : List String := e.collect target?

/-- The names an expression reads or assigns, in pre-order. -/
abbrev mentions (e : TypedExpr) : List String := e.collect mention?

/-- The functions an expression calls. -/
abbrev callees (e : Expr μ) : List String := e.collect callee?

/-- The arguments with which an expression calls `f`, call by call. -/
abbrev argsOf (f : String) (e : Expr μ) : List (List (Expr μ)) := e.collect (argsOf? f)

/-- The tests of the conditionals in an expression. -/
abbrev tests (e : Expr μ) : List (Expr μ) := e.collect test?

theorem mem_reads {e : Expr μ} {x : String} : x ∈ e.reads ↔ ∃ m, .var m x ∈ e.subterms := by
  rw [mem_collect]
  constructor
  · rintro ⟨d, hd, h⟩
    cases d <;> simp at h
    exact ⟨_, h ▸ hd⟩
  · rintro ⟨m, h⟩
    exact ⟨_, h, rfl⟩

theorem mem_targets {e : Expr μ} {x : String} :
    x ∈ e.targets ↔ ∃ m v, .assign m x v ∈ e.subterms := by
  rw [mem_collect]
  constructor
  · rintro ⟨d, hd, h⟩
    cases d <;> simp at h
    exact ⟨_, _, h ▸ hd⟩
  · rintro ⟨m, v, h⟩
    exact ⟨_, h, rfl⟩

theorem mem_callees {e : Expr μ} {f : String} :
    f ∈ e.callees ↔ ∃ m args, .call m f args ∈ e.subterms := by
  rw [mem_collect]
  constructor
  · rintro ⟨d, hd, h⟩
    cases d <;> simp at h
    exact ⟨_, _, h ▸ hd⟩
  · rintro ⟨m, args, h⟩
    exact ⟨_, h, rfl⟩

theorem mem_argsOf {f : String} {e : Expr μ} {args : List (Expr μ)} :
    args ∈ e.argsOf f ↔ ∃ m, .call m f args ∈ e.subterms := by
  rw [mem_collect]
  constructor
  · rintro ⟨d, hd, h⟩
    cases d <;> simp at h
    obtain ⟨rfl, rfl⟩ := h
    exact ⟨_, hd⟩
  · rintro ⟨m, h⟩
    exact ⟨_, h, by simp⟩

/-- What a subterm collects, the whole collects. -/
theorem collect_subset {p : Expr μ → Option α} {d e : Expr μ} (h : d ∈ e.subterms) :
    d.collect p ⊆ e.collect p := by
  intro a ha
  obtain ⟨c, hc, hp⟩ := mem_collect.1 ha
  exact mem_collect.2 ⟨c, mem_subterms_trans hc h, hp⟩

end Rulebook.Expr
