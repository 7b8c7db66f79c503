import Rulebook.Proofs.Typing.Check

/-!
# Typing rules

The typing of expressions as written, by rules: `e.HasType Γ t` says that `e` has the type `t` where
the names of `Γ` have been declared, in that order. A name stands for its last declaration
(`Resolves`). The rules are those of the language and say nothing about how a type is found.

The checker finds exactly what the rules derive. It succeeds on the expressions that have a type, and
its result is the only tree with the same nodes in which every node is marked by the type it has
(`check_ofList`).
-/

namespace Rulebook

/-- The last declaration of the name `x` gives it the type `t`. -/
def Resolves (Γ : List (String × Ty)) (x : String) (t : Ty) : Prop :=
  ∃ before after, Γ = before ++ (x, t) :: after ∧ x ∉ after.map Prod.fst

/-- The typing rules for expressions as written. -/
inductive Expr.HasType (Γ : List (String × Ty)) : RawExpr → Ty → Prop where
  | int {line : Line} {n : Int32} : HasType Γ (.lit line (.int n)) .int
  | bool {line : Line} {b : Bool} : HasType Γ (.lit line (.bool b)) .bool
  | var {line : Line} {x : String} {t : Ty} : Resolves Γ x t → HasType Γ (.var line x) t
  | not {line : Line} {e : RawExpr} : HasType Γ e .bool → HasType Γ (.not line e) .bool
  | call {line : Line} {f : String} {args : List RawExpr} {ts : List Ty} {t : Ty} :
    Resolves Γ f (.fn ts t) → args.length = ts.length →
    (∀ a ∈ args.zip ts, HasType Γ a.1 a.2) → HasType Γ (.call line f args) t
  | arithmetic {line : Line} {op : Operator} {l r : RawExpr} : op.cls = .arithmetic →
    HasType Γ l .int → HasType Γ r .int → HasType Γ (.binary line op l r) .int
  | comparison {line : Line} {op : Operator} {l r : RawExpr} : op.cls = .comparison →
    HasType Γ l .int → HasType Γ r .int → HasType Γ (.binary line op l r) .bool
  | logical {line : Line} {op : Operator} {l r : RawExpr} : op.cls = .logical →
    HasType Γ l .bool → HasType Γ r .bool → HasType Γ (.binary line op l r) .bool
  | equality {line : Line} {op : Operator} {l r : RawExpr} {t : Ty} : op.cls = .equality →
    HasType Γ l t → HasType Γ r t → HasType Γ (.binary line op l r) .bool
  | cond {line : Line} {c a b : RawExpr} {t : Ty} :
    HasType Γ c .bool → HasType Γ a t → HasType Γ b t → HasType Γ (.cond line c a b) t
  | assign {line : Line} {x : String} {e : RawExpr} {t : Ty} :
    Resolves Γ x t → HasType Γ e t → HasType Γ (.assign line x e) .void
  | seq {line : Line} {a b : RawExpr} :
    HasType Γ a .void → HasType Γ b .void → HasType Γ (.seq line a b) .void

/-- The typed tree `r` is the expression `e` with every node marked by the type it has. -/
structure Expr.Decorates (Γ : List (String × Ty)) (e : RawExpr) (r : TypedExpr) : Prop where
  untyped_eq : r.untyped = e
  hasType : ∀ d ∈ r.subterms, d.untyped.HasType Γ d.ty

/-! ## Scopes -/

/-- The scope of declarations made one after the other. -/
def Scope.ofList (Γ : List (String × Ty)) : Scope := ⟨Γ.reverse⟩

namespace Scope

theorem bind_ofList (Γ : List (String × Ty)) (x : String) (t : Ty) :
    (ofList Γ).bind x t = ofList (Γ ++ [(x, t)]) := by
  rw [ofList, ofList, Bindings.bind, List.reverse_concat]

theorem foldl_bind_ofList {α : Type} (name : α → String) (ty : α → Ty) (as : List α)
    (Γ : List (String × Ty)) :
    as.foldl (fun s a => s.bind (name a) (ty a)) (ofList Γ) =
      ofList (Γ ++ as.map fun a => (name a, ty a)) := by
  induction as generalizing Γ with
  | nil => rw [List.foldl_nil, List.map_nil, List.append_nil]
  | cons a as ih =>
    rw [List.foldl_cons, bind_ofList, ih, List.append_assoc, List.singleton_append, List.map_cons]

theorem bindFunctions_ofList {μ : Type} (Γ : List (String × Ty)) (fs : List (FunDecl μ)) :
    (ofList Γ).bindFunctions fs = ofList (Γ ++ fs.map fun f => (f.name, f.ty)) :=
  foldl_bind_ofList FunDecl.name FunDecl.ty fs Γ

theorem bindParams_ofList (Γ : List (String × Ty)) (ps : List Param) :
    (ofList Γ).bindParams ps = ofList (Γ ++ ps.map fun p => (p.name, p.ty)) :=
  foldl_bind_ofList Param.name Param.ty ps Γ

/-- A scope gives a name the type of its last declaration. -/
theorem find?_ofList {Γ : List (String × Ty)} {x : String} {t : Ty} :
    (ofList Γ).find? x = some t ↔ Resolves Γ x t := by
  have hne : ∀ after : List (String × Ty),
      (∀ d ∈ after, (x != d.1) = true) ↔ x ∉ after.reverse.map Prod.fst := by
    intro after
    simp only [bne_iff_ne, List.map_reverse, List.mem_reverse, List.mem_map, not_exists, not_and]
    exact forall₂_congr fun d _ => ne_comm
  rw [ofList, Bindings.find?, List.lookup_eq_some_iff]
  constructor
  · rintro ⟨after, before, hΓ, hx⟩
    refine ⟨before.reverse, after.reverse, ?_, (hne after).1 hx⟩
    rw [← List.reverse_reverse Γ, show Γ.reverse = after ++ (x, t) :: before from hΓ]
    simp
  · rintro ⟨before, after, rfl, hx⟩
    refine ⟨after.reverse, before.reverse, by simp, (hne after.reverse).2 ?_⟩
    rwa [List.reverse_reverse]

end Scope

/-! ## Operators -/

/-- An operator between operands that it takes, by the rule of its class. -/
theorem Expr.HasType.binary {Γ : List (String × Ty)} {line : Line} {op : Operator} {l r : RawExpr}
    {t u : Ty} (htakes : op.Takes t u) (hl : l.HasType Γ t) (hr : r.HasType Γ u) :
    (Expr.binary line op l r).HasType Γ op.resultTy := by
  unfold Operator.Takes Operator.operandTy? at htakes
  unfold Operator.resultTy
  cases hcls : op.cls with
  | arithmetic =>
    rw [hcls] at htakes
    obtain ⟨rfl, rfl⟩ := htakes
    exact .arithmetic hcls hl hr
  | comparison =>
    rw [hcls] at htakes
    obtain ⟨rfl, rfl⟩ := htakes
    exact .comparison hcls hl hr
  | equality =>
    rw [hcls] at htakes
    obtain rfl : u = t := htakes
    exact .equality hcls hl hr
  | logical =>
    rw [hcls] at htakes
    obtain ⟨rfl, rfl⟩ := htakes
    exact .logical hcls hl hr

namespace Expr

variable {Γ : List (String × Ty)} {e : RawExpr} {r : TypedExpr} {t : Ty}

/-! ## Soundness -/

/-- **What the checker finds, the rules derive.** -/
theorem hasType_of_check (h : e.check (.ofList Γ) = .ok r) : e.HasType Γ r.ty := by
  induction e using Expr.induct generalizing r with
  | lit line v =>
    rw [check_lit.1 h]
    cases v with
    | int n => exact .int
    | bool b => exact .bool
  | var line x =>
    obtain ⟨t, hx, rfl⟩ := check_var.1 h
    exact .var (Scope.find?_ofList.1 hx)
  | not line e ih =>
    obtain ⟨e', he, ht, rfl⟩ := check_not.1 h
    exact .not (ht ▸ ih he)
  | call line f args ih =>
    obtain ⟨t, args', hargs, hf, rfl⟩ := check_call.1 h
    have htyped : List.Forall₂ (HasType Γ) args (args'.map ty) :=
      List.forall₂_map_right_iff.2 (forall₂_of_mem hargs fun a ha => ih a ha)
    exact .call (Scope.find?_ofList.1 hf) htyped.length_eq fun a ha =>
      (List.forall₂_iff_zip.1 htyped).2 ha
  | binary line op a b iha ihb =>
    obtain ⟨a', b', ha, hb, ht, rfl⟩ := check_binary.1 h
    exact .binary ht (iha ha) (ihb hb)
  | cond line c a b ihc iha ihb =>
    obtain ⟨c', a', b', hc, ht, ha, hb, hab, rfl⟩ := check_cond.1 h
    have ha' := iha ha
    have hb' := ihb hb
    rw [hab] at hb'
    exact .cond (ht ▸ ihc hc) ha' hb'
  | assign line x e ih =>
    obtain ⟨e', he, hx, rfl⟩ := check_assign.1 h
    exact .assign (Scope.find?_ofList.1 hx) (ih he)
  | seq line a b iha ihb =>
    obtain ⟨a', b', ha, hat, hb, hbt, rfl⟩ := check_seq.1 h
    exact .seq (hat ▸ iha ha) (hbt ▸ ihb hb)

/-! ## Completeness -/

/-- **What the rules derive, the checker finds.** -/
theorem HasType.exists_check (h : e.HasType Γ t) :
    ∃ r, e.check (.ofList Γ) = .ok r ∧ r.ty = t := by
  induction h with
  | int => exact ⟨_, check_lit.2 rfl, rfl⟩
  | bool => exact ⟨_, check_lit.2 rfl, rfl⟩
  | var hx => exact ⟨_, check_var.2 ⟨_, Scope.find?_ofList.2 hx, rfl⟩, rfl⟩
  | not _ ih =>
    obtain ⟨e', he, ht⟩ := ih
    exact ⟨_, check_not.2 ⟨e', he, ht, rfl⟩, rfl⟩
  | @call line f args ts t hf hlen _ ih =>
    have hargs : List.Forall₂ (fun a t => ∃ a', a.check (.ofList Γ) = .ok a' ∧ a'.ty = t) args ts :=
      List.forall₂_iff_zip.2 ⟨hlen, fun ha => ih _ ha⟩
    obtain ⟨args', hargs', htys⟩ :
        ∃ args', List.Forall₂ (fun a a' => a.check (.ofList Γ) = .ok a') args args' ∧
          List.Forall₂ (fun t a' => a'.ty = t) ts args' :=
      exists_forall₂_both hargs fun a t _ h => h
    obtain rfl : args'.map ty = ts := by
      rw [← List.forall₂_eq_eq_eq, List.forall₂_map_left_iff]
      exact htys.flip
    exact ⟨_, check_call.2 ⟨t, args', hargs', Scope.find?_ofList.2 hf, rfl⟩, rfl⟩
  | arithmetic hcls _ _ ihl ihr | comparison hcls _ _ ihl ihr | logical hcls _ _ ihl ihr
  | equality hcls _ _ ihl ihr =>
    obtain ⟨l', hl, hlt⟩ := ihl
    obtain ⟨r', hr, hrt⟩ := ihr
    refine ⟨_, check_binary.2 ⟨l', r', hl, hr, ?_, rfl⟩, ?_⟩
    · simp [Operator.Takes, Operator.operandTy?, hcls, hlt, hrt]
    · rw [operation, ty, mark, Operator.resultTy, hcls]
  | cond _ _ _ ihc iha ihb =>
    obtain ⟨c', hc, hct⟩ := ihc
    obtain ⟨a', ha, rfl⟩ := iha
    obtain ⟨b', hb, hbt⟩ := ihb
    exact ⟨_, check_cond.2 ⟨c', a', b', hc, hct, ha, hb, hbt, rfl⟩, rfl⟩
  | assign hx _ ih =>
    obtain ⟨e', he, rfl⟩ := ih
    exact ⟨_, check_assign.2 ⟨e', he, Scope.find?_ofList.2 hx, rfl⟩, rfl⟩
  | seq _ _ iha ihb =>
    obtain ⟨a', ha, hat⟩ := iha
    obtain ⟨b', hb, hbt⟩ := ihb
    exact ⟨_, check_seq.2 ⟨a', b', ha, hat, hb, hbt, rfl⟩, rfl⟩

/-- An expression has at most one type. -/
theorem HasType.unique {u : Ty} (h : e.HasType Γ t) (h' : e.HasType Γ u) : t = u := by
  obtain ⟨r, hr, rfl⟩ := h.exists_check
  obtain ⟨r', hr', rfl⟩ := h'.exists_check
  cases hr.symm.trans hr'
  rfl

/-! ## Decoration -/

/-- A well-typed tree is what checking it without its types gives. -/
theorem WellTyped.check_untyped_eq {s : Scope} (h : r.WellTyped (.ofScope s)) :
    r.untyped.check s = .ok r := by
  induction h with
  | @lit m v h =>
    obtain ⟨t, line⟩ := m
    obtain rfl : t = v.ty := h
    exact check_lit.2 rfl
  | var h => exact check_var.2 ⟨_, h, rfl⟩
  | @not m e h₁ h₂ _ ih =>
    obtain ⟨t, line⟩ := m
    obtain rfl : t = .bool := h₁
    exact check_not.2 ⟨e, ih, h₂, rfl⟩
  | @call m f args hf _ ih =>
    rw [untyped, map, mapList_eq_map]
    refine check_call.2 ⟨m.ty, args, ?_, hf, rfl⟩
    exact List.forall₂_map_left_iff.2 (List.forall₂_same.2 ih)
  | @binary m op l r h₁ h₂ _ _ ihl ihr =>
    obtain ⟨t, line⟩ := m
    obtain rfl : t = op.resultTy := h₁
    exact check_binary.2 ⟨l, r, ihl, ihr, h₂, rfl⟩
  | @cond m c a b h₁ h₂ h₃ _ _ _ ihc iha ihb =>
    obtain ⟨t, line⟩ := m
    obtain rfl : a.ty = t := h₂
    exact check_cond.2 ⟨c, a, b, ihc, h₁, iha, ihb, h₃, rfl⟩
  | @assign m x e h₁ h₂ _ ih =>
    obtain ⟨t, line⟩ := m
    obtain rfl : t = .void := h₁
    exact check_assign.2 ⟨e, ih, h₂, rfl⟩
  | @seq m a b h₁ h₂ h₃ _ _ iha ihb =>
    obtain ⟨t, line⟩ := m
    obtain rfl : t = .void := h₁
    exact check_seq.2 ⟨a, b, iha, h₂, ihb, h₃, rfl⟩

/-- A tree in which every node is marked by the type it has is what checking gives. -/
theorem check_untyped_eq (h : ∀ d ∈ r.subterms, d.untyped.HasType Γ d.ty) :
    r.untyped.check (.ofList Γ) = .ok r := by
  -- the parts are what checking them gives, and there is only one type to mark the root by
  induction r using Expr.induct with
  | lit m v =>
    obtain ⟨t, line⟩ := m
    obtain ⟨_, hr, hty⟩ := (h _ (self_mem_subterms _)).exists_check
    obtain rfl := check_lit.1 hr
    obtain rfl : v.ty = t := hty
    exact hr
  | var m x =>
    obtain ⟨t, line⟩ := m
    obtain ⟨_, hr, hty⟩ := (h _ (self_mem_subterms _)).exists_check
    obtain ⟨u, -, rfl⟩ := check_var.1 hr
    obtain rfl : u = t := hty
    exact hr
  | not m e ih =>
    obtain ⟨t, line⟩ := m
    have he := ih fun d hd => h d (by simp [subterms, hd])
    obtain ⟨_, hr, hty⟩ := (h _ (self_mem_subterms _)).exists_check
    obtain ⟨e', he', -, rfl⟩ := check_not.1 hr
    obtain rfl : .bool = t := hty
    cases he.symm.trans he'
    exact hr
  | call m f args ih =>
    obtain ⟨t, line⟩ := m
    have hargs : ∀ a ∈ args, a.untyped.check (.ofList Γ) = .ok a := fun a ha =>
      ih a ha fun d hd => h d (mem_subterms_trans hd (mem_subterms_call ha _ f))
    obtain ⟨_, hr, hty⟩ := (h _ (self_mem_subterms _)).exists_check
    rw [untyped, map, mapList_eq_map] at hr ⊢
    obtain ⟨u, args', hargs', -, rfl⟩ := check_call.1 hr
    obtain rfl : u = t := hty
    obtain rfl : args = args' := by
      rw [← List.forall₂_eq_eq_eq]
      refine forall₂_of_mem (List.forall₂_map_left_iff.1 hargs') fun a ha a' ha' => ?_
      exact Except.ok.inj ((hargs a ha).symm.trans ha')
    exact hr
  | binary m op l r ihl ihr =>
    obtain ⟨t, line⟩ := m
    have hl := ihl fun d hd => h d (by simp [subterms, hd])
    have hr := ihr fun d hd => h d (by simp [subterms, hd])
    obtain ⟨_, he, hty⟩ := (h _ (self_mem_subterms _)).exists_check
    obtain ⟨l', r', hl', hr', -, rfl⟩ := check_binary.1 he
    obtain rfl : op.resultTy = t := hty
    cases hl.symm.trans hl'
    cases hr.symm.trans hr'
    exact he
  | cond m c a b ihc iha ihb =>
    obtain ⟨t, line⟩ := m
    have hc := ihc fun d hd => h d (by simp [subterms, hd])
    have ha := iha fun d hd => h d (by simp [subterms, hd])
    have hb := ihb fun d hd => h d (by simp [subterms, hd])
    obtain ⟨_, he, hty⟩ := (h _ (self_mem_subterms _)).exists_check
    obtain ⟨c', a', b', hc', -, ha', hb', -, rfl⟩ := check_cond.1 he
    obtain rfl : a'.ty = t := hty
    cases hc.symm.trans hc'
    cases ha.symm.trans ha'
    cases hb.symm.trans hb'
    exact he
  | assign m x e ih =>
    obtain ⟨t, line⟩ := m
    have he := ih fun d hd => h d (by simp [subterms, hd])
    obtain ⟨_, hr, hty⟩ := (h _ (self_mem_subterms _)).exists_check
    obtain ⟨e', he', -, rfl⟩ := check_assign.1 hr
    obtain rfl : .void = t := hty
    cases he.symm.trans he'
    exact hr
  | seq m a b iha ihb =>
    obtain ⟨t, line⟩ := m
    have ha := iha fun d hd => h d (by simp [subterms, hd])
    have hb := ihb fun d hd => h d (by simp [subterms, hd])
    obtain ⟨_, he, hty⟩ := (h _ (self_mem_subterms _)).exists_check
    obtain ⟨a', b', ha', -, hb', -, rfl⟩ := check_seq.1 he
    obtain rfl : .void = t := hty
    cases ha.symm.trans ha'
    cases hb.symm.trans hb'
    exact he

/-- **The checker finds exactly the decorated tree.** -/
theorem check_ofList : e.check (.ofList Γ) = .ok r ↔ e.Decorates Γ r := by
  constructor
  · intro h
    refine ⟨check_untyped h, fun d hd => hasType_of_check ?_⟩
    exact ((check_wellTyped h).of_mem_subterms hd).check_untyped_eq
  · rintro ⟨rfl, h⟩
    exact check_untyped_eq h

theorem Decorates.hasType_root (h : e.Decorates Γ r) : e.HasType Γ r.ty :=
  h.untyped_eq ▸ h.hasType r r.self_mem_subterms

/-- An expression that has a type can be decorated. -/
theorem HasType.exists_decorates (h : e.HasType Γ t) : ∃ r, e.Decorates Γ r := by
  obtain ⟨r, hr, -⟩ := h.exists_check
  exact ⟨r, check_ofList.1 hr⟩

end Expr

end Rulebook
