import Rulebook.Proofs.Folding.Partial
import Rulebook.Proofs.Typing.Folding

/-!
# Folded expressions are normal

An expression is normal if nothing in it is left to fold (`Expr.Normal`): no negation of a literal,
no conditional on a literal, no operator between literals but one between integers without a value
there. One pass of folding gives a normal expression (`normal_of_foldConstants`), although a
conditional that is replaced by its branch brings up a new operand: the branch is folded before. And
normal expressions are just those that folding leaves as they are (`normal_iff`).
-/

namespace Rulebook

/-- An operation on literals stays only between integers on which it has no value. -/
theorem Operator.fold_eq_none {op : Operator} {a b : Literal} :
    op.fold a b = .ok none ↔ ∃ i j, a = .int i ∧ b = .int j ∧ op.onInts? i j = none := by
  cases a with
  | int i =>
    cases b with
    | int j => simp [fold]
    | bool _ => simp [fold]
  | bool i =>
    cases b with
    | int _ => simp [fold]
    | bool j =>
      simp only [fold]
      split <;> simp

namespace Expr

/-- There is nothing to fold at the root. -/
def Irreducible : TypedExpr → Prop
  | .not _ e => e.literal? = none
  | .binary _ op l r => ∀ a b, l.literal? = some a → r.literal? = some b →
    ∃ i j, a = .int i ∧ b = .int j ∧ op.onInts? i j = none
  | .cond _ c _ _ => c.literal? = none
  | _ => True

/-- There is nothing to fold at any node. -/
def Normal (e : TypedExpr) : Prop := ∀ d ∈ e.subterms, d.Irreducible

section

variable {m : Mark} {e : TypedExpr}

theorem Normal.lit (v : Literal) : (Expr.lit m v).Normal := by
  simp [Normal, subterms, Irreducible]

theorem Normal.var (x : String) : (Expr.var m x).Normal := by
  simp [Normal, subterms, Irreducible]

theorem normal_not : (Expr.not m e).Normal ↔ e.literal? = none ∧ e.Normal := by
  simp [Normal, subterms, Irreducible]

theorem normal_call {f : String} {args : List TypedExpr} :
    (Expr.call m f args).Normal ↔ ∀ a ∈ args, a.Normal := by
  simp only [Normal, subterms, subtermsList_eq_flatMap, List.forall_mem_cons, Irreducible, true_and,
    List.forall_mem_flatMap]

theorem normal_binary {op : Operator} {l r : TypedExpr} :
    (Expr.binary m op l r).Normal ↔ (Expr.binary m op l r).Irreducible ∧ l.Normal ∧ r.Normal := by
  simp only [Normal, subterms, List.forall_mem_cons, List.forall_mem_append]

theorem normal_cond {c t : TypedExpr} :
    (Expr.cond m c t e).Normal ↔ c.literal? = none ∧ (c.Normal ∧ t.Normal) ∧ e.Normal := by
  simp only [Normal, subterms, List.forall_mem_cons, List.forall_mem_append, Irreducible]

theorem normal_assign {x : String} : (Expr.assign m x e).Normal ↔ e.Normal := by
  simp [Normal, subterms, Irreducible]

theorem normal_seq {a b : TypedExpr} : (Expr.seq m a b).Normal ↔ a.Normal ∧ b.Normal := by
  simp only [Normal, subterms, List.forall_mem_cons, List.forall_mem_append, Irreducible, true_and]

end

/-! ## One pass -/

section

variable {m : Mark} {e r : TypedExpr}

theorem foldNot_normal (he : e.Normal) (h : foldNot m e = .ok r) : r.Normal := by
  unfold foldNot at h
  split at h
  · cases h
    exact .lit _
  · cases h
  · next hnone =>
    cases h
    exact normal_not.2 ⟨hnone, he⟩

theorem foldBinary_normal {op : Operator} {a b : TypedExpr} (ha : a.Normal) (hb : b.Normal)
    (h : foldBinary m op a b = .ok r) : r.Normal := by
  unfold foldBinary at h
  split at h
  · next v w hv hw =>
    obtain ⟨value?, hvalue, h⟩ := bind_eq_ok.1 h
    cases value? with
    | some value =>
      cases h
      exact .lit _
    | none =>
      cases h
      refine normal_binary.2 ⟨fun v' w' hv' hw' => ?_, ha, hb⟩
      rw [hv] at hv'
      rw [hw] at hw'
      cases hv'
      cases hw'
      exact Operator.fold_eq_none.1 hvalue
  · next hlit =>
    cases h
    exact normal_binary.2 ⟨fun v w hv hw => (hlit v w hv hw).elim, ha, hb⟩

theorem foldCond_normal {c t : TypedExpr} (hc : c.Normal) (ht : t.Normal) (he : e.Normal)
    (h : foldCond m c t e = .ok r) : r.Normal := by
  unfold foldCond at h
  split at h
  · cases h
    exact ht
  · cases h
    exact he
  · cases h
  · next hnone =>
    cases h
    exact normal_cond.2 ⟨hnone, ⟨hc, ht⟩, he⟩

/-- **One pass of folding leaves nothing to fold.** -/
theorem normal_of_foldConstants (h : e.foldConstants = .ok r) : r.Normal := by
  induction e using Expr.induct generalizing r with
  | lit m v =>
    cases h
    exact .lit v
  | var m x =>
    cases h
    exact .var x
  | not m e ih =>
    obtain ⟨e', he, h⟩ := bind_eq_ok.1 h
    exact foldNot_normal (ih he) h
  | call m f args ih =>
    rw [foldConstants, foldConstantsArgs_eq_mapM] at h
    simp only [bind_eq_ok, pure_eq_ok, mapM_eq_ok] at h
    obtain ⟨args', hargs, rfl⟩ := h
    refine normal_call.2 fun a' ha' => ?_
    obtain ⟨a, ha, hfold⟩ := exists_mem_left hargs ha'
    exact ih a ha hfold
  | binary m op a b iha ihb =>
    rw [foldConstants] at h
    simp only [bind_eq_ok] at h
    obtain ⟨a', ha, b', hb, h⟩ := h
    exact foldBinary_normal (iha ha) (ihb hb) h
  | cond m c t e ihc iht ihe =>
    rw [foldConstants] at h
    simp only [bind_eq_ok] at h
    obtain ⟨c', hc, t', ht, e', he, h⟩ := h
    exact foldCond_normal (ihc hc) (iht ht) (ihe he) h
  | assign m x e ih =>
    rw [foldConstants] at h
    simp only [bind_eq_ok, pure_eq_ok] at h
    obtain ⟨e', he, rfl⟩ := h
    exact normal_assign.2 (ih he)
  | seq m a b iha ihb =>
    rw [foldConstants] at h
    simp only [bind_eq_ok, pure_eq_ok] at h
    obtain ⟨a', ha, b', hb, rfl⟩ := h
    exact normal_seq.2 ⟨iha ha, ihb hb⟩

end

/-! ## Normal expressions -/

section

variable {m : Mark} {e : TypedExpr}

theorem foldBinary_of_irreducible {op : Operator} {l r : TypedExpr}
    (h : (Expr.binary m op l r).Irreducible) : foldBinary m op l r = .ok (.binary m op l r) := by
  unfold foldBinary
  split
  · next a b ha hb =>
    rw [Operator.fold_eq_none.2 (h a b ha hb)]
    rfl
  · rfl

/-- **A normal expression is left as it is.** -/
theorem Normal.foldConstants (h : e.Normal) : e.foldConstants = .ok e := by
  induction e using Expr.induct with
  | lit m v => rfl
  | var m x => rfl
  | not m e ih =>
    obtain ⟨hnone, he⟩ := normal_not.1 h
    rw [Expr.foldConstants, ih he]
    simp only [bind, Except.bind, foldNot, hnone]
  | call m f args ih =>
    have hargs : List.Forall₂ (fun a b => a.foldConstants = .ok b) args args :=
      List.forall₂_same.2 fun a ha => ih a ha (normal_call.1 h a ha)
    rw [Expr.foldConstants, foldConstantsArgs_eq_mapM, mapM_eq_ok.2 hargs]
    rfl
  | binary m op l r ihl ihr =>
    obtain ⟨hroot, hl, hr⟩ := normal_binary.1 h
    rw [Expr.foldConstants, ihl hl, ihr hr]
    exact foldBinary_of_irreducible hroot
  | cond m c t e ihc iht ihe =>
    obtain ⟨hnone, ⟨hc, ht⟩, he⟩ := normal_cond.1 h
    rw [Expr.foldConstants, ihc hc, iht ht, ihe he]
    simp only [bind, Except.bind, foldCond, hnone]
  | assign m x e ih =>
    rw [Expr.foldConstants, ih (normal_assign.1 h)]
    rfl
  | seq m a b iha ihb =>
    obtain ⟨ha, hb⟩ := normal_seq.1 h
    rw [Expr.foldConstants, iha ha, ihb hb]
    rfl

/-- The normal expressions are those that folding leaves as they are. -/
theorem normal_iff : e.Normal ↔ e.foldConstants = .ok e :=
  ⟨Normal.foldConstants, normal_of_foldConstants⟩

end

/-- **Folding is safe on well-typed expressions and reaches a normal form in one pass.** A
well-typed expression has a folding, which is well typed and has its type. Whatever has a folding,
well typed or not, has a normal one, and folding it again changes nothing. -/
theorem foldConstants_safe_normal (e : TypedExpr) :
    (∀ Γ, e.WellTyped Γ → ∃ r, e.foldConstants = .ok r ∧ r.WellTyped Γ ∧ r.ty = e.ty) ∧
      ∀ r, e.foldConstants = .ok r → r.Normal ∧ r.foldConstants = .ok r := by
  refine ⟨fun Γ h => h.foldConstants, fun r hr => ?_⟩
  have hnormal := normal_of_foldConstants hr
  exact ⟨hnormal, normal_iff.1 hnormal⟩

/-- A sample expression in which one fold makes way for the next: the test, the conditional, the
product. The division by zero stays, and so does the sum. -/
def collapsing : TypedExpr :=
  .binary ⟨.int, 1⟩ .add
    (.binary ⟨.int, 1⟩ .mul (.lit ⟨.int, 1⟩ (.int 2))
      (.cond ⟨.int, 2⟩
        (.not ⟨.bool, 2⟩
          (.binary ⟨.bool, 2⟩ .lt (.lit ⟨.int, 2⟩ (.int 5)) (.lit ⟨.int, 2⟩ (.int 4))))
        (.lit ⟨.int, 3⟩ (.int 3)) (.var ⟨.int, 4⟩ "n")))
    (.binary ⟨.int, 5⟩ .div (.lit ⟨.int, 5⟩ (.int 1)) (.lit ⟨.int, 5⟩ (.int 0)))

theorem collapsing_safe_normal :
    collapsing.WellTyped .primitive ∧
      ∃ r, collapsing.foldConstants = .ok r ∧ r.WellTyped .primitive ∧ r.ty = .int ∧
        r.Normal ∧ r.foldConstants = .ok r ∧
        r = .binary ⟨.int, 1⟩ .add (.lit ⟨.int, 1⟩ (.int 6))
          (.binary ⟨.int, 5⟩ .div (.lit ⟨.int, 5⟩ (.int 1)) (.lit ⟨.int, 5⟩ (.int 0))) := by
  have hint : ∀ line n, (Expr.lit ⟨.int, line⟩ (.int n)).WellTyped .primitive := fun _ _ => .lit rfl
  have htest : (Expr.binary ⟨.bool, 2⟩ .lt (.lit ⟨.int, 2⟩ (.int 5))
      (.lit ⟨.int, 2⟩ (.int 4))).WellTyped .primitive :=
    .binary rfl ⟨rfl, rfl⟩ (hint _ _) (hint _ _)
  have htyped : collapsing.WellTyped .primitive := by
    refine .binary rfl ⟨rfl, rfl⟩ (.binary rfl ⟨rfl, rfl⟩ (hint _ _) ?_)
      (.binary rfl ⟨rfl, rfl⟩ (hint _ _) (hint _ _))
    exact .cond rfl rfl rfl (.not rfl rfl htest) (hint _ _) (.var rfl)
  obtain ⟨hsafe, hnormal⟩ := foldConstants_safe_normal collapsing
  obtain ⟨r, hr, hw, ht⟩ := hsafe .primitive htyped
  obtain ⟨hn, hagain⟩ := hnormal r hr
  exact ⟨htyped, r, hr, hw, ht, hn, hagain, (Except.ok.inj hr).symm⟩

end Expr

end Rulebook
