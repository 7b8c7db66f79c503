import Rulebook.Expr.Basic
import Rulebook.Proofs.Occurrence

/-!
# Well-typed expressions

A typed expression carries its types as data. `Expr.WellTyped` says that they are the right ones:
every node obeys the rule of its form, and whatever the expression takes from outside (names it
reads or assigns, functions it calls) is what a `Context` allows. A context is three predicates, so
the scope of the checker, the numbered variables of a lowered program and the cells of a memory
are all contexts, and each pass says from which context to which it leads.
-/

namespace Rulebook

/-- What an expression may use, and at which types. -/
structure Context where
  /-- The names that may be read. -/
  reads : String → Ty → Prop
  /-- The names that may be assigned values of a type. -/
  writes : String → Ty → Prop
  /-- The functions that may be called: parameter types, return type. -/
  calls : String → List Ty → Ty → Prop

namespace Context

/-- The context in which the names of `names` may be read and assigned. -/
def of (names : String → Ty → Prop) (calls : String → List Ty → Ty → Prop) : Context :=
  ⟨names, names, calls⟩

/-- The context that allows everything, at primitive types. -/
def primitive : Context where
  reads _ t := t.isPrimitive
  writes _ _ := True
  calls _ _ t := t.isPrimitive

end Context

/-- Whether an operator takes operands of the given types. -/
def Operator.Takes (op : Operator) (l r : Ty) : Prop :=
  match op.operandTy? with
  | some t => l = t ∧ r = t
  | none => r = l

namespace Operator

theorem Takes.eq {op : Operator} {l r : Ty} (h : op.Takes l r) : r = l := by
  unfold Takes at h
  cases hop : op.operandTy? with
  | some t =>
    rw [hop] at h
    exact h.2.trans h.1.symm
  | none =>
    rw [hop] at h
    exact h

theorem ty_of_onInts? {op : Operator} {a b : Int32} {v : Literal} (h : op.onInts? a b = some v) :
    v.ty = op.resultTy := by
  cases op with
  | div | mod =>
    rw [onInts?] at h
    split at h
    · cases h
    · cases h
      rfl
  | and | or => cases h
  | _ =>
    cases h
    rfl

theorem ty_of_onBools? {op : Operator} {a b : Bool} {v : Literal} (h : op.onBools? a b = some v) :
    v.ty = op.resultTy := by
  cases op <;> cases h <;> rfl

end Operator

namespace Expr

/-- Every node obeys the rule of its form, in the context `Γ`. -/
inductive WellTyped (Γ : Context) : TypedExpr → Prop
  | lit {m : Mark} {v : Literal} : m.ty = v.ty → WellTyped Γ (.lit m v)
  | var {m : Mark} {x : String} : Γ.reads x m.ty → WellTyped Γ (.var m x)
  | not {m : Mark} {e : TypedExpr} :
    m.ty = .bool → e.ty = .bool → WellTyped Γ e → WellTyped Γ (.not m e)
  | call {m : Mark} {f : String} {args : List TypedExpr} :
    Γ.calls f (args.map ty) m.ty → (∀ a ∈ args, WellTyped Γ a) → WellTyped Γ (.call m f args)
  | binary {m : Mark} {op : Operator} {l r : TypedExpr} :
    m.ty = op.resultTy → op.Takes l.ty r.ty → WellTyped Γ l → WellTyped Γ r →
    WellTyped Γ (.binary m op l r)
  | cond {m : Mark} {c t e : TypedExpr} :
    c.ty = .bool → t.ty = m.ty → e.ty = m.ty → WellTyped Γ c → WellTyped Γ t → WellTyped Γ e →
    WellTyped Γ (.cond m c t e)
  | assign {m : Mark} {x : String} {e : TypedExpr} :
    m.ty = .void → Γ.writes x e.ty → WellTyped Γ e → WellTyped Γ (.assign m x e)
  | seq {m : Mark} {a b : TypedExpr} :
    m.ty = .void → a.ty = .void → b.ty = .void → WellTyped Γ a → WellTyped Γ b →
    WellTyped Γ (.seq m a b)

section

variable (m : Mark)

@[simp] theorem ty_lit (v : Literal) : (lit m v).ty = m.ty := rfl
@[simp] theorem ty_var (x : String) : (var m x).ty = m.ty := rfl
@[simp] theorem ty_not (e : TypedExpr) : (Expr.not m e).ty = m.ty := rfl
@[simp] theorem ty_call (f : String) (args : List TypedExpr) : (call m f args).ty = m.ty := rfl
@[simp] theorem ty_binary (op : Operator) (l r : TypedExpr) : (binary m op l r).ty = m.ty := rfl
@[simp] theorem ty_cond (c t e : TypedExpr) : (Expr.cond m c t e).ty = m.ty := rfl
@[simp] theorem ty_assign (x : String) (e : TypedExpr) : (assign m x e).ty = m.ty := rfl
@[simp] theorem ty_seq (a b : TypedExpr) : (seq m a b).ty = m.ty := rfl

end

namespace WellTyped

variable {Γ Δ : Context} {d e : TypedExpr}

/-- A subterm of a well-typed expression is well typed. -/
theorem of_mem_subterms (h : e.WellTyped Γ) (hd : d ∈ e.subterms) : d.WellTyped Γ := by
  induction h with
  | lit h =>
    rw [subterms, List.mem_singleton] at hd
    exact hd ▸ .lit h
  | var h =>
    rw [subterms, List.mem_singleton] at hd
    exact hd ▸ .var h
  | not h₁ h₂ h ih =>
    rcases List.mem_cons.1 hd with rfl | hd
    · exact .not h₁ h₂ h
    · exact ih hd
  | call hf hargs ih =>
    rw [subterms, subtermsList_eq_flatMap] at hd
    rcases List.mem_cons.1 hd with rfl | hd
    · exact .call hf hargs
    · obtain ⟨a, ha, hd⟩ := List.mem_flatMap.1 hd
      exact ih a ha hd
  | binary h₁ h₂ hl hr ihl ihr =>
    rcases List.mem_cons.1 hd with rfl | hd
    · exact .binary h₁ h₂ hl hr
    · exact (List.mem_append.1 hd).elim ihl ihr
  | cond h₁ h₂ h₃ hc ht he ihc iht ihe =>
    rcases List.mem_cons.1 hd with rfl | hd
    · exact .cond h₁ h₂ h₃ hc ht he
    · exact (List.mem_append.1 hd).elim (fun hd => (List.mem_append.1 hd).elim ihc iht) ihe
  | assign h₁ h₂ h ih =>
    rcases List.mem_cons.1 hd with rfl | hd
    · exact .assign h₁ h₂ h
    · exact ih hd
  | seq h₁ h₂ h₃ ha hb iha ihb =>
    rcases List.mem_cons.1 hd with rfl | hd
    · exact .seq h₁ h₂ h₃ ha hb
    · exact (List.mem_append.1 hd).elim iha ihb

/-- What an expression reads, the context allows it to read. -/
theorem reads_of_mem (h : e.WellTyped Γ) {m : Mark} {x : String} (hx : .var m x ∈ e.subterms) :
    Γ.reads x m.ty := by
  cases h.of_mem_subterms hx with
  | var h => exact h

/-- What an expression assigns, the context allows it to assign. -/
theorem writes_of_mem (h : e.WellTyped Γ) {m : Mark} {x : String} {v : TypedExpr}
    (hx : .assign m x v ∈ e.subterms) : Γ.writes x v.ty := by
  cases h.of_mem_subterms hx with
  | assign _ h _ => exact h

/-- The names that an expression mentions, the context allows. -/
theorem mentions {names : String → Ty → Prop} {calls : String → List Ty → Ty → Prop}
    (h : e.WellTyped (.of names calls)) {x : String} (hx : x ∈ e.reads ++ e.targets) :
    ∃ t, names x t := by
  rcases List.mem_append.1 hx with hx | hx
  · obtain ⟨m, hx⟩ := mem_reads.1 hx
    exact ⟨_, h.reads_of_mem hx⟩
  · obtain ⟨m, v, hx⟩ := mem_targets.1 hx
    exact ⟨_, h.writes_of_mem hx⟩

/-- What an expression calls, the context allows it to call. -/
theorem calls_of_mem (h : e.WellTyped Γ) {m : Mark} {f : String} {args : List TypedExpr}
    (hf : .call m f args ∈ e.subterms) : Γ.calls f (args.map ty) m.ty := by
  cases h.of_mem_subterms hf with
  | call h _ => exact h

/-- Whether an expression is well typed depends only on what its own nodes take from the
context. -/
theorem change (h : e.WellTyped Γ)
    (reads : ∀ m x, .var m x ∈ e.subterms → Γ.reads x m.ty → Δ.reads x m.ty)
    (writes : ∀ m x v, .assign m x v ∈ e.subterms → Γ.writes x v.ty → Δ.writes x v.ty)
    (calls : ∀ m f args, .call m f args ∈ e.subterms → Γ.calls f (args.map ty) m.ty →
      Δ.calls f (args.map ty) m.ty) : e.WellTyped Δ := by
  -- the induction runs over the subterms of `e`, so that the hypotheses need not change
  suffices key : ∀ d, d.WellTyped Γ → d ∈ e.subterms → d.WellTyped Δ from
    key e h (self_mem_subterms e)
  intro d hd
  induction hd with
  | lit h => exact fun _ => .lit h
  | var h => exact fun hx => .var (reads _ _ hx h)
  | not h₁ h₂ _ ih =>
    intro hd
    exact .not h₁ h₂ (ih (mem_subterms_trans (by simp [subterms, self_mem_subterms]) hd))
  | call hf hargs ih =>
    intro hd
    refine .call (calls _ _ _ hd hf) fun a ha => ih a ha ?_
    exact mem_subterms_trans (mem_subterms_call ha _ _) hd
  | binary h₁ h₂ _ _ ihl ihr =>
    intro hd
    exact .binary h₁ h₂ (ihl (mem_subterms_trans (by simp [subterms, self_mem_subterms]) hd))
      (ihr (mem_subterms_trans (by simp [subterms, self_mem_subterms]) hd))
  | cond h₁ h₂ h₃ _ _ _ ihc iht ihe =>
    intro hd
    exact .cond h₁ h₂ h₃ (ihc (mem_subterms_trans (by simp [subterms, self_mem_subterms]) hd))
      (iht (mem_subterms_trans (by simp [subterms, self_mem_subterms]) hd))
      (ihe (mem_subterms_trans (by simp [subterms, self_mem_subterms]) hd))
  | assign h₁ h₂ _ ih =>
    intro hd
    exact .assign h₁ (writes _ _ _ hd h₂)
      (ih (mem_subterms_trans (by simp [subterms, self_mem_subterms]) hd))
  | seq h₁ h₂ h₃ _ _ iha ihb =>
    intro hd
    exact .seq h₁ h₂ h₃ (iha (mem_subterms_trans (by simp [subterms, self_mem_subterms]) hd))
      (ihb (mem_subterms_trans (by simp [subterms, self_mem_subterms]) hd))

/-- A well-typed expression stays so in a context that allows more. -/
theorem mono (h : e.WellTyped Γ) (reads : ∀ x t, Γ.reads x t → Δ.reads x t)
    (writes : ∀ x t, Γ.writes x t → Δ.writes x t)
    (calls : ∀ f ts t, Γ.calls f ts t → Δ.calls f ts t) : e.WellTyped Δ :=
  h.change (fun m x _ => reads x m.ty) (fun _ x v _ => writes x v.ty)
    (fun m f args _ => calls f (args.map ty) m.ty)

/-- Arguments that a pass leaves well typed, each of the type it had, are so together. -/
theorem args {args args' : List TypedExpr} {pass : TypedExpr → TypedExpr → Prop}
    (h : List.Forall₂ pass args args')
    (hpass : ∀ a ∈ args, ∀ a', pass a a' → a'.WellTyped Δ ∧ a'.ty = a.ty) :
    (∀ a' ∈ args', a'.WellTyped Δ) ∧ args'.map ty = args.map ty := by
  induction h with
  | nil => exact ⟨nofun, rfl⟩
  | cons ha _ ih =>
    obtain ⟨hw, ht⟩ := hpass _ List.mem_cons_self _ ha
    obtain ⟨ihw, iht⟩ := ih fun a ha => hpass a (List.mem_cons_of_mem _ ha)
    exact ⟨List.forall_mem_cons.2 ⟨hw, ihw⟩, by rw [List.map_cons, List.map_cons, ht, iht]⟩

end WellTyped

end Expr

end Rulebook
