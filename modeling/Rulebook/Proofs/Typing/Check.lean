import Rulebook.Proofs.Outcome
import Rulebook.Proofs.Typing.Basic
import Rulebook.Typing

/-!
# What checking establishes

The success of the checker on an expression is read off its form by one equivalence for each
constructor (`check_var`, `check_call`, …). From these:

* `check_wellTyped`: a checked expression is well typed in the context of its scope;
* `check_untyped`: checking adds types and changes nothing else;
* `WellTyped.firstOrder`: an expression that reads no function and calls none that returns one
  uses primitive types throughout.
-/

namespace Rulebook

/-- The context of a scope. -/
def Context.ofScope (s : Scope) : Context :=
  .of (fun x t => s.find? x = some t) (fun f ts r => s.find? f = some (.fn ts r))

/-- The context of a scope, its names of primitive type only. -/
def Context.ofValues (s : Scope) : Context :=
  .of (fun x t => s.find? x = some t ∧ t.isPrimitive) (fun f ts r => s.find? f = some (.fn ts r))

/-! ## Single checks -/

theorem Scope.resolve_eq_ok {s : Scope} {x : String} {line : Line} {t : Ty} :
    s.resolve x line = .ok t ↔ s.find? x = some t := by
  unfold Scope.resolve
  split <;> simp [*]

namespace Expr

variable {s : Scope} {line : Line} {r : TypedExpr}

theorem expect_eq_ok {t : Ty} {e : TypedExpr} {u : Unit} : e.expect t = .ok u ↔ e.ty = t := by
  unfold expect
  split <;> simp [*]

theorem expectOperands_eq_ok {op : Operator} {l r : TypedExpr} {u : Unit} :
    expectOperands op l r = .ok u ↔ op.Takes l.ty r.ty := by
  unfold expectOperands Operator.Takes
  cases op.operandTy? with
  | some t => simp only [bind_eq_ok, expect_eq_ok, exists_and_left, exists_const]
  | none => exact expect_eq_ok

theorem signatureOf_eq_ok {t : Ty} {sig : List Ty × Ty} :
    signatureOf line t = .ok sig ↔ t = .fn sig.1 sig.2 := by
  cases t with
  | fn params ret => simp [signatureOf, Prod.ext_iff]
  | void | int | bool => simp [signatureOf]

/-! ## One equivalence for each form -/

-- The equations of the two functions are made here, once, for all the proofs below.
attribute [local simp] check checkArgs

theorem check_lit {v : Literal} : (lit line v).check s = .ok r ↔ r = literal v line := by
  rw [check, Except.ok.injEq, eq_comm]

theorem check_var {x : String} :
    (var line x).check s = .ok r ↔ ∃ t, s.find? x = some t ∧ r = .var ⟨t, line⟩ x := by
  simp only [check, bind_eq_ok, pure_eq_ok, Scope.resolve_eq_ok, eq_comm (a := r)]

theorem check_not {e : RawExpr} :
    (Expr.not line e).check s = .ok r ↔
      ∃ e', e.check s = .ok e' ∧ e'.ty = .bool ∧ r = negation e' line := by
  simp only [check, bind_eq_ok, pure_eq_ok, expect_eq_ok, exists_and_left, exists_const,
    eq_comm (a := r)]

theorem checkArgs_eq_ok {ts : List Ty} {args : List RawExpr} {args' : List TypedExpr}
    (h : ts.length = args.length) :
    checkArgs s ts args = .ok args' ↔
      List.Forall₂ (fun a a' => a.check s = .ok a') args args' ∧ args'.map ty = ts := by
  induction args generalizing ts args' with
  | nil =>
    obtain rfl := List.length_eq_zero_iff.1 h
    simp only [checkArgs, Except.ok.injEq, List.forall₂_nil_left_iff, List.map_eq_nil_iff, and_self]
    exact eq_comm
  | cons a args ih =>
    obtain _ | ⟨t, ts⟩ := ts
    · simp at h
    have h : ts.length = args.length := by simpa using h
    simp only [checkArgs, bind_eq_ok, pure_eq_ok, expect_eq_ok, ih h,
      List.forall₂_cons_left_iff]
    constructor
    · rintro ⟨b, hb, _, rfl, bs, ⟨hbs, rfl⟩, rfl⟩
      exact ⟨⟨b, bs, hb, hbs, rfl⟩, rfl⟩
    · rintro ⟨⟨b, bs, hb, hbs, rfl⟩, hts⟩
      obtain ⟨rfl, rfl⟩ := List.cons.inj hts
      exact ⟨b, hb, (), rfl, bs, ⟨hbs, rfl⟩, rfl⟩

theorem check_call {f : String} {args : List RawExpr} :
    (call line f args).check s = .ok r ↔
      ∃ t args', List.Forall₂ (fun a a' => a.check s = .ok a') args args' ∧
        s.find? f = some (.fn (args'.map ty) t) ∧ r = .call ⟨t, line⟩ f args' := by
  simp only [check, bind_eq_ok, Scope.resolve_eq_ok, signatureOf_eq_ok]
  constructor
  · rintro ⟨_, hf, ⟨ts, t⟩, rfl, h⟩
    split at h
    · next hlen =>
      obtain ⟨args', hargs', h⟩ := bind_eq_ok.1 h
      obtain ⟨hargs, rfl⟩ := (checkArgs_eq_ok hlen).1 hargs'
      exact ⟨t, args', hargs, hf, (pure_eq_ok.1 h).symm⟩
    · cases h
  · rintro ⟨t, args', hargs, hf, rfl⟩
    have hlen : (args'.map ty).length = args.length := by rw [List.length_map, hargs.length_eq]
    refine ⟨_, hf, (args'.map ty, t), rfl, ?_⟩
    rw [if_pos hlen, (checkArgs_eq_ok hlen).2 ⟨hargs, rfl⟩]
    rfl

theorem check_binary {op : Operator} {a b : RawExpr} :
    (binary line op a b).check s = .ok r ↔
      ∃ a' b', a.check s = .ok a' ∧ b.check s = .ok b' ∧ op.Takes a'.ty b'.ty ∧
        r = operation op a' b' line := by
  simp only [check, bind_eq_ok, pure_eq_ok, expectOperands_eq_ok, exists_and_left, exists_const,
    eq_comm (a := r)]

theorem check_cond {c a b : RawExpr} :
    (Expr.cond line c a b).check s = .ok r ↔
      ∃ c' a' b', c.check s = .ok c' ∧ c'.ty = .bool ∧ a.check s = .ok a' ∧ b.check s = .ok b' ∧
        b'.ty = a'.ty ∧ r = conditional c' a' b' line := by
  simp only [check, bind_eq_ok, pure_eq_ok, expect_eq_ok, exists_and_left, exists_const,
    eq_comm (a := r)]

theorem check_assign {x : String} {e : RawExpr} :
    (assign line x e).check s = .ok r ↔
      ∃ e', e.check s = .ok e' ∧ s.find? x = some e'.ty ∧ r = assignment x e' line := by
  simp only [check, bind_eq_ok, pure_eq_ok, expect_eq_ok, Scope.resolve_eq_ok]
  constructor
  · rintro ⟨t, hx, e', he, _, rfl, rfl⟩
    exact ⟨e', he, hx, rfl⟩
  · rintro ⟨e', he, hx, rfl⟩
    exact ⟨_, hx, e', he, (), rfl, rfl⟩

theorem check_seq {a b : RawExpr} :
    (seq line a b).check s = .ok r ↔
      ∃ a' b', a.check s = .ok a' ∧ a'.ty = .void ∧ b.check s = .ok b' ∧ b'.ty = .void ∧
        r = sequence a' b' line := by
  simp only [check, bind_eq_ok, pure_eq_ok, expect_eq_ok, exists_and_left, exists_const,
    eq_comm (a := r)]

/-! ## Expressions -/

/-- **A checked expression is well typed in the context of its scope.** -/
theorem check_wellTyped {e : RawExpr} (h : e.check s = .ok r) : r.WellTyped (.ofScope s) := by
  induction e using Expr.induct generalizing r with
  | lit line v =>
    rw [check_lit.1 h]
    exact .lit rfl
  | var line x =>
    obtain ⟨t, hx, rfl⟩ := check_var.1 h
    exact .var hx
  | not line e ih =>
    obtain ⟨e', he, ht, rfl⟩ := check_not.1 h
    exact .not rfl ht (ih he)
  | call line f args ih =>
    obtain ⟨t, args', hargs, hf, rfl⟩ := check_call.1 h
    refine .call hf fun a' ha' => ?_
    obtain ⟨a, ha, ha'⟩ := exists_mem_left hargs ha'
    exact ih a ha ha'
  | binary line op a b iha ihb =>
    obtain ⟨a', b', ha, hb, ht, rfl⟩ := check_binary.1 h
    exact .binary rfl ht (iha ha) (ihb hb)
  | cond line c a b ihc iha ihb =>
    obtain ⟨c', a', b', hc, ht, ha, hb, hab, rfl⟩ := check_cond.1 h
    exact .cond ht rfl hab (ihc hc) (iha ha) (ihb hb)
  | assign line x e ih =>
    obtain ⟨e', he, hx, rfl⟩ := check_assign.1 h
    exact .assign rfl hx (ih he)
  | seq line a b iha ihb =>
    obtain ⟨a', b', ha, hat, hb, hbt, rfl⟩ := check_seq.1 h
    exact .seq rfl hat hbt (iha ha) (ihb hb)

/-- **Checking adds types and changes nothing else.** -/
theorem check_untyped {e : RawExpr} (h : e.check s = .ok r) : r.untyped = e := by
  induction e using Expr.induct generalizing r with
  | lit line v =>
    rw [check_lit.1 h]
    rfl
  | var line x =>
    obtain ⟨t, -, rfl⟩ := check_var.1 h
    rfl
  | not line e ih =>
    obtain ⟨e', he, -, rfl⟩ := check_not.1 h
    exact congrArg (Expr.not line) (ih he)
  | call line f args ih =>
    obtain ⟨t, args', hargs, -, rfl⟩ := check_call.1 h
    have key : args'.map untyped = args := by
      clear h
      induction hargs with
      | nil => rfl
      | cons ha _ ihargs =>
        rw [List.map_cons, ih _ List.mem_cons_self ha,
          ihargs fun b hb => ih b (List.mem_cons_of_mem _ hb)]
    rw [untyped, map, mapList_eq_map]
    exact congrArg (call line f) key
  | binary line op a b iha ihb =>
    obtain ⟨a', b', ha, hb, -, rfl⟩ := check_binary.1 h
    exact congrArg₂ (binary line op) (iha ha) (ihb hb)
  | cond line c a b ihc iha ihb =>
    obtain ⟨c', a', b', hc, -, ha, hb, -, rfl⟩ := check_cond.1 h
    rw [← ihc hc, ← iha ha, ← ihb hb]
    rfl
  | assign line x e ih =>
    obtain ⟨e', he, -, rfl⟩ := check_assign.1 h
    exact congrArg (assign line x) (ih he)
  | seq line a b iha ihb =>
    obtain ⟨a', b', ha, -, hb, -, rfl⟩ := check_seq.1 h
    exact congrArg₂ (seq line) (iha ha) (ihb hb)

/-- What occurs in a checked expression occurs in the expression as written. -/
theorem collect_of_check {α : Type} {p : TypedExpr → Option α} {q : RawExpr → Option α}
    (hpq : ∀ d : TypedExpr, q d.untyped = p d) {e : RawExpr} (h : e.check s = .ok r) :
    r.collect p = e.collect q := by
  rw [← check_untyped h, untyped, collect, collect, subterms_map, List.filterMap_map]
  exact List.filterMap_congr fun d _ => (hpq d).symm

theorem reads_of_check {e : RawExpr} (h : e.check s = .ok r) : r.reads = e.reads :=
  collect_of_check (fun d => by cases d <;> rfl) h

theorem callees_of_check {e : RawExpr} (h : e.check s = .ok r) : r.callees = e.callees :=
  collect_of_check (fun d => by cases d <;> rfl) h

/-- An expression that reads values only, and calls only functions that return values, uses
primitive types throughout. -/
theorem WellTyped.firstOrder {e : TypedExpr} (h : e.WellTyped (.ofScope s))
    (hcalls : ∀ f ts t, s.find? f = some (.fn ts t) → t.isPrimitive)
    (hreads : ∀ x ∈ e.reads, ∀ t, s.find? x = some t → t.isPrimitive) :
    e.WellTyped (.ofValues s) ∧ e.ty.isPrimitive := by
  induction h with
  | lit h =>
    refine ⟨.lit h, ?_⟩
    rw [ty_lit, h]
    cases ‹Literal› <;> rfl
  | var h =>
    have ht := hreads _ (by simp) _ h
    exact ⟨.var ⟨h, ht⟩, ht⟩
  | not h₁ h₂ _ ih => exact ⟨.not h₁ h₂ (ih (by simpa using hreads)).1, by rw [ty_not, h₁]; rfl⟩
  | call hf _ ih =>
    refine ⟨.call hf fun a ha => (ih a ha fun x hx => hreads x ?_).1, hcalls _ _ _ hf⟩
    simpa using ⟨a, ha, hx⟩
  | binary h₁ h₂ _ _ ihl ihr =>
    refine ⟨.binary h₁ h₂ (ihl fun x hx => hreads x (by simp [hx])).1
      (ihr fun x hx => hreads x (by simp [hx])).1, ?_⟩
    rw [ty_binary, h₁]
    cases ‹Operator› <;> rfl
  | cond h₁ h₂ h₃ _ _ _ ihc iht ihe =>
    have ht := iht fun x hx => hreads x (by simp [hx])
    refine ⟨.cond h₁ h₂ h₃ (ihc fun x hx => hreads x (by simp [hx])).1 ht.1
      (ihe fun x hx => hreads x (by simp [hx])).1, ?_⟩
    rw [ty_cond, ← h₂]
    exact ht.2
  | assign h₁ h₂ _ ih =>
    have he := ih fun x hx => hreads x (by simpa using hx)
    exact ⟨.assign h₁ ⟨h₂, he.2⟩ he.1, by rw [ty_assign, h₁]; rfl⟩
  | seq h₁ h₂ h₃ _ _ iha ihb =>
    exact ⟨.seq h₁ h₂ h₃ (iha fun x hx => hreads x (by simp [hx])).1
      (ihb fun x hx => hreads x (by simp [hx])).1, by rw [ty_seq, h₁]; rfl⟩

end Expr

end Rulebook
