import Rulebook.Proofs.Occurrence
import Rulebook.Proofs.Typing.Substitution

/-!
# The laws of substitution

A substitution can only fail at an assignment: its target is a name, and has to stay one.

* `substitute_failsFirst`: what a substitution finds wrong with an expression is what it finds wrong
  with its nodes, in pre-order, and it fails with the first of it;
* `Composes.substitute`: two substitutions in a row are one, which puts for a name what the first
  puts for it, with the second carried out in that. Success is part of the law: the one substitution
  succeeds where the two do.
-/

namespace Rulebook

/-! ## Failure -/

namespace Substitution

/-- A node breaks under a substitution if it is an assignment, on `line`, to a name for which the
substitution puts `r`, and `r` is not a variable. -/
inductive Breaks (s : Substitution) : (node r : TypedExpr) → Line → Prop
  | assign {m : Mark} {x : String} {v r : TypedExpr} (hx : s.find? x = some r)
    (hr : ∀ m y, r ≠ .var m y) : Breaks s (.assign m x v) r m.line

/-- What a substitution finds wrong with a node. -/
def refusal? (s : Substitution) : TypedExpr → Option Defect
  | .assign m x _ =>
    match s.target x m.line with
    | .ok _ => none
    | .error defect => some defect
  | _ => none

theorem target_eq_error {s : Substitution} {x : String} {line : Line} {defect : Defect} :
    s.target x line = .error defect ↔
      ∃ r, s.find? x = some r ∧ (∀ m y, r ≠ .var m y) ∧ .badTarget r.text line = defect := by
  unfold target
  split
  · next h => simp [h]
  · next h => simp [h]
  · next r hr h =>
    simp only [h, Except.error.injEq, Option.some.injEq, exists_eq_left']
    exact (and_iff_right hr).symm

theorem refusal?_eq_some {s : Substitution} {d : TypedExpr} {defect : Defect} :
    s.refusal? d = some defect ↔ ∃ r line, s.Breaks d r line ∧ .badTarget r.text line = defect := by
  constructor
  · intro h
    cases d with
    | assign m x v =>
      rw [refusal?] at h
      split at h
      · cases h
      · next htarget =>
        cases h
        obtain ⟨r, hx, hr, rfl⟩ := target_eq_error.1 htarget
        exact ⟨r, m.line, .assign hx hr, rfl⟩
    | _ => cases h
  · rintro ⟨r, line, ⟨hx, hr⟩, rfl⟩
    rw [refusal?, target_eq_error.2 ⟨r, hx, hr, rfl⟩]

theorem refusal?_eq_none {s : Substitution} {d : TypedExpr} :
    s.refusal? d = none ↔ ∀ r line, ¬s.Breaks d r line := by
  rw [Option.eq_none_iff_forall_ne_some]
  constructor
  · intro h r line hd
    exact h _ (refusal?_eq_some.2 ⟨r, line, hd, rfl⟩)
  · intro h defect hdefect
    obtain ⟨r, line, hd, -⟩ := refusal?_eq_some.1 hdefect
    exact h r line hd

theorem target_failsFirst (s : Substitution) (m : Mark) (x : String) (v : TypedExpr) :
    FailsFirst (s.target x m.line) (s.refusal? (.assign m x v)).toList := by
  rw [refusal?]
  cases h : s.target x m.line with
  | ok y => exact .pure
  | error defect => rfl

end Substitution

namespace Expr

open Substitution

/-- **A substitution fails with the first thing it finds wrong**, in pre-order. -/
theorem substitute_failsFirst (s : Substitution) (e : TypedExpr) :
    FailsFirst (e.substitute s) (e.collect s.refusal?) := by
  induction e using Expr.induct with
  | lit m v => exact .pure
  | var m x => exact .pure
  | not m e ih =>
    rw [collect_not]
    exact ih.bind_pure
  | call m f args ih =>
    rw [substitute, substituteArgs_eq_mapM, collect_call]
    exact (FailsFirst.mapM ih).bind_pure
  | binary m op l r ihl ihr =>
    rw [collect_binary]
    exact ihl.bind fun _ _ => ihr.bind_pure
  | cond m c t e ihc iht ihe =>
    rw [collect_cond, List.append_assoc (c.collect _)]
    exact ihc.bind fun _ _ => iht.bind fun _ _ => ihe.bind_pure
  | assign m x e ih =>
    -- the target is looked at before the value
    rw [collect_assign]
    exact (s.target_failsFirst m x e).bind fun _ _ => ih.bind_pure
  | seq m a b iha ihb =>
    rw [collect_seq]
    exact iha.bind fun _ _ => ihb.bind_pure

/-- **Substitution fails exactly on bad targets.** It fails if and only if the expression has an
assignment to a name for which it puts something other than a variable; the defect it then reports
is that of the first such assignment in pre-order, with its line and the text of what is put. -/
theorem substitute_eq_error_iff (s : Substitution) (e : TypedExpr) :
    ((∃ defect, e.substitute s = .error defect) ↔
      ∃ d ∈ e.subterms, ∃ r line, s.Breaks d r line) ∧
    ∀ defect, e.substitute s = .error defect ↔
      ∃ before d after, e.subterms = before ++ d :: after ∧
        (∃ r line, s.Breaks d r line ∧ .badTarget r.text line = defect) ∧
        ∀ b ∈ before, ∀ r line, ¬s.Breaks b r line := by
  have hfirst : ∀ defect, e.substitute s = .error defect ↔
      e.subterms.findSome? s.refusal? = some defect := by
    intro defect
    rw [(substitute_failsFirst s e).eq_error_iff, collect, List.head?_filterMap]
  constructor
  · constructor
    · rintro ⟨defect, h⟩
      obtain ⟨d, hd, hrefusal⟩ := List.exists_of_findSome?_eq_some ((hfirst defect).1 h)
      obtain ⟨r, line, hbreaks, -⟩ := refusal?_eq_some.1 hrefusal
      exact ⟨d, hd, r, line, hbreaks⟩
    · rintro ⟨d, hd, r, line, hbreaks⟩
      have hrefusal : s.refusal? d = some (.badTarget r.text line) :=
        refusal?_eq_some.2 ⟨r, line, hbreaks, rfl⟩
      have hsome : (e.subterms.findSome? s.refusal?).isSome :=
        List.findSome?_isSome_iff.2 ⟨d, hd, by rw [hrefusal]; rfl⟩
      obtain ⟨defect, h⟩ := Option.isSome_iff_exists.1 hsome
      exact ⟨defect, (hfirst defect).2 h⟩
  · intro defect
    rw [hfirst, List.findSome?_eq_some_iff]
    simp only [refusal?_eq_some, refusal?_eq_none]

end Expr

/-! ## Composition -/

namespace Substitution

/-- The substitution `u` is `s` and then `t`: for a name of `s` it puts what `s` puts, with `t`
carried out in it, and for any other name what `t` puts. -/
structure Composes (u s t : Substitution) : Prop where
  of_some : ∀ x r, s.find? x = some r → ∃ r', r.substitute t = .ok r' ∧ u.find? x = some r'
  of_none : ∀ x, s.find? x = none → u.find? x = t.find? x

/-- What stands for `r` after the substitution, if it succeeds in `r`. -/
def carry (t : Substitution) (r : TypedExpr) : TypedExpr :=
  match r.substitute t with
  | .ok r' => r'
  | .error _ => r

theorem carry_eq {t : Substitution} {r r' : TypedExpr} (h : r.substitute t = .ok r') :
    t.carry r = r' := by
  rw [carry, h]

/-- First `s`, then `t`. -/
def andThen (s t : Substitution) : Substitution :=
  ⟨s.entries.map (fun p => (p.1, t.carry p.2)) ++ t.entries⟩

theorem find?_andThen (s t : Substitution) (x : String) :
    (s.andThen t).find? x = ((s.find? x).map t.carry).or (t.find? x) := by
  rw [andThen, Bindings.find?, Bindings.find?, List.lookup_append]
  congr 1
  induction s.entries with
  | nil => rfl
  | cons p entries ih =>
    rw [List.map_cons, Bindings.lookup_cons_eq_ite, Bindings.lookup_cons_eq_ite, ih]
    split <;> rfl

/-- Where the second substitution succeeds in all that the first one puts, there is one that does
both. -/
theorem composes_andThen {s t : Substitution}
    (hst : ∀ x r, s.find? x = some r → ∃ r', r.substitute t = .ok r') :
    (s.andThen t).Composes s t where
  of_some x r hx := by
    obtain ⟨r', hr'⟩ := hst x r hx
    exact ⟨r', hr', by rw [find?_andThen, hx, Option.map_some, carry_eq hr', Option.some_or]⟩
  of_none x hx := by
    rw [find?_andThen, hx, Option.map_none, Option.none_or]

/-- Only a variable becomes a variable by substitution. -/
theorem exists_var_of_substitute {t : Substitution} {r : TypedExpr} {m : Mark} {y : String}
    (h : r.substitute t = .ok (.var m y)) : ∃ m' x, r = .var m' x := by
  cases r with
  | var m' x => exact ⟨m', x, rfl⟩
  | lit => cases h
  | _ =>
    simp only [Expr.substitute, bind_eq_ok, pure_eq_ok, reduceCtorEq, and_false,
      exists_false] at h

/-- A target becomes what it would become if it were read, as long as that is a variable. -/
theorem target_eq_ok_iff_read {s : Substitution} {x y : String} {line : Line} (m : Mark) :
    s.target x line = .ok y ↔ ∃ m', (Expr.var m x).substitute s = .ok (.var m' y) := by
  rw [target_eq_ok, Expr.substitute]
  cases s.find? x with
  | none => simp
  | some r => simp

namespace Composes

variable {s t u : Substitution} (h : u.Composes s t)

include h

theorem read (m : Mark) (x : String) :
    ((s.find? x).getD (.var m x)).substitute t = .ok ((u.find? x).getD (.var m x)) := by
  cases hx : s.find? x with
  | none =>
    rw [h.of_none x hx]
    rfl
  | some r =>
    obtain ⟨r', hr', hu⟩ := h.of_some x r hx
    rw [hu]
    exact hr'

theorem target_of_ok {x y z : String} {line : Line} (hy : s.target x line = .ok y)
    (hz : t.target y line = .ok z) : u.target x line = .ok z := by
  obtain ⟨m, hy⟩ := (target_eq_ok_iff_read ⟨.void, line⟩).1 hy
  obtain ⟨m', hz⟩ := (target_eq_ok_iff_read m).1 hz
  refine (target_eq_ok_iff_read ⟨.void, line⟩).2 ⟨m', ?_⟩
  rw [Expr.substitute, Except.ok.injEq] at hy
  rwa [← hy, h.read] at hz

theorem target (x : String) (line : Line) :
    Leads (fun z y => t.target y line = .ok z) (u.target x line) (s.target x line) := by
  intro z hz
  obtain ⟨m, hz⟩ := (target_eq_ok_iff_read ⟨.void, line⟩).1 hz
  rw [Expr.substitute, ← h.read] at hz
  -- what `u` puts is a variable, so what `s` puts is one as well
  obtain ⟨m', y, hy⟩ := exists_var_of_substitute hz
  rw [hy] at hz
  exact ⟨y, (target_eq_ok_iff_read ⟨.void, line⟩).2 ⟨m', congrArg _ hy⟩,
    (target_eq_ok_iff_read m').2 ⟨m, hz⟩⟩

/-- Where two substitutions succeed one after the other, so does their composite, and with the same
result. -/
theorem substitute_of_ok {e d r : TypedExpr} (hd : e.substitute s = .ok d)
    (hr : d.substitute t = .ok r) : e.substitute u = .ok r := by
  induction e using Expr.induct generalizing d r with
  | lit m v =>
    cases hd
    exact hr
  | var m x =>
    cases hd
    rwa [h.read] at hr
  | not m e ih =>
    simp only [Expr.substitute, bind_eq_ok, pure_eq_ok] at hd
    obtain ⟨e', he, rfl⟩ := hd
    simp only [Expr.substitute, bind_eq_ok, pure_eq_ok] at hr ⊢
    obtain ⟨e'', he', rfl⟩ := hr
    exact ⟨e'', ih he he', rfl⟩
  | call m f args ih =>
    simp only [Expr.substitute, Expr.substituteArgs_eq_mapM, bind_eq_ok, pure_eq_ok,
      mapM_eq_ok] at hd
    obtain ⟨args', hargs, rfl⟩ := hd
    simp only [Expr.substitute, Expr.substituteArgs_eq_mapM, bind_eq_ok, pure_eq_ok,
      mapM_eq_ok] at hr ⊢
    obtain ⟨args'', hargs', rfl⟩ := hr
    refine ⟨args'', forall₂_of_mem (forall₂_comp hargs hargs') ?_, rfl⟩
    rintro a ha a'' ⟨a', h₁, h₂⟩
    exact ih a ha h₁ h₂
  | binary m op l r ihl ihr =>
    simp only [Expr.substitute, bind_eq_ok, pure_eq_ok] at hd
    obtain ⟨l', hl, r', hr', rfl⟩ := hd
    simp only [Expr.substitute, bind_eq_ok, pure_eq_ok] at hr ⊢
    obtain ⟨l'', hl', r'', hr'', rfl⟩ := hr
    exact ⟨l'', ihl hl hl', r'', ihr hr' hr'', rfl⟩
  | cond m c t e ihc iht ihe =>
    simp only [Expr.substitute, bind_eq_ok, pure_eq_ok] at hd
    obtain ⟨c', hc, t', ht, e', he, rfl⟩ := hd
    simp only [Expr.substitute, bind_eq_ok, pure_eq_ok] at hr ⊢
    obtain ⟨c'', hc', t'', ht', e'', he', rfl⟩ := hr
    exact ⟨c'', ihc hc hc', t'', iht ht ht', e'', ihe he he', rfl⟩
  | assign m x e ih =>
    simp only [Expr.substitute, bind_eq_ok, pure_eq_ok] at hd
    obtain ⟨y, hy, e', he, rfl⟩ := hd
    simp only [Expr.substitute, bind_eq_ok, pure_eq_ok] at hr ⊢
    obtain ⟨z, hz, e'', he', rfl⟩ := hr
    exact ⟨z, h.target_of_ok hy hz, e'', ih he he', rfl⟩
  | seq m a b iha ihb =>
    simp only [Expr.substitute, bind_eq_ok, pure_eq_ok] at hd
    obtain ⟨a', ha, b', hb, rfl⟩ := hd
    simp only [Expr.substitute, bind_eq_ok, pure_eq_ok] at hr ⊢
    obtain ⟨a'', ha', b'', hb', rfl⟩ := hr
    exact ⟨a'', iha ha ha', b'', ihb hb hb', rfl⟩

/-- Where the composite succeeds, so do the two substitutions one after the other. -/
theorem leads (e : TypedExpr) :
    Leads (fun r d => d.substitute t = .ok r) (e.substitute u) (e.substitute s) := by
  induction e using Expr.induct with
  | lit m v => exact .pure rfl
  | var m x => exact .pure (h.read m x)
  | not m e ih => exact ih.bind fun e' d he => .pure (by rw [Expr.substitute, he]; rfl)
  | call m f args ih =>
    rw [Expr.substitute, Expr.substitute, Expr.substituteArgs_eq_mapM, Expr.substituteArgs_eq_mapM]
    refine Leads.bind (.mapM (List.forall₂_same.2 ih)) fun args' ds hargs => .pure ?_
    rw [Expr.substitute, Expr.substituteArgs_eq_mapM, mapM_eq_ok.2 hargs.flip]
    rfl
  | binary m op l r ihl ihr | seq m l r ihl ihr =>
    exact ihl.bind fun l' d hl => ihr.bind fun r' d' hr =>
      .pure (by rw [Expr.substitute, hl, hr]; rfl)
  | cond m c t e ihc iht ihe =>
    exact ihc.bind fun c' d hc => iht.bind fun t' d' ht => ihe.bind fun e' d'' he =>
      .pure (by rw [Expr.substitute, hc, ht, he]; rfl)
  | assign m x e ih =>
    exact (h.target x m.line).bind fun z y hz => ih.bind fun e' d he =>
      .pure (by rw [Expr.substitute, hz, he]; rfl)

/-- **Two substitutions in a row are one.** -/
theorem substitute (e r : TypedExpr) :
    e.substitute u = .ok r ↔ ∃ d, e.substitute s = .ok d ∧ d.substitute t = .ok r := by
  constructor
  · exact h.leads e r
  · rintro ⟨d, hd, hr⟩
    exact h.substitute_of_ok hd hr

end Composes

end Substitution

namespace Expr

/-- A substitution that puts nothing changes nothing. -/
theorem substitute_of_none {s : Substitution} (hs : ∀ x, s.find? x = none) (e : TypedExpr) :
    e.substitute s = .ok e := by
  induction e using Expr.induct with
  | lit m v => rfl
  | var m x => rw [substitute, hs, Option.getD_none]
  | not m e ih => rw [substitute, ih]; rfl
  | call m f args ih =>
    rw [substitute, substituteArgs_eq_mapM, mapM_eq_ok.2 (List.forall₂_same.2 ih)]
    rfl
  | binary m op l r ihl ihr => rw [substitute, ihl, ihr]; rfl
  | cond m c t e ihc iht ihe => rw [substitute, ihc, iht, ihe]; rfl
  | assign m x e ih => rw [substitute, s.target_of_none (hs x), ih]; rfl
  | seq m a b iha ihb => rw [substitute, iha, ihb]; rfl

/-- **Substitutions compose.** If `t` succeeds in all that `s` puts, there is one substitution that
is `s` and then `t`, and any such does to an expression what the two do one after the other. What a
substitution puts for a name is put as it is, and the empty substitution is the identity. -/
theorem substitute_substitute {s t : Substitution}
    (hst : ∀ x r, s.find? x = some r → ∃ r', r.substitute t = .ok r') :
    (s.andThen t).Composes s t ∧
    (∀ u : Substitution, u.Composes s t → ∀ e r : TypedExpr,
      e.substitute u = .ok r ↔ ∃ d, e.substitute s = .ok d ∧ d.substitute t = .ok r) ∧
    (∀ m x r, s.find? x = some r → (var m x).substitute s = .ok r) ∧
    ∀ u : Substitution, (∀ x, u.find? x = none) →
      (∀ e : TypedExpr, e.substitute u = .ok e) ∧ s.Composes s u ∧ t.Composes u t := by
  refine ⟨Substitution.composes_andThen hst, fun u hu => hu.substitute, ?_, ?_⟩
  · intro m x r hx
    rw [substitute, hx, Option.getD_some]
  · intro u hu
    have hidentity := substitute_of_none hu
    refine ⟨hidentity, ⟨?_, ?_⟩, ⟨?_, fun x _ => rfl⟩⟩
    · exact fun x r hx => ⟨r, hidentity r, hx⟩
    · intro x hx
      rw [hx, hu]
    · intro x r hx
      rw [hu] at hx
      cases hx

/-- Puts `y` for `x` and `y + 1` for `n`. -/
def relayFirst : Substitution :=
  ⟨[("x", .var ⟨.int, 1⟩ "y"),
    ("n", .operation .add (.var ⟨.int, 1⟩ "y") (.literal (.int 1) 1) 1)]⟩

/-- Puts `z` for `y`, and for `x` a number, to which nothing can be assigned. -/
def relaySecond : Substitution :=
  ⟨[("y", .var ⟨.int, 2⟩ "z"), ("x", .literal (.int 5) 2)]⟩

/-- The assignment `x = n - x` becomes `z = z + 1 - z`. -/
theorem relay_substitute :
    (∀ x r, relayFirst.find? x = some r → ∃ r', r.substitute relaySecond = .ok r') ∧
    (assignment "x" (.operation .sub (.var ⟨.int, 3⟩ "n") (.var ⟨.int, 3⟩ "x") 3) 3).substitute
        (relayFirst.andThen relaySecond) =
      .ok (assignment "z" (.operation .sub
        (.operation .add (.var ⟨.int, 2⟩ "z") (.literal (.int 1) 1) 1)
        (.var ⟨.int, 2⟩ "z") 3) 3) := by
  have hst : ∀ x r, relayFirst.find? x = some r → ∃ r', r.substitute relaySecond = .ok r' := by
    intro x r hx
    simp only [relayFirst, Bindings.find?, Bindings.lookup_cons_eq_ite, List.lookup_nil] at hx
    split at hx
    · cases hx
      exact ⟨_, rfl⟩
    · split at hx
      · cases hx
        exact ⟨_, rfl⟩
      · cases hx
  obtain ⟨hcomposes, hsubstitute, -⟩ := substitute_substitute hst
  exact ⟨hst, (hsubstitute _ hcomposes _ _).2 ⟨_, rfl, rfl⟩⟩

end Expr

end Rulebook
