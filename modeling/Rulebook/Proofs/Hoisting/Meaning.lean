import Mathlib.Data.List.Pairwise
import Rulebook.Proofs.Hoisting.Tests
import Rulebook.Proofs.Machine.Alike

/-!
# Rules mean what their expression means

The rules of an expression make all its tests before any of its actions, and make tests that the
expression would not come to. This changes nothing but the calls made by tests if the tests have
no effect and do not see the effects of what comes before them (`Expr.Hoistable`).

* `Hoistable.follows`: an expression does what the leaf that its decision chooses does;
* `Hoistable.runRules_eval`: an expression and its rules both succeed or both fail, with the
  same memory and the same calls, up to those of tests.
-/

namespace Rulebook

/-- A call that is made on machines that match. -/
theorem Machine.Matches.call {S : Set String} [DecidablePred (· ∈ S)] {n n' : Machine Recorder}
    {f : String} {vs : List Value} {t : Ty} (h : n.Matches S n') :
    EvalM.Both (EvalM.call Recorder.host f vs t) (EvalM.call Recorder.host f vs t) n n'
      (fun v v' k k' => v = v' ∧ k.Matches S k' ∧ n.Agree (fun _ => True) k)
      (Machine.Matches S) := by
  refine .inl ⟨_, _, _, _, EvalM.run_call _ f vs t n, EvalM.run_call _ f vs t n', ?_, ?_, ?_⟩
  · change (n.world.readings.find? f).getD _ = (n'.world.readings.find? f).getD _
    rw [h.readings]
  · refine ⟨h.memory, h.readings, ?_⟩
    change List.filter _ (n.world.log ++ _) = List.filter _ (n'.world.log ++ _)
    rw [List.filter_append, List.filter_append, h.log]
  · exact ⟨fun _ _ => rfl, rfl⟩

namespace Expr

variable {S : Set String} {start n n' : Machine Recorder} {d e : TypedExpr}

/-- The names that the tests of an expression read. -/
def tested (e : TypedExpr) : List String := e.tests.flatMap reads

theorem mem_tested {x : String} : x ∈ e.tested ↔ ∃ c ∈ e.tests, x ∈ c.reads := List.mem_flatMap

theorem tested_subset (h : d ∈ e.subterms) : d.tested ⊆ e.tested := by
  intro x hx
  obtain ⟨c, hc, hx⟩ := mem_tested.1 hx
  exact mem_tested.2 ⟨c, collect_subset h hc, hx⟩

/-- What the tests of the second read, the first does not assign. -/
def Undisturbed (a b : TypedExpr) : Prop := ∀ x ∈ b.tested, x ∉ a.targets

instance (a b : TypedExpr) : Decidable (Undisturbed a b) :=
  inferInstanceAs (Decidable (∀ x ∈ b.tested, x ∉ a.targets))

/-- The tests of an expression can be made before its actions, on the machine `start`. A test does
not assign, and calls only operations of `S`; what it reads is not assigned before it; and it is
well typed, also with respect to what `start` holds. -/
structure Hoistable (S : Set String) (start : Machine Recorder) (e : TypedExpr) : Prop where
  targets : ∀ c ∈ e.tests, c.targets = []
  callees : ∀ c ∈ e.tests, ∀ f ∈ c.callees, f ∈ S
  seq : ∀ m a b, .seq m a b ∈ e.subterms → Undisturbed a b
  binary : ∀ m op a b, .binary m op a b ∈ e.subterms → Undisturbed a b
  args : ∀ m f args, .call m f args ∈ e.subterms → args.Pairwise Undisturbed
  typed : ∀ c ∈ e.tests, c.WellTypedTest .primitive
  bound : ∀ c ∈ e.tests, ∀ m x, .var m x ∈ c.subterms →
    ∃ v, start.memory.find? x = some v ∧ v.ty = m.ty
  readings : ∀ c ∈ e.tests, ∀ m f args, .call m f args ∈ c.subterms →
    ∀ v, start.world.readings.find? f = some v → v.ty = m.ty

theorem Hoistable.sub (h : e.Hoistable S start) (hd : d ∈ e.subterms) : d.Hoistable S start where
  targets c hc := h.targets c (collect_subset hd hc)
  callees c hc := h.callees c (collect_subset hd hc)
  seq m a b hab := h.seq m a b (mem_subterms_trans hab hd)
  binary m op a b hab := h.binary m op a b (mem_subterms_trans hab hd)
  args m f args hargs := h.args m f args (mem_subterms_trans hargs hd)
  typed c hc := h.typed c (collect_subset hd hc)
  bound c hc := h.bound c (collect_subset hd hc)
  readings c hc := h.readings c (collect_subset hd hc)

/-- The tests are settled from the start. -/
theorem Hoistable.test (h : e.Hoistable S start) {c : TypedExpr} (hc : c ∈ e.tests) :
    c.WellTypedTest (.settled S start) := by
  refine ⟨(h.typed c hc).1.change ?_ ?_ ?_, (h.typed c hc).2⟩
  · exact fun m x hx _ => h.bound c hc m x hx
  · intro m x v hx _
    have hmem : x ∈ c.targets := mem_targets.2 ⟨m, v, hx⟩
    rw [h.targets c hc] at hmem
    cases hmem
  · intro m f args hf hprim
    exact ⟨h.callees c hc f (mem_callees.2 ⟨m, args, hf⟩), hprim, h.readings c hc m f args hf⟩

/-- Pulling out conditionals whose tests are well typed. -/
theorem decision_tests {Γ : Context} {e : TypedExpr} (h : ∀ c ∈ e.tests, c.WellTypedTest Γ) :
    e.decision.Holds (WellTypedTest Γ) fun _ => True := by
  induction e using Expr.induct with
  | lit | var => trivial
  | not m e ih | assign m x e ih =>
    exact (ih fun c hc => h c (by simpa using hc)).map fun _ _ => trivial
  | call m f args ih =>
    rw [decision, decisions_eq_map]
    refine (Decision.Holds.all (T := fun _ _ => True) m.line fun a ha => ?_).map fun _ _ => trivial
    exact ih a ha fun c hc => h c (by simpa using ⟨a, ha, hc⟩)
  | binary m op l r ihl ihr | seq m l r ihl ihr =>
    refine (ihl fun c hc => h c ?_).both (fun _ _ _ => .and) (ihr fun c hc => h c ?_)
      fun _ _ _ _ => trivial
    · simp [hc]
    · simp [hc]
  | cond m c t e ihc iht ihe =>
    have hc := h c (by simp)
    refine (hc.1.decision.atLine m.line).bind fun c' hc' => ⟨⟨hc'.1, hc'.2.trans hc.2⟩, ?_, ?_⟩
    · exact iht fun c hc => h c (by simp [hc])
    · exact ihe fun c hc => h c (by simp [hc])

/-! ## Leaves -/

section

variable [DecidablePred (· ∈ S)]

/-- The leaf that the decision of an expression chooses on a machine. -/
def chosen (start : Machine Recorder) (e : TypedExpr) : TypedExpr := e.decision.choose start.truth

/-- Two expressions that are decided together come to their own leaves. -/
theorem Hoistable.choose_both {a b : TypedExpr} (ha : a.Hoistable S start)
    (hb : b.Hoistable S start) (f : TypedExpr → TypedExpr → TypedExpr) :
    (Decision.both f a.decision b.decision).choose start.truth =
      f (a.chosen start) (b.chosen start) :=
  Decision.choose_both (start.valuation S) f (decision_tests fun _ => ha.test)
    (decision_tests fun _ => hb.test)

/-- On machines that match and have what the tests read in common with `start`, an expression and
its leaf do the same. What the expression does not assign, it leaves. -/
def Follows (S : Set String) [DecidablePred (· ∈ S)] (start : Machine Recorder) (e : TypedExpr) :
    Prop :=
  ∀ n n', n.Matches S n' → start.Agree (· ∈ e.tested) n →
    EvalM.Both (e.eval Recorder.host) ((e.chosen start).eval Recorder.host) n n'
      (fun v v' k k' => v = v' ∧ k.Matches S k' ∧ n.Agree (· ∉ e.targets) k)
      (Machine.Matches S)

/-- A part of an expression, after steps without a trace. -/
theorem Follows.part {k : Machine Recorder} (h : d.Follows S start) (hd : d ∈ e.subterms)
    (hk : n.Matches S k) (hmatch : k.Matches S n') (hagree : start.Agree (· ∈ e.tested) n) :
    EvalM.Both (d.eval Recorder.host) ((d.chosen start).eval Recorder.host) k n'
      (fun v v' l l' => v = v' ∧ l.Matches S l' ∧ n.Agree (· ∉ e.targets) l)
      (Machine.Matches S) := by
  have hagree' := (hagree.mono fun x hx => tested_subset hd hx).matches hk
  refine (h k n' hmatch hagree').imp ?_
  rintro v _ l l' ⟨rfl, hll, hframe⟩
  refine ⟨rfl, hll, (hk.agree (· ∉ e.targets)).trans hframe (fun _ hx => hx) ?_⟩
  exact fun x hx hxd => hx (collect_subset hd hxd)

/-- Two parts in order, the second of which the first does not disturb. -/
theorem Follows.bind {α : Type} {a b : TypedExpr} {f g : Value → Value → EvalM Recorder α}
    {Q : α → α → Machine Recorder → Machine Recorder → Prop} (ha : a.Follows S start)
    (hb : b.Follows S start) (hab : Undisturbed a b) (hae : a ∈ e.subterms) (hbe : b ∈ e.subterms)
    (hmatch : n.Matches S n') (hagree : start.Agree (· ∈ e.tested) n)
    (hfg : ∀ v w k k', k.Matches S k' → n.Agree (· ∉ e.targets) k →
      EvalM.Both (f v w) (g v w) k k' Q (Machine.Matches S)) :
    EvalM.Both
      (do let v ← a.eval Recorder.host; let w ← b.eval Recorder.host; f v w)
      (do
        let v ← (a.chosen start).eval Recorder.host
        let w ← (b.chosen start).eval Recorder.host
        g v w)
      n n' Q (Machine.Matches S) := by
  refine (ha n n' hmatch (hagree.mono fun _ hx => tested_subset hae hx)).bind ?_
  rintro v _ k k' ⟨rfl, hkk, hframe⟩
  have hagree' : start.Agree (· ∈ b.tested) k :=
    hagree.trans hframe (fun _ hx => tested_subset hbe hx) hab
  refine (hb k k' hkk hagree').bind ?_
  rintro w _ l l' ⟨rfl, hll, hframe'⟩
  refine hfg v w l l' hll (hframe.trans hframe' ?_ ?_)
  · exact fun x hx hxa => hx (collect_subset hae hxa)
  · exact fun x hx hxb => hx (collect_subset hbe hxb)

/-- Arguments, of which no one disturbs a later one. -/
theorem Follows.mapM {args : List TypedExpr} (h : ∀ a ∈ args, a.Follows S start)
    (hargs : args.Pairwise Undisturbed) (hmatch : n.Matches S n')
    (hagree : ∀ a ∈ args, start.Agree (· ∈ a.tested) n) :
    EvalM.Both (args.mapM (eval Recorder.host))
      ((args.map (chosen start)).mapM (eval Recorder.host)) n n'
      (fun vs vs' k k' => vs = vs' ∧ k.Matches S k' ∧
        n.Agree (fun x => ∀ a ∈ args, x ∉ a.targets) k)
      (Machine.Matches S) := by
  induction args generalizing n n' with
  | nil => exact .pure ⟨rfl, hmatch, .refl _ n⟩
  | cons a args ih =>
    rw [List.map_cons, List.mapM_cons, List.mapM_cons]
    refine (h a List.mem_cons_self n n' hmatch (hagree a List.mem_cons_self)).bind ?_
    rintro v _ k k' ⟨rfl, hkk, hframe⟩
    obtain ⟨hfirst, hargs⟩ := List.pairwise_cons.1 hargs
    have hagree' : ∀ b ∈ args, start.Agree (· ∈ b.tested) k := fun b hb =>
      (hagree b (List.mem_cons_of_mem _ hb)).trans hframe (fun _ hx => hx)
        (hfirst b hb)
    refine (ih (fun b hb => h b (List.mem_cons_of_mem _ hb)) hargs hkk hagree').bind ?_
    rintro vs _ l l' ⟨rfl, hll, hframe'⟩
    refine .pure ⟨rfl, hll, hframe.trans hframe' ?_ ?_⟩
    · exact fun x hx => hx a List.mem_cons_self
    · exact fun x hx b hb => hx b (List.mem_cons_of_mem _ hb)

/-! One lemma for each form of expression that has parts. -/

theorem Follows.not {m : Mark} (he : e.Follows S start) : (Expr.not m e).Follows S start := by
  intro n n' hmatch hagree
  rw [chosen, decision, Decision.choose_map]
  refine (he.part (by simp [subterms, self_mem_subterms]) (.refl n) hmatch hagree).bind ?_
  rintro v _ k k' ⟨rfl, hkk, hframe⟩
  refine .bind (P := fun b b' l l' => b = b' ∧ l.Matches S l' ∧ n.Agree _ l)
    (.truth e _ v (fun b => ⟨rfl, hkk, hframe⟩) hkk) ?_
  rintro b _ l l' ⟨rfl, hll, hframe⟩
  exact .pure ⟨rfl, hll, hframe⟩

theorem Follows.call {m : Mark} {f : String} {args : List TypedExpr}
    (h : ∀ a ∈ args, a.Follows S start) (hargs : args.Pairwise Undisturbed) :
    (Expr.call m f args).Follows S start := by
  intro n n' hmatch hagree
  rw [chosen, decision, decisions_eq_map, Decision.choose_map, Decision.choose_all, List.map_map,
    eval, eval, evalArgs_eq_mapM, evalArgs_eq_mapM]
  refine (Follows.mapM h hargs hmatch fun a ha => ?_).bind ?_
  · exact hagree.mono fun x hx => tested_subset (mem_subterms_call ha m f) hx
  rintro vs _ k k' ⟨rfl, hkk, hframe⟩
  refine hkk.call.imp ?_
  rintro v _ l l' ⟨rfl, hll, hframe'⟩
  refine ⟨rfl, hll, hframe.trans hframe' (fun x hx a ha hxa => ?_) fun _ _ => trivial⟩
  exact hx (collect_subset (mem_subterms_call ha m f) hxa)

theorem Follows.binary {m : Mark} {op : Operator} {l r : TypedExpr} (hl : l.Follows S start)
    (hr : r.Follows S start) (h : (Expr.binary m op l r).Hoistable S start) :
    (Expr.binary m op l r).Follows S start := by
  have hle : l ∈ (Expr.binary m op l r).subterms := by simp [subterms, self_mem_subterms]
  have hre : r ∈ (Expr.binary m op l r).subterms := by simp [subterms, self_mem_subterms]
  intro n n' hmatch hagree
  rw [chosen, decision, (h.sub hle).choose_both (h.sub hre)]
  refine hl.bind hr (h.binary m op l r (self_mem_subterms _)) hle hre hmatch hagree ?_
  intro v w k k' hkk hframe
  cases op.onValues? v w with
  | some u => exact .pure ⟨rfl, hkk, hframe⟩
  | none => exact .throw _ _ hkk

/-- The test of a conditional has one truth value on all machines that it is made on. -/
theorem Follows.cond {m : Mark} {c t e : TypedExpr} (hc : c.Follows S start)
    (ht : t.Follows S start) (he : e.Follows S start)
    (h : (Expr.cond m c t e).Hoistable S start) : (Expr.cond m c t e).Follows S start := by
  have htest : c.WellTypedTest (.settled S start) := h.test (by simp)
  -- on `start` itself, the test has the truth value of its leaf
  have hleaf : start.truth (c.chosen start) = start.truth c := by
    apply Machine.truth_eq
    obtain ⟨_, n, hrun, rfl, -⟩ := htest.eval_truth (.refl _ start)
    rcases hc start start (.refl start) (.refl _ start) with
      ⟨v, v', k, k', hk, hk', rfl, -⟩ | ⟨_, _, _, _, hk, -⟩
    · rw [hrun] at hk
      cases hk
      exact ⟨_, _, hk', rfl⟩
    · rw [hrun] at hk
      cases hk
  have hchosen : (Expr.cond m c t e).chosen start =
      if start.truth c then t.chosen start else e.chosen start := by
    rw [chosen, decision, Decision.choose_bind, Decision.choose_atLine, ← hleaf]
    rfl
  intro n n' hmatch hagree
  have hreads : start.Agree (· ∈ c.reads) n :=
    hagree.mono fun x hx => mem_tested.2 ⟨c, by simp, hx⟩
  obtain ⟨_, k, hrun, rfl, hk⟩ := htest.eval_truth hreads
  rw [eval, hchosen]
  refine .bind_left hrun ?_
  cases start.truth c with
  | true => exact ht.part (by simp [subterms, self_mem_subterms]) hk (hk.symm.trans hmatch) hagree
  | false => exact he.part (by simp [subterms, self_mem_subterms]) hk (hk.symm.trans hmatch) hagree

theorem Follows.assign {m : Mark} {x : String} (he : e.Follows S start) :
    (Expr.assign m x e).Follows S start := by
  intro n n' hmatch hagree
  rw [chosen, decision, Decision.choose_map]
  refine (he.part (by simp [subterms, self_mem_subterms]) (.refl n) hmatch hagree).bind ?_
  rintro v _ k k' ⟨rfl, hkk, hframe⟩
  refine .inl ⟨.void, .void, _, _, rfl, rfl, rfl, ⟨?_, hkk.readings, hkk.log⟩, ?_, hframe.readings⟩
  · exact congrArg (·.set x v) hkk.memory
  · intro y hy
    have hyx : y ≠ x := by
      rintro rfl
      simp at hy
    exact (Bindings.find?_set ..).trans ((if_neg hyx).trans (hframe.memory y hy))

theorem Follows.seq {m : Mark} {a b : TypedExpr} (ha : a.Follows S start) (hb : b.Follows S start)
    (h : (Expr.seq m a b).Hoistable S start) : (Expr.seq m a b).Follows S start := by
  have hae : a ∈ (Expr.seq m a b).subterms := by simp [subterms, self_mem_subterms]
  have hbe : b ∈ (Expr.seq m a b).subterms := by simp [subterms, self_mem_subterms]
  intro n n' hmatch hagree
  rw [chosen, decision, (h.sub hae).choose_both (h.sub hbe)]
  refine ha.bind hb (h.seq m a b (self_mem_subterms _)) hae hbe hmatch hagree ?_
  exact fun v w k k' hkk hframe => .pure ⟨rfl, hkk, hframe⟩

/-- **An expression does what the leaf that its decision chooses does.** -/
theorem Hoistable.follows (h : e.Hoistable S start) : e.Follows S start := by
  induction e using Expr.induct with
  | lit m v => exact fun n n' hmatch _ => .pure ⟨rfl, hmatch, .refl _ n⟩
  | var m x =>
    intro n n' hmatch _
    change EvalM.Both (EvalM.load x m.line) (EvalM.load x m.line) n n' _ _
    rw [EvalM.Both, EvalM.run_load, EvalM.run_load, ← hmatch.memory]
    cases n.memory.find? x with
    | some v => exact .inl ⟨v, v, n, n', rfl, rfl, rfl, hmatch, .refl _ n⟩
    | none => exact .inr ⟨_, _, n, n', rfl, rfl, hmatch⟩
  | not m e ih => exact .not (ih (h.sub (by simp [subterms, self_mem_subterms])))
  | call m f args ih =>
    have hargs := fun a ha => ih a ha (h.sub (mem_subterms_call ha m f))
    exact .call hargs (h.args m f args (self_mem_subterms _))
  | binary m op l r ihl ihr =>
    have hl := ihl (h.sub (by simp [subterms, self_mem_subterms]))
    have hr := ihr (h.sub (by simp [subterms, self_mem_subterms]))
    exact hl.binary hr h
  | cond m c t e ihc iht ihe =>
    have hc := ihc (h.sub (by simp [subterms, self_mem_subterms]))
    have ht := iht (h.sub (by simp [subterms, self_mem_subterms]))
    have he := ihe (h.sub (by simp [subterms, self_mem_subterms]))
    exact hc.cond ht he h
  | assign m x e ih => exact .assign (ih (h.sub (by simp [subterms, self_mem_subterms])))
  | seq m a b iha ihb =>
    have ha := iha (h.sub (by simp [subterms, self_mem_subterms]))
    have hb := ihb (h.sub (by simp [subterms, self_mem_subterms]))
    exact ha.seq hb h

/-! ## Rules -/

/-- Rules whose conditions are settled run the action of the first one that is true. -/
theorem runRulesFrom_find? {rs : List Rule} {r : Rule}
    (hrs : ∀ r ∈ rs, r.condition.WellTypedTest (.settled S start))
    (hr : (rs.find? fun r => start.truth r.condition) = some r) (i : ℕ) (hn : start.Matches S n) :
    ∃ j k, start.Matches S k ∧ (runRulesFrom Recorder.host i rs).run n =
      (r.action.eval Recorder.host >>= fun _ => pure j).run k := by
  induction rs generalizing i n with
  | nil => cases hr
  | cons r' rs ih =>
    obtain ⟨_, k, hrun, rfl, hk⟩ := (hrs r' List.mem_cons_self).eval_truth (hn.agree _)
    have hcond : (r'.condition.evalBool Recorder.host).run n =
        (.ok (start.truth r'.condition), k) := by
      rw [evalBool, EvalM.run_bind, hrun]
      rfl
    rw [runRulesFrom, EvalM.run_bind, hcond]
    rw [List.find?_cons] at hr
    cases htruth : start.truth r'.condition with
    | true =>
      rw [htruth] at hr
      cases hr
      exact ⟨i, k, hn.trans hk, rfl⟩
    | false =>
      rw [htruth] at hr
      exact ih (fun r hr => hrs r (List.mem_cons_of_mem _ hr)) hr (i + 1) (hn.trans hk)

/-- An expression and its rules, run from the start. -/
theorem Hoistable.runRules_both (h : e.Hoistable S start) :
    EvalM.Both (e.eval Recorder.host) (runRules Recorder.host e.rules) start start
      (fun _ _ k k' => k.Matches S k') (Machine.Matches S) := by
  have htests := decision_tests fun _ => h.test
  have hrs : ∀ r ∈ e.rules, r.condition.WellTypedTest (.settled S start) := fun r hr =>
    (htests.rules (start.valuation S).true_mem (start.valuation S).and_mem r hr).1
  obtain ⟨r, hr, hleaf : r.action = e.chosen start⟩ := Option.map_eq_some_iff.1
    (Decision.find?_rules (start.valuation S) htests)
  obtain ⟨j, n, hn, hrun⟩ := runRulesFrom_find? hrs hr 0 (.refl start)
  rw [hleaf, EvalM.run_bind] at hrun
  rcases h.follows start n hn (.refl _ start) with
    ⟨v, _, k, k', hk, hk', -, hkk, -⟩ | ⟨err, err', k, k', hk, hk', hkk⟩
  · rw [hk'] at hrun
    exact .inl ⟨v, j, k, k', hk, hrun, hkk⟩
  · rw [hk'] at hrun
    exact .inr ⟨err, err', k, k', hk, hrun, hkk⟩

/-- **An expression and its rules mean the same.** If its tests can be made before its actions,
evaluating the expression and running its rules both succeed or both fail, leave the same memory,
and make the same calls, up to the operations of `S` that tests may call. -/
theorem Hoistable.runRules_eval (h : e.Hoistable S start) :
    let x := (e.eval Recorder.host).run start
    let y := (runRules Recorder.host e.rules).run start
    ((∃ v, x.1 = .ok v) ↔ ∃ i, y.1 = .ok i) ∧
      x.2.memory = y.2.memory ∧
      (x.2.world.log.filter fun r => r.name ∉ S) = (y.2.world.log.filter fun r => r.name ∉ S) ∧
      (S = ∅ → x.2.world.log = y.2.world.log) := by
  rcases h.runRules_both with ⟨v, i, k, k', hx, hy, hkk⟩ | ⟨err, err', k, k', hx, hy, hkk⟩
  · simp only [hx, hy]
    exact ⟨⟨fun _ => ⟨i, rfl⟩, fun _ => ⟨v, rfl⟩⟩, hkk.memory, hkk.log, hkk.log_eq⟩
  · simp only [hx, hy]
    exact ⟨⟨nofun, nofun⟩, hkk.memory, hkk.log, hkk.log_eq⟩

end

/-- Counts, then tells whether a reading exceeds a limit. -/
def alarm : TypedExpr :=
  .seq ⟨.void, 1⟩
    (.assign ⟨.void, 1⟩ "level"
      (.binary ⟨.int, 1⟩ .add (.var ⟨.int, 1⟩ "level") (.lit ⟨.int, 1⟩ (.int 1))))
    (.cond ⟨.void, 2⟩
      (.binary ⟨.bool, 2⟩ .lt (.var ⟨.int, 2⟩ "limit") (.call ⟨.int, 2⟩ "sense" []))
      (.call ⟨.void, 3⟩ "beep" [.var ⟨.int, 3⟩ "level"])
      (.call ⟨.void, 4⟩ "rest" []))

def alarmStart : Machine Recorder :=
  ⟨⟨[("level", .int 0), ("limit", .int 3)]⟩, .start ⟨[("sense", .int 5)]⟩⟩

theorem alarm_hoistable : alarm.Hoistable {"sense"} alarmStart where
  targets := by decide
  callees := by decide
  seq m a b h := by
    simp only [alarm, subterms, subtermsList, List.mem_cons, List.mem_append, List.not_mem_nil,
      reduceCtorEq, seq.injEq, or_false] at h
    obtain ⟨-, rfl, rfl⟩ := h
    decide
  binary m op a b h := by
    simp only [alarm, subterms, subtermsList, List.mem_cons, List.mem_append, List.not_mem_nil,
      reduceCtorEq, binary.injEq, or_false, false_or] at h
    obtain ⟨-, -, rfl, rfl⟩ | ⟨-, -, rfl, rfl⟩ := h <;> decide
  args m f args h := by
    simp only [alarm, subterms, subtermsList, List.mem_cons, List.mem_append, List.not_mem_nil,
      reduceCtorEq, call.injEq, or_false, false_or] at h
    obtain (⟨-, -, rfl⟩ | ⟨-, -, rfl⟩) | ⟨-, -, rfl⟩ := h <;> decide
  typed := List.forall_mem_singleton.2
    ⟨.binary rfl ⟨rfl, rfl⟩ (.var rfl) (.call rfl nofun), rfl⟩
  bound := List.forall_mem_singleton.2 <| by
    intro m x hx
    simp only [subterms, subtermsList, List.mem_cons, List.mem_append, List.not_mem_nil,
      reduceCtorEq, var.injEq, or_false, false_or] at hx
    obtain ⟨rfl, rfl⟩ := hx
    exact ⟨.int 3, rfl, rfl⟩
  readings := List.forall_mem_singleton.2 <| by
    intro m f args hf v hv
    simp only [subterms, subtermsList, List.mem_cons, List.mem_append, List.not_mem_nil,
      reduceCtorEq, call.injEq, or_false, false_or] at hf
    obtain ⟨rfl, rfl, -⟩ := hf
    cases hv
    rfl

theorem alarm_runRules :
    alarm.Hoistable {"sense"} alarmStart ∧
      (∃ i, ((runRules Recorder.host alarm.rules).run alarmStart).1 = .ok i) ∧
      ((runRules Recorder.host alarm.rules).run alarmStart).2.memory =
        ((alarm.eval Recorder.host).run alarmStart).2.memory := by
  obtain ⟨hok, hmemory, -⟩ := alarm_hoistable.runRules_eval
  exact ⟨alarm_hoistable, hok.1 ⟨.void, rfl⟩, hmemory.symm⟩

end Expr

end Rulebook
