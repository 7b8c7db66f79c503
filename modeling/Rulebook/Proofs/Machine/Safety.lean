import Rulebook.Proofs.Machine.Ends
import Rulebook.Proofs.Typing.Lowering
import Rulebook.Proofs.Typing.Rules

/-!
# Compiled programs do not go wrong

A well-typed expression, on a memory that holds the variables of its context and with a host that
answers calls by values of the type asked for, evaluates to a value of its type and leaves such a
memory (`WellTyped.eval_ends`). So do its rules (`WellTyped.runRules_ends`), of which one always
applies. A compiled first-order program therefore runs to its end, and its rules can be run any
number of times (`RawProgram.compile_safe`).
-/

namespace Rulebook

variable {σ : Type}

/-! ## Hosts and memories -/

/-- In the states of `good`, which it does not leave, the host answers the calls of the functions
of `calls` by values of their return types. -/
def Host.Answers (h : Host σ) (calls : String → List Ty → Ty → Prop) (good : σ → Prop) : Prop :=
  ∀ f args t world, calls f (args.map Value.ty) t → good world →
    (h.call f args t world).1.ty = t ∧ good (h.call f args t world).2

/-- From the state `world` on, the host answers the calls of the functions of `calls` by values of
their return types. -/
def Host.AnswersFrom (h : Host σ) (calls : String → List Ty → Ty → Prop) (world : σ) : Prop :=
  ∃ good : σ → Prop, good world ∧ h.Answers calls good

theorem Host.Answers.mono {h : Host σ} {calls calls' : String → List Ty → Ty → Prop}
    {good : σ → Prop} (hh : h.Answers calls good)
    (hcalls : ∀ f ts t, calls' f ts t → calls f ts t) : h.Answers calls' good :=
  fun f args t world hf => hh f args t world (hcalls _ _ _ hf)

/-- A recorder answers well if its readings are of the right types. -/
theorem Recorder.host_answers {calls : String → List Ty → Ty → Prop} {readings : Bindings Value}
    (hprim : ∀ f ts t, calls f ts t → t.isPrimitive)
    (hreadings : ∀ f v ts t, readings.find? f = some v → calls f ts t → v.ty = t) :
    host.Answers calls fun r => r.readings = readings := by
  rintro f args t r hf rfl
  refine ⟨?_, rfl⟩
  change ((r.readings.find? f).getD (.ofTy t)).ty = t
  cases hv : r.readings.find? f with
  | some v => exact hreadings f v _ t hv hf
  | none => exact Value.ty_ofTy (hprim f _ t hf)

/-- The memory holds the names of `names`, each with a value of its type, and no other. -/
def Memory.Holds (m : Memory) (names : String → Ty → Prop) : Prop :=
  ∀ x t, names x t ↔ ∃ v, m.find? x = some v ∧ v.ty = t

theorem Memory.Holds.set {m : Memory} {names : String → Ty → Prop} (hm : m.Holds names)
    {x : String} {v : Value} (hx : names x v.ty) : Memory.Holds (m.set x v) names := by
  intro y t
  rw [Bindings.find?_set]
  split
  · next hy =>
    subst hy
    constructor
    · intro hy
      obtain ⟨w, hw, rfl⟩ := (hm y t).1 hy
      obtain ⟨w', hw', hty⟩ := (hm y v.ty).1 hx
      rw [hw] at hw'
      cases hw'
      exact ⟨v, rfl, hty.symm⟩
    · rintro ⟨w, hw, rfl⟩
      cases hw
      exact hx
  · exact hm y t

/-- A variable that comes into memory. -/
theorem Memory.Holds.set_new {m : Memory} {n : ℕ} (hm : m.Holds (numbered n)) (k : Int32) :
    Memory.Holds (m.set (FreshNames.name n) (.int k)) (numbered (n + 1)) := by
  intro y t
  rw [Bindings.find?_set]
  split
  · next hy =>
    subst hy
    constructor
    · rintro ⟨rfl, -⟩
      exact ⟨_, rfl, rfl⟩
    · rintro ⟨w, hw, rfl⟩
      cases hw
      exact ⟨rfl, n, Nat.lt_succ_self n, rfl⟩
  · next hy =>
    rw [← hm y t]
    constructor
    · rintro ⟨rfl, i, hi, rfl⟩
      refine ⟨rfl, i, ?_, rfl⟩
      have : i ≠ n := fun h => hy (h ▸ rfl)
      omega
    · exact numbered_mono (Nat.le_succ n)

/-- The memory holds the names of `names`, and the host is in a state of `good`. -/
structure Machine.Ready (m : Machine σ) (names : String → Ty → Prop) (good : σ → Prop) : Prop where
  memory : m.memory.Holds names
  world : good m.world

/-! ## Expressions and rules -/

section

variable {h : Host σ} {names : String → Ty → Prop} {calls : String → List Ty → Ty → Prop}
  {good : σ → Prop}

/-- **A well-typed expression evaluates to a value of its type.** -/
theorem Expr.WellTyped.eval_ends (hh : h.Answers calls good) {e : TypedExpr}
    (he : e.WellTyped (.of names calls)) {m : Machine σ} (hm : m.Ready names good) :
    (e.eval h).Ends m fun v m' => v.ty = e.ty ∧ m'.Ready names good := by
  induction he generalizing m with
  | lit hty =>
    exact .pure ⟨(Value.ty_ofLiteral _).trans hty.symm, hm⟩
  | @var mark x hx =>
    obtain ⟨v, hv, hty⟩ := (hm.memory x mark.ty).1 hx
    exact .load mark.line hv ⟨hty, hm⟩
  | not hty ht _ ih =>
    refine (ih hm).bind fun v m₁ hv => ?_
    refine .bind (P := fun _ m' => m'.Ready names good) (.truth (hv.1.trans ht) ?_) ?_
    · exact fun b _ => hv.2
    · exact fun b m₂ hm₂ => .pure ⟨hty.symm, hm₂⟩
  | @call mark f args hf _ ih =>
    rw [eval, evalArgs_eq_mapM]
    refine EvalM.Ends.bind (EvalM.Ends.mapM (R := fun a v => v.ty = a.ty)
      (I := fun m => m.Ready names good) (fun a ha m hm => ih a ha hm) hm) fun vs m₁ hvs => ?_
    have htys : vs.map Value.ty = args.map ty := by
      rw [← List.forall₂_eq_eq_eq, List.forall₂_map_left_iff, List.forall₂_map_right_iff]
      exact hvs.1.flip
    obtain ⟨hty, hworld⟩ := hh f vs mark.ty m₁.world (htys ▸ hf) hvs.2.world
    exact ⟨_, _, EvalM.run_call h f vs mark.ty m₁, hty, hvs.2.memory, hworld⟩
  | @binary mark op l r hty ht _ _ ihl ihr =>
    refine (ihl hm).bind fun a m₁ ha => (ihr ha.2).bind fun b m₂ hb => ?_
    obtain ⟨v, hv, hvt⟩ := Operator.onValues?_of_takes (ha.1 ▸ hb.1 ▸ ht)
    rw [hv]
    exact .pure ⟨(Value.ty_ofLiteral v).trans (hvt.trans hty.symm), hb.2⟩
  | cond hc ht hel _ _ _ ihc iht ihe =>
    refine (ihc hm).bind fun v m₁ hv => ?_
    refine .bind (P := fun _ m' => m'.Ready names good) (.truth (hv.1.trans hc) ?_) ?_
    · exact fun b _ => hv.2
    · intro b m₂ hm₂
      cases b with
      | true => exact (iht hm₂).imp fun a m' ha => ⟨ha.1.trans ht, ha.2⟩
      | false => exact (ihe hm₂).imp fun a m' ha => ⟨ha.1.trans hel, ha.2⟩
  | assign hty hx _ ih =>
    refine (ih hm).bind fun v m₁ hv => ?_
    refine .bind (P := fun _ m' => m'.Ready names good) (.store ?_) ?_
    · exact ⟨hv.2.memory.set (hv.1 ▸ hx), hv.2.world⟩
    · exact fun _ m₂ hm₂ => .pure ⟨hty.symm, hm₂⟩
  | seq hty _ _ _ _ iha ihb =>
    refine (iha hm).bind fun v m₁ hv => (ihb hv.2).bind fun w m₂ hw => ?_
    exact .pure ⟨hty.symm, hw.2⟩

theorem Expr.WellTypedTest.evalBool_ends (hh : h.Answers calls good) {c : TypedExpr}
    (hc : c.WellTypedTest (.of names calls)) {m : Machine σ} (hm : m.Ready names good) :
    (c.evalBool h).Ends m fun _ m' => m'.Ready names good :=
  (hc.1.eval_ends hh hm).bind fun _ _ hv => .truth (hv.1.trans hc.2) fun _ _ => hv.2

/-- Rules succeed if the last of them always applies. -/
theorem runRulesFrom_ends (hh : h.Answers calls good) {rs : List Rule} {line : Line}
    {action : TypedExpr}
    (hrs : ∀ r ∈ rs ++ [⟨.literal (.bool true) line, action⟩],
      r.condition.WellTypedTest (.of names calls) ∧ r.action.WellTyped (.of names calls))
    (i : ℕ) {m : Machine σ} (hm : m.Ready names good) :
    (runRulesFrom h i (rs ++ [⟨.literal (.bool true) line, action⟩])).Ends m
      fun _ m' => m'.Ready names good := by
  induction rs generalizing i m with
  | nil =>
    have haction := (hrs _ List.mem_cons_self).2.eval_ends hh hm
    exact haction.bind fun _ m₁ hv => .pure hv.2
  | cons r rs ih =>
    obtain ⟨hcond, haction⟩ := hrs r List.mem_cons_self
    refine (hcond.evalBool_ends hh hm).bind fun b m₁ hm₁ => ?_
    cases b with
    | true => exact (haction.eval_ends hh hm₁).bind fun _ m₂ hv => .pure hv.2
    | false => exact ih (fun r hr => hrs r (List.mem_cons_of_mem _ hr)) (i + 1) hm₁

/-- **The rules of a well-typed expression succeed.** -/
theorem Expr.WellTyped.runRules_ends (hh : h.Answers calls good) {e : TypedExpr}
    (he : e.WellTyped (.of names calls)) {m : Machine σ} (hm : m.Ready names good) :
    (runRules h e.rules).Ends m fun _ m' => m'.Ready names good := by
  obtain ⟨rs, line, action, hrs⟩ := e.decision.rules_eq_append
  have hrules : ∀ r ∈ e.rules,
      r.condition.WellTypedTest (.of names calls) ∧ r.action.WellTyped (.of names calls) :=
    fun r hr => ⟨(he.rules hr).1, (he.rules hr).2.1⟩
  rw [Expr.rules, hrs] at hrules ⊢
  exact runRulesFrom_ends hh hrules 0 hm

/-- Runs rules a number of times. -/
def runRulesTimes (h : Host σ) (rules : List Rule) : ℕ → EvalM σ Unit
  | 0 => return ()
  | k + 1 => do
    let _ ← runRules h rules
    runRulesTimes h rules k

theorem Expr.WellTyped.runRulesTimes_ends (hh : h.Answers calls good) {e : TypedExpr}
    (he : e.WellTyped (.of names calls)) (k : ℕ) {m : Machine σ} (hm : m.Ready names good) :
    (runRulesTimes h e.rules k).Ends m fun _ m' => m'.Ready names good := by
  induction k generalizing m with
  | zero => exact .pure hm
  | succ k ih => exact (he.runRules_ends hh hm).bind fun _ m₁ hm₁ => ih hm₁

end

/-! ## Programs -/

/-- Giving numbered variables their initial values brings them into memory. -/
theorem Numbered.initVariables_ends {h : Host σ} {calls : String → List Ty → Ty → Prop}
    {good : σ → Prop} (hh : h.Answers calls good) {k : ℕ} {vs : List (VarDecl Mark)}
    (hvs : Numbered calls k vs) {m : Machine σ} (hm : m.Ready (numbered k) good) :
    (initVariables h vs).Ends m fun _ m' => m'.Ready (numbered (k + vs.length)) good := by
  induction vs generalizing k m with
  | nil => exact .pure hm
  | cons v vs ih =>
    obtain ⟨⟨hname, htyped, hty⟩, hvs⟩ := hvs
    refine (htyped.eval_ends hh hm).bind fun value m₁ hv => ?_
    obtain ⟨n, rfl⟩ := Value.ty_eq_int.1 (hv.1.trans hty)
    refine .bind (P := fun _ m' => m'.Ready (numbered (k + 1)) good) (.store ?_) ?_
    · rw [hname]
      exact ⟨hv.2.memory.set_new n, hv.2.world⟩
    · intro _ m₂ hm₂
      rw [List.length_cons, ← Nat.add_assoc, Nat.add_right_comm]
      exact ih hvs hm₂

/-- The memory holds exactly the variables numbered below `n`, each with an integer. -/
structure Memory.HoldsIntegers (m : Memory) (n : ℕ) : Prop where
  bound_iff : ∀ x, (∃ v, m.find? x = some v) ↔ ∃ i < n, x = FreshNames.name i
  integer : ∀ x v, m.find? x = some v → ∃ k, v = .int k

theorem Memory.Holds.integers {m : Memory} {n : ℕ} (h : m.Holds (numbered n)) :
    m.HoldsIntegers n where
  bound_iff x := by
    constructor
    · rintro ⟨v, hv⟩
      exact ((h x v.ty).2 ⟨v, hv, rfl⟩).2
    · intro hx
      obtain ⟨v, hv, -⟩ := (h x .int).1 ⟨rfl, hx⟩
      exact ⟨v, hv⟩
  integer x v hv := Value.ty_eq_int.1 ((h x v.ty).2 ⟨v, hv, rfl⟩).1

namespace LoweredProgram.WellFormed

variable {q : LoweredProgram} {offered provided : String → List Ty → Ty → Prop} {h : Host σ}
  {good : σ → Prop}

/-- The variables of a well-formed program get their initial values. -/
theorem init_ends (hq : q.WellFormed offered provided) (hh : h.Answers offered good) {world : σ}
    (hworld : good world) :
    (initVariables h q.variables).Ends ⟨.empty, world⟩
      fun _ m => m.Ready (numbered q.variables.length) good := by
  have hempty : (⟨.empty, world⟩ : Machine σ).Ready (numbered 0) good := by
    refine ⟨fun x t => ⟨?_, ?_⟩, hworld⟩
    · rintro ⟨-, i, hi, -⟩
      exact absurd hi (Nat.not_lt_zero i)
    · rintro ⟨v, hv, -⟩
      simp at hv
  simpa only [Nat.zero_add] using hq.variables_numbered.initVariables_ends hh hempty

/-- A well-formed program runs to its end. -/
theorem run_ends (hq : q.WellFormed offered provided) (ho : h.Answers offered good)
    (hp : h.Answers provided good) {world : σ} (hworld : good world) :
    EvalM.Ends (do initVariables h q.variables; q.main.eval h) ⟨.empty, world⟩
      fun _ m => m.Ready (numbered q.variables.length) good :=
  (hq.init_ends ho hworld).bind fun _ _ hm => (hq.main_typed.eval_ends hp hm).imp fun _ _ hv => hv.2

end LoweredProgram.WellFormed

theorem EvalM.Ends.fromEmpty {x : EvalM σ α} {world : σ} {Q : α → Machine σ → Prop}
    (h : x.Ends ⟨.empty, world⟩ Q) :
    ∃ a m, EvalM.fromEmpty x world = (.ok m.memory, m.world) ∧ Q a m := by
  obtain ⟨a, m, hx, hQ⟩ := h
  exact ⟨a, m, by rw [EvalM.fromEmpty, hx], hQ⟩

/-- **Compiled programs do not go wrong.** A first-order program that compiles, with a host that
answers by values of the types asked for, runs to its end; and from its initial memory, its rules
can be run any number of times. Its memory always holds exactly its variables, with integers. -/
theorem RawProgram.compile_safe {p : RawProgram} {lib : Option Library} {options : Options}
    {q : LoweredProgram} (hfo : p.FirstOrder lib) (hq : (p.compile lib options).result = .ok q)
    {h : Host σ} {world : σ} (hh : h.AnswersFrom (p.Provides lib) world) :
    (∃ m w, q.run h world = (.ok m, w) ∧ m.HoldsIntegers p.variables.length) ∧
      ∃ m w, initialMemory h q.variables world = (.ok m, w) ∧
        m.HoldsIntegers p.variables.length ∧
        ∀ k, ∃ m' : Machine σ, (runRulesTimes h q.main.rules k).run ⟨m, w⟩ = (.ok (), m') ∧
          m'.memory.HoldsIntegers p.variables.length := by
  obtain ⟨good, hworld, hh⟩ := hh
  obtain ⟨hwf, -, hlines⟩ := compile_wellFormed hfo hq
  have hlen : q.variables.length = p.variables.length := by simpa using congrArg List.length hlines
  have ho : h.Answers (Offers lib) good := hh.mono fun _ _ _ => .inl
  rw [← hlen]
  constructor
  · obtain ⟨-, m, hrun, hm⟩ := (hwf.run_ends ho hh hworld).fromEmpty
    exact ⟨m.memory, m.world, hrun, hm.memory.integers⟩
  · obtain ⟨-, m, hinit, hm⟩ := (hwf.init_ends ho hworld).fromEmpty
    refine ⟨m.memory, m.world, hinit, hm.memory.integers, fun k => ?_⟩
    obtain ⟨_, m', hticks, hm'⟩ := hwf.main_typed.runRulesTimes_ends hh k hm
    exact ⟨m', hticks, hm'.memory.integers⟩

/-- The recorder answers the calls of the sample program. -/
theorem RawProgram.counter_answers :
    Recorder.host.AnswersFrom (counter.Provides (some counterLibrary))
      (.start ⟨[("sense", .int 5)]⟩) := by
  refine ⟨fun r => r.readings = ⟨[("sense", .int 5)]⟩, rfl, Recorder.host_answers ?_ ?_⟩
  · intro f ts t hf
    exact primitive_of_provides (by decide) (by rfl) hf
  · rintro f v ts t hv (⟨_, ⟨⟩, op, hop, rfl, rfl, rfl⟩ | ⟨g, hg, hbody, -⟩)
    · simp only [counterLibrary, List.mem_cons, List.not_mem_nil, or_false] at hop
      rcases hop with rfl | rfl <;> cases hv
      rfl
    · simp only [counter, List.mem_cons, List.not_mem_nil, or_false] at hg
      rcases hg with rfl | rfl <;> cases hbody

theorem RawProgram.counter_safe :
    ∃ q, (counter.compile (some counterLibrary) {}).result = .ok q ∧
      (∃ m w, q.run Recorder.host (.start ⟨[("sense", .int 5)]⟩) = (.ok m, w) ∧
        m.HoldsIntegers 2) ∧
      ∃ m w, initialMemory Recorder.host q.variables (.start ⟨[("sense", .int 5)]⟩) = (.ok m, w) ∧
        m.HoldsIntegers 2 ∧
        ∀ k, ∃ m' : Machine Recorder,
          (runRulesTimes Recorder.host q.main.rules k).run ⟨m, w⟩ = (.ok (), m') ∧
          m'.memory.HoldsIntegers 2 := by
  obtain ⟨q, hq⟩ : ∃ q, (counter.compile (some counterLibrary) {}).result = .ok q := ⟨_, by rfl⟩
  exact ⟨q, hq, compile_safe (by decide) hq counter_answers⟩

end Rulebook
