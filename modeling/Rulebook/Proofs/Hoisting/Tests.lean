import Mathlib.Data.Set.Insert
import Rulebook.Proofs.Hoisting.Choice
import Rulebook.Proofs.Machine.Ends
import Rulebook.Proofs.Occurrence

/-!
# Tests without effect

A test that assigns nothing, that reads variables which memory holds with the types it expects, and
that calls only operations of a set `S`, whose readings have the types it expects, has the same
truth value on all machines that agree with a first one on what it reads, and leaves no trace
outside the calls of `S`:

* `Machine.Matches` compares machines up to the recorded calls of `S`;
* `Machine.truth` is the truth value of a test on a machine;
* `WellTypedTest.eval_truth`: the test evaluates to it wherever its variables have kept their
  values;
* `Machine.valuation`: truth values go with conjunction.
-/

namespace Rulebook

variable {m n k : Machine Recorder} {S : Set String}

/-! ## Machines that agree -/

namespace Machine

/-- The names of `P` and all readings are on the second machine what they are on the first. -/
structure Agree (P : String → Prop) (m n : Machine Recorder) : Prop where
  memory : ∀ x, P x → n.memory.find? x = m.memory.find? x
  readings : n.world.readings = m.world.readings

namespace Agree

variable {P Q R : String → Prop}

theorem refl (P : String → Prop) (m : Machine Recorder) : m.Agree P m := ⟨fun _ _ => rfl, rfl⟩

theorem mono (h : m.Agree P n) (hQ : ∀ x, Q x → P x) : m.Agree Q n :=
  ⟨fun x hx => h.memory x (hQ x hx), h.readings⟩

theorem trans (h : m.Agree P n) (h' : n.Agree Q k) (hP : ∀ x, R x → P x) (hQ : ∀ x, R x → Q x) :
    m.Agree R k :=
  ⟨fun x hx => (h'.memory x (hQ x hx)).trans (h.memory x (hP x hx)),
    h'.readings.trans h.readings⟩

end Agree

variable [DecidablePred (· ∈ S)]

/-- The machines differ at most in the calls of `S` that they have recorded. -/
structure Matches (S : Set String) [DecidablePred (· ∈ S)] (m n : Machine Recorder) : Prop where
  memory : m.memory = n.memory
  readings : m.world.readings = n.world.readings
  log : (m.world.log.filter fun r => r.name ∉ S) = n.world.log.filter fun r => r.name ∉ S

namespace Matches

theorem refl (m : Machine Recorder) : m.Matches S m := ⟨rfl, rfl, rfl⟩

theorem symm (h : m.Matches S n) : n.Matches S m := ⟨h.memory.symm, h.readings.symm, h.log.symm⟩

theorem trans (h : m.Matches S n) (h' : n.Matches S k) : m.Matches S k :=
  ⟨h.memory.trans h'.memory, h.readings.trans h'.readings, h.log.trans h'.log⟩

theorem agree (h : m.Matches S n) (P : String → Prop) : m.Agree P n :=
  ⟨fun _ _ => by rw [h.memory], h.readings.symm⟩

/-- Machines that match up to no call have the same log. -/
theorem log_eq (h : m.Matches S n) (hS : S = ∅) : m.world.log = n.world.log := by
  have hall : ∀ log : List CallRecord, (log.filter fun r => r.name ∉ S) = log := fun log =>
    List.filter_eq_self.2 fun r _ => decide_eq_true fun hr => by rwa [hS] at hr
  rw [← hall m.world.log, h.log, hall]

end Matches

theorem Agree.matches {P : String → Prop} (h : m.Agree P n) (h' : n.Matches S k) : m.Agree P k :=
  h.trans (h'.agree P) (fun _ hx => hx) fun _ hx => hx

end Machine

/-! ## Values of tests -/

/-- What a test may take from the machine it starts on. -/
def Context.settled (S : Set String) (start : Machine Recorder) : Context where
  reads x t := ∃ v, start.memory.find? x = some v ∧ v.ty = t
  writes _ _ := False
  calls f _ t := f ∈ S ∧ t.isPrimitive ∧
    ∀ v, start.world.readings.find? f = some v → v.ty = t

section

variable {start : Machine Recorder} [DecidablePred (· ∈ S)]

/-- On every machine that agrees with the first on what the expression reads, the expression
evaluates to `v` and leaves no trace outside the calls of `S`. -/
def Expr.Settled (S : Set String) [DecidablePred (· ∈ S)] (start : Machine Recorder)
    (e : TypedExpr) (v : Value) : Prop :=
  ∀ n, start.Agree (· ∈ e.reads) n →
    (e.eval Recorder.host).Ends n fun v' n' => v' = v ∧ n.Matches S n'

/-- A call of an operation of `S` leaves no trace outside these calls. -/
theorem Recorder.call_ends {f : String} (hf : f ∈ S) (args : List Value) (t : Ty)
    (hn : start.Agree (fun _ => False) n) :
    (EvalM.call host f args t).Ends n fun v n' =>
      v = (start.world.readings.find? f).getD (.ofTy t) ∧ n.Matches S n' := by
  refine ⟨_, _, EvalM.run_call host f args t n, ?_, rfl, rfl, ?_⟩
  · rw [← hn.readings]
    rfl
  · change _ = List.filter _ (n.world.log ++ [⟨f, args⟩])
    simp [List.filter_append, hf]

/-- Arguments that are settled one by one are settled together. -/
theorem Expr.Settled.mapM {args : List TypedExpr} {vs : List Value}
    (h : List.Forall₂ (Settled S start) args vs)
    (hn : ∀ a ∈ args, start.Agree (· ∈ a.reads) n) :
    (args.mapM (eval Recorder.host)).Ends n fun vs' n' => vs' = vs ∧ n.Matches S n' := by
  induction h generalizing n with
  | nil => exact .pure ⟨rfl, .refl n⟩
  | @cons a v args vs ha _ ih =>
    rw [List.mapM_cons]
    refine (ha n (hn a List.mem_cons_self)).bind fun v' n₁ hv => ?_
    have hn₁ : ∀ b ∈ args, start.Agree (· ∈ b.reads) n₁ := fun b hb =>
      (hn b (List.mem_cons_of_mem _ hb)).matches hv.2
    refine (ih hn₁).bind fun vs' n₂ hvs => .pure ⟨?_, hv.2.trans hvs.2⟩
    rw [hv.1, hvs.1]

theorem Expr.Settled.call {mark : Mark} {f : String} {args : List TypedExpr} {vs : List Value}
    (hf : f ∈ S) (h : List.Forall₂ (Settled S start) args vs) :
    (Expr.call mark f args).Settled S start
      ((start.world.readings.find? f).getD (.ofTy mark.ty)) := by
  intro n hn
  have hargs : ∀ a ∈ args, start.Agree (· ∈ a.reads) n := by
    refine fun a ha => hn.mono fun x hx => ?_
    rw [reads, collect_call]
    exact List.mem_flatMap.2 ⟨a, ha, hx⟩
  rw [eval, evalArgs_eq_mapM]
  refine (Settled.mapM h hargs).bind fun vs' n₁ hvs' => ?_
  refine (Recorder.call_ends hf vs' mark.ty ((hn.matches hvs'.2).mono nofun)).imp ?_
  exact fun v n₂ hv => ⟨hv.1, hvs'.2.trans hv.2⟩

theorem Expr.Settled.cond {mark : Mark} {c t e : TypedExpr} {b : Bool} {v w : Value}
    (hc : c.Settled S start (.bool b)) (ht : t.Settled S start v) (he : e.Settled S start w) :
    (Expr.cond mark c t e).Settled S start (if b then v else w) := by
  intro n hn
  refine (hc n (hn.mono fun x hx => by simp [hx])).bind fun v' n₁ hv' => ?_
  rw [hv'.1]
  cases b with
  | true =>
    refine (ht n₁ ((hn.mono fun x hx => by simp [hx]).matches hv'.2)).imp ?_
    exact fun w n₂ hw => ⟨hw.1, hv'.2.trans hw.2⟩
  | false =>
    refine (he n₁ ((hn.mono fun x hx => by simp [hx]).matches hv'.2)).imp ?_
    exact fun w n₂ hw => ⟨hw.1, hv'.2.trans hw.2⟩

/-- **A test is settled from the start.** -/
theorem Expr.WellTyped.settled {e : TypedExpr} (h : e.WellTyped (.settled S start)) :
    ∃ v, v.ty = e.ty ∧ e.Settled S start v := by
  induction h with
  | @lit mark v hty =>
    exact ⟨.ofLiteral v, (Value.ty_ofLiteral v).trans hty.symm, fun n _ => .pure ⟨rfl, .refl n⟩⟩
  | @var mark x hx =>
    obtain ⟨v, hv, hty⟩ := hx
    refine ⟨v, hty, fun n hn => .load mark.line ?_ ⟨rfl, .refl n⟩⟩
    rw [hn.memory x (by simp), hv]
  | not hty ht _ ih =>
    obtain ⟨v, hv, hsettled⟩ := ih
    obtain ⟨b, rfl⟩ := Value.ty_eq_bool.1 (hv.trans ht)
    refine ⟨.bool !b, hty.symm, fun n hn => ?_⟩
    refine (hsettled n (hn.mono fun x hx => ?_)).bind fun v' n₁ hv' => ?_
    · simpa using hx
    · rw [hv'.1]
      exact .pure ⟨rfl, hv'.2⟩
  | @call mark f args hf _ ih =>
    obtain ⟨hfS, hprim, hreading⟩ := hf
    obtain ⟨vs, hvs⟩ := exists_forall₂ ih
    refine ⟨_, ?_, .call hfS (hvs.imp fun _ _ h => h.2)⟩
    cases hv : start.world.readings.find? f with
    | some v => exact hreading v hv
    | none => exact Value.ty_ofTy hprim
  | @binary mark op l r hty ht _ _ ihl ihr =>
    obtain ⟨a, ha, hl⟩ := ihl
    obtain ⟨b, hb, hr⟩ := ihr
    obtain ⟨v, hv, hvt⟩ := Operator.onValues?_of_takes (ha ▸ hb ▸ ht)
    refine ⟨.ofLiteral v, (Value.ty_ofLiteral v).trans (hvt.trans hty.symm), fun n hn => ?_⟩
    refine (hl n (hn.mono fun x hx => by simp [hx])).bind fun a' n₁ ha' => ?_
    refine (hr n₁ ((hn.mono fun x hx => by simp [hx]).matches ha'.2)).bind fun b' n₂ hb' => ?_
    rw [ha'.1, hb'.1, hv]
    exact .pure ⟨rfl, ha'.2.trans hb'.2⟩
  | cond hc ht he _ _ _ ihc iht ihe =>
    obtain ⟨v, hv, hvc⟩ := ihc
    obtain ⟨b, rfl⟩ := Value.ty_eq_bool.1 (hv.trans hc)
    obtain ⟨v₁, hv₁, hvt⟩ := iht
    obtain ⟨v₂, hv₂, hve⟩ := ihe
    refine ⟨_, ?_, hvc.cond hvt hve⟩
    cases b with
    | true => exact hv₁.trans ht
    | false => exact hv₂.trans he
  | assign _ hx _ _ => exact hx.elim
  | seq hty _ _ _ _ iha ihb =>
    obtain ⟨v, -, hva⟩ := iha
    obtain ⟨w, -, hwb⟩ := ihb
    refine ⟨.void, hty.symm, fun n hn => ?_⟩
    refine (hva n (hn.mono fun x hx => by simp [hx])).bind fun v' n₁ hv' => ?_
    refine (hwb n₁ ((hn.mono fun x hx => by simp [hx]).matches hv'.2)).bind fun w' n₂ hw' => ?_
    exact .pure ⟨rfl, hv'.2.trans hw'.2⟩

/-- The truth value of a test. -/
def Machine.truth (start : Machine Recorder) (c : TypedExpr) : Bool :=
  match (c.evalBool Recorder.host).run start with
  | (.ok b, _) => b
  | (.error _, _) => false

theorem Machine.truth_eq {c : TypedExpr} {b : Bool}
    (h : (c.eval Recorder.host).Ends start fun v _ => v = .bool b) : start.truth c = b := by
  obtain ⟨v, n, hrun, rfl⟩ := h
  rw [truth, Expr.evalBool, EvalM.run_bind, hrun]
  rfl

theorem Expr.WellTypedTest.eval_truth {c : TypedExpr} (h : c.WellTypedTest (.settled S start))
    (hn : start.Agree (· ∈ c.reads) n) :
    (c.eval Recorder.host).Ends n fun v n' => v = .bool (start.truth c) ∧ n.Matches S n' := by
  obtain ⟨v, hv, hsettled⟩ := h.1.settled
  obtain ⟨b, rfl⟩ := Value.ty_eq_bool.1 (hv.trans h.2)
  have hstart := (hsettled start (.refl _ start)).imp fun _ _ hv => hv.1
  rw [Machine.truth_eq hstart]
  exact hsettled n hn

/-- The truth values of the tests of a machine. -/
def Machine.valuation (S : Set String) [DecidablePred (· ∈ S)] (start : Machine Recorder) :
    Valuation (Expr.WellTypedTest (.settled S start)) where
  holds := start.truth
  true_mem _ := ⟨.lit rfl, rfl⟩
  and_mem _ _ _ := .and
  holds_true c _ htrue := by
    cases c with
    | lit mark v =>
      obtain rfl : v = .bool true := by simpa [Expr.isTrueLiteral, Expr.literal?] using htrue
      rfl
    | _ => cases htrue
  holds_and a b line ha hb := by
    refine truth_eq ((ha.eval_truth (.refl _ start)).bind fun v n hv => ?_)
    refine (hb.eval_truth (hv.2.agree _)).bind fun w k hw => ?_
    rw [hv.1, hw.1]
    exact .pure rfl

end

end Rulebook
