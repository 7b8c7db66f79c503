import Rulebook.Proofs.Expansion.Recursion
import Rulebook.Proofs.Machine.Alike

/-!
# Enough depth is enough

What lies beyond the bound of a recursion matters only to runs that come there. To see whether a run
does, let the value beyond the bound be a call of some function `k`: a recording host then writes
down that call. If there is none in the log, the function with any larger depth, and any value
beyond it, does the same (`expandRecursion_enough`).

The two functions differ only at calls of the function itself that the first has left: the second is
the first with the outermost of these calls replaced by something (`Expr.Cuts`). The runs are
compared by `EvalM.SameUnless`.
-/

namespace Rulebook

/-- How many calls of `k` a recorder has seen. -/
def Recorder.callsTo (k : String) (r : Recorder) : ℕ := r.log.countP (·.name = k)

variable {α β : Type} {k : String}

/-! ## Runs without a call -/

namespace EvalM

/-- The first computation takes back no call of `k`, and where it makes none, the second does the
same. -/
def SameUnless (k : String) (x y : EvalM Recorder α) : Prop :=
  ∀ m, m.world.callsTo k ≤ (x.run m).2.world.callsTo k ∧
    ((x.run m).2.world.callsTo k = m.world.callsTo k → y.run m = x.run m)

namespace SameUnless

theorem self {x y : EvalM Recorder α} (h : SameUnless k x y) : SameUnless k x x :=
  fun m => ⟨(h m).1, fun _ => rfl⟩

/-- A computation that leaves the host alone. -/
theorem of_world {x : EvalM Recorder α} (h : ∀ m, (x.run m).2.world = m.world) :
    SameUnless k x x :=
  fun m => ⟨Nat.le_of_eq (by rw [h m]), fun _ => rfl⟩

theorem pure (a : α) : SameUnless k (Pure.pure a : EvalM Recorder α) (Pure.pure a) :=
  of_world fun _ => rfl

theorem throw (e : RunError) : SameUnless k (throw e : EvalM Recorder α) (throw e) :=
  of_world fun _ => rfl

theorem truth (e : TypedExpr) (v : Value) :
    SameUnless k (truth e v : EvalM Recorder Bool) (EvalM.truth e v) := by
  cases v with
  | bool b => exact .pure b
  | void | int => exact .throw _

theorem bind {x y : EvalM Recorder α} {f g : α → EvalM Recorder β} (h : SameUnless k x y)
    (hfg : ∀ a, SameUnless k (f a) (g a)) : SameUnless k (x >>= f) (y >>= g) := by
  intro m
  obtain ⟨hle, hsame⟩ := h m
  rw [run_bind, run_bind]
  rcases hx : x.run m with ⟨e | a, m'⟩
  · rw [hx] at hle hsame
    refine ⟨hle, fun heq => ?_⟩
    rw [hsame heq]
  · rw [hx] at hle hsame
    obtain ⟨hle', hsame'⟩ := hfg a m'
    dsimp only at hle hsame ⊢
    refine ⟨Nat.le_trans hle hle', fun heq => ?_⟩
    -- neither the first step nor the rest has made a call
    rw [hsame (by omega)]
    exact hsame' (by omega)

theorem mapM {as : List α} {bs : List β} {γ : Type} {f : α → EvalM Recorder γ}
    {g : β → EvalM Recorder γ} (h : List.Forall₂ (fun a b => SameUnless k (f a) (g b)) as bs) :
    SameUnless k (as.mapM f) (bs.mapM g) := by
  induction h with
  | nil => exact .pure []
  | cons hab _ ih =>
    rw [List.mapM_cons, List.mapM_cons]
    exact hab.bind fun c => ih.bind fun cs => .pure (c :: cs)

/-- A first step that makes a call; then there is nothing to compare. -/
theorem bind_of_lt {x : EvalM Recorder α} {f : α → EvalM Recorder β} {y : EvalM Recorder β}
    (hx : ∀ m, m.world.callsTo k < (x.run m).2.world.callsTo k)
    (hf : ∀ a, SameUnless k (f a) (f a)) : SameUnless k (x >>= f) y := by
  intro m
  have hlt := hx m
  rw [run_bind]
  rcases hrun : x.run m with ⟨e | a, m'⟩
  · rw [hrun] at hlt
    exact ⟨Nat.le_of_lt hlt, fun heq => absurd heq (Nat.ne_of_gt hlt)⟩
  · rw [hrun] at hlt
    have hle := (hf a m').1
    dsimp only at hlt ⊢
    exact ⟨by omega, fun heq => by omega⟩

end SameUnless

/-- A call, and how many calls the recorder has seen after it. -/
theorem callsTo_call (f : String) (vs : List Value) (t : Ty) (m : Machine Recorder) :
    ((call Recorder.host f vs t).run m).2.world.callsTo k =
      m.world.callsTo k + if f = k then 1 else 0 := by
  rw [run_call]
  simp [Recorder.host, Recorder.callsTo, List.countP_append, List.countP_singleton]

theorem SameUnless.call (f : String) (vs : List Value) (t : Ty) :
    SameUnless k (EvalM.call Recorder.host f vs t) (EvalM.call Recorder.host f vs t) := by
  intro m
  rw [callsTo_call]
  exact ⟨Nat.le_add_right _ _, fun _ => rfl⟩

end EvalM

/-! ## Replaced calls -/

namespace Expr

open EvalM (SameUnless)

variable {f : String} {Q : TypedExpr → Prop}

/-- Inlining a function changes nothing outside its outermost calls. -/
theorem cuts_inline {f : Callee} {e r : TypedExpr} (h : e.inline f = .ok r) :
    e.Cuts f.name (fun _ => True) r := by
  induction e using Expr.induct generalizing r with
  | lit m v =>
    cases h
    exact .lit m v
  | var m x =>
    cases h
    exact .var m x
  | not m e ih =>
    simp only [inline, bind_eq_ok, pure_eq_ok] at h
    obtain ⟨e', he, rfl⟩ := h
    exact .not (ih he)
  | call m g args ih =>
    simp only [inline, inlineArgs_eq_mapM, bind_eq_ok, mapM_eq_ok] at h
    obtain ⟨args', hargs, h⟩ := h
    by_cases hg : g = f.name
    · rw [hg]
      exact .here trivial
    · rw [if_neg hg] at h
      cases h
      exact .call_of_forall₂ hg (forall₂_of_mem hargs fun a ha _ hab => ih a ha hab)
  | binary m op l r ihl ihr =>
    simp only [inline, bind_eq_ok, pure_eq_ok] at h
    obtain ⟨l', hl, r', hr, rfl⟩ := h
    exact .binary (ihl hl) (ihr hr)
  | cond m c t e ihc iht ihe =>
    simp only [inline, bind_eq_ok, pure_eq_ok] at h
    obtain ⟨c', hc, t', ht, e', he, rfl⟩ := h
    exact .cond (ihc hc) (iht ht) (ihe he)
  | assign m x e ih =>
    simp only [inline, bind_eq_ok, pure_eq_ok] at h
    obtain ⟨e', he, rfl⟩ := h
    exact .assign (ih he)
  | seq m a b iha ihb =>
    simp only [inline, bind_eq_ok, pure_eq_ok] at h
    obtain ⟨a', ha, b', hb, rfl⟩ := h
    exact .seq (iha ha) (ihb hb)

namespace Cuts

/-- What is replaced once may be replaced again. -/
theorem trans {e e' e'' : TypedExpr} (h : e.Cuts f (fun _ => True) e') (h' : e'.Cuts f Q e'') :
    e.Cuts f (fun _ => True) e'' := by
  induction h generalizing e'' with
  | here _ => exact .here trivial
  | lit m v =>
    cases h'
    exact .lit m v
  | var m x =>
    cases h'
    exact .var m x
  | not _ ih =>
    cases h' with
    | not h' => exact .not (ih h')
  | @call m g args args' hg hlen _ ih =>
    cases h' with
    | here _ => exact absurd rfl hg
    | @call _ _ _ args'' _ hlen' h' =>
      have hfirst : List.Forall₂
          (fun a b => ∀ {c}, b.Cuts f Q c → a.Cuts f (fun _ => True) c) args args' :=
        List.forall₂_iff_zip.2 ⟨hlen, fun hp => ih _ hp⟩
      have hsecond : List.Forall₂ (Cuts f Q) args' args'' :=
        List.forall₂_iff_zip.2 ⟨hlen', fun hp => h' _ hp⟩
      refine .call_of_forall₂ hg ((forall₂_comp hfirst hsecond).imp ?_)
      rintro a c ⟨b, hab, hbc⟩
      exact hab hbc
  | binary _ _ ihl ihr =>
    cases h' with
    | binary hl hr => exact .binary (ihl hl) (ihr hr)
  | cond _ _ _ ihc iht ihe =>
    cases h' with
    | cond hc ht he => exact .cond (ihc hc) (iht ht) (ihe he)
  | assign _ ih =>
    cases h' with
    | assign h' => exact .assign (ih h')
  | seq _ _ iha ihb =>
    cases h' with
    | seq ha hb => exact .seq (iha ha) (ihb hb)

end Cuts

/-- Rounds of inlining, with the calls that are left replaced. -/
theorem cuts_inlineTimes {f : Callee} {n : ℕ} {e r : TypedExpr} (h : e.inlineTimes f n = .ok r)
    (d : TypedExpr) : e.Cuts f.name (fun _ => True) (cutCalls f.name d r) := by
  induction n generalizing e with
  | zero =>
    cases h
    exact cuts_cutCalls (Q := fun _ => True) trivial r
  | succ n ih =>
    obtain ⟨e', he', h⟩ := bind_eq_ok.1 h
    exact (cuts_inline he').trans (ih h)

/-! ## Evaluation -/

/-- A call of `k` without arguments is seen by the recorder. -/
theorem eval_call_lt (n : Mark) (m : Machine Recorder) :
    m.world.callsTo k < (((call n k []).eval Recorder.host).run m).2.world.callsTo k := by
  have hrun : ((call n k []).eval Recorder.host).run m =
      (EvalM.call Recorder.host k [] n.ty).run m := rfl
  rw [hrun, EvalM.callsTo_call, if_pos rfl]
  exact Nat.lt_succ_self _

/-- An expression is a call of `f`, or keeps its mark when calls are replaced. -/
theorem Cuts.root {e e' : TypedExpr} (h : e.Cuts f Q e') :
    (∃ m args, e = .call m f args) ∨ ∀ d, (cutCalls f d e).mark = e'.mark := by
  cases h with
  | here _ => exact .inl ⟨_, _, rfl⟩
  | call hg _ _ =>
    refine .inr fun d => ?_
    rw [cutCalls, if_neg hg]
    rfl
  | _ => exact .inr fun _ => rfl

/-- An operand, and what is done with its value. Its mark can matter there, but only if the operand
was not replaced. -/
theorem Cuts.bind {e e' : TypedExpr} (h : e.Cuts f Q e') {n : Mark}
    (heval : SameUnless k ((cutCalls f (.call n k []) e).eval Recorder.host)
      (e'.eval Recorder.host))
    {F G : Value → EvalM Recorder α} (hself : ∀ v, SameUnless k (F v) (F v))
    (hFG : (cutCalls f (.call n k []) e).mark = e'.mark → ∀ v, SameUnless k (F v) (G v)) :
    SameUnless k ((cutCalls f (.call n k []) e).eval Recorder.host >>= F)
      (e'.eval Recorder.host >>= G) := by
  rcases h.root with ⟨m, args, rfl⟩ | hmark
  · rw [cutCalls, if_pos rfl]
    exact .bind_of_lt (eval_call_lt n) hself
  · exact heval.bind (hFG (hmark _))

theorem truth_congr {e e' : TypedExpr} (h : e.mark = e'.mark) (v : Value) :
    (EvalM.truth e v : EvalM Recorder Bool) = EvalM.truth e' v := by
  have hline : e.line = e'.line := congrArg Mark.line h
  cases v with
  | bool b => rfl
  | void | int => simp only [EvalM.truth, hline]

/-- **Replaced calls matter only if they are reached.** Where calls of `f` are replaced by calls of
`k`, and a run makes none of these, the run is the same with anything else in their place. -/
theorem Cuts.eval_sameUnless {e e' : TypedExpr} (h : e.Cuts f Q e') (n : Mark) :
    SameUnless k ((cutCalls f (.call n k []) e).eval Recorder.host) (e'.eval Recorder.host) := by
  induction h with
  | @here m args d _ =>
    rw [cutCalls, if_pos rfl]
    intro m'
    have hlt : m'.world.callsTo k <
      (((Expr.call n k []).eval Recorder.host).run m').2.world.callsTo k := eval_call_lt n m'
    exact ⟨Nat.le_of_lt hlt, fun heq => absurd heq (Nat.ne_of_gt hlt)⟩
  | lit m v => exact .pure _
  | var m x =>
    refine .of_world fun m' => ?_
    rw [cutCalls, eval, EvalM.run_load]
    split <;> rfl
  | @not m e e' he ih =>
    refine he.bind ih (fun v => ?_) fun hmark v => ?_
    · exact (SameUnless.truth _ v).bind fun b => .pure _
    · rw [truth_congr hmark v]
      exact (SameUnless.truth e' v).bind fun b => .pure _
  | @call m g args args' hg hlen _ ih =>
    rw [cutCalls, if_neg hg, cutCallsArgs_eq_map, eval, eval, evalArgs_eq_mapM, evalArgs_eq_mapM]
    refine (SameUnless.mapM ?_).bind fun vs => .call g vs m.ty
    rw [List.forall₂_map_left_iff]
    exact List.forall₂_iff_zip.2 ⟨hlen, fun hp => ih _ hp⟩
  | @binary m op l l' r r' hl _ ihl ihr =>
    refine hl.bind ihl (fun a => ?_) fun hmark a => ?_
    · refine ihr.self.bind fun b => .of_world fun m' => ?_
      split <;> rfl
    · have hty : (cutCalls f (.call n k []) l).ty = l'.ty := congrArg Mark.ty hmark
      rw [hty]
      refine ihr.bind fun b => .of_world fun m' => ?_
      split <;> rfl
  | @cond m c c' t t' e e' hc _ _ ihc iht ihe =>
    refine hc.bind ihc (fun v => ?_) fun hmark v => ?_
    · refine (SameUnless.truth _ v).bind fun b => ?_
      cases b with
      | true => exact iht.self
      | false => exact ihe.self
    · rw [truth_congr hmark v]
      refine (SameUnless.truth c' v).bind fun b => ?_
      cases b with
      | true => exact iht
      | false => exact ihe
  | @assign m x e e' _ ih =>
    refine ih.bind fun v => ?_
    exact SameUnless.of_world fun _ => rfl
  | seq _ _ iha ihb => exact iha.bind fun _ => ihb.bind fun _ => .pure _

end Expr

/-- **Enough depth is enough.** Where the recursion of a function can be expanded to some depth, it
can be expanded to any smaller depth `d`. If, with a call of `k` as the value beyond `d`, a run of
the body makes no call of `k`, then the body at the larger depth, whatever the value beyond it,
gives the same result on the same machine, and leaves the same memory and the same log. -/
theorem FunDecl.expandRecursion_enough {f : FunDecl Mark} {body fallback : TypedExpr}
    (hbody : f.body = some body) {d d' : UInt32} (hd : d ≤ d') {g : FunDecl Mark}
    (hg : (f.bounded d' fallback).expandRecursion = .ok g) (k : String) (n : Mark) :
    ∃ e e', (f.bounded d (.call n k [])).expandRecursion = .ok (f.withBody e) ∧
      g = f.withBody e' ∧
      ∀ m : Machine Recorder,
        ((e.eval Recorder.host).run m).2.world.callsTo k = m.world.callsTo k →
        (e'.eval Recorder.host).run m = (e.eval Recorder.host).run m := by
  obtain ⟨r', hr', rfl⟩ := (expandRecursion_bounded hbody).1 hg
  have hsplit : d.toNat + (d'.toNat - d.toNat) = d'.toNat :=
    Nat.add_sub_cancel' (UInt32.le_iff_toNat_le.1 hd)
  obtain ⟨r, hr, hmore⟩ := Expr.inlineTimes_add (hsplit ▸ hr')
  refine ⟨_, _, (expandRecursion_bounded hbody).2 ⟨r, hr, rfl⟩, rfl, fun m hm => ?_⟩
  exact ((Expr.cuts_inlineTimes hmore fallback).eval_sameUnless n m).2 hm

/-- On a machine where `climb` ends in its second call, one level is enough. -/
theorem FunDecl.climb_enough :
    ∃ limit e' m, limit = .call ⟨.int, 1⟩ "limit" [] ∧
      m = { memory := ⟨[("n", .int 5), ("k", .int 0)]⟩,
            world := { readings := ⟨[("below", .int 0)]⟩, log := [⟨"limit", []⟩] } } ∧
      (climb.bounded 1 limit).expandRecursion = .ok (climb.withBody (climbTwice limit)) ∧
      (climb.bounded 3 (.var ⟨.int, 9⟩ "elsewhere")).expandRecursion = .ok (climb.withBody e') ∧
      (((climbTwice limit).eval Recorder.host).run m).2.world.callsTo "limit" = 1 ∧
      (e'.eval Recorder.host).run m =
        (.ok (.int 5), { m with world.log := [⟨"limit", []⟩, ⟨"below", [.int 5]⟩] }) := by
  obtain ⟨g, hg⟩ : ∃ g, (climb.bounded 3 (.var ⟨.int, 9⟩ "elsewhere")).expandRecursion = .ok g :=
    ⟨_, rfl⟩
  obtain ⟨e, e', he, rfl, hsame⟩ :=
    expandRecursion_enough (d := 1) rfl (by decide) hg "limit" ⟨.int, 1⟩
  obtain rfl : climbTwice (.call ⟨.int, 1⟩ "limit" []) = e :=
    Option.some.inj (congrArg FunDecl.body (Except.ok.inj he))
  exact ⟨_, e', _, rfl, rfl, he, hg, rfl, hsame _ rfl⟩

end Rulebook
