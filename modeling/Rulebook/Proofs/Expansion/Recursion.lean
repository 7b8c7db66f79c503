import Mathlib.Logic.Function.Iterate
import Rulebook.Proofs.Expansion.Calls

/-!
# Bounded recursion, level by level

A bound on recursion is worked off from the outside: the body is put in for the calls in the result
of the round before, and the calls that are left at the end are replaced by the value beyond the
bound. The same result comes about from the inside (`expandRecursion_recurrence`): at depth `0` the
outermost calls in the body are replaced, and at depth `d + 1` the calls in the body are expanded by
the function at depth `d`. On terms this is one case of expanding definitions one after the other
(`Definition.expand_level`).

`Expr.Cuts` describes the replacing of outermost calls without a pass.
-/

namespace Rulebook

/-! ## Outermost calls -/

namespace Expr

/-- The second expression is the first with every outermost call of `f` replaced, arguments and all,
by an expression of `Q`. -/
inductive Cuts (f : String) (Q : TypedExpr → Prop) : TypedExpr → TypedExpr → Prop
  | here {m : Mark} {args : List TypedExpr} {d : TypedExpr} : Q d → Cuts f Q (.call m f args) d
  | lit (m : Mark) (v : Literal) : Cuts f Q (.lit m v) (.lit m v)
  | var (m : Mark) (x : String) : Cuts f Q (.var m x) (.var m x)
  | not {m : Mark} {e e' : TypedExpr} : Cuts f Q e e' → Cuts f Q (.not m e) (.not m e')
  | call {m : Mark} {g : String} {args args' : List TypedExpr} :
    g ≠ f → args.length = args'.length → (∀ p ∈ args.zip args', Cuts f Q p.1 p.2) →
    Cuts f Q (.call m g args) (.call m g args')
  | binary {m : Mark} {op : Operator} {l l' r r' : TypedExpr} :
    Cuts f Q l l' → Cuts f Q r r' → Cuts f Q (.binary m op l r) (.binary m op l' r')
  | cond {m : Mark} {c c' t t' e e' : TypedExpr} :
    Cuts f Q c c' → Cuts f Q t t' → Cuts f Q e e' → Cuts f Q (.cond m c t e) (.cond m c' t' e')
  | assign {m : Mark} {x : String} {e e' : TypedExpr} :
    Cuts f Q e e' → Cuts f Q (.assign m x e) (.assign m x e')
  | seq {m : Mark} {a a' b b' : TypedExpr} :
    Cuts f Q a a' → Cuts f Q b b' → Cuts f Q (.seq m a b) (.seq m a' b')

variable {f : String} {Q : TypedExpr → Prop}

theorem Cuts.call_of_forall₂ {m : Mark} {g : String} {args args' : List TypedExpr} (hg : g ≠ f)
    (h : List.Forall₂ (Cuts f Q) args args') : Cuts f Q (.call m g args) (.call m g args') :=
  .call hg h.length_eq fun _ hp => (List.forall₂_iff_zip.1 h).2 hp

theorem cuts_cutCalls {d : TypedExpr} (hd : Q d) (e : TypedExpr) : e.Cuts f Q (cutCalls f d e) := by
  induction e using Expr.induct with
  | lit m v => exact .lit m v
  | var m x => exact .var m x
  | not m e ih => exact .not ih
  | call m g args ih =>
    rw [cutCalls, cutCallsArgs_eq_map]
    by_cases hg : g = f
    · rw [if_pos hg, hg]
      exact .here hd
    · rw [if_neg hg]
      refine .call_of_forall₂ hg ?_
      rw [List.forall₂_map_right_iff]
      exact List.forall₂_same.2 ih
  | binary m op l r ihl ihr => exact .binary ihl ihr
  | cond m c t e ihc iht ihe => exact .cond ihc iht ihe
  | assign m x e ih => exact .assign ih
  | seq m a b iha ihb => exact .seq iha ihb

theorem calls_eq_false {e : TypedExpr} : e.calls f = false ↔ f ∉ e.callees := by
  rw [calls, List.any_eq_false, mem_callees]
  constructor
  · rintro h ⟨m, args, hcall⟩
    exact h _ hcall (by simp [isCallTo])
  · intro h d hd hcall
    cases d with
    | call m g args =>
      obtain rfl : g = f := by simpa [isCallTo] using hcall
      exact h ⟨m, args, hd⟩
    | _ => simp [isCallTo] at hcall

/-- No call of the function is left. -/
theorem Cuts.calls_eq_false {e e' : TypedExpr} (h : e.Cuts f Q e')
    (hQ : ∀ d, Q d → d.calls f = false) : e'.calls f = false := by
  rw [Expr.calls_eq_false]
  induction h with
  | here hd => exact Expr.calls_eq_false.1 (hQ _ hd)
  | lit | var => simp
  | not _ ih | assign _ ih => simpa using ih
  | @call m g args args' hg hlen _ ih =>
    have hargs : List.Forall₂ (fun _ a' => f ∉ callees a') args args' :=
      List.forall₂_iff_zip.2 ⟨hlen, fun hp => ih _ hp⟩
    simp only [collect_call, callee?, Option.toList_some, List.mem_append, List.mem_singleton,
      List.mem_flatMap, not_or, not_exists, not_and]
    refine ⟨hg.symm, fun a' ha' => ?_⟩
    obtain ⟨a, -, ha⟩ := exists_mem_left hargs ha'
    exact ha
  | binary _ _ ihl ihr | seq _ _ ihl ihr => simpa using ⟨ihl, ihr⟩
  | cond _ _ _ ihc iht ihe => simpa using ⟨ihc, iht, ihe⟩

end Expr

/-! ## Levels -/

namespace Definition

variable {f : String} {d : Definition}

/-- The calls of `f` in a term expanded by a definition. -/
def inlined (f : String) (d : Definition) (t : Term) : Term :=
  t.expand (Definitions.empty.define f d)

/-- The definition after `n` rounds of expansion by itself, with `fallback` for the calls that are
left. -/
def level (f : String) (d : Definition) (fallback : Term) (n : ℕ) : Definition :=
  { d with body := inlined f { d with body := fallback } ((inlined f d)^[n] d.body) }

/-- Expanding by a definition and then by one with the same parameters. -/
theorem inlined_inlined {d' : Definition} (hd : d.Fits (Definitions.empty.define f d')) (t : Term) :
    inlined f d' (inlined f d t) = inlined f { d with body := inlined f d' d.body } t := by
  have hdefine : ∀ k,
      (Definitions.empty.define f d').define f k = Definitions.empty.define f k := by
    intro k
    funext g
    rw [Definitions.define, Definitions.define, Definitions.define]
    split <;> rfl
  rw [inlined, inlined, hd.expand_expand, hdefine]
  rfl

/-- **Expanding by a level** is expanding by the definition once more than the level has rounds. -/
theorem expand_level (hd : ∀ X, d.Fits (Definitions.empty.define f { d with body := X }))
    (fallback : Term) (n : ℕ) (t : Term) :
    inlined f (d.level f fallback n) t =
      inlined f { d with body := fallback } ((inlined f d)^[n + 1] t) := by
  induction n generalizing t with
  | zero => exact (inlined_inlined (hd fallback) t).symm
  | succ n ih =>
    have hlevel : d.level f fallback (n + 1) =
        { d with body := inlined f (d.level f fallback n) d.body } := by
      rw [ih d.body, level]
    have hfits : d.Fits (Definitions.empty.define f (d.level f fallback n)) := hd _
    rw [hlevel, ← inlined_inlined hfits, ih, ← Function.iterate_succ_apply]

end Definition

namespace Expr

variable {f : Callee}

theorem inlineTimes_add {m n : ℕ} {e r : TypedExpr} (h : e.inlineTimes f (m + n) = .ok r) :
    ∃ e', e.inlineTimes f m = .ok e' ∧ e'.inlineTimes f n = .ok r := by
  induction m generalizing e with
  | zero =>
    rw [Nat.zero_add] at h
    exact ⟨e, rfl, h⟩
  | succ m ih =>
    rw [Nat.add_right_comm, inlineTimes] at h
    obtain ⟨e₁, he₁, h⟩ := bind_eq_ok.1 h
    obtain ⟨e', he', h⟩ := ih h
    exact ⟨e', bind_eq_ok.2 ⟨e₁, he₁, he'⟩, h⟩

theorem toTerm_inlineTimes {n : ℕ} {e r : TypedExpr} (h : e.inlineTimes f n = .ok r) :
    r.toTerm = (Definition.inlined f.name f.definition)^[n] e.toTerm := by
  induction n generalizing e with
  | zero =>
    cases h
    rfl
  | succ n ih =>
    rw [inlineTimes] at h
    obtain ⟨e', he', h⟩ := bind_eq_ok.1 h
    rw [ih h, Function.iterate_succ_apply, toTerm_inline he']
    rfl

end Expr

/-! ## Functions -/

namespace FunDecl

/-- The function with a bound on its recursion. -/
def bounded (f : FunDecl Mark) (depth : UInt32) (fallback : TypedExpr) : FunDecl Mark :=
  { f with recursion := some ⟨depth, fallback⟩ }

/-- The function with another body and no bound on its recursion. -/
def withBody (f : FunDecl Mark) (body : TypedExpr) : FunDecl Mark :=
  { f with recursion := none, body := some body }

/-- The function as inlining sees it, with another body. -/
def calleeWith (f : FunDecl Mark) (body : TypedExpr) : Callee :=
  ⟨f.name, f.params.map Param.name, body, f.line⟩

variable {f : FunDecl Mark} {body fallback : TypedExpr}

/-- What the expansion of a bounded function is. -/
theorem expandRecursion_bounded (hbody : f.body = some body) {depth : UInt32} {g : FunDecl Mark} :
    (f.bounded depth fallback).expandRecursion = .ok g ↔
      ∃ e, body.inlineTimes (f.calleeWith body) depth.toNat = .ok e ∧
        g = f.withBody (.cutCalls f.name fallback e) := by
  have hcallee : (f.bounded depth fallback).callee? = some (f.calleeWith body) := by
    rw [callee?, bounded, hbody]
    rfl
  have hbound : (f.bounded depth fallback).recursion = some ⟨depth, fallback⟩ := rfl
  rw [expandRecursion, hbound, hcallee]
  simp only [Callee.expand, bind_eq_ok, pure_eq_ok]
  constructor
  · rintro ⟨_, ⟨e, he, rfl⟩, rfl⟩
    exact ⟨e, he, rfl⟩
  · rintro ⟨e, he, rfl⟩
    exact ⟨_, ⟨e, he, rfl⟩, rfl⟩

/-- Where calls in the body have as many arguments as the function has parameters, the body can be
expanded by the function with any body. -/
theorem fits_calleeWith
    (harity : ∀ args ∈ body.argsOf f.name, args.length = f.params.length)
    (X : Term) :
    (f.calleeWith body).definition.Fits
      (Definitions.empty.define f.name { (f.calleeWith body).definition with body := X }) := by
  constructor
  · refine Expr.saturated_toTerm fun g d hd args hargs => ?_
    obtain ⟨rfl, rfl⟩ := Definitions.define_empty_eq_some.1 hd
    rw [harity args hargs]
    exact (List.length_map _).symm
  · intro g d hd x hx
    obtain ⟨rfl, rfl⟩ := Definitions.define_empty_eq_some.1 hd
    exact hx.2

/-- The body after some rounds, with the calls that are left replaced, is the body of a level. -/
theorem definition_cutCalls (hfallback : ∀ p ∈ f.params, p.name ∉ fallback.mentions) {n : ℕ}
    {e : TypedExpr} (he : body.inlineTimes (f.calleeWith body) n = .ok e) :
    (f.calleeWith (.cutCalls f.name fallback e)).definition =
      (f.calleeWith body).definition.level f.name fallback.toTerm n := by
  have hparams : ∀ p ∈ f.params.map Param.name, p ∉ fallback.mentions := by
    intro p hp
    obtain ⟨q, hq, rfl⟩ := List.mem_map.1 hp
    exact hfallback q hq
  have hterm := Expr.toTerm_cutCalls f.name hparams e
  rw [Expr.toTerm_inlineTimes he] at hterm
  exact congrArg (Definition.mk (f.params.map Param.name)) hterm

/-- One more round on the outside is one more round on the inside. -/
theorem cutCalls_eq_expand (hfallback : ∀ p ∈ f.params, p.name ∉ fallback.mentions)
    (harity : ∀ args ∈ body.argsOf f.name, args.length = f.params.length)
    {n : ℕ} {e e' r : TypedExpr} (he : body.inlineTimes (f.calleeWith body) n = .ok e)
    (he' : body.inlineTimes (f.calleeWith body) (n + 1) = .ok e')
    (hr : body.expand [f.calleeWith (.cutCalls f.name fallback e)] = .ok r) :
    .cutCalls f.name fallback e' = r := by
  refine Expr.toTerm_injective ?_
  calc (Expr.cutCalls f.name fallback e').toTerm
      = ((f.calleeWith body).definition.level f.name fallback.toTerm (n + 1)).body :=
        congrArg Definition.body (definition_cutCalls hfallback he')
    _ = Definition.inlined f.name ((f.calleeWith body).definition.level f.name fallback.toTerm n)
          body.toTerm :=
        (Definition.expand_level (fits_calleeWith harity) fallback.toTerm n body.toTerm).symm
    _ = Definition.inlined f.name (f.calleeWith (.cutCalls f.name fallback e)).definition
          body.toTerm := by rw [definition_cutCalls hfallback he]
    _ = r.toTerm := (Expr.toTerm_expand hr).symm

/-- **Bounded recursion follows its recurrence.** Let the value beyond the bound mention no
parameter, and let calls of the function in its body have as many arguments as there are parameters.
At depth `0` the outermost of these calls are replaced by that value. At depth `d + 1`, where the
expansion succeeds, it succeeds at depth `d` too, and if the calls in the body can be expanded by
the function of depth `d`, the result is the body at depth `d + 1`. If the value does not call the
function, no call of it is left at any depth; and the bound is gone. -/
theorem expandRecursion_recurrence (hbody : f.body = some body)
    (hfallback : ∀ p ∈ f.params, p.name ∉ fallback.mentions)
    (harity : ∀ args ∈ body.argsOf f.name, args.length = f.params.length) :
    (∃ e, body.Cuts f.name (· = fallback) e ∧
      (f.bounded 0 fallback).expandRecursion = .ok (f.withBody e)) ∧
    (∀ d d' : UInt32, d'.toNat = d.toNat + 1 →
      ∀ g, (f.bounded d' fallback).expandRecursion = .ok g →
        ∃ e, (f.bounded d fallback).expandRecursion = .ok (f.withBody e) ∧
          ∀ r, body.expand [f.calleeWith e] = .ok r → g = f.withBody r) ∧
    (fallback.calls f.name = false →
      ∀ d g, (f.bounded d fallback).expandRecursion = .ok g →
        g.recursion = none ∧ ∃ e, g.body = some e ∧ e.calls f.name = false) := by
  have hcut : ∀ e : TypedExpr, e.Cuts f.name (· = fallback) (.cutCalls f.name fallback e) :=
    Expr.cuts_cutCalls rfl
  refine ⟨⟨_, hcut body, (expandRecursion_bounded hbody).2 ⟨body, rfl, rfl⟩⟩, ?_, ?_⟩
  · intro d d' hd g hg
    obtain ⟨e', he', rfl⟩ := (expandRecursion_bounded hbody).1 hg
    obtain ⟨e, he, -⟩ := Expr.inlineTimes_add (hd ▸ he')
    refine ⟨_, (expandRecursion_bounded hbody).2 ⟨e, he, rfl⟩, fun r hr => ?_⟩
    rw [hd] at he'
    rw [cutCalls_eq_expand hfallback harity he he' hr]
  · intro hcalls d g hg
    obtain ⟨e, -, rfl⟩ := (expandRecursion_bounded hbody).1 hg
    exact ⟨rfl, _, rfl, (hcut e).calls_eq_false fun _ hd => hd ▸ hcalls⟩

/-- A sample condition: `k` if `n` is zero, `again` otherwise. -/
def climbing (n k again : TypedExpr) : TypedExpr :=
  .cond ⟨.int, 2⟩ (.binary ⟨.bool, 2⟩ .eq n (.lit ⟨.int, 2⟩ (.int 0))) k again

/-- A sample function that calls itself in an argument of its own call. -/
def climb : FunDecl Mark where
  name := "climb"
  params := [⟨"n", .int⟩, ⟨"k", .int⟩]
  ret := .int
  recursion := none
  body := some <| climbing (.var ⟨.int, 2⟩ "n") (.var ⟨.int, 3⟩ "k")
    (.call ⟨.int, 4⟩ "climb" [.call ⟨.int, 4⟩ "below" [.var ⟨.int, 4⟩ "n"],
      .call ⟨.int, 5⟩ "climb" [.var ⟨.int, 5⟩ "k", .var ⟨.int, 5⟩ "n"]])
  line := 1

/-- The body of `climb` at depth `1`. -/
def climbTwice (limit : TypedExpr) : TypedExpr :=
  climbing (.var ⟨.int, 2⟩ "n") (.var ⟨.int, 3⟩ "k")
    (climbing (.call ⟨.int, 4⟩ "below" [.var ⟨.int, 4⟩ "n"])
      (climbing (.var ⟨.int, 5⟩ "k") (.var ⟨.int, 5⟩ "n") limit) limit)

theorem climb_recurrence :
    ∃ body e limit, climb.body = some body ∧ limit = .call ⟨.int, 1⟩ "limit" [] ∧
      (∀ p ∈ climb.params, p.name ∉ limit.mentions) ∧
      (∀ args ∈ body.argsOf climb.name, args.length = climb.params.length) ∧
      e = climbing (.var ⟨.int, 2⟩ "n") (.var ⟨.int, 3⟩ "k") limit ∧
      (climb.bounded 0 limit).expandRecursion = .ok (climb.withBody e) ∧
      body.expand [climb.calleeWith e] = .ok (climbTwice limit) ∧
      (climb.bounded 1 limit).expandRecursion = .ok (climb.withBody (climbTwice limit)) ∧
      (climbTwice limit).calls "climb" = false := by
  obtain ⟨body, hbody⟩ : ∃ body, climb.body = some body := ⟨_, rfl⟩
  have harity : ∀ args ∈ body.argsOf climb.name, args.length = climb.params.length := by
    cases hbody
    decide
  have hlimit : ∀ p ∈ climb.params,
      p.name ∉ (Expr.call (⟨.int, 1⟩ : Mark) "limit" []).mentions := by decide
  obtain ⟨-, hstep, hcalls⟩ := expandRecursion_recurrence hbody hlimit harity
  obtain ⟨g, hg⟩ : ∃ g, (climb.bounded 1 (.call ⟨.int, 1⟩ "limit" [])).expandRecursion = .ok g :=
    ⟨_, rfl⟩
  obtain ⟨e, he, hexpand⟩ := hstep 0 1 rfl g hg
  obtain rfl : climbing (.var ⟨.int, 2⟩ "n") (.var ⟨.int, 3⟩ "k")
      (.call ⟨.int, 1⟩ "limit" []) = e :=
    Option.some.inj (congrArg FunDecl.body (Except.ok.inj he))
  obtain ⟨-, r, hr, hfree⟩ := hcalls rfl 1 g hg
  cases hbody
  obtain rfl : g = climb.withBody (climbTwice (.call ⟨.int, 1⟩ "limit" [])) := hexpand _ rfl
  cases hr
  exact ⟨_, _, _, rfl, rfl, hlimit, harity, rfl, he, rfl, hg, hfree⟩

end FunDecl

end Rulebook
