import Rulebook.Machine.Eval
import Rulebook.Proofs.Occurrence

/-!
# Evaluation is local

An evaluation reaches the machine only through the names that its expression reads and assigns and
the operations that it calls. `EvalM.KeepsTo h e` says this of a computation, by the way it is put
together: every step of it loads a name that `e` reads, stores to a name that `e` assigns, or leaves
a call that `e` makes to the host. Evaluating `e` is such a computation (`Expr.eval_keepsTo`).

What holds of a computation that keeps to an expression holds whether it succeeds or fails:

* `EvalM.KeepsTo.keeps`: what each store and each call keeps of a machine, the computation keeps;
* `EvalM.KeepsTo.sameOn`: from machines that are the same on what the expression reads, the
  computation gives the same, and leaves machines that are again the same there.

`Expr.eval_local` puts them together.
-/

namespace Rulebook

variable {σ α β : Type} {h : Host σ} {d e : TypedExpr}

/-! ## Computations that keep to an expression -/

/-- The computation loads only names that `e` reads, stores only to names that `e` assigns, and
leaves only calls of functions that `e` calls to the host `h`. -/
inductive EvalM.KeepsTo (h : Host σ) (e : TypedExpr) : {α : Type} → EvalM σ α → Prop
  | pure {α : Type} (a : α) : KeepsTo h e (pure a)
  | throw {α : Type} (r : RunError) : KeepsTo h e (throw r : EvalM σ α)
  | bind {α β : Type} {x : EvalM σ α} {f : α → EvalM σ β} :
    KeepsTo h e x → (∀ a, KeepsTo h e (f a)) → KeepsTo h e (x >>= f)
  | load {x : String} (line : Line) : x ∈ e.reads → KeepsTo h e (load x line)
  | store {x : String} (v : Value) : x ∈ e.targets → KeepsTo h e (store x v)
  | call {f : String} (args : List Value) (t : Ty) : f ∈ e.callees → KeepsTo h e (call h f args t)

namespace EvalM.KeepsTo

/-- What keeps to a part keeps to the whole. -/
theorem of_mem {x : EvalM σ α} (hx : x.KeepsTo h d) (hd : d ∈ e.subterms) : x.KeepsTo h e := by
  induction hx with
  | pure a => exact .pure a
  | throw r => exact .throw r
  | bind _ _ ihx ihf => exact .bind ihx ihf
  | load line hx => exact .load line (Expr.collect_subset hd hx)
  | store v hx => exact .store v (Expr.collect_subset hd hx)
  | call args t hf => exact .call args t (Expr.collect_subset hd hf)

theorem truth (c : TypedExpr) (v : Value) : (EvalM.truth c v : EvalM σ Bool).KeepsTo h e := by
  cases v with
  | bool b => exact .pure b
  | void | int => exact .throw _

theorem mapM {f : α → EvalM σ β} {as : List α} (hf : ∀ a ∈ as, (f a).KeepsTo h e) :
    (as.mapM f).KeepsTo h e := by
  induction as with
  | nil => exact .pure []
  | cons a as ih =>
    rw [List.mapM_cons]
    refine .bind (hf a List.mem_cons_self) fun b => ?_
    exact .bind (ih fun c hc => hf c (List.mem_cons_of_mem _ hc)) fun bs => .pure (b :: bs)

end EvalM.KeepsTo

/-- **An evaluation keeps to its expression.** -/
theorem Expr.eval_keepsTo (h : Host σ) (e : TypedExpr) : (e.eval h).KeepsTo h e := by
  induction e using Expr.induct with
  | lit m v => exact .pure _
  | var m x => exact .load m.line (by simp)
  | not m e ih =>
    have he := ih.of_mem (e := .not m e) (by simp [subterms, self_mem_subterms])
    exact .bind he fun v => .bind (.truth e v) fun b => .pure _
  | call m f args ih =>
    rw [eval, evalArgs_eq_mapM]
    have hargs : ∀ a ∈ args, (a.eval h).KeepsTo h (.call m f args) :=
      fun a ha => (ih a ha).of_mem (mem_subterms_call ha m f)
    exact .bind (.mapM hargs) fun vs => .call vs m.ty (by simp)
  | binary m op l r ihl ihr =>
    have hl := ihl.of_mem (e := .binary m op l r) (by simp [subterms, self_mem_subterms])
    have hr := ihr.of_mem (e := .binary m op l r) (by simp [subterms, self_mem_subterms])
    refine .bind hl fun a => .bind hr fun b => ?_
    cases op.onValues? a b with
    | some v => exact .pure _
    | none => exact .throw _
  | cond m c t e ihc iht ihe =>
    have hc := ihc.of_mem (e := .cond m c t e) (by simp [subterms, self_mem_subterms])
    have ht := iht.of_mem (e := .cond m c t e) (by simp [subterms, self_mem_subterms])
    have he := ihe.of_mem (e := .cond m c t e) (by simp [subterms, self_mem_subterms])
    refine .bind hc fun v => .bind (.truth c v) fun b => ?_
    cases b with
    | true => exact ht
    | false => exact he
  | assign m x e ih =>
    have he := ih.of_mem (e := .assign m x e) (by simp [subterms, self_mem_subterms])
    exact .bind he fun v => .bind (.store v (by simp)) fun _ => .pure _
  | seq m a b iha ihb =>
    have ha := iha.of_mem (e := .seq m a b) (by simp [subterms, self_mem_subterms])
    have hb := ihb.of_mem (e := .seq m a b) (by simp [subterms, self_mem_subterms])
    exact .bind ha fun _ => .bind hb fun _ => .pure _

/-! ## One run -/

/-- **What every step keeps, a run keeps.** A reflexive and transitive relation that holds between
the machines before and after every store and every call of `e` holds between those before and after
a computation that keeps to `e`. -/
theorem EvalM.KeepsTo.keeps {R : Machine σ → Machine σ → Prop} (hrefl : ∀ m, R m m)
    (htrans : ∀ {m n k}, R m n → R n k → R m k)
    (hstore : ∀ x ∈ e.targets, ∀ v m, R m { m with memory := m.memory.set x v })
    (hcall : ∀ f ∈ e.callees, ∀ args t m, R m { m with world := (h.call f args t m.world).2 })
    {x : EvalM σ α} (hx : x.KeepsTo h e) (m : Machine σ) : R m (x.run m).2 := by
  induction hx generalizing m with
  | pure | throw => exact hrefl m
  | @bind _ _ x f _ _ ihx ihf =>
    have hfirst := ihx m
    rw [run_bind]
    rcases hrun : x.run m with ⟨r | a, m'⟩
    · rwa [hrun] at hfirst
    · rw [hrun] at hfirst
      exact htrans hfirst (ihf a m')
  | @load y line _ =>
    rw [run_load]
    cases m.memory.find? y <;> exact hrefl m
  | store v hy => exact hstore _ hy v m
  | call args t hf => exact hcall _ hf args t m

/-- A cell that is not assigned keeps its value, or stays without one. -/
theorem EvalM.KeepsTo.find?_eq {x : EvalM σ α} (hx : x.KeepsTo h e) {y : String}
    (hy : y ∉ e.targets) (m : Machine σ) : (x.run m).2.memory.find? y = m.memory.find? y := by
  refine hx.keeps (R := fun m n => n.memory.find? y = m.memory.find? y) (fun _ => rfl)
    (fun hmn hnk => hnk.trans hmn) (fun z hz v m => ?_) (fun _ _ _ _ _ => rfl) m
  have hyz : y ≠ z := fun hyz => hy (hyz ▸ hz)
  rw [Bindings.find?_set, if_neg hyz]

/-- The recorder appends calls that the expression makes to its log, and keeps its readings. -/
theorem EvalM.KeepsTo.log_append {x : EvalM Recorder α} (hx : x.KeepsTo Recorder.host e)
    (m : Machine Recorder) :
    ∃ calls, (x.run m).2.world = { m.world with log := m.world.log ++ calls } ∧
      ∀ c ∈ calls, c.name ∈ e.callees := by
  refine hx.keeps (R := fun m n => ∃ calls,
    n.world = { m.world with log := m.world.log ++ calls } ∧ ∀ c ∈ calls, c.name ∈ e.callees)
    (fun m => ⟨[], by simp, nofun⟩) ?_ (fun _ _ _ m => ⟨[], by simp, nofun⟩)
    (fun f hf args _ m => ⟨[⟨f, args⟩], rfl, by simpa using hf⟩) m
  rintro m n k ⟨first, hn, hfirst⟩ ⟨second, hk, hsecond⟩
  refine ⟨first ++ second, by simp [hk, hn], fun c hc => ?_⟩
  exact (List.mem_append.1 hc).elim (hfirst c) (hsecond c)

/-! ## Two runs -/

/-- The machines have the same world, and their memories are the same on the names of `P`. -/
structure Machine.SameOn (P : String → Prop) (m n : Machine σ) : Prop where
  memory : ∀ x, P x → m.memory.find? x = n.memory.find? x
  world : m.world = n.world

/-- **What is not read makes no difference.** From machines that are the same on what `e` reads, a
computation that keeps to `e` gives the same and leaves machines that are the same there. -/
theorem EvalM.KeepsTo.sameOn {P : String → Prop} (hP : ∀ x ∈ e.reads, P x) {x : EvalM σ α}
    (hx : x.KeepsTo h e) {m n : Machine σ} (hmn : m.SameOn P n) :
    (x.run m).1 = (x.run n).1 ∧ (x.run m).2.SameOn P (x.run n).2 := by
  induction hx generalizing m n with
  | pure | throw => exact ⟨rfl, hmn⟩
  | @bind _ _ x f _ _ ihx ihf =>
    obtain ⟨hresult, hmachine⟩ := ihx hmn
    rw [run_bind, run_bind]
    rcases hm : x.run m with ⟨r, m'⟩
    rcases hn : x.run n with ⟨r', n'⟩
    rw [hm, hn] at hresult hmachine
    obtain rfl : r = r' := hresult
    cases r with
    | error => exact ⟨rfl, hmachine⟩
    | ok a => exact ihf a hmachine
  | @load y line hy =>
    rw [run_load, run_load, hmn.memory y (hP y hy)]
    cases n.memory.find? y <;> exact ⟨rfl, hmn⟩
  | @store y v _ =>
    -- one value is stored on both sides, so the cell need not have been the same before
    refine ⟨rfl, fun z hz => ?_, hmn.world⟩
    change (m.memory.set y v).find? z = (n.memory.set y v).find? z
    rw [Bindings.find?_set, Bindings.find?_set, hmn.memory z hz]
  | call args t _ =>
    rw [run_call, run_call, hmn.world]
    exact ⟨rfl, hmn.memory, rfl⟩

/-! ## Locality -/

namespace Expr

theorem reads_subset_mentions (e : TypedExpr) : e.reads ⊆ e.mentions := by
  intro x hx
  obtain ⟨m, hm⟩ := mem_reads.1 hx
  exact mem_collect.2 ⟨_, hm, rfl⟩

/-- **Evaluation is local**, whether it succeeds or fails. A cell that the expression does not assign
keeps its value, or stays without one. A recorder's log only grows, at its end and by calls that the
expression makes. On two machines with one world that are the same on every name the expression reads
or assigns, it gives the same, and leaves machines of which this is again true. -/
theorem eval_local (e : TypedExpr) (h : Host σ) (m : Machine σ) :
    (∀ x ∉ e.targets, ((e.eval h).run m).2.memory.find? x = m.memory.find? x) ∧
    (∀ r : Machine Recorder, ∃ calls,
      ((e.eval Recorder.host).run r).2.world = { r.world with log := r.world.log ++ calls } ∧
      ∀ c ∈ calls, c.name ∈ e.callees) ∧
    ∀ n, m.SameOn (· ∈ e.mentions) n →
      ((e.eval h).run m).1 = ((e.eval h).run n).1 ∧
      ((e.eval h).run m).2.SameOn (· ∈ e.mentions) ((e.eval h).run n).2 := by
  have hkeeps := e.eval_keepsTo h
  refine ⟨fun x hx => hkeeps.find?_eq hx m, fun r => ?_, fun n hmn => ?_⟩
  · exact (e.eval_keepsTo Recorder.host).log_append r
  · exact hkeeps.sameOn (fun x hx => e.reads_subset_mentions hx) hmn

/-- `x = peek(); y = !x`, which fails at the second assignment if `x` is an integer. -/
def stumble : TypedExpr :=
  sequence (assignment "x" (.call ⟨.int, 1⟩ "peek" []) 1)
    (assignment "y" (negation (.var ⟨.int, 2⟩ "x") 2) 2) 2

/-- A machine whose memory holds `v` at a name that `stumble` does not mention. -/
def stumbleStart (v : Value) : Machine Recorder := ⟨⟨[("z", v)]⟩, .start ⟨[("peek", .int 3)]⟩⟩

theorem stumble_local :
    (stumbleStart (.int 5)).SameOn (· ∈ stumble.mentions) (stumbleStart .void) ∧
      ((stumble.eval Recorder.host).run (stumbleStart (.int 5))).1 =
        .error (.wrongKind .bool (.int 3) 2) ∧
      ((stumble.eval Recorder.host).run (stumbleStart .void)).1 =
        .error (.wrongKind .bool (.int 3) 2) ∧
      ((stumble.eval Recorder.host).run (stumbleStart .void)).2.memory.find? "x" = some (.int 3) ∧
      ((stumble.eval Recorder.host).run (stumbleStart .void)).2.memory.find? "z" = some .void := by
  have hsame : (stumbleStart (.int 5)).SameOn (· ∈ stumble.mentions) (stumbleStart .void) :=
    ⟨by decide, rfl⟩
  have hfails : ((stumble.eval Recorder.host).run (stumbleStart (.int 5))).1 =
      .error (.wrongKind .bool (.int 3) 2) := rfl
  obtain ⟨-, -, hlocal⟩ := eval_local stumble Recorder.host (stumbleStart (.int 5))
  obtain ⟨hresult, hmachine⟩ := hlocal _ hsame
  obtain ⟨hcells, -, -⟩ := eval_local stumble Recorder.host (stumbleStart .void)
  refine ⟨hsame, hfails, hresult ▸ hfails, ?_, hcells "z" (by decide)⟩
  exact (hmachine.memory "x" (by decide)).symm

end Expr

end Rulebook
