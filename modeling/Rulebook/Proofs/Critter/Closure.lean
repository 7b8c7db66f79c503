import Rulebook.Critter.Text
import Rulebook.Proofs.Typing.Lowering
import Rulebook.Proofs.Typing.Rules

/-!
# Compiled programs as critter rules

A compiled first-order program is closed: its variables are numbered in order, an initial value
mentions only the variables before it and calls only operations of the library, and the main
expression mentions only variables and calls only provided functions. So every variable has a slot,
and as the rules of the main expression have no conditionals inside, all that can stand in the way
of writing the program as critter rules is a conditional in an initial value
(`RawProgram.compile_closed`).
-/

namespace Rulebook

/-- The variables of a well-formed program, by name. -/
theorem LoweredProgram.WellFormed.mem_names {q : LoweredProgram}
    {offered provided : String → List Ty → Ty → Prop} (hq : q.WellFormed offered provided)
    {x : String} {t : Ty} (hx : numbered q.variables.length x t) :
    x ∈ q.variables.map VarDecl.name := by
  obtain ⟨-, i, hi, rfl⟩ := hx
  rw [hq.variables_numbered.map_name]
  exact List.mem_map_of_mem (List.mem_range'_1.2 (by omega))

namespace Critter

/-! ## Writing -/

/-- The text can be written unless `bad` holds; if it does, a conditional stands in the way. -/
def WrittenUnless {α : Type} (bad : Bool) : Except WriteError α → Prop
  | .ok _ => bad = false
  | .error e => bad = true ∧ ∃ line, e = .conditionalInRule line

namespace WrittenUnless

variable {α β : Type} {b c : Bool}

theorem pure {a : α} : WrittenUnless false (pure a) := rfl

theorem bind {x : Except WriteError α} {f : α → Except WriteError β} (hx : WrittenUnless b x)
    (hf : ∀ a, WrittenUnless c (f a)) : WrittenUnless (b || c) (x >>= f) := by
  cases x with
  | ok a =>
    obtain rfl : b = false := hx
    exact hf a
  | error e => exact ⟨by rw [hx.1, Bool.true_or], hx.2⟩

theorem map {x : Except WriteError α} {f : α → β} (hx : WrittenUnless b x) :
    WrittenUnless b (x >>= fun a => Pure.pure (f a)) := by
  rw [← Bool.or_false b]
  exact hx.bind fun _ => .pure

theorem mapM {bad : α → Bool} {f : α → Except WriteError β} {as : List α}
    (h : ∀ a ∈ as, WrittenUnless (bad a) (f a)) : WrittenUnless (as.any bad) (as.mapM f) := by
  induction as with
  | nil => exact .pure
  | cons a as ih =>
    rw [List.mapM_cons, List.any_cons]
    exact (h a List.mem_cons_self).bind fun b =>
      (ih fun a ha => h a (List.mem_cons_of_mem _ ha)).map

theorem outcome {x : Except WriteError α} (h : WrittenUnless b x) :
    ((∃ a, x = .ok a) ↔ b = false) ∧ ∀ e, x = .error e → ∃ line, e = .conditionalInRule line := by
  cases x with
  | ok a => exact ⟨⟨fun _ => h, fun _ => ⟨a, rfl⟩⟩, nofun⟩
  | error e =>
    obtain ⟨rfl, line, rfl⟩ := h
    exact ⟨by simp, by simp⟩

end WrittenUnless

/-! ## Slots -/

/-- Every variable has a slot. -/
theorem exists_slot (layout : Layout) {vs : List (VarDecl Mark)} {x : String}
    (h : x ∈ vs.map VarDecl.name) : ∃ slot, (layout.slots vs).find? x = some slot := by
  rw [← Option.isSome_iff_exists, Option.isSome_iff_ne_none]
  intro hnone
  rw [Layout.slots, Bindings.find?, List.lookup_eq_none_iff] at hnone
  obtain ⟨v, hv, rfl⟩ := List.mem_map.1 h
  obtain ⟨i, hi, rfl⟩ := List.getElem_of_mem hv
  have := hnone (vs[i].name, layout.first + i)
    (List.mem_reverse.2 (List.mem_mapIdx.2 ⟨i, hi, rfl⟩))
  simp at this

theorem cellOf_of_slot {slots : Slots} {x : String} {line : Line}
    (h : ∃ slot, slots.find? x = some slot) : WrittenUnless false (cellOf slots x line) := by
  obtain ⟨slot, hslot⟩ := h
  rw [cellOf, hslot]
  rfl

/-! ## Expressions and programs -/

variable {slots : Slots} {names : String → Ty → Prop} {calls : String → List Ty → Ty → Prop}

/-- An expression all of whose names have slots can be written unless it has a conditional. -/
theorem render_writtenUnless (hslots : ∀ x t, names x t → ∃ slot, slots.find? x = some slot)
    {e : TypedExpr} (h : e.WellTyped (.of names calls)) :
    WrittenUnless e.hasCond (render slots e) := by
  induction h with
  | lit _ => exact .pure
  | var hx => exact cellOf_of_slot (hslots _ _ hx)
  | not _ _ _ ih => exact ih.map
  | call _ _ ih =>
    rw [render, renderArgs_eq_mapM, Expr.hasCond_call]
    exact (WrittenUnless.mapM ih).map
  | binary _ _ _ _ ihl ihr =>
    rw [Expr.hasCond_binary]
    exact ihl.bind fun _ => ihr.map
  | cond => exact ⟨rfl, _, rfl⟩
  | assign _ hx _ ih => exact (cellOf_of_slot (hslots _ _ hx)).bind fun _ => ih.map
  | seq _ _ _ _ _ iha ihb =>
    rw [Expr.hasCond_seq]
    exact iha.bind fun _ => ihb.map

/-- A well-formed program can be written unless an initial value has a conditional. -/
theorem renderProgram_writtenUnless {q : LoweredProgram}
    {offered provided : String → List Ty → Ty → Prop} (hq : q.WellFormed offered provided)
    (layout : Layout) :
    WrittenUnless (q.variables.any fun v => v.init.hasCond) (renderProgram layout q) := by
  have hslots : ∀ n ≤ q.variables.length, ∀ x t, numbered n x t →
      ∃ slot, (layout.slots q.variables).find? x = some slot :=
    fun n hn x t hx => exists_slot layout (hq.mem_names (numbered_mono hn hx))
  have hinits : ∀ v ∈ q.variables,
      WrittenUnless v.init.hasCond (initText (layout.slots q.variables) v) := by
    intro v hv
    obtain ⟨i, hi, rfl⟩ := List.getElem_of_mem hv
    obtain ⟨-, htyped, -⟩ := hq.variables_numbered.of_getElem? (List.getElem?_eq_getElem hi)
    exact (cellOf_of_slot (exists_slot layout (List.mem_map_of_mem hv))).bind fun _ =>
      (render_writtenUnless (hslots _ (by omega)) htyped).map
  have hrules : ∀ r ∈ q.main.rules,
      WrittenUnless false (ruleText (layout.slots q.variables) r) := by
    intro r hr
    obtain ⟨hcond, haction, -⟩ := hq.main_typed.rules hr
    obtain ⟨hfree, hfree'⟩ := Expr.rules_condFree hr
    have hc := render_writtenUnless (hslots _ (Nat.le_refl _)) hcond.1
    have ha := render_writtenUnless (hslots _ (Nat.le_refl _)) haction
    rw [hfree] at hc
    rw [hfree'] at ha
    exact hc.bind fun _ => ha.map
  rw [← Bool.or_false (q.variables.any _)]
  refine (WrittenUnless.mapM hinits).map.bind fun _ => ?_
  have hall := WrittenUnless.mapM hrules
  rw [List.any_eq_false.2 (by simp)] at hall
  exact hall.map

end Critter

/-- **Compiled programs are closed and can be written as critter rules.** The variables of a
compiled first-order program are numbered in order of declaration; an initial value mentions only
the variables before it and calls only operations of the library; the main expression mentions only
the variables and calls only provided functions. The program can be written as critter rules
exactly if no initial value has a conditional, and nothing else can stand in the way. -/
theorem RawProgram.compile_closed {p : RawProgram} {lib : Option Library} {options : Options}
    {q : LoweredProgram} (hfo : p.FirstOrder lib) (hq : (p.compile lib options).result = .ok q) :
    q.variables.map VarDecl.name = (List.range p.variables.length).map FreshNames.name ∧
      q.variables.map VarDecl.line = p.variables.map VarDecl.line ∧
      (∀ (i : ℕ) (v : VarDecl Mark), q.variables[i]? = some v →
        (∀ x ∈ v.init.reads ++ v.init.targets, ∃ j < i, x = FreshNames.name j) ∧
        ∀ f ∈ v.init.callees, ∃ ts t, Offers lib f ts t) ∧
      (∀ x ∈ q.main.reads ++ q.main.targets, x ∈ q.variables.map VarDecl.name) ∧
      (∀ f ∈ q.main.callees, ∃ ts t, p.Provides lib f ts t) ∧
      ∀ layout,
        ((∃ text, Critter.renderProgram layout q = .ok text) ↔
          ∀ v ∈ q.variables, v.init.hasCond = false) ∧
        ∀ e, Critter.renderProgram layout q = .error e → ∃ line, e = .conditionalInRule line := by
  obtain ⟨hwf, -, hlines⟩ := compile_wellFormed hfo hq
  have hlen : q.variables.length = p.variables.length := by simpa using congrArg List.length hlines
  refine ⟨?_, hlines, fun i v hv => ?_, ?_, ?_, fun layout => ?_⟩
  · rw [hwf.variables_numbered.map_name, hlen, List.range_eq_range']
  · obtain ⟨-, htyped, -⟩ := hwf.variables_numbered.of_getElem? hv
    rw [Nat.zero_add] at htyped
    refine ⟨fun x hx => ?_, fun f hf => ?_⟩
    · obtain ⟨t, -, hj⟩ := htyped.mentions hx
      exact hj
    · obtain ⟨m, args, hf⟩ := Expr.mem_callees.1 hf
      exact ⟨_, _, htyped.calls_of_mem hf⟩
  · intro x hx
    obtain ⟨t, ht⟩ := hwf.main_typed.mentions hx
    exact hwf.mem_names ht
  · intro f hf
    obtain ⟨m, args, hf⟩ := Expr.mem_callees.1 hf
    exact ⟨_, _, hwf.main_typed.calls_of_mem hf⟩
  · obtain ⟨hok, herror⟩ := (Critter.renderProgram_writtenUnless hwf layout).outcome
    refine ⟨?_, herror⟩
    rw [hok, List.any_eq_false]
    simp

theorem RawProgram.counter_closed :
    ∃ q, (counter.compile (some counterLibrary) {}).result = .ok q ∧
      q.variables.map VarDecl.name = ["_var0", "_var1"] ∧
      (∀ x ∈ q.main.reads ++ q.main.targets, x ∈ q.variables.map VarDecl.name) ∧
      (∀ f ∈ q.main.callees, ∃ ts t, counter.Provides (some counterLibrary) f ts t) ∧
      ∃ text, Critter.renderProgram {} q = .ok text := by
  obtain ⟨q, hq, hinits⟩ : ∃ q, (counter.compile (some counterLibrary) {}).result = .ok q ∧
      ∀ v ∈ q.variables, v.init.hasCond = false := ⟨_, by rfl, by decide⟩
  obtain ⟨hnames, -, -, hmentions, hcalls, hrender⟩ := compile_closed (by decide) hq
  exact ⟨q, hq, hnames, hmentions, hcalls, (hrender {}).1.2 hinits⟩

end Rulebook
