import Rulebook.Proofs.Critter.Closure
import Rulebook.Proofs.Critter.Spelling
import Rulebook.Proofs.Machine.Alike
import Rulebook.Proofs.Text.Reading

/-!
# Critter text is unambiguous

Critters have no truth values, and the text of an expression leaves out types, lines, the nesting of
sequences and all brackets that precedence makes superfluous. What is left determines what the
expression does: two expressions with one text, evaluated on one machine, do the same
(`Critter.eval_of_render_eq`).

The text is that of the words of the expression with its truth values written as comparisons
(`Critter.toList_render`). From it the expression `written` is found up to the nesting of sequences,
and an expression does the same as what critters read (`Critter.eval_written`,
`Critter.eval_rightNested`).
-/

namespace Rulebook.Critter

/-! ## What critters read -/

mutual

/-- The expression as critters read it, with truth values written as comparisons. -/
def written : TypedExpr → Shape
  | .lit _ (.int n) => .lit () (.int n)
  | .lit _ (.bool b) => .binary () .eq (.lit () (.int 1)) (.lit () (.int (if b then 1 else 0)))
  | .var _ x => .var () x
  | .not _ e => .not () (written e)
  | .call _ f args => .call () f (writtenArgs args)
  | .binary _ op l r => .binary () op (written l) (written r)
  | .cond _ c t e => .cond () (written c) (written t) (written e)
  | .assign _ x e => .assign () x (written e)
  | .seq _ a b => .seq () (written a) (written b)

/-- Every argument as critters read it. -/
def writtenArgs : List TypedExpr → List Shape
  | [] => []
  | e :: es => written e :: writtenArgs es

end

@[simp] theorem writtenArgs_eq_map (es : List TypedExpr) : writtenArgs es = es.map written := by
  induction es with
  | nil => rfl
  | cons e es ih => rw [writtenArgs, ih, List.map_cons]

/-- Names with slots can be read, at all types, and assigned integers; what can be called is the
library. -/
def context (slots : Slots) : Context where
  reads x _ := ∃ slot, slots.find? x = some slot
  writes x t := t = .int ∧ ∃ slot, slots.find? x = some slot
  calls := Offers (some library)

/-- Whether the operands of the root, if it is an operator, are not of type `void`. -/
def solidRoot : TypedExpr → Bool
  | .binary _ _ l r => l.ty ≠ .void && r.ty ≠ .void
  | _ => true

/-- No operand of an operator is of type `void`. -/
def SolidOperands (e : TypedExpr) : Prop := ∀ d ∈ e.subterms, solidRoot d = true

instance (e : TypedExpr) : Decidable (SolidOperands e) :=
  inferInstanceAs (Decidable (∀ d ∈ e.subterms, solidRoot d = true))

/-- An expression that can be written without loss: its variables have slots, its calls are those of
the library, what it assigns and what it puts beside operators has a value, and there are no
conditionals. -/
structure Writable (slots : Slots) (e : TypedExpr) : Prop where
  typed : e.WellTyped (context slots)
  condFree : e.hasCond = false
  solid : SolidOperands e

/-- The type of the values that an operation gives. -/
def returns (f : String) : Ty := ((library.find? f).map Operation.ret).getD .void

theorem eq_returns {f : String} {ts : List Ty} {t : Ty} (h : Offers (some library) f ts t) :
    f ∈ operations ∧ t = returns f := by
  have hreturns : ∀ op ∈ library.operations, returns op.name = op.ret := by decide
  obtain ⟨_, ⟨⟩, op, hop, rfl, -, rfl⟩ := h
  exact ⟨List.mem_map_of_mem hop, (hreturns op hop).symm⟩

variable {slots : Slots} {d e : TypedExpr} {text : String}

theorem SolidOperands.mono (h : SolidOperands e) (hd : d ∈ e.subterms) : SolidOperands d :=
  fun c hc => h c (Expr.mem_subterms_trans hc hd)

/-! ## Brackets -/

/-- What has a value of its own is no assignment and no sequence, and conditionals are not
written. -/
theorem level_le_two (h : e.WellTyped (context slots)) (hvoid : e.ty ≠ .void)
    (hr : render slots e = .ok text) : e.level ≤ 2 := by
  cases h with
  | cond => cases hr
  | assign hm => exact absurd hm hvoid
  | seq hm => exact absurd hm hvoid
  | lit | var | not | call | binary => simp [Expr.level]

theorem level_written (h : e.level ≤ 2) : (written e).level ≤ 2 := by
  cases e with
  | lit m v => cases v <;> simp [written, Expr.level]
  | _ => exact h

/-- Whether an expression is bracketed under `!` or beside an operator. -/
def bracketedIn : Place → TypedExpr → Bool
  | .negated, e => bracketedRight 0 e
  | .left op, e => bracketedLeft op.precedence e
  | .right op, e => bracketedRight op.precedence e
  | _, _ => false

theorem strength_pos {place : Place} (h : bracketedIn place e = true) : 0 < strength e := by
  cases place with
  | negated | left | right =>
    simp only [bracketedIn, bracketedRight, bracketedLeft, Bool.and_eq_true,
      decide_eq_true_eq] at h
    exact h.1
  | part | value | step => cases h

/-- Brackets are where the form of what is written needs them. -/
theorem bracketedIn_eq {place : Place} (hplace : place.level ≤ 2) (h : e.level ≤ 2) :
    bracketedIn place e = (written e).needsBrackets place := by
  cases e with
  | lit m v =>
    cases v with
    | int n =>
      cases place with
      | negated | left | right => rfl
      | part | value | step => simp [Place.level] at hplace
    | bool b =>
      cases place with
      | negated => rfl
      | left op | right op => cases op <;> rfl
      | part | value | step => simp [Place.level] at hplace
  | binary m inner l r =>
    have hpos : decide (0 < inner.precedence) = true := by cases inner <;> rfl
    cases place with
    | negated =>
      rw [bracketedIn, bracketedRight, strength, hpos, Bool.true_and,
        decide_eq_true (Nat.zero_le _)]
      rfl
    | left op =>
      rw [bracketedIn, bracketedLeft, strength, hpos, Bool.true_and]
      rfl
    | right op =>
      rw [bracketedIn, bracketedRight, strength, hpos, Bool.true_and]
      rfl
    | part | value | step => simp [Place.level] at hplace
  | var | not | call =>
    cases place with
    | negated | left | right => rfl
    | part | value | step => simp [Place.level] at hplace
  | cond | assign | seq => simp [Expr.level] at h

theorem around_written (h : e.WellTyped (context slots)) (hstrength : 0 < strength e) :
    style.around (written e) = if e.ty = .bool then .curly else .round := by
  cases h with
  | @lit m v hm =>
    cases v with
    | int n => simp [strength] at hstrength
    | bool b => simp [hm, Literal.ty, written, style, Operator.resultTy, Operator.cls]
  | binary hm => simp [hm, written, style]
  | _ => simp [strength] at hstrength

theorem toList_bracket {place : Place} (hplace : place.level ≤ 2) (h : e.WellTyped (context slots))
    (hvoid : e.ty ≠ .void) (hr : render slots e = .ok text)
    (htext : text.toList = (spelling slots).text ((written e).words style)) :
    (bracket (bracketedIn place e) e text).toList = (spelling slots).text
      (style.enclose ((written e).needsBrackets place) (written e) ((written e).words style)) := by
  rw [← bracketedIn_eq hplace (level_le_two h hvoid hr)]
  cases hneeded : bracketedIn place e with
  | false => exact htext
  | true =>
    rw [Style.enclose, if_pos rfl, around_written h (strength_pos hneeded), bracket, if_pos rfl]
    split <;> simp [spelling, spell, htext]

/-! ## Text -/

theorem toList_literal (m : Mark) (v : Literal) :
    (literal v).toList = (spelling slots).text ((written (.lit m v)).words style) := by
  cases v with
  | int n => exact (List.append_nil _).symm
  | bool b => cases b <;> rfl

theorem toList_cellOf {x : String} {line : Line} (h : cellOf slots x line = .ok text) :
    text.toList = spell slots (.name x) := by
  unfold cellOf at h
  split at h
  · next slot hslot =>
    cases h
    rw [spell, slotOf, hslot, Option.getD_some]
  · cases h

/-- **The text of an expression is the text of the words that critters read.** -/
theorem toList_render (h : e.WellTyped (context slots)) (hsolid : SolidOperands e)
    (hr : render slots e = .ok text) :
    text.toList = (spelling slots).text ((written e).words style) := by
  induction h generalizing text with
  | @lit m v =>
    cases hr
    exact toList_literal m v
  | var => exact (toList_cellOf hr).trans (List.append_nil _).symm
  | @not m e _ hbool htyped ih =>
    obtain ⟨t, ht, hret⟩ := bind_eq_ok.1 hr
    cases hret
    have he := ih (hsolid.mono (by simp [Expr.subterms, Expr.self_mem_subterms])) ht
    have hbracket : (bracket (bracketedIn .negated e) e t).toList = _ :=
      toList_bracket (by decide) htyped (by rw [hbool]; decide) ht he
    rw [written, Shape.words, Spelling.text_cons, ← hbracket, String.toList_append]
    rfl
  | @call m f args hf hargs ih =>
    rw [render, renderArgs_eq_mapM] at hr
    obtain ⟨ts, hts, hret⟩ := bind_eq_ok.1 hr
    cases hret
    have htexts : List.Forall₂ (fun t ws => t.toList = (spelling slots).text ws) ts
        ((args.map written).map (Shape.words style)) := by
      rw [List.map_map, List.forall₂_map_right_iff]
      exact (forall₂_of_mem (mapM_eq_ok.1 hts) fun a ha t ht =>
        ih a ha (hsolid.mono (Expr.mem_subterms_call ha m f)) ht).flip
    rw [written, writtenArgs_eq_map, Shape.words_call]
    generalize (args.map written).map (Shape.words style) = wss at htexts
    cases htexts with
    | nil => exact (List.append_nil _).symm
    | cons ht hrest =>
      rw [Style.callWords, Spelling.text_cons, ← Spelling.text_args style rfl ht hrest]
      simp [callText, spelling, spell, style]
  | @binary m op l r hm htake hl hr' ihl ihr =>
    obtain ⟨tl, htl, hrest⟩ := bind_eq_ok.1 hr
    obtain ⟨tr, htr, hret⟩ := bind_eq_ok.1 hrest
    cases hret
    obtain ⟨hvl, hvr⟩ : l.ty ≠ .void ∧ r.ty ≠ .void := by
      simpa [solidRoot] using hsolid _ (Expr.self_mem_subterms _)
    have htl' := ihl (hsolid.mono (by simp [Expr.subterms, Expr.self_mem_subterms])) htl
    have htr' := ihr (hsolid.mono (by simp [Expr.subterms, Expr.self_mem_subterms])) htr
    have hleft : (bracket (bracketedIn (.left op) l) l tl).toList = _ :=
      toList_bracket (Nat.le_refl 2) hl hvl htl htl'
    have hright : (bracket (bracketedIn (.right op) r) r tr).toList = _ :=
      toList_bracket (Nat.le_refl 2) hr' hvr htr htr'
    rw [written, Shape.words, Spelling.text_append, Spelling.text_cons, ← hleft, ← hright]
    simp [spelling, spell, bracketedIn]
  | cond => cases hr
  | @assign m x e hm hx htyped ih =>
    obtain ⟨target, htarget, hrest⟩ := bind_eq_ok.1 hr
    obtain ⟨t, ht, hret⟩ := bind_eq_ok.1 hrest
    cases hret
    have he := ih (hsolid.mono (by simp [Expr.subterms, Expr.self_mem_subterms])) ht
    have hlevel : (written e).level ≤ 2 :=
      level_written (level_le_two htyped (by rw [hx.1]; decide) ht)
    rw [written, Shape.words_assign, Shape.wordsUpTo_of_le (by omega), Spelling.text_cons,
      Spelling.text_cons, ← he]
    simp [spelling, toList_cellOf htarget, spell]
  | @seq m a b hm hva hvb ha hb iha ihb =>
    obtain ⟨ta, hta, hrest⟩ := bind_eq_ok.1 hr
    obtain ⟨tb, htb, hret⟩ := bind_eq_ok.1 hrest
    cases hret
    rw [written, Shape.words_seq, Spelling.text_append, Spelling.text_cons,
      ← iha (hsolid.mono (by simp [Expr.subterms, Expr.self_mem_subterms])) hta,
      ← ihb (hsolid.mono (by simp [Expr.subterms, Expr.self_mem_subterms])) htb]
    simp [spelling, spell]

/-! ## Words -/

/-- The root can be written: its name has a slot, its operation is known, it is no conditional. -/
def Known (slots : Slots) : Shape → Prop
  | .var _ x | .assign _ x _ => ∃ slot, slots.find? x = some slot
  | .call _ f _ => f ∈ operations
  | .cond .. => False
  | _ => True

theorem known_written (h : e.WellTyped (context slots)) (hr : render slots e = .ok text) :
    ∀ s ∈ (written e).subterms, Known slots s := by
  induction h generalizing text with
  | @lit m v =>
    cases v <;> simp [written, Expr.subterms, Known]
  | var hx =>
    rw [written, Expr.subterms]
    exact List.forall_mem_singleton.2 hx
  | not _ _ _ ih =>
    obtain ⟨t, ht, -⟩ := bind_eq_ok.1 hr
    rw [written, Expr.subterms]
    exact List.forall_mem_cons.2 ⟨trivial, ih ht⟩
  | @call m f args hf _ ih =>
    rw [render, renderArgs_eq_mapM] at hr
    obtain ⟨ts, hts, -⟩ := bind_eq_ok.1 hr
    rw [written, writtenArgs_eq_map, Expr.subterms, Expr.subtermsList_eq_flatMap]
    refine List.forall_mem_cons.2 ⟨(eq_returns hf).1, fun s hs => ?_⟩
    obtain ⟨_, hmem, hs⟩ := List.mem_flatMap.1 hs
    obtain ⟨a, ha, rfl⟩ := List.mem_map.1 hmem
    obtain ⟨t, -, ht⟩ := exists_mem_right (mapM_eq_ok.1 hts) ha
    exact ih a ha ht s hs
  | binary _ _ _ _ ihl ihr =>
    obtain ⟨tl, htl, hrest⟩ := bind_eq_ok.1 hr
    obtain ⟨tr, htr, -⟩ := bind_eq_ok.1 hrest
    rw [written, Expr.subterms]
    exact List.forall_mem_cons.2 ⟨trivial, List.forall_mem_append.2 ⟨ihl htl, ihr htr⟩⟩
  | cond => cases hr
  | assign _ hx _ ih =>
    obtain ⟨target, -, hrest⟩ := bind_eq_ok.1 hr
    obtain ⟨t, ht, -⟩ := bind_eq_ok.1 hrest
    rw [written, Expr.subterms]
    exact List.forall_mem_cons.2 ⟨hx.2, ih ht⟩
  | seq _ _ _ _ _ iha ihb =>
    obtain ⟨ta, hta, hrest⟩ := bind_eq_ok.1 hr
    obtain ⟨tb, htb, -⟩ := bind_eq_ok.1 hrest
    rw [written, Expr.subterms]
    exact List.forall_mem_cons.2 ⟨trivial, List.forall_mem_append.2 ⟨iha hta, ihb htb⟩⟩

theorem sound_of_within {s : Shape} (h : ∀ d ∈ s.subterms, Known slots d) {w : Word}
    (hw : w.Within style s) : Sound slots w := by
  cases w with
  | name x =>
    rcases hw with hx | hx
    · obtain ⟨m, hx⟩ := Expr.mem_reads.1 hx
      exact h _ hx
    · obtain ⟨m, v, hx⟩ := Expr.mem_targets.1 hx
      exact h _ hx
  | constant f | callee f =>
    obtain ⟨m, args, hf⟩ := Expr.mem_callees.1 hw
    exact h _ hf
  | opening b =>
    obtain ⟨d, rfl⟩ := hw
    cases d with
    | binary m op l r => cases op <;> exact nofun
    | _ => exact nofun
  | ifWord | thenWord | elseWord =>
    obtain ⟨c, hc⟩ := hw
    obtain ⟨d, hd, htest⟩ := Expr.mem_collect.1 hc
    cases d with
    | cond => exact h _ hd
    | _ => cases htest
  | _ => trivial

theorem regular_written (h : e.WellTyped (context slots)) (hr : render slots e = .ok text) :
    (spelling slots).Regular true ((written e).words style) :=
  ⟨Shape.alternates_words style _, fun w hw =>
    sound_of_within (known_written h hr) (Shape.within_words style _ w hw)⟩

theorem around_rightNested (s : Shape) : style.around s.rightNested = style.around s := by
  cases s with
  | seq m a b =>
    rw [Shape.rightNested]
    cases Shape.rightNested a <;> rfl
  | _ => rfl

/-! ## Evaluation -/

mutual

/-- A typed expression of the given shape. -/
def typed : Shape → TypedExpr
  | .lit _ v => .lit ⟨.void, 0⟩ v
  | .var _ x => .var ⟨.void, 0⟩ x
  | .not _ e => .not ⟨.void, 0⟩ (typed e)
  | .call _ f args => .call ⟨returns f, 0⟩ f (typedArgs args)
  | .binary _ op l r => .binary ⟨.void, 0⟩ op (typed l) (typed r)
  | .cond _ c t e => .cond ⟨.void, 0⟩ (typed c) (typed t) (typed e)
  | .assign _ x e => .assign ⟨.void, 0⟩ x (typed e)
  | .seq _ a b => .seq ⟨.void, 0⟩ (typed a) (typed b)

/-- Typed arguments of the given shapes. -/
def typedArgs : List Shape → List TypedExpr
  | [] => []
  | e :: es => typed e :: typedArgs es

end

@[simp] theorem typedArgs_eq_map (es : List Shape) : typedArgs es = es.map typed := by
  induction es with
  | nil => rfl
  | cons e es ih => rw [typedArgs, ih, List.map_cons]

open EvalM (Alike)

variable {σ : Type} (h : Host σ)

/-- **An expression does what critters read.** -/
theorem eval_written (he : e.WellTyped (context slots)) :
    Alike Eq Eq (e.eval h) ((typed (written e)).eval h) := by
  induction he with
  | @lit m v =>
    cases v with
    | int n => exact .refl _
    | bool b => cases b <;> exact .refl _
  | var => exact Expr.alike_var _
  | not _ _ _ ih => exact Expr.alike_not ih
  | call hf _ ih =>
    rw [written, writtenArgs_eq_map, typed, typedArgs_eq_map, List.map_map]
    refine Expr.alike_call (eq_returns hf).2 ?_
    rw [List.forall₂_map_right_iff, List.forall₂_same]
    exact ih
  | binary _ _ _ _ ihl ihr => exact Expr.alike_binary ihl ihr
  | cond _ _ _ _ _ _ ihc iht ihe => exact Expr.alike_cond ihc iht ihe
  | assign _ _ _ ih => exact Expr.alike_assign ih
  | seq _ _ _ _ _ iha ihb => exact Expr.alike_seq iha ihb

theorem eval_andThen (a b : Shape) :
    Alike Eq Eq ((typed (.seq () a b)).eval h) ((typed (a.andThen b)).eval h) := by
  induction a using Expr.induct with
  | seq m a a' _ ih =>
    have hassoc : (typed (.seq () (.seq m a a') b)).eval h =
        (typed (.seq () a (.seq () a' b))).eval h := by
      simp [typed, Expr.eval]
    rw [hassoc]
    exact Expr.alike_seq (.refl _) ih
  | _ => exact .refl _

/-- The nesting of sequences does not matter. -/
theorem eval_rightNested (s : Shape) :
    Alike Eq Eq ((typed s).eval h) ((typed s.rightNested).eval h) := by
  induction s using Expr.induct with
  | lit | var => exact .refl _
  | not m e ih => exact Expr.alike_not ih
  | call m f args ih =>
    rw [Shape.rightNested, Shape.rightNestedArgs_eq_map, typed, typed, typedArgs_eq_map,
      typedArgs_eq_map, List.map_map]
    refine Expr.alike_call rfl ?_
    rw [List.forall₂_map_left_iff, List.forall₂_map_right_iff, List.forall₂_same]
    exact ih
  | binary m op l r ihl ihr => exact Expr.alike_binary ihl ihr
  | cond m c t e ihc iht ihe => exact Expr.alike_cond ihc iht ihe
  | assign m x e ih => exact Expr.alike_assign ih
  | seq m a b iha ihb => exact (Expr.alike_seq iha ihb).trans (eval_andThen h _ _)

/-- What can be written without loss can be written. -/
theorem Writable.exists_text (he : Writable slots e) : ∃ text, render slots e = .ok text := by
  have htyped : e.WellTyped (.of (fun x _ => ∃ slot, slots.find? x = some slot)
      (Offers (some library))) :=
    he.typed.mono (fun _ _ hx => hx) (fun _ _ hx => hx.2) fun _ _ _ hf => hf
  have hwritten := render_writtenUnless (fun _ _ hx => hx) htyped
  exact hwritten.outcome.1.2 he.condFree

/-- **Critter text is unambiguous.** If no two variables share a slot, then two expressions that can
be written without loss and have one text do the same on every machine: both succeed with the same
value or both fail, and leave the same memory and the same state of the host. -/
theorem eval_of_render_eq (hslots : Apart slots) (hd : Writable slots d) (he : Writable slots e)
    (hrender : render slots d = render slots e) (m : Machine σ) :
    (∃ v m', (d.eval h).run m = (.ok v, m') ∧ (e.eval h).run m = (.ok v, m')) ∨
      ∃ err err' m', (d.eval h).run m = (.error err, m') ∧ (e.eval h).run m = (.error err', m') := by
  obtain ⟨text, hetext⟩ := he.exists_text
  have hdtext := hrender.trans hetext
  have hwords : (written d).words style = (written e).words style :=
    Spelling.text_injective (key_injective hslots) first_spell (regular_written hd.typed hdtext)
      (regular_written he.typed hetext)
      ((toList_render hd.typed hd.solid hdtext).symm.trans (toList_render he.typed he.solid hetext))
  have hnested : (written d).rightNested = (written e).rightNested := by
    rw [← Shape.words_rightNested around_rightNested,
      ← Shape.words_rightNested around_rightNested (written e)] at hwords
    exact Shape.words_injective (Shape.rightNested_spec _) (Shape.rightNested_spec _) hwords
  have hread : ∀ {e : TypedExpr}, e.WellTyped (context slots) →
      Alike Eq Eq (e.eval h) ((typed (written e).rightNested).eval h) :=
    fun he => (eval_written h he).trans (eval_rightNested h _)
  have hdread := hread hd.typed
  rw [hnested] at hdread
  exact (hdread.trans (hread he.typed).symm).run_eq m

/-! A condition with a truth value in it, and one that compares numbers instead. -/

/-- `!test && nearby(1) < a` -/
def wary (test : TypedExpr) : TypedExpr :=
  .operation .and (.negation test 1)
    (.operation .lt (.call ⟨.int, 1⟩ "nearby" [.literal (.int 1) 1]) (.var ⟨.int, 1⟩ "a") 1) 1

/-- `1 == 1` -/
def sameOnes : TypedExpr := .operation .eq (.literal (.int 1) 2) (.literal (.int 1) 2) 2

/-- Two variables and their slots. -/
def twoSlots : Slots := ⟨[("a", 9), ("b", 10)]⟩

/-- A memory in which `a` is `5`, and a recorder that has seen no call. -/
def fiveInA : Machine Recorder := ⟨⟨[("a", .int 5)]⟩, .start .empty⟩

theorem apart_twoSlots : Apart twoSlots := by
  intro x y slot hx hy
  simp only [twoSlots, Bindings.find?, Bindings.lookup_cons_eq_ite, List.lookup_nil] at hx hy
  grind

theorem wellTyped_wary {test : TypedExpr} (h : test.WellTyped (context twoSlots))
    (hbool : test.ty = .bool) : (wary test).WellTyped (context twoSlots) := by
  have hnearby : Offers (some library) "nearby" [.int] .int :=
    ⟨library, rfl, plain [.int] .int "nearby", by decide, rfl, rfl, rfl⟩
  refine .binary rfl ⟨rfl, rfl⟩ (.not rfl hbool h)
    (.binary rfl ⟨rfl, rfl⟩ (.call hnearby ?_) (.var ⟨9, rfl⟩))
  exact List.forall_mem_singleton.2 (.lit rfl)

theorem wary_eval_eq :
    Apart twoSlots ∧ Writable twoSlots (wary (.literal (.bool true) 1)) ∧
      Writable twoSlots (wary sameOnes) ∧
      render twoSlots (wary (.literal (.bool true) 1)) = render twoSlots (wary sameOnes) ∧
      render twoSlots (wary sameOnes) = .ok "!\x7b1 = 1\x7d and nearby[1] < mem[9]" ∧
      ((wary sameOnes).eval Recorder.host).run fiveInA =
        (.ok (.bool false), ⟨fiveInA.memory, ⟨.empty, [⟨"nearby", [.int 1]⟩]⟩⟩) := by
  have htrue : Writable twoSlots (wary (.literal (.bool true) 1)) :=
    ⟨wellTyped_wary (.lit rfl) rfl, rfl, by decide⟩
  have hones : Writable twoSlots (wary sameOnes) :=
    ⟨wellTyped_wary (.binary rfl rfl (.lit rfl) (.lit rfl)) rfl, rfl, by decide⟩
  have hrender : render twoSlots (wary (.literal (.bool true) 1)) =
      render twoSlots (wary sameOnes) := rfl
  have hrun : ((wary (.literal (.bool true) 1)).eval Recorder.host).run fiveInA =
      (.ok (.bool false), ⟨fiveInA.memory, ⟨.empty, [⟨"nearby", [.int 1]⟩]⟩⟩) := rfl
  refine ⟨apart_twoSlots, htrue, hones, hrender, by decide, ?_⟩
  rcases eval_of_render_eq Recorder.host apart_twoSlots htrue hones hrender fiveInA with
    ⟨v, m', hx, hy⟩ | ⟨err, err', m', hx, -⟩
  · rw [hrun] at hx
    rw [hy, ← hx]
  · rw [hrun] at hx
    cases hx

end Rulebook.Critter
