import Rulebook.Proofs.Text.Reading
import Rulebook.Proofs.Text.Spelling

/-!
# The one-line text is unambiguous

The text of an expression (`Expr.text`) leaves out all brackets that precedence makes superfluous.
It is the text of the expression's words in round brackets (`Expr.toList_text`), these words can be
read from it one after another (`Display.first_spell`), and words determine the expression. So
expressions with one text are equal up to marks and the nesting of sequences
(`Expr.text_eq_text_iff`), as long as names look like names: a name that is a keyword or a number
could be taken for one.
-/

namespace Rulebook

/-! ## Names -/

/-- The words of the language that no name may be. -/
def keywords : List String := ["if", "then", "else", "true", "false"]

/-- Whether a letter can begin a name. -/
def beginsName (c : Char) : Bool := c.isAlpha || c == '_'

/-- Whether a letter can stand in a name. -/
def inName (c : Char) : Bool := c.isAlphanum || c == '_'

/-- A name: a letter or underscore, followed by letters, digits and underscores, that is no
keyword. -/
structure IsName (x : String) : Prop where
  begins : x.toList.head?.any beginsName = true
  letters : x.toList.all inName = true
  not_keyword : x ∉ keywords

instance (x : String) : Decidable (IsName x) :=
  decidable_of_iff
    (x.toList.head?.any beginsName = true ∧ x.toList.all inName = true ∧ x ∉ keywords)
    ⟨fun h => ⟨h.1, h.2.1, h.2.2⟩, fun h => ⟨h.begins, h.letters, h.not_keyword⟩⟩

theorem isDigit_of_beginsName {c : Char} (h : beginsName c = true) : c.isDigit = false := by
  simp only [beginsName, Bool.or_eq_true, beq_iff_eq] at h
  rcases h with h | rfl
  · change (decide (c.val ≥ 'A'.val ∧ c.val ≤ 'Z'.val) ||
      c.val ≥ 'a'.val && c.val ≤ 'z'.val) = true at h
    simp only [Bool.or_eq_true, Bool.and_eq_true, decide_eq_true_eq, UInt32.le_iff_toNat_le,
      ge_iff_le] at h
    rw [Bool.eq_false_iff]
    intro hdigit
    simp only [Char.isDigit, Bool.and_eq_true, decide_eq_true_eq, UInt32.le_iff_toNat_le,
      ge_iff_le] at hdigit
    have hA : 'A'.val.toNat = 65 := rfl
    have ha : 'a'.val.toNat = 97 := rfl
    have h9 : '9'.val.toNat = 57 := rfl
    omega
  · rfl

namespace IsName

variable {x : String} (h : IsName x)

include h

theorem exists_cons : ∃ c cs, x.toList = c :: cs ∧ beginsName c = true := by
  have hbegins := h.begins
  cases hx : x.toList with
  | nil => simp [hx] at hbegins
  | cons c cs =>
    rw [hx] at hbegins
    exact ⟨c, cs, rfl, hbegins⟩

theorem toList_ne_nil : x.toList ≠ [] := by
  obtain ⟨c, cs, hx, -⟩ := h.exists_cons
  rw [hx]
  exact List.cons_ne_nil c cs

theorem ne_if : x.toList ≠ "if".toList := by
  intro hif
  obtain rfl := String.toList_inj.1 hif
  exact h.not_keyword (by decide)

theorem inRun : ∀ c ∈ x.toList, inRun c = true := by
  intro c hc
  have hname : inName c = true := List.all_eq_true.1 h.letters c hc
  rw [Rulebook.inRun, ← inName, hname, Bool.true_or]

/-- A name is no literal. -/
theorem ofToken?_eq_none : Literal.ofToken? x = none := by
  obtain ⟨c, cs, hx, hc⟩ := h.exists_cons
  have hne : ∀ keyword ∈ keywords, x ≠ keyword := by
    rintro _ hmem rfl
    exact h.not_keyword hmem
  have hmagnitude : Literal.magnitude? (c :: cs) = none := by
    rw [Literal.magnitude?, if_neg]
    simp [isDigit_of_beginsName hc]
  rw [Literal.ofToken?, if_neg (hne "true" (by decide)), if_neg (hne "false" (by decide)), hx,
    Literal.integer?, hmagnitude]
  · rfl
  -- a name does not begin with a sign
  · rintro _ ⟨⟩
    exact absurd hc (by decide)
  · rintro _ ⟨⟩
    exact absurd hc (by decide)

end IsName

namespace Display

/-! ## Letters -/

/-- Round brackets everywhere. -/
def style : Style := ⟨fun _ => .round, .round⟩

/-- How words are written. -/
def written : Word → String
  | .lit v => v.text
  | .name x => x
  | .constant f => f ++ "()"
  | .callee f => f ++ "("
  | .bang => "!"
  | .opening _ => "("
  | .ifWord => "if "
  | .closing _ => ")"
  | .comma => ", "
  | .sign op => " " ++ op.symbol ++ " "
  | .thenWord => " then "
  | .elseWord => " else "
  | .becomes => " = "
  | .semicolon => "; "

/-- The letters of a word. -/
def spell (w : Word) : List Char := (written w).toList

/-- Names are names, and brackets are round. -/
def Sound : Word → Prop
  | .name x | .constant x | .callee x => IsName x
  | .opening b | .closing b => b = .round
  | _ => True

/-- The spelling of the one-line text. -/
def spelling : Spelling where
  spell := spell
  Sound := Sound
  head w hw := by
    cases w with
    | lit v =>
      obtain ⟨c, cs, hspell, hc⟩ := head_run (text_ne v rfl) (inRun_text v) []
      exact ⟨c, cs, (List.append_nil _).symm.trans hspell, hc⟩
    | name x =>
      obtain ⟨c, cs, hspell, hc⟩ := head_run hw.toList_ne_nil hw.inRun []
      exact ⟨c, cs, (List.append_nil _).symm.trans hspell, hc⟩
    | constant f | callee f =>
      rw [spell, written, String.toList_append]
      exact head_run hw.toList_ne_nil hw.inRun _
    | opening b | closing b =>
      cases hw
      exact ⟨_, _, rfl, rfl⟩
    | sign op => cases op <;> exact ⟨_, _, rfl, rfl⟩
    | bang | ifWord | comma | thenWord | elseWord | becomes | semicolon => exact ⟨_, _, rfl, rfl⟩

/-- The first word of an operand: a run of letters, with what follows it. -/
def firstOf (run rest : List Char) : Word :=
  if run = [] then if rest.head? = some '!' then .bang else .opening .round
  else if run = "if".toList then .ifWord
  else match Literal.ofToken? (String.ofList run) with
    | some v => .lit v
    | none =>
      if "()".toList <+: rest then .constant (String.ofList run)
      else if rest.head? = some '(' then .callee (String.ofList run)
      else .name (String.ofList run)

/-- The first word of a text, where an operand begins or where none does. -/
def first : Bool → List Char → Option Word
  | true, t => some (firstOf (t.takeWhile inRun) (t.dropWhile inRun))
  | false, ')' :: _ => some (.closing .round)
  | false, ',' :: _ => some .comma
  | false, ';' :: _ => some .semicolon
  | false, ' ' :: t =>
    match String.ofList (t.takeWhile (· ≠ ' ')) with
    | "then" => some .thenWord
    | "else" => some .elseWord
    | "=" => some .becomes
    | symbol => (Operator.ofSymbol? symbol).map .sign
  | false, _ => none

/-- **The first word of a text can be read.** -/
theorem first_spell (w : Word) (t : List Char) (hw : Sound w) (ht : spelling.GoesOn (!w.ends) t) :
    first w.starts (spell w ++ t) = some w := by
  have hrun : ∀ {run rest : List Char}, (∀ c ∈ run, inRun c = true) →
      (∀ c ∈ rest.head?, inRun c = false) → first true (run ++ rest) = some (firstOf run rest) := by
    intro run rest hrun hrest
    rw [first, takeWhile_run hrun hrest, dropWhile_run hrun hrest]
  have hname : ∀ {x : String} {rest : List Char}, IsName x → firstOf x.toList rest =
      if "()".toList <+: rest then .constant x
      else if rest.head? = some '(' then .callee x else .name x := by
    intro x rest hx
    rw [firstOf, if_neg hx.toList_ne_nil, if_neg hx.ne_if, String.ofList_toList,
      hx.ofToken?_eq_none]
  cases w with
  | lit v =>
    refine (hrun (inRun_text v) fun c hc => inRun_of_stop (ht.stop c hc)).trans ?_
    rw [firstOf, if_neg (text_ne v rfl), if_neg (text_ne v rfl),
      String.ofList_toList, Literal.ofToken?_text]
  | name x =>
    refine (hrun hw.inRun fun c hc => inRun_of_stop (ht.stop c hc)).trans ?_
    rw [hname hw, if_neg, if_neg]
    · intro hhead
      exact absurd (ht.stop '(' hhead) (by decide)
    · rintro ⟨u, rfl⟩
      exact absurd (ht.stop '(' rfl) (by decide)
  | constant f =>
    rw [spell, written, String.toList_append, List.append_assoc]
    refine (hrun hw.inRun (by rintro _ ⟨⟩; rfl)).trans ?_
    rw [hname hw, if_pos (List.prefix_append _ t)]
  | callee f =>
    obtain ⟨c, cs, rfl, hc⟩ := ht.operand
    rw [spell, written, String.toList_append, List.append_assoc]
    refine (hrun hw.inRun (by rintro _ ⟨⟩; rfl)).trans ?_
    rw [hname hw, if_neg, if_pos (show ("(".toList ++ c :: cs).head? = some '(' from rfl)]
    rintro ⟨u, hu⟩
    obtain ⟨rfl, -⟩ : ')' = c ∧ u = cs := by simpa using hu
    exact absurd hc (by decide)
  | bang => rfl
  | opening b =>
    cases hw
    rfl
  | closing b =>
    cases hw
    rfl
  | sign op => cases op <;> rfl
  | ifWord | comma | thenWord | elseWord | becomes | semicolon => rfl

/-! ## Words -/

theorem sound_of_within {e : Shape} (hnames : ∀ x ∈ e.reads ++ e.targets ++ e.callees, IsName x)
    {w : Word} (hw : w.Within style e) : Sound w := by
  cases w with
  | name x => exact hnames x (List.mem_append_left _ (List.mem_append.2 hw))
  | constant f | callee f => exact hnames f (List.mem_append_right _ hw)
  | opening b =>
    obtain ⟨d, rfl⟩ := hw
    rfl
  | closing b =>
    obtain rfl | ⟨d, rfl⟩ := hw <;> rfl
  | _ => trivial

end Display

namespace Expr

variable {μ : Type}

open Display

theorem needsBrackets_shape (place : Place) (e : Expr μ) :
    e.shape.needsBrackets place = e.needsBrackets place := by
  cases e <;> cases place <;> rfl

theorem toList_bracket {e : Expr μ} (h : e.text.toList = spelling.text (Shape.words style e.shape))
    (place : Place) :
    (bracket (e.needsBrackets place) e.text).toList =
      spelling.text
        (style.enclose (e.shape.needsBrackets place) e.shape (e.shape.words style)) := by
  rw [needsBrackets_shape]
  cases e.needsBrackets place with
  | true => simp [bracket, Style.enclose, h, spelling, spell, written]
  | false => exact h

/-- **The text of an expression is the text of its words.** -/
theorem toList_text (e : Expr μ) : e.text.toList = spelling.text (e.shape.words style) := by
  induction e with
  | lit m v => exact (List.append_nil _).symm
  | var m x => exact (List.append_nil _).symm
  | not m e ih =>
    rw [text, String.toList_append, toList_bracket ih]
    rfl
  | call m f args ih =>
    rw [text, texts_eq_map, shape_call, Shape.words_call, List.map_map]
    cases args with
    | nil => simp [Style.callWords, spelling, spell, written]
    | cons a args =>
      have hargs : List.Forall₂ (fun t ws => t.toList = spelling.text ws) (args.map text)
          (args.map (Shape.words style ∘ shape)) := by
        rw [List.forall₂_map_left_iff, List.forall₂_map_right_iff, List.forall₂_same]
        exact fun b hb => ih b (List.mem_cons_of_mem a hb)
      rw [List.map_cons, List.map_cons, Style.callWords, Spelling.text_cons, Function.comp_apply,
        ← Spelling.text_args style rfl (ih a List.mem_cons_self) hargs]
      simp [spelling, spell, written]
  | binary m op l r ihl ihr =>
    rw [text, shape_binary, Shape.words]
    simp only [Spelling.text_append, Spelling.text_cons, ← toList_bracket ihl, ← toList_bracket ihr]
    simp [spelling, spell, written]
  | cond m c t e ihc iht ihe =>
    rw [text, shape_cond, Shape.words]
    simp only [Spelling.text_append, Spelling.text_cons, ← toList_bracket ihc,
      ← toList_bracket iht, ← toList_bracket ihe]
    simp [spelling, spell, written]
  | assign m x e ih =>
    rw [text, shape_assign, Shape.words]
    simp only [Spelling.text_cons, ← toList_bracket ih]
    simp [spelling, spell, written]
  | seq m a b iha ihb =>
    rw [text, shape_seq, Shape.words]
    simp only [Spelling.text_append, Spelling.text_cons, ← toList_bracket iha, ← toList_bracket ihb]
    simp [spelling, spell, written]

/-- Every name that an expression reads, assigns or calls is a name. -/
def ProperlyNamed (e : Expr μ) : Prop := ∀ x ∈ e.reads ++ e.targets ++ e.callees, IsName x

instance (e : Expr μ) : Decidable e.ProperlyNamed :=
  inferInstanceAs (Decidable (∀ x ∈ e.reads ++ e.targets ++ e.callees, IsName x))

theorem ProperlyNamed.regular {e : Expr μ} (h : e.ProperlyNamed) :
    spelling.Regular true (e.shape.words style) := by
  refine ⟨Shape.alternates_words style e.shape, fun w hw => ?_⟩
  refine sound_of_within ?_ (Shape.within_words style e.shape w hw)
  have hreads : e.shape.reads = e.reads := collect_shape (fun d => by cases d <;> rfl) e
  have htargets : e.shape.targets = e.targets := collect_shape (fun d => by cases d <;> rfl) e
  have hcallees : e.shape.callees = e.callees := collect_shape (fun d => by cases d <;> rfl) e
  rw [hreads, htargets, hcallees]
  exact h

/-- **The one-line text is unambiguous**: properly named expressions have one text exactly if they
are equal up to marks and the nesting of sequences. -/
theorem text_eq_text_iff {d e : TypedExpr} (hd : d.ProperlyNamed) (he : e.ProperlyNamed) :
    d.text = e.text ↔ d.shape.rightNested = e.shape.rightNested := by
  rw [← String.toList_inj, toList_text, toList_text]
  have hnested : ∀ e : Shape, e.rightNested.words style = e.words style :=
    Shape.words_rightNested fun _ => rfl
  constructor
  · intro h
    have hwords := Spelling.text_injective (fun _ _ _ _ h => h) first_spell hd.regular he.regular h
    rw [← hnested, ← hnested e.shape] at hwords
    exact Shape.words_injective (Shape.rightNested_spec _) (Shape.rightNested_spec _) hwords
  · intro h
    rw [← hnested, h, hnested]

/-- `x = 1 - (x - 2); eat(); x = -3`, nested to the left and marked by one line. -/
def errandLeft : TypedExpr :=
  sequence
    (sequence (assignment "x" (operation .sub (literal (.int 1) 1)
        (operation .sub (.var ⟨.int, 1⟩ "x") (literal (.int 2) 1) 1) 1) 1)
      (.call ⟨.void, 1⟩ "eat" []) 1)
    (assignment "x" (literal (.int (-3)) 1) 1) 1

/-- The same, nested to the right and marked by another line. -/
def errandRight : TypedExpr :=
  sequence (assignment "x" (operation .sub (literal (.int 1) 2)
      (operation .sub (.var ⟨.int, 2⟩ "x") (literal (.int 2) 2) 2) 2) 2)
    (sequence (.call ⟨.void, 2⟩ "eat" []) (assignment "x" (literal (.int (-3)) 2) 2) 2) 2

theorem errandLeft_rightNested :
    errandLeft.ProperlyNamed ∧ errandRight.ProperlyNamed ∧ errandLeft ≠ errandRight ∧
      errandLeft.text = "x = 1 - (x - 2); eat(); x = -3" ∧ errandLeft.text = errandRight.text ∧
      errandLeft.shape.rightNested = errandRight.shape.rightNested := by
  have hleft : errandLeft.ProperlyNamed := by decide
  have hright : errandRight.ProperlyNamed := by decide
  have htext : errandLeft.text = errandRight.text := by decide
  exact ⟨hleft, hright, by decide, by decide, htext, (text_eq_text_iff hleft hright).1 htext⟩

end Expr

end Rulebook
