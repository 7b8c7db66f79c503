import Rulebook.Expr.Text
import Rulebook.Proofs.Occurrence

/-!
# Expressions as words

Between an expression and its text stand the words of the text: names, literals, signs, brackets.
An expression is written in words by a `Style`, which says what brackets look like; which brackets
there are is the same in all styles. The text of an expression is its words spelled out, so that a
text is read in two steps, from letters to words and from words to expressions, and each step can be
shown to be unambiguous by itself.

* `Shape.words` are the words of an expression, of which only the shape counts;
* `Shape.alternates_words`: words that begin an operand and words that end one take turns;
* `Shape.within_words`: the words spell what occurs in the expression;
* `Shape.words_rightNested`: sequences nested to the right have the same words.
-/

namespace Rulebook

/-- An expression without marks. -/
abbrev Shape := Expr Unit

/-- The expression without its marks. -/
def Expr.shape {μ : Type} (e : Expr μ) : Shape := e.map fun _ => ()

namespace Expr

variable {μ : Type} (m : μ)

@[simp] theorem shape_lit (v : Literal) : (lit m v).shape = .lit () v := rfl

@[simp] theorem shape_var (x : String) : (var m x).shape = .var () x := rfl

@[simp] theorem shape_not (e : Expr μ) : (Expr.not m e).shape = .not () e.shape := rfl

@[simp] theorem shape_call (f : String) (args : List (Expr μ)) :
    (call m f args).shape = .call () f (args.map shape) :=
  congrArg (Expr.call () f) (mapList_eq_map _ args)

@[simp] theorem shape_binary (op : Operator) (l r : Expr μ) :
    (binary m op l r).shape = .binary () op l.shape r.shape := rfl

@[simp] theorem shape_cond (c t e : Expr μ) :
    (Expr.cond m c t e).shape = .cond () c.shape t.shape e.shape := rfl

@[simp] theorem shape_assign (x : String) (e : Expr μ) :
    (assign m x e).shape = .assign () x e.shape := rfl

@[simp] theorem shape_seq (a b : Expr μ) : (seq m a b).shape = .seq () a.shape b.shape := rfl

/-- What is collected without regard to marks is collected from the shape. -/
theorem collect_shape {α : Type} {p : Shape → Option α} {q : Expr μ → Option α}
    (h : ∀ d : Expr μ, p d.shape = q d) (e : Expr μ) : e.shape.collect p = e.collect q := by
  rw [collect, shape, subterms_map, List.filterMap_map]
  exact List.filterMap_congr fun d _ => h d

end Expr

/-- The forms of brackets. -/
inductive Bracket where
  | round
  | curly
  | square
  deriving DecidableEq

/-- A word of a written expression. -/
inductive Word where
  | lit (v : Literal)
  /-- A variable that is read or assigned. -/
  | name (x : String)
  /-- A call without arguments. -/
  | constant (f : String)
  /-- The beginning of a call with arguments. -/
  | callee (f : String)
  | bang
  | opening (b : Bracket)
  | ifWord
  | closing (b : Bracket)
  | comma
  | sign (op : Operator)
  | thenWord
  | elseWord
  | becomes
  | semicolon
  deriving DecidableEq

namespace Word

/-- Whether the word can stand at the beginning of an operand. -/
def starts : Word → Bool
  | .lit _ | .name _ | .constant _ | .callee _ | .bang | .opening _ | .ifWord => true
  | _ => false

/-- Whether the word can stand at the end of an operand. -/
def ends : Word → Bool
  | .lit _ | .name _ | .constant _ | .closing _ => true
  | _ => false

/-- The words take turns: an operand begins exactly where the word before ends none. The flag says
whether one begins with the first word. -/
def Alternates : Bool → List Word → Prop
  | begins, [] => begins = false
  | begins, w :: ws => w.starts = begins ∧ Alternates (!w.ends) ws

end Word

/-- How expressions are written in words. -/
structure Style where
  /-- The brackets around an expression. -/
  around : Shape → Bracket
  /-- The bracket that ends a call with arguments. -/
  call : Bracket

namespace Style

/-- The words of `e`, bracketed if need be. -/
def enclose (style : Style) (needed : Bool) (e : Shape) (ws : List Word) : List Word :=
  if needed then .opening (style.around e) :: (ws ++ [.closing (style.around e)]) else ws

/-- The words of the arguments after the first, and of the end of the call. -/
def moreArgs (style : Style) : List (List Word) → List Word
  | [] => [.closing style.call]
  | ws :: rest => .comma :: (ws ++ moreArgs style rest)

/-- The words of a call. -/
def callWords (style : Style) (f : String) : List (List Word) → List Word
  | [] => [.constant f]
  | ws :: rest => .callee f :: (ws ++ style.moreArgs rest)

end Style

/-- The word spells something that occurs in `e`, or a sign. -/
def Word.Within (style : Style) (e : Shape) : Word → Prop
  | .lit v => v ∈ e.collect Expr.literal?
  | .name x => x ∈ e.reads ∨ x ∈ e.targets
  | .constant f | .callee f => f ∈ e.callees
  | .opening b => ∃ d, b = style.around d
  | .closing b => b = style.call ∨ ∃ d, b = style.around d
  | .ifWord | .thenWord | .elseWord => ∃ c, c ∈ e.tests
  | _ => True

namespace Shape

mutual

/-- The words of an expression. -/
def words (style : Style) : Shape → List Word
  | .lit _ v => [.lit v]
  | .var _ x => [.name x]
  | .not _ e => .bang :: style.enclose (e.needsBrackets .negated) e (words style e)
  | .call _ f args => style.callWords f (wordsArgs style args)
  | .binary _ op l r =>
    style.enclose (l.needsBrackets (.left op)) l (words style l) ++
      .sign op :: style.enclose (r.needsBrackets (.right op)) r (words style r)
  | .cond _ c t e =>
    .ifWord :: (style.enclose (c.needsBrackets .part) c (words style c) ++
      .thenWord :: (style.enclose (t.needsBrackets .part) t (words style t) ++
        .elseWord :: style.enclose (e.needsBrackets .part) e (words style e)))
  | .assign _ x e =>
    .name x :: .becomes :: style.enclose (e.needsBrackets .value) e (words style e)
  | .seq _ a b =>
    style.enclose (a.needsBrackets .step) a (words style a) ++
      .semicolon :: style.enclose (b.needsBrackets .step) b (words style b)

/-- The words of every argument. -/
def wordsArgs (style : Style) : List Shape → List (List Word)
  | [] => []
  | e :: es => words style e :: wordsArgs style es

end

@[simp] theorem wordsArgs_eq_map (style : Style) (es : List Shape) :
    wordsArgs style es = es.map (words style) := by
  induction es with
  | nil => rfl
  | cons e es ih => rw [wordsArgs, ih, List.map_cons]

/-! ## Places without operators

In these a part is bracketed if it binds no tighter than a bound says. -/

/-- The words of an expression in a place that takes expressions up to the level `k`. -/
def wordsUpTo (style : Style) (k : ℕ) (e : Shape) : List Word :=
  style.enclose (k < e.level) e (words style e)

variable {style : Style} {k : ℕ} {e : Shape}

theorem wordsUpTo_of_le (h : e.level ≤ k) : wordsUpTo style k e = words style e := by
  rw [wordsUpTo, Style.enclose, if_neg (by simpa using h)]

theorem wordsUpTo_of_lt (h : k < e.level) :
    wordsUpTo style k e =
      .opening (style.around e) :: (words style e ++ [.closing (style.around e)]) := by
  rw [wordsUpTo, Style.enclose, if_pos (by simpa using h)]

theorem needsBrackets_negated (e : Shape) : e.needsBrackets .negated = decide (1 < e.level) := by
  cases e <;> rfl

theorem needsBrackets_part (e : Shape) : e.needsBrackets .part = decide (2 < e.level) := by
  cases e <;> rfl

theorem needsBrackets_value (e : Shape) : e.needsBrackets .value = decide (3 < e.level) := by
  cases e <;> rfl

theorem needsBrackets_step (e : Shape) : e.needsBrackets .step = false := by
  cases e <;> rfl

theorem words_not (m : Unit) (e : Shape) :
    words style (.not m e) = .bang :: wordsUpTo style 1 e := by
  rw [words, needsBrackets_negated]
  rfl

theorem words_cond (m : Unit) (c t e : Shape) :
    words style (.cond m c t e) =
      .ifWord :: (wordsUpTo style 2 c ++
        .thenWord :: (wordsUpTo style 2 t ++ .elseWord :: wordsUpTo style 2 e)) := by
  rw [words, needsBrackets_part, needsBrackets_part, needsBrackets_part]
  rfl

theorem words_assign (m : Unit) (x : String) (e : Shape) :
    words style (.assign m x e) = .name x :: .becomes :: wordsUpTo style 3 e := by
  rw [words, needsBrackets_value]
  rfl

theorem words_seq (m : Unit) (a b : Shape) :
    words style (.seq m a b) = words style a ++ .semicolon :: words style b := by
  rw [words, needsBrackets_step, needsBrackets_step]
  rfl

theorem words_call (m : Unit) (f : String) (args : List Shape) :
    words style (.call m f args) = style.callWords f (args.map (words style)) := by
  rw [words, wordsArgs_eq_map]

/-! ## Taking turns -/

/-- The words of an expression take turns, from an operand to its end. -/
def TakesTurns (ws : List Word) : Prop :=
  ∀ u, Word.Alternates false u → Word.Alternates true (ws ++ u)

theorem TakesTurns.enclose {ws : List Word} (h : TakesTurns ws) (needed : Bool) (e : Shape) :
    TakesTurns (style.enclose needed e ws) := by
  intro u hu
  rw [Style.enclose]
  split
  · rw [List.cons_append, List.append_assoc]
    exact ⟨rfl, h _ ⟨rfl, hu⟩⟩
  · exact h u hu

/-- Two parts with a word between them that neither begins nor ends an operand. -/
theorem TakesTurns.append {ws vs : List Word} {w : Word} (hws : TakesTurns ws)
    (hstart : w.starts = false) (hend : w.ends = false) (hvs : TakesTurns vs) :
    TakesTurns (ws ++ w :: vs) := by
  intro u hu
  rw [List.append_assoc, List.cons_append]
  refine hws _ ⟨hstart, ?_⟩
  rw [hend]
  exact hvs u hu

/-- A part with a word before it that begins an operand and does not end it. -/
theorem TakesTurns.cons {ws : List Word} {w : Word} (hstart : w.starts = true)
    (hend : w.ends = false) (hws : TakesTurns ws) : TakesTurns (w :: ws) := by
  intro u hu
  refine ⟨hstart, ?_⟩
  rw [hend]
  exact hws u hu

theorem TakesTurns.callWords {f : String} {wss : List (List Word)} (h : ∀ ws ∈ wss, TakesTurns ws) :
    TakesTurns (style.callWords f wss) := by
  have hmore : ∀ rest : List (List Word), (∀ ws ∈ rest, TakesTurns ws) → ∀ u,
      Word.Alternates false u → Word.Alternates false (style.moreArgs rest ++ u) := by
    intro rest hrest
    induction rest with
    | nil => exact fun u hu => ⟨rfl, hu⟩
    | cons ws rest ih =>
      obtain ⟨hws, hrest⟩ := List.forall_mem_cons.1 hrest
      intro u hu
      rw [Style.moreArgs, List.cons_append, List.append_assoc]
      exact ⟨rfl, hws _ (ih hrest u hu)⟩
  cases wss with
  | nil => exact fun u hu => ⟨rfl, hu⟩
  | cons ws rest =>
    obtain ⟨hws, hrest⟩ := List.forall_mem_cons.1 h
    intro u hu
    rw [Style.callWords, List.cons_append, List.append_assoc]
    exact ⟨rfl, hws _ (hmore rest hrest u hu)⟩

theorem takesTurns_words (style : Style) (e : Shape) : TakesTurns (words style e) := by
  induction e using Expr.induct with
  | lit m v => exact fun u hu => ⟨rfl, hu⟩
  | var m x => exact fun u hu => ⟨rfl, hu⟩
  | not m e ih => exact .cons rfl rfl (ih.enclose _ e)
  | call m f args ih =>
    rw [words_call]
    exact .callWords (List.forall_mem_map.2 ih)
  | binary m op l r ihl ihr => exact (ihl.enclose _ l).append rfl rfl (ihr.enclose _ r)
  | cond m c t e ihc iht ihe =>
    exact .cons rfl rfl ((ihc.enclose _ c).append rfl rfl
      ((iht.enclose _ t).append rfl rfl (ihe.enclose _ e)))
  | assign m x e ih => exact fun u hu => ⟨rfl, rfl, ih.enclose _ e u hu⟩
  | seq m a b iha ihb => exact (iha.enclose _ a).append rfl rfl (ihb.enclose _ b)

/-- **Words that begin an operand and words that end one take turns.** -/
theorem alternates_words (style : Style) (e : Shape) : Word.Alternates true (words style e) := by
  have h := takesTurns_words style e [] rfl
  rwa [List.append_nil] at h

/-! ## Where words come from -/

theorem within_mono {d : Shape} (h : d ∈ e.subterms) {w : Word} (hw : w.Within style d) :
    w.Within style e := by
  cases w with
  | lit | constant | callee => exact Expr.collect_subset h hw
  | name => exact hw.imp (Expr.collect_subset h ·) (Expr.collect_subset h ·)
  | ifWord | thenWord | elseWord => exact hw.imp fun c hc => Expr.collect_subset h hc
  | _ => exact hw

theorem within_enclose {d : Shape} (h : d ∈ e.subterms)
    (hd : ∀ w ∈ words style d, w.Within style d) (needed : Bool) :
    ∀ w ∈ style.enclose needed d (words style d), w.Within style e := by
  intro w hw
  cases needed with
  | false => exact within_mono h (hd w hw)
  | true =>
    rw [Style.enclose, if_pos rfl, List.mem_cons, List.mem_append, List.mem_singleton] at hw
    rcases hw with rfl | hw | rfl
    · exact ⟨d, rfl⟩
    · exact within_mono h (hd w hw)
    · exact .inr ⟨d, rfl⟩

theorem mem_callWords {f : String} {wss : List (List Word)} {w : Word}
    (h : w ∈ style.callWords f wss) :
    w = .constant f ∨ w = .callee f ∨ w = .comma ∨ w = .closing style.call ∨
      ∃ ws ∈ wss, w ∈ ws := by
  have hmore : ∀ {wss : List (List Word)}, w ∈ style.moreArgs wss →
      w = .comma ∨ w = .closing style.call ∨ ∃ ws ∈ wss, w ∈ ws := by
    intro wss h
    induction wss with
    | nil => exact .inr (.inl (List.mem_singleton.1 h))
    | cons ws wss ih =>
      rw [Style.moreArgs, List.mem_cons, List.mem_append] at h
      grind
  cases wss with
  | nil => exact .inl (List.mem_singleton.1 h)
  | cons ws wss =>
    rw [Style.callWords, List.mem_cons, List.mem_append] at h
    grind

/-- **The words of an expression spell what occurs in it.** -/
theorem within_words (style : Style) (e : Shape) : ∀ w ∈ words style e, w.Within style e := by
  induction e using Expr.induct with
  | lit m v =>
    intro w hw
    obtain rfl := List.mem_singleton.1 hw
    exact Expr.mem_collect.2 ⟨_, Expr.self_mem_subterms _, rfl⟩
  | var m x =>
    intro w hw
    obtain rfl := List.mem_singleton.1 hw
    exact .inl (Expr.mem_reads.2 ⟨_, Expr.self_mem_subterms _⟩)
  | not m e ih =>
    intro w hw
    rcases List.mem_cons.1 hw with rfl | hw
    · trivial
    · exact within_enclose (by simp [Expr.subterms, Expr.self_mem_subterms]) ih _ w hw
  | call m f args ih =>
    intro w hw
    rw [words_call] at hw
    rcases mem_callWords hw with rfl | rfl | rfl | rfl | ⟨ws, hws, hw⟩
    · exact Expr.mem_callees.2 ⟨_, _, Expr.self_mem_subterms _⟩
    · exact Expr.mem_callees.2 ⟨_, _, Expr.self_mem_subterms _⟩
    · trivial
    · exact .inl rfl
    · obtain ⟨a, ha, rfl⟩ := List.mem_map.1 hws
      exact within_mono (Expr.mem_subterms_call ha m f) (ih a ha w hw)
  | binary m op l r ihl ihr =>
    intro w hw
    rw [words, List.mem_append, List.mem_cons] at hw
    rcases hw with hw | rfl | hw
    · exact within_enclose (by simp [Expr.subterms, Expr.self_mem_subterms]) ihl _ w hw
    · trivial
    · exact within_enclose (by simp [Expr.subterms, Expr.self_mem_subterms]) ihr _ w hw
  | cond m c t e ihc iht ihe =>
    have htest : ∃ d, d ∈ Expr.tests (.cond m c t e) :=
      ⟨c, Expr.mem_collect.2 ⟨_, Expr.self_mem_subterms _, rfl⟩⟩
    intro w hw
    rw [words, List.mem_cons, List.mem_append, List.mem_cons, List.mem_append, List.mem_cons] at hw
    rcases hw with rfl | hw | rfl | hw | rfl | hw
    · exact htest
    · exact within_enclose (by simp [Expr.subterms, Expr.self_mem_subterms]) ihc _ w hw
    · exact htest
    · exact within_enclose (by simp [Expr.subterms, Expr.self_mem_subterms]) iht _ w hw
    · exact htest
    · exact within_enclose (by simp [Expr.subterms, Expr.self_mem_subterms]) ihe _ w hw
  | assign m x e ih =>
    intro w hw
    rw [words, List.mem_cons, List.mem_cons] at hw
    rcases hw with rfl | rfl | hw
    · exact .inr (Expr.mem_targets.2 ⟨_, _, Expr.self_mem_subterms _⟩)
    · trivial
    · exact within_enclose (by simp [Expr.subterms, Expr.self_mem_subterms]) ih _ w hw
  | seq m a b iha ihb =>
    intro w hw
    rw [words, List.mem_append, List.mem_cons] at hw
    rcases hw with hw | rfl | hw
    · exact within_enclose (by simp [Expr.subterms, Expr.self_mem_subterms]) iha _ w hw
    · trivial
    · exact within_enclose (by simp [Expr.subterms, Expr.self_mem_subterms]) ihb _ w hw

/-! ## Sequences nested to the right -/

/-- The steps of `a`, nested to the right already, and then those of `b`. -/
def andThen : (a b : Shape) → Shape
  | .seq m a a', b => .seq m a (andThen a' b)
  | a, b => .seq () a b

mutual

/-- The expression with all sequences nested to the right. -/
def rightNested : Shape → Shape
  | .lit m v => .lit m v
  | .var m x => .var m x
  | .not m e => .not m (rightNested e)
  | .call m f args => .call m f (rightNestedArgs args)
  | .binary m op l r => .binary m op (rightNested l) (rightNested r)
  | .cond m c t e => .cond m (rightNested c) (rightNested t) (rightNested e)
  | .assign m x e => .assign m x (rightNested e)
  | .seq _ a b => andThen (rightNested a) (rightNested b)

/-- Every argument with its sequences nested to the right. -/
def rightNestedArgs : List Shape → List Shape
  | [] => []
  | e :: es => rightNested e :: rightNestedArgs es

end

@[simp] theorem rightNestedArgs_eq_map (es : List Shape) :
    rightNestedArgs es = es.map rightNested := by
  induction es with
  | nil => rfl
  | cons e es ih => rw [rightNestedArgs, ih, List.map_cons]

/-- No sequence begins with a sequence. -/
inductive RightNested : Shape → Prop
  | lit {m : Unit} {v : Literal} : RightNested (.lit m v)
  | var {m : Unit} {x : String} : RightNested (.var m x)
  | not {m : Unit} {e : Shape} : RightNested e → RightNested (.not m e)
  | call {m : Unit} {f : String} {args : List Shape} : (∀ a ∈ args, RightNested a) →
    RightNested (.call m f args)
  | binary {m : Unit} {op : Operator} {l r : Shape} : RightNested l → RightNested r →
    RightNested (.binary m op l r)
  | cond {m : Unit} {c t e : Shape} : RightNested c → RightNested t → RightNested e →
    RightNested (.cond m c t e)
  | assign {m : Unit} {x : String} {e : Shape} : RightNested e → RightNested (.assign m x e)
  | seq {m : Unit} {a b : Shape} : a.level ≠ 5 → RightNested a → RightNested b →
    RightNested (.seq m a b)

theorem andThen_of_level {a : Shape} (h : a.level ≠ 5) (b : Shape) : andThen a b = .seq () a b := by
  cases a with
  | seq => exact absurd rfl h
  | _ => rfl

theorem RightNested.andThen {a b : Shape} (ha : RightNested a) (hb : RightNested b) :
    RightNested (andThen a b) := by
  have hother : ∀ {a : Shape}, a.level ≠ 5 → RightNested a → RightNested (Shape.andThen a b) := by
    intro a hlevel ha
    rw [andThen_of_level hlevel]
    exact .seq hlevel ha hb
  induction ha with
  | seq hlevel ha _ _ ih => exact .seq hlevel ha ih
  | lit => exact hother (by simp [Expr.level]) .lit
  | var => exact hother (by simp [Expr.level]) .var
  | not h => exact hother (by simp [Expr.level]) (.not h)
  | call h => exact hother (by simp [Expr.level]) (.call h)
  | binary h h' => exact hother (by simp [Expr.level]) (.binary h h')
  | cond h h' h'' => exact hother (by simp [Expr.level]) (.cond h h' h'')
  | assign h => exact hother (by simp [Expr.level]) (.assign h)

theorem rightNested_spec (e : Shape) : RightNested (rightNested e) := by
  induction e using Expr.induct with
  | lit m v => exact .lit
  | var m x => exact .var
  | not m e ih => exact .not ih
  | call m f args ih =>
    rw [rightNested, rightNestedArgs_eq_map]
    exact .call (List.forall_mem_map.2 ih)
  | binary m op l r ihl ihr => exact .binary ihl ihr
  | cond m c t e ihc iht ihe => exact .cond ihc iht ihe
  | assign m x e ih => exact .assign ih
  | seq m a b iha ihb => exact iha.andThen ihb

theorem words_andThen (a b : Shape) :
    words style (andThen a b) = words style a ++ .semicolon :: words style b := by
  induction a using Expr.induct with
  | seq m a a' _ ih =>
    rw [andThen, words_seq, words_seq, ih, List.append_assoc, List.cons_append]
  | _ => exact words_seq () _ b

/-- Nesting sequences to the right leaves the form of an expression, and so its brackets. -/
theorem needsBrackets_rightNested (place : Place) (e : Shape) :
    (rightNested e).needsBrackets place = e.needsBrackets place := by
  cases e with
  | seq m a b =>
    obtain ⟨m', a', b', h⟩ :
        ∃ m' a' b', andThen (rightNested a) (rightNested b) = .seq m' a' b' := by
      cases rightNested a <;> exact ⟨_, _, _, rfl⟩
    rw [rightNested, h]
    cases place <;> rfl
  | _ => cases place <;> rfl

/-- **Sequences nested to the right have the same words**, in a style in which they have the same
brackets. -/
theorem words_rightNested (hstyle : ∀ e, style.around (rightNested e) = style.around e)
    (e : Shape) : words style (rightNested e) = words style e := by
  have henclose : ∀ place e, words style (rightNested e) = words style e →
      style.enclose ((rightNested e).needsBrackets place) (rightNested e)
        (words style (rightNested e)) =
      style.enclose (e.needsBrackets place) e (words style e) := by
    intro place e h
    rw [needsBrackets_rightNested, Style.enclose, Style.enclose, hstyle, h]
  induction e using Expr.induct with
  | lit m v => rfl
  | var m x => rfl
  | not m e ih => rw [rightNested, words, henclose _ e ih, ← words]
  | call m f args ih =>
    rw [rightNested, rightNestedArgs_eq_map, words_call, words_call, List.map_map]
    exact congrArg _ (List.map_congr_left ih)
  | binary m op l r ihl ihr =>
    rw [rightNested, words, henclose _ l ihl, henclose _ r ihr, ← words]
  | cond m c t e ihc iht ihe =>
    rw [rightNested, words, henclose _ c ihc, henclose _ t iht, henclose _ e ihe, ← words]
  | assign m x e ih => rw [rightNested, words, henclose _ e ih, ← words]
  | seq m a b iha ihb => rw [rightNested, words_andThen, iha, ihb, words_seq]

end Shape

end Rulebook
