import Mathlib.Order.Lattice
import Rulebook.Proofs.Text.Spine

/-!
# Reading words

The words of an expression determine it, up to the way sequences are nested
(`Shape.words_injective`). What has to be shown is more: an expression can be told from the words
that follow it, as long as these do not go on with it (`Stops`). How far a word goes on depends on
the place: a sign goes on with everything but an operand, a `;` with everything but a sequence.

For each level there is one way in which an expression can be that loose, and it differs from
tighter expressions in the first word or in a word that follows (`Unique.climb`). Brackets lead
from the loosest level back to the tightest (`Unique.bracketed`), so an expression that can be told
at its own level can be told at all levels (`Readable.of_own`).
-/

namespace Rulebook

/-- The levels of expressions below which the word goes on with none of them. -/
def Word.reach : Word → ℕ
  | .sign _ => 2
  | .becomes => 4
  | .semicolon => 5
  | _ => 6

/-- The words do not go on with an expression up to the level `k`. -/
def Stops (k : ℕ) (u : List Word) : Prop := ∀ w ∈ u.head?, k < w.reach

theorem Stops.cons {k : ℕ} {w : Word} (h : k < w.reach) (u : List Word) : Stops k (w :: u) := by
  rintro _ ⟨⟩
  exact h

theorem Stops.lt_reach {k : ℕ} {w : Word} {u : List Word} (h : Stops k (w :: u)) : k < w.reach :=
  h w rfl

theorem Stops.mono {j k : ℕ} {u : List Word} (h : Stops k u) (hjk : j ≤ k) : Stops j u :=
  fun w hw => Nat.lt_of_le_of_lt hjk (h w hw)

/-- Nothing goes on with an operand. -/
theorem stops_one (u : List Word) : Stops 1 u := by
  intro w _
  cases w <;> simp [Word.reach]

theorem stops_moreArgs {style : Style} (wss : List (List Word)) (u : List Word) :
    Stops 5 (style.moreArgs wss ++ u) := by
  cases wss with
  | nil => exact .cons (Nat.lt_succ_self 5) u
  | cons ws wss => exact .cons (Nat.lt_succ_self 5) _

namespace Spine

variable {P : Shape → Prop}

/-- The operands satisfy `P`. -/
def Holds (P : Shape → Prop) (s : Spine) : Prop := P s.first ∧ ∀ o ∈ s.rest, P o.2

theorem Holds.side {needed : Bool} {e : Shape} {s : Spine} (he : P e) (hs : s.Holds P) :
    (Shape.side needed e s).Holds P := by
  cases needed with
  | true => exact ⟨he, nofun⟩
  | false => exact hs

theorem Holds.join {s t : Spine} {op : Operator} (hs : s.Holds P) (ht : t.Holds P) :
    (s.join op t).Holds P := by
  refine ⟨hs.1, fun o ho => ?_⟩
  rcases List.mem_append.1 ho with ho | ho
  · exact hs.2 o ho
  · rcases List.mem_cons.1 ho with rfl | ho
    · exact ht.1
    · exact ht.2 o ho

end Spine

namespace Shape

variable {style : Style} {k : ℕ} {d e : Shape}

/-- At the level `k`, the expression can be told from the words that follow it. -/
def Unique (style : Style) (k : ℕ) (d : Shape) : Prop :=
  ∀ e, RightNested e → ∀ u v, Stops k u → Stops k v →
    wordsUpTo style k d ++ u = wordsUpTo style k e ++ v → d = e ∧ u = v

/-! ## First words -/

theorem level_le_five (e : Shape) : e.level ≤ 5 := by
  cases e <;> simp [Expr.level]

theorem wordsUpTo_five (e : Shape) : wordsUpTo style 5 e = words style e :=
  wordsUpTo_of_le (level_le_five e)

theorem wordsUpTo_succ (h : e.level ≠ k + 1) : wordsUpTo style (k + 1) e = wordsUpTo style k e := by
  by_cases hle : e.level ≤ k
  · rw [wordsUpTo_of_le hle, wordsUpTo_of_le (by omega)]
  · rw [wordsUpTo_of_lt (by omega), wordsUpTo_of_lt (by omega)]

/-- The first word of an operand. -/
def lead (style : Style) : Shape → Word
  | .lit _ v => .lit v
  | .var _ x => .name x
  | .not .. => .bang
  | .call _ f [] => .constant f
  | .call _ f (_ :: _) => .callee f
  | e => .opening (style.around e)

theorem head_operand (style : Style) (e : Shape) :
    ∃ ws, wordsUpTo style 1 e = lead style e :: ws := by
  cases e with
  | call m f args =>
    rw [wordsUpTo_of_le (Nat.zero_le 1), words_call]
    cases args with
    | nil => exact ⟨_, rfl⟩
    | cons a args => exact ⟨_, rfl⟩
  | _ => exact ⟨_, rfl⟩

theorem lead_eq {w : Word} {u v : List Word} (h : wordsUpTo style 1 e ++ u = w :: v) :
    lead style e = w := by
  obtain ⟨ws, hws⟩ := head_operand style e
  rw [hws] at h
  exact (List.cons.inj h).1

/-- Only a bracketed operand begins with a bracket. -/
theorem level_of_lead {b : Bracket} (h : lead style e = .opening b) : 1 < e.level := by
  cases e with
  | call m f args => cases args <;> cases h
  | lit | var | not => cases h
  | binary | cond | assign | seq => simp [Expr.level]

/-- Up to the level of operators, nothing begins with `if`. -/
theorem part_ne_if (e : Shape) (u ws : List Word) : wordsUpTo style 2 e ++ u ≠ .ifWord :: ws := by
  rw [← words_spine, Spine.words, List.append_assoc]
  intro h
  have hlead := lead_eq h
  unfold lead at hlead
  split at hlead <;> cases hlead

/-! ## Operands -/

theorem RightNested.spine (h : RightNested e) : (spine e).Holds RightNested := by
  induction h with
  | binary hl hr ihl ihr => exact .join (.side hl ihl) (.side hr ihr)
  | lit => exact ⟨.lit, nofun⟩
  | var => exact ⟨.var, nofun⟩
  | not h => exact ⟨.not h, nofun⟩
  | call h => exact ⟨.call h, nofun⟩
  | cond h h' h'' => exact ⟨.cond h h' h'', nofun⟩
  | assign h => exact ⟨.assign h, nofun⟩
  | seq h h' h'' => exact ⟨.seq h h' h'', nofun⟩

theorem unique_rest {os os' : List (Operator × Shape)} {u v : List Word}
    (hos : ∀ o ∈ os, Unique style 1 o.2) (hos' : ∀ o ∈ os', RightNested o.2)
    (hu : Stops 2 u) (hv : Stops 2 v)
    (h : (os.flatMap fun o => .sign o.1 :: wordsUpTo style 1 o.2) ++ u =
      (os'.flatMap fun o => .sign o.1 :: wordsUpTo style 1 o.2) ++ v) :
    os = os' ∧ u = v := by
  have hsign : ∀ {w : List Word} {o : Operator × Shape} {ws : List Word}, Stops 2 w →
      w ≠ .sign o.1 :: ws := by
    rintro _ o ws hw rfl
    exact absurd hw.lt_reach (Nat.lt_irrefl 2)
  induction os generalizing os' with
  | nil =>
    cases os' with
    | nil => exact ⟨rfl, h⟩
    | cons o' os' => exact absurd h (hsign hu)
  | cons o os ih =>
    cases os' with
    | nil => exact absurd h.symm (hsign hv)
    | cons o' os' =>
      obtain ⟨ho, hos⟩ := List.forall_mem_cons.1 hos
      obtain ⟨ho', hos'⟩ := List.forall_mem_cons.1 hos'
      simp only [List.flatMap_cons, List.cons_append, List.append_assoc, List.cons.injEq,
        Word.sign.injEq] at h
      obtain ⟨hop, h⟩ := h
      obtain ⟨hoperand, h⟩ := ho o'.2 ho' _ _ (stops_one _) (stops_one _) h
      obtain ⟨rfl, huv⟩ := ih hos hos' h
      exact ⟨by rw [Prod.ext hop hoperand], huv⟩

/-- An expression can be told by its operands and the signs between them. -/
theorem Unique.of_spine (h : (spine d).Holds (Unique style 1)) : Unique style 2 d := by
  intro e he u v hu hv heq
  have hne := he.spine
  rw [← words_spine, ← words_spine, Spine.words, Spine.words, List.append_assoc,
    List.append_assoc] at heq
  obtain ⟨hfirst, heq⟩ := h.1 _ hne.1 _ _ (stops_one _) (stops_one _) heq
  obtain ⟨hrest, huv⟩ := unique_rest h.2 hne.2 hu hv heq
  exact ⟨spine_injective (Spine.ext hfirst hrest), huv⟩

/-! ## From level to level -/

/-- At the next level there is one new form of expressions. One of another form is told from it by
its first word or by what follows. -/
theorem Unique.succ (hk : 2 ≤ k) (hlevel : d.level ≠ k + 1) (h : Unique style k d) :
    Unique style (k + 1) d := by
  intro e he u v hu hv heq
  rw [wordsUpTo_succ hlevel] at heq
  by_cases hlevel' : e.level = k + 1
  · exfalso
    rw [wordsUpTo_of_le (Nat.le_of_eq hlevel')] at heq
    cases he with
    | cond =>
      obtain rfl : k = 2 := by simpa [Expr.level] using hlevel'.symm
      rw [words_cond] at heq
      exact part_ne_if _ _ _ heq
    | @assign _ x =>
      -- `d` would be the target, with the rest of the assignment after it
      obtain rfl : k = 3 := by simpa [Expr.level] using hlevel'.symm
      rw [words_assign] at heq
      obtain ⟨-, rfl⟩ := h (.var () x) .var _ _ (hu.mono (by decide)) (.cons (by decide) _) heq
      exact absurd hu.lt_reach (Nat.lt_irrefl 4)
    | @seq _ a b ha hna =>
      -- `d` would be the first step, with the other steps after it
      obtain rfl : k = 4 := by simpa [Expr.level] using hlevel'.symm
      have hle : a.level ≤ 4 := by
        have := level_le_five a
        omega
      rw [words_seq, List.append_assoc, ← wordsUpTo_of_le hle] at heq
      obtain ⟨-, rfl⟩ := h a hna _ _ (hu.mono (by decide)) (.cons (by decide) _) heq
      exact absurd hu.lt_reach (Nat.lt_irrefl 5)
    | lit | var | call | not | binary =>
      simp only [Expr.level] at hlevel'
      omega
  · rw [wordsUpTo_succ hlevel'] at heq
    exact h e he u v (hu.mono (Nat.le_succ k)) (hv.mono (Nat.le_succ k)) heq

theorem Unique.climb {j : ℕ} (hk : 2 ≤ k) (hkj : k ≤ j) (hlevel : ∀ i, k < i → i ≤ j → d.level ≠ i)
    (h : Unique style k d) : Unique style j d := by
  induction j, hkj using Nat.le_induction with
  | base => exact h
  | succ j hkj ih =>
    have hj : Unique style j d := ih fun i hki hij => hlevel i hki (by omega)
    exact hj.succ (by omega) (hlevel (j + 1) (by omega) (by omega))

/-- Brackets make an operand of everything. -/
theorem Unique.bracketed (hlevel : 1 < d.level) (h : Unique style 5 d) : Unique style 1 d := by
  intro e he u v _ _ heq
  rw [wordsUpTo_of_lt hlevel] at heq
  rw [wordsUpTo_of_lt (level_of_lead (lead_eq heq.symm))] at heq
  simp only [List.cons_append, List.append_assoc, List.cons.injEq, List.nil_append,
    Word.opening.injEq] at heq
  obtain ⟨haround, heq⟩ := heq
  rw [haround, ← wordsUpTo_five, ← wordsUpTo_five] at heq
  obtain ⟨hde, huv⟩ := h e he _ _ (.cons (Nat.lt_succ_self 5) u) (.cons (Nat.lt_succ_self 5) v) heq
  exact ⟨hde, (List.cons.inj huv).2⟩

/-- The expression can be told at all levels, and so can its operands. -/
structure Readable (style : Style) (d : Shape) : Prop where
  unique : ∀ k, 1 ≤ k → k ≤ 5 → Unique style k d
  operands : (spine d).Holds (Unique style 1)

/-- What can be told at its own level can be told at all levels. -/
theorem Readable.of_own (hown : Unique style (max 1 d.level) d)
    (hoperands : d.level = 2 → (spine d).Holds (Unique style 1)) : Readable style d := by
  have hone : Unique style 1 d := by
    by_cases hlevel : 1 < d.level
    · rw [max_eq_right hlevel.le] at hown
      exact .bracketed hlevel
        (hown.climb hlevel (level_le_five d) fun i hi _ => Nat.ne_of_lt hi)
    · rwa [max_eq_left (Nat.le_of_not_lt hlevel)] at hown
  have hspine : (spine d).Holds (Unique style 1) := by
    by_cases hlevel : d.level = 2
    · exact hoperands hlevel
    · rw [spine_of_level hlevel]
      exact ⟨hone, nofun⟩
  refine ⟨fun k hk hk5 => ?_, hspine⟩
  by_cases hk1 : k = 1
  · exact hk1 ▸ hone
  -- from the level of operators if the own level is not on the way, from the own level otherwise
  by_cases hlevel : 2 < d.level ∧ d.level ≤ k
  · rw [max_eq_right (by omega)] at hown
    exact hown.climb (by omega) hlevel.2 fun i hi _ => Nat.ne_of_lt hi
  · exact (Unique.of_spine hspine).climb (le_refl 2) (by omega) fun i hi hik => by omega

/-! ## Forms of expressions -/

theorem unique_lit (m : Unit) (n : Literal) : Unique style 1 (.lit m n) := by
  intro e _ u v _ _ h
  have hlead := lead_eq h.symm
  unfold lead at hlead
  split at hlead <;> cases hlead
  exact ⟨rfl, (List.cons.inj h).2⟩

theorem unique_var (m : Unit) (x : String) : Unique style 1 (.var m x) := by
  intro e _ u v _ _ h
  have hlead := lead_eq h.symm
  unfold lead at hlead
  split at hlead <;> cases hlead
  exact ⟨rfl, (List.cons.inj h).2⟩

theorem unique_not (m : Unit) (hd : Unique style 1 d) : Unique style 1 (.not m d) := by
  intro e he u v _ _ h
  have hnot : ∀ e : Shape, wordsUpTo style 1 (.not () e) = .bang :: wordsUpTo style 1 e :=
    fun e => (wordsUpTo_of_le (Nat.le_refl 1)).trans (words_not () e)
  rw [hnot] at h
  have hlead := lead_eq h.symm
  unfold lead at hlead
  split at hlead <;> cases hlead
  cases he with
  | not he =>
    rw [hnot] at h
    obtain ⟨rfl, huv⟩ := hd _ he u v (stops_one u) (stops_one v) (List.cons.inj h).2
    exact ⟨rfl, huv⟩

theorem unique_args {as as' : List Shape} {u v : List Word}
    (has : ∀ a ∈ as, Unique style 5 a) (has' : ∀ a ∈ as', RightNested a)
    (h : style.moreArgs (as.map (words style)) ++ u =
      style.moreArgs (as'.map (words style)) ++ v) : as = as' ∧ u = v := by
  induction as generalizing as' with
  | nil =>
    cases as' with
    | nil => exact ⟨rfl, (List.cons.inj h).2⟩
    | cons a' as' => cases h
  | cons a as ih =>
    cases as' with
    | nil => cases h
    | cons a' as' =>
      obtain ⟨ha, htail⟩ := List.forall_mem_cons.1 has
      obtain ⟨ha', htail'⟩ := List.forall_mem_cons.1 has'
      have harg : wordsUpTo style 5 a ++ (style.moreArgs (as.map (words style)) ++ u) =
          wordsUpTo style 5 a' ++ (style.moreArgs (as'.map (words style)) ++ v) := by
        simpa [Style.moreArgs, wordsUpTo_five] using h
      obtain ⟨rfl, hrest⟩ := ha a' ha' _ _ (stops_moreArgs _ u) (stops_moreArgs _ v) harg
      obtain ⟨rfl, huv⟩ := ih htail htail' hrest
      exact ⟨rfl, huv⟩

theorem unique_call {m : Unit} {f : String} {args : List Shape}
    (hargs : ∀ a ∈ args, Unique style 5 a) : Unique style 1 (.call m f args) := by
  intro e he u v _ _ h
  have hcall : ∀ f args, wordsUpTo style 1 (.call () f args) =
      style.callWords f (args.map (words style)) :=
    fun f args => (wordsUpTo_of_le (Nat.zero_le 1)).trans (words_call () f args)
  rw [hcall] at h
  cases args with
  | nil =>
    have hlead := lead_eq h.symm
    unfold lead at hlead
    split at hlead <;> cases hlead
    exact ⟨rfl, (List.cons.inj h).2⟩
  | cons a args =>
    have hlead := lead_eq h.symm
    unfold lead at hlead
    split at hlead <;> cases hlead
    cases he with
    | @call _ _ args' hargs' =>
      rw [hcall] at h
      -- the first argument is followed like the others, and a comma begins each of these
      obtain ⟨hargs, huv⟩ := unique_args hargs hargs' (congrArg (.comma :: ·) (List.cons.inj h).2)
      exact ⟨by rw [hargs], huv⟩

theorem unique_cond {m : Unit} {c t f : Shape} (hc : Unique style 2 c) (ht : Unique style 2 t)
    (hf : Unique style 2 f) : Unique style 3 (.cond m c t f) := by
  intro e he u v hu hv h
  have hcond : ∀ c t f : Shape, wordsUpTo style 3 (.cond () c t f) =
      .ifWord :: (wordsUpTo style 2 c ++ .thenWord :: (wordsUpTo style 2 t ++
        .elseWord :: wordsUpTo style 2 f)) :=
    fun c t f => (wordsUpTo_of_le (Nat.le_refl 3)).trans (words_cond () c t f)
  rw [hcond] at h
  by_cases hlevel : e.level = 3
  · cases he with
    | cond hc' ht' hf' =>
      rw [hcond] at h
      simp only [List.cons_append, List.append_assoc, List.cons.injEq, true_and] at h
      obtain ⟨rfl, hthen⟩ := hc _ hc' _ _ (.cons (by decide) _) (.cons (by decide) _) h
      obtain ⟨rfl, helse⟩ := ht _ ht' _ _ (.cons (by decide) _) (.cons (by decide) _)
        (List.cons.inj hthen).2
      obtain ⟨rfl, huv⟩ := hf _ hf' _ _ (hu.mono (by decide)) (hv.mono (by decide))
        (List.cons.inj helse).2
      exact ⟨rfl, huv⟩
    | _ => cases hlevel
  · rw [wordsUpTo_succ hlevel] at h
    exact absurd h.symm (part_ne_if _ _ _)

theorem unique_assign {m : Unit} {x : String} {a : Shape} (ha : Unique style 3 a) :
    Unique style 4 (.assign m x a) := by
  intro e he u v hu hv h
  have hassign : ∀ x a, wordsUpTo style 4 (.assign () x a) =
      .name x :: .becomes :: wordsUpTo style 3 a :=
    fun x a => (wordsUpTo_of_le (Nat.le_refl 4)).trans (words_assign () x a)
  rw [hassign] at h
  by_cases hlevel : e.level = 4
  · cases he with
    | assign ha' =>
      rw [hassign] at h
      simp only [List.cons_append, List.cons.injEq, Word.name.injEq, true_and] at h
      obtain ⟨rfl, hvalue⟩ := h
      obtain ⟨rfl, huv⟩ := ha _ ha' _ _ (hu.mono (by decide)) (hv.mono (by decide)) hvalue
      exact ⟨rfl, huv⟩
    | _ => cases hlevel
  · -- `e` would be the target, with the rest of the assignment after it
    rw [wordsUpTo_succ hlevel] at h
    have hx : Unique style 3 (.var () x) :=
      (Readable.of_own (unique_var () x) (by simp [Expr.level])).unique 3 (by decide) (by decide)
    obtain ⟨-, rfl⟩ := hx e he _ v (.cons (by decide) _) (hv.mono (by decide)) h
    exact absurd hv.lt_reach (Nat.lt_irrefl 4)

theorem unique_seq {m : Unit} {a b : Shape} (hlevel : a.level ≠ 5) (ha : Unique style 4 a)
    (hb : Unique style 5 b) : Unique style 5 (.seq m a b) := by
  intro e he u v hu hv h
  have hseq : ∀ {a b : Shape}, a.level ≠ 5 →
      wordsUpTo style 5 (.seq () a b) =
        wordsUpTo style 4 a ++ .semicolon :: wordsUpTo style 5 b := by
    intro a b ha
    rw [wordsUpTo_five, words_seq, ← wordsUpTo_succ ha, wordsUpTo_five, wordsUpTo_five]
  rw [hseq hlevel, List.append_assoc] at h
  by_cases hlevel' : e.level = 5
  · cases he with
    | seq hlevel'' ha' hb' =>
      rw [hseq hlevel'', List.append_assoc] at h
      obtain ⟨rfl, hrest⟩ := ha _ ha' _ _ (.cons (by decide) _) (.cons (by decide) _) h
      obtain ⟨rfl, huv⟩ := hb _ hb' _ _ hu hv (List.cons.inj hrest).2
      exact ⟨rfl, huv⟩
    | _ => cases hlevel'
  · -- `e` would be the first step, with the other steps after it
    rw [wordsUpTo_succ hlevel'] at h
    obtain ⟨-, rfl⟩ := ha e he _ v (.cons (by decide) _) (hv.mono (by decide)) h
    exact absurd hv.lt_reach (Nat.lt_irrefl 5)

/-! ## All expressions -/

theorem RightNested.readable (h : RightNested d) : Readable style d := by
  induction h with
  | lit => exact .of_own (unique_lit _ _) nofun
  | var => exact .of_own (unique_var _ _) nofun
  | not _ ih => exact .of_own (unique_not _ (ih.unique 1 (by decide) (by decide))) nofun
  | call _ ih =>
    exact .of_own (unique_call fun a ha => (ih a ha).unique 5 (by decide) (by decide)) nofun
  | @binary m op l r _ _ ihl ihr =>
    have hspine : (Shape.spine (.binary m op l r)).Holds (Unique style 1) :=
      .join (.side (ihl.unique 1 (by decide) (by decide)) ihl.operands)
        (.side (ihr.unique 1 (by decide) (by decide)) ihr.operands)
    exact .of_own (.of_spine hspine) fun _ => hspine
  | cond _ _ _ ihc iht ihe =>
    exact .of_own (unique_cond (ihc.unique 2 (by decide) (by decide))
      (iht.unique 2 (by decide) (by decide)) (ihe.unique 2 (by decide) (by decide))) nofun
  | assign _ ih => exact .of_own (unique_assign (ih.unique 3 (by decide) (by decide))) nofun
  | seq hlevel _ _ iha ihb =>
    exact .of_own (unique_seq hlevel (iha.unique 4 (by decide) (by decide))
      (ihb.unique 5 (by decide) (by decide))) nofun

/-- **Words are unambiguous**: expressions with the same words are the same once their sequences are
nested to the right. -/
theorem words_injective (hd : RightNested d) (he : RightNested e)
    (h : words style d = words style e) : d = e := by
  have hfive : wordsUpTo style 5 d ++ [] = wordsUpTo style 5 e ++ [] := by
    rw [wordsUpTo_five, wordsUpTo_five, h]
  exact (hd.readable.unique 5 (by decide) (by decide) e he [] [] nofun nofun hfive).1

end Shape

end Rulebook
