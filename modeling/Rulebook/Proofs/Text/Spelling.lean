import Mathlib.Data.List.Forall2
import Mathlib.Data.List.TakeWhile
import Rulebook.Proofs.Text.Words

/-!
# Spelling words

A `Spelling` says how the words of an expression are spelled. Words that begin an operand never
begin with a `stop`, all others do, so whether one text goes on after another or stops can be seen
from one letter. The words of an expression can be read from their letters if each can be read when
it comes first (`Spelling.text_injective`): what comes after it then is again the text of words.

Names, numbers and keywords are runs of letters (`inRun`), and a run is found by its end
(`takeWhile_run`, `dropWhile_run`). A literal is found from its text (`Literal.ofToken?_text`).
-/

namespace Rulebook

/-! ## Literals -/

namespace Literal

theorem magnitude?_toDigits (n : ℕ) : magnitude? (Nat.toDigits 10 n) = some n := by
  have hdigits : ∀ c ∈ Nat.toDigits 10 n, c.isDigit = true :=
    fun c hc => Nat.isDigit_of_mem_toDigits (by decide) (by decide) hc
  rw [magnitude?, if_pos ⟨Nat.toDigits_ne_nil, List.all_eq_true.2 hdigits⟩,
    Nat.ofDigitChars_ten_toDigits]

/-- An integer is found from its text. -/
theorem integer?_intText (n : ℤ) : integer? (intText n).toList = some n := by
  rw [intText]
  split
  case isTrue hneg =>
    have htext : ("-" ++ n.natAbs.repr).toList = '-' :: Nat.toDigits 10 n.natAbs := by
      simp [Nat.toList_repr]
    rw [htext, integer?, magnitude?_toDigits]
    change some (-(n.natAbs : ℤ)) = some n
    congr 1
    omega
  case isFalse hnonneg =>
    -- the first digit is no sign
    obtain ⟨c, cs, hdigits⟩ :=
      List.exists_cons_of_ne_nil (Nat.toDigits_ne_nil (b := 10) (n := n.natAbs))
    have hc : c.isDigit = true :=
      Nat.isDigit_of_mem_toDigits (by decide) (by decide) (hdigits ▸ List.mem_cons_self)
    have hmagnitude := magnitude?_toDigits n.natAbs
    rw [hdigits] at hmagnitude
    rw [Nat.toList_repr, hdigits, integer?, hmagnitude]
    · change some (n.natAbs : ℤ) = some n
      congr 1
      omega
    · rintro _ ⟨⟩
      exact absurd hc (by decide)
    · rintro _ ⟨⟩
      exact absurd hc (by decide)

/-- **A literal is found from its text.** -/
theorem ofToken?_text (v : Literal) : ofToken? v.text = some v := by
  cases v with
  | bool b => cases b <;> rfl
  | int n =>
    have hinteger := integer?_intText n.toInt
    have hne : ∀ token : String, integer? token.toList = none → intText n.toInt ≠ token := by
      rintro _ hnone rfl
      rw [hinteger] at hnone
      cases hnone
    have hmin := n.le_toInt
    have hmax := n.toInt_lt
    rw [ofToken?, text, if_neg (hne "true" (by decide)), if_neg (hne "false" (by decide)),
      hinteger, Option.bind_some, ofInt?, if_pos (by omega), Int32.ofInt_toInt]

end Literal

/-! ## Runs -/

/-- Whether a letter can be part of a name, a number or a keyword. -/
def inRun (c : Char) : Bool := c.isAlphanum || c == '_' || c == '-'

/-- Whether a letter can follow the end of an operand. -/
def stop (c : Char) : Bool := " ;,)]\x7d=".toList.contains c

theorem inRun_of_stop {c : Char} (h : stop c = true) : inRun c = false := by
  have hstops : " ;,)]\x7d=".toList.all (fun c => !inRun c) = true := by decide
  simpa using List.all_eq_true.1 hstops c (List.contains_iff_mem.1 h)

theorem inRun_of_isDigit {c : Char} (h : c.isDigit = true) : inRun c = true := by
  simp [inRun, Char.isAlphanum, h]

section

variable {run rest : List Char} (hrun : ∀ c ∈ run, inRun c = true)
  (hrest : ∀ c ∈ rest.head?, inRun c = false)

include hrun hrest

theorem takeWhile_run : (run ++ rest).takeWhile inRun = run := by
  rw [List.takeWhile_append_of_pos hrun]
  cases rest with
  | nil => rw [List.takeWhile_nil, List.append_nil]
  | cons c rest => rw [List.takeWhile_cons_of_neg (by simp [hrest c rfl]), List.append_nil]

theorem dropWhile_run : (run ++ rest).dropWhile inRun = rest := by
  rw [List.dropWhile_append_of_pos hrun]
  cases rest with
  | nil => rfl
  | cons c rest => rw [List.dropWhile_cons_of_neg (by simp [hrest c rfl])]

end

/-- A run does not begin with a stop. -/
theorem head_run {run : List Char} (hne : run ≠ []) (hrun : ∀ c ∈ run, inRun c = true)
    (rest : List Char) :
    ∃ c cs, run ++ rest = c :: cs ∧ stop c = false := by
  obtain ⟨c, cs, rfl⟩ := List.exists_cons_of_ne_nil hne
  refine ⟨c, cs ++ rest, rfl, Bool.eq_false_iff.2 fun hstop => ?_⟩
  have hc := hrun c List.mem_cons_self
  rw [inRun_of_stop hstop] at hc
  cases hc

theorem text_ne (v : Literal) {run : List Char}
    (h : Literal.ofToken? (String.ofList run) = none) : v.text.toList ≠ run := by
  rintro rfl
  rw [String.ofList_toList, Literal.ofToken?_text] at h
  cases h

theorem inRun_text (v : Literal) : ∀ c ∈ v.text.toList, inRun c = true := by
  cases v with
  | bool b => cases b <;> exact List.all_eq_true.1 rfl
  | int n =>
    have hdigits : ∀ k : ℕ, ∀ c ∈ k.repr.toList, inRun c = true := by
      intro k c hc
      rw [Nat.toList_repr] at hc
      exact inRun_of_isDigit (Nat.isDigit_of_mem_toDigits (by decide) (by decide) hc)
    intro c hc
    rw [Literal.text, Literal.intText] at hc
    split at hc
    · rw [String.toList_append, List.mem_append] at hc
      rcases hc with hc | hc
      · obtain rfl : c = '-' := by simpa using hc
        rfl
      · exact hdigits _ c hc
    · exact hdigits _ c hc

/-! ## Spellings -/

/-- How words are spelled. -/
structure Spelling where
  spell : Word → List Char
  /-- The words that there are. -/
  Sound : Word → Prop
  /-- Exactly the words that begin an operand do not begin with a stop. -/
  head : ∀ w, Sound w → ∃ c cs, spell w = c :: cs ∧ stop c = !w.starts

namespace Spelling

variable {s : Spelling} {begins : Bool} {t : List Char}

/-- The letters of words. -/
def text (s : Spelling) (ws : List Word) : List Char := ws.flatMap s.spell

@[simp] theorem text_nil (s : Spelling) : s.text [] = [] := rfl

@[simp] theorem text_cons (s : Spelling) (w : Word) (ws : List Word) :
    s.text (w :: ws) = s.spell w ++ s.text ws := List.flatMap_cons

@[simp] theorem text_append (s : Spelling) (ws vs : List Word) :
    s.text (ws ++ vs) = s.text ws ++ s.text vs := List.flatMap_append

/-- Arguments are spelled with commas between them. -/
theorem text_args (style : Style) (hcomma : s.spell .comma = ", ".toList) {t : String}
    {ts : List String} {ws : List Word} {wss : List (List Word)}
    (ht : t.toList = s.text ws) (hts : List.Forall₂ (fun t ws => t.toList = s.text ws) ts wss) :
    (", ".intercalate (t :: ts)).toList ++ s.spell (.closing style.call) =
      s.text (ws ++ style.moreArgs wss) := by
  induction hts generalizing t ws with
  | nil => simp [Style.moreArgs, ht]
  | cons ht' _ ih =>
    rw [String.intercalate_cons_cons, String.toList_append, String.toList_append,
      List.append_assoc, ih ht', ht, Style.moreArgs, text_append, text_append, text_cons,
      text_append, hcomma]
    simp only [List.append_assoc]

/-- The words are sound and take turns. -/
def Regular (s : Spelling) (begins : Bool) (ws : List Word) : Prop :=
  Word.Alternates begins ws ∧ ∀ w ∈ ws, s.Sound w

/-- The letters go on with an operand, or else they do not. -/
def GoesOn (s : Spelling) (begins : Bool) (t : List Char) : Prop :=
  ∃ ws, s.Regular begins ws ∧ s.text ws = t

theorem Regular.tail {w : Word} {ws : List Word} (h : s.Regular begins (w :: ws)) :
    s.Regular (!w.ends) ws :=
  ⟨h.1.2, (List.forall_mem_cons.1 h.2).2⟩

theorem Regular.text_ne_nil {w : Word} {ws : List Word} (h : s.Regular begins (w :: ws)) :
    s.text (w :: ws) ≠ [] := by
  obtain ⟨c, cs, hspell, -⟩ := s.head w (h.2 w List.mem_cons_self)
  rw [text_cons, hspell]
  exact List.cons_ne_nil c _

theorem GoesOn.stop (h : s.GoesOn false t) : ∀ c ∈ t.head?, Rulebook.stop c = true := by
  obtain ⟨ws, ⟨hturns, hsound⟩, rfl⟩ := h
  cases ws with
  | nil => exact nofun
  | cons w ws =>
    obtain ⟨c, cs, hspell, hstop⟩ := s.head w (hsound w List.mem_cons_self)
    rw [text_cons, hspell]
    rintro _ ⟨⟩
    rw [hstop, hturns.1]
    rfl

theorem GoesOn.operand (h : s.GoesOn true t) : ∃ c cs, t = c :: cs ∧ Rulebook.stop c = false := by
  obtain ⟨ws, ⟨hturns, hsound⟩, rfl⟩ := h
  cases ws with
  | nil => cases hturns
  | cons w ws =>
    obtain ⟨c, cs, hspell, hstop⟩ := s.head w (hsound w List.mem_cons_self)
    rw [text_cons, hspell]
    exact ⟨c, _, rfl, hstop.trans (by rw [hturns.1]; rfl)⟩

/-- **Words are found from their letters** if a key to the first of them is. -/
theorem text_injective {κ : Type} {key : Word → κ} {first : Bool → List Char → Option κ}
    (hkey : ∀ w w', s.Sound w → s.Sound w' → key w = key w' → w = w')
    (hfirst : ∀ w t, s.Sound w → s.GoesOn (!w.ends) t →
      first w.starts (s.spell w ++ t) = some (key w))
    {ws ws' : List Word} (h : s.Regular begins ws) (h' : s.Regular begins ws')
    (heq : s.text ws = s.text ws') : ws = ws' := by
  have hread : ∀ {begins : Bool} {w : Word} {ws : List Word}, s.Regular begins (w :: ws) →
      first begins (s.text (w :: ws)) = some (key w) := by
    intro begins w ws h
    rw [← h.1.1]
    exact hfirst w _ (h.2 w List.mem_cons_self) ⟨ws, h.tail, rfl⟩
  induction ws generalizing begins ws' with
  | nil =>
    cases ws' with
    | nil => rfl
    | cons w' ws' => exact absurd heq.symm h'.text_ne_nil
  | cons w ws ih =>
    cases ws' with
    | nil => exact absurd heq h.text_ne_nil
    | cons w' ws' =>
      have hsame : some (key w) = some (key w') := by rw [← hread h, ← hread h', heq]
      obtain rfl : w = w' := hkey w w' (h.2 w List.mem_cons_self) (h'.2 w' List.mem_cons_self)
        (Option.some.inj hsame)
      rw [ih h.tail h'.tail (List.append_cancel_left heq)]

end Spelling

end Rulebook
