import Rulebook.Critter.Text
import Rulebook.Critter.World
import Rulebook.Proofs.Text.Spelling

/-!
# How critters spell words

In the language of critters a variable is a memory cell, operations have names of their own, and
the steps of a sequence have only a blank between them. Still the words can be read from a text one
after another (`Critter.text_words_injective`): whether a blank is a step of its own or begins an
operator is seen from what follows it, as nothing that begins an operand begins an operator, and
the names of operations are all known.
-/

namespace Rulebook.Critter

/-! ## Operations -/

/-- The operations of the critter world. -/
def operations : List String := library.operations.map Operation.name

/-- Written operations are runs of letters, and neither literals nor memory cells. -/
theorem operation_spec : ∀ f ∈ operations, (operation f).toList ≠ [] ∧
    (operation f).toList.all inRun = true ∧ operation f ≠ "mem" ∧
      Literal.ofToken? (operation f) = none := by
  decide

/-- Different operations are written differently. -/
theorem operation_injective : ∀ f ∈ operations, ∀ g ∈ operations,
    operation f = operation g → f = g := by
  decide

/-! ## Letters -/

/-- Braces around conditions, parentheses around numbers, square brackets around arguments. -/
def style : Style where
  around
    | .binary _ op _ _ => if op.resultTy = .bool then .curly else .round
    | _ => .round
  call := .square

/-- The slot of a variable. -/
def slotOf (slots : Slots) (x : String) : ℕ := (slots.find? x).getD 0

/-- How words are spelled. -/
def spell (slots : Slots) : Word → List Char
  | .lit v => v.text.toList
  | .name x => (cell (slotOf slots x)).toList
  | .constant f => (operation f).toList
  | .callee f => (operation f).toList ++ ['[']
  | .bang => ['!']
  | .opening .round => ['(']
  | .opening .curly => ['\x7b']
  | .closing .round => [')']
  | .closing .curly => ['\x7d']
  | .closing .square => [']']
  | .comma => ", ".toList
  | .sign op => ' ' :: ((operator op).toList ++ [' '])
  | .becomes => " := ".toList
  | .semicolon => [' ']
  | .opening .square | .ifWord | .thenWord | .elseWord => []

/-- Names have slots, operations are known, and there are no conditionals. -/
def Sound (slots : Slots) : Word → Prop
  | .name x => ∃ slot, slots.find? x = some slot
  | .constant f | .callee f => f ∈ operations
  | .opening b => b ≠ .square
  | .ifWord | .thenWord | .elseWord => False
  | _ => True

/-- The spelling of the language of critters. -/
def spelling (slots : Slots) : Spelling where
  spell := spell slots
  Sound := Sound slots
  head w hw := by
    cases w with
    | lit v =>
      obtain ⟨c, cs, hspell, hc⟩ := head_run (text_ne v rfl) (inRun_text v) []
      exact ⟨c, cs, (List.append_nil _).symm.trans hspell, hc⟩
    | constant f =>
      obtain ⟨hne, hrun, -⟩ := operation_spec f hw
      obtain ⟨c, cs, hspell, hc⟩ := head_run hne (List.all_eq_true.1 hrun) []
      exact ⟨c, cs, (List.append_nil _).symm.trans hspell, hc⟩
    | callee f =>
      obtain ⟨hne, hrun, -⟩ := operation_spec f hw
      exact head_run hne (List.all_eq_true.1 hrun) _
    | name x =>
      rw [spell, cell, String.toList_append, String.toList_append]
      exact ⟨'m', _, rfl, rfl⟩
    | opening b =>
      cases b with
      | square => exact absurd rfl hw
      | round | curly => exact ⟨_, _, rfl, rfl⟩
    | closing b => cases b <;> exact ⟨_, _, rfl, rfl⟩
    | ifWord | thenWord | elseWord => exact hw.elim
    | bang | comma | sign | becomes | semicolon => exact ⟨_, _, rfl, rfl⟩

/-! ## Reading -/

variable {slots : Slots}

/-- The word as critters know it: a variable by its slot, an operation by its written name. -/
def key (slots : Slots) : Word → Word
  | .name x => .name (slotOf slots x).repr
  | .constant f => .constant (operation f)
  | .callee f => .callee (operation f)
  | w => w

/-- No two variables share a slot. -/
def Apart (slots : Slots) : Prop :=
  ∀ x y slot, slots.find? x = some slot → slots.find? y = some slot → x = y

theorem repr_injective {m n : ℕ} (h : m.repr = n.repr) : m = n := by
  have hdigits : Nat.toDigits 10 m = Nat.toDigits 10 n := by
    rw [← Nat.toList_repr, h, Nat.toList_repr]
  rw [← Nat.ofDigitChars_ten_toDigits (n := m), hdigits, Nat.ofDigitChars_ten_toDigits]

/-- A word that there is can be told by what critters know of it. -/
theorem key_injective (hslots : Apart slots) (w w' : Word) (hw : Sound slots w)
    (hw' : Sound slots w') (h : key slots w = key slots w') : w = w' := by
  cases w with
  | name x =>
    cases w' with
    | name y =>
      obtain ⟨slot, hx⟩ := hw
      obtain ⟨slot', hy⟩ := hw'
      have hslot : slot = slot' := by
        have := repr_injective (Word.name.inj h)
        rwa [slotOf, slotOf, hx, hy] at this
      rw [hslots x y slot hx (hslot ▸ hy)]
    | _ => cases h
  | constant f =>
    cases w' with
    | constant g => rw [operation_injective f hw g hw' (Word.constant.inj h)]
    | _ => cases h
  | callee f =>
    cases w' with
    | callee g => rw [operation_injective f hw g hw' (Word.callee.inj h)]
    | _ => cases h
  | _ =>
    cases w' with
    | name | constant | callee => cases h
    | _ => exact h

/-- The first word of an operand that does not begin with a run of letters. -/
def symbolOf : List Char → Option Word
  | '!' :: c :: _ => if c = '=' then none else some .bang
  | '(' :: _ => some (.opening .round)
  | '\x7b' :: _ => some (.opening .curly)
  | _ => none

/-- The first word of an operand: a run of letters, with what follows it. -/
def operandOf (run rest : List Char) : Option Word :=
  if run = [] then symbolOf rest
  else match Literal.ofToken? (String.ofList run) with
    | some v => some (.lit v)
    | none =>
      if run = "mem".toList then
        some (.name (String.ofList ((rest.drop 1).takeWhile Char.isDigit)))
      else if String.ofList run ∈ operations.map operation then
        if rest.head? = some '[' then some (.callee (String.ofList run))
        else some (.constant (String.ofList run))
      else none

/-- The first word of a text, where an operand begins or where none does. -/
def first : Bool → List Char → Option Word
  | true, t => operandOf (t.takeWhile inRun) (t.dropWhile inRun)
  | false, ')' :: _ => some (.closing .round)
  | false, '\x7d' :: _ => some (.closing .curly)
  | false, ']' :: _ => some (.closing .square)
  | false, ',' :: _ => some .comma
  | false, ' ' :: t =>
    if (first true t).isSome then some .semicolon
    else
      let symbol := String.ofList (t.takeWhile (· ≠ ' '))
      if symbol = ":=" then some .becomes
      else (Operator.all.find? fun op => operator op = symbol).map .sign
  | false, _ => none

theorem first_run {run rest : List Char} (hrun : ∀ c ∈ run, inRun c = true)
    (hrest : ∀ c ∈ rest.head?, inRun c = false) :
    first true (run ++ rest) = operandOf run rest := by
  rw [first, takeWhile_run hrun hrest, dropWhile_run hrun hrest]

theorem operandOf_operation {f : String} (hf : f ∈ operations) (rest : List Char) :
    operandOf (operation f).toList rest =
      if rest.head? = some '[' then some (.callee (operation f))
      else some (.constant (operation f)) := by
  obtain ⟨hne, -, hmem, htoken⟩ := operation_spec f hf
  have hmem' : (operation f).toList ≠ "mem".toList := fun h => hmem (String.toList_inj.1 h)
  rw [operandOf, if_neg hne, String.ofList_toList, htoken]
  exact (if_neg hmem').trans (if_pos (List.mem_map_of_mem hf))

theorem first_operand (w : Word) (t : List Char) (hw : Sound slots w) (hstarts : w.starts = true)
    (ht : (spelling slots).GoesOn (!w.ends) t) :
    first true (spell slots w ++ t) = some (key slots w) := by
  cases w with
  | lit v =>
    refine (first_run (inRun_text v) fun c hc => inRun_of_stop (ht.stop c hc)).trans ?_
    rw [operandOf, if_neg (text_ne v rfl), String.ofList_toList, Literal.ofToken?_text]
    rfl
  | name x =>
    have hcell : spell slots (.name x) ++ t =
        "mem".toList ++ '[' :: (Nat.toDigits 10 (slotOf slots x) ++ ']' :: t) := by
      simp [spell, cell, Nat.toList_repr]
    rw [hcell, first_run (List.all_eq_true.1 rfl) (by rintro _ ⟨⟩; rfl)]
    have hdigits : (Nat.toDigits 10 (slotOf slots x) ++ ']' :: t).takeWhile Char.isDigit =
        Nat.toDigits 10 (slotOf slots x) := by
      rw [List.takeWhile_append_of_pos fun c hc =>
        Nat.isDigit_of_mem_toDigits (by decide) (by decide) hc]
      exact List.append_nil _
    change some (Word.name (String.ofList (List.takeWhile Char.isDigit
      (Nat.toDigits 10 (slotOf slots x) ++ ']' :: t)))) = _
    rw [hdigits, ← Nat.toList_repr, String.ofList_toList]
    rfl
  | constant f =>
    obtain ⟨-, hrun, -⟩ := operation_spec f hw
    refine (first_run (List.all_eq_true.1 hrun) fun c hc => inRun_of_stop (ht.stop c hc)).trans ?_
    rw [operandOf_operation hw, if_neg]
    · rfl
    · intro hhead
      exact absurd (ht.stop '[' hhead) (by decide)
  | callee f =>
    obtain ⟨-, hrun, -⟩ := operation_spec f hw
    rw [spell, List.append_assoc]
    refine (first_run (List.all_eq_true.1 hrun) (by rintro _ ⟨⟩; rfl)).trans ?_
    exact (operandOf_operation hw _).trans (if_pos rfl)
  | bang =>
    -- `!=` is an operator, but no operand begins with `=`
    obtain ⟨c, cs, rfl, hc⟩ := ht.operand
    refine if_neg (c := c = '=') ?_
    rintro rfl
    exact absurd hc (by decide)
  | opening b =>
    cases b with
    | square => exact absurd rfl hw
    | round | curly => rfl
  | ifWord => exact hw.elim
  | _ => cases hstarts

/-- No operand begins with an operator. -/
theorem first_operator (op : Operator) (t : List Char) :
    first true ((operator op).toList ++ ' ' :: t) = none := by
  have hspec : ∀ token ∈ ["mod", "-", "and", "or"], token.toList ≠ [] ∧
      token.toList.all inRun = true ∧ token.toList ≠ "mem".toList ∧
      Literal.ofToken? token = none ∧ token ∉ operations.map operation := by
    decide
  have hrun : ∀ token ∈ ["mod", "-", "and", "or"],
      first true (token.toList ++ ' ' :: t) = none := by
    intro token htoken
    obtain ⟨hne, hrun, hmem, hnone, hop⟩ := hspec token htoken
    rw [first_run (List.all_eq_true.1 hrun) (by rintro _ ⟨⟩; rfl), operandOf, if_neg hne,
      String.ofList_toList, hnone]
    exact (if_neg hmem).trans (if_neg hop)
  cases op with
  | mod | sub | and | or => exact hrun _ (by decide)
  | _ => rfl

/-- **The first word of a text can be read.** -/
theorem first_spell (w : Word) (t : List Char) (hw : Sound slots w)
    (ht : (spelling slots).GoesOn (!w.ends) t) :
    first w.starts (spell slots w ++ t) = some (key slots w) := by
  cases hstarts : w.starts with
  | true => exact first_operand w t hw hstarts ht
  | false =>
    cases w with
    | closing b => cases b <;> rfl
    | comma => rfl
    | sign op =>
      rw [spell, List.cons_append, List.append_assoc, List.singleton_append, first,
        first_operator op t]
      cases op <;> rfl
    | becomes => rfl
    | semicolon =>
      obtain ⟨ws, hws, rfl⟩ := ht
      cases ws with
      | nil => cases hws.1
      | cons w ws =>
        have hfirst := first_operand w _ (hws.2 w List.mem_cons_self) hws.1.1 ⟨ws, hws.tail, rfl⟩
        exact if_pos (by rw [Spelling.text_cons]; exact Option.isSome_of_eq_some hfirst)
    | thenWord | elseWord => exact hw.elim
    | _ => cases hstarts

end Rulebook.Critter
