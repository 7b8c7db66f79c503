import Mathlib.Data.Nat.Digits.Defs
import Rulebook.Proofs.Text.Spelling

/-!
# Literal tokens

A token denotes a literal if it is `true`, `false` or a numeral whose value 32 bits hold. `Numeral`
says what a numeral is and which value it has: an optional sign and one or more decimal digits, the
last of which counts once, the one before it ten times, and so on. Reading finds exactly that
(`Literal.integer?_eq_some`), and `Literal.ofToken?_eq_iff` is the language of tokens as a whole.
-/

namespace Rulebook

/-- The number that decimal digits stand for. -/
def decimalValue (digits : List Char) : ℕ :=
  Nat.ofDigits 10 (digits.reverse.map fun c => c.toNat - '0'.toNat)

/-- One or more of the ten digits. -/
def IsDigits (digits : List Char) : Prop := digits ≠ [] ∧ ∀ c ∈ digits, '0' ≤ c ∧ c ≤ '9'

/-- An optional sign and one or more digits, of value `z`. -/
inductive Numeral : List Char → ℤ → Prop
  | unsigned {digits : List Char} : IsDigits digits → Numeral digits (decimalValue digits)
  | plus {digits : List Char} : IsDigits digits → Numeral ('+' :: digits) (decimalValue digits)
  | minus {digits : List Char} : IsDigits digits → Numeral ('-' :: digits) (-decimalValue digits)

namespace Literal

theorem isDigit_iff (c : Char) : c.isDigit = true ↔ '0' ≤ c ∧ c ≤ '9' := by
  simp [Char.isDigit, Char.le_def]

theorem ofDigitChars_eq_decimalValue (digits : List Char) :
    Nat.ofDigitChars 10 digits 0 = decimalValue digits := by
  rw [decimalValue, Nat.ofDigits_eq_foldr, List.foldr_map, List.foldr_reverse, Nat.ofDigitChars]
  congr 1
  funext value c
  exact Nat.add_comm _ _

theorem magnitude?_eq_some {digits : List Char} {n : ℕ} :
    magnitude? digits = some n ↔ IsDigits digits ∧ n = decimalValue digits := by
  have hdigits : (digits ≠ [] ∧ digits.all Char.isDigit = true) ↔ IsDigits digits := by
    simp only [IsDigits, List.all_eq_true, isDigit_iff]
  rw [magnitude?, ofDigitChars_eq_decimalValue, Option.ite_none_right_eq_some, hdigits,
    Option.some.injEq, eq_comm (a := n)]

/-- What follows a sign, `σ`, and is read as an integer. -/
theorem eq_of_map_magnitude? {digits : List Char} {σ : ℤ → ℤ} {z : ℤ}
    (h : Option.map σ (do let n ← magnitude? digits; pure (n : ℤ)) = some z) :
    IsDigits digits ∧ σ (decimalValue digits) = z := by
  cases hn : magnitude? digits with
  | none =>
    rw [hn] at h
    cases h
  | some n =>
    rw [hn] at h
    obtain ⟨hdigits, rfl⟩ := magnitude?_eq_some.1 hn
    exact ⟨hdigits, Option.some.inj h⟩

/-- **Integers are read from numerals, and from nothing else.** -/
theorem integer?_eq_some {cs : List Char} {z : ℤ} : integer? cs = some z ↔ Numeral cs z := by
  constructor
  · intro h
    unfold integer? at h
    split at h
    · obtain ⟨hdigits, rfl⟩ := eq_of_map_magnitude? h
      exact .minus hdigits
    · obtain ⟨hdigits, rfl⟩ := eq_of_map_magnitude? h
      exact .plus hdigits
    · obtain ⟨hdigits, rfl⟩ := eq_of_map_magnitude? h
      exact .unsigned hdigits
  · intro h
    cases h with
    | minus h =>
      rw [integer?, magnitude?_eq_some.2 ⟨h, rfl⟩]
      rfl
    | plus h =>
      rw [integer?, magnitude?_eq_some.2 ⟨h, rfl⟩]
      rfl
    | unsigned h =>
      rw [integer?, magnitude?_eq_some.2 ⟨h, rfl⟩]
      · rfl
      -- the first digit is no sign
      · rintro digits rfl
        exact absurd (h.2 _ List.mem_cons_self) (by decide)
      · rintro digits rfl
        exact absurd (h.2 _ List.mem_cons_self) (by decide)

/-- A 32-bit integer is found from its value, and from no value beyond its bounds. -/
theorem ofInt?_eq_some {z : ℤ} {v : Literal} :
    ofInt? z = some v ↔ ∃ n : Int32, v = .int n ∧ n.toInt = z ∧ -2 ^ 31 ≤ z ∧ z ≤ 2 ^ 31 - 1 := by
  rw [ofInt?, Option.ite_none_right_eq_some, Option.some.injEq]
  constructor
  · rintro ⟨⟨hmin, hmax⟩, rfl⟩
    refine ⟨_, rfl, Int32.toInt_ofInt_of_le (by omega) (by omega), by omega, by omega⟩
  · rintro ⟨n, rfl, rfl, hmin, hmax⟩
    exact ⟨⟨by omega, by omega⟩, by rw [Int32.ofInt_toInt]⟩

/-- What a token denotes, case by case. -/
theorem ofToken?_eq_some {token : String} {v : Literal} :
    ofToken? token = some v ↔
      v = .bool true ∧ token = "true" ∨ v = .bool false ∧ token = "false" ∨
      ∃ n : Int32, v = .int n ∧
        ∃ z, Numeral token.toList z ∧ n.toInt = z ∧ -2 ^ 31 ≤ z ∧ z ≤ 2 ^ 31 - 1 := by
  have hwords : ∀ word ∈ ["true", "false"], ∀ z, ¬Numeral word.toList z := by
    intro word hword z hz
    have hnone : ∀ word ∈ ["true", "false"], integer? word.toList = none := by decide
    have hsome := integer?_eq_some.2 hz
    rw [hnone word hword] at hsome
    cases hsome
  have hne : "true" ≠ "false" := by decide
  unfold ofToken?
  split
  · next htrue =>
    simp only [htrue, hne, hwords "true" (by decide), Option.some.injEq, and_true, and_false,
      false_and, exists_false, or_false, eq_comm]
  · split
    · next hfalse =>
      simp only [hfalse, hne.symm, hwords "false" (by decide), Option.some.injEq, and_true,
        and_false, false_and, exists_false, or_false, false_or, eq_comm]
    · next htrue hfalse =>
      simp only [htrue, hfalse, and_false, false_or, Option.bind_eq_some_iff, integer?_eq_some,
        ofInt?_eq_some]
      constructor
      · rintro ⟨z, hz, n, rfl, hn⟩
        exact ⟨n, rfl, z, hz, hn⟩
      · rintro ⟨n, rfl, z, hz, hn⟩
        exact ⟨z, hz, n, rfl, hn⟩

/-- **The language of literal tokens.** The words `true` and `false` denote the truth values; an
optional sign followed by one or more digits denotes its value, if 32 bits hold it; no other token
denotes a literal. Every literal is denoted by its own text. -/
theorem ofToken?_eq_iff (token : String) :
    (ofToken? token = some (.bool true) ↔ token = "true") ∧
    (ofToken? token = some (.bool false) ↔ token = "false") ∧
    (∀ n : Int32, ofToken? token = some (.int n) ↔
      ∃ z, Numeral token.toList z ∧ n.toInt = z ∧ -2 ^ 31 ≤ z ∧ z ≤ 2 ^ 31 - 1) ∧
    (ofToken? token = none ↔ token ≠ "true" ∧ token ≠ "false" ∧
      ¬∃ z, Numeral token.toList z ∧ -2 ^ 31 ≤ z ∧ z ≤ 2 ^ 31 - 1) ∧
    ∀ v : Literal, ofToken? v.text = some v := by
  refine ⟨by simp [ofToken?_eq_some], by simp [ofToken?_eq_some],
    fun n => by simp [ofToken?_eq_some], ?_, ofToken?_text⟩
  rw [Option.eq_none_iff_forall_ne_some]
  constructor
  · intro hnone
    refine ⟨fun htrue => ?_, fun hfalse => ?_, ?_⟩
    · exact hnone _ (ofToken?_eq_some.2 (.inl ⟨rfl, htrue⟩))
    · exact hnone _ (ofToken?_eq_some.2 (.inr (.inl ⟨rfl, hfalse⟩)))
    · rintro ⟨z, hz, hmin, hmax⟩
      have hn : (Int32.ofInt z).toInt = z := Int32.toInt_ofInt_of_le (by omega) (by omega)
      exact hnone _ (ofToken?_eq_some.2 (.inr (.inr ⟨_, rfl, z, hz, hn, hmin, hmax⟩)))
  · rintro ⟨htrue, hfalse, hnumeral⟩ v hv
    obtain ⟨-, h⟩ | ⟨-, h⟩ | ⟨n, -, z, hz, -, hbounds⟩ := ofToken?_eq_some.1 hv
    · exact htrue h
    · exact hfalse h
    · exact hnumeral ⟨z, hz, hbounds⟩

/-- The bounds are not symmetric, and leading zeros do not count. -/
example : ofToken? "-2147483648" = some (.int (-2147483648)) ∧ ofToken? "+2147483648" = none ∧
    ofToken? "007" = some (.int 7) ∧ ofToken? "+-7" = none ∧ ofToken? "٣" = none := by
  decide +kernel

end Literal

end Rulebook
