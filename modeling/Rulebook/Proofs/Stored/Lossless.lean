import Mathlib.Data.List.Basic
import Rulebook.Stored.Program

/-!
# Nothing is lost in the stored form

A type is `Lossless` if reading what was written of a value gives the value back. The types of
stored data are built from one another, and so are the proofs: a record is read field by field, a
variant by its tag and payload, a list element by element.
-/

namespace Rulebook.Stored

open Json

variable {α μ : Type}

/-- The stored form of a value is read as that value. -/
class Lossless (α : Type) [Stored α] : Prop where
  read?_write : ∀ a : α, read? (write a) = some a

attribute [simp] Lossless.read?_write

/-! ## Simple data -/

@[simp] theorem read?_string (x : String) : read? (.string x) = some x := rfl

instance : Lossless String := ⟨read?_string⟩

instance : Lossless Bool := ⟨fun _ => rfl⟩

instance : Lossless UInt32 where
  read?_write n := by
    have hn := n.toNat_lt
    unfold instUInt32
    dsimp only
    rw [if_pos (by omega), Int.toNat_natCast, UInt32.ofNat_toNat]

instance : Lossless Literal where
  read?_write v := by
    cases v with
    | bool b => rfl
    | int n =>
      have hmin := n.le_toInt
      have hmax := n.toInt_lt
      change Literal.ofInt? n.toInt = _
      rw [Literal.ofInt?, if_pos (by omega), Int32.ofInt_toInt]

instance : Lossless Operator where
  read?_write op := by cases op <;> rfl

/-! ## Lists and optional values -/

/-- What is written of each element of a list is read element by element. -/
theorem mapM_map_eq_some {β : Type} {f : α → β} {g : β → Option α} {as : List α}
    (h : ∀ a ∈ as, g (f a) = some a) : (as.map f).mapM g = some as := by
  induction as with
  | nil => rfl
  | cons a as ih =>
    rw [List.map_cons, List.mapM_cons, h a List.mem_cons_self,
      ih fun b hb => h b (List.mem_cons_of_mem _ hb)]
    rfl

instance [Stored α] [Lossless α] : Lossless (List α) where
  read?_write as := by
    have has : (as.map write).mapM read? = some as :=
      mapM_map_eq_some fun a _ => Lossless.read?_write a
    obtain ⟨ps, hps, hval⟩ := exists_elements? (as.map write)
    unfold instList
    simp [hps, hval, has]

/-- An optional value is stored as the value or as `null`, so no value may be stored as `null`. -/
theorem Lossless.option [Stored α] [Lossless α] (h : ∀ a : α, write a ≠ .null) :
    Lossless (Option α) where
  read?_write a := by
    cases a with
    | none => rfl
    | some a =>
      unfold instOption
      dsimp only
      split
      · next hnull => exact absurd hnull (h a)
      · rw [Lossless.read?_write, Option.map_some]

/-! ## Types -/

theorem readTy?_writeTy (t : Ty) : readTy? (writeTy t) = some t := by
  induction t with
  | void | int | bool => rw [writeTy, readTy?]; rfl
  | fn params ret ihp ihr =>
    obtain ⟨ps, hps, hval⟩ := exists_elements? (params.map writeTy)
    rw [writeTy, readTy?]
    simp [variant?, member?, lookupMember, hps, hval, mapM_map_eq_some ihp, ihr]

instance : Lossless Ty := ⟨readTy?_writeTy⟩

/-! ## Expressions -/

/-- The kind and the mark of a node are found in its record. -/
class LosslessMark (μ : Type) [StoredMark μ] : Prop where
  record?_marked : ∀ (m : μ) (kind : Json), ∃ p mark,
    (marked m kind).record? ("kind" :: StoredMark.names μ) = some (some p :: mark) ∧
      p.val = kind ∧ StoredMark.read? mark = some m

instance : LosslessMark Line where
  record?_marked line kind := by
    simp [marked, record?, member?, lookupMember, StoredMark.names, StoredMark.write,
      StoredMark.read?, field?]

instance : LosslessMark Mark where
  record?_marked m kind := by
    simp [marked, record?, member?, lookupMember, StoredMark.names, StoredMark.write,
      StoredMark.read?, field?]

variable [StoredMark μ] [LosslessMark μ]

theorem readExpr?_marked (m : μ) (kind : Json) : readExpr? (marked m kind) = readKind? m kind := by
  obtain ⟨⟨k, hk⟩, mark, hrecord, hval, hmark⟩ := LosslessMark.record?_marked m kind
  obtain rfl : k = kind := hval
  rw [readExpr?, hrecord]
  simp [hmark]

theorem readExpr?_writeExpr (e : Expr μ) : readExpr? (writeExpr e) = some e := by
  induction e with
  | lit m v =>
    rw [writeExpr, readExpr?_marked, readKind?]
    simp [variant?, payload?, field?]
  | var m x =>
    rw [writeExpr, readExpr?_marked, readKind?]
    simp [variant?, payload?, field?]
  | not m e ih =>
    rw [writeExpr, readExpr?_marked, readKind?]
    simp [variant?, ih]
  | call m f args ih =>
    obtain ⟨ps, hps, hval⟩ := exists_elements? (args.map writeExpr)
    rw [writeExpr, readExpr?_marked, readKind?]
    simp [parts, variant?, field?, member?, lookupMember, hps, hval, mapM_map_eq_some ih]
  | binary m op l r ihl ihr =>
    rw [writeExpr, readExpr?_marked, readKind?]
    simp [parts, variant?, field?, member?, lookupMember, ihl, ihr]
  | cond m c t e ihc iht ihe =>
    rw [writeExpr, readExpr?_marked, readKind?]
    simp [parts, variant?, member?, lookupMember, ihc, iht, ihe]
  | assign m x e ih =>
    rw [writeExpr, readExpr?_marked, readKind?]
    simp [parts, variant?, field?, member?, lookupMember, ih]
  | seq m a b iha ihb =>
    rw [writeExpr, readExpr?_marked, readKind?]
    simp [parts, variant?, member?, lookupMember, iha, ihb]

instance : Lossless (Expr μ) := ⟨readExpr?_writeExpr⟩

/-! ## Declarations and programs -/

instance : Lossless Param where
  read?_write p := by
    unfold instParam
    simp [record?, member?, lookupMember, field?]

instance : Lossless (Recursion μ) where
  read?_write r := by
    unfold instRecursion
    simp [record?, member?, lookupMember, field?]

instance : Lossless (Option (Recursion μ)) := .option nofun

instance : Lossless (VarDecl μ) where
  read?_write v := by
    unfold instVarDecl
    simp [record?, member?, lookupMember, field?]

theorem readBody?_writeBody (body : Option (Expr μ)) : readBody? (writeBody body) = some body := by
  cases body with
  | none => rfl
  | some e => simp [writeBody, readBody?, variant?, payload?, field?]

instance : Lossless (FunDecl μ) where
  read?_write f := by
    unfold instFunDecl
    simp [record?, member?, lookupMember, field?, optional?, readBody?_writeBody]

instance : Lossless Operation where
  read?_write op := by
    unfold instOperation
    simp [record?, member?, lookupMember, field?]

instance : Lossless Library where
  read?_write lib := by
    unfold instLibrary
    simp [record?, member?, lookupMember, field?]

instance : Lossless (Option Library) := .option nofun

instance : Lossless RawProgram where
  read?_write p := by
    unfold instRawProgram
    simp [record?, member?, lookupMember, field?]

instance : Lossless TypedProgram where
  read?_write p := by
    unfold instTypedProgram
    simp [record?, member?, lookupMember, field?, optional?]

instance : Lossless LoweredProgram where
  read?_write p := by
    unfold instLoweredProgram
    simp [record?, member?, lookupMember, field?, optional?]

instance : Lossless Rule where
  read?_write r := by
    unfold instRule
    simp [record?, member?, lookupMember, field?]

end Rulebook.Stored
