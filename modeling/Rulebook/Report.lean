import Rulebook.Folding

/-!
# Reports

A report is the outcome of a stage that can fail and warn: the warnings in the order in which
they were raised, and a result. Warnings raised before a failure are kept.
-/

namespace Rulebook

/-- Why a program was not lowered. -/
inductive Failure where
  /-- The program has a defect. -/
  | rejected (e : Defect)
  /-- Folding met a literal of the wrong kind. -/
  | clash (c : KindClash)
  deriving DecidableEq

/-- A result, and the warnings raised on the way to it. -/
structure Report (α : Type) where
  warnings : List Warning
  result : Except Failure α

namespace Report

variable {α β : Type}

/-- A value, without warnings. -/
def ofValue (a : α) : Report α := ⟨[], .ok a⟩

/-- Goes on with the value of a report. -/
def andThen (r : Report α) (f : α → Report β) : Report β :=
  match r.result with
  | .ok a => ⟨r.warnings ++ (f a).warnings, (f a).result⟩
  | .error e => ⟨r.warnings, .error e⟩

instance : Monad Report where
  pure := ofValue
  bind := andThen

theorem andThen_ofValue (r : Report α) : r.andThen ofValue = r := by
  obtain ⟨w, _ | a⟩ := r
  · rfl
  · simp [andThen, ofValue]

theorem andThen_andThen {γ : Type} (r : Report α) (f : α → Report β) (g : β → Report γ) :
    (r.andThen f).andThen g = r.andThen fun a => (f a).andThen g := by
  obtain ⟨w, _ | a⟩ := r
  · rfl
  · rcases h : (f a).result with e | b <;> simp [andThen, h]

instance : LawfulMonad Report :=
  LawfulMonad.mk' Report (fun r => andThen_ofValue r) (fun _ _ => rfl)
    (fun r f g => andThen_andThen r f g)

/-- The report of a stage that does not warn. -/
def ofExcept : Except Defect α → Report α
  | .ok a => ⟨[], .ok a⟩
  | .error e => ⟨[], .error (.rejected e)⟩

/-- The report of folding an expression. -/
def ofFolding (e : TypedExpr) : Report TypedExpr :=
  match e.foldConstants with
  | .ok e' => ⟨e.unfolded, .ok e'⟩
  | .error c => ⟨e.unfolded, .error (.clash c)⟩

/-! The result of a report, without its warnings. -/

@[simp] theorem result_pure (a : α) : (pure a : Report α).result = .ok a := rfl

@[simp] theorem result_bind (r : Report α) (f : α → Report β) :
    (r >>= f).result = r.result >>= fun a => (f a).result := by
  obtain ⟨w, x⟩ := r
  cases x <;> rfl

theorem result_mapM (f : α → Report β) (as : List α) :
    (as.mapM f).result = as.mapM fun a => (f a).result := by
  induction as with
  | nil => rfl
  | cons a as ih => simp only [List.mapM_cons, result_bind, result_pure, ih]; rfl

end Report

end Rulebook
