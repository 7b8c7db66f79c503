import Rulebook.Proofs.Stored.Lossless
import Rulebook.Proofs.Stored.Trimming

/-!
# What reading ignores

The form of a type is what its trees are read as, and a type is `Tolerant` if its values are read
alike from a tree and from the tree trimmed in that form. Together with `Lossless` this is what the
stored form promises (`Faithful`), and `stored_faithful` is the promise for every kind of data that
is stored on its own.
-/

namespace Rulebook

namespace Stored

open Json

variable {α β μ : Type}

/-- The form of the trees of a type. -/
class HasForm (α : Type) where
  form : Form

open HasForm (form)

/-- Reading does not depend on what can be trimmed. -/
class Tolerant (α : Type) [Stored α] [HasForm α] : Prop where
  read?_trims : ∀ {j j' : Json}, Trims (form α) j j' → (read? j : Option α) = read? j'

theorem Tolerant.read?_keeps [Stored α] [HasForm α] [Tolerant α] {v w : Json}
    (h : Keeps (form α) v w) :
    (read? v : Option α) = read? w := by
  rcases h with rfl | h
  · rfl
  · exact read?_trims h

/-! ## Simple data -/

instance : HasForm String := ⟨.plain⟩

instance : Tolerant String := ⟨fun h => by cases h <;> rfl⟩

instance : HasForm Bool := ⟨.plain⟩

instance : Tolerant Bool := ⟨fun h => by cases h <;> rfl⟩

instance : HasForm UInt32 := ⟨.plain⟩

instance : Tolerant UInt32 := ⟨fun h => by cases h <;> rfl⟩

/-- A literal is read from a number or a truth value only. -/
theorem readLiteral?_eq_none {j v : Json} {tag : String} {hv : sizeOf v < sizeOf j}
    (h : j.variant? = some (tag, some ⟨v, hv⟩)) (hint : ∀ n, v ≠ .int n)
    (hbool : ∀ b, v ≠ .bool b) : readLiteral? j = none := by
  rw [readLiteral?, h]
  split
  · next heq =>
    cases heq
    exact absurd rfl (hint _)
  · next heq =>
    cases heq
    exact absurd rfl (hbool _)
  · rfl

instance : HasForm Literal := ⟨.plain⟩

instance : Tolerant Literal where
  read?_trims {j j'} h := by
    change readLiteral? j = readLiteral? j'
    rcases h.variant? rfl with ⟨h₁, h₂⟩ | ⟨tag, v, w, hv, hw, h₁, h₂, hvw⟩
    · rw [readLiteral?, readLiteral?, h₁, h₂]
    · cases hvw <;> rw [readLiteral?_eq_none h₁ nofun nofun, readLiteral?_eq_none h₂ nofun nofun]

instance : HasForm Operator := ⟨.plain⟩

instance : Tolerant Operator where
  read?_trims {j j'} h := by
    change readOperator? j = readOperator? j'
    unfold readOperator?
    rcases h.variant? rfl with ⟨h₁, h₂⟩ | ⟨tag, v, w, hv, hw, h₁, h₂, hvw⟩
    · rw [h₁, h₂]
    · rw [h₁, h₂]
      cases hvw <;> rfl

/-- The elements of an array are read one by one. -/
theorem mapM_elements? {g : Form} {f : Json → Option α} {j j' : Json} (h : Keeps (.list g) j j')
    (hf : ∀ v w, sizeOf v < sizeOf j → Keeps g v w → f v = f w) :
    (j.elements? >>= fun ps => ps.mapM fun p => f p.val) =
      j'.elements? >>= fun ps => ps.mapM fun p => f p.val := by
  rcases h with rfl | h
  · rfl
  have helements := h.listElements?
  generalize j.elements? = elements, j'.elements? = elements' at helements ⊢
  cases helements with
  | none => rfl
  | @some ps ps' hkeeps =>
    change ps.mapM _ = ps'.mapM _
    induction hkeeps with
    | nil => rfl
    | @cons p _ _ _ hp _ ih => rw [List.mapM_cons, List.mapM_cons, hf _ _ p.property hp, ih]

instance [HasForm α] : HasForm (List α) := ⟨.list (form α)⟩

instance [Stored α] [HasForm α] [Tolerant α] : Tolerant (List α) where
  read?_trims h := mapM_elements? (.inr h) fun _ _ _ => Tolerant.read?_keeps

/-- Nothing can be trimmed from `null`, so a value that may be missing has no form of its own. -/
instance [HasForm α] : HasForm (Option α) := ⟨form α⟩

instance [Stored α] [HasForm α] [Tolerant α] : Tolerant (Option α) where
  read?_trims {j j'} h := by
    have hread : (read? j : Option α) = read? j' := Tolerant.read?_trims h
    cases h <;> exact congrArg (Option.map some) hread

/-! ## Fields -/

theorem bind_eq_bind {x x' : Option α} {f f' : α → Option β} (hx : x = x')
    (hf : ∀ a, f a = f' a) : (x >>= f) = x' >>= f' := by
  rw [hx, funext hf]

section

variable {j j' : Json} {name : String} {f g : Form}

/-- A required field is found where it was. -/
theorem bind_member? (h : Trims f j j') (hf : f.isRecord = true)
    (hname : f.members.lookup name = some g) (hrequired : name ∉ optionalNames)
    {r : j.Part → Option β} {r' : j'.Part → Option β}
    (hr : ∀ p p', Keeps g p.val p'.val → r p = r' p') :
    (j.member? name).bind r = (j'.member? name).bind r' := by
  have hkeeps := h.member? hf hname
  generalize j.member? name = p, j'.member? name = p' at hkeeps ⊢
  cases hkeeps with
  | missing => rfl
  | kept hkeeps => exact hr _ _ hkeeps
  | absent hname => exact absurd hname hrequired

variable {p : Option j.Part} {p' : Option j'.Part}

/-- A required field is read alike if what it holds is. -/
theorem bind_keeps (h : KeepsField name f p p') (hrequired : name ∉ optionalNames)
    {r : Json → Option β} (hr : ∀ {v w : Json}, Keeps f v w → r v = r w) :
    (p.bind fun q => r q.val) = p'.bind fun q => r q.val := by
  cases h with
  | missing => rfl
  | kept hkeeps => exact hr hkeeps
  | absent hname => exact absurd hname hrequired

variable [Stored α] [HasForm α] [Tolerant α] (h : KeepsField name (form α) p p')

include h

theorem field?_keeps (hrequired : name ∉ optionalNames) : (field? p : Option α) = field? p' :=
  bind_keeps h hrequired Tolerant.read?_keeps

theorem optional?_keeps : (optional? p : Option (Option α)) = optional? p' := by
  cases h with
  | missing => rfl
  | kept hkeeps => exact Tolerant.read?_keeps hkeeps
  | absent _ hnull =>
    dsimp only [optional?]
    rw [hnull]
    rfl

end

/-! ## Types -/

/-- Only a function type is read from a variant with a payload. -/
theorem readTy?_eq_none {j v : Json} {tag : String} {hv : sizeOf v < sizeOf j}
    (h : j.variant? = some (tag, some ⟨v, hv⟩))
    (hbare : isBare (some ⟨v, hv⟩ : Option j.Part) = false)
    (htag : tag ≠ "Function") : readTy? j = none := by
  rw [readTy?, h]
  split
  case h_4 heq =>
    cases heq
    exact absurd rfl htag
  case h_5 => rfl
  all_goals
    next heq =>
      cases heq
      rw [hbare]
      rfl

theorem readTy?_keeps {j j' : Json} (h : Keeps .ty j j') : readTy? j = readTy? j' := by
  induction j using Json.inductSmaller generalizing j' with
  | _ j ih =>
  rcases h with rfl | h
  · rfl
  rcases h.variant? rfl with ⟨h₁, h₂⟩ | ⟨tag, v, w, hv, hw, h₁, h₂, hvw⟩
  · rw [readTy?, readTy?, h₁, h₂]
  by_cases htag : tag = "Function"
  · subst htag
    rw [readTy?, readTy?, h₁, h₂]
    refine bind_member? hvw rfl rfl (by decide) fun p p' hparams =>
      bind_member? hvw rfl rfl (by decide) fun q q' hret => ?_
    have hparams := mapM_elements? hparams fun a b ha hab =>
      ih a (Nat.lt_trans (Nat.lt_trans ha p.property) hv) hab
    have hret := ih q.val (Nat.lt_trans q.property hv) hret
    dsimp only at hparams hret ⊢
    rw [← bind_assoc, ← bind_assoc, hparams, hret]
  · rw [readTy?_eq_none h₁ (hvw.isBare_left hv) htag,
      readTy?_eq_none h₂ (hvw.isBare_right hw) htag]

instance : HasForm Ty := ⟨.ty⟩

instance : Tolerant Ty := ⟨fun h => readTy?_keeps (.inr h)⟩

/-! ## Expressions -/

/-- The fields of marks, with their forms. -/
class MarkForm (μ : Type) where
  fields : List (String × Form)

instance : MarkForm Line := ⟨[("line", form Line)]⟩

instance : MarkForm Mark := ⟨[("ty", form Ty), ("line", form Line)]⟩

/-- Marks that are read alike from fields that are kept. -/
class TolerantMark (μ : Type) [StoredMark μ] [MarkForm μ] : Prop where
  names_eq : (MarkForm.fields μ).map Prod.fst = StoredMark.names μ
  read?_keeps : ∀ {j j' : Json} {ps : List (Option j.Part)} {ps' : List (Option j'.Part)},
    KeepsFields (.expr (MarkForm.fields μ)) (StoredMark.names μ) ps ps' →
      (StoredMark.read? ps : Option μ) = StoredMark.read? ps'

instance : TolerantMark Line where
  names_eq := rfl
  read?_keeps h := by
    cases h with
    | cons hline h =>
      cases h
      exact field?_keeps hline (by decide)

instance : TolerantMark Mark where
  names_eq := rfl
  read?_keeps h := by
    cases h with
    | cons hty h =>
      cases h with
      | cons hline h =>
        cases h
        exact bind_eq_bind (field?_keeps hty (by decide)) fun _ =>
          bind_eq_bind (field?_keeps hline (by decide)) fun _ => rfl

variable [StoredMark μ]

/-- The tags of the kinds of expressions. -/
def kindTags : List String :=
  ["Literal", "Var", "Not", "Call", "Binary", "IfElse", "Assign", "Chain"]

theorem readKind?_eq_none {m : μ} {j v : Json} {tag : String} {hv : sizeOf v < sizeOf j}
    (h : j.variant? = some (tag, some ⟨v, hv⟩)) (htag : tag ∉ kindTags) : readKind? m j = none := by
  rw [readKind?, h]
  split
  case h_9 => rfl
  all_goals
    next heq =>
      cases heq
      exact absurd (by decide) htag

/-- The kind of an expression is read alike if the expressions in it are. -/
theorem readKind?_trims (m : μ) {mark : List (String × Form)} {j j' : Json}
    (h : Trims (.kind mark) j j')
    (hparts : ∀ {k k' : Json}, sizeOf k < sizeOf j → Keeps (.expr mark) k k' →
      (readExpr? k : Option (Expr μ)) = readExpr? k') : readKind? m j = readKind? m j' := by
  rcases h.variant? rfl with ⟨h₁, h₂⟩ | ⟨tag, v, w, hv, hw, h₁, h₂, hvw⟩
  · rw [readKind?, readKind?, h₁, h₂]
  by_cases htag : tag ∉ kindTags
  · rw [readKind?_eq_none h₁ htag, readKind?_eq_none h₂ htag]
  have hread {k k' : Json} (hk : sizeOf k < sizeOf v) (hkeeps : Keeps (.expr mark) k k') :
      (readExpr? k : Option (Expr μ)) = readExpr? k' := hparts (Nat.lt_trans hk hv) hkeeps
  rw [readKind?, readKind?, h₁, h₂]
  simp only [kindTags, List.mem_cons, List.not_mem_nil, or_false, not_not] at htag
  -- one case for each tag; the two readers differ only in the parts they are given
  rcases htag with rfl | rfl | rfl | rfl | rfl | rfl | rfl | rfl
  · exact bind_eq_bind (Tolerant.read?_trims hvw) fun _ => rfl
  · exact bind_eq_bind (Tolerant.read?_trims hvw) fun _ => rfl
  · exact bind_eq_bind (hparts hv (.inr hvw)) fun _ => rfl
  · refine bind_eq_bind (field?_keeps (hvw.member? rfl rfl) (by decide)) fun name =>
      bind_member? hvw rfl rfl (by decide) fun p p' hargs => ?_
    have hargs := mapM_elements? hargs fun a b ha hab => hread (Nat.lt_trans ha p.property) hab
    dsimp only at hargs ⊢
    rw [← bind_assoc, ← bind_assoc, hargs]
  · refine bind_member? hvw rfl rfl (by decide) fun l l' hleft =>
      bind_eq_bind (field?_keeps (hvw.member? rfl rfl) (by decide)) fun op =>
        bind_member? hvw rfl rfl (by decide) fun r r' hright => ?_
    exact bind_eq_bind (hread l.property hleft) fun _ =>
      bind_eq_bind (hread r.property hright) fun _ => rfl
  · refine bind_member? hvw rfl rfl (by decide) fun c c' htest =>
      bind_member? hvw rfl rfl (by decide) fun t t' hyes =>
        bind_member? hvw rfl rfl (by decide) fun e e' hno => ?_
    exact bind_eq_bind (hread c.property htest) fun _ =>
      bind_eq_bind (hread t.property hyes) fun _ => bind_eq_bind (hread e.property hno) fun _ => rfl
  · refine bind_eq_bind (field?_keeps (hvw.member? rfl rfl) (by decide)) fun target =>
      bind_member? hvw rfl rfl (by decide) fun p p' hvalue => ?_
    exact bind_eq_bind (hread p.property hvalue) fun _ => rfl
  · refine bind_member? hvw rfl rfl (by decide) fun p p' hfirst =>
      bind_member? hvw rfl rfl (by decide) fun q q' hsecond => ?_
    exact bind_eq_bind (hread p.property hfirst) fun _ =>
      bind_eq_bind (hread q.property hsecond) fun _ => rfl

variable [MarkForm μ]

instance : HasForm (Expr μ) := ⟨.expr (MarkForm.fields μ)⟩

variable [TolerantMark μ]

theorem readExpr?_keeps {j j' : Json} (h : Keeps (form (Expr μ)) j j') :
    (readExpr? j : Option (Expr μ)) = readExpr? j' := by
  induction j using Json.inductSmaller generalizing j' with
  | _ j ih =>
  rcases h with rfl | h
  · rfl
  have hnames : (form (Expr μ)).names = "kind" :: StoredMark.names μ :=
    congrArg ("kind" :: ·) TolerantMark.names_eq
  rw [readExpr?, readExpr?]
  refine h.recordCases _ rfl hnames rfl ?_
  rintro _ _ (_ | ⟨hkind, hmark⟩)
  cases hkind with
  | missing => rfl
  | absent hname => exact absurd hname (by decide)
  | @kept p p' hkind =>
    refine bind_eq_bind (TolerantMark.read?_keeps hmark) fun m => ?_
    rcases hkind with heq | hkind
    · exact congrArg (readKind? m) heq
    · exact readKind?_trims m hkind fun hk hkeeps => ih _ (Nat.lt_trans hk p.property) hkeeps

instance : Tolerant (Expr μ) := ⟨fun h => readExpr?_keeps (.inr h)⟩

/-! ## Declarations and programs -/

instance : HasForm Param :=
  ⟨.record [("name", form String), ("ty", form Ty)]⟩

instance : Tolerant Param where
  read?_trims h := by
    unfold instParam
    dsimp only
    refine h.recordCases ["name", "ty"] rfl rfl rfl ?_
    rintro _ _ (_ | ⟨hname, _ | ⟨hty, _ | _⟩⟩)
    exact bind_eq_bind (field?_keeps hname (by decide)) fun _ =>
      bind_eq_bind (field?_keeps hty (by decide)) fun _ => rfl

instance : HasForm (Recursion μ) :=
  ⟨.record [("depth", form UInt32), ("default", form (Expr μ))]⟩

instance : Tolerant (Recursion μ) where
  read?_trims h := by
    unfold instRecursion
    dsimp only
    refine h.recordCases ["depth", "default"] rfl rfl rfl ?_
    rintro _ _ (_ | ⟨hdepth, _ | ⟨hfallback, _ | _⟩⟩)
    exact bind_eq_bind (field?_keeps hdepth (by decide)) fun _ =>
      bind_eq_bind (field?_keeps hfallback (by decide)) fun _ => rfl

instance : HasForm (VarDecl μ) :=
  ⟨.record [("name", form String), ("init", form (Expr μ)), ("line", form Line)]⟩

instance : Tolerant (VarDecl μ) where
  read?_trims h := by
    unfold instVarDecl
    dsimp only
    refine h.recordCases ["name", "init", "line"] rfl rfl rfl ?_
    rintro _ _ (_ | ⟨hname, _ | ⟨hinit, _ | ⟨hline, _ | _⟩⟩⟩)
    exact bind_eq_bind (field?_keeps hname (by decide)) fun _ =>
      bind_eq_bind (field?_keeps hinit (by decide)) fun _ =>
      bind_eq_bind (field?_keeps hline (by decide)) fun _ => rfl

omit [MarkForm μ] [TolerantMark μ] in
/-- Only a body is read from a variant with a payload. -/
theorem readBody?_eq_none {j v : Json} {tag : String} {hv : sizeOf v < sizeOf j}
    (h : j.variant? = some (tag, some ⟨v, hv⟩))
    (hbare : isBare (some ⟨v, hv⟩ : Option j.Part) = false)
    (htag : tag ≠ "Defined") : (readBody? j : Option (Option (Expr μ))) = none := by
  rw [readBody?, h]
  split
  · next heq =>
    cases heq
    rw [hbare]
    rfl
  · next heq =>
    cases heq
    exact absurd rfl htag
  · rfl

/-- The form of a function's body. -/
def bodyForm (μ : Type) [MarkForm μ] : Form := .variant [("Defined", form (Expr μ))]

theorem readBody?_keeps {j j' : Json} (h : Keeps (bodyForm μ) j j') :
    (readBody? j : Option (Option (Expr μ))) = readBody? j' := by
  rcases h with rfl | h
  · rfl
  rcases h.variant? rfl with ⟨h₁, h₂⟩ | ⟨tag, v, w, hv, hw, h₁, h₂, hvw⟩
  · rw [readBody?, readBody?, h₁, h₂]
  by_cases htag : tag = "Defined"
  · subst htag
    rw [readBody?, readBody?, h₁, h₂]
    exact congrArg (Option.map some) (Tolerant.read?_trims hvw)
  · rw [readBody?_eq_none h₁ (hvw.isBare_left hv) htag,
      readBody?_eq_none h₂ (hvw.isBare_right hw) htag]

instance : HasForm (FunDecl μ) :=
  ⟨.record [("name", form String), ("params", form (List Param)), ("ret", form Ty),
    ("recursion", form (Recursion μ)), ("body", bodyForm μ), ("line", form Line)]⟩

instance : Tolerant (FunDecl μ) where
  read?_trims h := by
    unfold instFunDecl
    dsimp only
    refine h.recordCases ["name", "params", "ret", "recursion", "body", "line"] rfl rfl rfl ?_
    rintro _ _ (_ | ⟨hname, _ | ⟨hparams, _ | ⟨hret, _ | ⟨hrecursion, _ |
      ⟨hbody, _ | ⟨hline, _ | _⟩⟩⟩⟩⟩⟩)
    exact bind_eq_bind (field?_keeps hname (by decide)) fun _ =>
      bind_eq_bind (field?_keeps hparams (by decide)) fun _ =>
      bind_eq_bind (field?_keeps hret (by decide)) fun _ =>
      bind_eq_bind (optional?_keeps hrecursion) fun _ =>
      bind_eq_bind (bind_keeps hbody (by decide) readBody?_keeps) fun _ =>
      bind_eq_bind (field?_keeps hline (by decide)) fun _ => rfl

instance : HasForm Operation :=
  ⟨.record [("name", form String), ("type_params", form (List String)),
    ("params", form (List Ty)), ("ret", form Ty)]⟩

instance : Tolerant Operation where
  read?_trims h := by
    unfold instOperation
    dsimp only
    refine h.recordCases ["name", "type_params", "params", "ret"] rfl rfl rfl ?_
    rintro _ _ (_ | ⟨hname, _ | ⟨htypeParams, _ | ⟨hparams, _ | ⟨hret, _ | _⟩⟩⟩⟩)
    exact bind_eq_bind (field?_keeps hname (by decide)) fun _ =>
      bind_eq_bind (field?_keeps htypeParams (by decide)) fun _ =>
      bind_eq_bind (field?_keeps hparams (by decide)) fun _ =>
      bind_eq_bind (field?_keeps hret (by decide)) fun _ => rfl

instance : HasForm Library :=
  ⟨.record [("name", form String), ("functions", form (List Operation))]⟩

instance : Tolerant Library where
  read?_trims h := by
    unfold instLibrary
    dsimp only
    refine h.recordCases ["name", "functions"] rfl rfl rfl ?_
    rintro _ _ (_ | ⟨hname, _ | ⟨hoperations, _ | _⟩⟩)
    exact bind_eq_bind (field?_keeps hname (by decide)) fun _ =>
      bind_eq_bind (field?_keeps hoperations (by decide)) fun _ => rfl

instance : HasForm RawProgram :=
  ⟨.record [("variables", form (List (VarDecl Line))), ("functions", form (List (FunDecl Line)))]⟩

instance : Tolerant RawProgram where
  read?_trims h := by
    unfold instRawProgram
    dsimp only
    refine h.recordCases ["variables", "functions"] rfl rfl rfl ?_
    rintro _ _ (_ | ⟨hvariables, _ | ⟨hfunctions, _ | _⟩⟩)
    exact bind_eq_bind (field?_keeps hvariables (by decide)) fun _ =>
      bind_eq_bind (field?_keeps hfunctions (by decide)) fun _ => rfl

instance : HasForm TypedProgram :=
  ⟨.record [("variables", form (List (VarDecl Mark))), ("functions", form (List (FunDecl Mark))),
    ("runtime", form Library)]⟩

instance : Tolerant TypedProgram where
  read?_trims h := by
    unfold instTypedProgram
    dsimp only
    refine h.recordCases ["variables", "functions", "runtime"] rfl rfl rfl ?_
    rintro _ _ (_ | ⟨hvariables, _ | ⟨hfunctions, _ | ⟨hlibrary, _ | _⟩⟩⟩)
    exact bind_eq_bind (field?_keeps hvariables (by decide)) fun _ =>
      bind_eq_bind (field?_keeps hfunctions (by decide)) fun _ =>
      bind_eq_bind (optional?_keeps hlibrary) fun _ => rfl

instance : HasForm LoweredProgram :=
  ⟨.record [("variables", form (List (VarDecl Mark))), ("main", form TypedExpr),
    ("runtime", form Library)]⟩

instance : Tolerant LoweredProgram where
  read?_trims h := by
    unfold instLoweredProgram
    dsimp only
    refine h.recordCases ["variables", "main", "runtime"] rfl rfl rfl ?_
    rintro _ _ (_ | ⟨hvariables, _ | ⟨hmain, _ | ⟨hlibrary, _ | _⟩⟩⟩)
    exact bind_eq_bind (field?_keeps hvariables (by decide)) fun _ =>
      bind_eq_bind (field?_keeps hmain (by decide)) fun _ =>
      bind_eq_bind (optional?_keeps hlibrary) fun _ => rfl

instance : HasForm Rule :=
  ⟨.record [("condition", form TypedExpr), ("action", form TypedExpr)]⟩

instance : Tolerant Rule where
  read?_trims h := by
    unfold instRule
    dsimp only
    refine h.recordCases ["condition", "action"] rfl rfl rfl ?_
    rintro _ _ (_ | ⟨hcondition, _ | ⟨haction, _ | _⟩⟩)
    exact bind_eq_bind (field?_keeps hcondition (by decide)) fun _ =>
      bind_eq_bind (field?_keeps haction (by decide)) fun _ => rfl

/-! ## The stored form -/

/-- Writes what is read from a tree. -/
def rewrite? (α : Type) [Stored α] (j : Json) : Option Json := (read? j : Option α).map write

theorem read?_of_rewrite? [Stored α] [Lossless α] {j j' : Json} (h : rewrite? α j = some j') :
    (read? j' : Option α) = read? j := by
  obtain ⟨a, ha, rfl⟩ := Option.map_eq_some_iff.1 h
  rw [Lossless.read?_write, ha]

/-- What the stored form of a type promises. -/
structure Faithful (α : Type) [Stored α] [HasForm α] : Prop where
  /-- The stored form of a value is read as that value. -/
  read?_write : ∀ a : α, read? (write a) = some a
  /-- A tree of whatever form and the tree it is rewritten to are read alike. -/
  read?_rewrite : ∀ j j', rewrite? α j = some j' → (read? j' : Option α) = read? j
  /-- A tree is rewritten once and for all. -/
  rewrite?_idem : ∀ j j', rewrite? α j = some j' → rewrite? α j' = some j'
  /-- Members that are no fields of the record they stand in are ignored, and `recursion` and
  `runtime` are read as `null` where they are missing, at any depth. -/
  read?_trims : ∀ j j', Trims (form α) j j' → (read? j : Option α) = read? j'

theorem Faithful.of_lossless (α : Type) [Stored α] [Lossless α] [HasForm α] [Tolerant α] :
    Faithful α where
  read?_write := Lossless.read?_write
  read?_rewrite _ _ := read?_of_rewrite?
  rewrite?_idem j j' h := by
    rw [rewrite?, read?_of_rewrite? h]
    exact h
  read?_trims _ _ := Tolerant.read?_trims

/-- **The stored form loses nothing**, whether what is stored is a type, a literal, an operator, an
expression, a program of any of the three kinds, a library or a rule. -/
theorem stored_faithful :
    Faithful Ty ∧ Faithful Literal ∧ Faithful Operator ∧ Faithful TypedExpr ∧ Faithful RawExpr ∧
    Faithful RawProgram ∧ Faithful TypedProgram ∧ Faithful LoweredProgram ∧ Faithful Library ∧
    Faithful Rule :=
  ⟨.of_lossless _, .of_lossless _, .of_lossless _, .of_lossless _, .of_lossless _,
    .of_lossless _, .of_lossless _, .of_lossless _, .of_lossless _, .of_lossless _⟩

end Stored

end Rulebook
