import Rulebook.Proofs.Typing.Defects

/-!
# The text of types

The text of a type says where it ends: whatever is written after two types, they are equal if their
texts go on to be the same (`Ty.delimited`). A function type has no brackets around its result,
but needs none. After its opening bracket stands a closing one or a parameter, which does not begin
with one; after each parameter stands a closing bracket or a comma; and the result is the last thing
written. So types are equal if their texts are (`Ty.text_injective`).

A message about a wrong type quotes the texts of two types. No type has the quotation mark in its
text, so both texts can be read from the message (`Defect.mismatch_inj`), and they are never the same
(`Ty.text_tells_apart`).
-/

namespace Rulebook

/-! ## Texts of types -/

namespace Ty

/-- The text of the parameters after the first, and of the arrow after them. -/
def moreParams : List Ty → String
  | [] => ") -> "
  | p :: ps => ", " ++ (p.text ++ moreParams ps)

/-- The text of all parameters, and of the arrow after them. -/
def allParams : List Ty → String
  | [] => ") -> "
  | p :: ps => p.text ++ moreParams ps

theorem intercalate_texts (params : List Ty) :
    ", ".intercalate (params.map text) ++ ") -> " = allParams params := by
  cases params with
  | nil => rfl
  | cons p ps =>
    induction ps generalizing p with
    | nil => rw [List.map_cons, List.map_nil, String.intercalate_singleton, allParams, moreParams]
    | cons q qs ih =>
      rw [List.map_cons, List.map_cons, String.intercalate_cons_cons, ← List.map_cons,
        String.append_assoc, ih, allParams, allParams, moreParams, String.append_assoc]

theorem toList_text_fn (params : List Ty) (ret : Ty) :
    (fn params ret).text.toList = '(' :: ((allParams params).toList ++ ret.text.toList) := by
  rw [text, texts_eq_map, ← intercalate_texts]
  simp only [String.toList_append, List.append_assoc]
  rfl

theorem toList_moreParams_cons (p : Ty) (ps : List Ty) :
    (moreParams (p :: ps)).toList = ", ".toList ++ (p.text.toList ++ (moreParams ps).toList) := by
  rw [moreParams, String.toList_append, String.toList_append]

theorem toList_allParams_cons (p : Ty) (ps : List Ty) :
    (allParams (p :: ps)).toList = p.text.toList ++ (moreParams ps).toList := by
  rw [allParams, String.toList_append]

/-- A text does not begin with a closing bracket. -/
theorem closing_append_ne_text (t : Ty) (u v : List Char) :
    ") -> ".toList ++ u ≠ t.text.toList ++ v := by
  intro h
  cases t with
  | void | int | bool => cases h
  | fn params ret =>
    rw [toList_text_fn] at h
    cases h

/-- The type and what is written after it are found from the letters of both. -/
def Delimited (t : Ty) : Prop :=
  ∀ (s : Ty) (u v : List Char), t.text.toList ++ u = s.text.toList ++ v → t = s ∧ u = v

theorem moreParams_append_inj {ps qs : List Ty} {u v : List Char} (hps : ∀ p ∈ ps, p.Delimited)
    (h : (moreParams ps).toList ++ u = (moreParams qs).toList ++ v) : ps = qs ∧ u = v := by
  induction ps generalizing qs with
  | nil =>
    cases qs with
    | nil => exact ⟨rfl, List.append_cancel_left h⟩
    | cons q qs =>
      rw [toList_moreParams_cons] at h
      cases h
  | cons p ps ih =>
    rw [toList_moreParams_cons] at h
    cases qs with
    | nil => cases h
    | cons q qs =>
      obtain ⟨hp, hps⟩ := List.forall_mem_cons.1 hps
      simp only [toList_moreParams_cons, List.append_assoc] at h
      obtain ⟨rfl, hrest⟩ := hp q _ _ (List.append_cancel_left h)
      obtain ⟨rfl, huv⟩ := ih hps hrest
      exact ⟨rfl, huv⟩

theorem allParams_append_inj {ps qs : List Ty} {u v : List Char} (hps : ∀ p ∈ ps, p.Delimited)
    (h : (allParams ps).toList ++ u = (allParams qs).toList ++ v) : ps = qs ∧ u = v := by
  cases ps with
  | nil =>
    cases qs with
    | nil => exact ⟨rfl, List.append_cancel_left h⟩
    | cons q qs =>
      rw [toList_allParams_cons, List.append_assoc] at h
      exact absurd h (closing_append_ne_text q u _)
  | cons p ps =>
    cases qs with
    | nil =>
      rw [toList_allParams_cons, List.append_assoc] at h
      exact absurd h.symm (closing_append_ne_text p v _)
    | cons q qs =>
      obtain ⟨hp, hps⟩ := List.forall_mem_cons.1 hps
      rw [toList_allParams_cons, toList_allParams_cons, List.append_assoc, List.append_assoc] at h
      obtain ⟨rfl, hmore⟩ := hp q _ _ h
      obtain ⟨rfl, huv⟩ := moreParams_append_inj hps hmore
      exact ⟨rfl, huv⟩

/-- **The text of a type says where it ends.** -/
theorem delimited (t : Ty) : t.Delimited := by
  intro s u v h
  -- the first letter tells the four forms apart
  induction t using Ty.induct generalizing s u v with
  | void =>
    cases s with
    | void => exact ⟨rfl, List.append_cancel_left h⟩
    | int | bool => cases h
    | fn params ret => rw [toList_text_fn] at h; cases h
  | int =>
    cases s with
    | int => exact ⟨rfl, List.append_cancel_left h⟩
    | void | bool => cases h
    | fn params ret => rw [toList_text_fn] at h; cases h
  | bool =>
    cases s with
    | bool => exact ⟨rfl, List.append_cancel_left h⟩
    | void | int => cases h
    | fn params ret => rw [toList_text_fn] at h; cases h
  | fn params ret hparams hret =>
    rw [toList_text_fn] at h
    cases s with
    | void | int | bool => cases h
    | fn params' ret' =>
      simp only [toList_text_fn, List.cons_append, List.append_assoc] at h
      obtain ⟨rfl, hlast⟩ := allParams_append_inj hparams (List.cons.inj h).2
      obtain ⟨rfl, huv⟩ := hret ret' u v hlast
      exact ⟨rfl, huv⟩

theorem text_injective : Function.Injective text := by
  intro s t h
  exact (s.delimited t [] [] (by rw [h])).1

theorem quote_not_mem_moreParams {ps : List Ty} (hps : ∀ p ∈ ps, '\x60' ∉ p.text.toList) :
    '\x60' ∉ (moreParams ps).toList := by
  induction ps with
  | nil => decide
  | cons p ps ih =>
    obtain ⟨hp, hps⟩ := List.forall_mem_cons.1 hps
    rw [toList_moreParams_cons, List.mem_append, List.mem_append, not_or, not_or]
    exact ⟨by decide, hp, ih hps⟩

/-- No text has a quotation mark, `'\x60'`, in it. -/
theorem quote_not_mem_text (t : Ty) : '\x60' ∉ t.text.toList := by
  induction t using Ty.induct with
  | void | int | bool => decide
  | fn params ret hparams hret =>
    have hall : '\x60' ∉ (allParams params).toList := by
      cases params with
      | nil => decide
      | cons p ps =>
        obtain ⟨hp, hps⟩ := List.forall_mem_cons.1 hparams
        rw [toList_allParams_cons, List.mem_append, not_or]
        exact ⟨hp, quote_not_mem_moreParams hps⟩
    rw [toList_text_fn, List.mem_cons, List.mem_append, not_or, not_or]
    exact ⟨by decide, hall, hret⟩

end Ty

/-! ## Messages about types -/

namespace Defect

/-- The message that one thing was expected and another found. -/
def mismatch (expected found : String) (line : Line) : String :=
  atLine line ("expected `" ++ expected ++ "`, found `" ++ found ++ "`")

theorem toList_mismatch (expected found : String) (line : Line) :
    (mismatch expected found line).toList = (atLine line "expected ").toList ++ '\x60' ::
      (expected.toList ++ '\x60' :: (", found ".toList ++ '\x60' :: (found.toList ++ ['\x60']))) := by
  simp only [mismatch, atLine, String.toList_append, List.append_assoc]
  rfl

theorem quote_not_mem_atLine (line : Line) {what : String} (hwhat : '\x60' ∉ what.toList) :
    '\x60' ∉ (atLine line what).toList := by
  have hnumber : '\x60' ∉ line.toNat.repr.toList := by
    rw [Nat.toList_repr]
    intro hmem
    exact absurd (Nat.isDigit_of_mem_toDigits (by decide) (by decide) hmem) (by decide)
  simp only [atLine, String.toList_append, List.mem_append, not_or]
  exact ⟨⟨⟨by decide, hnumber⟩, by decide⟩, hwhat⟩

/-- What stands before the first quotation mark, and what stands after it. -/
theorem quoted_inj {u u' r r' : List Char} (hu : '\x60' ∉ u) (hu' : '\x60' ∉ u')
    (h : u ++ '\x60' :: r = u' ++ '\x60' :: r') : u = u' ∧ r = r' := by
  have hsplit : ∀ {w : List Char} (rest : List Char), '\x60' ∉ w →
      (w ++ '\x60' :: rest).splitOnP (· == '\x60') = w :: rest.splitOnP (· == '\x60') := by
    intro w rest hw
    refine List.splitOnP_append_cons_of_forall_mem (fun c hc => ?_) _ rfl rest
    exact beq_false_of_ne fun hmark => hw (hmark ▸ hc)
  have hpieces := congrArg (List.splitOnP (· == '\x60')) h
  rw [hsplit r hu, hsplit r' hu'] at hpieces
  obtain rfl : u = u' := (List.cons.inj hpieces).1
  exact ⟨rfl, (List.cons.inj (List.append_cancel_left h)).2⟩

/-- **Both texts can be read from the message**, if there is no quotation mark in them. -/
theorem mismatch_inj {expected found expected' found' : String} {line line' : Line}
    (hexpected : '\x60' ∉ expected.toList) (hfound : '\x60' ∉ found.toList)
    (h : mismatch expected found line = mismatch expected' found' line') :
    expected = expected' ∧ found = found' := by
  have hstart : ∀ line, '\x60' ∉ (atLine line "expected ").toList :=
    fun line => quote_not_mem_atLine line (by decide)
  have hletters := congrArg String.toList h
  rw [toList_mismatch, toList_mismatch] at hletters
  -- both messages have as many quotation marks, so the other two texts have none either
  have hcount := congrArg (List.count '\x60') hletters
  simp only [List.count_append, List.count_cons_self, List.count_nil,
    List.count_eq_zero.2 (hstart _), List.count_eq_zero.2 hexpected,
    List.count_eq_zero.2 hfound] at hcount
  have hexpected' : '\x60' ∉ expected'.toList := List.count_eq_zero.1 (by omega)
  obtain ⟨-, hquoted⟩ := quoted_inj (hstart line) (hstart line') hletters
  obtain ⟨heq, hrest⟩ := quoted_inj hexpected hexpected' hquoted
  have hlast := (List.cons.inj (List.append_cancel_left hrest)).2
  exact ⟨String.toList_inj.1 heq, String.toList_inj.1 (List.append_cancel_right hlast)⟩

end Defect

/-- **The text of a type tells it apart.** Types with one text are equal. So an expression that is
refused for its type is refused with a message that names the two types by different texts, and that
cannot be read as a message in which the same text is expected and found. -/
theorem Ty.text_tells_apart :
    Function.Injective text ∧
    ∀ (t : Ty) (e : TypedExpr) (defect : Defect), e.expect t = .error defect →
      defect.message = Defect.mismatch t.text e.ty.text e.line ∧ t.text ≠ e.ty.text ∧
      ∀ same line, defect.message ≠ Defect.mismatch same same line := by
  refine ⟨text_injective, fun t e defect h => ?_⟩
  obtain ⟨hne, rfl⟩ := Expr.expect_eq_error.1 h
  have htexts : t.text ≠ e.ty.text := fun heq => hne (text_injective heq).symm
  refine ⟨rfl, htexts, fun same line hsame => ?_⟩
  obtain ⟨rfl, hfound⟩ :=
    Defect.mismatch_inj t.quote_not_mem_text e.ty.quote_not_mem_text hsame
  exact htexts hfound.symm

/-- A function of two parameters is asked for, and one that gives a function is found. -/
theorem Ty.curried_told_apart :
    let asked : Ty := .fn [.fn [] .int, .bool] .void
    let curried : TypedExpr := .var ⟨.fn [.fn [] .int] (.fn [.bool] .void), 3⟩ "f"
    let defect : Defect := .wrongType (.ty asked) curried.ty 3
    curried.expect asked = .error defect ∧
      defect.message =
        "line 3: expected `(() -> int, bool) -> void`, found `(() -> int) -> (bool) -> void`" ∧
      asked.text ≠ curried.ty.text ∧
      ∀ same line, defect.message ≠ Defect.mismatch same same line := by
  intro asked curried defect
  have hexpect : curried.expect asked = .error defect := rfl
  obtain ⟨-, htexts, hmessage⟩ := text_tells_apart.2 asked curried defect hexpect
  exact ⟨hexpect, by decide +kernel, htexts, hmessage⟩

end Rulebook
